import ToolBindings.Descriptor.Input
import ToolBindings.Template.Placeholder

/-!
# The tree of a descriptor

The command line of a descriptor is divided into tokens, and each token at the keys of the inputs.
A token of several pieces is a sequence with an empty joint; the root is the sequence of all tokens.
A subcommand is a descriptor inside an input and is built in the same way.
-/
namespace ToolBindings.Descriptor

def keyedInputs (path : Json.Path) : Nat → List Json → List (String × Input)
  | _, [] => []
  | n, v :: vs =>
    let rest := keyedInputs path (n + 1) vs
    match object? v with
    | none => rest
    | some o =>
      match text? "value-key" o with
      | none => rest
      | some key => (key, ⟨o, path ++ [.key "inputs", .index n]⟩) :: rest

def listAt (key : String) (v : Json) : List Json := ((v.member? key).bind Json.arr?).getD []

def inputTable (path : Json.Path) (descriptor : Json) : OrderedMap String Input :=
  OrderedMap.ofList (keyedInputs path 0 (listAt "inputs" descriptor))

def tokensOf (path : Json.Path) (descriptor : Json) : Builder (List String) := do
  match descriptor.member? "command-line" with
  | none => do
    note ⟨.noTemplate, some path⟩
    return []
  | some template =>
    match Template.tokensOf template.str? with
    | .ok ts => return ts
    | .error e => do
      note ⟨.badTemplate e, some (path ++ [.key "command-line"])⟩
      return []

def pieceTrees (nested : Nested) :
    List (Template.Fragment Input) → Builder (List Tree × List String)
  | [] => return ([], [])
  | .literal text :: rest => do
    let t ← literal text
    let (ts, ids) ← pieceTrees nested rest
    return (t :: ts, ids)
  | .payload _ i :: rest => do
    let t? ← input? nested i
    let (ts, ids) ← pieceTrees nested rest
    return match t? with
      | some t => (t :: ts, i.id?.toList ++ ids)
      | none => (ts, ids)

def tokenTrees (nested : Nested) (table : OrderedMap String Input) :
    List String → Builder (List Tree × List String)
  | [] => return ([], [])
  | token :: tokens => do
    let (pieces, ids) ← pieceTrees nested (Template.destructure table token)
    let t ← match pieces with
      | [] => pure []
      | [t] => pure [t]
      | ts => do pure [← Tree.newGroup none (.sequence (some "")) ts]
    let (ts, ids') ← tokenTrees nested table tokens
    return (t ++ ts, ids ++ ids')

def pathParts (placed : List String) (unplaced : String → Finding) :
    List (Template.Fragment Input) → Builder (List PathPart)
  | [] => return []
  | .literal text :: rest => do
    let parts ← pathParts placed unplaced rest
    return if text = "" then parts else .text text :: parts
  | .payload key i :: rest => do
    let id := i.id?.getD key
    if id ∉ placed then note (unplaced id)
    return .input id :: (← pathParts placed unplaced rest)

def outputs (path : Json.Path) (table : OrderedMap String Input) (placed : List String) :
    Nat → List Json → Builder (List Output)
  | _, [] => return []
  | n, v :: vs => do
    match object? v with
    | none => outputs path table placed (n + 1) vs
    | some o => do
      let name := text? "id" o
      let unplaced (id : String) : Finding :=
        ⟨.unplacedInput (name.getD "<unnamed>") id, some (path ++ [.key "output-files", .index n])⟩
      let parts ← match text? "path-template" o with
        | none => pure []
        | some template => pathParts placed unplaced (Template.destructure table template)
      return ⟨name, documentation? o, parts⟩ :: (← outputs path table placed (n + 1) vs)

def withOutputs (m : Option Metadata) (os : List Output) : Option Metadata :=
  match m with
  | some m => some { m with outputs := m.outputs ++ os }
  | none => if os.isEmpty then none else some { outputs := os }

def treeOver (nested : Nested) : Nested := fun path descriptor m => do
  let table := inputTable path descriptor
  let tokens ← tokensOf path descriptor
  let (children, placed) ← tokenTrees nested table tokens
  let os ← outputs path table placed 0 (listAt "output-files" descriptor)
  Tree.newGroup (withOutputs m os) (.sequence none) children

def tree : Nat → Nested
  | 0 => treeOver fun _ _ m => Tree.newGroup m (.sequence none) []
  | depth + 1 => treeOver (tree depth)

/-- A descriptor as it was read: its app, the tree of its command line and what was found. Without
an app the tree is empty. -/
structure Parsed where
  app : Option App
  arena : Arena
  tree : Tree
  findings : List Finding

namespace Parsed

def diagnostics (p : Parsed) : List Diagnostic := p.findings.map Finding.diagnostic

def rejected (f : Finding) : Parsed :=
  let (t, a) := (Tree.newGroup none (.sequence none) []).run {}
  ⟨none, a, t, [f]⟩

end Parsed

def parse (source : String) : Parsed :=
  match Json.read source with
  | .error fault => .rejected ⟨.notJson (fault.message source), none⟩
  | .ok v =>
    match object? v with
    | none => .rejected ⟨.notObject, some []⟩
    | some d =>
      match app? d with
      | none => .rejected ⟨.noId, some []⟩
      | some app =>
        let ((t, findings), a) := ((tree Json.Reader.deepest [] d (some (named app.id))).run []).run {}
        ⟨some app, a, t, findings⟩

end ToolBindings.Descriptor
