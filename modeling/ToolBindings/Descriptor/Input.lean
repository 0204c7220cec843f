import ToolBindings.Descriptor.Fields
import ToolBindings.Descriptor.Issue
import ToolBindings.Tree.Record

/-!
# Inputs of a descriptor

An input becomes a tree: a leaf for its type, a choice of literals for its value choices, or the
tree of a subcommand. A list is repeated, a flag text stands before it, and all of that is optional
if the input is. An input with an error becomes no tree and leaves nothing in the arena.
-/
namespace ToolBindings.Descriptor

structure Input where
  object : Json
  path : Json.Path
  deriving Repr

namespace Input

def id? (i : Input) : Option String := text? "id" i.object

def shownId (i : Input) : String := i.id?.getD "<unnamed>"

def finding (i : Input) (issue : Issue) : Finding := ⟨issue, some i.path⟩

def findingAt (i : Input) (p : Json.Path) (issue : Issue) : Finding := ⟨issue, some (i.path ++ p)⟩

end Input

inductive Kind
  | text
  | integer
  | number
  | file
  | flag
  | subcommand (descriptor : Json)
  | union (alternatives : List Json)
  deriving Repr

/-- The kind of an input; choices that are no list are kept to be reported. -/
structure Form where
  kind : Kind
  isList : Bool
  isOptional : Bool
  choices : Option Json
  deriving Repr

def kind (i : Input) : Except Finding Kind :=
  match i.object.member? "type" with
  | none | some .null => .error (i.finding (.missingType i.shownId))
  | some (.obj ms) => .ok (.subcommand (.obj ms))
  | some (.arr vs) => .ok (.union vs)
  | some (.str s) =>
    if s = "String" then .ok .text
    else if s = "File" then .ok .file
    else if s = "Flag" then .ok .flag
    else if s = "Number" then .ok (if isTrue "integer" i.object then .integer else .number)
    else .error (i.finding (.unknownType s))
  | some v => .error (i.finding (.unknownType v.compact))

def form (i : Input) : Except Finding Form := do
  let choices := i.object.member? "value-choices"
  match ← kind i with
  | .flag => return ⟨.flag, false, true, none⟩
  | .file =>
    if choices.isSome then throw (i.finding (.choicesOfFile i.shownId))
    return ⟨.file, isTrue "list" i.object, isTrue "optional" i.object, none⟩
  | k => return ⟨k, isTrue "list" i.object, isTrue "optional" i.object, choices⟩

abbrev Builder := StateT (List Finding) Recorder

def note (f : Finding) : Builder Unit := modify (· ++ [f])

abbrev InputBuilder := ExceptT Finding Builder

def literal (text : String) : Builder Tree := Tree.newTerminal none (.literal text)

def clamp (n : Int) : Int := max Reading.leastInt (min Reading.greatestInt n)

def integer? (key : String) (v : Json) : Option Int :=
  ((v.member? key).bind Json.double?).bind fun x => x.floor?.map clamp

def number? (key : String) (v : Json) : Option Binary64 := (v.member? key).bind Json.double?

def integerLeaf (i : Input) : Builder Terminal := do
  let o := i.object
  let lo := (integer? "minimum" o).map fun n =>
    if isTrue "exclusive-minimum" o then clamp (n + 1) else n
  let hi := (integer? "maximum" o).map fun n =>
    if isTrue "exclusive-maximum" o then clamp (n - 1) else n
  if let (some l, some h) := (lo, hi) then
    if h < l then note (i.finding (.emptyRange l h i.shownId))
  return .int lo hi

def literals (i : Input) : Nat → List Json → Builder (List Tree)
  | _, [] => return []
  | n, v :: vs => do
    match v with
    | .str s => return (← literal s) :: (← literals i (n + 1) vs)
    | .int k => return (← literal (intText k)) :: (← literals i (n + 1) vs)
    | .double x => return (← literal x.plainText) :: (← literals i (n + 1) vs)
    | v =>
      note (i.findingAt [.key "value-choices", .index n] (.ignoredChoice v))
      literals i (n + 1) vs

def choiceTree (i : Input) (choices : Json) : InputBuilder Tree := do
  match choices with
  | .arr vs =>
    match ← literals i 0 vs with
    | [] => throw (i.findingAt [.key "value-choices"] (.noChoices i.shownId))
    | ts => Tree.newGroup (metadata? i.object) .alternative ts
  | _ => throw (i.findingAt [.key "value-choices"] (.choicesNotList i.shownId))

def alternatives (i : Input) : Nat → List Json → Builder (List (Nat × Json))
  | _, [] => return []
  | n, v :: vs => do
    match object? v with
    | some o => return (n, o) :: (← alternatives i (n + 1) vs)
    | none =>
      note (i.findingAt [.key "type", .index n] .skippedAlternative)
      alternatives i (n + 1) vs

/-- How the tree of a descriptor inside an input is built: from where it stands, the descriptor and
the metadata of its root. -/
abbrev Nested := Json.Path → Json → Option Metadata → Builder Tree

def ownName (descriptor : Json) : Option Metadata := (Descriptor.id? descriptor).map named

def alternativeTrees (nested : Nested) (i : Input) : List (Nat × Json) → Builder (List Tree)
  | [] => return []
  | (n, o) :: rest => do
    let t ← nested (i.path ++ [.key "type", .index n]) o (ownName o)
    return t :: (← alternativeTrees nested i rest)

/-- A single alternative stands for the union, and the metadata of the input goes before its own. -/
def unionTree (nested : Nested) (i : Input) (vs : List Json) : InputBuilder Tree := do
  match ← alternatives i 0 vs with
  | [] => throw (i.findingAt [.key "type"] (.noAlternatives i.shownId))
  | [(n, o)] =>
    nested (i.path ++ [.key "type", .index n]) o (Metadata.merge (ownName o) (metadata? i.object))
  | os => do
    let ts ← alternativeTrees nested i os
    Tree.newGroup (metadata? i.object) .alternative ts

def kindTree (nested : Nested) (i : Input) (k : Kind) : InputBuilder Tree := do
  let o := i.object
  let m := metadata? o
  match k with
  | .text => Tree.newTerminal m .str
  | .integer => do Tree.newTerminal m (← integerLeaf i)
  | .number => Tree.newTerminal m (.float (number? "minimum" o) (number? "maximum" o))
  | .file => Tree.newTerminal m (.path (isTrue "resolve-parent" o) (isTrue "mutable" o))
  | .flag =>
    match text? "command-line-flag" o with
    | none => throw (i.finding (.flagWithoutText i.shownId))
    | some flag => Tree.newWrap m .optional (← literal flag)
  | .subcommand d => nested (i.path ++ [.key "type"]) d m
  | .union vs => unionTree nested i vs

def entryBound (i : Input) (key : String) : Builder (Option Nat) := do
  match i.object.member? key with
  | none => return none
  | some v =>
    if v.count?.isNone then note (i.findingAt [.key key] (.invalidCount key i.shownId v))
    return v.count?

def entryBounds (i : Input) : Builder (Option Nat × Option Nat) := do
  let lo ← entryBound i "min-list-entries"
  let hi ← entryBound i "max-list-entries"
  if let (some l, some h) := (lo, hi) then
    if h < l then
      note (i.finding (.contradictoryCounts l h i.shownId))
      return (none, none)
  return (lo, hi)

def wrapped (i : Input) (f : Form) (t : Tree) : Builder Tree := do
  let t ← if f.isList then do
      let (lo, hi) ← entryBounds i
      Tree.newWrap none (.repetition (text? "list-separator" i.object) lo hi) t
    else pure t
  let t ← match text? "command-line-flag" i.object with
    | some flag => do
      let separator := (text? "command-line-flag-separator" i.object).getD ""
      let lead ← literal (flag ++ separator)
      Tree.newGroup none (.sequence none) [lead, t]
    | none => pure t
  if f.isOptional then Tree.newWrap none .optional t else pure t

def inputTree (nested : Nested) (i : Input) : InputBuilder Tree := do
  let f ← form i
  match f.choices, f.kind with
  | some vs, _ => wrapped i f (← choiceTree i vs)
  | none, .flag => kindTree nested i .flag
  | none, k => wrapped i f (← kindTree nested i k)

def input? (nested : Nested) (i : Input) : Builder (Option Tree) := do
  match ← (inputTree nested i).run with
  | .ok t => return some t
  | .error f => do note f; return none

end ToolBindings.Descriptor
