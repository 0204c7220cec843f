import ToolBindings.Rewrite.Sweep

/-!
# Simplification

An optional around an optional becomes one optional, and a repetition of a repetition one
repetition unless its bounds would contradict each other. In a sequence that puts nothing between
its children, neighbouring literals without metadata become one literal. A sequence of one child
becomes that child, and so does a choice of one child that carries no metadata. Where two nodes
become one their metadata is merged.
-/
namespace ToolBindings.Simplify

def stricter (pick : Nat → Nat → Nat) : Option Nat → Option Nat → Option Nat := Option.merge pick

def contradict : Option Nat → Option Nat → Bool
  | some lo, some hi => hi < lo
  | _, _ => false

/-- The one wrapper that does what a wrapper around a wrapper does. -/
def mergeWrappers? : Wrapper → Wrapper → Option Wrapper
  | .optional, .optional => some .optional
  | .repetition j lo hi, .repetition j' lo' hi' =>
    let lo := stricter max lo lo'
    let hi := stricter min hi hi'
    if contradict lo hi then none else some (.repetition (j.or j') lo hi)
  | _, _ => none

def wrapped (t : Tree) (w : Wrapper) (inner : Tree) : Recorder Rewritten := do
  match inner with
  | .wrap _ m w' c =>
    match mergeWrappers? w w' with
    | some v => return ⟨← Tree.newWrap (Metadata.merge t.metadata m) v c, true⟩
    | none => return ⟨← t.withChildren [inner], false⟩
  | _ => return ⟨← t.withChildren [inner], false⟩

def plainLiteral? : Tree → Option String
  | .terminal _ none (.literal text) => some text
  | _ => none

def fusedText? (s t : Tree) : Option String := do return (← plainLiteral? s) ++ (← plainLiteral? t)

/-- Fuses a child with the literals that follow it, and tells whether any were fused. -/
def fuseFrom (c : Tree) : List Tree → Recorder (List Tree × Bool)
  | [] => return ([c], false)
  | d :: ds => do
    match fusedText? c d with
    | some text =>
      let (es, _) ← fuseFrom (← Tree.newTerminal none (.literal text)) ds
      return (es, true)
    | none =>
      let (es, fused) ← fuseFrom d ds
      return (c :: es, fused)

def fuse : List Tree → Recorder (List Tree × Bool)
  | [] => return ([], false)
  | c :: cs => fuseFrom c cs

def isPlain (joint : Option String) : Bool := joint.getD "" = ""

def fuseUnder (joint : Option String) (children : List Tree) : Recorder (List Tree × Bool) :=
  if isPlain joint then fuse children else return (children, false)

def collapsed (t : Tree) (children : List Tree) (fused : Bool) : Recorder Rewritten := do
  match children with
  | [only] => return ⟨← only.withMetadata (Metadata.merge t.metadata only.metadata), true⟩
  | cs => return ⟨← t.withChildren cs, fused⟩

def step (t : Tree) (children : List Tree) : Recorder Rewritten := do
  match t, children with
  | .wrap _ _ w _, [inner] => wrapped t w inner
  | .group _ _ (.sequence joint) _, cs =>
    let (cs, fused) ← fuseUnder joint cs
    collapsed t cs fused
  | .group _ none .alternative _, [only] => return ⟨only, true⟩
  | t, cs => return ⟨← t.withChildren cs, false⟩

def run (t : Tree) : Rewriting Rewritten := t.sweep step

end ToolBindings.Simplify
