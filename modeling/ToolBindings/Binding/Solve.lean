import ToolBindings.Binding.Naming
import ToolBindings.Binding.Registry

/-!
# Solving a tree

The type of a node comes from the types of its children. A literal has none, and neither has a
sequence of literals. A wrapper around what has no type is a flag or a count; around a type it is an
optional or a list. A sequence of several named types is a structure, one of a single type has that
type. A choice is a union; it is a flag if it chooses between 0 and 1 or between false and true.
Where a union has a variant that is no literal, every such variant is a structure whose first field
tells its name.

Every node with a type of its own is bound, after the nodes below it.
-/
namespace ToolBindings

structure SolveState (σ : Type) where
  naming : σ
  bindings : List Binding := []

abbrev Solving (σ : Type) := ExceptT MissingNode (StateM (SolveState σ))

namespace Solving
variable {σ : Type}

def named {α : Type} (x : ExceptT MissingNode (StateM σ) α) : Solving σ α :=
  fun s => let (a, n) := x s.naming; (a, { s with naming := n })

def bind (n : Naming σ) (node : NodeId) (name : String) (type : ValueType) :
    Solving σ ValueType := do
  let id ← named (liftM n.freshId)
  modify fun s => { s with bindings := s.bindings ++ [⟨id, node, name, type⟩] }
  return type

def scalar? : Terminal → Option Scalar
  | .literal _ => none
  | .int .. => some .int
  | .float .. => some .float
  | .str => some .str
  | .path .. => some .path

def wrapperType : Wrapper → Option ValueType → ValueType
  | .optional, none => .bool
  | .optional, some t => .optional t
  | .repetition .., none => .count
  | .repetition .., some t => .list t

def literalValue (text : String) : Literal :=
  match Reading.int? text with
  | some n => if intText n = text then .int n else .str text
  | none => .str text

inductive Flag
  | digit (on : Bool)
  | word (on : Bool)
  deriving DecidableEq, Repr

def flag? : ValueType → Option Flag
  | .literal (.int 0) => some (.digit false)
  | .literal (.int 1) => some (.digit true)
  | .literal (.str s) =>
    if s = "0" then some (.digit false)
    else if s = "1" then some (.digit true)
    else if s = "false" then some (.word false)
    else if s = "true" then some (.word true)
    else none
  | _ => none

def isFlagPair : List ValueType → Bool
  | [s, t] => match flag? s, flag? t with
    | some (.digit a), some (.digit b) => a != b
    | some (.word a), some (.word b) => a != b
    | _, _ => false
  | _ => false

def candidate (base : String) : Nat → String
  | 0 => base
  | n + 1 => base ++ "_" ++ toString (n + 2)

def firstUnused (used : List String) (base : String) : Nat → Nat → String
  | 0, n => candidate base n
  | tries + 1, n =>
    if candidate base n ∈ used then firstUnused used base tries (n + 1) else candidate base n

/-- Takes the first candidate that is not used, and gives the names that are used then. Of one more
candidates than used names one is unused. -/
def takeName (used : List String) (base : String) : String × List String :=
  let name := firstUnused used base used.length 0
  (name, name :: used)

def discriminator : String := "@type"

structure Variant where
  name : String
  type : ValueType
  tree : Tree

def variantBase (i : Nat) (t : Tree) : String :=
  match t.literal? with
  | some text => String.ofList (text.toList.dropWhile (· = '-'))
  | none => t.name?.getD ("variant_" ++ toString i)

def variantType (t : Tree) (type : Option ValueType) : ValueType :=
  type.getD ((t.literal?.map fun text => .literal (literalValue text)).getD .bool)

def tagged (v : Variant) : Except MissingNode (String × ValueType) := do
  let tag : OrderedMap String ValueType := [(discriminator, .literal (.str v.name))]
  match v.type with
  | .literal l => return (v.name, .literal l)
  | .struct fields =>
    let others := fields.filter fun f => f.1 ≠ discriminator
    return (v.name, .struct (OrderedMap.insertAll tag others))
  | t =>
    let field := (← v.tree.nearestName).getD "value"
    return (v.name, .struct (OrderedMap.insert field t tag))

def choiceType (vs : List Variant) : Except MissingNode ValueType :=
  if isFlagPair (vs.map (·.type)) then .ok .bool
  else if vs.all fun v => v.type.isLiteral then .ok (.union (vs.map fun v => (v.name, v.type)))
  else (vs.mapM tagged).map .union

mutual

def tree (n : Naming σ) : Tree → List String → Solving σ (Option ValueType)
  | .missing id, path => do
    let _ ← named (n.nameFor (.missing id) path)
    throw ⟨id⟩
  | .terminal id m t, path => do
    let name ← named (n.nameFor (.terminal id m t) path)
    match scalar? t with
    | none => return none
    | some s => return some (← bind n id name (.scalar s))
  | .wrap id m w c, path => do
    let name ← named (n.nameFor (.wrap id m w c) path)
    let inner ← tree n c (path ++ [name])
    return some (← bind n id name (wrapperType w inner))
  | .group id m (.sequence joint) cs, path => do
    let name ← named (n.nameFor (.group id m (.sequence joint) cs) path)
    match ← fields n cs path [] with
    | [] => return none
    | [(_, t)] => return some t
    | fs => return some (← bind n id name (.struct fs))
  | .group id m .alternative cs, path => do
    let name ← named (n.nameFor (.group id m .alternative cs) path)
    let vs ← variants n cs path 0 []
    return some (← bind n id name (← choiceType vs))

/-- The types of the children of a sequence under their names; of two children with one name the
later one counts. -/
def fields (n : Naming σ) :
    List Tree → List String → OrderedMap String ValueType → Solving σ (OrderedMap String ValueType)
  | [], _, fs => return fs
  | c :: cs, path, fs => do
    let name ← named (n.nameFor c path)
    match ← tree n c (path ++ [name]) with
    | none => fields n cs path fs
    | some t => fields n cs path (OrderedMap.insert name t fs)

def variants (n : Naming σ) :
    List Tree → List String → Nat → List String → Solving σ (List Variant)
  | [], _, _, _ => return []
  | c :: cs, path, i, used => do
    let type ← tree n c (path ++ ["variant_" ++ toString i])
    let (name, used) := takeName used (variantBase i c)
    let vs ← variants n cs path (i + 1) used
    return ⟨name, variantType c type, c⟩ :: vs

end

end Solving

structure Solution where
  rootType : Option ValueType := none
  registry : Registry := {}

def Tree.solveWith {σ : Type} (n : Naming σ) (s : σ) (t : Tree) : Except MissingNode Solution × σ :=
  let (type, s) := (Solving.tree n t []).run ⟨n.start s, []⟩
  (type.map fun type => ⟨type, Registry.ofList s.bindings⟩, s.naming)

def Tree.solve (t : Tree) : Except MissingNode Solution := (t.solveWith Naming.default {}).1

end ToolBindings
