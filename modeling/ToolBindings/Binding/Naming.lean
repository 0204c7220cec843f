import ToolBindings.Tree.Name

/-!
# Naming

A naming chooses names for nodes and ids for bindings. It has a state, which starts afresh for every
tree. The default naming takes the nearest name in the tree, or the last name on the way to it, or a
made-up name; ids and made-up names count with one counter.
-/
namespace ToolBindings

structure Counter where
  next : Nat := 0
  deriving DecidableEq, Repr

namespace Counter

def take (c : Counter) : Nat × Counter := (c.next, ⟨c.next + 1⟩)

end Counter

structure Naming (σ : Type) where
  start : σ → σ
  nameFor : Tree → List String → ExceptT MissingNode (StateM σ) String
  freshId : StateM σ Nat

namespace Naming

def defaultName (t : Tree) (path : List String) : ExceptT MissingNode (StateM Counter) String := do
  match ← t.nearestName, path.getLast? with
  | some n, _ => return n
  | none, some n => return n
  | none, none => return "param_" ++ toString (← modifyGet Counter.take)

def default : Naming Counter where
  start _ := {}
  nameFor := defaultName
  freshId := modifyGet Counter.take

end Naming
end ToolBindings
