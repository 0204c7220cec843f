import ToolBindings.Tree.Basic

/-!
# Names in a tree

A tree without a name of its own goes by the name of what it wraps, or by the first name among the
children of a sequence that are not literals.
-/
namespace ToolBindings.Tree

mutual

def nearestName : Tree → Except MissingNode (Option String)
  | missing id => .error ⟨id⟩
  | terminal _ m _ => .ok (m.bind (·.name))
  | wrap _ m _ c => match m.bind (·.name) with
    | some n => .ok (some n)
    | none => nearestName c
  | group _ m g cs => match m.bind (·.name), g with
    | some n, _ => .ok (some n)
    | none, .sequence _ => firstName cs
    | none, .alternative => .ok none

def firstName : List Tree → Except MissingNode (Option String)
  | [] => .ok none
  | t :: ts => do
    if t.isLiteral then firstName ts
    else match ← nearestName t with
      | some n => return some n
      | none => firstName ts

end

end ToolBindings.Tree
