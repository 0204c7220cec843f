import ToolBindings.Tree.Basic

/-!
# Equality of trees

Two trees are the same when they have the same shape and metadata at every node, whatever the places
of their nodes. Trees at one place are the same without a look at them. The comparison stops at the
first difference, so it misses a node only if it gets there.
-/
namespace ToolBindings.Tree

mutual

def same (s t : Tree) : Except MissingNode Bool :=
  if s.id = t.id then .ok true
  else match s, t with
    | missing i, _ => .error ⟨i⟩
    | terminal _ m u, t =>
      match t.missing? with
      | some e => .error e
      | none => .ok <| match t with
        | terminal _ n v => m = n && u.same v
        | _ => false
    | wrap _ m u c, t =>
      match t with
      | missing j => .error ⟨j⟩
      | wrap _ n v d => if m = n ∧ u = v then same c d else .ok false
      | _ => .ok false
    | group _ m u cs, t =>
      match t with
      | missing j => .error ⟨j⟩
      | group _ n v ds =>
        if m = n ∧ u = v ∧ cs.length = ds.length then sameAll cs ds else .ok false
      | _ => .ok false
termination_by structural s

def sameAll (ss ts : List Tree) : Except MissingNode Bool :=
  match ss, ts with
  | s :: ss, t :: ts => do
    if ← same s t then sameAll ss ts else return false
  | [], [] => .ok true
  | _, _ => .ok false
termination_by structural ss

end

end ToolBindings.Tree
