import ToolBindings.Proofs.Arena
import ToolBindings.Tree.Name

/-!
# Trees from the leaves up

The nodes of a tree in the order in which each comes after those below it, and induction from the
children of a node to the node. A tree is whole if no node in it is missing; an arena holds whole trees
only, and their nodes have a nearest name or none, but no error.
-/
namespace ToolBindings

namespace Tree

mutual

/-- The nodes of a tree, each after the nodes below it. -/
def postorder : Tree → List Tree
  | missing id => [missing id]
  | terminal id m t => [terminal id m t]
  | wrap id m w c => postorder c ++ [wrap id m w c]
  | group id m g cs => postorderAll cs ++ [group id m g cs]

def postorderAll : List Tree → List Tree
  | [] => []
  | t :: ts => postorder t ++ postorderAll ts

end

theorem postorder_eq (t : Tree) : t.postorder = postorderAll t.children ++ [t] := by
  cases t <;> simp [postorder, postorderAll, children]

mutual

theorem postorder_perm : (t : Tree) → t.postorder.Perm t.preorder
  | missing _ | terminal .. => .refl _
  | wrap _ _ _ c => by
    rw [postorder, preorder]
    exact (List.perm_append_singleton _ _).trans ((postorder_perm c).cons _)
  | group _ _ _ cs => by
    rw [postorder, preorder]
    exact (List.perm_append_singleton _ _).trans ((postorderAll_perm cs).cons _)

theorem postorderAll_perm : (ts : List Tree) → (postorderAll ts).Perm (preorderAll ts)
  | [] => .refl _
  | t :: ts => by
    rw [postorderAll, preorderAll]
    exact (postorder_perm t).append (postorderAll_perm ts)

end

theorem induct_children {P : Tree → Prop} (h : ∀ t, (∀ c ∈ t.children, P c) → P t) (t : Tree) :
    P t :=
  h t fun c _ => induct_children h c
termination_by t.size
decreasing_by exact size_lt_of_mem_children ‹_›

theorem forall_preorder_of_mem {P : Tree → Prop} {t : Tree} : (∀ s ∈ t.preorder, P s) →
    ∀ u ∈ t.preorder, ∀ s ∈ u.preorder, P s := by
  induction t using induct_children with
  | h t ih =>
    intro h
    exact forall_preorder.2 ⟨h, fun c hc => ih c hc ((forall_preorder.1 h).2 c hc)⟩

/-- No node of the tree is missing. -/
def Whole (t : Tree) : Prop := ∀ s ∈ t.preorder, s.missing? = none

theorem whole_iff {t : Tree} : t.Whole ↔ t.missing? = none ∧ ∀ c ∈ t.children, c.Whole :=
  forall_preorder

theorem Whole.children {t : Tree} (h : t.Whole) : ∀ c ∈ t.children, c.Whole := (whole_iff.1 h).2

theorem Whole.not_missing {id : NodeId} : ¬ (missing id).Whole := fun h =>
  nomatch (whole_iff.1 h).1

theorem whole_of_holds {a : Arena} {t : Tree} (h : a.Holds t) : t.Whole := by
  induction h with
  | @intro t n hn _ _ ih =>
    refine whole_iff.2 ⟨?_, ih⟩
    cases t with
    | missing => cases hn
    | terminal | wrap | group => rfl

mutual

theorem exists_nearestName : (t : Tree) → t.Whole → ∃ n, t.nearestName = .ok n
  | missing _, h => absurd h Whole.not_missing
  | terminal _ m _, _ => ⟨m.bind (·.name), rfl⟩
  | wrap _ m _ c, h => by
    obtain ⟨n, hn⟩ := exists_nearestName c (h.children c (List.mem_singleton.2 rfl))
    rw [nearestName]
    cases m.bind (·.name) with
    | some n => exact ⟨some n, rfl⟩
    | none => exact ⟨n, hn⟩
  | group _ m g cs, h => by
    obtain ⟨n, hn⟩ := exists_firstName cs h.children
    unfold nearestName
    split
    · exact ⟨_, rfl⟩
    · exact ⟨n, hn⟩
    · exact ⟨none, rfl⟩

theorem exists_firstName : (ts : List Tree) → (∀ t ∈ ts, t.Whole) → ∃ n, firstName ts = .ok n
  | [], _ => ⟨none, rfl⟩
  | t :: ts, h => by
    obtain ⟨n, hn⟩ := exists_nearestName t (h t List.mem_cons_self)
    obtain ⟨ns, hns⟩ := exists_firstName ts fun s hs => h s (List.mem_cons_of_mem t hs)
    rw [firstName, hn]
    split
    · exact ⟨ns, hns⟩
    · cases n with
      | some n => exact ⟨some n, rfl⟩
      | none => exact ⟨ns, hns⟩

end

end Tree
end ToolBindings
