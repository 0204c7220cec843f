import ToolBindings.Proofs.Round

/-!
# Sizes

A sweep that flattens, prunes or simplifies makes a tree smaller whenever it reports a change, and
never larger (`shrinks_of_rewrite`). Canonical order never makes a tree larger; it keeps the size
only if no child is dropped.
-/
namespace ToolBindings
namespace Tree

theorem size_pos (t : Tree) : 0 < t.size := by
  rw [size_eq]
  omega

mutual

theorem length_preorder : (t : Tree) → t.preorder.length = t.size
  | missing _ | terminal .. => rfl
  | wrap _ _ _ c => congrArg (· + 1) (length_preorder c)
  | group _ _ _ cs => congrArg (· + 1) (length_preorderAll cs)

theorem length_preorderAll : (ts : List Tree) → (preorderAll ts).length = sizeAll ts
  | [] => rfl
  | t :: ts => by
    rw [preorderAll, List.length_append, length_preorder t, length_preorderAll ts, sizeAll]

end

theorem length_walk (t : Tree) : t.walk.length = t.size := by
  rw [walk_eq_preorder, length_preorder]

theorem sizeAll_perm {ss ts : List Tree} (h : ss.Perm ts) : sizeAll ss = sizeAll ts := by
  induction h with
  | nil => rfl
  | cons t _ ih => simp only [sizeAll, ih]
  | swap s t ts =>
    simp only [sizeAll]
    omega
  | trans _ _ ih ih' => exact ih.trans ih'

theorem sizeAll_sublist {ss ts : List Tree} (h : ss.Sublist ts) : sizeAll ss ≤ sizeAll ts := by
  induction h with
  | slnil => exact Nat.le_refl _
  | cons t _ ih =>
    simp only [sizeAll]
    omega
  | cons_cons t _ ih =>
    simp only [sizeAll]
    omega

theorem eq_of_sublist_of_sizeAll_le {ss ts : List Tree} (h : ss.Sublist ts)
    (hsize : sizeAll ts ≤ sizeAll ss) : ss = ts := by
  induction h with
  | slnil => rfl
  | cons t hsub _ =>
    have hle := sizeAll_sublist hsub
    have hpos := t.size_pos
    simp only [sizeAll] at hsize
    omega
  | cons_cons t _ ih =>
    simp only [sizeAll] at hsize
    rw [ih (by omega)]

theorem size_withChildren_wrap (i : NodeId) (m : Option Metadata) (w : Wrapper) (b c : Tree)
    (a : Arena) : ((wrap i m w b).withChildren [c] a).1.size = c.size + 1 := by
  obtain ⟨j, h⟩ := exists_withChildren_wrap i m w b c a
  rw [h, size]

theorem size_withChildren_group (i : NodeId) (m : Option Metadata) (g : Group) (bs cs : List Tree)
    (a : Arena) : ((group i m g bs).withChildren cs a).1.size = sizeAll cs + 1 := by
  obtain ⟨j, h⟩ := exists_withChildren_group i m g bs cs a
  rw [h, size]

theorem size_withMetadata (t : Tree) (m : Option Metadata) (a : Arena) :
    (t.withMetadata m a).1.size = t.size := by
  unfold withMetadata
  split
  · rfl
  · cases t <;> rfl

end Tree
open ToolBindings.Tree

def Step.Shrinks (step : Step) : Prop :=
  ∀ {t : Tree} {cs : List Tree} {a : Arena}, t.children ≠ [] → cs.length = t.children.length →
    (step t cs a).1.tree.size + (step t cs a).1.changed.toNat ≤ sizeAll cs + 1

def Shrinks (_ : Arena) (t : Tree) (r : Rewritten) (_ : Arena) : Prop :=
  r.tree.size + r.changed.toNat ≤ t.size

theorem toNat_or_le (x y : Bool) : (x || y).toNat ≤ x.toNat + y.toNat := by
  cases x <;> cases y <;> decide

theorem shrinksAll {a b : Arena} {ts : List Tree} {rs : List Rewritten}
    (h : Chain Shrinks a ts rs b) :
    sizeAll (rs.map Rewritten.tree) + (rs.any Rewritten.changed).toNat ≤ sizeAll ts := by
  induction h with
  | nil => exact Nat.le_refl _
  | @cons a b c t r ts rs hr _ ih =>
    have hor := toNat_or_le r.changed (rs.any Rewritten.changed)
    unfold Shrinks at hr
    simp only [List.map_cons, List.any_cons, sizeAll]
    omega

theorem shrinks_relation {step : Step} (hs : step.Shrinks) : SweepRelation step Shrinks where
  leaf _ _ := Nat.le_refl _
  node {a b t rs} _ _ hne hch := by
    have hall := shrinksAll hch
    have hlen : (rs.map Rewritten.tree).length = t.children.length := by
      rw [List.length_map, hch.length_eq]
    have hstep := @hs t (rs.map Rewritten.tree) b hne hlen
    have hor := toNat_or_le (rs.any Rewritten.changed)
      (step t (rs.map Rewritten.tree) b).1.changed
    rw [Shrinks, size_eq t]
    simp only [Rewritten.above]
    omega

theorem regroup_shrinks {choose : Group → List Tree → List Tree × Bool}
    (hc : ∀ g cs, sizeAll (choose g cs).1 + (choose g cs).2.toNat ≤ sizeAll cs) :
    Step.Shrinks (regroup choose) := by
  intro t cs a hne hlen
  cases t with
  | missing | terminal => exact absurd rfl hne
  | wrap i m w b =>
    obtain ⟨c, rfl⟩ := List.length_eq_one_iff.1 hlen
    rw [regroup_wrap]
    simp [size_withChildren_wrap, sizeAll]
  | group i m g bs =>
    have hall := hc g cs
    rw [regroup_group]
    simp only [size_withChildren_group]
    omega

namespace Flatten

theorem sizeAll_inlined (g : Group) (cs : List Tree) :
    sizeAll (cs.flatMap (inlined g)) + (cs.any (dissolves g)).toNat ≤ sizeAll cs := by
  induction cs with
  | nil => exact Nat.le_refl _
  | cons c cs ih =>
    have hor := toNat_or_le (dissolves g c) (cs.any (dissolves g))
    have hc : sizeAll (inlined g c) + (dissolves g c).toNat = c.size := by
      unfold inlined
      cases hd : dissolves g c with
      | true => simp [size_eq c]
      | false => simp [sizeAll]
    simp only [List.flatMap_cons, List.any_cons, sizeAll_append, sizeAll]
    omega

theorem step_shrinks : Step.Shrinks (regroup flattened) := regroup_shrinks sizeAll_inlined

end Flatten

namespace Prune

theorem sizeAll_kept (cs : List Tree) :
    sizeAll (kept cs) + (decide ((kept cs).length ≠ cs.length)).toNat ≤ sizeAll cs := by
  have hsub : (kept cs).Sublist cs := List.filter_sublist
  have hle := sizeAll_sublist hsub
  by_cases h : (kept cs).length = cs.length
  · simpa [h] using hle
  · have hlt : sizeAll (kept cs) < sizeAll cs := Nat.lt_of_le_of_ne hle fun heq =>
      h (by rw [eq_of_sublist_of_sizeAll_le hsub (Nat.le_of_eq heq.symm)])
    rw [decide_eq_true h]
    exact hlt

theorem step_shrinks : Step.Shrinks (regroup pruned) := regroup_shrinks fun _ => sizeAll_kept

end Prune

namespace Simplify

theorem Fuses.sizeAll_le {cs ds : List Tree} {fused : Bool} (h : Fuses cs ds fused) :
    sizeAll ds + fused.toNat ≤ sizeAll cs := by
  induction h with
  | nil => exact Nat.le_refl _
  | skip _ ih =>
    simp only [sizeAll]
    omega
  | fuse _ ih =>
    simp only [sizeAll, size, Bool.toNat_true] at ih ⊢
    omega

theorem step_shrinks : Step.Shrinks step := by
  intro t cs a hne hlen
  cases t with
  | missing | terminal => exact absurd rfl hne
  | wrap i m w b =>
    obtain ⟨c, rfl⟩ := List.length_eq_one_iff.1 hlen
    rw [step_wrap]
    rcases wrapped_cases (.wrap i m w b) w c a with ⟨k, n, w', d, v, rfl, -, h⟩ | ⟨-, h⟩ <;> rw [h]
    · simp [newWrap_run, sizeAll, size]
    · simp [size_withChildren_wrap, sizeAll]
  | group i m g bs =>
    cases g with
    | sequence joint =>
      have hfuse := (fuseUnder_fuses joint cs a).sizeAll_le
      rcases step_sequence_cases i m joint bs cs a with ⟨c, hc, h⟩ | ⟨-, h⟩ <;> simp only [h]
      · rw [hc] at hfuse
        simp only [sizeAll, size_withMetadata, Bool.toNat_true] at hfuse ⊢
        omega
      · simp only [size_withChildren_group]
        omega
    | alternative =>
      rcases step_choice_cases i m bs cs a with ⟨c, -, rfl, h⟩ | ⟨-, h⟩ <;> rw [h]
      · simp [sizeAll]
      · simp [size_withChildren_group]

end Simplify

end ToolBindings
