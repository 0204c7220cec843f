import ToolBindings.Proofs.Pass
import ToolBindings.Proofs.Postorder
import ToolBindings.Proofs.Round

/-!
# What rewrites preserve

A step preserves a relation if it passes from the children of a node and what has become of them to the
node and what the step makes of it. Then it holds between every tree and what a sweep makes of it
(`preserves_relation`) and between every tree and what a pass makes of it, however the pass is built
(`exists_apply_preserves`). Three of the rewrites only choose other children for a group; what
simplification makes of a node is one of six things (`Simplify.Makes`).
-/
namespace ToolBindings

def Step.Preserves (step : Step) (R : Tree → Tree → Prop) : Prop :=
  ∀ {a : Arena} {t : Tree} {cs : List Tree}, (∀ c ∈ cs, a.Holds c) → t.children ≠ [] →
    List.Forall₂ R t.children cs → R t (step t cs a).1.tree

section
variable {step : Step} {R : Tree → Tree → Prop}

theorem preserves_relation (hR : ∀ t, R t t) (hs : step.Preserves R) :
    SweepRelation step fun _ t r _ => R t r.tree where
  leaf _ _ := hR _
  node _ hrs hne hch :=
    hs (List.forall_mem_map.2 hrs) hne (List.forall₂_map_right_iff.2 (hch.forall₂ id))

theorem eq_singleton_of_forall₂ {α β : Type} {P : α → β → Prop} {x : α} {ys : List β}
    (h : List.Forall₂ P [x] ys) : ∃ y, ys = [y] ∧ P x y := by
  cases h with
  | cons hxy h =>
    cases h
    exact ⟨_, rfl, hxy⟩

theorem regroup_preserves {choose : Group → List Tree → List Tree × Bool}
    (hwrap : ∀ {i j m w b c}, R b c → R (.wrap i m w b) (.wrap j m w c))
    (hgroup : ∀ {i j m g bs cs}, List.Forall₂ R bs cs →
      R (.group i m g bs) (.group j m g (choose g cs).1)) :
    Step.Preserves (regroup choose) R := by
  intro a t cs _ hne hcs
  cases t with
  | missing | terminal => exact absurd rfl hne
  | wrap i m w b =>
    obtain ⟨c, rfl, hbc⟩ := eq_singleton_of_forall₂ hcs
    obtain ⟨j, hj⟩ := Tree.exists_withChildren_wrap i m w b c a
    simp only [regroup_wrap, hj]
    exact hwrap hbc
  | group i m g bs =>
    obtain ⟨j, hj⟩ := Tree.exists_withChildren_group i m g bs (choose g cs).1 a
    simp only [regroup_group, hj]
    exact hgroup hcs

end

theorem Metadata.isSome_merge {m n : Option Metadata} :
    (merge m n).isSome ↔ m.isSome ∨ n.isSome := by
  cases m <;> cases n <;> simp [merge]

def Tree.renewed (j : NodeId) (m : Option Metadata) : Tree → Tree
  | missing i => missing i
  | terminal _ _ u => terminal j m u
  | wrap _ _ w c => wrap j m w c
  | group _ _ g cs => group j m g cs

theorem Tree.exists_withMetadata (t : Tree) (m : Option Metadata) (a : Arena) :
    ∃ j, (t.withMetadata m a).1 = t.renewed j m := by
  unfold withMetadata
  split
  · next h =>
    refine ⟨t.id, ?_⟩
    subst h
    cases t <;> rfl
  · cases t with
    | missing i => exact ⟨i, rfl⟩
    | terminal | wrap | group => exact ⟨a.size, rfl⟩

theorem Tree.metadata_renewed {t : Tree} (h : t.missing? = none) (j : NodeId)
    (m : Option Metadata) : (t.renewed j m).metadata = m := by
  cases t with
  | missing => cases h
  | terminal | wrap | group => rfl

namespace Simplify

/-- What simplification makes of a node with new children, and when: nothing that it could put together is
left apart. -/
inductive Makes : Tree → List Tree → Tree → Prop
  | merged {i j k : NodeId} {m n : Option Metadata} {w w' v : Wrapper} {b d : Tree} :
      mergeWrappers? w w' = some v →
      Makes (.wrap i m w b) [.wrap k n w' d] (.wrap j (Metadata.merge m n) v d)
  | wrap {i j : NodeId} {m : Option Metadata} {w : Wrapper} {b c : Tree} :
      (∀ k n w' d, c = .wrap k n w' d → mergeWrappers? w w' = none) →
      Makes (.wrap i m w b) [c] (.wrap j m w c)
  | onlyChild {i j : NodeId} {m : Option Metadata} {joint : Option String} {bs cs : List Tree}
      {c : Tree} {fused : Bool} : Fuses cs [c] fused → c.missing? = none →
      Makes (.group i m (.sequence joint) bs) cs (c.renewed j (Metadata.merge m c.metadata))
  | sequence {i j : NodeId} {m : Option Metadata} {joint : Option String} {bs cs ds : List Tree}
      {fused : Bool} : Fuses cs ds fused → ds.length ≠ 1 →
      (isPlain joint = true → ds.IsChain Apart) →
      Makes (.group i m (.sequence joint) bs) cs (.group j m (.sequence joint) ds)
  | onlyChoice {i : NodeId} {bs : List Tree} {c : Tree} :
      Makes (.group i none .alternative bs) [c] c
  | choice {i j : NodeId} {m : Option Metadata} {bs cs : List Tree} :
      ¬ (m = none ∧ cs.length = 1) →
      Makes (.group i m .alternative bs) cs (.group j m .alternative cs)

theorem step_makes {a : Arena} {t : Tree} {cs : List Tree} (hcs : ∀ c ∈ cs, a.Holds c)
    (hne : t.children ≠ []) (hlen : cs.length = t.children.length) :
    Makes t cs (step t cs a).1.tree := by
  cases t with
  | missing | terminal => exact absurd rfl hne
  | wrap i m w b =>
    obtain ⟨c, rfl⟩ := List.length_eq_one_iff.1 hlen
    rw [step_wrap]
    rcases wrapped_cases (.wrap i m w b) w c a with ⟨k, n, w', d, v, rfl, hv, h⟩ | ⟨hkept, h⟩ <;>
      rw [h]
    · exact .merged hv
    · obtain ⟨j, hj⟩ := Tree.exists_withChildren_wrap i m w b c a
      simp only [hj]
      exact .wrap hkept
  | group i m g bs =>
    cases g with
    | sequence joint =>
      have hfuse := fuseUnder_fuses joint cs a
      rcases step_sequence_cases i m joint bs cs a with ⟨c, hc, h⟩ | ⟨hlen, h⟩ <;> simp only [h]
      · rw [hc] at hfuse
        have hholds := (recorded_fuseUnder joint hcs).holds c (hc ▸ List.mem_singleton.2 rfl)
        obtain ⟨j, hj⟩ := c.exists_withMetadata (Metadata.merge m c.metadata)
          (fuseUnder joint cs a).2
        rw [hj]
        exact .onlyChild hfuse (Tree.whole_iff.1 (Tree.whole_of_holds hholds)).1
      · obtain ⟨j, hj⟩ := Tree.exists_withChildren_group i m (.sequence joint) bs
          (fuseUnder joint cs a).1.1 (fuseUnder joint cs a).2
        rw [hj]
        exact .sequence hfuse hlen fun hj => isChain_fuseUnder hj cs a
    | alternative =>
      rcases step_choice_cases i m bs cs a with ⟨c, rfl, rfl, h⟩ | ⟨hnot, h⟩ <;> rw [h]
      · exact .onlyChoice
      · obtain ⟨j, hj⟩ := Tree.exists_withChildren_group i m .alternative bs cs a
        simp only [hj]
        exact .choice hnot

theorem step_preserves {R : Tree → Tree → Prop}
    (h : ∀ {t u : Tree} {cs : List Tree}, List.Forall₂ R t.children cs → Makes t cs u → R t u) :
    Step.Preserves step R := fun hholds hne hcs => h hcs (step_makes hholds hne hcs.length_eq.symm)

end Simplify

namespace Pass

theorem exists_apply_preserves {R : Tree → Tree → Prop} (hrefl : ∀ t, R t t)
    (htrans : ∀ {t u v}, R t u → R u v → R t v) {p : Pass Rewrite}
    (hp : ∀ r ∈ p.parts, r.step.Preserves R) {a : Arena} {t : Tree} (ht : a.Holds t) :
    ∃ out b, (p.apply t).run a = (.ok out, b) ∧ Recorded a out.tree b ∧ R t out.tree := by
  have hR : Transitive fun _ t u _ _ => R t u := ⟨hrefl _, htrans⟩
  refine exists_run Rewrite.name hR p (fun r hr a t ht => ?_) a t ht
  obtain ⟨u, b, hrun, hrec, -⟩ := r.exists_rewrite ht
  refine ⟨_, b, Rewrite.run_of_rewrite hrun, hrec, ?_⟩
  exact Rewrite.relation_of_rewrite ht hrun (preserves_relation hrefl (hp r hr))

end Pass
end ToolBindings
