import ToolBindings.Proofs.Preserve

/-!
# One sweep is enough

A rewrite works from the leaves up, so what its step makes of a node stands on children that are normal for
the rewrite already. The step leaves nothing to do at what it makes, and nothing below it
(`Rewrite.step_normalizes`): what it takes out of a child was not a redex there, and what it puts together
fits with nothing that is next to it. So the rewrite finds nothing to change in its own result
(`Rewrite.run_idempotent`).
-/
namespace ToolBindings
open ToolBindings.Tree

theorem Tree.Normal.children {Redex : Tree → Prop} {t : Tree} (h : t.Normal Redex) :
    ∀ c ∈ t.children, c.Normal Redex :=
  (normal_iff.1 h).2

def Step.Normalizes (step : Step) (Redex : Tree → Prop) : Prop :=
  ∀ {a : Arena} {t : Tree} {cs : List Tree}, (∀ c ∈ cs, a.Holds c) → t.children ≠ [] →
    cs.length = t.children.length → (∀ c ∈ cs, c.Normal Redex) →
    (step t cs a).1.tree.Normal Redex

section
variable {step : Step} {Redex : Tree → Prop}

theorem normalizes_relation (hf : step.FiresAt Redex) (hs : step.Normalizes Redex) :
    SweepRelation step fun _ _ r _ => r.tree.Normal Redex where
  leaf _ hc := normal_iff.2 ⟨hf.leaf hc, by simp [hc]⟩
  node {a b t rs} _ hrs hne hch := by
    refine hs (List.forall_mem_map.2 hrs) hne ?_ (List.forall_mem_map.2 fun r hr => ?_)
    · rw [List.length_map, hch.length_eq]
    · obtain ⟨-, -, hnormal⟩ := exists_of_forall₂ (hch.forall₂ id) hr
      exact hnormal

theorem regroup_normalizes {choose : Group → List Tree → List Tree × Bool}
    (hc : ChoiceFiresAt choose Redex)
    (hcs : ∀ g {cs}, (∀ c ∈ cs, c.Normal Redex) → ∀ c ∈ (choose g cs).1, c.Normal Redex)
    (hrests : ∀ {i m g cs}, (∀ c ∈ cs, c.Normal Redex) → ¬ Redex (.group i m g (choose g cs).1)) :
    Step.Normalizes (regroup choose) Redex := by
  intro a t cs _ hne hlen hnormal
  cases t with
  | missing | terminal => exact absurd rfl hne
  | wrap i m w b =>
    obtain ⟨c, rfl⟩ := List.length_eq_one_iff.1 hlen
    obtain ⟨j, hj⟩ := exists_withChildren_wrap i m w b c a
    simp only [regroup_wrap, hj]
    refine normal_iff.2 ⟨fun h => ?_, hnormal⟩
    obtain ⟨i', m', g, ds, hgroup, -⟩ := hc.group h
    cases hgroup
  | group i m g bs =>
    obtain ⟨j, hj⟩ := exists_withChildren_group i m g bs (choose g cs).1 a
    simp only [regroup_group, hj]
    exact normal_iff.2 ⟨hrests hnormal, hcs g hnormal⟩

end

namespace Flatten

theorem not_dissolves_of_mem_inlined {g : Group} {c d : Tree} (hc : c.Normal Redex)
    (hd : d ∈ inlined g c) : dissolves g d = false := by
  cases hdis : dissolves g c with
  | true =>
    obtain ⟨k, ds, rfl⟩ := dissolves_iff.1 hdis
    rw [inlined_of_dissolves] at hd
    exact Bool.eq_false_iff.2 fun h => (normal_iff.1 hc).1 (redex_group_iff.2 ⟨d, hd, h⟩)
  | false =>
    rw [inlined_of_not_dissolves hdis] at hd
    exact List.mem_singleton.1 hd ▸ hdis

theorem step_normalizes : Step.Normalizes (regroup flattened) Redex := by
  refine regroup_normalizes flattened_firesAt (forall_mem_flattened Normal.children) ?_
  intro i m g cs hcs h
  obtain ⟨d, hd, hdis⟩ := redex_group_iff.1 h
  obtain ⟨c, hc, hdc⟩ := List.mem_flatMap.1 hd
  exact Bool.noConfusion (hdis.symm.trans (not_dissolves_of_mem_inlined (hcs c hc) hdc))

end Flatten

namespace Prune

theorem step_normalizes : Step.Normalizes (regroup pruned) Redex := by
  refine regroup_normalizes pruned_firesAt forall_mem_pruned ?_
  intro i m g cs _ h
  obtain ⟨c, hc, hr⟩ := redex_group_iff.1 h
  have hkept : isRemovable c = false := by simpa using List.of_mem_filter hc
  exact Bool.noConfusion (hr.symm.trans hkept)

end Prune

namespace Canonical

theorem step_normalizes : Step.Normalizes (regroup ordered) Redex := by
  refine regroup_normalizes ordered_firesAt forall_mem_ordered ?_
  rintro i m g cs - h
  cases h with
  | disorder hne => exact hne (arranged_arranged cs)

end Canonical

namespace Simplify

/-- The metadata of a child that takes the place of its sequence does not get lost, so a choice that stayed
because it carries metadata still does. -/
theorem redex_of_renewed {t : Tree} {j : NodeId} {m : Option Metadata}
    (h : Redex (t.renewed j (Metadata.merge m t.metadata))) : Redex t := by
  cases t with
  | missing | terminal => exact absurd h (step_firesAt.leaf rfl)
  | wrap => exact redex_wrap_iff.2 (redex_wrap_iff.1 h)
  | group i n g cs =>
    cases g with
    | sequence => exact redex_sequence_iff.2 (redex_sequence_iff.1 h)
    | alternative =>
      obtain ⟨hmerge, hlen⟩ := redex_choice_iff.1 h
      have hn : n = none := by
        cases n with
        | none => rfl
        | some n =>
          have hsome := Metadata.isSome_merge.2 (.inr rfl : m.isSome ∨ (some n).isSome)
          exact absurd hmerge (Option.isSome_iff_ne_none.1 hsome)
      exact redex_choice_iff.2 ⟨hn, hlen⟩

theorem normal_renewed {t : Tree} (h : t.Normal Redex) (j : NodeId) (m : Option Metadata) :
    (t.renewed j (Metadata.merge m t.metadata)).Normal Redex := by
  obtain ⟨hroot, hchildren⟩ := normal_iff.1 h
  refine normal_iff.2 ⟨fun hredex => hroot (redex_of_renewed hredex), ?_⟩
  cases t <;> exact hchildren

theorem normal_literal (i : NodeId) (text : String) :
    (Tree.terminal i none (.literal text)).Normal Redex :=
  normal_iff.2 ⟨nofun, nofun⟩

/-- Two wrappers that have become one do not merge with the wrapper below them: the inner one has not. -/
theorem not_redex_merged {j k : NodeId} {m n : Option Metadata} {w w' v : Wrapper} {d : Tree}
    (hv : mergeWrappers? w w' = some v) (h : ¬ Redex (.wrap k n w' d)) :
    ¬ Redex (.wrap j (Metadata.merge m n) v d) := by
  refine not_redex_wrap_iff.2 fun l p w'' e hd => ?_
  exact mergeWrappers?_eq_none_of_merged hv (not_redex_wrap_iff.1 h l p w'' e hd)

theorem normal_of_makes {t u : Tree} {cs : List Tree} (hcs : ∀ c ∈ cs, c.Normal Redex)
    (h : Makes t cs u) : u.Normal Redex := by
  cases h with
  | merged hv =>
    obtain ⟨hinner, hbelow⟩ := normal_iff.1 (hcs _ List.mem_cons_self)
    exact normal_iff.2 ⟨not_redex_merged hv hinner, hbelow⟩
  | wrap hkept => exact normal_iff.2 ⟨not_redex_wrap_iff.2 hkept, hcs⟩
  | onlyChild hfuse =>
    have honly := hfuse.forall_mem normal_literal hcs _ List.mem_cons_self
    exact normal_renewed honly _ _
  | sequence hfuse hlen hchain =>
    have hchildren := hfuse.forall_mem normal_literal hcs
    exact normal_iff.2 ⟨not_redex_sequence_iff.2 ⟨hlen, hchain⟩, hchildren⟩
  | onlyChoice => exact hcs _ List.mem_cons_self
  | choice hnot => exact normal_iff.2 ⟨mt redex_choice_iff.1 hnot, hcs⟩

theorem step_normalizes : Step.Normalizes step Redex := fun hholds hne hlen hcs =>
  normal_of_makes hcs (step_makes hholds hne hlen)

end Simplify

namespace Rewrite

theorem step_normalizes (r : Rewrite) : Step.Normalizes r.step r.Redex := by
  cases r with
  | flatten => exact Flatten.step_normalizes
  | prune => exact Prune.step_normalizes
  | simplify => exact Simplify.step_normalizes
  | canonicalize => exact Canonical.step_normalizes

variable {a : Arena} {t : Tree} {root : NodeId}

theorem exists_run_normal (r : Rewrite) (ht : a.Holds t) :
    ∃ out b, (r.run t).run a = (.ok out, b) ∧ Recorded a out.tree b ∧
      out.tree.Normal r.Redex := by
  obtain ⟨u, b, hrun, hrec, -⟩ := r.exists_rewrite ht
  refine ⟨_, b, run_of_rewrite hrun, hrec, ?_⟩
  exact relation_of_rewrite ht hrun (normalizes_relation r.step_firesAt r.step_normalizes)

theorem run_of_normal {r : Rewrite} (ht : a.Holds t) (h : t.Normal r.Redex) :
    (r.run t).run a = (.ok ⟨t, .unchanged, []⟩, a) := by
  obtain ⟨u, b, hrun, -, hrep⟩ := r.exists_rewrite ht
  have hunchanged : u.changed = false := hrep.unchanged_iff.2 h
  obtain ⟨htree, rfl⟩ := hrep.eq_of_unchanged hunchanged
  rw [run_of_rewrite hrun, htree, hunchanged]
  rfl

/-- One run leaves nothing to do: no node of the result is a redex, and a run on the result reports no change,
gives back the root and records nothing. -/
theorem run_idempotent (r : Rewrite) (ho : a.Ordered) (hroot : root < a.size) :
    ∃ out b, (r.run (a.tree root)).run a = (.ok out, b) ∧
      (∀ s ∈ (b.tree out.tree.id).walk, ¬ r.Redex s) ∧
      (r.run (b.tree out.tree.id)).run b = (.ok ⟨out.tree, .unchanged, []⟩, b) := by
  obtain ⟨out, b, hrun, hrec, hnormal⟩ := r.exists_run_normal (Arena.holds_tree ho hroot)
  refine ⟨out, b, hrun, ?_⟩
  rw [Arena.tree_id_of_holds hrec.holds, walk_eq_preorder]
  exact ⟨hnormal, run_of_normal hrec.holds hnormal⟩

end Rewrite

def Arena.repetitions : Arena := ⟨#[
  ⟨.terminal .str, none⟩,
  ⟨.wrap (.repetition none (some 3) none) 0, none⟩,
  ⟨.wrap (.repetition none none none) 1, none⟩,
  ⟨.wrap (.repetition none none (some 2)) 2, none⟩,
  ⟨.wrap (.repetition none none (some 4)) 3, none⟩,
  ⟨.terminal (.literal "a"), none⟩,
  ⟨.terminal (.literal "b"), none⟩,
  ⟨.terminal (.literal "c"), none⟩,
  ⟨.group (.sequence none) [5, 6, 7, 4], none⟩]⟩

theorem Rewrite.run_idempotent_repetitions : Arena.repetitions.Ordered ∧
    8 < Arena.repetitions.size ∧ ∃ out b,
      (simplify.run (Arena.repetitions.tree 8)).run Arena.repetitions = (.ok out, b) ∧
      out.status = .changed ∧
      (∀ s ∈ (b.tree out.tree.id).walk, ¬ Simplify.Redex s) ∧
      (simplify.run (b.tree out.tree.id)).run b = (.ok ⟨out.tree, .unchanged, []⟩, b) := by
  obtain ⟨out, b, hrun, hnormal, hagain⟩ :=
    @run_idempotent Arena.repetitions 8 simplify (by decide) (by decide)
  refine ⟨by decide, by decide, out, b, hrun, ?_, hnormal, hagain⟩
  cases hrun
  rfl

end ToolBindings
