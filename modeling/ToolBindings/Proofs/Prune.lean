import ToolBindings.Proofs.Redex

/-!
# Pruning at a node

The children of a group change exactly where one of them is removable.
-/
namespace ToolBindings.Prune

theorem isEmpty_iff {t : Tree} : isEmpty t = true ↔ ∃ k n g, t = .group k n g [] := by
  constructor
  · intro h
    unfold isEmpty at h
    split at h
    · exact ⟨_, _, _, rfl⟩
    · cases h
  · rintro ⟨k, n, g, rfl⟩
    rfl

theorem isRemovable_iff {t : Tree} : isRemovable t = true ↔
    (∃ k g, t = .group k none g []) ∨ ∃ k w l n g, t = .wrap k none w (.group l n g []) := by
  constructor
  · intro h
    obtain ⟨hm, hempty⟩ := Bool.and_eq_true_iff.1 h
    split at hempty
    · next k m w c =>
      obtain ⟨l, n, g, rfl⟩ := isEmpty_iff.1 hempty
      cases Option.isNone_iff_eq_none.1 hm
      exact .inr ⟨k, w, l, n, g, rfl⟩
    · obtain ⟨k, n, g, rfl⟩ := isEmpty_iff.1 hempty
      cases Option.isNone_iff_eq_none.1 hm
      exact .inl ⟨k, g, rfl⟩
  · rintro (⟨k, g, rfl⟩ | ⟨k, w, l, n, g, rfl⟩) <;> rfl

theorem redex_group_iff {i : NodeId} {m : Option Metadata} {g : Group} {cs : List Tree} :
    Redex (.group i m g cs) ↔ ∃ c ∈ cs, isRemovable c = true := by
  constructor
  · intro h
    cases h with
    | empty hc => exact ⟨_, hc, rfl⟩
    | aroundEmpty hc => exact ⟨_, hc, rfl⟩
  · rintro ⟨c, hc, hr⟩
    rcases isRemovable_iff.1 hr with ⟨k, g', rfl⟩ | ⟨k, w, l, n, g', rfl⟩
    · exact .empty hc
    · exact .aroundEmpty hc

theorem kept_eq_self_iff {cs : List Tree} : kept cs = cs ↔ ∀ c ∈ cs, isRemovable c = false := by
  simp [kept, List.filter_eq_self]

theorem kept_eq_flatMap (cs : List Tree) :
    kept cs = cs.flatMap fun c => if isRemovable c then [] else [c] := by
  induction cs with
  | nil => rfl
  | cons c cs ih =>
    simp only [kept] at ih
    by_cases hc : isRemovable c = true <;> simp [kept, hc, ih]

theorem forall_mem_pruned {P : Tree → Prop} (g : Group) {cs : List Tree} (h : ∀ c ∈ cs, P c) :
    ∀ c ∈ (pruned g cs).1, P c :=
  fun c hc => h c (List.mem_of_mem_filter hc)

theorem step_records : Step.Records (regroup pruned) := regroup_records forall_mem_pruned

theorem pruned_firesAt : ChoiceFiresAt pruned Redex where
  group h := by
    cases h with
    | empty h | aroundEmpty h => exact ⟨_, _, _, _, rfl, List.ne_nil_of_mem h⟩
  fires {a i m g cs} _ h := by
    obtain ⟨c, hc, hr⟩ := redex_group_iff.1 h
    refine decide_eq_true fun hlen => ?_
    have hkept : kept cs = cs := List.filter_sublist.eq_of_length hlen
    exact Bool.noConfusion (hr.symm.trans (kept_eq_self_iff.1 hkept c hc))
  rests {i m g cs} h := by
    have hkept : kept cs = cs := kept_eq_self_iff.2 fun c hc =>
      Bool.eq_false_iff.2 fun hr => h (redex_group_iff.2 ⟨c, hc, hr⟩)
    simp [pruned, hkept]

end ToolBindings.Prune
