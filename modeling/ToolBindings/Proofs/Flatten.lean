import ToolBindings.Proofs.Redex

/-!
# Flattening at a node

The children of a group change exactly where one of them dissolves.
-/
namespace ToolBindings.Flatten

theorem dissolves_iff {g : Group} {c : Tree} :
    dissolves g c = true ↔ ∃ k ds, c = .group k none g ds := by
  constructor
  · intro h
    unfold dissolves at h
    split at h
    · next k g' ds => exact ⟨k, ds, by rw [of_decide_eq_true h]⟩
    · cases h
  · rintro ⟨k, ds, rfl⟩
    simp [dissolves]

theorem inlined_of_dissolves {g : Group} {k : NodeId} {ds : List Tree} :
    inlined g (.group k none g ds) = ds :=
  if_pos (dissolves_iff.2 ⟨k, ds, rfl⟩)

theorem inlined_of_not_dissolves {g : Group} {c : Tree} (h : dissolves g c = false) :
    inlined g c = [c] :=
  if_neg (Bool.eq_false_iff.1 h)

theorem redex_group_iff {i : NodeId} {m : Option Metadata} {g : Group} {cs : List Tree} :
    Redex (.group i m g cs) ↔ ∃ c ∈ cs, dissolves g c = true := by
  constructor
  · intro h
    cases h with
    | sequence hc | choice hc => exact ⟨_, hc, dissolves_iff.2 ⟨_, _, rfl⟩⟩
  · rintro ⟨c, hc, hd⟩
    obtain ⟨k, ds, rfl⟩ := dissolves_iff.1 hd
    cases g with
    | sequence joint => exact .sequence hc
    | alternative => exact .choice hc

theorem forall_mem_flattened {P : Tree → Prop} (hP : ∀ {t}, P t → ∀ c ∈ t.children, P c)
    (g : Group) {cs : List Tree} (h : ∀ c ∈ cs, P c) : ∀ c ∈ (flattened g cs).1, P c := by
  intro c hc
  obtain ⟨d, hd, hcd⟩ := List.mem_flatMap.1 hc
  unfold inlined at hcd
  split at hcd
  · exact hP (h d hd) c hcd
  · exact List.mem_singleton.1 hcd ▸ h d hd

theorem step_records : Step.Records (regroup flattened) :=
  regroup_records (forall_mem_flattened Arena.Holds.children)

theorem flatMap_inlined {g : Group} {cs : List Tree} (h : ∀ c ∈ cs, dissolves g c = false) :
    cs.flatMap (inlined g) = cs := by
  rw [List.flatMap_congr fun c hc => inlined_of_not_dissolves (h c hc)]
  exact List.flatMap_singleton' cs

theorem flattened_firesAt : ChoiceFiresAt flattened Redex where
  group h := by
    cases h with
    | sequence h | choice h => exact ⟨_, _, _, _, rfl, List.ne_nil_of_mem h⟩
  fires _ h := List.any_eq_true.2 (redex_group_iff.1 h)
  rests {i m g cs} h := by
    have hcs : ∀ c ∈ cs, dissolves g c = false := fun c hc =>
      Bool.eq_false_iff.2 fun hd => h (redex_group_iff.2 ⟨c, hc, hd⟩)
    have hany : cs.any (dissolves g) = false := List.any_eq_false.2 fun c hc => by simp [hcs c hc]
    rw [flattened, flatMap_inlined hcs, hany]

end ToolBindings.Flatten
