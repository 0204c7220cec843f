import Mathlib.Data.String.Basic
import ToolBindings.Proofs.Redex

/-!
# Canonical order at a node

Ranks are ordered by a total order, so a choice that is arranged is in order and stays as it is when
it is arranged again (`arranged_arranged`). The children of a choice change exactly where they are out
of order or have doubles among them.
-/
namespace ToolBindings.Canonical

theorem Rank.le_iff {r s : Rank} : r.le s = true ↔ r.kind < s.kind ∨ r.kind = s.kind ∧
    (r.name < s.name ∨ r.name = s.name ∧ r.key ≤ s.key) := by
  simp only [Rank.le, decide_eq_true_eq, le_iff_lt_or_eq]

theorem Rank.total (r s : Rank) : (r.le s || s.le r) = true := by
  rw [Bool.or_eq_true, le_iff, le_iff]
  rcases lt_trichotomy r.kind s.kind with hk | hk | hk
  · exact .inl (.inl hk)
  · rcases lt_trichotomy r.name s.name with hn | hn | hn
    · exact .inl (.inr ⟨hk, .inl hn⟩)
    · rcases le_total r.key s.key with h | h
      · exact .inl (.inr ⟨hk, .inr ⟨hn, h⟩⟩)
      · exact .inr (.inr ⟨hk.symm, .inr ⟨hn.symm, h⟩⟩)
    · exact .inr (.inr ⟨hk.symm, .inl hn⟩)
  · exact .inr (.inl hk)

theorem Rank.trans (r s u : Rank) (hrs : r.le s = true) (hsu : s.le u = true) :
    r.le u = true := by
  rw [le_iff] at *
  rcases hrs with hk | ⟨hk, hrs⟩
  · rcases hsu with hk' | ⟨hk', -⟩
    · exact .inl (hk.trans hk')
    · exact .inl (hk' ▸ hk)
  · rcases hsu with hk' | ⟨hk', hsu⟩
    · exact .inl (hk ▸ hk')
    · refine .inr ⟨hk.trans hk', ?_⟩
      rcases hrs with hn | ⟨hn, hrs⟩
      · rcases hsu with hn' | ⟨hn', -⟩
        · exact .inl (hn.trans hn')
        · exact .inl (hn' ▸ hn)
      · rcases hsu with hn' | ⟨hn', hsu⟩
        · exact .inl (hn ▸ hn')
        · exact .inr ⟨hn.trans hn', hrs.trans hsu⟩

def InOrder (ts : List Tree) : Prop := ts.Pairwise fun s t => (Rank.of s).le (Rank.of t) = true

theorem inOrder_sorted (ts : List Tree) : InOrder (sorted ts) :=
  List.pairwise_mergeSort (fun s t u => Rank.trans (.of s) (.of t) (.of u))
    (fun s t => Rank.total (.of s) (.of t)) ts

theorem sorted_of_inOrder {ts : List Tree} (h : InOrder ts) : sorted ts = ts :=
  List.mergeSort_of_pairwise h

theorem sorted_perm (ts : List Tree) : (sorted ts).Perm ts := List.mergeSort_perm ts _

theorem distinct_sublist (seen : List Sha256.State) (ts : List Tree) :
    (distinct seen ts).Sublist ts := by
  induction ts generalizing seen with
  | nil => exact .slnil
  | cons t ts ih =>
    unfold distinct
    split
    · exact (ih _).cons_cons t
    · exact (ih _).cons t

theorem distinct_distinct (seen : List Sha256.State) (ts : List Tree) :
    distinct seen (distinct seen ts) = distinct seen ts := by
  induction ts generalizing seen with
  | nil => rfl
  | cons t ts ih =>
    by_cases h : t.metadata.isSome = true ∨ fingerprint t ∉ seen
    · have hcons : ∀ us, distinct seen (t :: us) = t :: distinct (fingerprint t :: seen) us :=
        fun us => if_pos h
      rw [hcons, hcons, ih]
    · rw [show distinct seen (t :: ts) = distinct seen ts from if_neg h, ih]

theorem arranged_sublist (ts : List Tree) : (arranged ts).Sublist (sorted ts) :=
  distinct_sublist [] (sorted ts)

theorem arranged_nil : arranged [] = [] := by simp [arranged, sorted, distinct]

theorem mem_of_mem_arranged {t : Tree} {ts : List Tree} (h : t ∈ arranged ts) : t ∈ ts :=
  (sorted_perm ts).mem_iff.1 ((arranged_sublist ts).subset h)

theorem arranged_arranged (ts : List Tree) : arranged (arranged ts) = arranged ts := by
  have horder : InOrder (arranged ts) := (inOrder_sorted ts).sublist (arranged_sublist ts)
  rw [arranged, sorted_of_inOrder horder]
  exact distinct_distinct [] (sorted ts)

theorem forall_mem_ordered {P : Tree → Prop} (g : Group) {cs : List Tree} (h : ∀ c ∈ cs, P c) :
    ∀ c ∈ (ordered g cs).1, P c := by
  intro c hc
  cases g with
  | sequence => exact h c hc
  | alternative => exact h c (mem_of_mem_arranged hc)

theorem step_records : Step.Records (regroup ordered) := regroup_records forall_mem_ordered

theorem ordered_firesAt : ChoiceFiresAt ordered Redex where
  group h := by
    obtain ⟨h⟩ := h
    exact ⟨_, _, _, _, rfl, fun hnil => h (by rw [hnil, arranged_nil])⟩
  fires hcs h := by
    obtain ⟨h⟩ := h
    refine decide_eq_true fun hid => h ?_
    exact Arena.eq_of_map_id (fun c hc => hcs c (mem_of_mem_arranged hc)) hcs hid
  rests {i m g cs} h := by
    cases g with
    | sequence => rfl
    | alternative =>
      have heq : arranged cs = cs := by_contra fun hne => h (.disorder hne)
      simp [ordered, heq]

end ToolBindings.Canonical
