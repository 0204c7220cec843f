import Mathlib.Data.Finset.Card
import ToolBindings.Binding.Solve

/-!
# Fresh names

The candidates for a name differ from each other, so among one more of them than there are used names
one is unused (`exists_unused`). The search for it is a loop without a bound (`Searches`): a used name gives
way to the base with the next number. It ends, always in the same way (`Searches.eq`), and the bounded search
finds what it ends with (`exists_searches_takeName`).
-/
namespace ToolBindings.Solving

theorem toString_injective {m n : Nat} (h : toString m = toString n) : m = n := by
  have hdigits : Nat.toDigits 10 m = Nat.toDigits 10 n := by
    simpa using congrArg String.toList h
  have hvalue := congrArg (Nat.ofDigitChars 10 · 0) hdigits
  simpa using hvalue

theorem candidate_injective (base : String) : Function.Injective (candidate base) := by
  have hne : ∀ n, base ≠ base ++ ("_" ++ toString (n + 2)) := fun n h => by
    have hempty := (String.append_right_inj base).1 (String.append_empty.trans h)
    simp at hempty
  intro m n h
  cases m with
  | zero =>
    cases n with
    | zero => rfl
    | succ n => exact absurd (h.trans (String.append_assoc ..)) (hne n)
  | succ m =>
    cases n with
    | zero => exact absurd (h.symm.trans (String.append_assoc ..)) (hne m)
    | succ n =>
      have hnumber : toString (m + 2) = toString (n + 2) := (String.append_right_inj _).1 h
      have hsum := toString_injective hnumber
      omega

theorem exists_unused (used : List String) (base : String) :
    ∃ k ≤ used.toFinset.card, candidate base k ∉ used := by
  let candidates := (Finset.range (used.toFinset.card + 1)).image (candidate base)
  have hcard : used.toFinset.card < candidates.card := by
    rw [Finset.card_image_of_injective _ (candidate_injective base), Finset.card_range]
    exact Nat.lt_succ_self _
  obtain ⟨name, hname, hunused⟩ := Finset.exists_mem_notMem_of_card_lt_card hcard
  obtain ⟨k, hk, rfl⟩ := Finset.mem_image.1 hname
  rw [List.mem_toFinset] at hunused
  exact ⟨k, Nat.le_of_lt_succ (Finset.mem_range.1 hk), hunused⟩

/-- The search for an unused name from the name that is tried next and the number after it. It ends with a
name after this many tries. -/
inductive Searches (used : List String) (base : String) : String → Nat → Nat → String → Prop
  | free {name : String} {n : Nat} : name ∉ used → Searches used base name n 1 name
  | taken {name result : String} {n tries : Nat} : name ∈ used →
      Searches used base (base ++ "_" ++ toString n) (n + 1) tries result →
      Searches used base name n (tries + 1) result

namespace Searches
variable {used : List String} {base name result : String} {n tries : Nat}

theorem not_mem (h : Searches used base name n tries result) : result ∉ used := by
  induction h with
  | free hfree => exact hfree
  | taken _ _ ih => exact ih

theorem eq {tries' : Nat} {result' : String} (h : Searches used base name n tries result)
    (h' : Searches used base name n tries' result') : tries = tries' ∧ result = result' := by
  induction h generalizing tries' with
  | free hfree =>
    cases h' with
    | free => exact ⟨rfl, rfl⟩
    | taken htaken => exact absurd htaken hfree
  | taken htaken _ ih =>
    cases h' with
    | free hfree => exact absurd htaken hfree
    | taken _ h' => exact (ih h').imp_left (congrArg (· + 1))

end Searches

theorem exists_searches_firstUnused {used : List String} {base : String} {bound n k : Nat}
    (hk : k ≤ bound) (hunused : candidate base (n + k) ∉ used) :
    ∃ tries ≤ k + 1, Searches used base (candidate base n) (n + 2) tries
      (firstUnused used base bound n) := by
  induction bound generalizing n k with
  | zero =>
    obtain rfl := Nat.le_zero.1 hk
    exact ⟨1, Nat.le_refl 1, .free hunused⟩
  | succ bound ih =>
    rw [firstUnused]
    split
    · next htaken =>
      cases k with
      | zero => exact absurd htaken hunused
      | succ k =>
        rw [← Nat.add_assoc, Nat.add_right_comm] at hunused
        obtain ⟨tries, htries, hsearches⟩ := ih (Nat.le_of_succ_le_succ hk) hunused
        exact ⟨tries + 1, Nat.succ_le_succ htries, .taken htaken hsearches⟩
    · next hfree => exact ⟨1, Nat.succ_le_succ (Nat.zero_le k), .free hfree⟩

theorem exists_searches_takeName (used : List String) (base : String) :
    ∃ tries ≤ used.toFinset.card + 1, Searches used base base 2 tries (takeName used base).1 := by
  obtain ⟨k, hk, hunused⟩ := exists_unused used base
  rw [← Nat.zero_add k] at hunused
  obtain ⟨tries, htries, hsearches⟩ :=
    exists_searches_firstUnused (hk.trans used.toFinset_card_le) hunused
  exact ⟨tries, htries.trans (Nat.succ_le_succ hk), hsearches⟩

theorem takeName_not_mem (used : List String) (base : String) : (takeName used base).1 ∉ used := by
  obtain ⟨tries, -, hsearches⟩ := exists_searches_takeName used base
  exact hsearches.not_mem

theorem takeName_used (used : List String) (base : String) :
    (takeName used base).2 = (takeName used base).1 :: used :=
  rfl

/-- The search ends after one try more than there are used names at the latest, and there is one way in which
it ends. The name that is taken is what it ends with; it was not used, it is the base if that was not used, and
afterwards it is the one name that is used besides those before. -/
theorem takeName_fresh (used : List String) (base : String) :
    (∃ tries ≤ used.toFinset.card + 1, ∀ k result, Searches used base base 2 k result ↔
      k = tries ∧ result = (takeName used base).1) ∧
    (takeName used base).1 ∉ used ∧
    (takeName used base).2.toFinset = insert (takeName used base).1 used.toFinset ∧
    (base ∉ used → (takeName used base).1 = base) := by
  obtain ⟨tries, htries, hsearches⟩ := exists_searches_takeName used base
  refine ⟨⟨tries, htries, fun k result => ⟨fun h => h.eq hsearches, ?_⟩⟩, hsearches.not_mem, ?_,
    fun hfree => (hsearches.eq (.free hfree)).2⟩
  · rintro ⟨rfl, rfl⟩
    exact hsearches
  · rw [takeName_used, List.toFinset_cons]

/-- A base that looks like a candidate is taken as it is while it is unused; then it gets a number of its own. -/
theorem takeName_fresh_numbered :
    "a_2" ∉ ["a"] ∧ (takeName ["a"] "a_2").1 = "a_2" ∧
    (∃ tries ≤ 3, Searches ["a_2", "a_2_2"] "a_2" "a_2" 2 tries "a_2_3") ∧
    (takeName ["a_2", "a_2_2"] "a_2").2.toFinset = {"a_2_3", "a_2", "a_2_2"} := by
  have hfree : "a_2" ∉ ["a"] := by decide
  obtain ⟨⟨tries, htries, hsearches⟩, -, hused, -⟩ := takeName_fresh ["a_2", "a_2_2"] "a_2"
  exact ⟨hfree, (takeName_fresh ["a"] "a_2").2.2.2 hfree,
    ⟨tries, htries, (hsearches tries "a_2_3").2 ⟨rfl, rfl⟩⟩, hused⟩

end ToolBindings.Solving
