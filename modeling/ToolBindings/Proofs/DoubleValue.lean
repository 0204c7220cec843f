import Mathlib.Data.Rat.Floor
import Mathlib.Tactic.NormNum
import Mathlib.Tactic.Positivity
import ToolBindings.Number.Binary64

/-!
# Values of doubles and integers

The floor of a double is the floor of its value (`floor?_eq`). An integer of at most 53 bits is a double
(`value?_ofInt`): it is rounded at a unit that divides it.
-/
namespace ToolBindings.Binary64

def value? : Binary64 → Option ℚ
  | finite s m e _ => some ((if s then -(m : ℚ) else m) * (2 : ℚ) ^ e)
  | _ => none

theorem fraction_value (m : Nat) (e : Int) :
    ((fraction m e).1 : ℚ) / ((fraction m e).2 : ℚ) = m * (2 : ℚ) ^ e := by
  unfold fraction
  split
  · next he =>
    obtain ⟨k, rfl⟩ := Int.eq_ofNat_of_zero_le he
    simp [Nat.shiftLeft_eq]
  · next he =>
    obtain ⟨k, rfl⟩ : ∃ k : Nat, e = -k := ⟨(-e).toNat, by omega⟩
    simp [Nat.shiftLeft_eq, div_eq_mul_inv]

theorem floor?_eq (x : Binary64) : x.floor? = x.value?.map Int.floor := by
  cases x with
  | nan | infinite => rfl
  | finite s m e h =>
    have hvalue : (if s then -(m : ℚ) else m) * (2 : ℚ) ^ e =
        ((if s then -((fraction m e).1 : Int) else (fraction m e).1 : Int) : ℚ) /
          ((fraction m e).2 : ℕ) := by
      cases s
      · simp [fraction_value]
      · simp [neg_div, fraction_value]
    rw [value?, Option.map_some, hvalue, Rat.floor_intCast_div_natCast,
      ← Int.fdiv_eq_ediv_of_nonneg _ (Int.natCast_nonneg _)]
    rfl

theorem nearestEven_one (n : Nat) : nearestEven n 1 = n := by
  simp [nearestEven, Nat.mod_one]

theorem inUnits_one (n k : Nat) : inUnits n 1 (-(k : Int)) = (n * 2 ^ k, 1) := by
  unfold inUnits
  split
  · next hk =>
    obtain rfl : k = 0 := by omega
    simp
  · simp [Nat.shiftLeft_eq]

/-- In these units a natural number of at most 53 bits has 53 bits. -/
theorem exists_units {n : Nat} (hn : 0 < n) (hbound : n < significandBound) :
    ∃ k : Nat, k ≤ 52 ∧ unitExponent n 1 = -(k : Int) ∧ leadingBit ≤ n * 2 ^ k ∧
      n * 2 ^ k < significandBound := by
  have hlog : n.log2 ≤ 52 := Nat.le_of_lt_succ ((Nat.log2_lt hn.ne').2 hbound)
  have hpow : 2 ^ n.log2 * 2 ^ (52 - n.log2) = leadingBit := by
    rw [← pow_add, Nat.add_sub_cancel' hlog]
    rfl
  have hleading : leadingBit ≤ n * 2 ^ (52 - n.log2) := by
    rw [← hpow]
    exact Nat.mul_le_mul_right _ (Nat.log2_self_le hn.ne')
  have hunits : (n.log2 : Int) - ((1 : Nat).log2 : Int) - 52 = -((52 - n.log2 : Nat) : Int) := by
    have hone : (1 : Nat).log2 = 0 := rfl
    omega
  refine ⟨52 - n.log2, by omega, ?_, hleading, ?_⟩
  · unfold unitExponent
    rw [hunits]
    dsimp only
    rw [inUnits_one]
    dsimp only
    rw [Nat.div_one, if_neg (Nat.not_lt.2 hleading), leastExponent]
    omega
  · have hlt : n < 2 ^ (n.log2 + 1) := Nat.lt_log2_self
    calc n * 2 ^ (52 - n.log2) < 2 ^ (n.log2 + 1) * 2 ^ (52 - n.log2) :=
          Nat.mul_lt_mul_of_pos_right hlt (Nat.two_pow_pos _)
      _ = significandBound := by
          rw [← pow_add, Nat.add_right_comm, Nat.add_sub_cancel' hlog]
          rfl

theorem value?_ofRatio_one (s : Bool) {n : Nat} (h : n ≤ significandBound) :
    (ofRatio s n 1).value? = some (if s then -(n : ℚ) else n) := by
  rcases Nat.eq_zero_or_pos n with rfl | hn
  · simp [ofRatio, zero, value?]
  rcases h.eq_or_lt with rfl | hlt
  · -- The bound itself has 54 bits, the last of which is zero.
    have hrounded : ofRatio s significandBound 1 = finite s leadingBit 1 (by decide) := by
      cases s <;> decide
    rw [hrounded, value?]
    norm_num [leadingBit, significandBound]
  obtain ⟨k, hk, hunits, hleading, hbound⟩ := exists_units hn hlt
  have hnormal : IsNormal (n * 2 ^ k) (-(k : Int)) :=
    ⟨hbound, by rw [leastExponent]; omega, by rw [greatestExponent]; omega, .inl hleading⟩
  unfold ofRatio
  rw [if_neg hn.ne', hunits]
  dsimp only
  rw [inUnits_one]
  dsimp only
  rw [nearestEven_one, if_neg hbound.ne]
  dsimp only
  rw [dif_pos hnormal, value?]
  cases s <;> simp

/-- Every integer of at most 53 bits is a double. -/
theorem value?_ofInt {n : Int} (h : n.natAbs ≤ significandBound) :
    (ofInt n).value? = some (n : ℚ) := by
  rw [ofInt, value?_ofRatio_one _ h, Option.some_inj]
  by_cases hn : n < 0
  · rw [if_pos (decide_eq_true hn), Nat.cast_natAbs, abs_of_neg hn, Int.cast_neg, neg_neg]
  · rw [if_neg (by simpa using hn), Nat.cast_natAbs, abs_of_nonneg (not_lt.1 hn)]

end ToolBindings.Binary64
