import Mathlib.Algebra.Order.Field.Rat
import Mathlib.Algebra.Order.Field.Power
import Mathlib.Tactic.Linarith
import Mathlib.Tactic.NormNum
import Mathlib.Tactic.Positivity
import Mathlib.Tactic.Ring
import ToolBindings.Number.Shortest

/-!
# Shortest decimals tell numbers apart

The shortest decimal of a number lies in the interval of the numbers that round to it
(`holds_shortest`): the search ends there, because seventeen digits are closer to each other than the
interval is wide. The intervals of two numbers have nothing in common, as they meet at an end at most and
do not both own it (`disjoint_of_lt`). So two numbers with the same shortest decimal are one.
-/
namespace ToolBindings

def Decimal.value (d : Decimal) : ℚ := d.digits * (10 : ℚ) ^ d.exponent

theorem Decimal.value_trim (n : Nat) (d : Decimal) : (trim n d).value = d.value := by
  induction n generalizing d with
  | zero => rfl
  | succ n ih =>
    unfold trim
    split
    · next h =>
      have hdigits : d.digits = d.digits / 10 * 10 := by omega
      rw [ih, value, value, zpow_add_one₀ (by norm_num)]
      conv_rhs => rw [hdigits]
      push_cast
      ring
    · rfl

namespace Shortest

theorem scales_eq (e k : Int) : ∃ c : ℚ, 0 < c ∧ ((scales e k).1 : ℚ) = (2 : ℚ) ^ e * c ∧
    ((scales e k).2 : ℚ) = (10 : ℚ) ^ k * c := by
  have htwo : (2 : ℚ) ^ e * (2 : ℚ) ^ (-e).toNat = (2 : ℚ) ^ e.toNat := by
    rw [← zpow_natCast, ← zpow_natCast, ← zpow_add₀ (by norm_num)]
    congr 1
    omega
  have hten : (10 : ℚ) ^ k * (10 : ℚ) ^ (-k).toNat = (10 : ℚ) ^ k.toNat := by
    rw [← zpow_natCast, ← zpow_natCast, ← zpow_add₀ (by norm_num)]
    congr 1
    omega
  refine ⟨(10 : ℚ) ^ (-k).toNat * (2 : ℚ) ^ (-e).toNat, by positivity, ?_, ?_⟩
  · simp only [scales, Nat.shiftLeft_eq, Nat.pow_eq]
    push_cast
    rw [← htwo]
    ring
  · simp only [scales, Nat.shiftLeft_eq, Nat.pow_eq]
    push_cast
    rw [← hten]
    ring

theorem scaled_le {e k : Int} {x y : Nat} :
    x * (scales e k).1 ≤ y * (scales e k).2 ↔ (x : ℚ) * (2 : ℚ) ^ e ≤ y * (10 : ℚ) ^ k := by
  obtain ⟨c, hc, htwo, hten⟩ := scales_eq e k
  rw [← Nat.cast_le (α := ℚ), Nat.cast_mul, Nat.cast_mul, htwo, hten, ← mul_assoc, ← mul_assoc]
  exact mul_le_mul_iff_of_pos_right hc

theorem scaled_ge {e k : Int} {x y : Nat} :
    y * (scales e k).2 ≤ x * (scales e k).1 ↔ (y : ℚ) * (10 : ℚ) ^ k ≤ x * (2 : ℚ) ^ e := by
  obtain ⟨c, hc, htwo, hten⟩ := scales_eq e k
  rw [← Nat.cast_le (α := ℚ), Nat.cast_mul, Nat.cast_mul, htwo, hten, ← mul_assoc, ← mul_assoc]
  exact mul_le_mul_iff_of_pos_right hc

structure Interval.Holds (i : Interval) (x : ℚ) : Prop where
  low_le : i.low * (2 : ℚ) ^ i.exponent ≤ x
  le_high : x ≤ i.high * (2 : ℚ) ^ i.exponent
  inside : i.closed = false → i.low * (2 : ℚ) ^ i.exponent < x ∧ x < i.high * (2 : ℚ) ^ i.exponent

theorem Interval.Holds.of_lt {i : Interval} {x : ℚ} (hlow : i.low * (2 : ℚ) ^ i.exponent < x)
    (hhigh : x < i.high * (2 : ℚ) ^ i.exponent) : i.Holds x :=
  ⟨hlow.le, hhigh.le, fun _ => ⟨hlow, hhigh⟩⟩

theorem contains_iff {i : Interval} {n : Nat} {k : Int} :
    i.contains n k = true ↔ i.Holds (n * (10 : ℚ) ^ k) := by
  unfold Interval.contains
  dsimp only
  by_cases hc : i.closed = true
  · rw [if_pos hc, decide_eq_true_iff, scaled_le, scaled_ge]
    exact ⟨fun h => ⟨h.1, h.2, fun hopen => nomatch hc.symm.trans hopen⟩,
      fun h => ⟨h.low_le, h.le_high⟩⟩
  · rw [if_neg hc, decide_eq_true_iff, lt_iff_lt_of_le_iff_le scaled_ge,
      lt_iff_lt_of_le_iff_le scaled_le]
    exact ⟨fun h => ⟨h.1.le, h.2.le, fun _ => h⟩, fun h => h.inside (Bool.eq_false_iff.2 hc)⟩

theorem contains_of_onGrid? {i : Interval} {tie : Tie} {k : Int} {d : Nat}
    (h : i.onGrid? tie k = some d) : i.contains d k = true := by
  unfold Interval.onGrid? at h
  dsimp only at h
  split at h
  · cases h
  · next hb _ => cases h; exact hb
  · next _ ha => cases h; exact ha
  · next hb ha =>
    split at h
    · cases h; exact hb
    · split at h
      · cases h; exact ha
      · split at h
        · cases h; exact ha
        · split at h <;> cases h
          · exact hb
          · exact ha

/-- The search on a grid looks at both neighbours of the value. -/
theorem onGrid?_isSome {i : Interval} (tie : Tie) {k : Int}
    (h : ∀ n : Nat, n * (10 : ℚ) ^ k ≤ i.value * (2 : ℚ) ^ i.exponent →
      i.value * (2 : ℚ) ^ i.exponent < (n + 1 : Nat) * (10 : ℚ) ^ k →
        i.contains n k = true ∨ i.contains (n + 1) k = true) :
    (i.onGrid? tie k).isSome = true := by
  have hten : 0 < (scales i.exponent k).2 := by
    simp only [scales, Nat.shiftLeft_eq, Nat.pow_eq]
    positivity
  have hbelow := Nat.div_mul_le_self (i.value * (scales i.exponent k).1) (scales i.exponent k).2
  have habove := (Nat.div_lt_iff_lt_mul hten).1
    (Nat.lt_succ_self (i.value * (scales i.exponent k).1 / (scales i.exponent k).2))
  have hcontains := h _ (scaled_ge.1 hbelow) ((lt_iff_lt_of_le_iff_le scaled_ge).1 habove)
  unfold Interval.onGrid?
  dsimp only
  split
  · next hb ha => simp [hb, ha] at hcontains
  · rfl
  · rfl
  · split
    · rfl
    · split
      · rfl
      · split <;> rfl

theorem holds_search {i : Interval} {tie : Tie} {lead : Int} {tries places last : Nat}
    (hle : places ≤ last) (hlt : last < places + tries)
    (h : (i.onGrid? tie (lead - last)).isSome = true) :
    i.Holds (search i tie lead tries places).value := by
  induction tries generalizing places with
  | zero => omega
  | succ tries ih =>
    unfold search
    dsimp only
    split
    · next d hd => exact contains_iff.1 (contains_of_onGrid? hd)
    · next hnone =>
      have hne : places ≠ last := by
        rintro rfl
        rw [hnone] at h
        cases h
      exact ih (by omega) (by omega)

section
variable {m m' : Nat} {e e' : Int}

theorem unit_pos (e : Int) : (0 : ℚ) < (2 : ℚ) ^ e := by positivity

theorem value_eq (m : Nat) (e : Int) :
    ((interval m e).value : ℚ) * (2 : ℚ) ^ (interval m e).exponent = m * (2 : ℚ) ^ e := by
  simp only [interval, zpow_sub₀ (two_ne_zero' ℚ)]
  push_cast
  ring

theorem low_of_power (h : m = Binary64.leadingBit ∧ e ≠ Binary64.leastExponent) :
    ((interval m e).low : ℚ) = 4 * m - 1 := by
  obtain ⟨rfl, he⟩ := h
  simp [interval, he, Binary64.leadingBit]
  norm_num

theorem low_of_not_power (hm : 0 < m)
    (h : ¬ (m = Binary64.leadingBit ∧ e ≠ Binary64.leastExponent)) :
    ((interval m e).low : ℚ) = 4 * m - 2 := by
  simp only [interval, if_neg h]
  rw [Nat.cast_sub (by omega)]
  push_cast
  ring

theorem high_eq (m : Nat) (e : Int) : ((interval m e).high : ℚ) = 4 * m + 2 := by
  simp [interval]

-- Of the two decimals around a number one is nearer than half of its unit. Just above a power of two
-- the lower half of the interval is too short for that, but there the next decimal up is near enough.
theorem contains_neighbour (h : Binary64.IsNormal m e) {k : Int}
    (hk : (10 : ℚ) ^ k * 10 ^ 16 ≤ m * (2 : ℚ) ^ e) {n : Nat}
    (hbelow : n * (10 : ℚ) ^ k ≤ m * (2 : ℚ) ^ e)
    (habove : m * (2 : ℚ) ^ e < (n + 1 : Nat) * (10 : ℚ) ^ k) :
    (interval m e).contains n k = true ∨ (interval m e).contains (n + 1) k = true := by
  have hten : (0 : ℚ) < (10 : ℚ) ^ k := by positivity
  have hunit := unit_pos (e - 2)
  have hfour : (2 : ℚ) ^ e = 4 * (2 : ℚ) ^ (e - 2) := by
    rw [zpow_sub₀ (two_ne_zero' ℚ)]
    ring
  rw [hfour] at hk hbelow habove
  rw [contains_iff, contains_iff]
  push_cast at habove ⊢
  generalize (10 : ℚ) ^ k = t at *
  generalize hu : (2 : ℚ) ^ (e - 2) = u at *
  have hexp : (2 : ℚ) ^ (interval m e).exponent = u := hu
  have hm : 0 < m := by
    rcases Nat.eq_zero_or_pos m with rfl | hm
    · rw [Nat.cast_zero] at hk
      linarith
    · exact hm
  by_cases hpower : m = Binary64.leadingBit ∧ e ≠ Binary64.leastExponent
  · have hvalue : (m : ℚ) = 2 ^ 52 := by
      rw [hpower.1]
      norm_num [Binary64.leadingBit]
    refine .inr (.of_lt ?_ ?_)
    · rw [hexp, low_of_power hpower]
      linarith
    · rw [hexp, high_eq]
      rw [hvalue] at hk hbelow ⊢
      linarith
  · have hbound : (m : ℚ) * u ≤ (2 ^ 53 - 1) * u := by
      have hlt : (m : ℚ) + 1 ≤ 2 ^ 53 := by exact_mod_cast h.1
      exact mul_le_mul_of_nonneg_right (by linarith) hunit.le
    by_cases hnear : m * (4 * u) - n * t < 2 * u
    · refine .inl (.of_lt ?_ ?_)
      · rw [hexp, low_of_not_power hm hpower]
        linarith
      · rw [hexp, high_eq]
        linarith
    · refine .inr (.of_lt ?_ ?_)
      · rw [hexp, low_of_not_power hm hpower]
        linarith
      · rw [hexp, high_eq]
        linarith

-- Both parts compare powers of two and ten: `10 ^ 59 ≤ 2 ^ 196` and `2 ^ 93 ≤ 10 ^ 28`.
theorem ten_zpow_le {p : Int} (hlow : -1074 ≤ p) (hhigh : p ≤ 1023) :
    (10 : ℚ) ^ (p * 30103 / 100000 - 1) ≤ (2 : ℚ) ^ p := by
  rcases Int.le_total 0 p with hp | hp
  · obtain ⟨n, rfl⟩ := Int.eq_ofNat_of_zero_le hp
    have hexp : ((n : Int) * 30103 / 100000 - 1) * (196 : ℕ) ≤ (59 * n : ℕ) := by omega
    refine le_of_pow_le_pow_left₀ (n := 196) (by norm_num) (by positivity) ?_
    calc ((10 : ℚ) ^ ((n : Int) * 30103 / 100000 - 1)) ^ 196
        = (10 : ℚ) ^ (((n : Int) * 30103 / 100000 - 1) * (196 : ℕ)) := by
          rw [zpow_mul, zpow_natCast]
      _ ≤ (10 : ℚ) ^ ((59 * n : ℕ) : Int) := zpow_le_zpow_right₀ (by norm_num) hexp
      _ = (10 ^ 59) ^ n := by rw [zpow_natCast, pow_mul]
      _ ≤ (2 ^ 196) ^ n := by gcongr; norm_num
      _ = ((2 : ℚ) ^ (n : Int)) ^ 196 := by rw [zpow_natCast, ← pow_mul, ← pow_mul, mul_comm]
  · obtain ⟨n, hn⟩ := Int.eq_ofNat_of_zero_le (Int.neg_nonneg.2 hp)
    obtain rfl : p = -(n : Int) := by omega
    have hexp : (-(n : Int) * 30103 / 100000 - 1) * (93 : ℕ) ≤ -((28 * n : ℕ) : Int) := by omega
    refine le_of_pow_le_pow_left₀ (n := 93) (by norm_num) (by positivity) ?_
    calc ((10 : ℚ) ^ (-(n : Int) * 30103 / 100000 - 1)) ^ 93
        = (10 : ℚ) ^ ((-(n : Int) * 30103 / 100000 - 1) * (93 : ℕ)) := by
          rw [zpow_mul, zpow_natCast]
      _ ≤ (10 : ℚ) ^ (-((28 * n : ℕ) : Int)) := zpow_le_zpow_right₀ (by norm_num) hexp
      _ = ((10 ^ 28) ^ n)⁻¹ := by rw [zpow_neg, zpow_natCast, pow_mul]
      _ ≤ ((2 ^ 93) ^ n)⁻¹ := by gcongr; norm_num
      _ = ((2 : ℚ) ^ (-(n : Int))) ^ 93 := by
        rw [zpow_neg, zpow_natCast, inv_pow, ← pow_mul, ← pow_mul, mul_comm]

theorem leadingExponent_le (h : Binary64.IsNormal m e) (hm : 0 < m) :
    (10 : ℚ) ^ leadingExponent m e ≤ m * (2 : ℚ) ^ e := by
  obtain ⟨hbound, hleast, hgreatest, -⟩ := h
  simp only [Binary64.leastExponent, Binary64.greatestExponent] at hleast hgreatest
  have hlog : m.log2 ≤ 52 := Nat.le_of_lt_succ ((Nat.log2_lt hm.ne').2 hbound)
  have hguess : (10 : ℚ) ^ (((m.log2 : Int) + e) * 30103 / 100000 - 1) ≤ m * (2 : ℚ) ^ e := by
    refine (ten_zpow_le (by omega) (by omega)).trans ?_
    rw [zpow_add₀ two_ne_zero, zpow_natCast]
    gcongr
    exact_mod_cast Nat.log2_self_le hm.ne'
  have hone (k : Int) : (scales e k).2 ≤ m * (scales e k).1 ↔ (10 : ℚ) ^ k ≤ m * (2 : ℚ) ^ e := by
    rw [← one_mul (scales e k).2, scaled_ge, Nat.cast_one, one_mul]
  unfold leadingExponent
  generalize ((m.log2 : Int) + e) * 30103 / 100000 = g at *
  dsimp only
  split
  · next habove =>
    rw [if_neg (not_lt.2 habove)]
    exact (hone _).1 habove
  · split
    · exact hguess
    · next hbelow => exact (hone g).1 (not_lt.1 hbelow)

/-- Seventeen digits are enough. -/
theorem holds_shortest (tie : Tie) (h : Binary64.IsNormal m e) (hm : 0 < m) :
    (interval m e).Holds (shortest tie m e).value := by
  have hlead := leadingExponent_le h hm
  have hk : (10 : ℚ) ^ (leadingExponent m e - (16 : ℕ)) * 10 ^ 16 ≤ m * (2 : ℚ) ^ e := by
    rw [zpow_sub₀ (by norm_num), zpow_natCast, div_mul_cancel₀ _ (by norm_num)]
    exact hlead
  have hgrid : ((interval m e).onGrid? tie (leadingExponent m e - (16 : ℕ))).isSome = true := by
    refine onGrid?_isSome tie fun n hbelow habove => ?_
    rw [value_eq] at hbelow habove
    exact contains_neighbour h hk hbelow habove
  rw [shortest, if_neg hm.ne', Decimal.normal, Decimal.value_trim]
  exact holds_search (Nat.zero_le 16) (by omega) hgrid

theorem closed_eq_false (h : m % 2 = 1) : (interval m e).closed = false := by
  simp [interval, h]

theorem two_mul_unit_le (h : e < e') : 2 * (2 : ℚ) ^ (e - 2) ≤ (2 : ℚ) ^ (e' - 2) := by
  rw [← zpow_one_add₀ two_ne_zero]
  exact zpow_le_zpow_right₀ (by norm_num) (by omega)

-- Two intervals can only meet where the significands are neighbours, and then one of them is odd. Below
-- a power of two the neighbour is the greatest significand, which is odd.
theorem high_le_low (h : Binary64.IsNormal m e) (h' : Binary64.IsNormal m' e')
    (hlt : e < e' ∨ e = e' ∧ m < m') :
    (interval m e).high * (2 : ℚ) ^ (e - 2) < (interval m' e').low * (2 : ℚ) ^ (e' - 2) ∨
      (interval m e).high * (2 : ℚ) ^ (e - 2) ≤ (interval m' e').low * (2 : ℚ) ^ (e' - 2) ∧
        (m % 2 = 1 ∨ m' % 2 = 1) := by
  obtain ⟨hbound, hleast, -, hlead⟩ := h
  obtain ⟨-, -, -, hlead'⟩ := h'
  simp only [Binary64.significandBound, Binary64.leadingBit] at hbound hlead hlead'
  have hunit := unit_pos (e - 2)
  rw [high_eq]
  rcases hlt with hlt | ⟨rfl, hlt⟩
  · have hdouble := two_mul_unit_le hlt
    have hleast' : e' ≠ Binary64.leastExponent := by omega
    have hm' := hlead'.resolve_right hleast'
    generalize (2 : ℚ) ^ (e - 2) = u at *
    generalize (2 : ℚ) ^ (e' - 2) = u' at *
    have hm : (m : ℚ) * u ≤ (2 ^ 53 - 1) * u := by
      have hcast : (m : ℚ) + 1 ≤ 2 ^ 53 := by exact_mod_cast hbound
      exact mul_le_mul_of_nonneg_right (by linarith) hunit.le
    by_cases hpower : m' = Binary64.leadingBit ∧ e' ≠ Binary64.leastExponent
    · have hvalue : (m' : ℚ) = 2 ^ 52 := by
        rw [hpower.1]
        norm_num [Binary64.leadingBit]
      rw [low_of_power hpower, hvalue]
      by_cases hodd : m % 2 = 1
      · exact .inr ⟨by linarith, .inl hodd⟩
      · have hm : (m : ℚ) * u ≤ (2 ^ 53 - 2) * u := by
          have hcast : (m : ℚ) + 2 ≤ 2 ^ 53 := by exact_mod_cast (by omega : m + 2 ≤ 2 ^ 53)
          exact mul_le_mul_of_nonneg_right (by linarith) hunit.le
        exact .inl (by linarith)
    · rw [low_of_not_power (by omega) hpower]
      have hne : m' ≠ 2 ^ 52 := fun hm' => hpower ⟨hm', hleast'⟩
      have hcast : (2 : ℚ) ^ 52 + 1 ≤ m' := by exact_mod_cast (by omega : 2 ^ 52 + 1 ≤ m')
      have hm' : (2 ^ 52 + 1) * u' ≤ m' * u' := mul_le_mul_of_nonneg_right hcast (by linarith)
      exact .inl (by linarith)
  · have hpower : ¬ (m' = Binary64.leadingBit ∧ e ≠ Binary64.leastExponent) := by
      rintro ⟨rfl, hne⟩
      exact absurd (hlead.resolve_right hne) (not_le.2 hlt)
    rw [low_of_not_power (by omega) hpower]
    generalize (2 : ℚ) ^ (e - 2) = u at *
    by_cases hnext : m' = m + 1
    · subst hnext
      push_cast
      exact .inr ⟨by linarith, by omega⟩
    · have hcast : (m : ℚ) + 2 ≤ m' := by exact_mod_cast (by omega : m + 2 ≤ m')
      have hm' : ((m : ℚ) + 2) * u ≤ m' * u := mul_le_mul_of_nonneg_right hcast hunit.le
      exact .inl (by linarith)

theorem disjoint_of_lt (h : Binary64.IsNormal m e) (h' : Binary64.IsNormal m' e')
    (hlt : e < e' ∨ e = e' ∧ m < m') {x : ℚ} (hx : (interval m e).Holds x) :
    ¬ (interval m' e').Holds x := by
  intro hx'
  rcases high_le_low h h' hlt with hlt | ⟨hle, hodd | hodd⟩
  · exact absurd (hx'.low_le.trans hx.le_high) (not_le.2 hlt)
  · exact absurd (hx'.low_le.trans_lt (hx.inside (closed_eq_false hodd)).2) (not_lt.2 hle)
  · exact absurd ((hx'.inside (closed_eq_false hodd)).1.trans_le hx.le_high) (not_lt.2 hle)

theorem value_shortest_pos (tie : Tie) (h : Binary64.IsNormal m e) (hm : 0 < m) :
    0 < (shortest tie m e).value := by
  have hlow : 0 < ((interval m e).low : ℚ) := by
    have hcast : (1 : ℚ) ≤ m := by exact_mod_cast hm
    by_cases hpower : m = Binary64.leadingBit ∧ e ≠ Binary64.leastExponent
    · rw [low_of_power hpower]
      linarith
    · rw [low_of_not_power hm hpower]
      linarith
  exact (mul_pos hlow (unit_pos _)).trans_le (holds_shortest tie h hm).low_le

theorem value_shortest_zero (tie : Tie) (e : Int) : (shortest tie 0 e).value = 0 := by
  simp [shortest, Decimal.value]

theorem exponent_of_zero (h : Binary64.IsNormal 0 e) : e = Binary64.leastExponent :=
  h.2.2.2.resolve_left (by simp [Binary64.leadingBit])

/-- Two numbers with the same shortest decimal are one. -/
theorem value_shortest_inj {tie : Tie} (h : Binary64.IsNormal m e) (h' : Binary64.IsNormal m' e')
    (hvalue : (shortest tie m e).value = (shortest tie m' e').value) : m = m' ∧ e = e' := by
  rcases Nat.eq_zero_or_pos m with rfl | hm <;> rcases Nat.eq_zero_or_pos m' with rfl | hm'
  · exact ⟨rfl, (exponent_of_zero h).trans (exponent_of_zero h').symm⟩
  · rw [value_shortest_zero] at hvalue
    exact absurd hvalue (value_shortest_pos tie h' hm').ne
  · rw [value_shortest_zero] at hvalue
    exact absurd hvalue (value_shortest_pos tie h hm).ne'
  · have hx := holds_shortest tie h hm
    have hx' := holds_shortest tie h' hm'
    rw [hvalue] at hx
    have hnot : ¬ (e < e' ∨ e = e' ∧ m < m') := fun hlt => disjoint_of_lt h h' hlt hx hx'
    have hnot' : ¬ (e' < e ∨ e' = e ∧ m' < m) := fun hlt => disjoint_of_lt h' h hlt hx' hx
    omega

end

end Shortest
end ToolBindings
