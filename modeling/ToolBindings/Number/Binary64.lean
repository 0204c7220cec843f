/-!
# Double-precision numbers

A finite number is a sign and a value `significand * 2 ^ exponent`; the significand has 53 bits,
or fewer at the least exponent, so that every number but zero has one form. Every operation computes
its exact rational result in natural numbers and rounds it once, to the nearest number and from a
tie to the even significand.
-/
namespace ToolBindings

namespace Binary64

def leastExponent : Int := -1074
def greatestExponent : Int := 971

def significandBound : Nat := 0x20000000000000

def leadingBit : Nat := 0x10000000000000

/-- The form in which a finite number is kept. -/
def IsNormal (significand : Nat) (exponent : Int) : Prop :=
  significand < significandBound ∧ leastExponent ≤ exponent ∧ exponent ≤ greatestExponent ∧
    (leadingBit ≤ significand ∨ exponent = leastExponent)

instance (m : Nat) (e : Int) : Decidable (IsNormal m e) :=
  inferInstanceAs (Decidable (_ ∧ _))

theorem isNormal_zero : IsNormal 0 leastExponent := by decide

end Binary64

inductive Binary64
  | nan
  | infinite (negative : Bool)
  | finite (negative : Bool) (significand : Nat) (exponent : Int)
      (normal : Binary64.IsNormal significand exponent)
  deriving DecidableEq, Repr

namespace Binary64

def zero (negative : Bool) : Binary64 := finite negative 0 leastExponent isNormal_zero

/-- The quotient rounded to the nearest natural number, a tie to the even one. -/
def nearestEven (num den : Nat) : Nat :=
  let q := num / den
  let r := num % den
  if 2 * r < den then q
  else if den < 2 * r then q + 1
  else q + q % 2

theorem nearestEven_bounds {num den : Nat} (h : 0 < den) :
    2 * num ≤ 2 * nearestEven num den * den + den ∧
      2 * nearestEven num den * den ≤ 2 * num + den := by
  have hd := Nat.div_add_mod num den
  have hm := Nat.mod_lt num h
  have e : 2 * (num / den) * den = 2 * (den * (num / den)) := by
    rw [Nat.mul_assoc, Nat.mul_comm (num / den)]
  have e' : 2 * (num / den + 1) * den = 2 * (den * (num / den)) + 2 * den := by
    rw [Nat.mul_add, Nat.add_mul, e, Nat.mul_one]
  simp only [nearestEven]
  split
  · constructor <;> omega
  · split
    · constructor <;> omega
    · rcases Nat.mod_two_eq_zero_or_one (num / den) with p | p <;> rw [p]
      · simp only [Nat.add_zero]; constructor <;> omega
      · constructor <;> omega

def inUnits (num den : Nat) (e : Int) : Nat × Nat :=
  if 0 ≤ e then (num, den <<< e.toNat) else (num <<< (-e).toNat, den)

/-- The exponent at which the fraction has a whole part of 53 bits, or the least exponent. -/
def unitExponent (num den : Nat) : Int :=
  let e : Int := (num.log2 : Int) - (den.log2 : Int) - 52
  let (n, d) := inUnits num den e
  max leastExponent (if n / d < leadingBit then e - 1 else e)

/-- The number nearest to the fraction `num / den`; past the greatest number, infinity. -/
def ofRatio (negative : Bool) (num den : Nat) : Binary64 :=
  if num = 0 then zero negative
  else
    let e := unitExponent num den
    let (n, d) := inUnits num den e
    let m := nearestEven n d
    let (m, e) := if m = significandBound then (leadingBit, e + 1) else (m, e)
    if h : IsNormal m e then finite negative m e h else infinite negative

def ofInt (n : Int) : Binary64 := ofRatio (n < 0) n.natAbs 1

/-- The number nearest to `digits * 10 ^ exponent`. Far outside the range of the format the answer
needs no powers of ten. -/
def ofDecimal (negative : Bool) (digits : Nat) (exponent : Int) : Binary64 :=
  if digits = 0 then zero negative
  else
    let magnitude := (digits.log2 : Int) * 30103 / 100000 + exponent
    if 310 < magnitude then infinite negative
    else if magnitude < -400 then zero negative
    else if 0 ≤ exponent then ofRatio negative (digits * Nat.pow 10 exponent.toNat) 1
    else ofRatio negative digits (Nat.pow 10 (-exponent).toNat)

def isInfinite : Binary64 → Bool
  | infinite _ => true
  | _ => false

def isZero : Binary64 → Bool
  | finite _ m _ _ => m = 0
  | _ => false

def neg : Binary64 → Binary64
  | nan => nan
  | infinite s => infinite (!s)
  | finite s m e h => finite (!s) m e h

def fraction (m : Nat) (e : Int) : Nat × Nat :=
  if 0 ≤ e then (m <<< e.toNat, 1) else (m, 1 <<< (-e).toNat)

def mul : Binary64 → Binary64 → Binary64
  | finite s m e _, finite t n f _ =>
    let (num, den) := fraction (m * n) (e + f)
    ofRatio (s != t) num den
  | infinite s, infinite t => infinite (s != t)
  | infinite s, finite t n _ _ => if n = 0 then nan else infinite (s != t)
  | finite s m _ _, infinite t => if m = 0 then nan else infinite (s != t)
  | nan, _ | _, nan => nan

def div : Binary64 → Binary64 → Binary64
  | finite s m e _, finite t n f _ =>
    if n = 0 then if m = 0 then nan else infinite (s != t)
    else
      let (num, den) := fraction m (e - f)
      ofRatio (s != t) num (den * n)
  | infinite _, infinite _ => nan
  | infinite s, finite t _ _ _ => infinite (s != t)
  | finite s _ _ _, infinite t => zero (s != t)
  | nan, _ | _, nan => nan

/-- Equality of values: the two zeros are equal, and `nan` equals nothing. -/
def same : Binary64 → Binary64 → Bool
  | finite s m e _, finite t n f _ => (m = 0 ∧ n = 0) ∨ (s = t ∧ m = n ∧ e = f)
  | infinite s, infinite t => s = t
  | _, _ => false

def floor? : Binary64 → Option Int
  | finite s m e _ =>
    let (num, den) := fraction m e
    some ((if s then -(num : Int) else (num : Int)).fdiv den)
  | _ => none

theorem same_self {x : Binary64} (h : x ≠ nan) : x.same x = true := by
  cases x <;> simp_all [same]

theorem same_symm (x y : Binary64) : x.same y = y.same x := by
  cases x <;> cases y <;> simp only [same, eq_comm, and_comm]

theorem same_trans {x y z : Binary64} (h : x.same y = true) (k : y.same z = true) :
    x.same z = true := by
  cases x <;> cases y <;> cases z <;> simp_all [same]
  grind

end Binary64
end ToolBindings
