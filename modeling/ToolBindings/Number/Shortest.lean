import ToolBindings.Number.Binary64

/-!
# Shortest decimals

Every real number close enough to a finite double rounds to it; these numbers form an interval
around the double, ends included when its significand is even. A decimal in the interval reads
back as the double. `shortest` looks at the decimals with one digit, two digits and so on up to
seventeen, and of each length only at the two neighbours of the double. The first length with a
decimal in the interval wins, of two decimals the nearer one.
-/
namespace ToolBindings

structure Decimal where
  digits : Nat
  exponent : Int
  deriving DecidableEq, Repr, Inhabited

namespace Decimal

def trim : Nat → Decimal → Decimal
  | 0, d => d
  | n + 1, d =>
    if d.digits % 10 = 0 ∧ d.digits ≠ 0 then trim n ⟨d.digits / 10, d.exponent + 1⟩ else d

def normal (d : Decimal) : Decimal := trim d.digits.log2 d

end Decimal

inductive Tie
  | up
  | toEven
  deriving DecidableEq, Repr

namespace Shortest

/-- The interval of a double in quarters of its unit `2 ^ exponent`: the double itself and both
ends. Below a power of two the numbers lie twice as dense, so the lower end is half as far. -/
structure Interval where
  low : Nat
  value : Nat
  high : Nat
  exponent : Int
  closed : Bool
  deriving DecidableEq, Repr

def interval (m : Nat) (e : Int) : Interval where
  low := if m = Binary64.leadingBit ∧ e ≠ Binary64.leastExponent then 4 * m - 1 else 4 * m - 2
  value := 4 * m
  high := 4 * m + 2
  exponent := e - 2
  closed := m % 2 = 0

/-- The decimal `n * 10 ^ k` and a multiple `x * 2 ^ e`, both scaled by one common factor to
natural numbers. -/
def scales (e k : Int) : Nat × Nat :=
  (Nat.pow 10 (-k).toNat <<< e.toNat, Nat.pow 10 k.toNat <<< (-e).toNat)

def Interval.contains (i : Interval) (n : Nat) (k : Int) : Bool :=
  let (two, ten) := scales i.exponent k
  if i.closed then i.low * two ≤ n * ten ∧ n * ten ≤ i.high * two
  else i.low * two < n * ten ∧ n * ten < i.high * two

def Interval.onGrid? (i : Interval) (tie : Tie) (k : Int) : Option Nat :=
  let (two, ten) := scales i.exponent k
  let below := i.value * two / ten
  let above := below + 1
  let lower := i.value * two - below * ten
  let upper := above * ten - i.value * two
  match i.contains below k, i.contains above k with
  | false, false => none
  | true, false => some below
  | false, true => some above
  | true, true =>
    if lower < upper then some below
    else if upper < lower then some above
    else match tie with
      | .up => some above
      | .toEven => some (if below % 2 = 0 then below else above)

/-- The exponent of the leading digit of `m * 2 ^ e`, from an estimate that is at most one too
small. -/
def leadingExponent (m : Nat) (e : Int) : Int :=
  let guess := ((m.log2 : Int) + e) * 30103 / 100000
  let (two, ten) := scales e (guess + 1)
  let guess := if ten ≤ m * two then guess + 1 else guess
  let (two, ten) := scales e guess
  if m * two < ten then guess - 1 else guess

def search (i : Interval) (tie : Tie) (lead : Int) : Nat → Nat → Decimal
  | 0, places => ⟨i.value, -places⟩
  | n + 1, places =>
    let k := lead - places
    match i.onGrid? tie k with
    | some d => ⟨d, k⟩
    | none => search i tie lead n (places + 1)

end Shortest

/-- The shortest decimal that reads back as `m * 2 ^ e`. -/
def shortest (tie : Tie) (m : Nat) (e : Int) : Decimal :=
  if m = 0 then ⟨0, 0⟩
  else (Shortest.search (Shortest.interval m e) tie (Shortest.leadingExponent m e) 17 0).normal

end ToolBindings
