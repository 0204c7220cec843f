import ToolBindings.Json.Value
import ToolBindings.Number.Text

/-!
# Numerals

A numeral is what the text of a JSON number consists of: a sign, whole digits, perhaps the digits
of a fraction and perhaps an exponent. Its value is an integer if there are whole digits only and
they fit a word of 64 bits.

Otherwise it is a double. Digits are gathered in a word of 64 bits as long as they fit: further
whole digits count as a shift of the decimal point, further fraction digits not at all. The word
becomes a double and is multiplied or divided by a power of ten that is a double too, so that a
long numeral is not always read as the nearest double.
-/
namespace ToolBindings.Json

structure Numeral where
  negative : Bool
  whole : List Char
  fraction : List Char
  hasFraction : Bool
  exponent : Option (Bool × List Char)

namespace Numeral

def wordBound : Nat := 0x10000000000000000

def gather : Nat → List Char → Nat × Nat
  | word, [] => (word, 0)
  | word, d :: ds =>
    let next := 10 * word + Reading.digitValue d
    if next < wordBound then
      let (w, n) := gather next ds
      (w, n + 1)
    else (word, 0)

theorem gather_lt {word : Nat} (h : word < wordBound) (ds : List Char) :
    (gather word ds).1 < wordBound := by
  induction ds generalizing word with
  | nil => exact h
  | cons d ds ih =>
    simp only [gather]
    split
    · next k => exact ih k
    · exact h

def greatestPower : Nat := 308

def powerOfTen (n : Nat) : Binary64 := Binary64.ofDecimal false 1 n

/-- A double times a power of ten. The power goes up to `10 ^ 308`: a greater one is out of range,
a smaller one is reached in several divisions. -/
def scale : Nat → Binary64 → Int → Option Binary64
  | 0, x, _ => some x
  | n + 1, x, e =>
    if e.natAbs ≤ greatestPower then
      if 0 ≤ e then
        let y := x.mul (powerOfTen e.natAbs)
        if y.isInfinite then none else some y
      else some (x.div (powerOfTen e.natAbs))
    else if x.isZero then some x
    else if 0 ≤ e then none
    else scale n (x.div (powerOfTen greatestPower)) (e + greatestPower)

/-- Division by `10 ^ 308` three times makes any word zero. -/
def double? (negative : Bool) (word : Nat) (exponent : Int) : Option Binary64 :=
  (scale 8 (Binary64.ofInt word) exponent).map fun x => if negative then x.neg else x

def exponentBound : Nat := 0x80000000

def overflowAt? : Nat → List Char → Option Nat
  | _, [] => none
  | n, d :: ds =>
    let next := 10 * n + Reading.digitValue d
    if next < exponentBound then (overflowAt? next ds).map (· + 1) else some 1

inductive OutOfRange
  | value
  -- from the digit with this number on it is out of range
  | exponent (read : Nat)

def ofWord (negative : Bool) (word : Nat) : Json :=
  if !negative then int word
  else if word = 0 then double (Binary64.zero true)
  else if Reading.leastInt ≤ -(word : Int) then int (-(word : Int))
  else double (Binary64.ofInt word).neg

def value (n : Numeral) : Except OutOfRange Json :=
  let (word, taken) := gather 0 n.whole
  let dropped := n.whole.length - taken
  let (word, places) := gather word n.fraction
  let shift : Int := dropped - places
  let finish (e : Int) : Except OutOfRange Json :=
    match double? n.negative word e with
    | some x => .ok (double x)
    | none => .error .value
  match n.exponent with
  | none => if dropped = 0 ∧ n.hasFraction = false then .ok (ofWord n.negative word) else finish shift
  | some (negative, ds) =>
    match overflowAt? 0 ds with
    | some read =>
      if word ≠ 0 ∧ negative = false then .error (.exponent read)
      else .ok (double (Binary64.zero n.negative))
    | none =>
      let e : Int := Reading.digitsValue ds
      finish (if negative then shift - e else shift + e)

end Numeral
end ToolBindings.Json
