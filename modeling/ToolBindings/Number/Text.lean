import ToolBindings.Number.Shortest

/-!
# Numbers as text

A `FloatLayout` holds the decisions of one written form of doubles: which exponents are written
positionally, whether a whole number keeps `.0`, how ties between two shortest decimals go and the
words for what is no finite number. Reading knows three forms: signed integers, counts and decimal
numbers. Each is a sign and ASCII digits, without blanks.
-/
namespace ToolBindings

structure FloatLayout where
  tie : Tie
  positional : Int → Bool
  wholePoint : Bool
  nan : String
  infinity : String

namespace FloatLayout

def digitText (n : Nat) : String := String.ofList (Nat.toDigits 10 n)

def positionalText (l : FloatLayout) (d : Decimal) : String :=
  let ds := Nat.toDigits 10 d.digits
  if 0 ≤ d.exponent then
    String.ofList (ds ++ List.replicate d.exponent.toNat '0') ++ (if l.wholePoint then ".0" else "")
  else
    let places := (-d.exponent).toNat
    let ds := List.replicate (places + 1 - ds.length) '0' ++ ds
    String.ofList (ds.take (ds.length - places) ++ '.' :: ds.drop (ds.length - places))

def exponentText (d : Decimal) : String :=
  let ds := Nat.toDigits 10 d.digits
  let e := d.exponent + (ds.length - 1 : Nat)
  let mantissa := match ds with
    | [] => []
    | [c] => [c]
    | c :: r => c :: '.' :: r
  String.ofList mantissa ++ "e" ++ (if e < 0 then "-" else "+") ++ digitText e.natAbs

def decimalText (l : FloatLayout) (d : Decimal) : String :=
  let lead := d.exponent + ((Nat.toDigits 10 d.digits).length - 1 : Nat)
  if l.positional lead then l.positionalText d else exponentText d

def write (l : FloatLayout) : Binary64 → String
  | .nan => l.nan
  | .infinite s => (if s then "-" else "") ++ l.infinity
  | .finite s m e _ => (if s then "-" else "") ++ l.decimalText (shortest l.tie m e)

/-- The form in which bounds are shown: never an exponent, no point in a whole number. -/
def plain : FloatLayout := ⟨.up, fun _ => true, false, "NaN", "inf"⟩

/-- The form of a number in JSON text: positional from `10 ^ -5` up to below `10 ^ 16`, and a whole
number ends in `.0`. -/
def json : FloatLayout := ⟨.toEven, fun e => -5 ≤ e ∧ e ≤ 15, true, "null", "null"⟩

end FloatLayout

def Binary64.plainText (x : Binary64) : String := FloatLayout.plain.write x

def intText (n : Int) : String :=
  if n < 0 then "-" ++ FloatLayout.digitText n.natAbs else FloatLayout.digitText n.natAbs

namespace Reading

def digitValue (c : Char) : Nat := c.toNat - '0'.toNat

def digitsValue (ds : List Char) : Nat := ds.foldl (fun n c => 10 * n + digitValue c) 0

def digits? (cs : List Char) : Option Nat :=
  if cs ≠ [] ∧ cs.all Char.isDigit then some (digitsValue cs) else none

def leastInt : Int := -0x8000000000000000
def greatestInt : Int := 0x7fffffffffffffff
def greatestCount : Nat := 0xffffffffffffffff

def int? (s : String) : Option Int :=
  let n? := match s.toList with
    | '-' :: r => (digits? r).map fun n => -(n : Int)
    | '+' :: r => (digits? r).map Int.ofNat
    | r => (digits? r).map Int.ofNat
  n?.filter fun n => leastInt ≤ n ∧ n ≤ greatestInt

def count? (s : String) : Option Nat :=
  let n? := match s.toList with
    | '+' :: r => digits? r
    | r => digits? r
  n?.filter (· ≤ greatestCount)

def sign (cs : List Char) : Bool × List Char :=
  match cs with
  | '-' :: r => (true, r)
  | '+' :: r => (false, r)
  | r => (false, r)

def exponent? (cs : List Char) : Option Int :=
  match cs with
  | [] => some 0
  | c :: r =>
    if c = 'e' ∨ c = 'E' then
      let (negative, ds) := sign r
      (digits? ds).map fun n => if negative then -(n : Int) else n
    else none

/-- Digits with at most one point among them and at least one digit, then perhaps an exponent; or a
word for infinity or for what is no number, in letters of either case. -/
def float? (s : String) : Option Binary64 :=
  let (negative, cs) := sign s.toList
  let word := cs.map Char.toLower
  if word = "inf".toList ∨ word = "infinity".toList then some (.infinite negative)
  else if word = "nan".toList then some .nan
  else
    let whole := cs.takeWhile Char.isDigit
    let rest := cs.dropWhile Char.isDigit
    let (part, rest) := match rest with
      | '.' :: r => (r.takeWhile Char.isDigit, r.dropWhile Char.isDigit)
      | r => ([], r)
    if whole = [] ∧ part = [] then none
    else (exponent? rest).map fun e =>
      Binary64.ofDecimal negative (digitsValue (whole ++ part)) (e - part.length)

end Reading
end ToolBindings
