import ToolBindings.Number.Binary64
import ToolBindings.OrderedMap

/-!
# JSON values

A number is an integer where its text is one that fits a word of 64 bits, signed or unsigned, and a
double elsewhere. The members of an object stand in order of insertion. A `Path` leads from a value
to one of the values inside it.
-/
namespace ToolBindings

inductive Json
  | null
  | bool (b : Bool)
  | int (n : Int)
  | double (x : Binary64)
  | str (s : String)
  | arr (items : List Json)
  | obj (members : List (String × Json))
  deriving Repr, Inhabited

namespace Json

def member? (key : String) : Json → Option Json
  | obj ms => OrderedMap.find? key ms
  | _ => none

def str? : Json → Option String
  | str s => some s
  | _ => none

def bool? : Json → Option Bool
  | bool b => some b
  | _ => none

def arr? : Json → Option (List Json)
  | arr xs => some xs
  | _ => none

def double? : Json → Option Binary64
  | int n => some (Binary64.ofInt n)
  | double x => some x
  | _ => none

def count? : Json → Option Nat
  | int n => if 0 ≤ n then some n.toNat else none
  | _ => none

inductive Step
  | key (name : String)
  | index (i : Nat)
  deriving DecidableEq, Repr

abbrev Path := List Step

def step? (v : Json) : Step → Option Json
  | .key k => v.member? k
  | .index i => v.arr?.bind (·[i]?)

def get? (v : Json) : Path → Option Json
  | [] => some v
  | s :: p => (v.step? s).bind (·.get? p)

@[simp] theorem get?_nil (v : Json) : v.get? [] = some v := rfl

theorem get?_append (v : Json) (p q : Path) : v.get? (p ++ q) = (v.get? p).bind (·.get? q) := by
  induction p generalizing v with
  | nil => rfl
  | cons s p ih =>
    simp only [List.cons_append, get?]
    cases v.step? s with
    | none => rfl
    | some w => exact ih w

end Json
end ToolBindings
