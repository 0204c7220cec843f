import ToolBindings.Proofs.Simplify

/-!
# Trees that become literals

A tree simplifies to a literal without metadata if it is one, or if it is a group without metadata whose
children become such literals and that leaves one child of them. `plainText?` tells the text of that
literal, and `plainLiteral?_step` is what a step of simplification has to do with it.
-/
namespace ToolBindings.Simplify
open ToolBindings.Tree

def collapses (g : Group) (children : Nat) : Bool :=
  match g with
  | .sequence joint => children = 1 || isPlain joint && children ≠ 0
  | .alternative => children = 1

mutual

def plainText? : Tree → Option String
  | .terminal _ none (.literal text) => some text
  | .group _ none g cs => if collapses g cs.length then plainTexts? cs else none
  | _ => none

def plainTexts? : List Tree → Option String
  | [] => some ""
  | t :: ts => do return (← plainText? t) ++ (← plainTexts? ts)

end

theorem plainLiteral?_eq_some_iff {t : Tree} {text : String} :
    plainLiteral? t = some text ↔ ∃ i, t = .terminal i none (.literal text) := by
  constructor
  · intro h
    unfold plainLiteral? at h
    split at h <;> cases h
    exact ⟨_, rfl⟩
  · rintro ⟨i, rfl⟩
    rfl

theorem fuseUnder_singleton (joint : Option String) (c : Tree) (a : Arena) :
    fuseUnder joint [c] a = (([c], false), a) :=
  fuseUnder_eq_self a fun _ => List.isChain_singleton c

end ToolBindings.Simplify
