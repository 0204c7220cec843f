import ToolBindings.Proofs.Sweep
import ToolBindings.Rewrite.Canonical
import ToolBindings.Rewrite.Flatten
import ToolBindings.Rewrite.Prune
import ToolBindings.Rewrite.Simplify

/-!
# Redexes

The nodes that each of the four rewrites has something to do at, said of trees alone: no function of
the rewrites occurs here but the canonical order itself. A tree is normal for a rewrite if no node in
it is a redex of that rewrite.
-/
namespace ToolBindings

namespace Flatten

inductive Redex : Tree → Prop
  | sequence {i k : NodeId} {m : Option Metadata} {joint : Option String} {cs ds : List Tree} :
      .group k none (.sequence joint) ds ∈ cs → Redex (.group i m (.sequence joint) cs)
  | choice {i k : NodeId} {m : Option Metadata} {cs ds : List Tree} :
      .group k none .alternative ds ∈ cs → Redex (.group i m .alternative cs)

end Flatten

namespace Prune

inductive Redex : Tree → Prop
  | empty {i k : NodeId} {m : Option Metadata} {g g' : Group} {cs : List Tree} :
      .group k none g' [] ∈ cs → Redex (.group i m g cs)
  | aroundEmpty {i k l : NodeId} {m n : Option Metadata} {g g' : Group} {w : Wrapper}
      {cs : List Tree} :
      .wrap k none w (.group l n g' []) ∈ cs → Redex (.group i m g cs)

end Prune

namespace Simplify

inductive Redex : Tree → Prop
  | optional {i k : NodeId} {m n : Option Metadata} {c : Tree} :
      Redex (.wrap i m .optional (.wrap k n .optional c))
  | repetition {i k : NodeId} {m n : Option Metadata} {joint joint' : Option String}
      {min min' max max' : Option Nat} {c : Tree} :
      (∀ lo hi, Option.merge Nat.max min min' = some lo → Option.merge Nat.min max max' = some hi →
        lo ≤ hi) →
      Redex (.wrap i m (.repetition joint min max) (.wrap k n (.repetition joint' min' max') c))
  | onlyChild {i : NodeId} {m : Option Metadata} {joint : Option String} {c : Tree} :
      Redex (.group i m (.sequence joint) [c])
  | literals {i k l : NodeId} {m : Option Metadata} {joint : Option String} {text text' : String}
      {cs ds : List Tree} : joint = none ∨ joint = some "" →
      Redex (.group i m (.sequence joint)
        (cs ++ .terminal k none (.literal text) :: .terminal l none (.literal text') :: ds))
  | onlyChoice {i : NodeId} {c : Tree} : Redex (.group i none .alternative [c])

end Simplify

namespace Canonical

inductive Redex : Tree → Prop
  | disorder {i : NodeId} {m : Option Metadata} {cs : List Tree} :
      arranged cs ≠ cs → Redex (.group i m .alternative cs)

end Canonical

/-- A node at which flattening, pruning or simplification has something to do. -/
def Tree.Redex (t : Tree) : Prop := Flatten.Redex t ∨ Prune.Redex t ∨ Simplify.Redex t

end ToolBindings
