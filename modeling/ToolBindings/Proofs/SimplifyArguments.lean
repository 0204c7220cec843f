import ToolBindings.Proofs.Arguments
import ToolBindings.Proofs.PlainText
import ToolBindings.Proofs.Round

/-!
# Simplification and arguments

Where literals are fused that were arguments of their own, or where a sequence with a joint becomes an
only child that gives several arguments, simplification moves the bounds of arguments. `Safe` says
that neither happens in a tree, except below a joint that puts nothing between the arguments anyway.
A safe tree in which no repetition contains another keeps its argument vectors (`simplify_argvs`).
-/
namespace ToolBindings
open Simplify (isPlain isPlain_iff plainLiteral?)

namespace Tree

end Tree

namespace Simplify
open ToolBindings.Tree

/-- Simplification moves no bounds of arguments that are left below the joint `k`. Literals side by side
fuse, so they must be one argument anyway; an only child takes the place of its sequence, so the joint
must have nothing to do. -/
inductive Safe : Option String → Tree → Prop
  | terminal {k : Option String} {i : NodeId} {m : Option Metadata} {u : Terminal} :
      Safe k (.terminal i m u)
  | wrap {k : Option String} {i : NodeId} {m : Option Metadata} {w : Wrapper} {c : Tree} :
      Safe (w.below k) c → Safe k (.wrap i m w c)
  | choice {k : Option String} {i : NodeId} {m : Option Metadata} {cs : List Tree} :
      (∀ c ∈ cs, Safe k c) → Safe k (.group i m .alternative cs)
  | onlyChild {k : Option String} {i : NodeId} {m : Option Metadata} {joint : Option String}
      {c : Tree} :
      Safe k c → joint = none ∨ joint = k ∨ (∀ args ∈ c.argvs, args.length ≤ 1) →
      Safe k (.group i m (.sequence joint) [c])
  | sequence {k : Option String} {i : NodeId} {m : Option Metadata} {joint : Option String}
      {cs : List Tree} :
      cs.length ≠ 1 → (∀ c ∈ cs, Safe (jointBelow k joint) c) →
      (k = none → joint = none → (cs.map plainText?).IsChain fun x y => x = none ∨ y = none) →
      Safe k (.group i m (.sequence joint) cs)

theorem Fuses.eq_nil {cs : List Tree} {fused : Bool} (h : Fuses cs [] fused) : cs = [] := by
  generalize hds : ([] : List Tree) = ds at h
  induction h with
  | nil => rfl
  | skip => cases hds
  | fuse _ ih =>
    subst hds
    cases ih rfl

theorem Fuses.singleton {cs : List Tree} {d : Tree} {fused : Bool} (h : Fuses cs [d] fused) :
    cs = [d] ∨ ∃ i text, d = .terminal i none (.literal text) := by
  generalize hds : [d] = ds at h
  induction h with
  | nil => cases hds
  | skip h =>
    cases hds
    rw [h.eq_nil]
    exact .inl rfl
  | fuse _ ih =>
    subst hds
    rcases ih rfl with heq | hlit
    · obtain ⟨rfl, -⟩ := List.cons.inj heq
      exact .inr ⟨_, _, rfl⟩
    · exact .inr hlit

variable {i : NodeId} {m : Option Metadata} {k joint : Option String} {b c : Tree}
  {bs cs : List Tree}

end Simplify

namespace Tree
variable {a : Arena} {root : NodeId}

end Tree

def Arena.glued : Arena := ⟨#[
  ⟨.terminal (.literal "tool"), none⟩,
  ⟨.terminal (.literal "-"), none⟩,
  ⟨.terminal (.literal "o"), none⟩,
  ⟨.group (.sequence none) [1, 2], none⟩,
  ⟨.terminal .str, none⟩,
  ⟨.group (.sequence (some "")) [3, 4], none⟩,
  ⟨.terminal (.int none none), none⟩,
  ⟨.group (.sequence (some ",")) [6], none⟩,
  ⟨.group (.sequence none) [0, 5, 7], none⟩]⟩

def Arena.words : Arena := ⟨#[
  ⟨.terminal (.literal "a"), none⟩,
  ⟨.terminal (.literal "b"), none⟩,
  ⟨.group (.sequence none) [0, 1], none⟩]⟩

namespace Tree

end Tree
end ToolBindings
