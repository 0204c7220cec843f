import ToolBindings.Diagnostic
import ToolBindings.Rewrite.Canonical
import ToolBindings.Rewrite.Flatten
import ToolBindings.Rewrite.Prune
import ToolBindings.Rewrite.Simplify

/-!
# Passes

A pass takes a tree to a tree and tells how it changed. Passes are built from given ones: one after
another, or one again and again until it asks for no further round or its cap is reached. A
composition that changed anything asks for another round, because a later part may have made work
for an earlier one. A pass that is stopped by its cap warns.

The given passes come with an interpretation in any monad; the built-in ones record nodes.
-/
namespace ToolBindings

inductive Status
  | unchanged
  | changed
  /-- Changed, and another round may change more. -/
  | unsettled
  deriving DecidableEq, Repr

namespace Status

def name : Status → String
  | unchanged => "Unchanged"
  | changed => "Changed"
  | unsettled => "ChangedNeedsRerun"

def ofName? (s : String) : Option Status := [unchanged, changed, unsettled].find? (·.name = s)

def ofChange (c : Bool) : Status := if c then changed else unchanged

end Status

structure Outcome where
  tree : Tree
  status : Status
  warnings : List Diagnostic := []
  deriving Repr

namespace Outcome

def afterRound (o r : Outcome) : Outcome :=
  ⟨r.tree, .ofChange (o.status ≠ .unchanged ∨ r.status ≠ .unchanged), o.warnings ++ r.warnings⟩

def afterPart (o r : Outcome) : Outcome :=
  ⟨r.tree, if r.status = .unchanged then o.status else .unsettled, o.warnings ++ r.warnings⟩

end Outcome

inductive Pass (α : Type)
  | basic (a : α)
  | compose (passes : List (Pass α))
  | fixpoint (pass : Pass α) (cap : Nat)
  deriving Repr

namespace Pass
variable {α : Type} {m : Type → Type} [Monad m]

mutual

def name (nameOf : α → String) : Pass α → String
  | basic a => nameOf a
  | compose ps => "compose(" ++ ", ".intercalate (names nameOf ps) ++ ")"
  | fixpoint p _ => "fixpoint(" ++ p.name nameOf ++ ")"

def names (nameOf : α → String) : List (Pass α) → List String
  | [] => []
  | p :: ps => p.name nameOf :: names nameOf ps

end

def notConverged (name : String) (cap : Nat) : Diagnostic where
  level := .warning
  message := s!"{name} did not converge after {cap} iterations"
  code := some "W0300"
  hint := some "the returned tree is the result of the last iteration"

/-- Up to `rounds` further rounds of a pass; none if the last of them still asks for another. -/
def iterate (round : Tree → m Outcome) : Nat → Outcome → m (Outcome × Bool)
  | 0, o => return (o, false)
  | rounds + 1, o => do
    let r ← round o.tree
    let o := o.afterRound r
    if r.status = .unsettled then iterate round rounds o else return (o, true)

mutual

def run (basicRun : α → Tree → m Outcome) (nameOf : α → String) : Pass α → Tree → m Outcome
  | basic a, t => basicRun a t
  | compose ps, t => do
    let o ← runAll basicRun nameOf ps ⟨t, .unchanged, []⟩
    return { o with status := if o.status = .unchanged then .unchanged else .unsettled }
  | fixpoint p cap, t => do
    let (o, settled) ← iterate (run basicRun nameOf p) cap ⟨t, .unchanged, []⟩
    if settled then return o
    return { o with warnings := o.warnings ++ [notConverged ((fixpoint p cap).name nameOf) cap] }

def runAll (basicRun : α → Tree → m Outcome) (nameOf : α → String) :
    List (Pass α) → Outcome → m Outcome
  | [], o => return o
  | p :: ps, o => do
    let r ← run basicRun nameOf p o.tree
    runAll basicRun nameOf ps (o.afterPart r)

end

def pipeline (passes : List (Pass α)) (cap : Option Nat) : Pass α :=
  match cap with
  | some n => fixpoint (compose passes) n
  | none => compose passes

end Pass

inductive Rewrite
  | flatten
  | prune
  | simplify
  | canonicalize
  deriving DecidableEq, Repr

namespace Rewrite

def all : List Rewrite := [flatten, prune, simplify, canonicalize]

def name : Rewrite → String
  | flatten => "flatten"
  | prune => "remove-empty"
  | simplify => "simplify"
  | canonicalize => "canonicalize"

def ofName? (s : String) : Option Rewrite := all.find? (·.name = s)

def summary : Rewrite → String
  | flatten => "inline nested sequences with matching join and nested alternatives"
  | prune => "drop empty sequences/alternatives and optional/repeat wrappers around them"
  | simplify =>
    "unwrap nested optionals and repeats, merge adjacent literals, collapse singletons"
  | canonicalize =>
    "sort alternatives by kind, name and structure; drop structural duplicates"

def guarded : Rewrite → String
  | flatten => "children carrying metadata"
  | prune => "nodes carrying metadata"
  | simplify => "metadata is merged, never dropped"
  | canonicalize => "children carrying metadata are never dropped"

def isDefault : Rewrite → Bool
  | canonicalize => false
  | _ => true

def rewrite : Rewrite → Tree → Rewriting Rewritten
  | flatten => Flatten.run
  | prune => Prune.run
  | simplify => Simplify.run
  | canonicalize => Canonical.run

def run (r : Rewrite) (t : Tree) : Rewriting Outcome := do
  let t' ← r.rewrite t
  return ⟨t'.tree, .ofChange t'.changed, []⟩

end Rewrite

def Pass.apply (p : Pass Rewrite) (t : Tree) : Rewriting Outcome :=
  p.run Rewrite.run Rewrite.name t

end ToolBindings
