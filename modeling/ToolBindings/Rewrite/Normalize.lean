import ToolBindings.Rewrite.Pass

/-!
# Normal trees

A tree is normalized by flattening, pruning and simplifying it, and putting its choices in canonical
order if that is asked for, in rounds until nothing changes or the cap on rounds is reached.
-/
namespace ToolBindings

structure NormalizeOptions where
  maxIterations : Nat := 10
  canonicalize : Bool := false
  deriving DecidableEq, Repr

namespace NormalizeOptions

def rewrites (o : NormalizeOptions) : List Rewrite :=
  Rewrite.all.filter fun r => r.isDefault || (o.canonicalize && r = .canonicalize)

def pass (o : NormalizeOptions) : Pass Rewrite :=
  Pass.pipeline (o.rewrites.map .basic) (some o.maxIterations)

end NormalizeOptions

def Tree.normalize (o : NormalizeOptions) (t : Tree) : Rewriting Outcome := o.pass.apply t

end ToolBindings
