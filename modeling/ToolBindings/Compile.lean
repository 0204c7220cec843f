import ToolBindings.Binding.Solve
import ToolBindings.Descriptor.Build
import ToolBindings.Provenance
import ToolBindings.Rewrite.Normalize

/-!
# Compiling a descriptor

A descriptor is read, its tree is normalized and the normal tree is solved. A descriptor that has no
app is read only. The arena of a descriptor holds every node of its tree, so neither step misses a
node.
-/
namespace ToolBindings

structure Compiled where
  app : Option App
  arena : Arena
  /-- The tree as it was read. -/
  parsed : Tree
  /-- The tree after normalization. -/
  tree : Tree
  solution : Solution
  diagnostics : List Diagnostic
  provenance : Provenance

namespace Compiled

def hasErrors (c : Compiled) : Bool := Diagnostic.anyError c.diagnostics

def bindings (c : Compiled) : List Binding := c.solution.registry.toList

end Compiled

def compileWith {σ : Type} (n : Naming σ) (s : σ) (o : NormalizeOptions) (source : String) :
    Compiled :=
  let p := Descriptor.parse source
  let provenance := Provenance.ofSource source
  match p.app with
  | none => ⟨none, p.arena, p.tree, p.tree, {}, p.diagnostics, provenance⟩
  | some app =>
    let (outcome, arena) := (p.tree.normalize o).run p.arena
    let outcome := match outcome with
      | .ok outcome => outcome
      | .error _ => ⟨p.tree, .unchanged, []⟩
    let solution := match (outcome.tree.solveWith n s).1 with
      | .ok solution => solution
      | .error _ => {}
    ⟨some app, arena, p.tree, outcome.tree, solution, p.diagnostics ++ outcome.warnings, provenance⟩

def compile (o : NormalizeOptions) (source : String) : Compiled :=
  compileWith Naming.default {} o source

end ToolBindings
