import ToolBindings.Tree.Record

/-!
# Sweeps

A sweep goes through a tree from the leaves up. Leaves and nodes without children stay as they are;
for every other node a step gives what takes its place, from the node and its new children, and tells
whether it rewrote anything. A sweep has rewritten something if one of its steps has. Where a node is
missing the sweep ends, and the nodes recorded before stay in the arena. Many steps only regroup: they
choose other children for a group.
-/
namespace ToolBindings

abbrev Rewriting := ExceptT MissingNode Recorder

structure Rewritten where
  tree : Tree
  changed : Bool
  deriving Repr

def Rewritten.above (children : List Rewritten) (r : Rewritten) : Rewritten :=
  ⟨r.tree, children.any changed || r.changed⟩

/-- The step that gives a group the children that are chosen from its new ones. -/
def regroup (choose : Group → List Tree → List Tree × Bool) (t : Tree) (children : List Tree) :
    Recorder Rewritten := do
  match t with
  | .group _ _ g _ =>
    let (cs, changed) := choose g children
    return ⟨← t.withChildren cs, changed⟩
  | t => return ⟨← t.withChildren children, false⟩

mutual

def Tree.sweep (step : Tree → List Tree → Recorder Rewritten) : Tree → Rewriting Rewritten
  | .missing id => throw ⟨id⟩
  | .terminal id m t => pure ⟨.terminal id m t, false⟩
  | .wrap id m w c => do
    let c' ← c.sweep step
    let r ← step (.wrap id m w c) [c'.tree]
    return r.above [c']
  | .group id m g [] => pure ⟨.group id m g [], false⟩
  | .group id m g (c :: cs) => do
    let c' ← c.sweep step
    let cs' ← Tree.sweepAll step cs
    let r ← step (.group id m g (c :: cs)) (c'.tree :: cs'.map Rewritten.tree)
    return r.above (c' :: cs')

def Tree.sweepAll (step : Tree → List Tree → Recorder Rewritten) :
    List Tree → Rewriting (List Rewritten)
  | [] => pure []
  | t :: ts => do
    let t' ← t.sweep step
    let ts' ← Tree.sweepAll step ts
    return t' :: ts'

end

end ToolBindings
