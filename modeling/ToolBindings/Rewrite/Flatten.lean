import ToolBindings.Rewrite.Sweep

/-!
# Flattening

A sequence takes in the children of a sequence inside it that has the same joint, and a choice the
children of a choice inside it. A group that carries metadata is not dissolved.
-/
namespace ToolBindings.Flatten

def dissolves (g : Group) : Tree → Bool
  | .group _ none g' _ => g' = g
  | _ => false

def inlined (g : Group) (child : Tree) : List Tree :=
  if dissolves g child then child.children else [child]

def flattened (g : Group) (children : List Tree) : List Tree × Bool :=
  (children.flatMap (inlined g), children.any (dissolves g))

def run (t : Tree) : Rewriting Rewritten := t.sweep (regroup flattened)

end ToolBindings.Flatten
