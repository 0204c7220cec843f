import ToolBindings.Rewrite.Sweep

/-!
# Pruning

A group drops its empty children: groups without children, and wrappers around such a group. A
child that carries metadata stays.
-/
namespace ToolBindings.Prune

def isEmpty : Tree → Bool
  | .group _ _ _ [] => true
  | _ => false

def isRemovable (t : Tree) : Bool :=
  t.metadata.isNone && match t with
    | .wrap _ _ _ c => isEmpty c
    | t => isEmpty t

def kept (children : List Tree) : List Tree := children.filter fun c => !isRemovable c

def pruned (_ : Group) (children : List Tree) : List Tree × Bool :=
  (kept children, (kept children).length ≠ children.length)

def run (t : Tree) : Rewriting Rewritten := t.sweep (regroup pruned)

end ToolBindings.Prune
