import ToolBindings.Metadata
import ToolBindings.Number.Text

/-!
# Command trees

The command line of a tool is a tree. Its leaves are literal text and values; a wrapper makes its
one child optional or repeats it; a group is a sequence or a choice of children.

Nodes are stored in an arena, which only grows, and are named by their places in it. `Arena.tree`
unfolds what a place leads to. A tree keeps the places of its nodes, so that what is said of a tree
can be said of the arena again. A place outside the arena unfolds to `missing`.
-/
namespace ToolBindings

abbrev NodeId := Nat

inductive Terminal
  | literal (text : String)
  | int (min max : Option Int)
  | float (min max : Option Binary64)
  | str
  | path (resolveParent mutable : Bool)
  deriving DecidableEq, Repr

/-- How an only child is used. A repetition has inclusive bounds on its count; with a joint its
repeats are one argument, with the joint between them. -/
inductive Wrapper
  | optional
  | repetition (joint : Option String) (min max : Option Nat)
  deriving DecidableEq, Repr

/-- How several children are used. A sequence with a joint is one argument. -/
inductive Group
  | sequence (joint : Option String)
  | alternative
  deriving DecidableEq, Repr

def Terminal.kind : Terminal → String
  | .literal _ => "literal"
  | .int .. => "int"
  | .float .. => "float"
  | .str => "str"
  | .path .. => "path"

def Wrapper.kind : Wrapper → String
  | .optional => "optional"
  | .repetition .. => "repeat"

def Group.kind : Group → String
  | .sequence _ => "sequence"
  | .alternative => "alternative"

def Terminal.isLiteral : Terminal → Bool
  | .literal _ => true
  | _ => false

def boundsSame : Option Binary64 → Option Binary64 → Bool
  | none, none => true
  | some x, some y => x.same y
  | _, _ => false

def Terminal.same : Terminal → Terminal → Bool
  | .float lo hi, .float lo' hi' => boundsSame lo lo' && boundsSame hi hi'
  | s, t => s = t

inductive Shape (κ : Type)
  | terminal (t : Terminal)
  | wrap (w : Wrapper) (child : κ)
  | group (g : Group) (children : List κ)
  deriving DecidableEq, Repr

namespace Shape

def children {κ : Type} : Shape κ → List κ
  | terminal _ => []
  | wrap _ c => [c]
  | group _ cs => cs

def kind {κ : Type} : Shape κ → String
  | terminal t => t.kind
  | wrap w _ => w.kind
  | group g _ => g.kind

end Shape

structure Node where
  shape : Shape NodeId
  metadata : Option Metadata := none
  deriving DecidableEq, Repr

structure Arena where
  nodes : Array Node := #[]
  deriving Repr, Inhabited

inductive Tree
  | missing (id : NodeId)
  | terminal (id : NodeId) (metadata : Option Metadata) (t : Terminal)
  | wrap (id : NodeId) (metadata : Option Metadata) (w : Wrapper) (child : Tree)
  | group (id : NodeId) (metadata : Option Metadata) (g : Group) (children : List Tree)
  deriving Repr, Inhabited

structure MissingNode where
  id : NodeId
  deriving DecidableEq, Repr

namespace Arena

def size (a : Arena) : Nat := a.nodes.size

def get? (a : Arena) (id : NodeId) : Option Node := a.nodes[id]?

def get (a : Arena) (id : NodeId) : Except MissingNode Node :=
  match a.get? id with
  | some n => .ok n
  | none => .error ⟨id⟩

def push (a : Arena) (n : Node) : Arena := ⟨a.nodes.push n⟩

def treeWithin (a : Arena) : Nat → NodeId → Tree
  | 0, id => .missing id
  | depth + 1, id =>
    match a.get? id with
    | none => .missing id
    | some ⟨.terminal t, m⟩ => .terminal id m t
    | some ⟨.wrap w c, m⟩ => .wrap id m w (a.treeWithin depth c)
    | some ⟨.group g cs, m⟩ => .group id m g (cs.map (a.treeWithin depth))

/-- The tree at a place. A branch that meets no node twice is no longer than the arena. -/
def tree (a : Arena) (root : NodeId) : Tree := a.treeWithin a.size root

@[simp] theorem size_push (a : Arena) (n : Node) : (a.push n).size = a.size + 1 := by
  simp [size, push]

theorem get?_push (a : Arena) (n : Node) (id : NodeId) :
    (a.push n).get? id = if id = a.size then some n else a.get? id :=
  Array.getElem?_push

theorem get?_push_of_some {a : Arena} {id : NodeId} {n : Node} (h : a.get? id = some n)
    (m : Node) : (a.push m).get? id = some n := by
  have hl : id < a.size := by
    simp only [get?] at h
    exact (Array.getElem?_eq_some_iff.1 h).1
  rw [get?_push, if_neg (Nat.ne_of_lt hl), h]

end Arena

namespace Tree

def id : Tree → NodeId
  | missing id | terminal id .. | wrap id .. | group id .. => id

def metadata : Tree → Option Metadata
  | missing _ => none
  | terminal _ m _ | wrap _ m .. | group _ m .. => m

def children : Tree → List Tree
  | missing _ | terminal .. => []
  | wrap _ _ _ c => [c]
  | group _ _ _ cs => cs

section
variable {i : NodeId} {m : Option Metadata} {t : Terminal} {w : Wrapper} {g : Group} {c : Tree}
  {cs : List Tree}

@[simp] theorem id_terminal : (terminal i m t).id = i := rfl
@[simp] theorem id_wrap : (wrap i m w c).id = i := rfl
@[simp] theorem id_group : (group i m g cs).id = i := rfl
@[simp] theorem metadata_terminal : (terminal i m t).metadata = m := rfl
@[simp] theorem metadata_wrap : (wrap i m w c).metadata = m := rfl
@[simp] theorem metadata_group : (group i m g cs).metadata = m := rfl
@[simp] theorem children_terminal : (terminal i m t).children = [] := rfl
@[simp] theorem children_wrap : (wrap i m w c).children = [c] := rfl
@[simp] theorem children_group : (group i m g cs).children = cs := rfl

end

def kind : Tree → String
  | missing _ => ""
  | terminal _ _ t => t.kind
  | wrap _ _ w _ => w.kind
  | group _ _ g _ => g.kind

def name? (t : Tree) : Option String := t.metadata.bind (·.name)

def literal? : Tree → Option String
  | terminal _ _ (.literal text) => some text
  | _ => none

def isLiteral (t : Tree) : Bool := t.literal?.isSome

def isValue : Tree → Bool
  | terminal _ _ t => !t.isLiteral
  | _ => false

def missing? : Tree → Option MissingNode
  | missing id => some ⟨id⟩
  | _ => none

def node? : Tree → Option Node
  | missing _ => none
  | terminal _ m t => some ⟨.terminal t, m⟩
  | wrap _ m w c => some ⟨.wrap w c.id, m⟩
  | group _ m g cs => some ⟨.group g (cs.map id), m⟩

end Tree
end ToolBindings
