import ToolBindings.Tree.Traversal

/-!
# Recording nodes

New trees are recorded at the end of the arena. No node that is there is ever altered, so trees
recorded earlier stay what they are. A tree with new children or new metadata is recorded only if
it differs from the old one.
-/
namespace ToolBindings

abbrev Recorder := StateM Arena

namespace Tree

def record (n : Node) : Recorder NodeId := fun a => (a.size, a.push n)

def newTerminal (m : Option Metadata) (t : Terminal) : Recorder Tree := do
  return .terminal (← record ⟨.terminal t, m⟩) m t

def newWrap (m : Option Metadata) (w : Wrapper) (c : Tree) : Recorder Tree := do
  return .wrap (← record ⟨.wrap w c.id, m⟩) m w c

def newGroup (m : Option Metadata) (g : Group) (cs : List Tree) : Recorder Tree := do
  return .group (← record ⟨.group g (cs.map Tree.id), m⟩) m g cs

/-- A tree with new children. It stays itself if they stand at the places of the old ones. A wrapper
takes the first of them and stays itself if there is none. -/
def withChildren (t : Tree) (children : List Tree) : Recorder Tree :=
  let unchanged := children.map Tree.id = t.children.map Tree.id
  match t, children with
  | wrap id m w _, c :: _ => if unchanged then pure (wrap id m w c) else newWrap m w c
  | group id m g _, cs => if unchanged then pure (group id m g cs) else newGroup m g cs
  | t, _ => pure t

/-- A tree with other metadata. It stays itself if it has that metadata already. -/
def withMetadata (t : Tree) (m : Option Metadata) : Recorder Tree :=
  if t.metadata = m then pure t
  else match t with
    | missing id => pure (missing id)
    | terminal _ _ u => newTerminal m u
    | wrap _ _ w c => newWrap m w c
    | group _ _ g cs => newGroup m g cs

end Tree

namespace Arena

def withChildren (a : Arena) (id : NodeId) (children : List NodeId) :
    Except MissingNode (NodeId × Arena) := do
  let n ← a.get id
  let renewed (s : Shape NodeId) :=
    if children = n.shape.children then (id, a) else (a.size, a.push ⟨s, n.metadata⟩)
  return match n.shape, children with
    | .wrap w _, c :: _ => renewed (.wrap w c)
    | .group g _, cs => renewed (.group g cs)
    | _, _ => (id, a)

def withMetadata (a : Arena) (id : NodeId) (m : Option Metadata) :
    Except MissingNode (NodeId × Arena) := do
  let n ← a.get id
  return if n.metadata = m then (id, a) else (a.size, a.push ⟨n.shape, m⟩)

end Arena
end ToolBindings
