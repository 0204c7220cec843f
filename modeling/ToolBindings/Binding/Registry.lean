import ToolBindings.Binding.ValueType
import ToolBindings.Tree.Basic

/-!
# Bindings

A binding gives a name and a type to a node of a command tree. A registry holds one binding for each
binding id, in the order in which the ids came, and knows the id last bound to a node.
-/
namespace ToolBindings

structure Binding where
  id : Nat
  node : NodeId
  name : String
  type : ValueType
  deriving Repr

namespace Binding

def idText (id : Nat) : String := "binding_" ++ toString id

def text (b : Binding) : String := b.name ++ ": " ++ b.type.text

end Binding

structure Registry where
  byId : OrderedMap Nat Binding := []
  byNode : OrderedMap NodeId Nat := []
  deriving Repr

namespace Registry

def insert (b : Binding) (r : Registry) : Registry :=
  ⟨OrderedMap.insert b.id b r.byId, OrderedMap.insert b.node b.id r.byNode⟩

def get? (r : Registry) (id : Nat) : Option Binding := OrderedMap.find? id r.byId

def resolve? (r : Registry) (node : NodeId) : Option Binding :=
  (OrderedMap.find? node r.byNode).bind r.get?

def toList (r : Registry) : List Binding := OrderedMap.values r.byId

def size (r : Registry) : Nat := r.byId.length

def ofList (bs : List Binding) : Registry := bs.foldl (fun r b => r.insert b) {}

theorem get?_insert (b : Binding) (r : Registry) (id : Nat) :
    (r.insert b).get? id = if id = b.id then some b else r.get? id :=
  OrderedMap.find?_insert ..

end Registry
end ToolBindings
