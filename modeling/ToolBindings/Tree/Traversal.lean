import ToolBindings.Tree.Basic

/-!
# Traversal

`walk` visits the nodes of a tree with a stack: the node on top is visited and its children take
its place, the first one on top. That is the order in which a node comes before its children and
the subtrees of the children come one after another (`walk_eq_preorder`).
-/
namespace ToolBindings.Tree

mutual

def size : Tree → Nat
  | missing _ | terminal .. => 1
  | wrap _ _ _ c => c.size + 1
  | group _ _ _ cs => sizeAll cs + 1

def sizeAll : List Tree → Nat
  | [] => 0
  | t :: ts => t.size + sizeAll ts

end

mutual

def preorder : Tree → List Tree
  | missing id => [missing id]
  | terminal id m t => [terminal id m t]
  | wrap id m w c => wrap id m w c :: preorder c
  | group id m g cs => group id m g cs :: preorderAll cs

def preorderAll : List Tree → List Tree
  | [] => []
  | t :: ts => preorder t ++ preorderAll ts

end

theorem sizeAll_append (ss ts : List Tree) : sizeAll (ss ++ ts) = sizeAll ss + sizeAll ts := by
  induction ss with
  | nil => simp [sizeAll]
  | cons s ss ih => simp [sizeAll, ih, Nat.add_assoc]

theorem preorderAll_append (ss ts : List Tree) :
    preorderAll (ss ++ ts) = preorderAll ss ++ preorderAll ts := by
  induction ss with
  | nil => simp [preorderAll]
  | cons s ss ih => simp [preorderAll, ih]

theorem size_eq (t : Tree) : t.size = sizeAll t.children + 1 := by
  cases t <;> simp [size, children, sizeAll]

theorem preorder_eq (t : Tree) : t.preorder = t :: preorderAll t.children := by
  cases t <;> simp [preorder, children, preorderAll]

theorem mem_preorderAll {s : Tree} {ts : List Tree} :
    s ∈ preorderAll ts ↔ ∃ t ∈ ts, s ∈ t.preorder := by
  induction ts with
  | nil => simp [preorderAll]
  | cons t ts ih => simp [preorderAll, ih]

theorem forall_preorder {P : Tree → Prop} {t : Tree} :
    (∀ s ∈ t.preorder, P s) ↔ P t ∧ ∀ c ∈ t.children, ∀ s ∈ c.preorder, P s := by
  rw [preorder_eq, List.forall_mem_cons]
  refine and_congr_right fun _ => ⟨fun h c hc s hs => ?_, fun h s hs => ?_⟩
  · exact h s (mem_preorderAll.2 ⟨c, hc, hs⟩)
  · obtain ⟨c, hc, hsc⟩ := mem_preorderAll.1 hs
    exact h c hc s hsc

theorem size_lt_of_mem_children {c t : Tree} (h : c ∈ t.children) : c.size < t.size := by
  obtain ⟨cs, ds, hcs⟩ := List.append_of_mem h
  rw [size_eq t, hcs, sizeAll_append, sizeAll]
  omega

def visits : List Tree → List Tree
  | [] => []
  | t :: stack => t :: visits (t.children ++ stack)
termination_by stack => sizeAll stack
decreasing_by
  rw [sizeAll_append, sizeAll, size_eq]
  omega

theorem visits_eq_preorderAll (stack : List Tree) : visits stack = preorderAll stack := by
  fun_induction visits stack with
  | case1 => rfl
  | case2 t stack ih => rw [ih, preorderAll_append, preorderAll, preorder_eq, List.cons_append]

def walk (t : Tree) : List Tree := visits [t]

theorem walk_eq_preorder (t : Tree) : t.walk = t.preorder := by
  rw [walk, visits_eq_preorderAll, preorderAll, preorderAll, List.append_nil]

def values (t : Tree) : List Tree := t.walk.filter isValue

def missingNode? (t : Tree) : Option MissingNode := t.walk.findSome? missing?

def whole (t : Tree) : Except MissingNode Tree :=
  match t.missingNode? with
  | none => .ok t
  | some e => .error e

end ToolBindings.Tree
