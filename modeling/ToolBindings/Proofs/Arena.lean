import Mathlib.Data.List.Perm.Subperm
import ToolBindings.Tree.Record
import ToolBindings.Tree.Traversal

/-!
# Trees held by an arena

An arena holds a tree if every node of the tree is where the tree says. A tree that is held is what
its root unfolds to (`tree_id_of_holds`), and stays held when the arena grows. In an arena in which
every child stands before its parents every place unfolds to a tree that is held (`holds_tree`).
-/
namespace ToolBindings

theorem Tree.shape_children_of_node? {t : Tree} {n : Node} (h : t.node? = some n) :
    n.shape.children = t.children.map Tree.id := by
  cases t with
  | missing => cases h
  | terminal | wrap | group => cases h; rfl

theorem Tree.eq_of_node? {s t : Tree} {n : Node} (hs : s.node? = some n) (ht : t.node? = some n)
    (hid : s.id = t.id) (hc : s.children = t.children) : s = t := by
  rw [← hs] at ht
  cases s with
  | missing => cases hs
  | terminal | wrap | group =>
    clear hs
    cases t <;> simp_all [node?]

namespace Arena

/-- Every child stands before its parents. -/
def Ordered (a : Arena) : Prop :=
  ∀ id < a.size, ∀ n ∈ a.get? id, ∀ c ∈ n.shape.children, c < id

instance (a : Arena) : Decidable a.Ordered :=
  inferInstanceAs (Decidable (∀ id < a.size, ∀ n ∈ a.get? id, ∀ c ∈ n.shape.children, c < id))

/-- The nodes of `a` come first in `b`. -/
def Extends (b a : Arena) : Prop := a.nodes.toList <+: b.nodes.toList

inductive Holds (a : Arena) : Tree → Prop
  | intro {t : Tree} {n : Node} : t.node? = some n → a.get? t.id = some n →
      (∀ c ∈ t.children, Holds a c) → Holds a t

variable {a b c : Arena} {t : Tree}

theorem lt_size_of_get? {id : NodeId} {n : Node} (h : a.get? id = some n) : id < a.size :=
  (Array.getElem?_eq_some_iff.1 h).1

theorem get?_of_lt {id : NodeId} (h : id < a.size) : ∃ n, a.get? id = some n :=
  ⟨a.nodes[id], Array.getElem?_eq_getElem h⟩

theorem Extends.refl (a : Arena) : a.Extends a := List.prefix_refl _

theorem Extends.trans (hcb : c.Extends b) (hba : b.Extends a) : c.Extends a :=
  List.IsPrefix.trans hba hcb

theorem Extends.size_le (h : b.Extends a) : a.size ≤ b.size := h.length_le

theorem extends_push (a : Arena) (n : Node) : (a.push n).Extends a := by
  simp [Extends, push]

theorem Extends.get? (h : b.Extends a) {id : NodeId} {n : Node} (hn : a.get? id = some n) :
    b.get? id = some n := by
  obtain ⟨ns, hns⟩ := h
  have hl : id < a.nodes.toList.length := lt_size_of_get? hn
  simp only [Arena.get?, ← Array.getElem?_toList] at hn ⊢
  rw [← hns, List.getElem?_append_left hl, hn]

theorem Ordered.child_lt (ho : a.Ordered) {id : NodeId} {n : Node} (h : a.get? id = some n)
    {c : NodeId} (hc : c ∈ n.shape.children) : c < id :=
  ho id (lt_size_of_get? h) n h c hc

namespace Holds

theorem get? (h : a.Holds t) : ∃ n, t.node? = some n ∧ a.get? t.id = some n := by
  obtain ⟨hn, hg, -⟩ := h
  exact ⟨_, hn, hg⟩

theorem children (h : a.Holds t) : ∀ c ∈ t.children, a.Holds c := by
  obtain ⟨-, -, hc⟩ := h
  exact hc

theorem lt_size (h : a.Holds t) : t.id < a.size := by
  obtain ⟨n, -, hg⟩ := h.get?
  exact lt_size_of_get? hg

theorem mono (h : a.Holds t) (hb : b.Extends a) : b.Holds t := by
  induction h with
  | intro hn hg _ ih => exact ⟨hn, hb.get? hg, ih⟩

theorem preorder (h : a.Holds t) : ∀ s ∈ t.preorder, a.Holds s := by
  induction h with
  | intro hn hg hc ih => exact Tree.forall_preorder.2 ⟨⟨hn, hg, hc⟩, ih⟩

end Holds

theorem eq_of_map_id_of_injOn {ss ts : List Tree}
    (h : ∀ s ∈ ss, ∀ t ∈ ts, s.id = t.id → s = t) (hid : ss.map Tree.id = ts.map Tree.id) :
    ss = ts := by
  induction ss generalizing ts with
  | nil =>
    cases ts with
    | nil => rfl
    | cons => cases hid
  | cons s ss ih =>
    cases ts with
    | nil => cases hid
    | cons t ts =>
      obtain ⟨hst, hids⟩ := List.cons.inj hid
      rw [h s List.mem_cons_self t List.mem_cons_self hst, ih (fun s hs t ht =>
        h s (List.mem_cons_of_mem _ hs) t (List.mem_cons_of_mem _ ht)) hids]

theorem Holds.ext {s : Tree} (hs : a.Holds s) (ht : a.Holds t) (hid : s.id = t.id) : s = t := by
  induction hs generalizing t with
  | @intro s n hn hg hc ih =>
    obtain ⟨n', hn', hg'⟩ := ht.get?
    have hnn : n = n' := Option.some.inj (hg.symm.trans (hid ▸ hg'))
    subst hnn
    have hids : s.children.map Tree.id = t.children.map Tree.id :=
      (Tree.shape_children_of_node? hn).symm.trans (Tree.shape_children_of_node? hn')
    have hcs : s.children = t.children := eq_of_map_id_of_injOn
      (fun c hc d hd => ih c hc (ht.children d hd)) hids
    exact Tree.eq_of_node? hn hn' hid hcs

theorem eq_of_map_id {ss ts : List Tree} (hs : ∀ s ∈ ss, a.Holds s) (ht : ∀ t ∈ ts, a.Holds t)
    (hid : ss.map Tree.id = ts.map Tree.id) : ss = ts :=
  eq_of_map_id_of_injOn (fun s hss t hts => (hs s hss).ext (ht t hts)) hid

-- The places above a tree differ from its own because the trees there are larger. So there are
-- fewer of them than nodes, and the depth that they leave is enough.
theorem treeWithin_of_holds (h : a.Holds t) {above : List NodeId} (hnd : above.Nodup)
    (hlt : ∀ i ∈ above, i < a.size)
    (habove : ∀ s, a.Holds s → s.id ∈ above → t.size < s.size) :
    a.treeWithin (a.size - above.length) t.id = t := by
  induction h generalizing above with
  | @intro t n hn hg hc ih =>
    have ht : a.Holds t := ⟨hn, hg, hc⟩
    have hnot : t.id ∉ above := fun hmem => Nat.lt_irrefl _ (habove t ht hmem)
    have hnd' : (t.id :: above).Nodup := List.nodup_cons.2 ⟨hnot, hnd⟩
    have hlt' : ∀ i ∈ t.id :: above, i < a.size := List.forall_mem_cons.2 ⟨ht.lt_size, hlt⟩
    have hsub : t.id :: above ⊆ List.range a.size := fun i hi => List.mem_range.2 (hlt' i hi)
    have hlen : above.length + 1 ≤ a.size := by
      simpa using (List.subperm_of_subset hnd' hsub).length_le
    have hchild : ∀ c ∈ t.children, a.treeWithin (a.size - (above.length + 1)) c.id = c := by
      intro c hct
      have hsize := Tree.size_lt_of_mem_children hct
      apply ih c hct hnd' hlt'
      intro s hs hmem
      rcases List.mem_cons.1 hmem with hid | hmem
      · rw [hs.ext ht hid]
        exact hsize
      · exact Nat.lt_trans hsize (habove s hs hmem)
    have hdepth : a.size - above.length = a.size - (above.length + 1) + 1 := by omega
    rw [hdepth, treeWithin]
    cases t with
    | missing => cases hn
    | terminal =>
      cases hn
      rw [hg]
      rfl
    | wrap id m w c =>
      cases hn
      rw [hg]
      simp only [Tree.id_wrap, hchild c (List.mem_singleton.2 rfl)]
    | group id m g cs =>
      cases hn
      have hmap : (cs.map Tree.id).map (a.treeWithin (a.size - (above.length + 1))) = cs := by
        rw [List.map_map]
        exact (List.map_congr_left hchild).trans (List.map_id cs)
      rw [hg]
      simp only [Tree.id_group, hmap]

theorem tree_id_of_holds (h : a.Holds t) : a.tree t.id = t :=
  treeWithin_of_holds h List.nodup_nil (by simp) (by simp)

theorem id_treeWithin (a : Arena) (depth : Nat) (id : NodeId) :
    (a.treeWithin depth id).id = id := by
  cases depth with
  | zero => rfl
  | succ depth =>
    rw [treeWithin]
    split <;> rfl

theorem holds_treeWithin (ho : a.Ordered) {depth : Nat} {id : NodeId} (hid : id < a.size)
    (hd : id < depth) : a.Holds (a.treeWithin depth id) := by
  induction depth generalizing id with
  | zero => exact absurd hd (Nat.not_lt_zero _)
  | succ depth ih =>
    obtain ⟨n, hn⟩ := get?_of_lt hid
    have hchild : ∀ c ∈ n.shape.children, a.Holds (a.treeWithin depth c) := fun c hc => by
      have hlt := ho.child_lt hn hc
      exact ih (Nat.lt_trans hlt hid) (Nat.lt_of_lt_of_le hlt (Nat.le_of_lt_succ hd))
    obtain ⟨shape, m⟩ := n
    cases shape with
    | terminal t =>
      simp only [treeWithin, hn]
      exact ⟨rfl, hn, fun c hc => absurd hc (List.not_mem_nil)⟩
    | wrap w c =>
      simp only [treeWithin, hn]
      refine ⟨rfl, ?_, fun d hd => ?_⟩
      · rw [id_treeWithin]
        exact hn
      · rw [List.mem_singleton.1 hd]
        exact hchild c (List.mem_singleton.2 rfl)
    | group g cs =>
      simp only [treeWithin, hn]
      refine ⟨rfl, ?_, fun d hd => ?_⟩
      · have hmap : (cs.map (a.treeWithin depth)).map Tree.id = cs := by
          rw [List.map_map]
          exact (List.map_congr_left fun c _ => id_treeWithin a depth c).trans (List.map_id cs)
        rw [hmap]
        exact hn
      · obtain ⟨c, hc, rfl⟩ := List.mem_map.1 hd
        exact hchild c hc

theorem holds_tree (ho : a.Ordered) {id : NodeId} (hid : id < a.size) : a.Holds (a.tree id) :=
  holds_treeWithin ho hid hid

def nested : Arena :=
  ⟨#[⟨.terminal .str, none⟩, ⟨.wrap .optional 0, none⟩, ⟨.wrap .optional 1, none⟩]⟩

@[simp] theorem id_tree (a : Arena) (id : NodeId) : (a.tree id).id = id := id_treeWithin a _ id

end Arena
end ToolBindings
