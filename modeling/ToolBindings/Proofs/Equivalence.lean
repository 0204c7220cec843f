import ToolBindings.Proofs.CopyOnWrite
import ToolBindings.Proofs.Like

/-!
# Sameness is an equivalence

Whole trees are compared without an error (`Tree.exists_same`), and likeness can be turned around and
chained (`Tree.Like.symm`, `Tree.Like.trans`). So between places without NaN sameness is an equivalence.

Of two places the comparison asks that they are one, or that their nodes have the same metadata and the
same attributes and that their children are the same one by one (`Arena.same_tree_iff`). So a node whose
children are replaced by children that are the same stays the same (`Arena.exists_withChildren_same`).
-/
namespace ToolBindings

def Shape.Agrees {κ : Type} : Shape κ → Shape κ → Prop
  | .terminal u, .terminal v => u.same v = true
  | .wrap w _, .wrap v _ => w = v
  | .group g _, .group h _ => g = h
  | _, _ => False

theorem forall₂_set {α : Type} {R : α → α → Prop} (hrefl : ∀ x, R x x) {xs : List α} {k : Nat}
    {x y : α} (hx : xs[k]? = some x) (h : R x y) : List.Forall₂ R xs (xs.set k y) := by
  induction xs generalizing k with
  | nil => exact .nil
  | cons z xs ih =>
    cases k with
    | zero =>
      obtain rfl := Option.some.inj hx
      exact .cons h (List.forall₂_same.2 fun x _ => hrefl x)
    | succ k => exact .cons (hrefl z) (ih hx)

namespace Tree

abbrev Same (s t : Tree) : Prop := s.same t = .ok true

theorem same_of_id {s t : Tree} (h : s.id = t.id) : s.Same t := by
  cases s <;> simp_all [Same, same]

mutual

theorem exists_same : (s t : Tree) → s.Whole → t.Whole → ∃ x, s.same t = .ok x
  | missing _, _, hs, _ => absurd hs Whole.not_missing
  | terminal .., t, _, ht => by
    cases t with
    | missing => exact absurd ht Whole.not_missing
    | terminal | wrap | group =>
      unfold same
      split <;> exact ⟨_, rfl⟩
  | wrap _ _ _ c, t, hs, ht => by
    cases t with
    | missing => exact absurd ht Whole.not_missing
    | terminal | group =>
      unfold same
      split <;> exact ⟨_, rfl⟩
    | wrap _ _ _ d =>
      obtain ⟨x, hx⟩ := exists_same c d (hs.children c (List.mem_singleton.2 rfl))
        (ht.children d (List.mem_singleton.2 rfl))
      rw [same, hx]
      split_ifs <;> exact ⟨_, rfl⟩
  | group _ _ _ cs, t, hs, ht => by
    cases t with
    | missing => exact absurd ht Whole.not_missing
    | terminal | wrap =>
      unfold same
      split <;> exact ⟨_, rfl⟩
    | group _ _ _ ds =>
      obtain ⟨x, hx⟩ := exists_sameAll cs ds hs.children ht.children
      rw [same, hx]
      split_ifs <;> exact ⟨_, rfl⟩

theorem exists_sameAll : (ss ts : List Tree) → (∀ s ∈ ss, s.Whole) → (∀ t ∈ ts, t.Whole) →
    ∃ x, sameAll ss ts = .ok x
  | [], [], _, _ | [], _ :: _, _, _ | _ :: _, [], _, _ => ⟨_, rfl⟩
  | s :: ss, t :: ts, hs, ht => by
    obtain ⟨hs, hss⟩ := List.forall_mem_cons.1 hs
    obtain ⟨ht, hts⟩ := List.forall_mem_cons.1 ht
    obtain ⟨x, hx⟩ := exists_same s t hs ht
    rw [sameAll, hx]
    cases x with
    | false => exact ⟨false, rfl⟩
    | true => exact exists_sameAll ss ts hss hts

end

theorem sameAll_eq_true_iff {ss ts : List Tree} :
    sameAll ss ts = .ok true ↔ List.Forall₂ Same ss ts := by
  induction ss generalizing ts with
  | nil => cases ts <;> simp [sameAll]
  | cons s ss ih =>
    cases ts with
    | nil => simp [sameAll]
    | cons t ts =>
      rw [List.forall₂_cons, ← ih, sameAll, Same]
      rcases s.same t with e | _ | _ <;> simp [bind, Except.bind, pure, Except.pure]

theorem guard_eq_true_iff {p : Prop} [Decidable p] {x : Except MissingNode Bool} :
    (if p then x else .ok false) = .ok true ↔ p ∧ x = .ok true := by
  split_ifs <;> simp [*]

theorem same_iff {s t : Tree} {m n : Node} (hs : s.node? = some m) (ht : t.node? = some n) :
    s.Same t ↔ s.id = t.id ∨ m.metadata = n.metadata ∧ m.shape.Agrees n.shape ∧
      List.Forall₂ Same s.children t.children := by
  by_cases hid : s.id = t.id
  · cases s <;> simp_all [Same, same]
  · cases s <;> cases hs <;> cases t <;> cases ht <;>
      simp_all [Same, same, missing?, Shape.Agrees, guard_eq_true_iff, and_assoc]
    -- The lengths of groups are compared first, but lists that are the same one by one have one length.
    rw [sameAll_eq_true_iff]
    have hlen : ∀ {cs ds : List Tree}, List.Forall₂ Same cs ds → cs.length = ds.length :=
      fun h => h.length_eq
    tauto

mutual

theorem Like.symm : (s : Tree) → {t : Tree} → Like s t → Like t s
  | .missing _, _, h => by cases h
  | .terminal i m u, _, h => by
    cases h with
    | @terminal _ j _ _ v h => exact .terminal (v.same_symm u ▸ h)
  | .wrap i m w c, _, h => by
    cases h with
    | wrap h => exact .wrap (Like.symm c h)
  | .group i m g cs, _, h => by
    cases h with
    | group h => exact .group (allLike_symm cs h)

theorem allLike_symm : (ss : List Tree) → {ts : List Tree} → AllLike ss ts → AllLike ts ss
  | [], _, h => by
    cases h
    exact .nil
  | s :: ss, _, h => by
    cases h with
    | cons h hs => exact .cons (Like.symm s h) (allLike_symm ss hs)

end

mutual

theorem Like.trans : (s : Tree) → {t u : Tree} → Like s t → Like t u → Like s u
  | .missing _, _, _, h, _ => by cases h
  | .terminal i m u, _, _, h, k => by
    cases h with
    | terminal h =>
      cases k with
      | terminal k => exact .terminal (Terminal.same_trans h k)
  | .wrap i m w c, _, _, h, k => by
    cases h with
    | wrap h =>
      cases k with
      | wrap k => exact .wrap (Like.trans c h k)
  | .group i m g cs, _, _, h, k => by
    cases h with
    | group h =>
      cases k with
      | group k => exact .group (allLike_trans cs h k)

theorem allLike_trans : (ss : List Tree) → {ts us : List Tree} → AllLike ss ts → AllLike ts us →
    AllLike ss us
  | [], _, _, h, k => by
    cases h
    exact k
  | s :: ss, _, _, h, k => by
    cases h with
    | cons h hs =>
      cases k with
      | cons k ks => exact .cons (Like.trans s h k) (allLike_trans ss hs ks)

end

end Tree

namespace Arena
variable {a b : Arena} {i : NodeId} {n : Node}

theorem tree_of_extends (ho : a.Ordered) (hb : b.Extends a) (hi : i < a.size) :
    b.tree i = a.tree i := by
  have hheld := tree_id_of_holds ((holds_tree ho hi).mono hb)
  rwa [id_tree] at hheld

theorem Ordered.child_lt_size (ho : a.Ordered) (hn : a.get? i = some n) :
    ∀ c ∈ n.shape.children, c < a.size := fun _ hc =>
  Nat.lt_trans (ho.child_lt hn hc) (lt_size_of_get? hn)

theorem map_tree_of_extends (ho : a.Ordered) (hb : b.Extends a) {ids : List NodeId}
    (h : ∀ i ∈ ids, i < a.size) : ids.map b.tree = ids.map a.tree :=
  List.map_congr_left fun i hi => tree_of_extends ho hb (h i hi)

theorem node?_tree (ho : a.Ordered) (hn : a.get? i = some n) : (a.tree i).node? = some n := by
  obtain ⟨m, hm, hget⟩ := (holds_tree ho (lt_size_of_get? hn)).get?
  rw [id_tree, hn] at hget
  rw [hm, hget]

theorem children_tree (ho : a.Ordered) (hn : a.get? i = some n) :
    (a.tree i).children = n.shape.children.map a.tree := by
  have hheld := holds_tree ho (lt_size_of_get? hn)
  rw [Tree.shape_children_of_node? (node?_tree ho hn), List.map_map]
  exact ((List.map_congr_left fun c hc => tree_id_of_holds (hheld.children c hc)).trans
    (List.map_id _)).symm

theorem same_tree_iff (ho : a.Ordered) {j : NodeId} {m : Node} (hm : a.get? i = some m)
    (hn : a.get? j = some n) : (a.tree i).Same (a.tree j) ↔ i = j ∨ m.metadata = n.metadata ∧
      m.shape.Agrees n.shape ∧
        List.Forall₂ Tree.Same (m.shape.children.map a.tree) (n.shape.children.map a.tree) := by
  rw [Tree.same_iff (node?_tree ho hm) (node?_tree ho hn), id_tree, id_tree, children_tree ho hm,
    children_tree ho hn]

theorem withChildren_self (hn : a.get? i = some n) :
    a.withChildren i n.shape.children = .ok (i, a) := by
  obtain ⟨s, m⟩ := n
  cases s <;> simp [withChildren, get, hn, Shape.children, bind, Except.bind, pure, Except.pure]

theorem exists_withChildren_renewed (hn : a.get? i = some n) {ds : List NodeId}
    (hlen : ds.length = n.shape.children.length) (hne : ds ≠ n.shape.children) :
    ∃ s, a.withChildren i ds = .ok (a.size, a.push ⟨s, n.metadata⟩) ∧ n.shape.Agrees s ∧
      s.children = ds := by
  obtain ⟨shape, m⟩ := n
  cases shape with
  | terminal u => exact absurd (List.eq_nil_of_length_eq_zero hlen) hne
  | wrap w c =>
    obtain ⟨d, rfl⟩ := List.length_eq_one_iff.1 hlen
    refine ⟨.wrap w d, ?_, rfl, rfl⟩
    simp [withChildren, get, hn, hne, bind, Except.bind, pure, Except.pure]
  | group g cs =>
    refine ⟨.group g ds, ?_, rfl, rfl⟩
    simp [withChildren, get, hn, hne, bind, Except.bind, pure, Except.pure]

theorem exists_withChildren_same (ho : a.Ordered) (hn : a.get? i = some n) {ds : List NodeId}
    (hds : ∀ d ∈ ds, d < a.size)
    (h : List.Forall₂ Tree.Same (n.shape.children.map a.tree) (ds.map a.tree)) :
    ∃ j b, a.withChildren i ds = .ok (j, b) ∧ (b.tree i).Same (b.tree j) := by
  by_cases hne : ds = n.shape.children
  · subst hne
    exact ⟨i, a, withChildren_self hn, Tree.same_of_id rfl⟩
  · have hlen : ds.length = n.shape.children.length := by simpa using h.length_eq.symm
    obtain ⟨s, hrun, hagrees, rfl⟩ := exists_withChildren_renewed hn hlen hne
    have hb := extends_push a ⟨s, n.metadata⟩
    have hnew : (a.push ⟨s, n.metadata⟩).get? a.size = some ⟨s, n.metadata⟩ := by
      rw [get?_push, if_pos rfl]
    refine ⟨a.size, _, hrun, (same_tree_iff (ordered_push ho hds) (hb.get? hn) hnew).2 ?_⟩
    rw [map_tree_of_extends ho hb (ho.child_lt_size hn), map_tree_of_extends ho hb hds]
    exact .inr ⟨rfl, hagrees, h⟩

/-- A place with a tree in which no bound is NaN. -/
abbrev NumericPlace (a : Arena) : Type := {i : NodeId // i < a.size ∧ (a.tree i).Numeric}

theorem same_tree_iff_like (ho : a.Ordered) (i j : a.NumericPlace) :
    (a.tree i).Same (a.tree j) ↔ (a.tree i).Like (a.tree j) :=
  ⟨Tree.like_of_same _ _ (holds_tree ho i.2.1) (holds_tree ho j.2.1) i.2.2, Tree.Like.same _⟩

theorem equivalence_same (ho : a.Ordered) :
    Equivalence fun i j : a.NumericPlace => (a.tree i).Same (a.tree j) where
  refl _ := Tree.same_of_id rfl
  symm {i j} h := (same_tree_iff_like ho j i).2 (Tree.Like.symm _ ((same_tree_iff_like ho i j).1 h))
  trans {i j k} h h' := (same_tree_iff_like ho i k).2
    (Tree.Like.trans _ ((same_tree_iff_like ho i j).1 h) ((same_tree_iff_like ho j k).1 h'))

/-- In an arena in which children stand before their parents, any two places without NaN are compared, and
the comparison tells whether their trees are alike: of the same kinds, attributes and metadata at every node,
with as many children in the same order. This is an equivalence. A node of which a child is replaced by one
that is the same gives a node that is the same. -/
theorem same_decides_likeness (ho : a.Ordered) :
    (∀ i j : a.NumericPlace, ∃ x, (a.tree i).same (a.tree j) = .ok x ∧
      (x = true ↔ (a.tree i).Like (a.tree j))) ∧
    Equivalence (fun i j : a.NumericPlace => (a.tree i).same (a.tree j) = .ok true) ∧
    ∀ i n, a.get? i = some n → ∀ k c d, n.shape.children[k]? = some c → d < a.size →
      (a.tree c).same (a.tree d) = .ok true →
      ∃ j b, a.withChildren i (n.shape.children.set k d) = .ok (j, b) ∧
        (b.tree i).same (b.tree j) = .ok true := by
  refine ⟨fun i j => ?_, equivalence_same ho, fun i n hn k c d hc hd hcd => ?_⟩
  · obtain ⟨x, hx⟩ := Tree.exists_same _ _ (Tree.whole_of_holds (holds_tree ho i.2.1))
      (Tree.whole_of_holds (holds_tree ho j.2.1))
    refine ⟨x, hx, ?_⟩
    rw [← same_tree_iff_like ho i j, Tree.Same, hx, Except.ok.injEq]
  · have hds : ∀ e ∈ n.shape.children.set k d, e < a.size := by
      intro e he
      rcases List.mem_or_eq_of_mem_set he with he | rfl
      · exact ho.child_lt_size hn e he
      · exact hd
    apply exists_withChildren_same ho hn hds
    rw [List.map_set]
    exact forall₂_set (fun _ => Tree.same_of_id rfl) (by simp [hc]) hcd

def zeros : Arena := ⟨#[
  ⟨.terminal (.float (some (Binary64.zero false)) none), none⟩,
  ⟨.terminal (.float (some (Binary64.zero true)) none), none⟩,
  ⟨.wrap .optional 0, none⟩,
  ⟨.wrap .optional 1, none⟩,
  ⟨.group (.sequence none) [2, 0], none⟩]⟩

theorem same_decides_likeness_zeros : zeros.Ordered ∧
    (zeros.tree 2).Numeric ∧ (zeros.tree 3).Numeric ∧
    (zeros.tree 2).Like (zeros.tree 3) ∧ (zeros.tree 3).same (zeros.tree 2) = .ok true ∧
    ∃ j b, zeros.withChildren 4 [3, 0] = .ok (j, b) ∧ (b.tree 4).same (b.tree j) = .ok true := by
  have ho : zeros.Ordered := by decide
  have hnumeric : ∀ negative i j m n, (Tree.wrap i m .optional
      (.terminal j n (.float (some (Binary64.zero negative)) none))).Numeric := by
    intro negative i j m n
    simp [Tree.numeric_wrap, Tree.numeric_terminal, Terminal.Numeric, Binary64.zero]
  have h2 : (zeros.tree 2).Numeric := hnumeric false 2 0 none none
  have h3 : (zeros.tree 3).Numeric := hnumeric true 3 1 none none
  have hsame : (zeros.tree 2).same (zeros.tree 3) = .ok true := rfl
  obtain ⟨hdecides, hequivalence, hreplaced⟩ := same_decides_likeness ho
  obtain ⟨x, hx, hlike⟩ := hdecides ⟨2, by decide, h2⟩ ⟨3, by decide, h3⟩
  have htrue : x = true := Except.ok.inj (hx.symm.trans hsame)
  have hsymm := hequivalence.symm (x := ⟨2, by decide, h2⟩) (y := ⟨3, by decide, h3⟩) hsame
  exact ⟨ho, h2, h3, hlike.1 htrue, hsymm, hreplaced 4 _ rfl 0 2 3 rfl (by decide) hsame⟩

end Arena
end ToolBindings
