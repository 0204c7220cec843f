import ToolBindings.Proofs.Convergence
import ToolBindings.Proofs.Pass
import ToolBindings.Proofs.Places

/-!
# Copy on write

Passes only add nodes, each after its children, and no place occurs twice in a result if none does in
the tree. A pass reports a change exactly if it gives another root. That needs more of the rewrites
than that each reports honestly, since a later one might undo what an earlier one has done: a change
makes the tree smaller, or it brings a tree into canonical order that was not in it (`Advances`), and so
do changes one after another.
-/
namespace ToolBindings
variable {a b c : Arena} {t u v : Tree}

namespace Arena

theorem ordered_push (ho : a.Ordered) {n : Node} (hn : ∀ i ∈ n.shape.children, i < a.size) :
    (a.push n).Ordered := by
  intro id hid m hm i hi
  rw [get?_push] at hm
  split at hm
  · next heq =>
    cases hm
    exact heq ▸ hn i hi
  · exact ho.child_lt hm hi

theorem Holds.places_lt (h : a.Holds t) : ∀ i ∈ t.places, i < a.size := by
  intro i hi
  obtain ⟨s, hs, rfl⟩ := List.mem_map.1 (Multiset.mem_coe.1 hi)
  exact (h.preorder s hs).lt_size

theorem Holds.le_id (ho : a.Ordered) (h : a.Holds t) : ∀ i ∈ t.places, i ≤ t.id := by
  induction h with
  | @intro t n hn hg hc ih =>
    intro i hi
    obtain ⟨s, hs, rfl⟩ := List.mem_map.1 (Multiset.mem_coe.1 hi)
    rw [Tree.preorder_eq, List.mem_cons] at hs
    rcases hs with rfl | hs
    · exact Nat.le_refl _
    · obtain ⟨c, hct, hsc⟩ := Tree.mem_preorderAll.1 hs
      have hchild : c.id ∈ n.shape.children := by
        rw [Tree.shape_children_of_node? hn]
        exact List.mem_map_of_mem hct
      have hle := ih c hct s.id (List.mem_map_of_mem hsc)
      exact hle.trans (ho.child_lt hg hchild).le

end Arena

namespace Tree

theorem ordered_newWrap (ho : a.Ordered) (m : Option Metadata) (w : Wrapper) (hc : a.Holds u) :
    (newWrap m w u a).2.Ordered :=
  Arena.ordered_push ho fun _ hi => List.mem_singleton.1 hi ▸ hc.lt_size

theorem ordered_newTerminal (ho : a.Ordered) (m : Option Metadata) (u : Terminal) :
    (newTerminal m u a).2.Ordered :=
  Arena.ordered_push ho nofun

theorem ordered_newGroup (ho : a.Ordered) (m : Option Metadata) (g : Group) {cs : List Tree}
    (hcs : ∀ c ∈ cs, a.Holds c) : (newGroup m g cs a).2.Ordered :=
  Arena.ordered_push ho (List.forall_mem_map.2 fun c hc => (hcs c hc).lt_size)

theorem ordered_withChildren (ho : a.Ordered) (t : Tree) {cs : List Tree}
    (hcs : ∀ c ∈ cs, a.Holds c) : (t.withChildren cs a).2.Ordered := by
  cases t with
  | missing | terminal => exact ho
  | wrap i m w b =>
    cases cs with
    | nil => exact ho
    | cons c cs =>
      rw [withChildren_wrap]
      split
      · exact ho
      · exact ordered_newWrap ho m w (hcs c List.mem_cons_self)
  | group i m g bs =>
    rw [withChildren_group]
    split
    · exact ho
    · exact ordered_newGroup ho m g hcs

theorem ordered_withMetadata (ho : a.Ordered) (ht : a.Holds t) (m : Option Metadata) :
    (t.withMetadata m a).2.Ordered := by
  unfold withMetadata
  split
  · exact ho
  · cases t with
    | missing => exact ho
    | terminal => exact ordered_newTerminal ho m _
    | wrap i n w c => exact ordered_newWrap ho m w (ht.children c (List.mem_singleton.2 rfl))
    | group i n g cs => exact ordered_newGroup ho m g ht.children

end Tree

def Step.KeepsOrder (step : Step) : Prop :=
  ∀ {a : Arena} {t : Tree} {cs : List Tree}, a.Ordered → a.Holds t → (∀ c ∈ cs, a.Holds c) →
    (step t cs a).2.Ordered

theorem orderedAll {ts : List Tree} {rs : List Rewritten}
    (h : Chain (fun a _ _ b => a.Ordered → b.Ordered) a ts rs b) : a.Ordered → b.Ordered := by
  induction h with
  | nil => exact id
  | cons h _ ih => exact ih ∘ h

theorem keepsOrder_relation {step : Step} (hs : step.KeepsOrder) :
    SweepRelation step fun a _ _ b => a.Ordered → b.Ordered where
  leaf _ _ := id
  node ht hrs _ hch ho := hs (orderedAll hch ho) ht (List.forall_mem_map.2 hrs)

theorem regroup_keepsOrder {choose : Group → List Tree → List Tree × Bool}
    (hc : ∀ {a : Arena} g {cs}, (∀ c ∈ cs, a.Holds c) → ∀ c ∈ (choose g cs).1, a.Holds c) :
    Step.KeepsOrder (regroup choose) := by
  intro a t cs ho _ hcs
  cases t with
  | missing | terminal => exact ho
  | wrap i m w b => exact Tree.ordered_withChildren ho (.wrap i m w b) hcs
  | group i m g bs => exact Tree.ordered_withChildren ho (.group i m g bs) (hc g hcs)

namespace Simplify

theorem ordered_fuseFrom {c : Tree} {ds : List Tree} (ho : a.Ordered) :
    (fuseFrom c ds a).2.Ordered := by
  induction ds generalizing c a with
  | nil => exact ho
  | cons d ds ih =>
    cases h : fusedText? c d with
    | none =>
      rw [fuseFrom_apart h]
      exact ih ho
    | some text =>
      rw [fuseFrom_fused h]
      exact ih (Tree.ordered_newTerminal ho none (.literal text))

theorem ordered_fuseUnder (joint : Option String) (cs : List Tree) (ho : a.Ordered) :
    (fuseUnder joint cs a).2.Ordered := by
  unfold fuseUnder
  split
  · cases cs with
    | nil => exact ho
    | cons c cs => exact ordered_fuseFrom ho
  · exact ho

theorem step_keepsOrder : Step.KeepsOrder step := by
  intro a t cs ho ht hcs
  cases t with
  | missing | terminal => exact ho
  | wrap i m w b =>
    match cs with
    | [] | _ :: _ :: _ => exact Tree.ordered_withChildren ho (.wrap i m w b) hcs
    | [c] =>
      rw [step_wrap]
      rcases wrapped_cases (.wrap i m w b) w c a with ⟨k, n, w', d, v, rfl, -, h⟩ | ⟨-, h⟩ <;> rw [h]
      · have hd := (hcs _ List.mem_cons_self).children d (List.mem_singleton.2 rfl)
        exact Tree.ordered_newWrap ho _ v hd
      · exact Tree.ordered_withChildren ho _ hcs
  | group i m g bs =>
    cases g with
    | sequence joint =>
      have hrec := recorded_fuseUnder joint hcs
      have hfuse := ordered_fuseUnder joint cs ho
      rcases step_sequence_cases i m joint bs cs a with ⟨c, hc, h⟩ | ⟨-, h⟩ <;> simp only [h]
      · have honly := hrec.holds c (hc ▸ List.mem_singleton.2 rfl)
        exact Tree.ordered_withMetadata hfuse honly _
      · exact Tree.ordered_withChildren hfuse _ hrec.holds
    | alternative =>
      rcases step_choice_cases i m bs cs a with ⟨c, -, rfl, h⟩ | ⟨-, h⟩ <;> rw [h]
      · exact ho
      · exact Tree.ordered_withChildren ho _ hcs

end Simplify

namespace Rewrite

theorem step_keepsOrder (r : Rewrite) : Step.KeepsOrder r.step := by
  cases r with
  | flatten => exact regroup_keepsOrder (Flatten.forall_mem_flattened Arena.Holds.children)
  | prune => exact regroup_keepsOrder Prune.forall_mem_pruned
  | simplify => exact Simplify.step_keepsOrder
  | canonicalize => exact regroup_keepsOrder Canonical.forall_mem_ordered

end Rewrite

def Advances (t u : Tree) : Prop :=
  u.size < t.size ∨ u.size ≤ t.size ∧ u.Normal Canonical.Redex ∧ ¬ t.Normal Canonical.Redex

theorem Advances.trans (h : Advances t u) (h' : Advances u v) : Advances t v := by
  rcases h with hlt | ⟨hle, hu, ht⟩ <;> rcases h' with hlt' | ⟨hle', -, hu'⟩
  · exact .inl (Nat.lt_trans hlt' hlt)
  · exact .inl (Nat.lt_of_le_of_lt hle' hlt)
  · exact .inl (Nat.lt_of_lt_of_le hlt' hle)
  · exact absurd hu hu'

theorem Advances.ne (h : Advances t u) : u ≠ t := by
  rintro rfl
  rcases h with hlt | ⟨-, hu, ht⟩
  · exact Nat.lt_irrefl _ hlt
  · exact ht hu

theorem Rewrite.advances {r : Rewrite} {t' : Rewritten} (ht : a.Holds t)
    (h : (r.rewrite t).run a = (.ok t', b)) (hc : t'.changed = true) : Advances t t'.tree := by
  by_cases hr : r = .canonicalize
  · subst hr
    rcases Rewrite.settled ht h with hlt | ⟨hle, hnormal⟩
    · exact .inl hlt
    · have hrep := relation_of_rewrite ht h (reports_relation (step_firesAt .canonicalize))
      refine .inr ⟨hle, hnormal .canonicalize (.inl List.mem_cons_self), fun hn => ?_⟩
      exact Bool.noConfusion (hc.symm.trans (hrep.unchanged_iff.2 hn))
  · have hsize := relation_of_rewrite ht h (shrinks_relation (step_shrinks hr))
    rw [Shrinks, hc, Bool.toNat_true] at hsize
    exact .inl hsize

structure CopyOnWrite (a : Arena) (t u : Tree) (changed : Bool) (b : Arena) : Prop where
  ordered : a.Ordered → b.Ordered
  draws : Draws a t.places u.places b
  rests : changed = false → u = t ∧ b = a
  advances : changed = true → Advances t u

namespace Pass

theorem copyOnWrite_transitive : Transitive CopyOnWrite where
  refl := ⟨id, .of_le le_rfl, fun _ => ⟨rfl, rfl⟩, nofun⟩
  trans {a b c t u v x y} h h' := by
    refine ⟨h'.ordered ∘ h.ordered, h.draws.trans h'.draws, fun hxy => ?_, fun hxy => ?_⟩
    · obtain ⟨hx, hy⟩ := Bool.or_eq_false_iff.1 hxy
      obtain ⟨hu, hb⟩ := h.rests hx
      obtain ⟨hv, hc⟩ := h'.rests hy
      exact ⟨hv.trans hu, hc.trans hb⟩
    · cases hx : x <;> cases hy : y
      · simp [hx, hy] at hxy
      · exact (h.rests hx).1 ▸ h'.advances hy
      · exact (h'.rests hy).1 ▸ h.advances hx
      · exact (h.advances hx).trans (h'.advances hy)

theorem run_relates_copyOnWrite (r : Rewrite) : Relates CopyOnWrite r.run := by
  intro a t ht
  obtain ⟨t', b, hrun, hrec, hrep⟩ := r.exists_rewrite ht
  refine ⟨_, b, Rewrite.run_of_rewrite hrun, hrec, ?_⟩
  simp only [Status.isChange_ofChange]
  exact {
    ordered := Rewrite.relation_of_rewrite ht hrun (keepsOrder_relation r.step_keepsOrder)
    draws := Rewrite.relation_of_rewrite ht hrun (reuses_relation r.step_draws)
    rests := hrep.eq_of_unchanged
    advances := Rewrite.advances ht hrun }

variable {root : NodeId}

/-- Every pass leaves the old nodes alone and the arena in order, shares nothing that was not shared,
and reports a change exactly if it gives another root. -/
theorem apply_copyOnWrite (p : Pass Rewrite) (ho : a.Ordered) (hroot : root < a.size) :
    ∃ out b, (p.apply (a.tree root)).run a = (.ok out, b) ∧
      b.Extends a ∧
      out.tree.id < b.size ∧ b.Ordered ∧
      (((a.tree root).walk.map Tree.id).Nodup → ((b.tree out.tree.id).walk.map Tree.id).Nodup) ∧
      (out.status = .unchanged ↔ out.tree.id = root) ∧ (out.status = .unchanged → b = a) := by
  have ht : a.Holds (a.tree root) := Arena.holds_tree ho hroot
  obtain ⟨out, b, hrun, hrec, hcopy⟩ :=
    exists_run Rewrite.name copyOnWrite_transitive p (fun r _ => run_relates_copyOnWrite r) a _ ht
  have hrests : out.status = .unchanged → out.tree = a.tree root ∧ b = a := fun h =>
    hcopy.rests (by simp [Status.isChange, h])
  refine ⟨out, b, hrun, hrec.extends_arena, hrec.holds.lt_size, hcopy.ordered ho, fun hnd => ?_,
    ⟨fun h => ?_, fun hid => ?_⟩, fun h => (hrests h).2⟩
  · rw [Tree.nodup_walk_iff] at hnd
    rw [Arena.tree_id_of_holds hrec.holds, Tree.nodup_walk_iff]
    exact hcopy.draws.nodup hnd ht.places_lt
  · rw [(hrests h).1, Arena.id_tree]
  · by_contra hstatus
    have hsame : out.tree = a.tree root :=
      hrec.holds.ext (ht.mono hrec.extends_arena) (hid.trans (Arena.id_tree a root).symm)
    exact (hcopy.advances (by simp [Status.isChange, hstatus])).ne hsame

theorem apply_copyOnWrite_nested : Arena.nested.Ordered ∧ 2 < Arena.nested.size ∧
    ((Arena.nested.tree 2).walk.map Tree.id).Nodup ∧
    ∃ out b, ((fixpoint (compose [basic .canonicalize, fixpoint (basic .simplify) 1]) 2).apply
        (Arena.nested.tree 2)).run Arena.nested = (.ok out, b) ∧
      b.Extends Arena.nested ∧ b.Ordered ∧ ((b.tree out.tree.id).walk.map Tree.id).Nodup ∧
      out.status = .changed ∧ out.tree.id ≠ 2 := by
  have hwalk : ((Arena.nested.tree 2).walk.map Tree.id).Nodup := by
    rw [Tree.walk_eq_preorder]
    decide
  obtain ⟨out, b, hrun, hext, -, hord, hnd, hiff, -⟩ := @apply_copyOnWrite Arena.nested 2
    (fixpoint (compose [basic .canonicalize, fixpoint (basic .simplify) 1]) 2)
    (by decide) (by decide)
  have hstatus : out.status = .changed := by
    cases hrun
    rfl
  refine ⟨by decide, by decide, hwalk, out, b, hrun, hext, hord, hnd hwalk, hstatus, fun hid => ?_⟩
  cases hstatus.symm.trans (hiff.2 hid)

end Pass
end ToolBindings
