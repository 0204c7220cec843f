import ToolBindings.Proofs.Outline
import ToolBindings.Proofs.Registry

/-!
# Which nodes are bound

The ids of the bindings count upwards from the leaves to the root (`outline_numbered`), and the node of
a binding is the node that it is found at. So where no place occurs twice in a tree, every value, wrapper
and choice is bound once and no literal is, and a sequence is bound once exactly if its children with a
type go by two names or more (`solve_bindings`).
-/
namespace ToolBindings

section
variable {α β γ : Type} {f : α → Option β} {g : β → γ} {h : α → γ} {xs : List α}

theorem sublist_filterMap (hf : ∀ x ∈ xs, ∀ y ∈ f x, g y = h x) :
    ((xs.filterMap f).map g).Sublist (xs.map h) := by
  induction xs with
  | nil => exact .slnil
  | cons x xs ih =>
    obtain ⟨hx, hxs⟩ := List.forall_mem_cons.1 hf
    rw [List.filterMap_cons, List.map_cons]
    cases hy : f x with
    | none => exact (ih hxs).cons _
    | some y =>
      rw [List.map_cons, hx y hy]
      exact (ih hxs).cons_cons _

theorem filter_filterMap [DecidableEq γ] (hf : ∀ x ∈ xs, ∀ y ∈ f x, g y = h x)
    (hnd : (xs.map h).Nodup) {x : α} (hx : x ∈ xs) :
    (xs.filterMap f).filter (fun y => g y = h x) = (f x).toList := by
  induction xs with
  | nil => cases hx
  | cons z xs ih =>
    obtain ⟨hz, hxs⟩ := List.forall_mem_cons.1 hf
    obtain ⟨hnot, hnd⟩ := List.nodup_cons.1 hnd
    rw [List.filterMap_cons]
    rcases List.mem_cons.1 hx with rfl | hx
    · have hrest : (xs.filterMap f).filter (fun y => g y = h x) = [] := by
        refine List.filter_eq_nil_iff.2 fun y hy hyx => hnot ?_
        obtain ⟨w, hw, hwy⟩ := List.mem_filterMap.1 hy
        rw [← of_decide_eq_true hyx, hxs w hw y hwy]
        exact List.mem_map_of_mem hw
      cases hy : f x with
      | none => exact hrest
      | some y =>
        change (y :: xs.filterMap f).filter (fun y => g y = h x) = [y]
        rw [List.filter_cons_of_pos (by simpa using hz y hy), hrest]
    · have hne : h z ≠ h x := fun heq => hnot (heq ▸ List.mem_map_of_mem hx)
      cases hy : f z with
      | none => exact ih hxs hnd hx
      | some y =>
        have hout : g y ≠ h x := fun hyx => hne ((hz y hy).symm.trans hyx)
        change (y :: xs.filterMap f).filter (fun y => g y = h x) = (f x).toList
        rw [List.filter_cons_of_neg (by simpa using hout)]
        exact ih hxs hnd hx

end

variable {k k' k'' : Counter} {bs bs' : List Binding}

structure Numbered (k : Counter) (bs : List Binding) (k' : Counter) : Prop where
  le : k.next ≤ k'.next
  bounds : ∀ b ∈ bs, k.next ≤ b.id ∧ b.id < k'.next
  increasing : (bs.map (·.id)).Pairwise (· < ·)

namespace Numbered

theorem nil (h : k.next ≤ k'.next) : Numbered k [] k' := ⟨h, nofun, .nil⟩

theorem single (b : Binding) (hb : b.id = k.next) : Numbered k [b] k.take.2 :=
  ⟨Nat.le_succ _, by simp [hb, Counter.take], List.pairwise_singleton _ _⟩

theorem append (h : Numbered k bs k') (h' : Numbered k' bs' k'') : Numbered k (bs ++ bs') k'' := by
  refine ⟨Nat.le_trans h.le h'.le, List.forall_mem_append.2 ⟨fun b hb => ?_, fun b hb => ?_⟩, ?_⟩
  · exact ⟨(h.bounds b hb).1, Nat.lt_of_lt_of_le (h.bounds b hb).2 h'.le⟩
  · exact ⟨Nat.le_trans h.le (h'.bounds b hb).1, (h'.bounds b hb).2⟩
  · rw [List.map_append, List.pairwise_append]
    refine ⟨h.increasing, h'.increasing, List.forall_mem_map.2 fun b hb => ?_⟩
    refine List.forall_mem_map.2 fun b' hb' => ?_
    exact Nat.lt_of_lt_of_le (h.bounds b hb).2 (h'.bounds b' hb').1

theorem mono {l : Counter} (hl : l.next ≤ k.next) (h : Numbered k bs k') : Numbered l bs k' := by
  simpa using (nil hl).append h

end Numbered

namespace Tree

theorem next_nameAt_le (t : Tree) (path : List String) (k : Counter) :
    k.next ≤ (t.nameAt path k).2.next := by
  have hname : Naming.default.nameFor t path = Naming.defaultName t path := rfl
  rw [nameAt, hname]
  unfold Naming.defaultName
  cases t.nearestName with
  | error => exact Nat.le_refl _
  | ok n =>
    cases n with
    | some n => exact Nat.le_refl _
    | none =>
      cases path.getLast? with
      | some n => exact Nat.le_refl _
      | none => exact Nat.le_succ _

def AllNumbered (ts : List Tree) : Prop :=
  ∀ t ∈ ts, ∀ path k, Numbered k (t.outline path k).1.bindings (t.outline path k).2

theorem outlineFields_numbered {ts : List Tree} (h : AllNumbered ts) (path : List String)
    (k : Counter) :
    Numbered k (Outline.bindingsAll (outlineFields ts path k).1) (outlineFields ts path k).2 := by
  induction ts generalizing k with
  | nil => exact .nil (Nat.le_refl _)
  | cons t ts ih =>
    obtain ⟨ht, hts⟩ := List.forall_mem_cons.1 h
    rw [outlineFields, Outline.bindingsAll_cons]
    exact ((ht _ _).append (ih hts _)).mono (next_nameAt_le t path k)

theorem outlineVariants_numbered {ts : List Tree} (h : AllNumbered ts) (path : List String)
    (i : Nat) (used : List String) (k : Counter) :
    Numbered k (Outline.bindingsAll (outlineVariants ts path i used k).1)
      (outlineVariants ts path i used k).2 := by
  induction ts generalizing i used k with
  | nil => exact .nil (Nat.le_refl _)
  | cons t ts ih =>
    obtain ⟨ht, hts⟩ := List.forall_mem_cons.1 h
    rw [outlineVariants, Outline.bindingsAll_cons]
    exact (ht _ _).append (ih hts _ _ _)

theorem boundAt_numbered {t : Tree} {name : String} {type : ValueType}
    {parts : List (String × Outline)} (h : Numbered k (Outline.bindingsAll parts) k') :
    Numbered k (t.boundAt name type parts k').1.bindings (t.boundAt name type parts k').2 := by
  rw [Outline.bindings_eq]
  exact h.append (.single _ rfl)

theorem unboundAt_numbered {t : Tree} {type : Option ValueType} {parts : List (String × Outline)}
    (h : Numbered k (Outline.bindingsAll parts) k') :
    Numbered k (t.unboundAt type parts k').1.bindings (t.unboundAt type parts k').2 := by
  have hbs : (t.unboundAt type parts k').1.bindings = Outline.bindingsAll parts :=
    (Outline.bindings_eq _).trans (List.append_nil _)
  rw [hbs]
  exact h

theorem outline_numbered (t : Tree) : ∀ path k,
    Numbered k (t.outline path k).1.bindings (t.outline path k).2 := by
  induction t using induct_children with
  | h t ih =>
    intro path k
    have hname := next_nameAt_le t path k
    cases t with
    | missing => exact unboundAt_numbered (.nil (Nat.le_refl _))
    | terminal id m u =>
      rw [outline]
      cases Solving.scalar? u with
      | none => exact unboundAt_numbered (.nil hname)
      | some s => exact boundAt_numbered (.nil hname)
    | wrap id m w c =>
      rw [outline]
      refine boundAt_numbered ?_
      rw [Outline.bindingsAll_singleton]
      exact (ih c (List.mem_singleton.2 rfl) _ _).mono hname
    | group id m g cs =>
      cases g with
      | sequence joint =>
        have hcs := (outlineFields_numbered ih path _).mono hname
        rw [outline, sequenceAt]
        split
        · exact unboundAt_numbered hcs
        · exact unboundAt_numbered hcs
        · exact boundAt_numbered hcs
      | alternative =>
        have hcs := (outlineVariants_numbered ih path 0 [] _).mono hname
        rw [outline]
        exact boundAt_numbered hcs

end Tree

/-- The tree is solved as the outline says. -/
structure Tree.SolvedAs (t : Tree) (sol : Solution) (o : Outline) : Prop where
  solve : t.solve = .ok sol
  trees : o.postorder.map Outline.tree = t.postorder
  rootType : sol.rootType = o.type
  bindings : sol.registry.toList = o.bindings

theorem Tree.exists_solvedAs {t : Tree} (hw : t.Whole) :
    ∃ sol, t.SolvedAs sol (t.outline [] {}).1 := by
  have hids := (t.outline_numbered [] {}).increasing.imp Nat.ne_of_lt
  exact ⟨_, solve_eq_outline hw, trees_postorder t [] {}, rfl, Registry.toList_ofList hids⟩

/-- A value, wrapper or choice, or a sequence whose children with a type go by two names. -/
def Outline.IsBound (o : Outline) : Prop :=
  match o.tree with
  | .missing _ => False
  | .terminal _ _ t => t.isLiteral = false
  | .wrap .. => True
  | .group _ _ .alternative _ => True
  | .group _ _ (.sequence _) _ => ∃ x ∈ entries o.parts, ∃ y ∈ entries o.parts, x.1 ≠ y.1

/-- The registry has a binding at each bound part of the outline and nowhere else. -/
structure Registry.Covers (r : Registry) (o : Outline) : Prop where
  ordered : (r.toList.map (·.node)).Sublist (o.postorder.map (·.tree.id))
  increasing : (r.toList.map (·.id)).Pairwise (· < ·)
  bound : ∀ p ∈ o.postorder, p.IsBound →
    ∃ b, r.toList.filter (fun b => b.node = p.tree.id) = [b] ∧ r.resolve? p.tree.id = some b
  unbound : ∀ p ∈ o.postorder, ¬ p.IsBound → r.toList.filter (fun b => b.node = p.tree.id) = []
  elsewhere : ∀ n, (∀ p ∈ o.postorder, p.IsBound → p.tree.id ≠ n) → r.resolve? n = none

namespace Tree

theorem sequenceAt_isSome_iff (t : Tree) (name : String) (parts : List (String × Outline))
    (k : Counter) : (t.sequenceAt name parts k).1.binding.isSome ↔
      ∃ x ∈ Outline.entries parts, ∃ y ∈ Outline.entries parts, x.1 ≠ y.1 := by
  have hmem : ∀ n, n ∈ OrderedMap.keys (OrderedMap.ofList (Outline.entries parts)) ↔
      ∃ x ∈ Outline.entries parts, x.1 = n := fun n => by
    rw [OrderedMap.mem_keys_ofList]
    exact List.mem_map
  have hnodup := OrderedMap.nodup_keys_ofList (Outline.entries parts)
  unfold sequenceAt
  generalize OrderedMap.ofList (Outline.entries parts) = fs at hmem hnodup
  match fs with
  | [] =>
    refine ⟨nofun, fun ⟨x, hx, _⟩ => ?_⟩
    cases (hmem x.1).2 ⟨x, hx, rfl⟩
  | [e] =>
    refine ⟨nofun, fun ⟨x, hx, y, hy, hne⟩ => ?_⟩
    have hxe := List.mem_singleton.1 ((hmem x.1).2 ⟨x, hx, rfl⟩)
    have hye := List.mem_singleton.1 ((hmem y.1).2 ⟨y, hy, rfl⟩)
    exact absurd (hxe.trans hye.symm) hne
  | e :: f :: fs =>
    refine ⟨fun _ => ?_, fun _ => rfl⟩
    obtain ⟨x, hx, hxe⟩ := (hmem e.1).1 List.mem_cons_self
    obtain ⟨y, hy, hyf⟩ := (hmem f.1).1 (List.mem_cons_of_mem _ List.mem_cons_self)
    refine ⟨x, hx, y, hy, fun heq => ?_⟩
    rw [hxe, hyf] at heq
    exact (List.nodup_cons.1 hnodup).1 (heq ▸ List.mem_cons_self)

theorem isBound_iff (t : Tree) (path : List String) (k : Counter) :
    (t.outline path k).1.binding.isSome ↔ (t.outline path k).1.IsBound := by
  rw [Outline.IsBound, tree_outline]
  cases t with
  | missing => exact ⟨nofun, False.elim⟩
  | terminal id m u =>
    rw [outline]
    cases u with
    | literal => exact ⟨nofun, nofun⟩
    | int | float | str | path => exact ⟨fun _ => rfl, fun _ => rfl⟩
  | wrap => exact ⟨fun _ => trivial, fun _ => rfl⟩
  | group id m g cs =>
    cases g with
    | sequence joint =>
      rw [outline, parts_sequenceAt]
      exact sequenceAt_isSome_iff ..
    | alternative => exact ⟨fun _ => trivial, fun _ => rfl⟩

theorem node_of_binding {t : Tree} {path : List String} {k : Counter} :
    ∀ b ∈ (t.outline path k).1.binding, b.node = t.id := by
  intro b hb
  unfold outline at hb
  split at hb
  · cases hb
  · split at hb <;> cases hb
    rfl
  · cases hb
    rfl
  · dsimp only [sequenceAt] at hb
    split at hb <;> cases hb
    rfl
  · cases hb
    rfl

variable {t : Tree} {path : List String}

theorem node_of_mem {o : Outline} (ho : o ∈ (t.outline path k).1.postorder) :
    ∀ b ∈ o.binding, b.node = o.tree.id := by
  obtain ⟨path', k', h⟩ := exists_outline_of_mem t path k o ho
  rw [h, tree_outline]
  exact node_of_binding

theorem isBound_iff_of_mem {o : Outline} (ho : o ∈ (t.outline path k).1.postorder) :
    o.binding.isSome ↔ o.IsBound := by
  obtain ⟨path', k', h⟩ := exists_outline_of_mem t path k o ho
  rw [h]
  exact isBound_iff o.tree path' k'

theorem nodup_outline (path : List String) (k : Counter) (hnd : (t.walk.map id).Nodup) :
    ((t.outline path k).1.postorder.map (·.tree.id)).Nodup := by
  have hids : (t.outline path k).1.postorder.map (·.tree.id) = t.postorder.map id := by
    rw [← trees_postorder t path k, List.map_map]
    rfl
  rw [hids, (t.postorder_perm.map id).nodup_iff, ← walk_eq_preorder]
  exact hnd

theorem nodes_outline_sublist (t : Tree) (path : List String) (k : Counter) :
    ((t.outline path k).1.bindings.map (·.node)).Sublist
      ((t.outline path k).1.postorder.map (·.tree.id)) :=
  sublist_filterMap fun _ ho => node_of_mem ho

/-- The bindings at a place are the binding of the part there, if it has one. -/
theorem filter_bindings (hnd : ((t.outline path k).1.postorder.map (·.tree.id)).Nodup) {o : Outline}
    (ho : o ∈ (t.outline path k).1.postorder) :
    (t.outline path k).1.bindings.filter (fun b => b.node = o.tree.id) = o.binding.toList :=
  filter_filterMap (g := Binding.node) (h := fun o => o.tree.id) (fun _ hp => node_of_mem hp) hnd ho

theorem resolve?_bindings (hnd : ((t.outline path k).1.postorder.map (·.tree.id)).Nodup)
    (node : NodeId) : (Registry.ofList (t.outline path k).1.bindings).resolve? node =
      (t.outline path k).1.bindings.find? fun b => b.node = node :=
  Registry.resolve?_ofList ((outline_numbered t path k).increasing.imp Nat.ne_of_lt)
    (hnd.sublist (nodes_outline_sublist t path k)) node

theorem resolve?_of_mem (hnd : ((t.outline path k).1.postorder.map (·.tree.id)).Nodup) {o : Outline}
    (ho : o ∈ (t.outline path k).1.postorder) :
    (Registry.ofList (t.outline path k).1.bindings).resolve? o.tree.id = o.binding := by
  rw [resolve?_bindings hnd, ← List.head?_filter, filter_bindings hnd ho]
  cases o.binding <;> rfl

theorem covers_outline (t : Tree) (path : List String) (k : Counter)
    (hnd : ((t.outline path k).1.postorder.map (·.tree.id)).Nodup) :
    (Registry.ofList (t.outline path k).1.bindings).Covers (t.outline path k).1 := by
  have hincreasing := (outline_numbered t path k).increasing
  have hlist := Registry.toList_ofList (hincreasing.imp Nat.ne_of_lt)
  refine ⟨?_, ?_, fun p hp hbound => ?_, fun p hp hbound => ?_, fun n hn => ?_⟩
  · rw [hlist]
    exact nodes_outline_sublist t path k
  · rw [hlist]
    exact hincreasing
  · obtain ⟨b, hb⟩ := Option.isSome_iff_exists.1 ((isBound_iff_of_mem hp).2 hbound)
    rw [hlist, filter_bindings hnd hp, resolve?_of_mem hnd hp, hb]
    exact ⟨b, rfl, rfl⟩
  · have hnone := Option.not_isSome_iff_eq_none.1 (mt (isBound_iff_of_mem hp).1 hbound)
    rw [hlist, filter_bindings hnd hp, hnone]
    rfl
  · rw [resolve?_bindings hnd, List.find?_eq_none]
    intro b hb hbn
    obtain ⟨p, hp, hpb⟩ := List.mem_filterMap.1 hb
    have hbound := (isBound_iff_of_mem hp).1 (Option.isSome_iff_exists.2 ⟨b, hpb⟩)
    refine hn p hp hbound ?_
    rw [← node_of_mem hp b hpb]
    exact of_decide_eq_true hbn

/-- Solving a tree in which no place occurs twice binds the values, the wrappers, the choices and the
sequences of two names, each once, from the leaves up, and resolves these nodes and no others. -/
theorem solve_bindings {a : Arena} {root : NodeId} (h : a.Holds (a.tree root))
    (hnd : ((a.tree root).walk.map id).Nodup) :
    ∃ sol o, (a.tree root).solve = .ok sol ∧ o = ((a.tree root).outline [] {}).1 ∧
      sol.rootType = o.type ∧ o.postorder.map Outline.tree = (a.tree root).postorder ∧
      sol.registry.Covers o :=
  ⟨_, _, solve_eq_outline (whole_of_holds h), rfl, rfl, trees_postorder _ [] {},
    covers_outline _ [] {} (nodup_outline [] {} hnd)⟩

end Tree

def Arena.tool : Arena := ⟨#[
  ⟨.terminal (.literal "-v"), none⟩,
  ⟨.wrap .optional 0, some { name := some "verbose" }⟩,
  ⟨.terminal .str, some { name := some "input" }⟩,
  ⟨.terminal (.int none none), some { name := some "level" }⟩,
  ⟨.group .alternative [2, 3], none⟩,
  ⟨.group (.sequence (some "=")) [4], none⟩,
  ⟨.group (.sequence none) [1, 5], some { name := some "tool" }⟩]⟩

namespace Tree

theorem solve_bindings_tool :
    Arena.tool.Holds (Arena.tool.tree 6) ∧ ((Arena.tool.tree 6).walk.map id).Nodup ∧
      ∃ sol, (Arena.tool.tree 6).solve = .ok sol ∧
        sol.registry.toList.map (·.node) = [1, 2, 3, 4, 6] ∧
        sol.registry.Covers ((Arena.tool.tree 6).outline [] {}).1 := by
  have hholds : Arena.tool.Holds (Arena.tool.tree 6) := Arena.holds_tree (by decide) (by decide)
  have hnd : ((Arena.tool.tree 6).walk.map id).Nodup := by
    rw [walk_eq_preorder]
    decide
  obtain ⟨sol, o, hsol, rfl, -, -, hcovers⟩ := solve_bindings hholds hnd
  refine ⟨hholds, hnd, sol, hsol, ?_, hcovers⟩
  cases hsol
  rfl

end Tree
end ToolBindings
