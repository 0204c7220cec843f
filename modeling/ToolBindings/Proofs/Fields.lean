import ToolBindings.Proofs.Coverage

/-!
# Fields and bindings

The name of a child is chosen twice, by its parent and by itself one step further down, and both times it
is the same (`nameAt_extended`). So a structure has a field for each child that is bound, by the name of
the binding, and the field has the type of the binding unless a later child takes its place; and a wrapper
has the type of the binding of what it wraps inside its own (`solve_fields`).
-/
namespace ToolBindings

namespace OrderedMap
universe u v
variable {κ : Type u} {α : Type v} [DecidableEq κ]

theorem find?_insertAll_of_not_mem {k : κ} {m entries : OrderedMap κ α} (h : k ∉ keys entries) :
    find? k (insertAll m entries) = find? k m := by
  induction entries generalizing m with
  | nil => rfl
  | cons e es ih =>
    obtain ⟨hne, hes⟩ := not_or.1 fun hmem => h (List.mem_cons.2 hmem)
    exact (ih hes).trans (find?_insert_of_ne hne e.2 m)

theorem find?_ofList_append {k : κ} {v : α} {before after : List (κ × α)} (h : k ∉ keys after) :
    find? k (ofList (before ++ (k, v) :: after)) = some v := by
  rw [ofList, insertAll, List.foldl_append, List.foldl_cons]
  exact (find?_insertAll_of_not_mem h).trans (find?_insert_self ..)

end OrderedMap

namespace Outline
variable {ps before after : List (String × Outline)} {p : String × Outline} {type : ValueType}

theorem mem_keys_entries {name : String} :
    name ∈ OrderedMap.keys (entries ps) ↔ ∃ p ∈ ps, p.2.type.isSome = true ∧ p.1 = name := by
  simp only [OrderedMap.keys, entries, List.mem_map, List.mem_filterMap, Option.map_eq_some_iff,
    Option.isSome_iff_exists]
  constructor
  · rintro ⟨_, ⟨p, hp, type, htype, rfl⟩, rfl⟩
    exact ⟨p, hp, ⟨type, htype⟩, rfl⟩
  · rintro ⟨p, hp, ⟨type, htype⟩, rfl⟩
    exact ⟨_, ⟨p, hp, type, htype, rfl⟩, rfl⟩

theorem entries_append (htype : p.2.type = some type) :
    entries (before ++ p :: after) = entries before ++ (p.1, type) :: entries after := by
  simp [entries, htype]

theorem mem_postorder_of_part {t : Tree} {path : List String} {k : Counter} :
    ∀ o ∈ (t.outline path k).1.postorder, ∀ p ∈ o.parts, p.2 ∈ (t.outline path k).1.postorder := by
  induction t using Tree.induct_children generalizing path k with
  | h t ih =>
    intro o ho p hp
    have ho' := ho
    rw [postorder_eq, List.mem_append, List.mem_singleton] at ho
    rw [postorder_eq]
    refine List.mem_append_left _ (mem_postorderAll.2 ?_)
    rcases ho with ho | rfl
    · obtain ⟨q, hq, hoq⟩ := mem_postorderAll.1 ho
      obtain ⟨c, hc, path', k', hqc⟩ := Tree.exists_part q hq
      rw [hqc] at hoq
      exact ⟨q, hq, hqc ▸ ih c hc o hoq p hp⟩
    · exact ⟨p, hp, mem_postorder_self p.2⟩

end Outline

namespace Tree

theorem nameAt_fst (t : Tree) (path : List String) (k : Counter) : (t.nameAt path k).1 =
    match t.nearestName with
    | .error _ => ""
    | .ok n => (n.or path.getLast?).getD ("param_" ++ toString k.next) := by
  have hname : Naming.default.nameFor t path = Naming.defaultName t path := rfl
  rw [nameAt, hname]
  unfold Naming.defaultName
  cases t.nearestName with
  | error => rfl
  | ok n =>
    cases n with
    | some n => rfl
    | none => cases path.getLast? <;> rfl

/-- A node that is named by its parent names itself in the same way. -/
theorem nameAt_extended (t : Tree) (path : List String) (k k' : Counter) :
    (t.nameAt (path ++ [(t.nameAt path k).1]) k').1 = (t.nameAt path k).1 := by
  -- Without a nearest name the last name on the way counts, and that is now the name itself.
  rw [nameAt_fst t (path ++ _), nameAt_fst t path, List.getLast?_concat]
  cases t.nearestName with
  | error => rfl
  | ok n => cases n <;> rfl

variable {t : Tree} {path : List String} {k : Counter}

theorem binding_outline : ∀ b ∈ (t.outline path k).1.binding,
    b.name = (t.nameAt path k).1 ∧ (t.outline path k).1.type = some b.type := by
  intro b hb
  cases t with
  | missing => cases hb
  | terminal id m u =>
    rw [outline] at hb ⊢
    cases hu : Solving.scalar? u <;> rw [hu] at hb <;> cases hb
    exact ⟨rfl, rfl⟩
  | wrap id m w c =>
    rw [outline] at hb ⊢
    cases hb
    exact ⟨rfl, rfl⟩
  | group id m g cs =>
    cases g with
    | sequence joint =>
      rw [outline] at hb ⊢
      dsimp only [sequenceAt] at hb ⊢
      split at hb <;> cases hb
      exact ⟨rfl, rfl⟩
    | alternative =>
      rw [outline] at hb ⊢
      cases hb
      exact ⟨rfl, rfl⟩

theorem name_of_mem_outlineFields {ts : List Tree} :
    ∀ p ∈ (outlineFields ts path k).1, ∀ b ∈ p.2.binding, b.name = p.1 := by
  induction ts generalizing k with
  | nil => exact nofun
  | cons t ts ih =>
    refine List.forall_mem_cons.2 ⟨fun b hb => ?_, ih⟩
    exact (binding_outline b hb).1.trans (nameAt_extended t path k _)

theorem type_of_part : ∀ p ∈ (t.outline path k).1.parts, ∀ b ∈ p.2.binding,
    p.2.type = some b.type := by
  intro p hp
  obtain ⟨c, -, path', k', hpc⟩ := exists_part p hp
  rw [hpc]
  exact fun b hb => (binding_outline b hb).2

section
variable {i : NodeId} {m : Option Metadata}

theorem name_of_field {joint : Option String} {cs : List Tree} :
    ∀ p ∈ ((group i m (.sequence joint) cs).outline path k).1.parts, ∀ b ∈ p.2.binding,
      b.name = p.1 := by
  rw [outline, parts_sequenceAt]
  exact name_of_mem_outlineFields

theorem type_of_sequence {joint : Option String} {cs : List Tree} :
    ∀ b ∈ ((group i m (.sequence joint) cs).outline path k).1.binding, b.type = .struct
      (OrderedMap.ofList
        (Outline.entries ((group i m (.sequence joint) cs).outline path k).1.parts)) := by
  rw [outline, parts_sequenceAt]
  intro b hb
  dsimp only [sequenceAt] at hb
  split at hb <;> cases hb
  rfl

theorem type_of_wrap {w : Wrapper} {c : Tree} :
    ∀ b ∈ ((wrap i m w c).outline path k).1.binding,
      ∃ p ∈ ((wrap i m w c).outline path k).1.parts, p.2.tree = c ∧
        b.type = Solving.wrapperType w p.2.type := by
  rw [outline]
  intro b hb
  cases hb
  exact ⟨_, List.mem_cons_self, tree_outline .., rfl⟩

end

end Tree

/-- The structure has a field for each part that is bound, by the name of the binding and of its type;
of several parts by that name the last with a type counts. -/
structure Registry.TellsFields (r : Registry) (ps : List (String × Outline))
    (fields : OrderedMap String ValueType) : Prop where
  name : ∀ p ∈ ps, ∀ b ∈ r.resolve? p.2.tree.id, b.name = p.1 ∧ b.name ∈ OrderedMap.keys fields
  type : ∀ before p after, ps = before ++ p :: after →
    (∀ q ∈ after, q.2.type.isSome = true → q.1 ≠ p.1) →
      ∀ b ∈ r.resolve? p.2.tree.id, OrderedMap.find? b.name fields = some b.type

namespace Tree

theorem tellsFields {r : Registry} {ps : List (String × Outline)}
    (hresolve : ∀ p ∈ ps, r.resolve? p.2.tree.id = p.2.binding)
    (hname : ∀ p ∈ ps, ∀ b ∈ p.2.binding, b.name = p.1)
    (htype : ∀ p ∈ ps, ∀ b ∈ p.2.binding, p.2.type = some b.type) :
    r.TellsFields ps (OrderedMap.ofList (Outline.entries ps)) where
  name p hp b hb := by
    rw [hresolve p hp] at hb
    have htyped : p.2.type.isSome = true := htype p hp b hb ▸ rfl
    refine ⟨hname p hp b hb, OrderedMap.mem_keys_ofList.2 ?_⟩
    exact Outline.mem_keys_entries.2 ⟨p, hp, htyped, (hname p hp b hb).symm⟩
  type := by
    rintro before p after rfl hlast b hb
    have hp : p ∈ before ++ p :: after := List.mem_append_right _ List.mem_cons_self
    rw [hresolve p hp] at hb
    rw [hname p hp b hb, Outline.entries_append (htype p hp b hb)]
    refine OrderedMap.find?_ofList_append fun hmem => ?_
    obtain ⟨q, hq, hqtype, hqname⟩ := Outline.mem_keys_entries.1 hmem
    exact hlast q hq hqtype hqname

theorem resolve?_solution {t : Tree} {sol : Solution} (hw : t.Whole) (hnd : (t.walk.map id).Nodup)
    (hsol : t.solve = .ok sol) : ∀ o ∈ (t.outline [] {}).1.postorder,
      sol.registry.resolve? o.tree.id = o.binding := by
  cases (solve_eq_outline hw).symm.trans hsol
  exact fun o ho => resolve?_of_mem (nodup_outline [] {} hnd) ho

/-- Where no place occurs twice in a tree, a sequence that is bound is a structure whose fields are the
bindings of its children, and a wrapper is an optional or a list of the type to which its child is
bound. -/
theorem solve_fields {a : Arena} {root : NodeId} (h : a.Holds (a.tree root))
    (hnd : ((a.tree root).walk.map id).Nodup) :
    ∃ sol, (a.tree root).SolvedAs sol ((a.tree root).outline [] {}).1 ∧
      ∀ o ∈ ((a.tree root).outline [] {}).1.postorder,
        o.parts.map (·.2.tree) = o.tree.children ∧ ∀ b ∈ sol.registry.resolve? o.tree.id,
          (∀ i m joint cs, o.tree = .group i m (.sequence joint) cs →
            ∃ fields, b.type = .struct fields ∧ sol.registry.TellsFields o.parts fields) ∧
          ∀ i m w c, o.tree = .wrap i m w c → ∀ b' ∈ sol.registry.resolve? c.id,
            b.type = match w with
              | .optional => .optional b'.type
              | .repetition .. => .list b'.type := by
  have hw := whole_of_holds h
  obtain ⟨sol, hsol⟩ := exists_solvedAs hw
  have hresolve := resolve?_solution hw hnd hsol.solve
  refine ⟨sol, hsol, fun o ho => ?_⟩
  have hparts : ∀ p ∈ o.parts, sol.registry.resolve? p.2.tree.id = p.2.binding := fun p hp =>
    hresolve p.2 (Outline.mem_postorder_of_part o ho p hp)
  obtain ⟨path, k, hown⟩ := exists_outline_of_mem _ [] {} o ho
  refine ⟨by rw [hown, trees_parts, tree_outline], fun b hb => ?_⟩
  rw [hresolve o ho] at hb
  refine ⟨fun i m joint cs htree => ?_, fun i m w c htree b' hb' => ?_⟩
  · rw [htree] at hown
    subst hown
    exact ⟨_, type_of_sequence b hb, tellsFields hparts name_of_field type_of_part⟩
  · rw [htree] at hown
    subst hown
    obtain ⟨p, hp, rfl, htype⟩ := type_of_wrap b hb
    rw [hparts p hp] at hb'
    rw [htype, type_of_part p hp b' hb']
    cases w <;> rfl

end Tree

def Arena.doubleField : Arena := ⟨#[
  ⟨.terminal .str, none⟩,
  ⟨.wrap .optional 0, none⟩,
  ⟨.terminal .str, some { name := some "x" }⟩,
  ⟨.terminal (.int none none), some { name := some "x" }⟩,
  ⟨.group (.sequence none) [1, 2, 3], none⟩]⟩

namespace Tree

theorem solve_fields_doubled :
    Arena.doubleField.Holds (Arena.doubleField.tree 4) ∧
      ((Arena.doubleField.tree 4).walk.map id).Nodup ∧
      ∃ sol fields, (Arena.doubleField.tree 4).solve = .ok sol ∧
        sol.registry.resolve? 4 = some ⟨5, 4, "x", .struct fields⟩ ∧
        sol.registry.resolve? 1 = some ⟨2, 1, "param_0", .optional (.scalar .str)⟩ ∧
        "param_0" ∈ OrderedMap.keys fields ∧
        OrderedMap.find? "x" fields = some (.scalar .int) := by
  have hholds : Arena.doubleField.Holds (Arena.doubleField.tree 4) :=
    Arena.holds_tree (by decide) (by decide)
  have hnd : ((Arena.doubleField.tree 4).walk.map id).Nodup := by
    rw [walk_eq_preorder]
    decide
  obtain ⟨sol, hsol, hall⟩ := solve_fields hholds hnd
  obtain ⟨-, hroot⟩ := hall _ (Outline.mem_postorder_self _)
  have hsolve := hsol.solve
  cases (solve_eq_outline (whole_of_holds hholds)).symm.trans hsolve
  obtain ⟨fields, hfields, htells⟩ := (hroot _ rfl).1 4 none none _ rfl
  refine ⟨hholds, hnd, _, fields, hsolve, ?_, rfl, ?_, ?_⟩
  · rw [← hfields]
    rfl
  · exact (htells.name _ List.mem_cons_self _ rfl).2
  · exact htells.type [_, _] _ [] rfl nofun _ rfl

end Tree
end ToolBindings
