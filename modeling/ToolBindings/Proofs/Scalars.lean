import ToolBindings.Proofs.Choice

/-!
# Values in the solved type

Each value of a tree is one scalar of its type, with two exceptions. A structure holds one field of
a name, so of two children of a sequence that go by one name only the later one is in its type. And
where a structure becomes a variant with a discriminator, a field of its own by that name makes room
for it. Apart from these the type has as many scalars as the tree has values (`solve_scalars`).
-/
namespace ToolBindings

namespace ValueType

def isScalar : ValueType → Bool
  | scalar _ => true
  | _ => false

def scalars (t : ValueType) : Nat := t.parts.countP isScalar

def scalarsAll (fs : List (String × ValueType)) : Nat := (partsAll fs).countP isScalar

theorem scalarsAll_cons (f : String × ValueType) (fs : List (String × ValueType)) :
    scalarsAll (f :: fs) = f.2.scalars + scalarsAll fs := by
  rw [scalarsAll, partsAll, List.countP_append]
  rfl

theorem scalarsAll_append (fs gs : List (String × ValueType)) :
    scalarsAll (fs ++ gs) = scalarsAll fs + scalarsAll gs := by
  induction fs with
  | nil => exact (Nat.zero_add _).symm
  | cons f fs ih => rw [List.cons_append, scalarsAll_cons, scalarsAll_cons, ih, Nat.add_assoc]

theorem scalarsAll_eq_zero {fs : List (String × ValueType)} (h : ∀ f ∈ fs, f.2.scalars = 0) :
    scalarsAll fs = 0 := by
  induction fs with
  | nil => rfl
  | cons f fs ih =>
    obtain ⟨hf, hfs⟩ := List.forall_mem_cons.1 h
    rw [scalarsAll_cons, hf, ih hfs]

theorem scalarsAll_filter (p : String × ValueType → Bool) (fs : List (String × ValueType)) :
    scalarsAll (fs.filter p) + scalarsAll (fs.filter fun f => !p f) = scalarsAll fs := by
  induction fs with
  | nil => rfl
  | cons f fs ih =>
    rw [List.filter_cons, List.filter_cons]
    cases p f <;> simp [scalarsAll_cons] <;> omega

@[simp] theorem scalars_struct (fs : List (String × ValueType)) :
    (struct fs).scalars = scalarsAll fs := by
  rw [scalars, parts, List.countP_cons_of_neg (by simp [isScalar])]
  rfl

@[simp] theorem scalars_union (vs : List (String × ValueType)) :
    (union vs).scalars = scalarsAll vs := by
  rw [scalars, parts, List.countP_cons_of_neg (by simp [isScalar])]
  rfl

theorem scalars_of_isLiteral {t : ValueType} (h : t.isLiteral = true) : t.scalars = 0 := by
  cases t <;> first | rfl | cases h

theorem scalarsAll_insert (k : String) (t : ValueType) (fs : List (String × ValueType)) :
    scalarsAll (OrderedMap.insert k t fs) + (OrderedMap.find? k fs).elim 0 scalars =
      scalarsAll fs + t.scalars := by
  induction fs with
  | nil =>
    rw [OrderedMap.insert, scalarsAll_cons]
    exact Nat.add_comm ..
  | cons f fs ih =>
    rw [OrderedMap.insert, OrderedMap.find?]
    split
    · simp only [scalarsAll_cons, Option.elim_some]
      omega
    · simp only [scalarsAll_cons]
      omega

def Distinguished (fs : List (String × ValueType)) : Prop :=
  fs.Pairwise fun f g => f.1 = g.1 → f.2.scalars = 0

instance (fs : List (String × ValueType)) : Decidable (Distinguished fs) :=
  inferInstanceAs (Decidable (List.Pairwise _ fs))

theorem scalarsAll_insertAll (fs : List (String × ValueType)) {gs : List (String × ValueType)}
    (hgs : Distinguished gs)
    (hfs : ∀ f ∈ fs, ∀ g ∈ gs, f.1 = g.1 → f.2.scalars = 0) :
    scalarsAll (OrderedMap.insertAll fs gs) = scalarsAll fs + scalarsAll gs := by
  induction gs generalizing fs with
  | nil => rfl
  | cons g gs ih =>
    obtain ⟨hg, hgs⟩ := List.pairwise_cons.1 hgs
    have hold : (OrderedMap.find? g.1 fs).elim 0 scalars = 0 := by
      cases hf : OrderedMap.find? g.1 fs with
      | none => rfl
      | some t => exact hfs _ (OrderedMap.mem_of_find? hf) g List.mem_cons_self rfl
    have hinsert := scalarsAll_insert g.1 g.2 fs
    have hrest := ih (OrderedMap.insert g.1 g.2 fs) hgs fun f hf g' hg' => by
      rcases OrderedMap.mem_insert f hf with rfl | hf
      · exact hg g' hg'
      · exact hfs f hf g' (List.mem_cons_of_mem _ hg')
    rw [hold, Nat.add_zero] at hinsert
    rw [OrderedMap.insertAll, List.foldl_cons, ← OrderedMap.insertAll, hrest, hinsert,
      scalarsAll_cons, Nat.add_assoc]

def tagFields : ValueType → List (String × ValueType)
  | struct fs => fs.filter fun f => f.1 = Solving.discriminator
  | _ => []

def FieldsNodup : ValueType → Prop
  | struct fs => (OrderedMap.keys fs).Nodup
  | _ => True

end ValueType

namespace Solving
open ValueType

theorem scalars_wrapperType (w : Wrapper) (t : Option ValueType) :
    (wrapperType w t).scalars = t.elim 0 scalars := by
  cases w <;> cases t <;> rfl

theorem scalars_tagged {v : Variant} {e : String × ValueType} (h : tagged v = .ok e)
    (hnd : v.type.FieldsNodup) :
    e.2.scalars + scalarsAll v.type.tagFields = v.type.scalars := by
  have htag : scalarsAll [(discriminator, .literal (.str v.name))] = 0 := rfl
  unfold tagged at h
  split at h
  · next l hl =>
    cases h
    rw [hl]
    rfl
  · next fs hfs =>
    cases h
    rw [hfs] at hnd ⊢
    have hothers : Distinguished (fs.filter fun f => f.1 ≠ discriminator) :=
      ((List.Pairwise.of_map Prod.fst (fun _ _ => id) hnd).filter _).imp
        fun hne heq => absurd heq hne
    have hsum := scalarsAll_insertAll [(discriminator, .literal (.str v.name))] hothers
      (List.forall_mem_singleton.2 fun _ _ _ => rfl)
    have hfilter := scalarsAll_filter (fun f => f.1 = discriminator) fs
    rw [htag, Nat.zero_add] at hsum
    simp only [← decide_not] at hfilter
    rw [scalars_struct, scalars_struct, hsum, ← hfilter]
    exact Nat.add_comm ..
  · next hlit hstruct =>
    have hnone : v.type.tagFields = [] := by
      unfold tagFields
      split
      · next fs hfs => exact absurd hfs (hstruct fs)
      · rfl
    cases hn : v.tree.nearestName with
    | error e =>
      rw [hn] at h
      cases h
    | ok n =>
      rw [hn] at h
      cases h
      have hinsert := scalarsAll_insert (n.getD "value") v.type
        [(discriminator, .literal (.str v.name))]
      have hold : (OrderedMap.find? (n.getD "value")
          [(discriminator, .literal (.str v.name))]).elim 0 scalars = 0 := by
        rw [OrderedMap.find?]
        split <;> rfl
      rw [htag, hold] at hinsert
      rw [hnone, scalars_struct]
      exact hinsert.trans (Nat.zero_add _)

theorem scalarsAll_tagged {vs : List Variant} {es : List (String × ValueType)}
    (h : List.Forall₂ (fun v e => tagged v = .ok e) vs es) (hnd : ∀ v ∈ vs, v.type.FieldsNodup) :
    scalarsAll es + scalarsAll (vs.flatMap fun v => v.type.tagFields) =
      scalarsAll (vs.map fun v => (v.name, v.type)) := by
  induction h with
  | nil => rfl
  | cons he _ ih =>
    obtain ⟨hv, hvs⟩ := List.forall_mem_cons.1 hnd
    have hhead := scalars_tagged he hv
    have htail := ih hvs
    simp only [List.flatMap_cons, scalarsAll_append, List.map_cons, scalarsAll_cons]
    omega

theorem tagFields_of_isLiteral {t : ValueType} (h : t.isLiteral = true) : t.tagFields = [] := by
  cases t <;> first | rfl | cases h

theorem scalars_choiceType {vs : List Variant} {t : ValueType} (h : choiceType vs = .ok t)
    (hnd : ∀ v ∈ vs, v.type.FieldsNodup) :
    t.scalars + scalarsAll (vs.flatMap fun v => v.type.tagFields) =
      scalarsAll (vs.map fun v => (v.name, v.type)) := by
  rcases choiceType_cases h with ⟨hpair, rfl⟩ | ⟨es, rfl, hes⟩
  · have hlit : ∀ v ∈ vs, v.type.isLiteral = true :=
      List.forall_mem_map.1 (isLiteral_of_isFlagPair hpair)
    have htags : (vs.flatMap fun v => v.type.tagFields) = [] :=
      List.flatMap_eq_nil_iff.2 fun v hv => tagFields_of_isLiteral (hlit v hv)
    have hzero : scalarsAll (vs.map fun v => (v.name, v.type)) = 0 :=
      scalarsAll_eq_zero (List.forall_mem_map.2 fun v hv => scalars_of_isLiteral (hlit v hv))
    rw [htags, hzero]
    rfl
  · rw [scalars_union]
    exact scalarsAll_tagged hes hnd

theorem fieldsNodup_choiceTypeOf (vs : List Variant) : (choiceTypeOf vs).FieldsNodup := by
  unfold choiceTypeOf choiceType
  split
  · trivial
  · split
    · trivial
    · cases vs.mapM tagged <;> trivial

end Solving

namespace Outline
open ValueType

def scalars (o : Outline) : Nat := o.type.elim 0 ValueType.scalars

def isSequence (o : Outline) : Bool :=
  match o.tree with
  | .group _ _ (.sequence _) _ => true
  | _ => false

/-- Of two children of a sequence by one name the first has no scalars. -/
def KeepsFields (o : Outline) : Prop :=
  o.isSequence = true → Distinguished (entries o.parts)

instance (o : Outline) : Decidable o.KeepsFields :=
  inferInstanceAs (Decidable (o.isSequence = true → Distinguished (entries o.parts)))

/-- The fields of the variants of a choice that make room for their discriminators. -/
def displaced (o : Outline) : List (String × ValueType) :=
  match o.tree with
  | .group _ _ .alternative _ => o.parts.flatMap fun p => (variant p).type.tagFields
  | _ => []

theorem scalarsAll_entries_cons (p : String × Outline) (ps : List (String × Outline)) :
    scalarsAll (entries (p :: ps)) = p.2.scalars + scalarsAll (entries ps) := by
  rw [entries, List.filterMap_cons, scalars]
  cases p.2.type with
  | none => exact (Nat.zero_add _).symm
  | some t => exact scalarsAll_cons ..

theorem scalars_variant (p : String × Outline) : (variant p).type.scalars = p.2.scalars := by
  rw [scalars, variant, Solving.variantType]
  cases p.2.type with
  | some t => rfl
  | none => cases p.2.tree.literal? <;> rfl

theorem scalarsAll_variants (ps : List (String × Outline)) :
    scalarsAll ((ps.map variant).map fun v => (v.name, v.type)) = scalarsAll (entries ps) := by
  induction ps with
  | nil => rfl
  | cons p ps ih =>
    rw [List.map_cons, List.map_cons, scalarsAll_cons, ih, scalarsAll_entries_cons,
      ← scalars_variant]

theorem scalars_parts {ps : List (String × Outline)}
    (h : ∀ p ∈ ps, p.2.scalars + scalarsAll (p.2.postorder.flatMap displaced) =
      p.2.tree.preorder.countP Tree.isValue) :
    scalarsAll (entries ps) + scalarsAll ((postorderAll ps).flatMap displaced) =
      (Tree.preorderAll (ps.map (·.2.tree))).countP Tree.isValue := by
  induction ps with
  | nil => rfl
  | cons p ps ih =>
    obtain ⟨hp, hps⟩ := List.forall_mem_cons.1 h
    have hrest := ih hps
    rw [scalarsAll_entries_cons, postorderAll, List.flatMap_append, scalarsAll_append,
      List.map_cons, Tree.preorderAll, List.countP_append]
    omega

end Outline

namespace Tree
open ValueType

theorem fieldsNodup_outline (t : Tree) : ∀ path k,
    ∀ type ∈ (t.outline path k).1.type, type.FieldsNodup :=
  forall_type_outline (fun _ => trivial) (fun w type => by cases w <;> cases type <;> trivial)
    (fun _ h => h) Solving.fieldsNodup_choiceTypeOf t

theorem scalars_sequenceAt (t : Tree) (name : String) (parts : List (String × Outline))
    (k : Counter) : (t.sequenceAt name parts k).1.scalars =
      scalarsAll (OrderedMap.ofList (Outline.entries parts)) := by
  unfold sequenceAt
  split
  · next h =>
    rw [h]
    rfl
  · next n type h =>
    rw [h, scalarsAll_cons]
    rfl
  · exact scalars_struct _

theorem scalars_node {t : Tree} (hw : t.Whole) (path : List String) (k : Counter)
    (hkeeps : (t.outline path k).1.KeepsFields) :
    (t.outline path k).1.scalars + scalarsAll (t.outline path k).1.displaced =
      scalarsAll (Outline.entries (t.outline path k).1.parts) + if t.isValue then 1 else 0 := by
  rw [Outline.KeepsFields, Outline.isSequence, tree_outline] at hkeeps
  rw [Outline.displaced, tree_outline]
  have hnodup : ∀ p ∈ (t.outline path k).1.parts, (Outline.variant p).type.FieldsNodup :=
    fun p hp => by
      obtain ⟨c, hc, path', k', hpc⟩ := exists_part p hp
      have hc := fieldsNodup_outline c path' k'
      rw [← hpc] at hc
      rw [Outline.variant, Solving.variantType]
      cases htype : p.2.type with
      | some type => exact hc type htype
      | none => cases p.2.tree.literal? <;> trivial
  cases t with
  | missing => exact absurd hw Whole.not_missing
  | terminal id m u =>
    rw [outline]
    cases u <;> rfl
  | wrap id m w c =>
    rw [outline]
    change (Solving.wrapperType w _).scalars + 0 = scalarsAll (Outline.entries [(_, _)]) + 0
    rw [Outline.scalarsAll_entries_cons, Solving.scalars_wrapperType]
    rfl
  | group id m g cs =>
    cases g with
    | sequence joint =>
      have hdistinguished := hkeeps rfl
      rw [outline, parts_sequenceAt] at hdistinguished ⊢
      rw [scalars_sequenceAt, OrderedMap.ofList,
        scalarsAll_insertAll [] hdistinguished fun _ h => absurd h List.not_mem_nil]
      exact Nat.zero_add _
    | alternative =>
      rw [outline] at hnodup ⊢
      have htype := Solving.choiceType_eq (Solving.whole_variant hw.children path 0 []
        (nameAt (group id m .alternative cs) path k).2)
      have hsum := Solving.scalars_choiceType htype (List.forall_mem_map.2 hnodup)
      rw [Outline.scalarsAll_variants, List.flatMap_map] at hsum
      exact hsum

/-- On a tree whose sequences keep their fields the scalars of the type and of the fields that make
room for a discriminator are as many as the values. -/
theorem scalars_outline {t : Tree} (hw : t.Whole) (path : List String) (k : Counter)
    (hkeeps : ∀ o ∈ (t.outline path k).1.postorder, o.KeepsFields) :
    (t.outline path k).1.scalars +
        scalarsAll ((t.outline path k).1.postorder.flatMap Outline.displaced) =
      t.preorder.countP isValue := by
  induction t using induct_children generalizing path k with
  | h t ih =>
    rw [Outline.postorder_eq] at hkeeps ⊢
    obtain ⟨hbelow, hself⟩ := List.forall_mem_append.1 hkeeps
    have hnode := scalars_node hw path k (hself _ (List.mem_singleton.2 rfl))
    have hparts := Outline.scalars_parts fun p (hp : p ∈ (t.outline path k).1.parts) => by
      have hkept : ∀ o ∈ p.2.postorder, o.KeepsFields := fun o ho =>
        hbelow o (Outline.mem_postorderAll.2 ⟨p, hp, ho⟩)
      obtain ⟨c, hc, path', k', hpc⟩ := exists_part p hp
      rw [hpc] at hkept ⊢
      rw [tree_outline]
      exact ih c hc (hw.children c hc) path' k' hkept
    rw [trees_parts] at hparts
    rw [preorder_eq, List.countP_cons, List.flatMap_append, scalarsAll_append,
      List.flatMap_singleton]
    omega

/-- A type has one scalar for each value of its tree, if of two children of a sequence by one name the
first has no value, and if the fields that make room for discriminators are counted too. -/
theorem solve_scalars {t : Tree} (hw : t.Whole)
    (hkeeps : ∀ o ∈ (t.outline [] {}).1.postorder, o.KeepsFields) :
    ∃ sol, t.solve = .ok sol ∧
      sol.rootType.elim 0 ValueType.scalars +
        scalarsAll ((t.outline [] {}).1.postorder.flatMap Outline.displaced) = t.values.length := by
  refine ⟨_, solve_eq_outline hw, (scalars_outline hw [] {} hkeeps).trans ?_⟩
  rw [values, walk_eq_preorder, List.countP_eq_length_filter]

end Tree

def Arena.tagged : Arena := ⟨#[
  ⟨.terminal .str, some { name := some "@type" }⟩,
  ⟨.terminal (.int none none), some { name := some "x" }⟩,
  ⟨.group (.sequence none) [0, 1], none⟩,
  ⟨.terminal .str, some { name := some "y" }⟩,
  ⟨.group .alternative [2, 3], none⟩]⟩

def Arena.namesakes : Arena := ⟨#[
  ⟨.terminal .str, some { name := some "x" }⟩,
  ⟨.terminal (.int none none), some { name := some "x" }⟩,
  ⟨.group (.sequence none) [0, 1], none⟩]⟩

namespace Tree

theorem solve_scalars_tagged : (Arena.tagged.tree 4).Whole ∧
    (∀ o ∈ ((Arena.tagged.tree 4).outline [] {}).1.postorder, o.KeepsFields) ∧
    ∃ sol, (Arena.tagged.tree 4).solve = .ok sol ∧
      sol.rootType.elim 0 ValueType.scalars + 1 = 3 := by
  have hw : (Arena.tagged.tree 4).Whole :=
    whole_of_holds (Arena.holds_tree (by decide) (by decide))
  have hkeeps : ∀ o ∈ ((Arena.tagged.tree 4).outline [] {}).1.postorder, o.KeepsFields := by
    decide
  obtain ⟨sol, hsol, hcount⟩ := solve_scalars hw hkeeps
  rw [values, walk_eq_preorder] at hcount
  exact ⟨hw, hkeeps, sol, hsol, hcount⟩

/-- Without the two exceptions the numbers differ. -/
theorem scalars_ne_values :
    (∃ sol, (Arena.namesakes.tree 2).solve = .ok sol ∧
      sol.rootType.elim 0 ValueType.scalars = 1 ∧ (Arena.namesakes.tree 2).values.length = 2) ∧
    ∃ sol, (Arena.tagged.tree 4).solve = .ok sol ∧
      sol.rootType.elim 0 ValueType.scalars = 2 ∧ (Arena.tagged.tree 4).values.length = 3 := by
  refine ⟨⟨_, rfl, rfl, ?_⟩, ⟨_, rfl, rfl, ?_⟩⟩ <;>
  · rw [values, walk_eq_preorder]
    rfl

end Tree

end ToolBindings
