import ToolBindings.Proofs.Choice
import ToolBindings.Proofs.Coverage

/-!
# Variants of a union

No node has a literal for its type, so the literals among the variants of a choice come from its literal
children. A choice that is no flag is a union with one variant for each child, under distinct names: a
literal of the same text for a literal, a structure for any other child (`solve_variants`). The variants
that are structures can be told apart by their discriminators unless a child that is boxed goes by the
name of the discriminator (`solve_discriminated_iff`).
-/
namespace ToolBindings
open Solving

theorem forall_mem_iff_of_forall₂ {α β : Type} {p : α → Prop} {q : β → Prop} {xs : List α}
    {ys : List β} (h : List.Forall₂ (fun x y => p x ↔ q y) xs ys) :
    (∀ x ∈ xs, p x) ↔ ∀ y ∈ ys, q y := by
  induction h with
  | nil => exact ⟨fun _ => nofun, fun _ => nofun⟩
  | cons hxy _ ih => rw [List.forall_mem_cons, List.forall_mem_cons, hxy, ih]

def Literal.plain : Literal → String
  | .int n => intText n
  | .str s => s

theorem Solving.plain_literalValue (text : String) : (literalValue text).plain = text := by
  unfold literalValue
  split
  · split
    · next h => exact h
    · rfl
  · rfl

theorem Tree.Whole.of_mem {t : Tree} (h : t.Whole) : ∀ s ∈ t.preorder, s.Whole :=
  forall_preorder_of_mem h

namespace Outline

def IsOwn (o : Outline) : Prop := ∃ path k, o = (o.tree.outline path k).1

theorem isOwn_of_part {o : Outline} {path : List String} {k : Counter}
    (h : o = (o.tree.outline path k).1) : ∀ p ∈ o.parts, p.2.IsOwn := by
  intro p hp
  rw [h] at hp
  obtain ⟨c, -, path', k', hpc⟩ := Tree.exists_part p hp
  rw [IsOwn, hpc, Tree.tree_outline]
  exact ⟨path', k', rfl⟩

/-- As a variant the node is neither a literal nor a structure yet. -/
def isBoxed (o : Outline) : Bool := !o.tree.isLiteral && !(o.type.getD .bool).isStruct

theorem not_isLiteral_type {o : Outline} (ho : o.IsOwn) :
    ∀ type ∈ o.type, type.isLiteral = false := by
  obtain ⟨path, k, ho⟩ := ho
  rw [ho]
  refine Tree.forall_type_outline (fun _ => rfl) (fun w type => ?_) (fun _ _ => rfl) (fun vs => ?_)
    o.tree path k
  · cases w <;> cases type <;> rfl
  · rcases choiceTypeOf_cases vs with h | ⟨es, h⟩ <;> rw [h] <;> rfl

theorem type_of_literal? {o : Outline} (ho : o.IsOwn) {text : String}
    (h : o.tree.literal? = some text) : o.type = none := by
  obtain ⟨path, k, ho⟩ := ho
  rw [ho]
  unfold Tree.literal? at h
  split at h
  · next htree =>
    rw [htree]
    rfl
  · cases h

theorem variant_of_literal? {p : String × Outline} (ho : p.2.IsOwn) {text : String}
    (h : p.2.tree.literal? = some text) : (variant p).type = .literal (literalValue text) := by
  rw [variant, variantType, type_of_literal? ho h, h]
  rfl

theorem variant_of_not_literal {p : String × Outline} (h : p.2.tree.literal? = none) :
    (variant p).type = p.2.type.getD .bool := by
  rw [variant, variantType, h]
  rfl

theorem isLiteral_variant {p : String × Outline} (ho : p.2.IsOwn) :
    (variant p).type.isLiteral = p.2.tree.isLiteral := by
  rw [Tree.isLiteral]
  cases h : p.2.tree.literal? with
  | some text =>
    rw [variant_of_literal? ho h]
    rfl
  | none =>
    rw [variant_of_not_literal h]
    cases htype : p.2.type with
    | none => rfl
    | some type => exact not_isLiteral_type ho type htype

theorem isBoxed_iff {p : String × Outline} (hlit : p.2.tree.isLiteral = false) :
    p.2.isBoxed = true ↔ (variant p).type.isStruct = false := by
  have h : p.2.tree.literal? = none := by simpa [Tree.isLiteral] using hlit
  rw [isBoxed, variant_of_not_literal h, hlit]
  simp

structure Becomes (p : String × Outline) (v : String × ValueType) : Prop where
  whole : p.2.tree.Whole
  own : p.2.IsOwn
  tagged : tagged (variant p) = .ok v

structure IsChoice (o : Outline) (cs : List Tree) (b : Binding) : Prop where
  binding : o.binding = some b
  type : o.type = some b.type
  trees : o.parts.map (·.2.tree) = cs
  names : (o.parts.map Prod.fst).Nodup
  bool_iff : b.type = .bool ↔ isFlagPair (o.parts.map fun p => (variant p).type) = true
  cases : (isFlagPair (o.parts.map fun p => (variant p).type) = true ∧ b.type = .bool) ∨
    ∃ vs, b.type = .union vs ∧ List.Forall₂ Becomes o.parts vs

end Outline
open Outline

theorem Tree.exists_isChoice {t : Tree} (hw : t.Whole) {path : List String} {k : Counter}
    {o : Outline} (ho : o ∈ (t.outline path k).1.postorder) {i : NodeId} {m : Option Metadata}
    {cs : List Tree} (htree : o.tree = .group i m .alternative cs) :
    ∃ b, b.node = i ∧ o.IsChoice cs b := by
  have hmem : o.tree ∈ t.preorder := by
    rw [← t.postorder_perm.mem_iff, ← trees_postorder t path k]
    exact List.mem_map_of_mem ho
  have hcs := (hw.of_mem _ hmem).children
  obtain ⟨path', k', hown⟩ := exists_outline_of_mem t path k o ho
  rw [htree] at hcs hown
  subst hown
  have hparts : ∀ p ∈ (outline (.group i m .alternative cs) path' k').1.parts,
      p.2.tree.Whole ∧ p.2.IsOwn := fun p hp => by
    obtain ⟨c, hc, path'', k'', hpc⟩ := exists_part p hp
    rw [IsOwn, hpc, tree_outline]
    exact ⟨hcs c hc, path'', k'', rfl⟩
  rw [outline] at hparts ⊢
  have htype := choiceType_eq (whole_variant hcs path' 0 []
    (nameAt (.group i m .alternative cs) path' k').2)
  have hbool := choiceType_eq_bool_iff htype
  rw [List.map_map] at hbool
  refine ⟨_, rfl, rfl, rfl, trees_outlineVariants .., (names_outlineVariants ..).1, hbool, ?_⟩
  rcases choiceType_cases htype with ⟨hpair, hbool⟩ | ⟨vs, hunion, hvs⟩
  · rw [List.map_map] at hpair
    exact .inl ⟨hpair, hbool⟩
  · rw [List.forall₂_map_left_iff] at hvs
    refine .inr ⟨vs, hunion, ((List.forall₂_and_left _ _).2 ⟨hparts, hvs⟩).imp fun p v hpv => ?_⟩
    exact ⟨hpv.1.1, hpv.1.2, hpv.2⟩

/-- A literal stands for a literal of the same text, and a structure for any other tree. -/
inductive VariantOf : Tree → ValueType → Prop
  | literal {t : Tree} {l : Literal} : t.literal? = some l.plain → VariantOf t (.literal l)
  | struct {t : Tree} (fs : List (String × ValueType)) :
    t.literal? = none → VariantOf t (.struct fs)

/-- One variant for each tree, in their order, under distinct names. -/
structure Mirrors (cs : List Tree) (vs : List (String × ValueType)) : Prop where
  variants : List.Forall₂ (fun c v => VariantOf c v.2) cs vs
  names : (vs.map Prod.fst).Nodup

/-- Every variant that is no literal begins with its name under the discriminator, and no two with the
same. -/
structure Discriminated (vs : List (String × ValueType)) : Prop where
  tells : ∀ v ∈ vs, v.2.isLiteral = false → v.2.tag? = some v.1
  distinct : (vs.filterMap fun v => v.2.tag?).Nodup

theorem Discriminated.of_tells {vs : List (String × ValueType)} (hnames : (vs.map Prod.fst).Nodup)
    (h : ∀ v ∈ vs, v.2.isLiteral = false → v.2.tag? = some v.1) : Discriminated vs := by
  refine ⟨h, ?_⟩
  have hsub : ((vs.filterMap fun v => v.2.tag?).map id).Sublist (vs.map Prod.fst) :=
    sublist_filterMap fun v hv n hn => by
      cases hlit : v.2.isLiteral with
      | true =>
        rw [ValueType.tag?_of_isLiteral hlit] at hn
        cases hn
      | false =>
        rw [h v hv hlit] at hn
        exact (Option.some.inj hn).symm
  rw [List.map_id] at hsub
  exact hnames.sublist hsub

namespace Outline
variable {p : String × Outline} {v : String × ValueType}

theorem Becomes.name_eq (h : Becomes p v) : v.1 = p.1 := by
  cases hlit : (variant p).type.isLiteral with
  | true =>
    cases h.tagged.symm.trans (tagged_of_isLiteral hlit)
    rfl
  | false =>
    obtain ⟨fs, rfl⟩ := exists_struct_of_tagged h.whole hlit h.tagged
    rfl

theorem Becomes.variantOf (h : Becomes p v) : VariantOf p.2.tree v.2 := by
  have hlit := isLiteral_variant h.own
  cases ht : p.2.tree.literal? with
  | some text =>
    have htype := variant_of_literal? h.own ht
    cases h.tagged.symm.trans (tagged_of_isLiteral (by rw [htype]; rfl))
    rw [htype]
    exact .literal (by rw [ht, plain_literalValue])
  | none =>
    rw [Tree.isLiteral, ht] at hlit
    obtain ⟨fs, rfl⟩ := exists_struct_of_tagged h.whole hlit h.tagged
    exact .struct fs ht

theorem Becomes.tells_iff (h : Becomes p v) :
    (p.2.isBoxed = true → p.2.tree.nearestName ≠ .ok (some discriminator)) ↔
      (v.2.isLiteral = false → v.2.tag? = some v.1) := by
  have hlit := isLiteral_variant h.own
  cases ht : p.2.tree.isLiteral with
  | true =>
    rw [ht] at hlit
    cases h.tagged.symm.trans (tagged_of_isLiteral hlit)
    refine ⟨fun _ hnot => ?_, fun _ hboxed => ?_⟩
    · rw [hlit] at hnot
      cases hnot
    · rw [isBoxed, ht] at hboxed
      cases hboxed
  | false =>
    rw [ht] at hlit
    have htag := tag?_tagged_iff h.whole hlit h.tagged
    obtain ⟨fs, rfl⟩ := exists_struct_of_tagged h.whole hlit h.tagged
    rw [isBoxed_iff ht]
    exact htag.symm.trans ⟨fun htells _ => htells, fun htells => htells rfl⟩

theorem names_eq {ps : List (String × Outline)} {vs : List (String × ValueType)}
    (h : List.Forall₂ Becomes ps vs) : vs.map Prod.fst = ps.map Prod.fst := by
  induction h with
  | nil => rfl
  | cons hpv _ ih => rw [List.map_cons, List.map_cons, hpv.name_eq, ih]

end Outline

namespace Tree

/-- Solving gives no node a literal for its type, and a choice that is no flag is a union of variants
that mirror its children. -/
theorem solve_variants {t : Tree} (hw : t.Whole) :
    ∃ sol, t.SolvedAs sol (t.outline [] {}).1 ∧
      ∀ o ∈ (t.outline [] {}).1.postorder,
        (∀ type ∈ o.type, type.isLiteral = false) ∧
        ∀ i m cs, o.tree = .group i m .alternative cs →
          ∃ b, o.binding = some b ∧ o.type = some b.type ∧ b.node = i ∧
            (b.type ≠ .bool → ∃ vs, b.type = .union vs ∧ Mirrors cs vs) := by
  obtain ⟨sol, hsol⟩ := exists_solvedAs hw
  refine ⟨sol, hsol, fun o ho => ⟨?_, fun i m cs htree => ?_⟩⟩
  · exact not_isLiteral_type (exists_outline_of_mem t [] {} o ho)
  · obtain ⟨b, hnode, hchoice⟩ := exists_isChoice hw ho htree
    refine ⟨b, hchoice.binding, hchoice.type, hnode, fun hne => ?_⟩
    rcases hchoice.cases with ⟨-, hbool⟩ | ⟨vs, hunion, hvs⟩
    · exact absurd hbool hne
    · refine ⟨vs, hunion, ?_, ?_⟩
      · rw [← hchoice.trees, List.forall₂_map_left_iff]
        exact hvs.imp fun p v => Becomes.variantOf
      · rw [names_eq hvs]
        exact hchoice.names

end Tree

def Arena.mixed : Arena := ⟨#[
  ⟨.terminal (.literal "x"), none⟩,
  ⟨.terminal (.literal "-x"), none⟩,
  ⟨.terminal (.literal "7"), none⟩,
  ⟨.terminal .str, some { name := some "y" }⟩,
  ⟨.group (.sequence none) [3], none⟩,
  ⟨.group .alternative [0, 1, 2, 4], none⟩]⟩

def mixedVariants : List (String × ValueType) := [
  ("x", .literal (.str "x")),
  ("x_2", .literal (.str "-x")),
  ("7", .literal (.int 7)),
  ("variant_3", .struct [("@type", .literal (.str "variant_3")), ("y", .scalar .str)])]

theorem Tree.type_mixed :
    ((Arena.mixed.tree 5).outline [] {}).1.type = some (.union mixedVariants) := rfl

theorem Arena.whole_mixed : (Arena.mixed.tree 5).Whole :=
  Tree.whole_of_holds (Arena.holds_tree (by decide) (by decide))

namespace Tree

theorem solve_variants_mixed : (Arena.mixed.tree 5).Whole ∧
    ∃ sol, (Arena.mixed.tree 5).solve = .ok sol ∧ sol.rootType = some (.union mixedVariants) ∧
      Mirrors (Arena.mixed.tree 5).children mixedVariants := by
  have hw := Arena.whole_mixed
  obtain ⟨sol, hsol, hall⟩ := solve_variants hw
  have hroot := Outline.mem_postorder_self ((Arena.mixed.tree 5).outline [] {}).1
  obtain ⟨b, -, htype, -, hb⟩ := (hall _ hroot).2 5 none (Arena.mixed.tree 5).children rfl
  have hunion : b.type = .union mixedVariants := Option.some.inj (htype.symm.trans type_mixed)
  obtain ⟨vs, hvs, hmirrors⟩ := hb (by rw [hunion]; exact nofun)
  obtain rfl := ValueType.union.inj (hunion.symm.trans hvs)
  exact ⟨hw, sol, hsol.solve, hsol.rootType.trans type_mixed, hmirrors⟩

/-- The variants of a union can be told apart by their discriminators exactly if no child that is boxed
goes by the name of the discriminator. -/
theorem solve_discriminated_iff {t : Tree} (hw : t.Whole) :
    ∃ sol, t.SolvedAs sol (t.outline [] {}).1 ∧
      ∀ o ∈ (t.outline [] {}).1.postorder, ∀ i m cs, o.tree = .group i m .alternative cs →
        ∃ b, o.binding = some b ∧ b.node = i ∧ ∀ vs, b.type = .union vs →
          (Discriminated vs ↔ ∀ p ∈ o.parts, p.2.isBoxed = true →
            p.2.tree.nearestName ≠ .ok (some discriminator)) := by
  obtain ⟨sol, hsol⟩ := exists_solvedAs hw
  refine ⟨sol, hsol, fun o ho i m cs htree => ?_⟩
  obtain ⟨b, hnode, hchoice⟩ := exists_isChoice hw ho htree
  refine ⟨b, hchoice.binding, hnode, fun vs hvs => ?_⟩
  rcases hchoice.cases with ⟨-, hbool⟩ | ⟨es, hunion, hes⟩
  · rw [hbool] at hvs
    cases hvs
  · rw [hunion] at hvs
    obtain rfl := ValueType.union.inj hvs
    rw [forall_mem_iff_of_forall₂ (hes.imp fun p v => Becomes.tells_iff)]
    refine ⟨Discriminated.tells, .of_tells ?_⟩
    rw [names_eq hes]
    exact hchoice.names

theorem solve_discriminated_mixed : (Arena.mixed.tree 5).Whole ∧
    ∃ sol, (Arena.mixed.tree 5).solve = .ok sol ∧ sol.rootType = some (.union mixedVariants) ∧
      Discriminated mixedVariants := by
  have hw := Arena.whole_mixed
  obtain ⟨sol, hsol, hall⟩ := solve_discriminated_iff hw
  have hroot := Outline.mem_postorder_self ((Arena.mixed.tree 5).outline [] {}).1
  obtain ⟨b, hb, -, hiff⟩ := hall _ hroot 5 none (Arena.mixed.tree 5).children rfl
  have hunion : b.type = .union mixedVariants := by
    cases hb
    exact Option.some.inj type_mixed
  refine ⟨hw, sol, hsol.solve, hsol.rootType.trans type_mixed, (hiff _ hunion).2 ?_⟩
  have hname : ("y" : String) ≠ discriminator := by decide
  exact List.forall_mem_cons.2 ⟨nofun, List.forall_mem_cons.2 ⟨nofun, List.forall_mem_cons.2
    ⟨nofun, List.forall_mem_singleton.2 fun _ h => hname (Option.some.inj (Except.ok.inj h))⟩⟩⟩

end Tree

def Arena.misnamed : Arena := ⟨#[
  ⟨.terminal .str, some { name := some "@type" }⟩,
  ⟨.terminal (.int none none), some { name := some "y" }⟩,
  ⟨.group .alternative [0, 1], none⟩]⟩

/-- The value by the name of the discriminator takes its place. -/
theorem Tree.not_discriminated_misnamed : ∃ sol vs, (Arena.misnamed.tree 2).solve = .ok sol ∧
    sol.rootType = some (.union vs) ∧
    ("@type", .struct [("@type", .scalar .str)]) ∈ vs ∧ ¬ Discriminated vs :=
  ⟨_, _, rfl, rfl, List.mem_cons_self, fun h =>
    absurd (h.tells _ List.mem_cons_self rfl) (by decide)⟩

end ToolBindings
