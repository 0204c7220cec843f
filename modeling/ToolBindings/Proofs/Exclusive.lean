import ToolBindings.Proofs.Unions
import ToolBindings.Schema

/-!
# Branches of the schema of a union

A value has to match one branch of a schema of a union and no other. The branches that are objects tell
their names apart under the discriminator, because no two variants have one name. The branches that are
constants differ exactly where the literals of the choice have different texts (`solve_exclusive`): a text
that is offered twice is two variants with different names and one constant.
-/
namespace ToolBindings
open Solving

namespace Json

def branches (v : Json) : List Json := ((v.member? "oneOf").bind arr?).getD []

def const? (v : Json) : Option Json := v.member? "const"

def tag? (v : Json) : Option Json :=
  ((v.member? "properties").bind (·.member? discriminator)).bind const?

end Json

def Literal.value : Literal → Json
  | .int n => .int n
  | .str s => .str s

theorem Literal.value_injective : Function.Injective Literal.value := by
  intro k l h
  cases k <;> cases l <;> simp_all [value]

theorem Solving.literalValue_injective : Function.Injective literalValue :=
  fun s t h => by rw [← plain_literalValue s, h, plain_literalValue]

theorem Solving.nodup_of_isFlagPair {ts : List ValueType} (h : isFlagPair ts = true) : ts.Nodup := by
  unfold isFlagPair at h
  split at h
  · next s t =>
    have hne : s ≠ t := by
      rintro rfl
      cases hs : flag? s with
      | none => simp [hs] at h
      | some f => cases f <;> simp [hs] at h
    simp [hne]
  · cases h

namespace ValueType

theorem branches_union (vs : List (String × ValueType)) :
    (union vs).schema.branches = vs.map fun v => v.2.schema := by
  change schemas vs = _
  induction vs with
  | nil => rfl
  | cons v vs ih => rw [schemas, ih, List.map_cons]

theorem const?_literal (l : Literal) : (literal l).schema.const? = some l.value := by
  cases l <;> rfl

theorem const?_struct (fs : List (String × ValueType)) : (struct fs).schema.const? = none := rfl

theorem tag?_literal (l : Literal) : (literal l).schema.tag? = none := by
  cases l <;> rfl

theorem tag?_struct_cons_self (type : ValueType) (fs : List (String × ValueType)) :
    (struct ((discriminator, type) :: fs)).schema.tag? = type.schema.const? := rfl

end ValueType

namespace Outline

theorem const?_type {o : Outline} (ho : o.IsOwn) : ∀ type ∈ o.type, type.schema.const? = none := by
  obtain ⟨path, k, ho⟩ := ho
  rw [ho]
  refine Tree.forall_type_of_parts (fun s => ?_) (fun w type htype => ?_)
    (fun fs _ _ => ValueType.const?_struct fs) o.tree ?_ path k
  · cases s <;> rfl
  · cases type with
    | none => cases w <;> rfl
    | some type =>
      cases w with
      | optional => exact htype type rfl
      | repetition => rfl
  · intro s _ i m cs hgroup path k _ type htype
    rcases Tree.type_of_choice hgroup type htype with rfl | ⟨vs, rfl⟩ <;> rfl

variable {p : String × Outline} {v : String × ValueType}

theorem const?_variant (ho : p.2.IsOwn) (h : p.2.tree.literal? = none) :
    (variant p).type.schema.const? = none := by
  rw [variant_of_not_literal h]
  cases htype : p.2.type with
  | none => rfl
  | some type => exact const?_type ho type htype

theorem Becomes.tag?_eq (h : Becomes p v) : ∀ x ∈ v.2.schema.tag?, x = .str v.1 := by
  have hlit := isLiteral_variant h.own
  cases ht : p.2.tree.literal? with
  | some text =>
    rw [Tree.isLiteral, ht] at hlit
    cases h.tagged.symm.trans (tagged_of_isLiteral hlit)
    obtain ⟨l, hl⟩ := ValueType.exists_of_isLiteral hlit
    rw [hl, ValueType.tag?_literal]
    intro x hx
    cases hx
  | none =>
    rw [Tree.isLiteral, ht] at hlit
    cases hstruct : (variant p).type.isStruct with
    | true =>
      obtain ⟨others, htagged⟩ := tagged_of_isStruct hstruct
      cases h.tagged.symm.trans htagged
      exact fun x hx => (Option.some.inj hx).symm
    | false =>
      obtain ⟨n, hn⟩ := Tree.exists_nearestName p.2.tree h.whole
      cases h.tagged.symm.trans (tagged_boxed hlit hstruct hn)
      rw [OrderedMap.insert]
      split
      · -- The field takes the place of the discriminator, but it is no constant.
        next heq =>
        rw [← heq, ValueType.tag?_struct_cons_self, const?_variant h.own ht]
        intro x hx
        cases hx
      · exact fun x hx => (Option.some.inj hx).symm

theorem nodup_tags {ps : List (String × Outline)} {vs : List (String × ValueType)}
    (h : List.Forall₂ Becomes ps vs) (hnames : (vs.map Prod.fst).Nodup) :
    ((ValueType.union vs).schema.branches.filterMap Json.tag?).Nodup := by
  rw [ValueType.branches_union, List.filterMap_map]
  have hsub : ((vs.filterMap fun v => v.2.schema.tag?).map id).Sublist
      (vs.map fun v => Json.str v.1) := sublist_filterMap fun v hv x hx => by
    obtain ⟨p, -, hpv⟩ := exists_of_forall₂ h hv
    exact hpv.tag?_eq x hx
  rw [List.map_id] at hsub
  have hstr : (vs.map fun v => Json.str v.1).Nodup := by
    have hinj : Function.Injective Json.str := fun s t h => Json.str.inj h
    rw [← Function.comp_def, ← List.map_map]
    exact hnames.map hinj
  exact hstr.sublist hsub

theorem consts_eq {ps : List (String × Outline)} {vs : List (String × ValueType)}
    (h : List.Forall₂ Becomes ps vs) :
    (ValueType.union vs).schema.branches.filterMap Json.const? =
      ((ps.map (·.2.tree)).filterMap Tree.literal?).map fun text => (literalValue text).value := by
  rw [ValueType.branches_union]
  induction h with
  | nil => rfl
  | @cons p v ps vs hpv _ ih =>
    rw [List.map_cons, List.map_cons, List.filterMap_cons, List.filterMap_cons, ih]
    have hlit := isLiteral_variant hpv.own
    cases ht : p.2.tree.literal? with
    | some text =>
      have htype := variant_of_literal? hpv.own ht
      cases hpv.tagged.symm.trans (tagged_of_isLiteral (by rw [htype]; rfl))
      rw [htype, ValueType.const?_literal]
      rfl
    | none =>
      rw [Tree.isLiteral, ht] at hlit
      obtain ⟨fs, rfl⟩ := exists_struct_of_tagged hpv.whole hlit hpv.tagged
      rfl

theorem nodup_of_isFlagPair {ps : List (String × Outline)} (ho : ∀ p ∈ ps, p.2.IsOwn)
    (h : isFlagPair (ps.map fun p => (variant p).type) = true) :
    ((ps.map (·.2.tree)).filterMap Tree.literal?).Nodup := by
  have htypes := List.pairwise_map.1 (Solving.nodup_of_isFlagPair h)
  rw [List.filterMap_map]
  refine List.pairwise_filterMap.2 (htypes.imp_of_mem fun {p q} hp hq hne => ?_)
  rintro text ht _ ht' rfl
  exact hne ((variant_of_literal? (ho p hp) ht).trans (variant_of_literal? (ho q hq) ht').symm)

end Outline
open Outline

namespace Tree

/-- Of the branches of a union no two ask for one constant exactly if no two literals of the choice have
one text. -/
theorem nodup_consts_iff {ps : List (String × Outline)} {vs : List (String × ValueType)}
    (h : List.Forall₂ Becomes ps vs) :
    ((ValueType.union vs).schema.branches.filterMap Json.const?).Nodup ↔
      ((ps.map (·.2.tree)).filterMap literal?).Nodup := by
  have hinj : Function.Injective fun text => (literalValue text).value :=
    Literal.value_injective.comp literalValue_injective
  rw [consts_eq h, List.nodup_map_iff hinj]

/-- The union of the variants comes from a choice of the tree. No two of its branches are objects of one
name, and no two are one constant exactly if the choice offers no text twice. -/
structure Tells (t : Tree) (vs : List (String × ValueType)) : Prop where
  tags : ((ValueType.union vs).schema.branches.filterMap Json.tag?).Nodup
  consts : ∃ s ∈ t.preorder, ∃ i m cs, s = group i m .alternative cs ∧
    (((ValueType.union vs).schema.branches.filterMap Json.const?).Nodup ↔
      (cs.filterMap literal?).Nodup)

theorem choiceVariants_tells {t : Tree} (hw : t.Whole) : t.ChoiceVariants t.Tells := by
  intro s hs i m cs hgroup path k vs htype
  obtain ⟨hvs, htrees, hnames⟩ := exists_becomes_of_union (hw.of_mem s hs) hgroup htype
  exact ⟨nodup_tags hvs hnames, s, hs, i, m, cs, hgroup, htrees ▸ nodup_consts_iff hvs⟩

theorem nodup_literals_of_isChoice {t : Tree} {o : Outline} {cs : List Tree} {b : Binding}
    (ho : o ∈ (t.outline [] {}).1.postorder) (hchoice : o.IsChoice cs b)
    (h : ∀ vs, .union vs ∈ b.type.parts →
      ((ValueType.union vs).schema.branches.filterMap Json.const?).Nodup) :
    (cs.filterMap literal?).Nodup := by
  rw [← hchoice.trees]
  rcases hchoice.cases with ⟨hpair, -⟩ | ⟨vs, hunion, hvs⟩
  · obtain ⟨path, k, hown⟩ := exists_outline_of_mem t [] {} o ho
    exact nodup_of_isFlagPair (isOwn_of_part hown) hpair
  · refine (nodup_consts_iff hvs).1 (h vs ?_)
    rw [hunion, ValueType.parts]
    exact List.mem_cons_self

/-- Of the branches of every union in a binding no two are objects of one name, and no two are one
constant exactly if no choice in the tree offers one text twice. -/
theorem solve_exclusive {t : Tree} (hw : t.Whole) : ∃ sol, t.solve = .ok sol ∧
    (∀ b ∈ sol.registry.toList, ∀ vs, .union vs ∈ b.type.parts →
      ((ValueType.union vs).schema.branches.filterMap Json.tag?).Nodup) ∧
    ((∀ b ∈ sol.registry.toList, ∀ vs, .union vs ∈ b.type.parts →
        ((ValueType.union vs).schema.branches.filterMap Json.const?).Nodup) ↔
      ∀ s ∈ t.walk, ∀ i m cs, s = group i m .alternative cs → (cs.filterMap literal?).Nodup) := by
  obtain ⟨sol, hsol, hunions⟩ := solve_unions hw (choiceVariants_tells hw)
  rw [walk_eq_preorder]
  refine ⟨sol, hsol.solve, fun b hb vs hvs => (hunions b hb vs hvs).tags, fun h s hs i m cs hgroup => ?_,
    fun h b hb vs hvs => ?_⟩
  · rw [← t.postorder_perm.mem_iff, ← hsol.trees] at hs
    obtain ⟨o, ho, rfl⟩ := List.mem_map.1 hs
    obtain ⟨b, -, hchoice⟩ := exists_isChoice hw ho hgroup
    have hb : b ∈ sol.registry.toList := by
      rw [hsol.bindings]
      exact List.mem_filterMap.2 ⟨o, ho, hchoice.binding⟩
    exact nodup_literals_of_isChoice ho hchoice (h b hb)
  · obtain ⟨s, hs, i, m, cs, hgroup, hiff⟩ := (hunions b hb vs hvs).consts
    exact hiff.2 (h s hs i m cs hgroup)

theorem solve_exclusive_mixed : (Arena.mixed.tree 5).Whole ∧
    ∃ sol, (Arena.mixed.tree 5).solve = .ok sol ∧
      sol.registry.toList.map (·.type) = [.scalar .str, .union mixedVariants] ∧
      (ValueType.union mixedVariants).schema.branches.filterMap Json.const? =
        [.str "x", .str "-x", .int 7] ∧
      ((ValueType.union mixedVariants).schema.branches.filterMap Json.const?).Nodup := by
  have hw := Arena.whole_mixed
  obtain ⟨sol, hsol, -, hconsts⟩ := solve_exclusive hw
  have htypes : sol.registry.toList.map (·.type) = [.scalar .str, .union mixedVariants] := by
    cases hsol
    rfl
  have hmem : ValueType.union mixedVariants ∈ sol.registry.toList.map (·.type) := by
    rw [htypes]
    exact List.mem_cons_of_mem _ List.mem_cons_self
  obtain ⟨b, hb, hunion⟩ := List.mem_map.1 hmem
  refine ⟨hw, sol, hsol, htypes, rfl, hconsts.2 ?_ b hb _ (by rw [hunion]; exact List.mem_cons_self)⟩
  rw [walk_eq_preorder]
  refine List.forall_mem_cons.2 ⟨fun i m cs hgroup => ?_, List.forall_mem_cons.2 ⟨nofun,
    List.forall_mem_cons.2 ⟨nofun, List.forall_mem_cons.2 ⟨nofun, List.forall_mem_cons.2 ⟨nofun,
    List.forall_mem_singleton.2 nofun⟩⟩⟩⟩⟩
  cases hgroup
  decide

end Tree

def Arena.doubled : Arena := ⟨#[
  ⟨.terminal (.literal "a"), none⟩,
  ⟨.terminal (.literal "a"), none⟩,
  ⟨.group .alternative [0, 1], none⟩]⟩

def doubledVariants : List (String × ValueType) :=
  [("a", .literal (.str "a")), ("a_2", .literal (.str "a"))]

/-- A value of either variant is the constant of both branches. -/
theorem Tree.not_exclusive_doubled : ∃ sol, (Arena.doubled.tree 2).solve = .ok sol ∧
    sol.registry.toList = [⟨1, 2, "param_0", .union doubledVariants⟩] ∧
    (ValueType.union doubledVariants).schema.branches =
      [.obj [("const", .str "a")], .obj [("const", .str "a")]] ∧
    ¬ ((ValueType.union doubledVariants).schema.branches.filterMap Json.const?).Nodup :=
  ⟨_, rfl, rfl, rfl, fun h => absurd List.mem_cons_self (List.nodup_cons.1 h).1⟩

end ToolBindings
