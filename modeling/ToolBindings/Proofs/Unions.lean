import ToolBindings.Proofs.Sweep
import ToolBindings.Proofs.Variants

/-!
# Unions in types

The type of a node is put together from the types of its children, and tagging a variant only adds a
field to it. So every union that occurs in the type of a binding, however deep, is the type of some
choice in the tree as solving finds it there (`solve_unions`).
-/
namespace ToolBindings
open Solving

namespace ValueType
variable {P : List (String × ValueType) → Prop}

def Unions (P : List (String × ValueType) → Prop) (t : ValueType) : Prop :=
  ∀ vs, union vs ∈ t.parts → P vs

theorem mem_partsAll {t : ValueType} {fs : List (String × ValueType)} :
    t ∈ partsAll fs ↔ ∃ f ∈ fs, t ∈ f.2.parts := by
  induction fs with
  | nil => simp [partsAll]
  | cons f fs ih => simp [partsAll, ih]

theorem unions_scalar (s : Scalar) : (scalar s).Unions P := by simp [Unions, parts]

theorem unions_bool : bool.Unions P := by simp [Unions, parts]

theorem unions_literal (l : Literal) : (literal l).Unions P := by simp [Unions, parts]

theorem unions_struct {fs : List (String × ValueType)} :
    (struct fs).Unions P ↔ ∀ f ∈ fs, f.2.Unions P := by
  simp only [Unions, parts, List.mem_cons, reduceCtorEq, false_or, mem_partsAll]
  refine ⟨fun h f hf vs hvs => h vs ⟨f, hf, hvs⟩, fun h vs hvs => ?_⟩
  obtain ⟨f, hf, hvs⟩ := hvs
  exact h f hf vs hvs

theorem unions_union {vs : List (String × ValueType)} :
    (union vs).Unions P ↔ P vs ∧ ∀ v ∈ vs, v.2.Unions P := by
  simp only [Unions, parts, List.mem_cons, union.injEq, forall_eq_or_imp, mem_partsAll]
  refine and_congr_right fun _ => ⟨fun h v hv us hus => h us ⟨v, hv, hus⟩, fun h us hus => ?_⟩
  obtain ⟨v, hv, hus⟩ := hus
  exact h v hv us hus

theorem unions_wrapperType {w : Wrapper} {type : Option ValueType}
    (h : ∀ t ∈ type, t.Unions P) : (wrapperType w type).Unions P := by
  cases type with
  | none => cases w <;> simp [wrapperType, Unions, parts]
  | some t =>
    have ht : t.Unions P := h t rfl
    cases w <;> simpa [wrapperType, Unions, parts] using ht

end ValueType
open ValueType

variable {P : List (String × ValueType) → Prop}

theorem Solving.unions_tagged {v : Variant} {e : String × ValueType} (h : v.type.Unions P)
    (he : tagged v = .ok e) : e.2.Unions P := by
  have htag : ∀ f ∈ [(discriminator, literal (.str v.name))], f.2.Unions P :=
    List.forall_mem_singleton.2 (unions_literal _)
  unfold tagged at he
  split at he
  · next l hl =>
    cases he
    exact unions_literal l
  · next fields hfields =>
    cases he
    rw [hfields, unions_struct] at h
    refine unions_struct.2 fun f hf => ?_
    rcases OrderedMap.mem_insertAll f hf with hf | hf
    · exact htag f hf
    · exact h f (List.mem_of_mem_filter hf)
  · cases hn : v.tree.nearestName with
    | error e' =>
      rw [hn] at he
      cases he
    | ok n =>
      rw [hn] at he
      cases he
      refine unions_struct.2 fun f hf => ?_
      rcases OrderedMap.mem_insert f hf with rfl | hf
      · exact h
      · exact htag f hf

theorem Outline.unions_variant {p : String × Outline} (h : ∀ type ∈ p.2.type, type.Unions P) :
    (variant p).type.Unions P := by
  unfold variant variantType
  cases htype : p.2.type with
  | some type => exact h type htype
  | none =>
    cases p.2.tree.literal? with
    | some text => exact unions_literal _
    | none => exact unions_bool

namespace Tree
variable {t : Tree}

theorem exists_becomes_of_union (hw : t.Whole) {i : NodeId} {m : Option Metadata} {cs : List Tree}
    (hgroup : t = group i m .alternative cs) {path : List String} {k : Counter}
    {vs : List (String × ValueType)} (h : (t.outline path k).1.type = some (.union vs)) :
    List.Forall₂ Outline.Becomes (t.outline path k).1.parts vs ∧
      (t.outline path k).1.parts.map (·.2.tree) = cs ∧ (vs.map Prod.fst).Nodup := by
  obtain ⟨b, -, hchoice⟩ := exists_isChoice hw (Outline.mem_postorder_self _)
    ((tree_outline t path k).trans hgroup)
  have hb : b.type = .union vs := Option.some.inj (hchoice.type.symm.trans h)
  rcases hchoice.cases with ⟨-, hbool⟩ | ⟨us, hunion, hus⟩
  · rw [hbool] at hb
    cases hb
  · obtain rfl := ValueType.union.inj (hunion.symm.trans hb)
    exact ⟨hus, hchoice.trees, Outline.names_eq hus ▸ hchoice.names⟩

theorem type_of_choice {i : NodeId} {m : Option Metadata} {cs : List Tree}
    (hgroup : t = group i m .alternative cs) {path : List String} {k : Counter} :
    ∀ type ∈ (t.outline path k).1.type, type = .bool ∨ ∃ vs, type = .union vs := by
  subst hgroup
  intro type htype
  exact Option.some.inj htype ▸ choiceTypeOf_cases _

def ChoiceVariants (P : List (String × ValueType) → Prop) (t : Tree) : Prop :=
  ∀ s ∈ t.preorder, ∀ i m cs, s = group i m .alternative cs →
    ∀ path k vs, (s.outline path k).1.type = some (.union vs) → P vs

theorem unions_type (hw : t.Whole) (h : t.ChoiceVariants P) :
    ∀ path k, ∀ type ∈ (t.outline path k).1.type, type.Unions P := by
  refine forall_type_of_parts unions_scalar (fun w _ => unions_wrapperType)
    (fun _ _ => unions_struct.2) t ?_
  intro s hs i m cs hgroup path k hparts type htype
  rcases type_of_choice hgroup type htype with rfl | ⟨vs, rfl⟩
  · exact unions_bool
  · obtain ⟨hvs, -, -⟩ := exists_becomes_of_union (hw.of_mem s hs) hgroup htype
    refine unions_union.2 ⟨h s hs i m cs hgroup path k vs htype, fun v hv => ?_⟩
    obtain ⟨p, hp, hpv⟩ := exists_of_forall₂ hvs hv
    exact unions_tagged (Outline.unions_variant (hparts p hp)) hpv.tagged

theorem type_of_binding {path : List String} {k : Counter} :
    ∀ b ∈ (t.outline path k).1.binding, (t.outline path k).1.type = some b.type := by
  intro b hb
  unfold outline at hb ⊢
  split at hb
  · cases hb
  · split at hb <;> cases hb
    rfl
  · cases hb
    rfl
  · dsimp only [sequenceAt] at hb ⊢
    split at hb <;> cases hb
    rfl
  · cases hb
    rfl

/-- What holds of the variants of every choice holds of the variants of every union in a binding. -/
theorem solve_unions (hw : t.Whole) (h : t.ChoiceVariants P) :
    ∃ sol, t.SolvedAs sol (t.outline [] {}).1 ∧
      ∀ b ∈ sol.registry.toList, b.type.Unions P := by
  obtain ⟨sol, hsol⟩ := exists_solvedAs hw
  refine ⟨sol, hsol, fun b hb => ?_⟩
  rw [hsol.bindings] at hb
  obtain ⟨o, ho, hob⟩ := List.mem_filterMap.1 hb
  obtain ⟨path, k, hown⟩ := exists_outline_of_mem t [] {} o ho
  have hmem : o.tree ∈ t.preorder := by
    rw [← t.postorder_perm.mem_iff, ← trees_postorder t [] {}]
    exact List.mem_map_of_mem ho
  have hbelow : o.tree.ChoiceVariants P := forall_preorder_of_mem h o.tree hmem
  rw [hown] at hob
  exact unions_type (hw.of_mem _ hmem) hbelow path k b.type (type_of_binding b hob)

end Tree
end ToolBindings
