import ToolBindings.Proofs.Variants

/-!
# Choices that are flags

A choice is a flag exactly if it is one between two literals with the texts 0 and 1 or false and true, in
either order (`solve_flag_iff`). A literal keeps its text, since a number is read only from the text that it
is written as, so neither `00` nor `+1` is a side of a flag. A child that is no literal is not one either,
because no node has a literal for its type.
-/
namespace ToolBindings
open Solving

def flagTexts : List (String × String) :=
  [("0", "1"), ("1", "0"), ("false", "true"), ("true", "false")]

/-- The trees are two literals with the texts of a flag. -/
def Tree.OffersFlag (cs : List Tree) : Prop :=
  ∃ c d s u, cs = [c, d] ∧ c.literal? = some s ∧ d.literal? = some u ∧ (s, u) ∈ flagTexts

namespace Solving

namespace Flag

def other : Flag → Flag
  | digit on => digit (!on)
  | word on => word (!on)

def text : Flag → String
  | digit false => "0"
  | digit true => "1"
  | word false => "false"
  | word true => "true"

theorem mem_flagTexts_iff {s u : String} :
    (s, u) ∈ flagTexts ↔ ∃ f : Flag, s = f.text ∧ u = f.other.text := by
  constructor
  · intro h
    simp only [flagTexts, List.mem_cons, Prod.mk.injEq, List.not_mem_nil, or_false] at h
    rcases h with h | h | h | h
    · exact ⟨digit false, h⟩
    · exact ⟨digit true, h⟩
    · exact ⟨word false, h⟩
    · exact ⟨word true, h⟩
  · rintro ⟨(_ | _) | (_ | _), rfl, rfl⟩ <;> decide

end Flag

theorem isFlagPair_iff {ts : List ValueType} : isFlagPair ts = true ↔
    ∃ s t f, ts = [s, t] ∧ flag? s = some f ∧ flag? t = some f.other := by
  constructor
  · intro h
    unfold isFlagPair at h
    split at h
    · next s t =>
      split at h
      · next x y hs ht =>
        refine ⟨s, t, .digit x, rfl, hs, ?_⟩
        rw [ht, Flag.other, Bool.eq_not.2 (Ne.symm (bne_iff_ne.1 h))]
      · next x y hs ht =>
        refine ⟨s, t, .word x, rfl, hs, ?_⟩
        rw [ht, Flag.other, Bool.eq_not.2 (Ne.symm (bne_iff_ne.1 h))]
      · cases h
    · cases h
  · rintro ⟨s, t, f, rfl, hs, ht⟩
    simp only [isFlagPair, hs, ht]
    cases f <;> simp [Flag.other]

theorem plain_of_flag? {l : Literal} {f : Flag} (h : flag? (.literal l) = some f) :
    l.plain = f.text := by
  unfold flag? at h
  split at h
  · next heq =>
    cases heq
    cases h
    rfl
  · next heq =>
    cases heq
    cases h
    rfl
  · next s heq =>
    cases heq
    split_ifs at h with hzero hone hfalse htrue <;> cases h
    · exact hzero
    · exact hone
    · exact hfalse
    · exact htrue
  · cases h

theorem flag?_literalValue_iff {text : String} {f : Flag} :
    flag? (.literal (literalValue text)) = some f ↔ text = f.text := by
  constructor
  · intro h
    rw [← plain_of_flag? h, plain_literalValue]
  · rintro rfl
    rcases f with (_ | _) | (_ | _) <;> decide

end Solving

namespace Outline

/-- A variant is a side of a flag exactly if it stands for a literal with the text of that side. -/
theorem flag?_variant_iff {p : String × Outline} (ho : p.2.IsOwn) {f : Flag} :
    flag? (variant p).type = some f ↔ p.2.tree.literal? = some f.text := by
  cases h : p.2.tree.literal? with
  | some text => rw [variant_of_literal? ho h, flag?_literalValue_iff, Option.some_inj]
  | none =>
    have hlit := isLiteral_variant ho
    rw [Tree.isLiteral, h] at hlit
    constructor
    · intro hf
      exact Bool.noConfusion (hlit.symm.trans (isLiteral_of_flag? hf))
    · intro hf
      cases hf

theorem isFlagPair_variants_iff {ps : List (String × Outline)} (ho : ∀ p ∈ ps, p.2.IsOwn) :
    isFlagPair (ps.map fun p => (variant p).type) = true ↔
      Tree.OffersFlag (ps.map (·.2.tree)) := by
  rw [isFlagPair_iff]
  constructor
  · rintro ⟨s, t, f, hts, hs, ht⟩
    obtain ⟨p, qs, rfl, rfl, hqs⟩ := List.map_eq_cons_iff.1 hts
    obtain ⟨q, rfl, rfl⟩ := List.map_eq_singleton_iff.1 hqs
    obtain ⟨hp, hq⟩ := List.forall_mem_cons.1 ho
    refine ⟨p.2.tree, q.2.tree, f.text, f.other.text, rfl, (flag?_variant_iff hp).1 hs, ?_, ?_⟩
    · exact (flag?_variant_iff (hq q List.mem_cons_self)).1 ht
    · exact Flag.mem_flagTexts_iff.2 ⟨f, rfl, rfl⟩
  · rintro ⟨c, d, s, u, hcs, hc, hd, hmem⟩
    obtain ⟨f, rfl, rfl⟩ := Flag.mem_flagTexts_iff.1 hmem
    obtain ⟨p, qs, rfl, rfl, hqs⟩ := List.map_eq_cons_iff.1 hcs
    obtain ⟨q, rfl, rfl⟩ := List.map_eq_singleton_iff.1 hqs
    obtain ⟨hp, hq⟩ := List.forall_mem_cons.1 ho
    refine ⟨_, _, f, rfl, (flag?_variant_iff hp).2 hc, ?_⟩
    exact (flag?_variant_iff (hq q List.mem_cons_self)).2 hd

theorem IsChoice.bool_iff_offersFlag {o : Outline} {cs : List Tree} {b : Binding}
    (h : o.IsChoice cs b) (ho : o.IsOwn) : b.type = .bool ↔ Tree.OffersFlag cs := by
  obtain ⟨path, k, hown⟩ := ho
  rw [h.bool_iff, isFlagPair_variants_iff (isOwn_of_part hown), h.trees]

end Outline
open Outline

namespace Tree

/-- A choice anywhere in a tree is bound to a flag exactly if it has two children, both literals, with the
texts of a flag. -/
theorem solve_flag_iff {t : Tree} (hw : t.Whole) : ∃ sol, t.SolvedAs sol (t.outline [] {}).1 ∧
    ∀ o ∈ (t.outline [] {}).1.postorder, ∀ i m cs, o.tree = .group i m .alternative cs →
      ∃ b, o.binding = some b ∧ o.type = some b.type ∧ b.node = i ∧
        (b.type = .bool ↔ OffersFlag cs) := by
  obtain ⟨sol, hsol⟩ := exists_solvedAs hw
  refine ⟨sol, hsol, fun o ho i m cs htree => ?_⟩
  obtain ⟨b, hnode, hchoice⟩ := exists_isChoice hw ho htree
  refine ⟨b, hchoice.binding, hchoice.type, hnode, hchoice.bool_iff_offersFlag ?_⟩
  exact exists_outline_of_mem t [] {} o ho

end Tree

def Arena.switches : Arena := ⟨#[
  ⟨.terminal (.literal "0"), none⟩,
  ⟨.terminal (.literal "false"), none⟩,
  ⟨.terminal (.literal "true"), some { name := some "on" }⟩,
  ⟨.group .alternative [2, 1], none⟩,
  ⟨.group .alternative [0, 2], none⟩]⟩

theorem Tree.solve_flag_iff_switches :
    (Arena.switches.tree 3).Whole ∧ (Arena.switches.tree 4).Whole ∧
    (∃ sol, (Arena.switches.tree 3).solve = .ok sol ∧ sol.rootType = some .bool) ∧
    ∃ sol type, (Arena.switches.tree 4).solve = .ok sol ∧ sol.rootType = some type ∧
      type ≠ .bool := by
  have hflag : (Arena.switches.tree 3).Whole := whole_of_holds (Arena.holds_tree (by decide) (by decide))
  have hmixed : (Arena.switches.tree 4).Whole := whole_of_holds (Arena.holds_tree (by decide) (by decide))
  refine ⟨hflag, hmixed, ?_, ?_⟩
  · obtain ⟨sol, hsol, hall⟩ := solve_flag_iff hflag
    obtain ⟨b, -, htype, -, hiff⟩ := hall _ (mem_postorder_self _) 3 none
      (Arena.switches.tree 3).children rfl
    have hbool : b.type = .bool := hiff.2 ⟨_, _, "true", "false", rfl, rfl, rfl, by decide⟩
    exact ⟨sol, hsol.solve, hsol.rootType.trans (hbool ▸ htype)⟩
  · obtain ⟨sol, hsol, hall⟩ := solve_flag_iff hmixed
    obtain ⟨b, -, htype, -, hiff⟩ := hall _ (mem_postorder_self _) 4 none
      (Arena.switches.tree 4).children rfl
    refine ⟨sol, b.type, hsol.solve, hsol.rootType.trans htype, fun hbool => ?_⟩
    obtain ⟨c, d, s, u, hcs, hs, hu, hmem⟩ := hiff.1 hbool
    cases hcs
    cases hs
    cases hu
    exact absurd hmem (by decide)

end ToolBindings
