import ToolBindings.Proofs.Building
import ToolBindings.Proofs.Formed
import ToolBindings.Proofs.Preserve

/-!
# Bounds of repetitions

No rewrite makes a repetition with bounds that contradict each other: the bounds of two repetitions are
only put together where some number is within both. So no pass makes one of a tree without such bounds,
and the tree of a descriptor has none to begin with (`bounds_agree`).
-/
namespace ToolBindings
open ToolBindings.Tree

theorem Simplify.consistent_of_mergeWrappers {w w' v : Wrapper}
    (h : mergeWrappers? w w' = some v) : v.Consistent := by
  cases w <;> cases w'
  · cases h
    exact Descriptor.consistent_optional
  · cases h
  · cases h
  · intro joint lo hi hv
    subst hv
    simp only [mergeWrappers?] at h
    split at h
    · cases h
    · next hnot =>
      obtain ⟨-, hlo, hhi⟩ := Wrapper.repetition.inj (Option.some.inj h)
      rw [hlo, hhi] at hnot
      simpa [contradict] using hnot

namespace Tree

theorem Consistent.children {t : Tree} (h : t.Consistent) : ∀ c ∈ t.children, c.Consistent :=
  (forall_preorder.1 h).2

theorem Consistent.renewed {t : Tree} (h : t.Consistent) (j : NodeId) (m : Option Metadata) :
    (t.renewed j m).Consistent := by
  cases t with
  | missing => exact h
  | terminal => exact consistent_terminal
  | wrap => exact consistent_wrap.2 (consistent_wrap.1 h)
  | group => exact consistent_group.2 (consistent_group.1 h)

end Tree

def KeepsConsistent (t u : Tree) : Prop := t.Consistent → u.Consistent

theorem consistent_of_forall₂ {bs cs : List Tree} (h : List.Forall₂ KeepsConsistent bs cs)
    (hbs : ∀ b ∈ bs, b.Consistent) : ∀ c ∈ cs, c.Consistent := by
  intro c hc
  obtain ⟨b, hb, hbc⟩ := exists_of_forall₂ h hc
  exact hbc (hbs b hb)

theorem regroup_keepsConsistent {choose : Group → List Tree → List Tree × Bool}
    (hc : ∀ g {cs}, (∀ c ∈ cs, c.Consistent) → ∀ c ∈ (choose g cs).1, c.Consistent) :
    Step.Preserves (regroup choose) KeepsConsistent := by
  apply regroup_preserves
  · intro i j m w b c hbc hb
    obtain ⟨hw, hb⟩ := consistent_wrap.1 hb
    exact consistent_wrap.2 ⟨hw, hbc hb⟩
  · intro i j m g bs cs hcs hbs
    exact consistent_group.2 (hc g (consistent_of_forall₂ hcs (consistent_group.1 hbs)))

theorem Flatten.step_keepsConsistent : Step.Preserves (regroup flattened) KeepsConsistent :=
  regroup_keepsConsistent (forall_mem_flattened Tree.Consistent.children)

theorem Prune.step_keepsConsistent : Step.Preserves (regroup pruned) KeepsConsistent :=
  regroup_keepsConsistent forall_mem_pruned

theorem Canonical.step_keepsConsistent : Step.Preserves (regroup ordered) KeepsConsistent :=
  regroup_keepsConsistent forall_mem_ordered

namespace Simplify

theorem Fuses.consistent {cs ds : List Tree} {fused : Bool} (h : Fuses cs ds fused)
    (hcs : ∀ c ∈ cs, c.Consistent) : ∀ d ∈ ds, d.Consistent :=
  h.forall_mem (fun _ _ => consistent_terminal) hcs

theorem step_keepsConsistent : Step.Preserves step KeepsConsistent := by
  refine step_preserves fun hcs hmakes ht => ?_
  have hnew := consistent_of_forall₂ hcs ht.children
  cases hmakes with
  | merged hv =>
    have hinner := hnew _ List.mem_cons_self
    exact consistent_wrap.2 ⟨consistent_of_mergeWrappers hv, (consistent_wrap.1 hinner).2⟩
  | wrap => exact consistent_wrap.2 ⟨(consistent_wrap.1 ht).1, hnew _ List.mem_cons_self⟩
  | onlyChild hfuse => exact (hfuse.consistent hnew _ List.mem_cons_self).renewed _ _
  | sequence hfuse => exact consistent_group.2 (hfuse.consistent hnew)
  | onlyChoice => exact hnew _ List.mem_cons_self
  | choice => exact consistent_group.2 hnew

end Simplify

theorem Rewrite.step_keepsConsistent (r : Rewrite) : Step.Preserves r.step KeepsConsistent := by
  cases r with
  | flatten => exact Flatten.step_keepsConsistent
  | prune => exact Prune.step_keepsConsistent
  | simplify => exact Simplify.step_keepsConsistent
  | canonicalize => exact Canonical.step_keepsConsistent

namespace Tree

/-- The bounds of a repetition agree in the tree of a descriptor, and if they do in a tree, they do in
what a pass makes of it. -/
theorem bounds_agree :
    (∀ source, ((Descriptor.parse source).arena.tree
      (Descriptor.parse source).tree.id).Consistent) ∧
    ∀ {a : Arena} {root : NodeId}, a.Holds (a.tree root) → (a.tree root).Consistent →
      (∀ p : Pass Rewrite, ∃ out b, (p.apply (a.tree root)).run a = (.ok out, b) ∧
        (b.tree out.tree.id).Consistent) ∧
      ∀ o : NormalizeOptions, ∃ out b, ((a.tree root).normalize o).run a = (.ok out, b) ∧
        (b.tree out.tree.id).Consistent := by
  have hpass : ∀ {a : Arena} {root : NodeId}, a.Holds (a.tree root) → (a.tree root).Consistent →
      ∀ p : Pass Rewrite, ∃ out b, (p.apply (a.tree root)).run a = (.ok out, b) ∧
        (b.tree out.tree.id).Consistent := by
    intro a root ht hroot p
    obtain ⟨out, b, hrun, hrec, hkeeps⟩ := Pass.exists_apply_preserves (fun _ h => h)
      (fun h h' ht => h' (h ht)) (fun r (_ : r ∈ p.parts) => r.step_keepsConsistent) ht
    refine ⟨out, b, hrun, ?_⟩
    rw [Arena.tree_id_of_holds hrec.holds]
    exact hkeeps hroot
  refine ⟨fun source => ?_, fun ht hroot => ⟨hpass ht hroot, fun o => hpass ht hroot o.pass⟩⟩
  rw [(Descriptor.parse_one_tree source).1]
  exact (Descriptor.formed_parse source).consistent

end Tree

def Arena.counted : Arena := ⟨#[
  ⟨.terminal .str, none⟩,
  ⟨.wrap (.repetition none (some 2) (some 5)) 0, none⟩,
  ⟨.wrap (.repetition none (some 1) (some 3)) 1, none⟩]⟩

theorem Tree.bounds_agree_counted : Arena.counted.Holds (Arena.counted.tree 2) ∧
    (Arena.counted.tree 2).Consistent ∧
    ∃ out b, ((Arena.counted.tree 2).normalize {}).run Arena.counted = (.ok out, b) ∧
      (b.tree out.tree.id).Consistent := by
  have hholds : Arena.counted.Holds (Arena.counted.tree 2) :=
    Arena.holds_tree (by decide) (by decide)
  have hconsistent : (Arena.counted.tree 2).Consistent := by
    refine consistent_wrap.2 ⟨?_, consistent_wrap.2 ⟨?_, consistent_terminal⟩⟩ <;>
      rintro _ _ _ ⟨⟩ <;> decide
  exact ⟨hholds, hconsistent, (bounds_agree.2 hholds hconsistent).2 {}⟩
end ToolBindings
