import ToolBindings.Proofs.Arguments
import ToolBindings.Proofs.Preserve
import ToolBindings.Proofs.Unplaced

/-!
# Flattening and arguments

Arguments that are joined in parts and then as a whole, each time with the same joint, are joined as if
there were no parts. So the children of a sequence may take its place in a sequence with the same joint,
also where it has none or gives nothing, and the choices of a choice its place in a choice. Flattening
keeps the argument vectors of every tree (`flatten_argvs`).
-/
namespace ToolBindings

theorem glued_glued_self (joint : Option String) (l : Argvs) :
    glued joint (glued joint l) = glued joint l := by
  refine glued_eq_self fun args hargs => ?_
  obtain ⟨as, -, rfl⟩ := hargs
  exact joined_joined_self joint as

namespace Flatten
open ToolBindings.Tree

theorem sameUnder_inlined (joint : Option String) (c : Tree) :
    SameUnder joint (argvsAll (inlined (.sequence joint) c)).prod c.argvs := by
  cases hd : dissolves (.sequence joint) c with
  | true =>
    obtain ⟨k, ds, rfl⟩ := dissolves_iff.1 hd
    rw [inlined_of_dissolves]
    exact (glued_glued_self joint (argvsAll ds).prod).symm
  | false =>
    rw [inlined_of_not_dissolves hd, argvsAll, argvsAll, List.prod_singleton]
    exact .refl joint c.argvs

theorem sum_inlined (c : Tree) : (argvsAll (inlined .alternative c)).sum = c.argvs := by
  cases hd : dissolves .alternative c with
  | true =>
    obtain ⟨k, ds, rfl⟩ := dissolves_iff.1 hd
    rw [inlined_of_dissolves]
    rfl
  | false => rw [inlined_of_not_dissolves hd, argvsAll, argvsAll, List.sum_singleton]

theorem argvs_flattened (g : Group) (cs : List Tree) :
    g.argvs (argvsAll (flattened g cs).1) = g.argvs (argvsAll cs) := by
  cases g with
  | sequence joint =>
    change SameUnder joint (argvsAll (cs.flatMap (inlined (.sequence joint)))).prod (argvsAll cs).prod
    induction cs with
    | nil => exact .refl joint 1
    | cons c cs ih =>
      rw [List.flatMap_cons, argvsAll_append, List.prod_append, argvsAll, List.prod_cons]
      exact (sameUnder_inlined joint c).mul ih
  | alternative =>
    change (argvsAll (cs.flatMap (inlined .alternative))).sum = (argvsAll cs).sum
    induction cs with
    | nil => rfl
    | cons c cs ih =>
      rw [List.flatMap_cons, argvsAll_append, List.sum_append, sum_inlined, ih, argvsAll,
        List.sum_cons]

theorem step_preserves_argvs :
    Step.Preserves (regroup flattened) fun t u => u.argvs = t.argvs := by
  apply regroup_preserves
  · intro i j m w b c hbc
    rw [argvs, argvs, hbc]
  · intro i j m g bs cs hcs
    have hall : argvsAll cs = argvsAll bs := by
      rw [argvsAll_eq_map, argvsAll_eq_map]
      exact map_eq_of_forall₂ hcs
    rw [argvs, argvs, argvs_flattened, hall]

end Flatten

namespace Tree
variable {a : Arena} {root : NodeId}

/-- Flattening keeps the argument vectors. -/
theorem flatten_argvs (h : a.Holds (a.tree root)) :
    ∃ out b, (Rewrite.flatten.run (a.tree root)).run a = (.ok out, b) ∧
      (b.tree out.tree.id).argvs = (a.tree root).argvs := by
  have hkeeps : SweepRelation Rewrite.flatten.step fun _ t r _ => r.tree.argvs = t.argvs :=
    preserves_relation (R := fun t u => u.argvs = t.argvs) (fun _ => rfl) Flatten.step_preserves_argvs
  obtain ⟨r, b, hrun, hrec, -⟩ := Rewrite.flatten.exists_rewrite h
  refine ⟨_, b, Rewrite.run_of_rewrite hrun, ?_⟩
  rw [Arena.tree_id_of_holds hrec.holds]
  exact Rewrite.relation_of_rewrite h hrun hkeeps

end Tree

def Arena.commas : Arena := ⟨#[
  ⟨.terminal .str, none⟩,
  ⟨.wrap .optional 0, none⟩,
  ⟨.terminal (.literal ""), none⟩,
  ⟨.group (.sequence (some ",")) [1, 2], none⟩,
  ⟨.group (.sequence (some ",")) [], none⟩,
  ⟨.group (.sequence (some ",")) [3, 4], none⟩]⟩

theorem Tree.flatten_argvs_commas : Arena.commas.Holds (Arena.commas.tree 5) ∧
    ∃ out b, (Rewrite.flatten.run (Arena.commas.tree 5)).run Arena.commas = (.ok out, b) ∧
      out.status = .changed ∧ (b.tree out.tree.id).argvs = (Arena.commas.tree 5).argvs := by
  have hholds : Arena.commas.Holds (Arena.commas.tree 5) :=
    Arena.holds_tree (by decide) (by decide)
  obtain ⟨out, b, hrun, hargvs⟩ := flatten_argvs hholds
  have hstatus : out.status = .changed := by
    cases hrun
    rfl
  exact ⟨hholds, out, b, hrun, hstatus, hargvs⟩

end ToolBindings
