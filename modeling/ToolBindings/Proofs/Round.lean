import ToolBindings.Proofs.Canonical
import ToolBindings.Proofs.Flatten
import ToolBindings.Proofs.Prune
import ToolBindings.Proofs.Simplify
import ToolBindings.Rewrite.Normalize

/-!
# Rounds

A round runs rewrites one after another on a held tree. It reports a change exactly if the tree has a
redex of one of them, also of a late one, because rewrites before it either change the tree, and then
the round reports that, or leave it as it is (`Round.reports`). Rounds that are repeated end at a tree
without such a redex, or at the cap.
-/
namespace ToolBindings
namespace Rewrite

def step : Rewrite → Step
  | flatten => regroup Flatten.flattened
  | prune => regroup Prune.pruned
  | simplify => Simplify.step
  | canonicalize => regroup Canonical.ordered

def Redex : Rewrite → Tree → Prop
  | flatten => Flatten.Redex
  | prune => Prune.Redex
  | simplify => Simplify.Redex
  | canonicalize => Canonical.Redex

def AnyRedex (rs : List Rewrite) (t : Tree) : Prop := ∃ r ∈ rs, r.Redex t

theorem rewrite_eq_sweep (r : Rewrite) (t : Tree) : r.rewrite t = t.sweep r.step := by
  cases r <;> rfl

theorem step_records (r : Rewrite) : Step.Records r.step := by
  cases r with
  | flatten => exact Flatten.step_records
  | prune => exact Prune.step_records
  | simplify => exact Simplify.step_records
  | canonicalize => exact Canonical.step_records

theorem step_firesAt (r : Rewrite) : Step.FiresAt r.step r.Redex := by
  cases r with
  | flatten => exact regroup_firesAt Flatten.flattened_firesAt
  | prune => exact regroup_firesAt Prune.pruned_firesAt
  | simplify => exact Simplify.step_firesAt
  | canonicalize => exact regroup_firesAt Canonical.ordered_firesAt

variable {a b c : Arena} {t : Tree} {t' : Rewritten} {r : Rewrite}

theorem exists_rewrite (r : Rewrite) (ht : a.Holds t) :
    ∃ t' b, (r.rewrite t).run a = (.ok t', b) ∧ Recorded a t'.tree b ∧
      Reports r.Redex a t t' b := by
  rw [rewrite_eq_sweep]
  exact exists_sweep r.step_records (reports_relation r.step_firesAt) t a ht

theorem relation_of_rewrite {P : Arena → Tree → Rewritten → Arena → Prop}
    (ht : a.Holds t) (h : (r.rewrite t).run a = (.ok t', b)) (hp : SweepRelation r.step P) :
    P a t t' b :=
  sweep_relation r.step_records hp ht (r.rewrite_eq_sweep t ▸ h)

theorem run_of_rewrite (h : (r.rewrite t).run a = (.ok t', b)) :
    (r.run t).run a = (.ok ⟨t'.tree, .ofChange t'.changed, []⟩, b) := by
  rw [run, Rewriting.run_bind h]
  rfl

end Rewrite

inductive Round : List Rewrite → Arena → Tree → Rewritten → Arena → Prop
  | done {a : Arena} {t : Tree} : Round [] a t ⟨t, false⟩ a
  | rewrite {r : Rewrite} {rs : List Rewrite} {a b c : Arena} {t : Tree} {t' u : Rewritten} :
      a.Holds t → (r.rewrite t).run a = (.ok t', b) → Round rs b t'.tree u c →
      Round (r :: rs) a t ⟨u.tree, t'.changed || u.changed⟩ c

namespace Round
variable {rs : List Rewrite} {a b : Arena} {t : Tree} {u : Rewritten}

theorem reports (h : Round rs a t u b) : Reports (Rewrite.AnyRedex rs) a t u b := by
  induction h with
  | done => exact ⟨by simp [Tree.Normal, Rewrite.AnyRedex], fun _ => ⟨rfl, rfl⟩⟩
  | @rewrite r rs a b c t t' u ht hrun _ ih =>
    have hrep := Rewrite.relation_of_rewrite ht hrun (reports_relation r.step_firesAt)
    have hiff : t.Normal (Rewrite.AnyRedex (r :: rs)) ↔
        t.Normal r.Redex ∧ t.Normal (Rewrite.AnyRedex rs) := by
      simp only [Tree.Normal, Rewrite.AnyRedex, List.exists_mem_cons_iff, not_or]
      exact forall₂_and
    refine ⟨?_, fun hu => ?_⟩
    · rw [Bool.or_eq_false_iff, hiff, hrep.unchanged_iff]
      refine and_congr_right fun hnormal => ?_
      rw [ih.unchanged_iff, (hrep.eq_of_unchanged (hrep.unchanged_iff.2 hnormal)).1]
    · obtain ⟨ht', hu⟩ := Bool.or_eq_false_iff.1 hu
      obtain ⟨htree, hb⟩ := hrep.eq_of_unchanged ht'
      obtain ⟨htree', hc⟩ := ih.eq_of_unchanged hu
      exact ⟨htree'.trans htree, hc.trans hb⟩

end Round

def Rewritten.outcome (u : Rewritten) : Outcome :=
  ⟨u.tree, if u.changed then .unsettled else .unchanged, []⟩

namespace Pass
variable {a b : Arena} {t : Tree} {u : Rewritten} {o : Outcome}

theorem exists_runAll_basic (rs : List Rewrite) (o : Outcome)
    (ht : a.Holds o.tree) : ∃ u b, Round rs a o.tree u b ∧ Recorded a u.tree b ∧
      (runAll Rewrite.run Rewrite.name (rs.map .basic) o).run a =
        (.ok ⟨u.tree, if u.changed then .unsettled else o.status, o.warnings⟩, b) := by
  induction rs generalizing a o with
  | nil => exact ⟨⟨o.tree, false⟩, a, .done, .refl ht, rfl⟩
  | cons r rs ih =>
    obtain ⟨t', b, hrun, hrec, -⟩ := r.exists_rewrite ht
    obtain ⟨u, c, hround, hrec', hruns⟩ :=
      ih (o.afterPart ⟨t'.tree, .ofChange t'.changed, []⟩) hrec.holds
    refine ⟨⟨u.tree, t'.changed || u.changed⟩, c, .rewrite ht hrun hround, hrec.trans hrec', ?_⟩
    have hbasic : (run Rewrite.run Rewrite.name (.basic r) o.tree).run a =
        (.ok ⟨t'.tree, .ofChange t'.changed, []⟩, b) := Rewrite.run_of_rewrite hrun
    rw [List.map_cons, runAll, Rewriting.run_bind hbasic, hruns]
    cases t'.changed <;> simp [Outcome.afterPart, Status.ofChange]

theorem exists_round (rs : List Rewrite) (ht : a.Holds t) :
    ∃ u b, Round rs a t u b ∧ Recorded a u.tree b ∧
      ((compose (rs.map .basic)).apply t).run a = (.ok u.outcome, b) := by
  obtain ⟨u, b, hround, hrec, hrun⟩ := exists_runAll_basic rs ⟨t, .unchanged, []⟩ ht
  refine ⟨u, b, hround, hrec, ?_⟩
  rw [apply, run, Rewriting.run_bind hrun]
  cases hu : u.changed <;> simp [Rewritten.outcome, hu] <;> rfl

variable {round : Tree → Rewriting Outcome}

theorem iterate_of_unchanged (h : (round o.tree).run a = (.ok u.outcome, b))
    (hu : u.changed = false) (cap : Nat) :
    (iterate round (cap + 1) o).run a = (.ok (o.afterRound u.outcome, true), b) := by
  rw [iterate, Rewriting.run_bind h]
  simp [Rewritten.outcome, hu]
  rfl

theorem iterate_of_changed (h : (round o.tree).run a = (.ok u.outcome, b))
    (hu : u.changed = true) (cap : Nat) :
    (iterate round (cap + 1) o).run a = (iterate round cap (o.afterRound u.outcome)).run b := by
  rw [iterate, Rewriting.run_bind h]
  simp [Rewritten.outcome, hu]

end Pass
end ToolBindings
