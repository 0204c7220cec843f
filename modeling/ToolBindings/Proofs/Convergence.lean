import ToolBindings.Proofs.NormalForm
import ToolBindings.Proofs.Reorder

/-!
# Convergence

A round leaves a smaller tree, or one that is normal for all of its rewrites (`Round.settled`). After
as many rounds as the tree has nodes the tree is normal, so one further round finds nothing to change
and no cap beyond that is ever reached (`normalize_converges`).
-/
namespace ToolBindings

/-- The tree has become smaller, or it has become normal for the rewrites and is still normal for
those for which it was normal before. -/
def Settled (rs : List Rewrite) (t u : Tree) : Prop :=
  u.size < t.size ∨ u.size ≤ t.size ∧ ∀ r : Rewrite, r ∈ rs ∨ t.Normal r.Redex → u.Normal r.Redex

variable {rs : List Rewrite} {r : Rewrite} {a b : Arena} {t u v : Tree}

theorem settled_cons (h : Settled [r] t u) (hs : Settled rs u v) : Settled (r :: rs) t v := by
  rcases h with hlt | ⟨hle, hnormal⟩ <;> rcases hs with hlt' | ⟨hle', hnormal'⟩
  · exact .inl (Nat.lt_trans hlt' hlt)
  · exact .inl (Nat.lt_of_le_of_lt hle' hlt)
  · exact .inl (Nat.lt_of_lt_of_le hlt' hle)
  · refine .inr ⟨Nat.le_trans hle' hle, fun q hq => hnormal' q ?_⟩
    rcases hq with hq | hq
    · rcases List.mem_cons.1 hq with rfl | hq
      · exact .inr (hnormal q (.inl List.mem_cons_self))
      · exact .inl hq
    · exact .inr (hnormal q (.inr hq))

theorem Rewrite.step_shrinks (hr : r ≠ .canonicalize) : Step.Shrinks r.step := by
  cases r with
  | flatten => exact Flatten.step_shrinks
  | prune => exact Prune.step_shrinks
  | simplify => exact Simplify.step_shrinks
  | canonicalize => exact absurd rfl hr

theorem Rewrite.settled {t' : Rewritten} (ht : a.Holds t)
    (h : (r.rewrite t).run a = (.ok t', b)) : Settled [r] t t'.tree := by
  by_cases hr : r = .canonicalize
  · subst hr
    rcases relation_of_rewrite ht h Canonical.reorders_relation with hlt | hre
    · exact .inl hlt
    · refine .inr ⟨Nat.le_of_eq hre.size_eq, fun q hq => ?_⟩
      by_cases hq' : q = .canonicalize
      · exact hq' ▸ hre.canonical
      · rcases hq with hq | hq
        · exact absurd (List.mem_singleton.1 hq) hq'
        · exact hre.normal q hq' hq
  · have hsize := relation_of_rewrite ht h (shrinks_relation (step_shrinks hr))
    have hrep := relation_of_rewrite ht h (reports_relation r.step_firesAt)
    unfold Shrinks at hsize
    cases hc : t'.changed with
    | true =>
      rw [hc, Bool.toNat_true] at hsize
      exact .inl hsize
    | false =>
      rw [(hrep.eq_of_unchanged hc).1]
      refine .inr ⟨Nat.le_refl _, fun q hq => ?_⟩
      rcases hq with hq | hq
      · rw [List.mem_singleton.1 hq]
        exact hrep.unchanged_iff.1 hc
      · exact hq

theorem Round.settled {u : Rewritten} (h : Round rs a t u b) : Settled rs t u.tree := by
  induction h with
  | done => exact .inr ⟨Nat.le_refl _, fun q hq => hq.elim (fun hq => nomatch hq) id⟩
  | rewrite ht hrun _ ih => exact settled_cons (Rewrite.settled ht hrun) ih

namespace Pass

-- Induction on a bound of the size. In the step a round that reports a change either makes the tree
-- smaller, and the hypothesis takes over, or it makes it normal, and the next round ends it.
theorem exists_iterate_settled (rs : List Rewrite) (n : Nat) (o : Outcome) (ht : a.Holds o.tree)
    (hn : o.tree.size ≤ n) :
    ∃ out b, out.warnings = o.warnings ∧ ∀ cap, n + 1 ≤ cap →
      (iterate (compose (rs.map .basic)).apply cap o).run a = (.ok (out, true), b) := by
  induction n generalizing a o with
  | zero =>
    have hpos := o.tree.size_pos
    omega
  | succ n ih =>
    obtain ⟨u, b, hround, hrec, hrun⟩ := exists_round rs ht
    have hwarn : (o.afterRound u.outcome).warnings = o.warnings := List.append_nil _
    cases hu : u.changed with
    | false =>
      refine ⟨o.afterRound u.outcome, b, hwarn, fun cap hcap => ?_⟩
      obtain ⟨cap, rfl⟩ := Nat.exists_eq_add_of_le' (Nat.le_trans (Nat.le_add_left 1 _) hcap)
      exact iterate_of_unchanged hrun hu cap
    | true =>
      rcases hround.settled with hlt | ⟨-, hnormal⟩
      · obtain ⟨out, c, hwarn', hruns⟩ :=
          ih (o.afterRound u.outcome) hrec.holds (Nat.le_of_lt_succ (Nat.lt_of_lt_of_le hlt hn))
        refine ⟨out, c, hwarn'.trans hwarn, fun cap hcap => ?_⟩
        obtain ⟨cap, rfl⟩ := Nat.exists_eq_add_of_le' (Nat.le_trans (Nat.le_add_left 1 _) hcap)
        rw [iterate_of_changed hrun hu]
        exact hruns cap (Nat.le_of_succ_le_succ hcap)
      · obtain ⟨v, c, hround', -, hrun'⟩ := exists_round rs hrec.holds
        have hv : v.changed = false := hround'.reports.unchanged_iff.2 fun s hs ⟨r, hr, hredex⟩ =>
          hnormal r (.inl hr) s hs hredex
        refine ⟨(o.afterRound u.outcome).afterRound v.outcome, c, ?_, fun cap hcap => ?_⟩
        · exact (List.append_nil _).trans hwarn
        · obtain ⟨cap, rfl⟩ := Nat.exists_eq_add_of_le' (Nat.le_trans (Nat.le_add_left 2 _) hcap)
          rw [iterate_of_changed hrun hu]
          exact iterate_of_unchanged hrun' hv cap

end Pass

namespace Tree
variable {root : NodeId}

/-- All caps beyond the number of nodes give the same tree, and no warning. -/
theorem normalize_converges (h : a.Holds (a.tree root)) (canonicalize : Bool) :
    ∃ out b, out.warnings = [] ∧ ∀ cap, (a.tree root).walk.length + 1 ≤ cap →
      ((a.tree root).normalize ⟨cap, canonicalize⟩).run a = (.ok out, b) := by
  obtain ⟨out, b, hwarn, hruns⟩ := Pass.exists_iterate_settled
    (NormalizeOptions.rewrites ⟨0, canonicalize⟩) (a.tree root).walk.length
    ⟨a.tree root, .unchanged, []⟩ h (Nat.le_of_eq (length_walk _).symm)
  exact ⟨out, b, hwarn, fun cap hcap => normalize_of_settled (hruns cap hcap)⟩

theorem normalize_converges_nested : Arena.nested.Holds (Arena.nested.tree 2) ∧
    ∃ out b, out.warnings = [] ∧ ∀ cap, 4 ≤ cap →
      ((Arena.nested.tree 2).normalize ⟨cap, true⟩).run Arena.nested = (.ok out, b) := by
  have hnested : Arena.nested.Holds (Arena.nested.tree 2) :=
    Arena.holds_tree (by decide) (by decide)
  have hwalk : (Arena.nested.tree 2).walk.length = 3 := by
    rw [length_walk]
    rfl
  obtain ⟨out, b, hwarn, hruns⟩ := normalize_converges hnested true
  rw [hwalk] at hruns
  exact ⟨hnested, out, b, hwarn, hruns⟩

end Tree
end ToolBindings
