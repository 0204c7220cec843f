import ToolBindings.Proofs.Round

/-!
# Normal forms

A tree is normal for some rewrites if none of its nodes is a redex of one of them. Rounds leave a
normal tree as it is (`normalize_of_normal`), and rounds that settle end at one (`exists_normalize`).
So a tree that was normalized without a warning stays as it is when it is normalized again.
-/
namespace ToolBindings
variable {a b : Arena} {t : Tree}

namespace Pass

theorem exists_iterate_round (rs : List Rewrite) (cap : Nat) (o : Outcome) (ht : a.Holds o.tree) :
    ∃ out settled b,
      (iterate (compose (rs.map .basic)).apply cap o).run a = (.ok (out, settled), b) ∧
      Recorded a out.tree b ∧ (settled = true → out.tree.Normal (Rewrite.AnyRedex rs)) := by
  induction cap generalizing a o with
  | zero => exact ⟨o, false, a, rfl, .refl ht, nofun⟩
  | succ cap ih =>
    obtain ⟨u, b, hround, hrec, hrun⟩ := exists_round rs ht
    have hrep := hround.reports
    cases hu : u.changed with
    | false =>
      have htree : u.tree = o.tree := (hrep.eq_of_unchanged hu).1
      have hnormal : u.tree.Normal (Rewrite.AnyRedex rs) := htree ▸ hrep.unchanged_iff.1 hu
      exact ⟨o.afterRound u.outcome, true, b, iterate_of_unchanged hrun hu cap, hrec,
        fun _ => hnormal⟩
    | true =>
      obtain ⟨out, settled, c, hruns, hrec', hnormal⟩ := ih (o.afterRound u.outcome) hrec.holds
      refine ⟨out, settled, c, ?_, hrec.trans hrec', hnormal⟩
      rw [iterate_of_changed hrun hu, hruns]

end Pass

namespace NormalizeOptions

theorem rewrites_eq (o : NormalizeOptions) :
    o.rewrites = [.flatten, .prune, .simplify] ++ if o.canonicalize then [.canonicalize] else [] := by
  cases h : o.canonicalize <;> simp [rewrites, Rewrite.all, Rewrite.isDefault, h]

end NormalizeOptions

namespace Tree

theorem anyRedex_default_iff {s : Tree} :
    Rewrite.AnyRedex [.flatten, .prune, .simplify] s ↔ s.Redex := by
  simp [Rewrite.AnyRedex, Redex, Rewrite.Redex]

theorem not_redex_of_not_anyRedex {s : Tree} (o : NormalizeOptions)
    (h : ¬ Rewrite.AnyRedex o.rewrites s) : ¬ s.Redex := by
  intro hs
  obtain ⟨r, hr, hrs⟩ := anyRedex_default_iff.2 hs
  exact h ⟨r, o.rewrites_eq ▸ List.mem_append_left _ hr, hrs⟩

theorem normalize_eq (o : NormalizeOptions) (t : Tree) : t.normalize o = do
    let (out, settled) ←
      Pass.iterate (Pass.compose (o.rewrites.map .basic)).apply o.maxIterations ⟨t, .unchanged, []⟩
    if settled then return out
    return { out with warnings := out.warnings ++
      [Pass.notConverged (o.pass.name Rewrite.name) o.maxIterations] } := by
  rw [normalize, NormalizeOptions.pass, Pass.pipeline, Pass.apply, Pass.run]
  rfl

variable {o : NormalizeOptions} {out : Outcome}

theorem normalize_of_settled (h : (Pass.iterate (Pass.compose (o.rewrites.map .basic)).apply
    o.maxIterations ⟨t, .unchanged, []⟩).run a = (.ok (out, true), b)) :
    (t.normalize o).run a = (.ok out, b) := by
  rw [normalize_eq, Rewriting.run_bind h]
  rfl

theorem exists_normalize_of_unsettled
    (h : (Pass.iterate (Pass.compose (o.rewrites.map .basic)).apply
      o.maxIterations ⟨t, .unchanged, []⟩).run a = (.ok (out, false), b)) :
    ∃ d : Diagnostic, d.code = some "W0300" ∧
      (t.normalize o).run a = (.ok { out with warnings := out.warnings ++ [d] }, b) := by
  refine ⟨Pass.notConverged (o.pass.name Rewrite.name) o.maxIterations, rfl, ?_⟩
  rw [normalize_eq, Rewriting.run_bind h]
  rfl

theorem exists_normalize (o : NormalizeOptions) (ht : a.Holds t) :
    ∃ out b, (t.normalize o).run a = (.ok out, b) ∧ Recorded a out.tree b ∧
      ((∀ d ∈ out.warnings, d.code ≠ some "W0300") →
        out.tree.Normal (Rewrite.AnyRedex o.rewrites)) := by
  obtain ⟨out, settled, b, hrun, hrec, hnormal⟩ :=
    Pass.exists_iterate_round o.rewrites o.maxIterations ⟨t, .unchanged, []⟩ ht
  cases settled with
  | true => exact ⟨out, b, normalize_of_settled hrun, hrec, fun _ => hnormal rfl⟩
  | false =>
    obtain ⟨d, hd, hrun⟩ := exists_normalize_of_unsettled hrun
    refine ⟨_, b, hrun, hrec, fun hwarn => ?_⟩
    exact absurd hd (hwarn d (List.mem_append_right _ (List.mem_singleton.2 rfl)))

theorem normalize_of_normal (ht : a.Holds t) (hcap : 1 ≤ o.maxIterations)
    (h : t.Normal (Rewrite.AnyRedex o.rewrites)) :
    (t.normalize o).run a = (.ok ⟨t, .unchanged, []⟩, a) := by
  obtain ⟨u, b, hround, -, hrun⟩ := Pass.exists_round o.rewrites ht
  have hu : u.changed = false := hround.reports.unchanged_iff.2 h
  obtain ⟨htree, rfl⟩ := hround.reports.eq_of_unchanged hu
  obtain ⟨cap, hcap⟩ := Nat.exists_eq_add_of_le' hcap
  apply normalize_of_settled
  rw [hcap, Pass.iterate_of_unchanged hrun hu]
  simp [Outcome.afterRound, Rewritten.outcome, hu, htree, Status.ofChange]

variable {root : NodeId}

/-- What the walk visits from a root that the arena holds has no redex exactly if the default
rewrites report no change, and normalization without a warning leads to such a root. -/
theorem unchanged_iff_and_normalize_normal (h : a.Holds (a.tree root)) :
    (∃ out b, ((Pass.compose [.basic .flatten, .basic .prune, .basic .simplify]).apply
        (a.tree root)).run a = (.ok out, b) ∧
      (out.status = .unchanged ↔ ∀ s ∈ (a.tree root).walk, ¬ s.Redex)) ∧
    ∀ o : NormalizeOptions, ∃ out b, ((a.tree root).normalize o).run a = (.ok out, b) ∧
      ((∀ d ∈ out.warnings, d.code ≠ some "W0300") →
        ∀ s ∈ (b.tree out.tree.id).walk, ¬ s.Redex) := by
  refine ⟨?_, fun o => ?_⟩
  · obtain ⟨u, b, hround, -, hrun⟩ := Pass.exists_round [.flatten, .prune, .simplify] h
    refine ⟨u.outcome, b, hrun, ?_⟩
    have hstatus : u.outcome.status = .unchanged ↔ u.changed = false := by
      cases hu : u.changed <;> simp [Rewritten.outcome, hu]
    rw [hstatus, hround.reports.unchanged_iff, walk_eq_preorder]
    simp only [Normal, anyRedex_default_iff]
  · obtain ⟨out, b, hrun, hrec, hnormal⟩ := exists_normalize o h
    refine ⟨out, b, hrun, fun hwarn s hs => ?_⟩
    rw [Arena.tree_id_of_holds hrec.holds, walk_eq_preorder] at hs
    exact not_redex_of_not_anyRedex o (hnormal hwarn s hs)

theorem normalize_nested_run : ((Arena.nested.tree 2).normalize {}).run Arena.nested =
    (.ok ⟨.wrap 3 none .optional (.terminal 0 none .str), .changed, []⟩,
      Arena.nested.push ⟨.wrap .optional 0, none⟩) := by
  rfl

theorem nested_changed_and_normalize_normal :
    Arena.nested.Holds (Arena.nested.tree 2) ∧
    (∃ out b, ((Pass.compose [.basic .flatten, .basic .prune, .basic .simplify]).apply
        (Arena.nested.tree 2)).run Arena.nested = (.ok out, b) ∧ out.status ≠ .unchanged) ∧
    ∃ out b, ((Arena.nested.tree 2).normalize {}).run Arena.nested = (.ok out, b) ∧
      ∀ s ∈ (b.tree out.tree.id).walk, ¬ s.Redex := by
  have hnested : Arena.nested.Holds (Arena.nested.tree 2) :=
    Arena.holds_tree (by decide) (by decide)
  obtain ⟨⟨out, b, hrun, hiff⟩, hall⟩ := unchanged_iff_and_normalize_normal hnested
  refine ⟨hnested, ⟨out, b, hrun, fun hstatus => ?_⟩, ?_⟩
  · refine hiff.1 hstatus (Arena.nested.tree 2) ?_ (.inr (.inr .optional))
    rw [walk_eq_preorder, preorder_eq]
    exact List.mem_cons_self
  · obtain ⟨out, b, hrun, hnormal⟩ := hall {}
    refine ⟨out, b, hrun, hnormal ?_⟩
    cases hrun.symm.trans normalize_nested_run
    simp

/-- Normalizing again changes nothing. -/
theorem normalize_idempotent (o : NormalizeOptions) (ho : a.Ordered) (hroot : root < a.size)
    (hcap : 1 ≤ o.maxIterations) :
    ∃ out b, ((a.tree root).normalize o).run a = (.ok out, b) ∧
      ((∀ d ∈ out.warnings, d.code ≠ some "W0300") →
        ((b.tree out.tree.id).normalize o).run b = (.ok ⟨out.tree, .unchanged, []⟩, b)) := by
  obtain ⟨out, b, hrun, hrec, hnormal⟩ := exists_normalize o (Arena.holds_tree ho hroot)
  refine ⟨out, b, hrun, fun hwarn => ?_⟩
  rw [Arena.tree_id_of_holds hrec.holds]
  exact normalize_of_normal hrec.holds hcap (hnormal hwarn)

theorem normalize_idempotent_nested :
    Arena.nested.Ordered ∧ 2 < Arena.nested.size ∧ ∃ out b,
      ((Arena.nested.tree 2).normalize {}).run Arena.nested = (.ok out, b) ∧
      ((b.tree out.tree.id).normalize {}).run b = (.ok ⟨out.tree, .unchanged, []⟩, b) := by
  obtain ⟨out, b, hrun, hagain⟩ := @normalize_idempotent Arena.nested 2 {} (by decide) (by decide)
    (by decide)
  refine ⟨by decide, by decide, out, b, hrun, hagain ?_⟩
  cases hrun.symm.trans normalize_nested_run
  simp

end Tree
end ToolBindings
