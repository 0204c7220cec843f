import ToolBindings.Proofs.Like

/-!
# Running on like trees

Two runs go together if both end well from any two arenas and their results are related; runs that are
put together from such runs go together too. A sweep by a step that does not tell like trees apart gives
like trees and the same change (`sweep_together`), and so every pass without canonical order gives like
trees, the same status and the same warnings, however it is built (`Pass.apply_together`).
-/
namespace ToolBindings

def Rewriting.Together {α β : Type} (R : α → β → Prop) (f : Rewriting α) (g : Rewriting β) : Prop :=
  ∀ a b, ∃ x a' y b', f.run a = (.ok x, a') ∧ g.run b = (.ok y, b') ∧ R x y

namespace Rewriting.Together
variable {α β γ δ : Type} {R : α → β → Prop} {S : γ → δ → Prop}

theorem pure {x : α} {y : β} (h : R x y) :
    Together R (Pure.pure x : Rewriting α) (Pure.pure y : Rewriting β) :=
  fun a b => ⟨x, a, y, b, rfl, rfl, h⟩

theorem bind {f : Rewriting α} {g : Rewriting β} {k : α → Rewriting γ} {l : β → Rewriting δ}
    (h : Together R f g) (hk : ∀ x y, R x y → Together S (k x) (l y)) :
    Together S (f >>= k) (g >>= l) := fun a b => by
  obtain ⟨x, a', y, b', hf, hg, hxy⟩ := h a b
  rw [run_bind hf, run_bind hg]
  exact hk x y hxy a' b'

theorem lift {f : Recorder α} {g : Recorder β} (h : ∀ a b, R (f a).1 (g b).1) :
    Together R (liftM f : Rewriting α) (liftM g : Rewriting β) :=
  fun a b => ⟨_, _, _, _, rfl, rfl, h a b⟩

end Rewriting.Together
open Rewriting (Together)

section
variable {step : Step}

theorem Rewritten.Like.above {rs qs : List Rewritten} {r q : Rewritten} (h : r.Like q)
    (hs : List.Forall₂ Rewritten.Like rs qs) : (r.above rs).Like (q.above qs) := by
  refine ⟨h.tree, ?_⟩
  rw [Rewritten.above, Rewritten.above, any_eq_of_forall₂ hs fun _ _ => changed, h.changed]

theorem allLike_map_tree {rs qs : List Rewritten} (h : List.Forall₂ Rewritten.Like rs qs) :
    Tree.AllLike (rs.map Rewritten.tree) (qs.map Rewritten.tree) :=
  List.rel_map (fun _ _ hrq => hrq.tree) h

mutual

theorem sweep_together (hs : step.Respects) : (s : Tree) → {t : Tree} → s.Like t →
    Together Rewritten.Like (s.sweep step) (t.sweep step)
  | .missing _, _, h => by cases h
  | .terminal .., _, h => by
    cases h with
    | terminal h => exact .pure ⟨.terminal h, rfl⟩
  | .wrap i m w c, _, h => by
    cases h with
    | wrap h =>
      refine (sweep_together hs c h).bind fun r q hrq => ?_
      refine (Together.lift fun a b => hs a b (.wrap h) (.cons hrq.tree .nil) rfl).bind ?_
      exact fun _ _ h' => .pure (h'.above (.cons hrq .nil))
  | .group i m g [], _, h => by
    cases h with
    | group h =>
      cases h
      exact .pure ⟨.group .nil, rfl⟩
  | .group i m g (c :: cs), _, h => by
    cases h with
    | group h =>
      cases h with
      | cons h hcs =>
        refine (sweep_together hs c h).bind fun r q hrq => ?_
        refine (sweepAll_together hs cs hcs).bind fun rs qs ⟨hrqs, hlen⟩ => ?_
        have hall := allLike_map_tree (.cons hrq hrqs)
        refine (Together.lift fun a b => hs a b (.group (.cons h hcs)) hall ?_).bind ?_
        · simp [hlen]
        · exact fun _ _ h' => .pure (h'.above (.cons hrq hrqs))

theorem sweepAll_together (hs : step.Respects) : (ss : List Tree) → {ts : List Tree} →
    Tree.AllLike ss ts →
    Together (fun rs qs => List.Forall₂ Rewritten.Like rs qs ∧ rs.length = ss.length)
      (Tree.sweepAll step ss) (Tree.sweepAll step ts)
  | [], _, h => by
    cases h
    exact .pure ⟨.nil, rfl⟩
  | s :: ss, _, h => by
    cases h with
    | cons h hss =>
      refine (sweep_together hs s h).bind fun r q hrq => ?_
      refine (sweepAll_together hs ss hss).bind fun rs qs ⟨hrqs, hlen⟩ => ?_
      exact .pure ⟨.cons hrq hrqs, by rw [List.length_cons, hlen, List.length_cons]⟩

end
end

structure Outcome.Like (o p : Outcome) : Prop where
  tree : o.tree.Like p.tree
  status : o.status = p.status
  warnings : o.warnings = p.warnings

namespace Outcome
variable {o o' p p' : Outcome}

theorem like_start {s t : Tree} (h : s.Like t) :
    Like ⟨s, .unchanged, []⟩ ⟨t, .unchanged, []⟩ :=
  ⟨h, rfl, rfl⟩

theorem Like.afterRound (h : o.Like p) (h' : o'.Like p') :
    (o.afterRound o').Like (p.afterRound p') := by
  refine ⟨h'.tree, ?_, ?_⟩
  · rw [Outcome.afterRound, Outcome.afterRound, h.status, h'.status]
  · rw [Outcome.afterRound, Outcome.afterRound, h.warnings, h'.warnings]

theorem Like.afterPart (h : o.Like p) (h' : o'.Like p') :
    (o.afterPart o').Like (p.afterPart p') := by
  refine ⟨h'.tree, ?_, ?_⟩
  · rw [Outcome.afterPart, Outcome.afterPart, h.status, h'.status]
  · rw [Outcome.afterPart, Outcome.afterPart, h.warnings, h'.warnings]

end Outcome

namespace Pass
variable {α : Type} {basicRun : α → Tree → Rewriting Outcome} (nameOf : α → String)

def Respects (run : Tree → Rewriting Outcome) : Prop :=
  ∀ s t, s.Like t → Together Outcome.Like (run s) (run t)

theorem iterate_together {round : Tree → Rewriting Outcome} (hround : Respects round) (cap : Nat)
    {o p : Outcome} (h : o.Like p) :
    Together (fun x y => x.1.Like y.1 ∧ x.2 = y.2) (iterate round cap o) (iterate round cap p) := by
  induction cap generalizing o p with
  | zero => exact .pure ⟨h, rfl⟩
  | succ cap ih =>
    refine (hround _ _ h.tree).bind fun r q hrq => ?_
    simp only [hrq.status]
    split
    · exact ih (h.afterRound hrq)
    · exact .pure ⟨h.afterRound hrq, rfl⟩

mutual

theorem run_respects : (p : Pass α) → (∀ x ∈ p.parts, Respects (basicRun x)) →
    Respects (run basicRun nameOf p)
  | basic x, hb => hb x (List.mem_singleton.2 rfl)
  | compose ps, hb => fun s t hst => by
    rw [run, run]
    refine (runAll_respects ps hb (Outcome.like_start hst)).bind fun o p h => .pure ?_
    exact ⟨h.tree, by rw [h.status], h.warnings⟩
  | fixpoint p cap, hb => fun s t hst => by
    rw [run, run]
    refine (iterate_together (run_respects p hb) cap (Outcome.like_start hst)).bind ?_
    rintro ⟨o, settled⟩ ⟨p', settled'⟩ ⟨h, rfl⟩
    simp only
    split
    · exact .pure h
    · exact .pure ⟨h.tree, h.status, by rw [h.warnings]⟩

theorem runAll_respects : (ps : List (Pass α)) → (∀ x ∈ partsAll ps, Respects (basicRun x)) →
    {o p : Outcome} → o.Like p →
    Together Outcome.Like (runAll basicRun nameOf ps o) (runAll basicRun nameOf ps p)
  | [], _, _, _, h => .pure h
  | p :: ps, hb, o, o', h => by
    rw [runAll, runAll]
    have hp := run_respects p fun x hx => hb x (List.mem_append_left _ hx)
    refine (hp _ _ h.tree).bind fun r q hrq => ?_
    exact runAll_respects ps (fun x hx => hb x (List.mem_append_right _ hx)) (h.afterPart hrq)

end

end Pass

theorem Rewrite.run_respects {r : Rewrite} (hr : r ≠ .canonicalize) : Pass.Respects r.run :=
  fun s t hst => by
    unfold run
    rw [rewrite_eq_sweep, rewrite_eq_sweep]
    refine (sweep_together (step_respects hr) s hst).bind fun r q h => ?_
    exact .pure ⟨h.tree, by rw [h.changed], rfl⟩

/-- Without canonical order a pass does the same to like trees. -/
theorem Pass.apply_together {p : Pass Rewrite} (hp : Rewrite.canonicalize ∉ p.parts) {s t : Tree}
    (h : s.Like t) : Together Outcome.Like (p.apply s) (p.apply t) := by
  refine run_respects Rewrite.name p (fun r hr => Rewrite.run_respects ?_) s t h
  rintro rfl
  exact hp hr

theorem NormalizeOptions.canonicalize_not_mem (cap : Nat) :
    Rewrite.canonicalize ∉ (NormalizeOptions.mk cap false).pass.parts := by
  rw [pass, Pass.parts_pipeline]
  simp [rewrites, Rewrite.isDefault]

end ToolBindings
