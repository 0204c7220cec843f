import ToolBindings.Proofs.Sweep
import ToolBindings.Rewrite.Pass

/-!
# What a pass does to a tree that is held

A relation between a tree in an arena, what takes its place and whether that is reported as a change
holds of every pass if it is reflexive and transitive and holds of the parts of the pass, however
these are nested (`exists_run`).
-/
namespace ToolBindings

def Status.isChange (s : Status) : Bool := s ≠ .unchanged

theorem Status.isChange_ofChange (c : Bool) : (ofChange c).isChange = c := by
  cases c <;> rfl

theorem Outcome.isChange_afterRound (o r : Outcome) :
    (o.afterRound r).status.isChange = (o.status.isChange || r.status.isChange) := by
  rw [afterRound, Status.isChange_ofChange]
  exact Bool.decide_or _ _

theorem Outcome.isChange_afterPart (o r : Outcome) :
    (o.afterPart r).status.isChange = (o.status.isChange || r.status.isChange) := by
  unfold afterPart
  by_cases h : r.status = .unchanged
  · simp [h, Status.isChange]
  · simp [h, Status.isChange]

namespace Pass
variable {α : Type}

mutual

def parts : Pass α → List α
  | basic x => [x]
  | compose ps => partsAll ps
  | fixpoint p _ => p.parts

def partsAll : List (Pass α) → List α
  | [] => []
  | p :: ps => p.parts ++ partsAll ps

end

theorem parts_pipeline (xs : List α) (cap : Option Nat) :
    (pipeline (xs.map .basic) cap).parts = xs := by
  have hall : partsAll (xs.map basic) = xs := by
    induction xs with
    | nil => rfl
    | cons x xs ih => rw [List.map_cons, partsAll, ih]; rfl
  cases cap <;> exact hall

abbrev Relation := Arena → Tree → Tree → Bool → Arena → Prop

structure Transitive (P : Relation) : Prop where
  refl {a : Arena} {t : Tree} : P a t t false a
  trans {a b c : Arena} {t u v : Tree} {x y : Bool} :
    P a t u x b → P b u v y c → P a t v (x || y) c

def Relates (P : Relation) (run : Tree → Rewriting Outcome) : Prop :=
  ∀ a t, a.Holds t → ∃ out b, (run t).run a = (.ok out, b) ∧
    Recorded a out.tree b ∧ P a t out.tree out.status.isChange b

variable {P : Relation} {basicRun : α → Tree → Rewriting Outcome} (nameOf : α → String)

theorem exists_iterate (hP : Transitive P) {round : Tree → Rewriting Outcome}
    (hround : Relates P round) (cap : Nat) (a : Arena) (o : Outcome) (ht : a.Holds o.tree) :
    ∃ out settled b x, (iterate round cap o).run a = (.ok (out, settled), b) ∧
      Recorded a out.tree b ∧ P a o.tree out.tree x b ∧
      out.status.isChange = (o.status.isChange || x) := by
  induction cap generalizing a o with
  | zero => exact ⟨o, false, a, false, rfl, .refl ht, hP.refl, by simp⟩
  | succ cap ih =>
    obtain ⟨r, b, hrun, hrec, hp⟩ := hround a o.tree ht
    by_cases hs : r.status = .unsettled
    · obtain ⟨out, settled, c, x, hruns, hrecs, hps, hout⟩ :=
        ih b (o.afterRound r) hrec.holds
      refine ⟨out, settled, c, r.status.isChange || x, ?_, hrec.trans hrecs, hP.trans hp hps, ?_⟩
      · rw [iterate, Rewriting.run_bind hrun]
        simp only [if_pos hs]
        exact hruns
      · rw [hout, Outcome.isChange_afterRound, Bool.or_assoc]
    · refine ⟨o.afterRound r, true, b, r.status.isChange, ?_, hrec, hp,
        Outcome.isChange_afterRound o r⟩
      rw [iterate, Rewriting.run_bind hrun]
      simp only [if_neg hs]
      rfl

mutual

theorem exists_run (hP : Transitive P) : (p : Pass α) → (∀ x ∈ p.parts, Relates P (basicRun x)) →
    Relates P (run basicRun nameOf p)
  | basic x, hb => hb x (List.mem_singleton.2 rfl)
  | compose ps, hb => fun a t ht => by
    obtain ⟨out, b, x, hrun, hrec, hp, hout⟩ := exists_runAll hP ps hb a ⟨t, .unchanged, []⟩ ht
    have hx : out.status.isChange = x := hout
    subst hx
    refine ⟨{ out with status := if out.status = .unchanged then .unchanged else .unsettled }, b,
      ?_, hrec, ?_⟩
    · rw [run, Rewriting.run_bind hrun]
      rfl
    · cases hs : out.status <;> rw [hs] at hp <;> exact hp
  | fixpoint p cap, hb => fun a t ht => by
    obtain ⟨out, settled, b, x, hrun, hrec, hp, hout⟩ :=
      exists_iterate hP (exists_run hP p hb) cap a ⟨t, .unchanged, []⟩ ht
    have hx : out.status.isChange = x := hout
    subst hx
    rw [run]
    cases settled with
    | true =>
      refine ⟨out, b, ?_, hrec, hp⟩
      rw [Rewriting.run_bind hrun]
      rfl
    | false =>
      refine ⟨{ out with warnings := out.warnings ++
        [notConverged ((fixpoint p cap).name nameOf) cap] }, b, ?_, hrec, hp⟩
      rw [Rewriting.run_bind hrun]
      rfl

theorem exists_runAll (hP : Transitive P) : (ps : List (Pass α)) →
    (∀ x ∈ partsAll ps, Relates P (basicRun x)) → (a : Arena) → (o : Outcome) →
    a.Holds o.tree → ∃ out b x, (runAll basicRun nameOf ps o).run a = (.ok out, b) ∧
      Recorded a out.tree b ∧ P a o.tree out.tree x b ∧
      out.status.isChange = (o.status.isChange || x)
  | [], _, a, o, ht => ⟨o, a, false, rfl, .refl ht, hP.refl, by simp⟩
  | p :: ps, hb, a, o, ht => by
    obtain ⟨r, b, hrun, hrec, hp⟩ := exists_run hP p
      (fun x hx => hb x (List.mem_append_left _ hx)) a o.tree ht
    obtain ⟨out, c, x, hruns, hrecs, hps, hout⟩ := exists_runAll hP ps
      (fun x hx => hb x (List.mem_append_right _ hx)) b (o.afterPart r) hrec.holds
    refine ⟨out, c, r.status.isChange || x, ?_, hrec.trans hrecs, hP.trans hp hps, ?_⟩
    · rw [runAll, Rewriting.run_bind hrun]
      exact hruns
    · rw [hout, Outcome.isChange_afterPart, Bool.or_assoc]

end

end Pass
end ToolBindings
