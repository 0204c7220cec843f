import Mathlib.Data.List.Forall2
import ToolBindings.Proofs.Record
import ToolBindings.Rewrite.Sweep

/-!
# What a sweep does to a tree that is held

If a step records what it makes of held trees, a sweep through a held tree ends well and records its
result. A relation between a tree in an arena and what a sweep makes of it holds if it holds at the
leaves and passes from the children of a node to the node (`sweep_relation`).

A step that fires at the redexes of a rewrite and rests elsewhere makes a sweep that reports a change
exactly if there is a redex in the tree, and that otherwise gives back the tree and the arena
(`reports_relation`).
-/
namespace ToolBindings

inductive Chain {α β : Type} (P : Arena → α → β → Arena → Prop) :
    Arena → List α → List β → Arena → Prop
  | nil {a : Arena} : Chain P a [] [] a
  | cons {a b c : Arena} {x : α} {y : β} {xs : List α} {ys : List β} :
      P a x y b → Chain P b xs ys c → Chain P a (x :: xs) (y :: ys) c

theorem Chain.forall₂ {α β : Type} {P : Arena → α → β → Arena → Prop} {Q : α → β → Prop}
    {a b : Arena} {xs : List α} {ys : List β} (h : Chain P a xs ys b)
    (hq : ∀ {a x y b}, P a x y b → Q x y) : List.Forall₂ Q xs ys := by
  induction h with
  | nil => exact .nil
  | cons hp _ ih => exact .cons (hq hp) ih

theorem Chain.length_eq {α β : Type} {P : Arena → α → β → Arena → Prop} {a b : Arena}
    {xs : List α} {ys : List β} (h : Chain P a xs ys b) : ys.length = xs.length := by
  induction h with
  | nil => rfl
  | cons _ _ ih => simp only [List.length_cons, ih]

theorem exists_of_forall₂ {α β : Type} {R : α → β → Prop} {xs : List α} {ys : List β}
    (h : List.Forall₂ R xs ys) {y : β} (hy : y ∈ ys) : ∃ x ∈ xs, R x y := by
  induction h with
  | nil => cases hy
  | cons hxy _ ih =>
    rcases List.mem_cons.1 hy with rfl | hy
    · exact ⟨_, List.mem_cons_self, hxy⟩
    · obtain ⟨x, hx, hxy⟩ := ih hy
      exact ⟨x, List.mem_cons_of_mem _ hx, hxy⟩

namespace Rewriting
variable {α β : Type} {a b : Arena} {x : α}

theorem run_bind {f : Rewriting α} {k : α → Rewriting β} (h : f.run a = (.ok x, b)) :
    (f >>= k).run a = (k x).run b := by
  change (f.run >>= ExceptT.bindCont k) a = _
  change (let r := f.run a; ExceptT.bindCont k r.1 r.2) = _
  rw [h]
  rfl

end Rewriting

abbrev Step := Tree → List Tree → Recorder Rewritten

def Step.Records (step : Step) : Prop :=
  ∀ {a : Arena} {t : Tree} {cs : List Tree}, a.Holds t → (∀ c ∈ cs, a.Holds c) →
    Recorded a (step t cs a).1.tree (step t cs a).2

structure SweepRelation (step : Step) (P : Arena → Tree → Rewritten → Arena → Prop) : Prop where
  leaf {a : Arena} {t : Tree} : a.Holds t → t.children = [] → P a t ⟨t, false⟩ a
  node {a b : Arena} {t : Tree} {rs : List Rewritten} : b.Holds t →
    (∀ r ∈ rs, b.Holds r.tree) → t.children ≠ [] → Chain P a t.children rs b →
    P a t ((step t (rs.map Rewritten.tree) b).1.above rs) (step t (rs.map Rewritten.tree) b).2

variable {step : Step} {P : Arena → Tree → Rewritten → Arena → Prop}

mutual

theorem exists_sweep (hs : step.Records) (hp : SweepRelation step P) :
    (t : Tree) → (a : Arena) → a.Holds t → ∃ r b,
      (t.sweep step).run a = (.ok r, b) ∧ Recorded a r.tree b ∧ P a t r b
  | .missing i, a, ht => by
    obtain ⟨n, hn, -⟩ := ht.get?
    cases hn
  | .terminal i m u, a, ht => ⟨_, a, rfl, .refl ht, hp.leaf ht rfl⟩
  | .wrap i m w c, a, ht => by
    obtain ⟨r, b, hrun, hrec, hpr⟩ := exists_sweep hs hp c a (ht.children c (by simp))
    have htb := ht.mono hrec.extends_arena
    have hrb : ∀ r' ∈ [r], b.Holds r'.tree := fun r' hr' => List.mem_singleton.1 hr' ▸ hrec.holds
    have hcs : ∀ d ∈ [r.tree], b.Holds d := by simpa using hrec.holds
    have hstep := hs htb hcs
    refine ⟨_, _, ?_, ?_, hp.node htb hrb (by simp) (.cons hpr .nil)⟩
    · rw [Tree.sweep, Rewriting.run_bind hrun]
      rfl
    · exact hrec.trans hstep
  | .group i m g [], a, ht => ⟨_, a, rfl, .refl ht, hp.leaf ht rfl⟩
  | .group i m g (c :: cs), a, ht => by
    obtain ⟨r, b, hrun, hrec, hpr⟩ := exists_sweep hs hp c a (ht.children c (by simp))
    have hcs : ∀ d ∈ cs, b.Holds d := fun d hd =>
      (ht.children d (by simp [hd])).mono hrec.extends_arena
    obtain ⟨rs, b', hruns, hext, hrs, hprs⟩ := exists_sweepAll hs hp cs b hcs
    have htb := ht.mono (hext.trans hrec.extends_arena)
    have hrb : ∀ r' ∈ r :: rs, b'.Holds r'.tree := by
      intro r' hr'
      rcases List.mem_cons.1 hr' with rfl | hr'
      · exact hrec.holds.mono hext
      · exact hrs r' hr'
    have hstep := hs htb (List.forall_mem_map.2 hrb)
    refine ⟨_, _, ?_, ?_, hp.node htb hrb (by simp) (.cons hpr hprs)⟩
    · rw [Tree.sweep, Rewriting.run_bind hrun, Rewriting.run_bind hruns]
      rfl
    · exact ⟨hstep.extends_arena.trans (hext.trans hrec.extends_arena), hstep.holds⟩

theorem exists_sweepAll (hs : step.Records) (hp : SweepRelation step P) :
    (ts : List Tree) → (a : Arena) → (∀ t ∈ ts, a.Holds t) → ∃ rs b,
      (Tree.sweepAll step ts).run a = (.ok rs, b) ∧ b.Extends a ∧
        (∀ r ∈ rs, b.Holds r.tree) ∧ Chain P a ts rs b
  | [], a, _ => ⟨[], a, rfl, .refl a, by simp, .nil⟩
  | t :: ts, a, ht => by
    obtain ⟨r, b, hrun, hrec, hpr⟩ := exists_sweep hs hp t a (ht t List.mem_cons_self)
    have hts : ∀ d ∈ ts, b.Holds d := fun d hd =>
      (ht d (List.mem_cons_of_mem t hd)).mono hrec.extends_arena
    obtain ⟨rs, b', hruns, hext, hrs, hprs⟩ := exists_sweepAll hs hp ts b hts
    refine ⟨r :: rs, b', ?_, hext.trans hrec.extends_arena, ?_, .cons hpr hprs⟩
    · rw [Tree.sweepAll, Rewriting.run_bind hrun, Rewriting.run_bind hruns]
      rfl
    · intro r' hr'
      rcases List.mem_cons.1 hr' with rfl | hr'
      · exact hrec.holds.mono hext
      · exact hrs r' hr'

end

theorem sweep_relation (hs : step.Records) (hp : SweepRelation step P) {a b : Arena} {t : Tree}
    {r : Rewritten} (ht : a.Holds t) (h : (t.sweep step).run a = (.ok r, b)) :
    P a t r b := by
  obtain ⟨r', b', hrun, -, hpr⟩ := exists_sweep hs hp t a ht
  rw [hrun] at h
  cases h
  exact hpr

structure Step.FiresAt (step : Step) (Redex : Tree → Prop) : Prop where
  leaf {t : Tree} : t.children = [] → ¬ Redex t
  fires {a : Arena} {t : Tree} : a.Holds t → Redex t →
    (step t t.children a).1.changed = true
  rests {a : Arena} {t : Tree} : a.Holds t → ¬ Redex t →
    step t t.children a = (⟨t, false⟩, a)

def Tree.Normal (Redex : Tree → Prop) (t : Tree) : Prop := ∀ s ∈ t.preorder, ¬ Redex s

theorem Tree.normal_iff {Redex : Tree → Prop} {t : Tree} :
    t.Normal Redex ↔ ¬ Redex t ∧ ∀ c ∈ t.children, c.Normal Redex :=
  forall_preorder

structure Reports (Redex : Tree → Prop) (a : Arena) (t : Tree) (r : Rewritten) (b : Arena) :
    Prop where
  unchanged_iff : r.changed = false ↔ t.Normal Redex
  eq_of_unchanged : r.changed = false → r.tree = t ∧ b = a

variable {Redex : Tree → Prop}

theorem reportsAll {a b : Arena} {ts : List Tree} {rs : List Rewritten}
    (h : Chain (Reports Redex) a ts rs b) :
    (rs.any Rewritten.changed = false ↔ ∀ t ∈ ts, t.Normal Redex) ∧
      (rs.any Rewritten.changed = false → rs.map Rewritten.tree = ts ∧ b = a) := by
  induction h with
  | nil => simp
  | cons hr _ ih =>
    obtain ⟨hiff, heq⟩ := ih
    rw [List.any_cons, Bool.or_eq_false_iff, hr.unchanged_iff, hiff, List.forall_mem_cons]
    refine ⟨Iff.rfl, fun h => ?_⟩
    obtain ⟨htree, hb⟩ := hr.eq_of_unchanged (hr.unchanged_iff.2 h.1)
    obtain ⟨htrees, hc⟩ := heq (hiff.2 h.2)
    exact ⟨by rw [List.map_cons, htree, htrees], hc.trans hb⟩

theorem reports_relation (hf : step.FiresAt Redex) : SweepRelation step (Reports Redex) where
  leaf {a t} _ hc := by
    refine ⟨⟨fun _ => Tree.normal_iff.2 ⟨hf.leaf hc, ?_⟩, fun _ => rfl⟩, fun _ => ⟨rfl, rfl⟩⟩
    simp [hc]
  node {a b t rs} ht _ _ hch := by
    obtain ⟨hiff, heq⟩ := reportsAll hch
    cases hany : rs.any Rewritten.changed with
    | true =>
      -- A child has changed, so there is a redex below and the step does not matter.
      have hnot : ¬ ∀ c ∈ t.children, c.Normal Redex := fun h =>
        Bool.noConfusion (hany.symm.trans (hiff.2 h))
      simp only [Rewritten.above, hany, Bool.true_or]
      exact ⟨⟨fun h => Bool.noConfusion h, fun h => absurd (Tree.normal_iff.1 h).2 hnot⟩,
        fun h => Bool.noConfusion h⟩
    | false =>
      -- The children are as before, so the step is one at the node itself.
      obtain ⟨htrees, hb⟩ := heq hany
      have hbelow := hiff.1 hany
      rw [htrees]
      by_cases hredex : Redex t
      · have hfire := hf.fires ht hredex
        refine ⟨⟨fun h => ?_, fun h => absurd hredex (Tree.normal_iff.1 h).1⟩, fun h => ?_⟩ <;>
          simp [Rewritten.above, hany, hfire] at h
      · rw [hf.rests ht hredex]
        refine ⟨⟨fun _ => Tree.normal_iff.2 ⟨hredex, hbelow⟩, fun _ => ?_⟩, fun _ => ⟨rfl, hb⟩⟩
        simp [Rewritten.above, hany]

section
variable {choose : Group → List Tree → List Tree × Bool}

theorem regroup_group (i : NodeId) (m : Option Metadata) (g : Group) (bs cs : List Tree)
    (a : Arena) :
    regroup choose (.group i m g bs) cs a =
      let r := (Tree.group i m g bs).withChildren (choose g cs).1 a
      (⟨r.1, (choose g cs).2⟩, r.2) := rfl

theorem regroup_wrap (i : NodeId) (m : Option Metadata) (w : Wrapper) (b : Tree) (cs : List Tree)
    (a : Arena) :
    regroup choose (.wrap i m w b) cs a =
      let r := (Tree.wrap i m w b).withChildren cs a
      (⟨r.1, false⟩, r.2) := rfl

theorem regroup_records
    (hc : ∀ {a : Arena} g {cs}, (∀ c ∈ cs, a.Holds c) → ∀ c ∈ (choose g cs).1, a.Holds c) :
    Step.Records (regroup choose) := by
  intro a t cs ht hcs
  cases t with
  | missing | terminal => exact .refl ht
  | wrap => exact Tree.recorded_withChildren ht hcs
  | group => exact Tree.recorded_withChildren ht (hc _ hcs)

structure ChoiceFiresAt (choose : Group → List Tree → List Tree × Bool) (Redex : Tree → Prop) :
    Prop where
  group {t : Tree} : Redex t → ∃ i m g cs, t = .group i m g cs ∧ cs ≠ []
  fires {a : Arena} {i : NodeId} {m : Option Metadata} {g : Group} {cs : List Tree} :
    (∀ c ∈ cs, a.Holds c) → Redex (.group i m g cs) → (choose g cs).2 = true
  rests {i : NodeId} {m : Option Metadata} {g : Group} {cs : List Tree} :
    ¬ Redex (.group i m g cs) → choose g cs = (cs, false)

theorem regroup_firesAt (hc : ChoiceFiresAt choose Redex) :
    Step.FiresAt (regroup choose) Redex where
  leaf hnil h := by
    obtain ⟨i, m, g, cs, rfl, hne⟩ := hc.group h
    exact hne hnil
  fires ht h := by
    obtain ⟨i, m, g, cs, rfl, -⟩ := hc.group h
    exact hc.fires ht.children h
  rests {a t} _ h := by
    have hself := Tree.withChildren_children t a
    cases t with
    | missing | terminal => rfl
    | wrap => rw [regroup_wrap, hself]
    | group =>
      rw [Tree.children_group] at hself ⊢
      rw [regroup_group, hc.rests h, hself]

end

end ToolBindings
