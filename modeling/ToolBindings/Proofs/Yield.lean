import ToolBindings.Proofs.NormalForm
import ToolBindings.Proofs.Pass
import ToolBindings.Proofs.Size

/-!
# The yield

The yield of a tree is what it has to offer to a command line, from left to right: the characters of
its literals and its values, each with whether it is optional and whether it is repeated. Flattening,
pruning and simplifying keep it at every node (`keepsYield_relation`), so every pass that is built
from these keeps it (`exists_apply_yield`), whether it settles or not. Canonical order does not.
-/
namespace ToolBindings

/-- Whether a place in a tree is within an optional and within a repetition. -/
structure Scope where
  optional : Bool
  repeated : Bool
  deriving DecidableEq, Repr

def Wrapper.enter : Wrapper → Scope → Scope
  | optional, s => { s with optional := true }
  | repetition .., s => { s with repeated := true }

inductive Item
  | char (c : Char)
  | value (t : Terminal)
  deriving DecidableEq, Repr

def Terminal.items : Terminal → List Item
  | literal text => text.toList.map .char
  | t => [.value t]

namespace Tree

mutual

def yieldIn (s : Scope) : Tree → List (Item × Scope)
  | missing _ => []
  | terminal _ _ t => t.items.map (·, s)
  | wrap _ _ w c => c.yieldIn (w.enter s)
  | group _ _ _ cs => yieldAll s cs

def yieldAll (s : Scope) : List Tree → List (Item × Scope)
  | [] => []
  | t :: ts => t.yieldIn s ++ yieldAll s ts

end

def yield (t : Tree) : List (Item × Scope) := t.yieldIn ⟨false, false⟩

def childScope (s : Scope) : Tree → Scope
  | wrap _ _ w _ => w.enter s
  | _ => s

variable {s : Scope} {t : Tree}

theorem yieldIn_eq_yieldAll (h : t.children ≠ []) :
    t.yieldIn s = yieldAll (t.childScope s) t.children := by
  cases t with
  | missing | terminal => exact absurd rfl h
  | wrap => simp [yieldIn, yieldAll, childScope]
  | group => rfl

theorem yieldAll_append (s : Scope) (ts us : List Tree) :
    yieldAll s (ts ++ us) = yieldAll s ts ++ yieldAll s us := by
  induction ts with
  | nil => rfl
  | cons t ts ih => rw [List.cons_append, yieldAll, yieldAll, ih, List.append_assoc]

theorem yieldIn_withChildren_wrap (s : Scope) (i : NodeId) (m : Option Metadata) (w : Wrapper)
    (b c : Tree) (a : Arena) :
    ((wrap i m w b).withChildren [c] a).1.yieldIn s = yieldAll (w.enter s) [c] := by
  obtain ⟨j, h⟩ := exists_withChildren_wrap i m w b c a
  simp [h, yieldIn, yieldAll]

theorem yieldIn_withChildren_group (s : Scope) (i : NodeId) (m : Option Metadata) (g : Group)
    (bs cs : List Tree) (a : Arena) :
    ((group i m g bs).withChildren cs a).1.yieldIn s = yieldAll s cs := by
  obtain ⟨j, h⟩ := exists_withChildren_group i m g bs cs a
  rw [h, yieldIn]

theorem yieldIn_withMetadata (s : Scope) (t : Tree) (m : Option Metadata) (a : Arena) :
    (t.withMetadata m a).1.yieldIn s = t.yieldIn s := by
  unfold withMetadata
  split
  · rfl
  · cases t <;> rfl

end Tree
open ToolBindings.Tree

def Step.KeepsYield (step : Step) : Prop :=
  ∀ {t : Tree} {cs : List Tree} {a : Arena}, t.children ≠ [] → cs.length = t.children.length →
    ∀ s, (step t cs a).1.tree.yieldIn s = yieldAll (t.childScope s) cs

def SameYield (t u : Tree) : Prop := ∀ s, u.yieldIn s = t.yieldIn s

theorem yieldAll_of_sameYield {ts us : List Tree} (h : List.Forall₂ SameYield ts us) (s : Scope) :
    yieldAll s us = yieldAll s ts := by
  induction h with
  | nil => rfl
  | cons ht _ ih => rw [yieldAll, yieldAll, ht s, ih]

theorem keepsYield_relation {step : Step} (hs : step.KeepsYield) :
    SweepRelation step fun _ t r _ => SameYield t r.tree where
  leaf _ _ _ := rfl
  node {a b t rs} _ _ hne hch := by
    intro s
    have hlen : (rs.map Rewritten.tree).length = t.children.length := by
      rw [List.length_map, hch.length_eq]
    have hall : List.Forall₂ SameYield t.children (rs.map Rewritten.tree) :=
      List.forall₂_map_right_iff.2 (hch.forall₂ id)
    rw [Rewritten.above, hs hne hlen s, yieldAll_of_sameYield hall, yieldIn_eq_yieldAll hne]

theorem regroup_keepsYield {choose : Group → List Tree → List Tree × Bool}
    (hc : ∀ s g cs, yieldAll s (choose g cs).1 = yieldAll s cs) :
    Step.KeepsYield (regroup choose) := by
  intro t cs a hne hlen s
  cases t with
  | missing | terminal => exact absurd rfl hne
  | wrap i m w b =>
    obtain ⟨c, rfl⟩ := List.length_eq_one_iff.1 hlen
    rw [regroup_wrap]
    exact yieldIn_withChildren_wrap s i m w b c a
  | group i m g bs =>
    rw [regroup_group]
    exact (yieldIn_withChildren_group s i m g bs _ a).trans (hc s g cs)

namespace Flatten

theorem yieldAll_inlined (s : Scope) (g : Group) (cs : List Tree) :
    yieldAll s (cs.flatMap (inlined g)) = yieldAll s cs := by
  have hc : ∀ c, yieldAll s (inlined g c) = c.yieldIn s := by
    intro c
    unfold inlined
    by_cases hd : dissolves g c = true
    · obtain ⟨k, ds, rfl⟩ := dissolves_iff.1 hd
      rw [if_pos hd]
      rfl
    · rw [if_neg hd]
      simp [yieldAll]
  induction cs with
  | nil => rfl
  | cons c cs ih => rw [List.flatMap_cons, yieldAll_append, hc, ih, yieldAll]

theorem step_keepsYield : Step.KeepsYield (regroup flattened) :=
  regroup_keepsYield yieldAll_inlined

end Flatten

namespace Prune

theorem yieldIn_of_isRemovable {t : Tree} (h : isRemovable t = true) (s : Scope) :
    t.yieldIn s = [] := by
  rcases isRemovable_iff.1 h with ⟨k, g, rfl⟩ | ⟨k, w, l, n, g, rfl⟩ <;> rfl

theorem yieldAll_kept (s : Scope) (cs : List Tree) : yieldAll s (kept cs) = yieldAll s cs := by
  induction cs with
  | nil => rfl
  | cons c cs ih =>
    unfold kept at ih ⊢
    by_cases hr : isRemovable c = true
    · rw [List.filter_cons_of_neg (by simp [hr]), ih, yieldAll, yieldIn_of_isRemovable hr,
        List.nil_append]
    · rw [List.filter_cons_of_pos (by simp [hr]), yieldAll, ih, yieldAll]

theorem step_keepsYield : Step.KeepsYield (regroup pruned) :=
  regroup_keepsYield fun s _ => yieldAll_kept s

end Prune

namespace Simplify

theorem enter_of_mergeWrappers {w w' v : Wrapper} (h : mergeWrappers? w w' = some v) (s : Scope) :
    v.enter s = w'.enter (w.enter s) := by
  cases w <;> cases w'
  · cases h
    rfl
  · cases h
  · cases h
  · simp only [mergeWrappers?] at h
    split at h
    · cases h
    · cases h
      rfl

theorem Fuses.yieldAll_eq {cs ds : List Tree} {fused : Bool} (h : Fuses cs ds fused) (s : Scope) :
    yieldAll s ds = yieldAll s cs := by
  induction h with
  | nil => rfl
  | skip _ ih => rw [yieldAll, yieldAll, ih]
  | fuse _ ih =>
    rw [ih]
    simp [yieldAll, yieldIn, Terminal.items]

theorem step_keepsYield : Step.KeepsYield step := by
  intro t cs a hne hlen s
  cases t with
  | missing | terminal => exact absurd rfl hne
  | wrap i m w b =>
    obtain ⟨c, rfl⟩ := List.length_eq_one_iff.1 hlen
    rw [step_wrap]
    rcases wrapped_cases (.wrap i m w b) w c a with ⟨k, n, w', d, v, rfl, hv, h⟩ | ⟨-, h⟩ <;> rw [h]
    · simp [newWrap_run, yieldIn, yieldAll, childScope, enter_of_mergeWrappers hv]
    · exact yieldIn_withChildren_wrap s i m w b c a
  | group i m g bs =>
    cases g with
    | sequence joint =>
      have hfuse := (fuseUnder_fuses joint cs a).yieldAll_eq s
      rcases step_sequence_cases i m joint bs cs a with ⟨c, hc, h⟩ | ⟨-, h⟩ <;> simp only [h]
      · rw [hc, yieldAll, yieldAll, List.append_nil] at hfuse
        exact (yieldIn_withMetadata s c _ _).trans hfuse
      · exact (yieldIn_withChildren_group s i m _ bs _ _).trans hfuse
    | alternative =>
      rcases step_choice_cases i m bs cs a with ⟨c, -, rfl, h⟩ | ⟨-, h⟩ <;> rw [h]
      · simp [yieldAll, childScope]
      · exact yieldIn_withChildren_group s i m _ bs cs a

end Simplify

theorem Rewrite.step_keepsYield {r : Rewrite} (hr : r ≠ .canonicalize) :
    Step.KeepsYield r.step := by
  cases r with
  | flatten => exact Flatten.step_keepsYield
  | prune => exact Prune.step_keepsYield
  | simplify => exact Simplify.step_keepsYield
  | canonicalize => exact absurd rfl hr

namespace Pass

theorem sameYield_transitive : Transitive fun _ t u _ _ => SameYield t u where
  refl _ := rfl
  trans h h' s := (h' s).trans (h s)

theorem run_relates_sameYield {r : Rewrite} (hr : r ≠ .canonicalize) :
    Relates (fun _ t u _ _ => SameYield t u) r.run := by
  intro a t ht
  obtain ⟨t', b, hrun, hrec, -⟩ := r.exists_rewrite ht
  refine ⟨_, b, Rewrite.run_of_rewrite hrun, hrec, ?_⟩
  exact Rewrite.relation_of_rewrite ht hrun (keepsYield_relation (Rewrite.step_keepsYield hr))

/-- Every pass without canonical order keeps the yield. -/
theorem exists_apply_yield {a : Arena} {t : Tree} (ht : a.Holds t) {p : Pass Rewrite}
    (hp : .canonicalize ∉ p.parts) :
    ∃ out b, (p.apply t).run a = (.ok out, b) ∧ Recorded a out.tree b ∧
      out.tree.yield = t.yield := by
  have hparts : ∀ r ∈ p.parts, Relates (fun _ t u _ _ => SameYield t u) (Rewrite.run r) :=
    fun r hr => run_relates_sameYield fun h => hp (h ▸ hr)
  obtain ⟨out, b, hrun, hrec, hyield⟩ :=
    exists_run Rewrite.name sameYield_transitive p hparts a t ht
  exact ⟨out, b, hrun, hrec, hyield _⟩

end Pass

namespace Tree
variable {a : Arena} {root : NodeId}

/-- Normalization keeps the yield, also where the cap ends it. -/
theorem normalize_yield (h : a.Holds (a.tree root)) (cap : Nat) :
    ∃ out b, ((a.tree root).normalize ⟨cap, false⟩).run a = (.ok out, b) ∧
      (b.tree out.tree.id).yield = (a.tree root).yield := by
  have hparts : .canonicalize ∉ (NormalizeOptions.pass ⟨cap, false⟩).parts := by
    rw [NormalizeOptions.pass, Pass.parts_pipeline, NormalizeOptions.rewrites_eq]
    simp
  obtain ⟨out, b, hrun, hrec, hyield⟩ := Pass.exists_apply_yield h hparts
  refine ⟨out, b, hrun, ?_⟩
  rw [Arena.tree_id_of_holds hrec.holds]
  exact hyield

theorem normalize_yield_nested : Arena.nested.Holds (Arena.nested.tree 2) ∧
    ∃ out b, ((Arena.nested.tree 2).normalize ⟨1, false⟩).run Arena.nested = (.ok out, b) ∧
      (b.tree out.tree.id).yield = [(.value .str, ⟨true, false⟩)] := by
  have hnested : Arena.nested.Holds (Arena.nested.tree 2) :=
    Arena.holds_tree (by decide) (by decide)
  obtain ⟨out, b, hrun, hyield⟩ := normalize_yield hnested 1
  exact ⟨hnested, out, b, hrun, hyield⟩

end Tree
end ToolBindings
