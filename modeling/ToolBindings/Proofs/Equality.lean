import ToolBindings.Proofs.Image
import ToolBindings.Proofs.Postorder
import ToolBindings.Tree.Equality

/-!
# Trees that are the same

Whole trees that are equal apart from places are the same, unless a bound of a float is no number, since
that is not even the same as itself (`same_of_unplaced_eq`). No rewrite makes such a bound
(`Rewrite.step_keepsNumbers`), so a tree without them is normalized to one without them.
-/
namespace ToolBindings

def Terminal.Numeric : Terminal → Prop
  | .float lo hi => lo ≠ some .nan ∧ hi ≠ some .nan
  | _ => True

theorem boundsSame_self {x : Option Binary64} (h : x ≠ some .nan) : boundsSame x x = true := by
  cases x with
  | none => rfl
  | some x => exact Binary64.same_self fun hx => h (congrArg some hx)

theorem boundsSame_symm : (x y : Option Binary64) → boundsSame x y = boundsSame y x
  | none, none | none, some _ | some _, none => rfl
  | some x, some y => x.same_symm y

theorem boundsSame_trans {x y z : Option Binary64} (h : boundsSame x y = true)
    (k : boundsSame y z = true) : boundsSame x z = true := by
  cases x <;> cases y <;> cases z <;> simp_all [boundsSame]
  exact Binary64.same_trans h k

theorem Terminal.same_self {u : Terminal} (h : u.Numeric) : u.same u = true := by
  cases u with
  | float lo hi => simp [same, boundsSame_self h.1, boundsSame_self h.2]
  | literal | int | str | path => simp [same]

theorem Terminal.same_symm (u v : Terminal) : u.same v = v.same u := by
  cases u <;> cases v <;> simp only [same, boundsSame_symm, eq_comm, reduceCtorEq]

theorem Terminal.eq_of_same {u v : Terminal} (hv : ∀ lo hi, v ≠ .float lo hi)
    (h : u.same v = true) : u = v := by
  cases u <;> cases v <;> simp_all [same]

theorem Terminal.same_trans {u v w : Terminal} (h : u.same v = true) (k : v.same w = true) :
    u.same w = true := by
  cases v with
  | float lo hi =>
    cases u <;> cases w <;> simp_all [same]
    exact ⟨boundsSame_trans h.1 k.1, boundsSame_trans h.2 k.2⟩
  | literal | int | str | path => exact eq_of_same (by simp) h ▸ k

namespace Tree

/-- No bound in the tree is NaN. -/
def Numeric (t : Tree) : Prop := ∀ s ∈ t.preorder, ∀ i m u, s = terminal i m u → u.Numeric

theorem numeric_terminal {i : NodeId} {m : Option Metadata} {u : Terminal} :
    (terminal i m u).Numeric ↔ u.Numeric := by
  simp [Numeric, preorder]

theorem numeric_wrap {i : NodeId} {m : Option Metadata} {w : Wrapper} {c : Tree} :
    (wrap i m w c).Numeric ↔ c.Numeric := by
  simp [Numeric, preorder]

theorem numeric_group {i : NodeId} {m : Option Metadata} {g : Group} {cs : List Tree} :
    (group i m g cs).Numeric ↔ ∀ c ∈ cs, c.Numeric := by
  rw [Numeric, forall_preorder]
  simp [Numeric]

theorem Numeric.children {t : Tree} (h : t.Numeric) : ∀ c ∈ t.children, c.Numeric :=
  (forall_preorder.1 h).2

mutual

theorem numeric_unplaced : (t : Tree) → (t.unplaced.Numeric ↔ t.Numeric)
  | missing _ => by simp [Numeric, preorder]
  | terminal .. => by rw [unplaced_terminal, numeric_terminal, numeric_terminal]
  | wrap _ _ _ c => by rw [unplaced_wrap, numeric_wrap, numeric_wrap, numeric_unplaced c]
  | group _ _ _ cs => by rw [unplaced_group, numeric_group, numeric_group, numeric_map_unplaced cs]

theorem numeric_map_unplaced : (ts : List Tree) →
    ((∀ t ∈ ts.map unplaced, t.Numeric) ↔ ∀ t ∈ ts, t.Numeric)
  | [] => by simp
  | t :: ts => by
    rw [List.map_cons, List.forall_mem_cons, List.forall_mem_cons, numeric_unplaced t,
      numeric_map_unplaced ts]

end

theorem numeric_relabelled (t : Tree) (m : Option Metadata) :
    (t.relabelled m).Numeric ↔ t.Numeric := by
  rw [← numeric_unplaced t]
  cases t <;>
    simp only [relabelled, unplaced_missing, unplaced_terminal, unplaced_wrap, unplaced_group,
      numeric_terminal, numeric_wrap, numeric_group]

mutual

/-- What is equal apart from places is the same. -/
theorem same_of_unplaced_eq : (s t : Tree) → s.Whole → s.Numeric → s.unplaced = t.unplaced →
    s.same t = .ok true
  | missing _, _, hs, _, _ => absurd hs Whole.not_missing
  | terminal i m u, t, _, hn, h => by
    have hu : u.same u = true := Terminal.same_self (numeric_terminal.1 hn)
    cases t <;> simp at h
    obtain ⟨rfl, rfl⟩ := h
    simp [same, missing?, hu]
  | wrap i m w c, t, hs, hn, h => by
    cases t <;> simp at h
    obtain ⟨rfl, rfl, h⟩ := h
    have hc := same_of_unplaced_eq c _ (hs.children c (List.mem_singleton.2 rfl))
      (numeric_wrap.1 hn) h
    simp [same, hc]
  | group i m g cs, t, hs, hn, h => by
    cases t <;> simp at h
    obtain ⟨rfl, rfl, h⟩ := h
    have hcs := sameAll_of_map_unplaced_eq cs _ hs.children (numeric_group.1 hn) h
    have hlen := congrArg List.length h
    rw [List.length_map, List.length_map] at hlen
    simp [same, hcs, hlen]

theorem sameAll_of_map_unplaced_eq : (ss ts : List Tree) → (∀ s ∈ ss, s.Whole) →
    (∀ s ∈ ss, s.Numeric) → ss.map unplaced = ts.map unplaced → sameAll ss ts = .ok true
  | [], ts, _, _, h => by
    obtain rfl : ts = [] := List.map_eq_nil_iff.1 h.symm
    rfl
  | s :: ss, ts, hs, hn, h => by
    obtain ⟨t, ts, rfl, ht, hts⟩ := List.map_eq_cons_iff.1 h.symm
    have hst := same_of_unplaced_eq s t (hs s List.mem_cons_self) (hn s List.mem_cons_self) ht.symm
    have hsts := sameAll_of_map_unplaced_eq ss ts (fun s hs' => hs s (List.mem_cons_of_mem _ hs'))
      (fun s hs' => hn s (List.mem_cons_of_mem _ hs')) hts.symm
    rw [sameAll, hst]
    exact hsts

end

end Tree
open ToolBindings.Tree

def Step.KeepsNumbers (step : Step) : Prop :=
  ∀ {t : Tree} {cs : List Tree} (a : Arena), t.children ≠ [] → cs.length = t.children.length →
    (∀ c ∈ cs, c.Numeric) → (step t cs a).1.tree.Numeric

namespace Step
variable {step : Step}

theorem image_numeric (hs : step.KeepsNumbers) (t : Tree) (ht : t.Numeric) :
    (step.image t).Numeric := by
  by_cases h : t.children = []
  · rw [image_of_leaf h, numeric_unplaced]
    exact ht
  · rw [image_of_node h, numeric_unplaced]
    apply hs {} h (List.length_map _)
    intro c hc
    obtain ⟨c, hct, rfl⟩ := List.mem_map.1 hc
    have hsize := size_lt_of_mem_children hct
    exact image_numeric hs c (ht.children c hct)
termination_by t.size

end Step

theorem regroup_keepsNumbers {choose : Group → List Tree → List Tree × Bool}
    (hc : ∀ g {cs}, (∀ c ∈ cs, c.Numeric) → ∀ c ∈ (choose g cs).1, c.Numeric) :
    Step.KeepsNumbers (regroup choose) := by
  intro t cs a hne hlen hcs
  rw [← numeric_unplaced]
  cases t with
  | missing | terminal => exact absurd rfl hne
  | wrap i m w b =>
    obtain ⟨c, rfl⟩ := List.length_eq_one_iff.1 hlen
    rw [unplaced_regroup_wrap, numeric_wrap, numeric_unplaced]
    exact hcs c (List.mem_singleton.2 rfl)
  | group i m g bs =>
    rw [unplaced_regroup_group, numeric_group, numeric_map_unplaced]
    exact hc g hcs

theorem Flatten.step_keepsNumbers : Step.KeepsNumbers (regroup flattened) :=
  regroup_keepsNumbers (forall_mem_flattened Numeric.children)

theorem Prune.step_keepsNumbers : Step.KeepsNumbers (regroup pruned) :=
  regroup_keepsNumbers forall_mem_pruned

theorem Canonical.step_keepsNumbers : Step.KeepsNumbers (regroup ordered) :=
  regroup_keepsNumbers forall_mem_ordered

namespace Simplify

theorem Fuses.numeric {cs ds : List Tree} {fused : Bool} (h : Fuses cs ds fused)
    (hcs : ∀ c ∈ cs, c.Numeric) : ∀ d ∈ ds, d.Numeric :=
  h.forall_mem (fun _ _ => numeric_terminal.2 trivial) hcs

theorem step_keepsNumbers : Step.KeepsNumbers step := by
  intro t cs a hne hlen hcs
  rw [← numeric_unplaced]
  cases t with
  | missing | terminal => exact absurd rfl hne
  | wrap i m w b =>
    obtain ⟨c, rfl⟩ := List.length_eq_one_iff.1 hlen
    have hc := hcs c (List.mem_singleton.2 rfl)
    by_cases h : ∀ k n w' d, c = .wrap k n w' d → mergeWrappers? w w' = none
    · rw [unplaced_step_kept h, numeric_wrap, numeric_unplaced]
      exact hc
    · push Not at h
      obtain ⟨k, n, w', d, rfl, hv⟩ := h
      obtain ⟨v, hv⟩ := Option.ne_none_iff_exists'.1 hv
      rw [unplaced_step_merged hv, numeric_wrap, numeric_unplaced]
      exact numeric_wrap.1 hc
  | group i m g bs =>
    cases g with
    | sequence joint =>
      have hfused : ∀ d ∈ (fuseUnder joint cs a).1.1, d.Numeric :=
        (fuseUnder_fuses joint cs a).numeric hcs
      rw [unplaced_step_sequence]
      by_cases hlen : (fuseUnder joint cs a).1.1.length = 1
      · obtain ⟨d, hd⟩ := List.length_eq_one_iff.1 hlen
        rw [hd, collapse, numeric_relabelled]
        exact hfused d (by rw [hd]; exact List.mem_singleton.2 rfl)
      · rw [collapse_of_length_ne hlen, numeric_group, numeric_map_unplaced]
        exact hfused
    | alternative =>
      rw [unplaced_step_choice]
      have hgroup : (Tree.group 0 m .alternative (cs.map unplaced)).Numeric :=
        numeric_group.2 ((numeric_map_unplaced cs).2 hcs)
      unfold chosen
      split
      · exact (numeric_unplaced _).2 (hcs _ (List.mem_singleton.2 rfl))
      · exact hgroup

end Simplify

namespace Rewrite

theorem step_keepsNumbers (r : Rewrite) : Step.KeepsNumbers r.step := by
  cases r with
  | flatten => exact Flatten.step_keepsNumbers
  | prune => exact Prune.step_keepsNumbers
  | simplify => exact Simplify.step_keepsNumbers
  | canonicalize => exact Canonical.step_keepsNumbers

theorem images_numeric (rs : List Rewrite) {t : Tree} (h : t.Numeric) : (images rs t).Numeric := by
  induction rs generalizing t with
  | nil => exact (numeric_unplaced t).2 h
  | cons r rs ih =>
    rw [images_cons]
    exact ih (Step.image_numeric r.step_keepsNumbers t h)

end Rewrite
end ToolBindings
