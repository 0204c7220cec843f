import ToolBindings.Proofs.Arguments
import ToolBindings.Proofs.Bounds
import ToolBindings.Proofs.Labels

/-!
# Pruning and arguments

A child that its group drops gives no arguments (`argvs_of_vanishes`). A sequence gives the same without it.
A choice does not: the choice of giving nothing is gone with the child, unless another child that stays
offers it too, or nothing may be given in the place of the choice anyway, as in an optional. `Safe` says that
a tree keeps all such choices. In a repetition whose bounds contradict each other a dropped child gives not
even nothing, and a sequence that could not be given can be given without it. Pruning keeps the argument
vectors of a safe tree (`prune_argvs`).
-/
namespace ToolBindings
open ToolBindings.Tree

/-- The languages agree, except on whether nothing is given where that does not count (`free`). -/
def AgreeBut (free : Bool) (l m : Argvs) : Prop :=
  ∀ args, free = false ∨ args ≠ [] → (args ∈ l ↔ args ∈ m)

section
variable {free : Bool} {l m : Argvs} {args : List String}

theorem AgreeBut.of_eq (h : l = m) : AgreeBut free l m := fun _ _ => h ▸ Iff.rfl

theorem AgreeBut.eq (h : AgreeBut false l m) : l = m := Language.ext fun args => h args (.inl rfl)

theorem mem_prod_nil {ls : List Argvs} (h : ∀ l ∈ ls, ∀ args ∈ l, args = []) :
    ∀ args ∈ ls.prod, args = [] := by
  induction ls with
  | nil => exact fun args hargs => (Language.mem_one args).1 hargs
  | cons l ls ih =>
    obtain ⟨hl, hls⟩ := List.forall_mem_cons.1 h
    rw [List.prod_cons]
    intro args hargs
    obtain ⟨xs, hxs, ys, hys, rfl⟩ := Language.mem_mul.1 hargs
    rw [hl xs hxs, ih hls ys hys, List.append_nil]

theorem nil_mem_prod {ls : List Argvs} (h : ∀ l ∈ ls, [] ∈ l) : [] ∈ ls.prod := by
  induction ls with
  | nil => exact Language.nil_mem_one
  | cons l ls ih =>
    obtain ⟨hl, hls⟩ := List.forall_mem_cons.1 h
    rw [List.prod_cons]
    exact Language.mem_mul.2 ⟨[], hl, [], ih hls, rfl⟩

theorem mem_sum_iff {ls : List Argvs} : args ∈ ls.sum ↔ ∃ l ∈ ls, args ∈ l := by
  induction ls with
  | nil => exact iff_of_false (Language.notMem_zero args) (by simp)
  | cons l ls ih => rw [List.sum_cons, Language.mem_add, ih, List.exists_mem_cons_iff]

theorem exists_mem_pow (h : ∀ args ∈ l, args ∈ m ∨ free = true ∧ args = []) (n : Nat) :
    ∀ args ∈ l ^ n, ∃ k ≤ n, args ∈ m ^ k ∧ (free = false → k = n) := by
  induction n with
  | zero => exact fun args hargs => ⟨0, Nat.le_refl 0, hargs, fun _ => rfl⟩
  | succ n ih =>
    intro args hargs
    rw [pow_succ] at hargs
    obtain ⟨xs, hxs, ys, hys, rfl⟩ := Language.mem_mul.1 hargs
    obtain ⟨k, hk, hxs, hfree⟩ := ih xs hxs
    rcases h ys hys with hys | ⟨hfree', rfl⟩
    · refine ⟨k + 1, Nat.succ_le_succ hk, ?_, fun hf => congrArg (· + 1) (hfree hf)⟩
      rw [pow_succ]
      exact Language.mem_mul.2 ⟨xs, hxs, ys, hys, rfl⟩
    · rw [List.append_nil]
      exact ⟨k, Nat.le_succ_of_le hk, hxs, fun hf => absurd (hf.symm.trans hfree') Bool.false_ne_true⟩

end

namespace Wrapper

/-- Whether giving nothing does not count below a wrapper. It does not count in an optional, nor in a
repetition that may give nothing or in whose place nothing may be given. -/
def frees (free : Bool) : Wrapper → Bool
  | optional => true
  | repetition _ lo _ => lo.getD 0 ≤ free.toNat

variable {free : Bool} {l m : Argvs} {joint : Option String} {lo hi : Option Nat}

theorem mem_repetition_of_agreeBut (h : AgreeBut ((repetition joint lo hi).frees free) l m)
    {args : List String} (hargs : args ∈ (repetition joint lo hi).argvs l)
    (hfree : free = false ∨ args ≠ []) : args ∈ (repetition joint lo hi).argvs m := by
  obtain ⟨as, ⟨n, ⟨hlo, hhi⟩, has⟩, rfl⟩ := hargs
  have hmem : ∀ args ∈ l, args ∈ m ∨ (repetition joint lo hi).frees free = true ∧ args = [] := by
    intro args hargs
    by_cases hf : (repetition joint lo hi).frees free = true ∧ args = []
    · exact .inr hf
    · refine .inl ((h args ?_).1 hargs)
      rw [not_and_or, Bool.not_eq_true] at hf
      exact hf
  obtain ⟨k, hk, has, hkn⟩ := exists_mem_pow hmem n as has
  refine ⟨as, ⟨k, ⟨fun b hb => ?_, fun b hb => Nat.le_trans hk (hhi b hb)⟩, has⟩, rfl⟩
  -- Fewer are enough where the least number is 0, or 1 and one of them is there.
  cases hf : (repetition joint lo hi).frees free with
  | false =>
    rw [hkn hf]
    exact hlo b hb
  | true =>
    have hle : b ≤ free.toNat := by
      obtain rfl : lo = some b := hb
      exact of_decide_eq_true hf
    rcases hfree with rfl | hne
    · exact Nat.le_trans hle (Nat.zero_le k)
    · have hpos : 0 < k := by
        refine Nat.pos_of_ne_zero fun hzero => hne ?_
        rw [hzero, pow_zero] at has
        rw [(Language.mem_one as).1 has, joined_nil]
      exact Nat.le_trans (Nat.le_trans hle (Bool.toNat_le free)) hpos

theorem agreeBut_argvs (w : Wrapper) (h : AgreeBut (w.frees free) l m) :
    AgreeBut free (w.argvs l) (w.argvs m) := by
  intro args hfree
  cases w with
  | optional =>
    simp only [argvs, Language.mem_add, Language.mem_one]
    by_cases hnil : args = []
    · simp only [hnil, true_or]
    · exact or_congr_right (h args (.inr hnil))
  | repetition joint lo hi =>
    have hsymm : AgreeBut ((repetition joint lo hi).frees free) m l := fun args hf => (h args hf).symm
    exact ⟨fun hargs => mem_repetition_of_agreeBut h hargs hfree,
      fun hargs => mem_repetition_of_agreeBut hsymm hargs hfree⟩

theorem eq_nil_of_mem_argvs (w : Wrapper) (h : ∀ args ∈ l, args = []) :
    ∀ args ∈ w.argvs l, args = [] := by
  intro args hargs
  cases w with
  | optional => exact (Language.mem_add _ _ args).1 hargs |>.elim (Language.mem_one args).1 (h args)
  | repetition joint lo hi =>
    obtain ⟨as, ⟨n, -, has⟩, rfl⟩ := hargs
    have hprod : ∀ args ∈ (List.replicate n l).prod, args = [] :=
      mem_prod_nil fun l' hl' => List.eq_of_mem_replicate hl' ▸ h
    rw [List.prod_replicate] at hprod
    rw [hprod as has, joined_nil]

theorem nil_mem_argvs {w : Wrapper} (hw : w.Consistent) (h : [] ∈ l) : [] ∈ w.argvs l := by
  cases w with
  | optional => exact (Language.mem_add _ _ _).2 (.inl Language.nil_mem_one)
  | repetition joint lo hi =>
    have hpow : [] ∈ l ^ lo.getD 0 := by
      rw [← List.prod_replicate]
      exact nil_mem_prod fun l' hl' => List.eq_of_mem_replicate hl' ▸ h
    refine ⟨[], ⟨lo.getD 0, ⟨fun b hb => ?_, fun b hb => ?_⟩, hpow⟩, joined_nil joint⟩
    · obtain rfl : lo = some b := hb
      exact Nat.le_refl b
    · obtain rfl : hi = some b := hb
      cases lo with
      | none => exact Nat.zero_le b
      | some a => exact hw joint a b rfl

end Wrapper

namespace Tree

theorem forall_mem_argvsAll {P : Argvs → Prop} {cs : List Tree} :
    (∀ l ∈ argvsAll cs, P l) ↔ ∀ c ∈ cs, P c.argvs := by
  rw [argvsAll_eq_map, List.forall_mem_map]

theorem mem_sum_argvs_iff {args : List String} {cs : List Tree} :
    args ∈ (argvsAll cs).sum ↔ ∃ c ∈ cs, args ∈ c.argvs := by
  simp [mem_sum_iff, argvsAll_eq_map]

variable {i : NodeId} {m : Option Metadata} {g : Group} {cs : List Tree}

theorem eq_nil_of_mem_group (h : ∀ c ∈ cs, ∀ args ∈ c.argvs, args = []) :
    ∀ args ∈ (group i m g cs).argvs, args = [] := by
  intro args hargs
  cases g with
  | sequence joint =>
    obtain ⟨as, has, rfl⟩ := hargs
    rw [mem_prod_nil (forall_mem_argvsAll.2 h) as has, joined_nil]
  | alternative =>
    obtain ⟨c, hc, hargs⟩ := mem_sum_argvs_iff.1 hargs
    exact h c hc args hargs

theorem nil_mem_group (hin : (group i m g cs).ChoicesInhabited) (h : ∀ c ∈ cs, [] ∈ c.argvs) :
    [] ∈ (group i m g cs).argvs := by
  cases g with
  | sequence joint => exact ⟨[], nil_mem_prod (forall_mem_argvsAll.2 h), joined_nil joint⟩
  | alternative =>
    obtain ⟨c, hc⟩ := List.exists_mem_of_ne_nil cs ((choicesInhabited_group.1 hin).1 rfl)
    exact mem_sum_argvs_iff.2 ⟨c, hc, h c hc⟩

end Tree

mutual

theorem Tree.argvs_unplaced : (t : Tree) → t.unplaced.argvs = t.argvs
  | .missing _ | .terminal .. => rfl
  | .wrap _ _ _ c => by rw [unplaced_wrap, argvs, argvs_unplaced c, argvs]
  | .group _ _ _ cs => by rw [unplaced_group, argvs, argvsAll_unplaced cs, argvs]

theorem Tree.argvsAll_unplaced : (ts : List Tree) → argvsAll (ts.map unplaced) = argvsAll ts
  | [] => rfl
  | t :: ts => by rw [List.map_cons, argvsAll, argvs_unplaced t, argvsAll_unplaced ts, argvsAll]

end

namespace Prune

instance (t : Tree) : Decidable (Vanishes t) := decidable_of_iff _ (isRemovable_image_iff t)

theorem eq_nil_of_vanishes {t : Tree} (h : Vanishes t) : ∀ args ∈ t.argvs, args = [] := by
  induction h with
  | group _ ih => exact eq_nil_of_mem_group ih
  | @aroundGroup _ _ w _ _ _ _ ih => exact w.eq_nil_of_mem_argvs (eq_nil_of_mem_group ih)

theorem nil_mem_of_vanishes {t : Tree} (h : Vanishes t) (hin : t.ChoicesInhabited)
    (hbounds : t.Consistent) : [] ∈ t.argvs := by
  induction h with
  | group _ ih =>
    exact nil_mem_group hin fun c hc =>
      ih c hc ((choicesInhabited_group.1 hin).2 c hc) (consistent_group.1 hbounds c hc)
  | aroundGroup _ ih =>
    rw [choicesInhabited_wrap] at hin
    obtain ⟨hw, hbounds⟩ := consistent_wrap.1 hbounds
    refine Wrapper.nil_mem_argvs hw (nil_mem_group hin fun c hc => ?_)
    exact ih c hc ((choicesInhabited_group.1 hin).2 c hc) (consistent_group.1 hbounds c hc)

/-- A child that its group drops gives nothing, and cannot fail to. -/
theorem argvs_of_vanishes {t : Tree} (h : Vanishes t) (hin : t.ChoicesInhabited)
    (hbounds : t.Consistent) : t.argvs = 1 := by
  refine Language.ext fun args => ⟨fun hargs => ?_, fun hargs => ?_⟩
  · exact (Language.mem_one args).2 (eq_nil_of_vanishes h args hargs)
  · rw [(Language.mem_one args).1 hargs]
    exact nil_mem_of_vanishes h hin hbounds

/-- Pruning takes away no choice of giving nothing, except where nothing may be given anyway (`free`), and
takes out of sequences no child with bounds that contradict each other. -/
inductive Safe : Bool → Tree → Prop
  | terminal {free : Bool} {i : NodeId} {m : Option Metadata} {u : Terminal} :
      Safe free (.terminal i m u)
  | wrap {free : Bool} {i : NodeId} {m : Option Metadata} {w : Wrapper} {c : Tree} :
      Safe (w.frees free) c → Safe free (.wrap i m w c)
  | sequence {free : Bool} {i : NodeId} {m : Option Metadata} {joint : Option String}
      {cs : List Tree} :
      (∀ c ∈ cs, Vanishes c → c.Consistent) → (∀ c ∈ cs, ¬ Vanishes c → Safe false c) →
      Safe free (.group i m (.sequence joint) cs)
  | choice {free : Bool} {i : NodeId} {m : Option Metadata} {cs : List Tree} :
      (∀ c ∈ cs, Vanishes c → free = true ∨ [] ∉ c.argvs) → (∀ c ∈ cs, ¬ Vanishes c → Safe free c) →
      Safe free (.group i m .alternative cs)
  | choiceBeside {free : Bool} {i : NodeId} {m : Option Metadata} {cs : List Tree} {d : Tree} :
      d ∈ cs → ¬ Vanishes d → [] ∈ d.argvs → Safe false d → (∀ c ∈ cs, ¬ Vanishes c → Safe true c) →
      Safe free (.group i m .alternative cs)

theorem prod_kept {cs : List Tree} (hdropped : ∀ c ∈ cs, Vanishes c → c.argvs = 1)
    (hstays : ∀ c ∈ cs, ¬ Vanishes c → (Rewrite.prune.image c).argvs = c.argvs) :
    (argvsAll (kept (cs.map Rewrite.prune.image))).prod = (argvsAll cs).prod := by
  induction cs with
  | nil => rfl
  | cons c cs ih =>
    obtain ⟨hc, hdropped⟩ := List.forall_mem_cons.1 hdropped
    obtain ⟨hc', hstays⟩ := List.forall_mem_cons.1 hstays
    have ih := ih hdropped hstays
    unfold kept at ih ⊢
    rw [List.map_cons, argvsAll, List.prod_cons]
    by_cases hv : Vanishes c
    · have hr := (isRemovable_image_iff c).2 hv
      rw [List.filter_cons_of_neg (by simp [hr]), ih, hc hv, one_mul]
    · have hr : isRemovable (Rewrite.prune.image c) = false :=
        Bool.eq_false_iff.2 (mt (isRemovable_image_iff c).1 hv)
      rw [List.filter_cons_of_pos (by simp [hr]), argvsAll, List.prod_cons, ih, hc' hv]

theorem mem_sum_kept_iff {args : List String} {cs : List Tree} :
    args ∈ (argvsAll (kept (cs.map Rewrite.prune.image))).sum ↔
      ∃ c ∈ cs, ¬ Vanishes c ∧ args ∈ (Rewrite.prune.image c).argvs := by
  simp only [mem_sum_argvs_iff, kept, List.mem_filter, List.mem_map, Bool.not_eq_true',
    ← isRemovable_image_iff, Bool.not_eq_true]
  constructor
  · rintro ⟨_, ⟨⟨c, hc, rfl⟩, hr⟩, hargs⟩
    exact ⟨c, hc, hr, hargs⟩
  · rintro ⟨c, hc, hr, hargs⟩
    exact ⟨_, ⟨⟨c, hc, rfl⟩, hr⟩, hargs⟩

/-- What is left of a safe tree gives what the tree gives. -/
theorem agreeBut_image {free : Bool} {t : Tree} (h : Safe free t) (hin : t.ChoicesInhabited) :
    AgreeBut free (Rewrite.prune.image t).argvs t.argvs := by
  induction h with
  | terminal => exact .of_eq rfl
  | wrap _ ih =>
    rw [image_wrap]
    exact Wrapper.agreeBut_argvs _ (ih (choicesInhabited_wrap.1 hin))
  | @sequence free i m joint cs hbounds _ ih =>
    obtain ⟨-, hin⟩ := choicesInhabited_group.1 hin
    have hprod := prod_kept (fun c hc hv => argvs_of_vanishes hv (hin c hc) (hbounds c hc hv))
      fun c hc hv => (ih c hc hv (hin c hc)).eq
    rw [image_group]
    exact .of_eq (congrArg (glued joint) hprod)
  | @choice free i m cs hdropped _ ih =>
    obtain ⟨-, hin⟩ := choicesInhabited_group.1 hin
    rw [image_group]
    intro args hfree
    refine mem_sum_kept_iff.trans (.trans ⟨?_, ?_⟩ mem_sum_argvs_iff.symm)
    · rintro ⟨c, hc, hv, hargs⟩
      exact ⟨c, hc, (ih c hc hv (hin c hc) args hfree).1 hargs⟩
    · rintro ⟨c, hc, hargs⟩
      by_cases hv : Vanishes c
      · obtain rfl := eq_nil_of_vanishes hv args hargs
        rcases hdropped c hc hv with rfl | hnot
        · exact absurd hfree (by simp)
        · exact absurd hargs hnot
      · exact ⟨c, hc, hv, (ih c hc hv (hin c hc) args hfree).2 hargs⟩
  | @choiceBeside free i m cs d hd hstays hnil _ _ ihd ih =>
    obtain ⟨-, hin⟩ := choicesInhabited_group.1 hin
    have hnil' : [] ∈ (Rewrite.prune.image d).argvs := (ihd (hin d hd)).eq ▸ hnil
    rw [image_group]
    intro args _
    refine mem_sum_kept_iff.trans (.trans ?_ mem_sum_argvs_iff.symm)
    by_cases hargs : args = []
    · subst hargs
      exact iff_of_true ⟨d, hd, hstays, hnil'⟩ ⟨d, hd, hnil⟩
    · constructor
      · rintro ⟨c, hc, hv, h⟩
        exact ⟨c, hc, (ih c hc hv (hin c hc) args (.inr hargs)).1 h⟩
      · rintro ⟨c, hc, h⟩
        have hv : ¬ Vanishes c := fun hv => hargs (eq_nil_of_vanishes hv args h)
        exact ⟨c, hc, hv, (ih c hc hv (hin c hc) args (.inr hargs)).2 h⟩

end Prune

namespace Tree
variable {a : Arena} {root : NodeId}

/-- Pruning keeps the argument vectors of a safe tree in which every choice has a child. -/
theorem prune_argvs (h : a.Holds (a.tree root)) (hin : (a.tree root).ChoicesInhabited)
    (hsafe : Prune.Safe false (a.tree root)) :
    ∃ out b, (Rewrite.prune.run (a.tree root)).run a = (.ok out, b) ∧
      (b.tree out.tree.id).argvs = (a.tree root).argvs := by
  obtain ⟨out, b, hrun, himage⟩ := Rewrite.prune.exists_run_image h
  refine ⟨out, b, hrun, ?_⟩
  rw [← argvs_unplaced, himage]
  exact (Prune.agreeBut_image hsafe hin).eq

end Tree

def Arena.choices : Arena := ⟨#[
  ⟨.group (.sequence none) [], none⟩,
  ⟨.group .alternative [0], none⟩,
  ⟨.terminal .str, none⟩,
  ⟨.wrap .optional 2, none⟩,
  ⟨.group .alternative [0, 3], none⟩,
  ⟨.group .alternative [1, 2], none⟩,
  ⟨.wrap (.repetition none (some 1) none) 5, none⟩,
  ⟨.wrap .optional 6, none⟩,
  ⟨.wrap (.repetition (some ",") (some 1) (some 3)) 0, none⟩,
  ⟨.group (.sequence none) [1, 4, 7, 8], none⟩]⟩

def Arena.nothingOrText : Arena := ⟨#[
  ⟨.group (.sequence none) [], none⟩,
  ⟨.terminal (.literal "a"), none⟩,
  ⟨.group .alternative [0, 1], none⟩]⟩

def Arena.impossible : Arena := ⟨#[
  ⟨.group (.sequence none) [], none⟩,
  ⟨.wrap (.repetition none (some 2) (some 1)) 0, none⟩,
  ⟨.terminal (.literal "a"), none⟩,
  ⟨.group (.sequence none) [1, 2], none⟩]⟩

namespace Tree
open Prune

theorem prune_argvs_choices : Arena.choices.Holds (Arena.choices.tree 9) ∧
    (Arena.choices.tree 9).ChoicesInhabited ∧ Prune.Safe false (Arena.choices.tree 9) ∧
    ∃ out b, (Rewrite.prune.run (Arena.choices.tree 9)).run Arena.choices = (.ok out, b) ∧
      out.status = .changed ∧ (b.tree out.tree.id).argvs = (Arena.choices.tree 9).argvs := by
  have hholds : Arena.choices.Holds (Arena.choices.tree 9) :=
    Arena.holds_tree (by decide) (by decide)
  have hin : (Arena.choices.tree 9).ChoicesInhabited := by decide
  have hbeside : Prune.Safe false (Arena.choices.tree 4) := by
    refine .choiceBeside (List.mem_cons_of_mem _ List.mem_cons_self) (by decide) (.inl rfl)
      (.wrap .terminal) ?_
    refine List.forall_mem_cons.2 ⟨fun hv => absurd (by decide) hv, ?_⟩
    exact List.forall_mem_singleton.2 fun _ => .wrap .terminal
  have hfree : Prune.Safe false (Arena.choices.tree 7) := by
    refine .wrap (.wrap (.choice (fun _ _ _ => .inl rfl) ?_))
    refine List.forall_mem_cons.2 ⟨fun hv => absurd (by decide) hv, ?_⟩
    exact List.forall_mem_singleton.2 fun _ => .terminal
  have hsafe : Prune.Safe false (Arena.choices.tree 9) := by
    refine .sequence (by decide) ?_
    refine List.forall_mem_cons.2 ⟨fun hv => absurd (by decide) hv, ?_⟩
    refine List.forall_mem_cons.2 ⟨fun _ => hbeside, List.forall_mem_cons.2 ⟨fun _ => hfree, ?_⟩⟩
    exact List.forall_mem_singleton.2 fun hv => absurd (by decide) hv
  obtain ⟨out, b, hrun, hargvs⟩ := prune_argvs hholds hin hsafe
  have hstatus : out.status = .changed := by
    cases hrun
    rfl
  exact ⟨hholds, hin, hsafe, out, b, hrun, hstatus, hargvs⟩

theorem prune_argvs_ne :
    ((Arena.nothingOrText.tree 2).ChoicesInhabited ∧
      ∃ out b, (Rewrite.prune.run (Arena.nothingOrText.tree 2)).run Arena.nothingOrText =
          (.ok out, b) ∧
        [] ∈ (Arena.nothingOrText.tree 2).argvs ∧ [] ∉ (b.tree out.tree.id).argvs) ∧
    (Arena.impossible.tree 3).ChoicesInhabited ∧
      ∃ out b, (Rewrite.prune.run (Arena.impossible.tree 3)).run Arena.impossible = (.ok out, b) ∧
        ["a"] ∉ (Arena.impossible.tree 3).argvs ∧ ["a"] ∈ (b.tree out.tree.id).argvs := by
  refine ⟨⟨by decide, _, _, rfl, .inl ⟨[], rfl, rfl⟩, ?_⟩, by decide, _, _, rfl, ?_, ?_⟩
  · rintro (hnil | hnil)
    · exact absurd (show ([] : List String) = ["a"] from hnil) (by decide)
    · exact Language.notMem_zero _ hnil
  · rintro ⟨_, ⟨_, ⟨_, ⟨n, ⟨hlo, hhi⟩, -⟩, -⟩, _, -, -⟩, -⟩
    have hle := Nat.le_trans (hlo 2 rfl) (hhi 1 rfl)
    exact absurd hle (by decide)
  · exact ⟨["a"], ⟨["a"], rfl, [], rfl, rfl⟩, rfl⟩

end Tree
end ToolBindings
