import Mathlib.Data.List.Chain
import ToolBindings.Proofs.Redex

/-!
# Simplification step by step

The step records what it makes of a node, fires where two wrappers merge, where two literals fuse or
where a group has an only child that takes its place, and rests elsewhere. `Fuses` says what becomes
of the children of a sequence.
-/
namespace ToolBindings.Simplify

theorem fusedText?_eq_some_iff {c d : Tree} {text : String} : fusedText? c d = some text ↔
    ∃ k l s u, c = .terminal k none (.literal s) ∧ d = .terminal l none (.literal u) ∧
      text = s ++ u := by
  constructor
  · intro h
    obtain ⟨s, hs, h⟩ := Option.bind_eq_some_iff.1 h
    obtain ⟨u, hu, h⟩ := Option.bind_eq_some_iff.1 h
    unfold plainLiteral? at hs hu
    split at hs <;> split at hu <;> cases hs <;> cases hu
    exact ⟨_, _, _, _, rfl, rfl, (Option.some.inj h).symm⟩
  · rintro ⟨k, l, s, u, rfl, rfl, rfl⟩
    rfl

inductive Fuses : List Tree → List Tree → Bool → Prop
  | nil : Fuses [] [] false
  | skip {c : Tree} {cs ds : List Tree} {fused : Bool} :
      Fuses cs ds fused → Fuses (c :: cs) (c :: ds) fused
  | fuse {j k l : NodeId} {s u : String} {cs ds : List Tree} {fused : Bool} :
      Fuses (.terminal j none (.literal (s ++ u)) :: cs) ds fused →
      Fuses (.terminal k none (.literal s) :: .terminal l none (.literal u) :: cs) ds true

theorem Fuses.forall_mem {P : Tree → Prop} (hP : ∀ i text, P (.terminal i none (.literal text)))
    {cs ds : List Tree} {fused : Bool} (h : Fuses cs ds fused) (hcs : ∀ c ∈ cs, P c) :
    ∀ d ∈ ds, P d := by
  induction h with
  | nil => exact hcs
  | skip _ ih =>
    obtain ⟨hc, hcs⟩ := List.forall_mem_cons.1 hcs
    exact List.forall_mem_cons.2 ⟨hc, ih hcs⟩
  | fuse _ ih =>
    obtain ⟨-, hcs⟩ := List.forall_mem_cons.1 hcs
    obtain ⟨-, hcs⟩ := List.forall_mem_cons.1 hcs
    exact ih (List.forall_mem_cons.2 ⟨hP _ _, hcs⟩)

abbrev Apart (c d : Tree) : Prop := fusedText? c d = none

theorem apart_iff {c d : Tree} : Apart c d ↔ plainLiteral? c = none ∨ plainLiteral? d = none := by
  unfold Apart fusedText?
  cases plainLiteral? c <;> cases plainLiteral? d <;> simp

theorem isChain_apart_iff {cs : List Tree} : cs.IsChain Apart ↔
    (cs.map plainLiteral?).IsChain fun x y => x = none ∨ y = none := by
  rw [List.isChain_map]
  exact ⟨fun h => h.imp fun c d => apart_iff.1, fun h => h.imp fun c d => apart_iff.2⟩

theorem fuseFrom_apart {c d : Tree} (h : Apart c d) (ds : List Tree) (a : Arena) :
    fuseFrom c (d :: ds) a =
      let r := fuseFrom d ds a
      ((c :: r.1.1, r.1.2), r.2) := by
  rw [fuseFrom, h]
  rfl

theorem fuseFrom_fused {c d : Tree} {text : String} (h : fusedText? c d = some text)
    (ds : List Tree) (a : Arena) :
    fuseFrom c (d :: ds) a =
      let r := fuseFrom (.terminal a.size none (.literal text)) ds
        (a.push ⟨.terminal (.literal text), none⟩)
      ((r.1.1, true), r.2) := by
  rw [fuseFrom, h]
  rfl

theorem fuseFrom_fuses (c : Tree) (ds : List Tree) (a : Arena) :
    Fuses (c :: ds) (fuseFrom c ds a).1.1 (fuseFrom c ds a).1.2 := by
  induction ds generalizing c a with
  | nil => exact .skip .nil
  | cons d ds ih =>
    cases h : fusedText? c d with
    | none =>
      rw [fuseFrom_apart h]
      exact .skip (ih d a)
    | some text =>
      rw [fuseFrom_fused h]
      obtain ⟨k, l, s, u, rfl, rfl, rfl⟩ := fusedText?_eq_some_iff.1 h
      exact .fuse (ih _ _)

theorem fuse_fuses (cs : List Tree) (a : Arena) : Fuses cs (fuse cs a).1.1 (fuse cs a).1.2 := by
  cases cs with
  | nil => exact .nil
  | cons c cs => exact fuseFrom_fuses c cs a

theorem fuseFrom_of_isChain {c : Tree} {ds : List Tree} (h : (c :: ds).IsChain Apart)
    (a : Arena) : fuseFrom c ds a = ((c :: ds, false), a) := by
  induction ds generalizing c with
  | nil => rfl
  | cons d ds ih =>
    obtain ⟨hcd, hds⟩ := List.isChain_cons_cons.1 h
    rw [fuseFrom_apart hcd, ih hds]

theorem fuse_of_isChain {cs : List Tree} (h : cs.IsChain Apart) (a : Arena) :
    fuse cs a = ((cs, false), a) := by
  cases cs with
  | nil => rfl
  | cons c cs => exact fuseFrom_of_isChain h a

theorem isChain_of_fuseFrom {c : Tree} {ds : List Tree} {a : Arena}
    (h : (fuseFrom c ds a).1.2 = false) : (c :: ds).IsChain Apart := by
  induction ds generalizing c with
  | nil => exact List.isChain_singleton c
  | cons d ds ih =>
    cases hcd : fusedText? c d with
    | none =>
      rw [fuseFrom_apart hcd] at h
      exact List.isChain_cons_cons.2 ⟨hcd, ih h⟩
    | some text =>
      rw [fuseFrom_fused hcd] at h
      cases h

theorem isChain_of_fuse {cs : List Tree} {a : Arena} (h : (fuse cs a).1.2 = false) :
    cs.IsChain Apart := by
  cases cs with
  | nil => exact .nil
  | cons c cs => exact isChain_of_fuseFrom h

/-- What is left of a child and those that follow it begins with a literal if the child is one, and no two
neighbours in it fuse. -/
theorem exists_fuseFrom (c : Tree) (ds : List Tree) (a : Arena) :
    ∃ e es, (fuseFrom c ds a).1.1 = e :: es ∧
      (plainLiteral? e = none ↔ plainLiteral? c = none) ∧ (e :: es).IsChain Apart := by
  -- Any child can stand at the head in the induction, because the head changes when it takes in a literal.
  induction ds generalizing c a with
  | nil => exact ⟨c, [], rfl, Iff.rfl, List.isChain_singleton c⟩
  | cons d ds ih =>
    cases h : fusedText? c d with
    | none =>
      rw [fuseFrom_apart h]
      obtain ⟨e, es, heq, hhead, hchain⟩ := ih d a
      have hce : Apart c e := apart_iff.2 ((apart_iff.1 h).imp_right hhead.2)
      exact ⟨c, e :: es, congrArg (c :: ·) heq, Iff.rfl, List.isChain_cons_cons.2 ⟨hce, hchain⟩⟩
    | some text =>
      rw [fuseFrom_fused h]
      obtain ⟨k, l, s, u, rfl, rfl, -⟩ := fusedText?_eq_some_iff.1 h
      obtain ⟨e, es, heq, hhead, hchain⟩ := ih (.terminal a.size none (.literal text))
        (a.push ⟨.terminal (.literal text), none⟩)
      exact ⟨e, es, heq, hhead.trans (by simp [plainLiteral?]), hchain⟩

theorem isChain_fuse (cs : List Tree) (a : Arena) : (fuse cs a).1.1.IsChain Apart := by
  cases cs with
  | nil => exact .nil
  | cons c cs =>
    obtain ⟨e, es, heq, -, hchain⟩ := exists_fuseFrom c cs a
    exact heq ▸ hchain

structure RecordedAll (a : Arena) (ts : List Tree) (b : Arena) : Prop where
  extends_arena : b.Extends a
  holds : ∀ t ∈ ts, b.Holds t

theorem recorded_fuseFrom {a : Arena} {c : Tree} {ds : List Tree} (hc : a.Holds c)
    (hds : ∀ d ∈ ds, a.Holds d) :
    RecordedAll a (fuseFrom c ds a).1.1 (fuseFrom c ds a).2 := by
  induction ds generalizing c a with
  | nil => exact ⟨.refl a, fun t ht => List.mem_singleton.1 ht ▸ hc⟩
  | cons d ds ih =>
    obtain ⟨hd, hds⟩ := List.forall_mem_cons.1 hds
    cases h : fusedText? c d with
    | none =>
      rw [fuseFrom_apart h]
      have hrec := ih hd hds
      exact ⟨hrec.extends_arena,
        List.forall_mem_cons.2 ⟨hc.mono hrec.extends_arena, hrec.holds⟩⟩
    | some text =>
      rw [fuseFrom_fused h]
      have hnew := Tree.recorded_newTerminal a none (.literal text)
      have hrec := ih hnew.holds fun e he => (hds e he).mono hnew.extends_arena
      exact ⟨hrec.extends_arena.trans hnew.extends_arena, hrec.holds⟩

theorem recorded_fuse {a : Arena} {cs : List Tree} (hcs : ∀ c ∈ cs, a.Holds c) :
    RecordedAll a (fuse cs a).1.1 (fuse cs a).2 := by
  cases cs with
  | nil => exact ⟨.refl a, hcs⟩
  | cons c cs =>
    obtain ⟨hc, hcs⟩ := List.forall_mem_cons.1 hcs
    exact recorded_fuseFrom hc hcs

theorem mergeWrappers?_repetition {joint joint' : Option String} {lo lo' hi hi' : Option Nat} :
    (mergeWrappers? (.repetition joint lo hi) (.repetition joint' lo' hi')).isSome ↔
      ∀ l u, Option.merge Nat.max lo lo' = some l → Option.merge Nat.min hi hi' = some u →
        l ≤ u := by
  change (if contradict (Option.merge Nat.max lo lo') (Option.merge Nat.min hi hi') then none
    else some _).isSome ↔ _
  cases Option.merge Nat.max lo lo' <;> cases Option.merge Nat.min hi hi' <;> simp [contradict]

theorem mergeWrappers?_repetition_eq_none {joint joint' : Option String}
    {lo lo' hi hi' : Option Nat} :
    mergeWrappers? (.repetition joint lo hi) (.repetition joint' lo' hi') = none ↔
      ∃ l u, Option.merge Nat.max lo lo' = some l ∧ Option.merge Nat.min hi hi' = some u ∧
        u < l := by
  rw [← Option.not_isSome_iff_eq_none, mergeWrappers?_repetition]
  push Not
  rfl

theorem exists_le_merge_max (x : Option Nat) {y z : Option Nat} {l : Nat}
    (h : Option.merge Nat.max y z = some l) :
    ∃ k, Option.merge Nat.max (Option.merge Nat.max x y) z = some k ∧ l ≤ k := by
  have hassoc : Option.merge Nat.max (Option.merge Nat.max x y) z =
      Option.merge Nat.max x (Option.merge Nat.max y z) := Std.Associative.assoc x y z
  rw [hassoc, h]
  cases x with
  | none => exact ⟨l, rfl, Nat.le_refl l⟩
  | some j => exact ⟨max j l, rfl, Nat.le_max_right j l⟩

theorem exists_merge_min_le (x : Option Nat) {y z : Option Nat} {u : Nat}
    (h : Option.merge Nat.min y z = some u) :
    ∃ k, Option.merge Nat.min (Option.merge Nat.min x y) z = some k ∧ k ≤ u := by
  have hassoc : Option.merge Nat.min (Option.merge Nat.min x y) z =
      Option.merge Nat.min x (Option.merge Nat.min y z) := Std.Associative.assoc x y z
  rw [hassoc, h]
  cases x with
  | none => exact ⟨u, rfl, Nat.le_refl u⟩
  | some j => exact ⟨min j u, rfl, Nat.min_le_right j u⟩

/-- Bounds that contradict others still do when they have become stricter. -/
theorem mergeWrappers?_eq_none_of_merged {w w' w'' v : Wrapper} (hv : mergeWrappers? w w' = some v)
    (h : mergeWrappers? w' w'' = none) : mergeWrappers? v w'' = none := by
  cases w with
  | optional =>
    cases w' with
    | optional => exact Option.some.inj hv ▸ h
    | repetition => cases hv
  | repetition joint lo hi =>
    cases w' with
    | optional => cases hv
    | repetition joint' lo' hi' =>
      simp only [mergeWrappers?] at hv
      split at hv
      · cases hv
      · cases hv
        cases w'' with
        | optional => rfl
        | repetition joint'' lo'' hi'' =>
          rw [mergeWrappers?_repetition_eq_none] at h ⊢
          obtain ⟨l, u, hl, hu, hlt⟩ := h
          obtain ⟨l', hl', hle⟩ := exists_le_merge_max lo hl
          obtain ⟨u', hu', hle'⟩ := exists_merge_min_le hi hu
          exact ⟨l', u', hl', hu', by omega⟩

theorem redex_wrap_iff {i : NodeId} {m : Option Metadata} {w : Wrapper} {c : Tree} :
    Redex (.wrap i m w c) ↔ ∃ k n w' d v, c = .wrap k n w' d ∧ mergeWrappers? w w' = some v := by
  constructor
  · intro h
    cases h with
    | optional => exact ⟨_, _, _, _, _, rfl, rfl⟩
    | repetition h =>
      obtain ⟨v, hv⟩ := Option.isSome_iff_exists.1 (mergeWrappers?_repetition.2 h)
      exact ⟨_, _, _, _, v, rfl, hv⟩
  · rintro ⟨k, n, w', d, v, rfl, hv⟩
    cases w <;> cases w'
    · exact .optional
    · cases hv
    · cases hv
    · exact .repetition (mergeWrappers?_repetition.1 (Option.isSome_of_eq_some hv))

theorem not_redex_wrap_iff {i : NodeId} {m : Option Metadata} {w : Wrapper} {c : Tree} :
    ¬ Redex (.wrap i m w c) ↔ ∀ k n w' d, c = .wrap k n w' d → mergeWrappers? w w' = none := by
  rw [redex_wrap_iff]
  constructor
  · intro h k n w' d hc
    exact Option.eq_none_iff_forall_ne_some.2 fun v hv => h ⟨k, n, w', d, v, hc, hv⟩
  · rintro h ⟨k, n, w', d, v, hc, hv⟩
    cases (h k n w' d hc).symm.trans hv

theorem redex_choice_iff {i : NodeId} {m : Option Metadata} {cs : List Tree} :
    Redex (.group i m .alternative cs) ↔ m = none ∧ cs.length = 1 := by
  constructor
  · rintro ⟨⟩
    exact ⟨rfl, rfl⟩
  · rintro ⟨rfl, h⟩
    obtain ⟨c, rfl⟩ := List.length_eq_one_iff.1 h
    exact .onlyChoice

theorem wrapped_merged {t c : Tree} {k : NodeId} {n : Option Metadata} {w w' v : Wrapper}
    (h : mergeWrappers? w w' = some v) (a : Arena) :
    wrapped t w (.wrap k n w' c) a =
      let r := Tree.newWrap (Metadata.merge t.metadata n) v c a
      (⟨r.1, true⟩, r.2) := by
  rw [wrapped, h]
  rfl

theorem wrapped_kept {t c : Tree} {w : Wrapper}
    (h : ∀ k n w' d, c = .wrap k n w' d → mergeWrappers? w w' = none) (a : Arena) :
    wrapped t w c a =
      let r := t.withChildren [c] a
      (⟨r.1, false⟩, r.2) := by
  cases c with
  | wrap k n w' d =>
    rw [wrapped, h k n w' d rfl]
    rfl
  | missing | terminal | group => rfl

theorem wrapped_cases (t : Tree) (w : Wrapper) (c : Tree) (a : Arena) :
    (∃ k n w' d v, c = .wrap k n w' d ∧ mergeWrappers? w w' = some v ∧
      wrapped t w c a =
        let r := Tree.newWrap (Metadata.merge t.metadata n) v d a
        (⟨r.1, true⟩, r.2)) ∨
    (∀ k n w' d, c = .wrap k n w' d → mergeWrappers? w w' = none) ∧
      wrapped t w c a =
        let r := t.withChildren [c] a
        (⟨r.1, false⟩, r.2) := by
  by_cases h : ∀ k n w' d, c = .wrap k n w' d → mergeWrappers? w w' = none
  · exact .inr ⟨h, wrapped_kept h a⟩
  · push Not at h
    obtain ⟨k, n, w', d, rfl, hv⟩ := h
    obtain ⟨v, hv⟩ := Option.ne_none_iff_exists'.1 hv
    exact .inl ⟨k, n, w', d, v, rfl, hv, wrapped_merged hv a⟩

theorem collapsed_of_length_ne {cs : List Tree} (h : cs.length ≠ 1) (t : Tree) (fused : Bool)
    (a : Arena) : collapsed t cs fused a =
      let r := t.withChildren cs a
      (⟨r.1, fused⟩, r.2) := by
  match cs with
  | [] => rfl
  | [c] => exact absurd rfl h
  | _ :: _ :: _ => rfl

theorem collapsed_cases (t : Tree) (cs : List Tree) (fused : Bool) (a : Arena) :
    (∃ c, cs = [c] ∧ collapsed t cs fused a =
      let r := c.withMetadata (Metadata.merge t.metadata c.metadata) a
      (⟨r.1, true⟩, r.2)) ∨
    cs.length ≠ 1 ∧ collapsed t cs fused a =
      let r := t.withChildren cs a
      (⟨r.1, fused⟩, r.2) := by
  by_cases h : cs.length = 1
  · obtain ⟨c, rfl⟩ := List.length_eq_one_iff.1 h
    exact .inl ⟨c, rfl, rfl⟩
  · exact .inr ⟨h, collapsed_of_length_ne h t fused a⟩

theorem fuseUnder_fuses (joint : Option String) (cs : List Tree) (a : Arena) :
    Fuses cs (fuseUnder joint cs a).1.1 (fuseUnder joint cs a).1.2 := by
  unfold fuseUnder
  split
  · exact fuse_fuses cs a
  · change Fuses cs cs false
    induction cs with
    | nil => exact .nil
    | cons c cs ih => exact .skip ih

theorem isChain_fuseUnder {joint : Option String} (hj : isPlain joint = true) (cs : List Tree)
    (a : Arena) : (fuseUnder joint cs a).1.1.IsChain Apart := by
  rw [fuseUnder, if_pos hj]
  exact isChain_fuse cs a

theorem recorded_fuseUnder (joint : Option String) {a : Arena} {cs : List Tree}
    (hcs : ∀ c ∈ cs, a.Holds c) :
    RecordedAll a (fuseUnder joint cs a).1.1 (fuseUnder joint cs a).2 := by
  unfold fuseUnder
  split
  · exact recorded_fuse hcs
  · exact ⟨.refl a, hcs⟩

theorem step_sequence (i : NodeId) (m : Option Metadata) (joint : Option String)
    (bs cs : List Tree) (a : Arena) :
    step (.group i m (.sequence joint) bs) cs a =
      let r := fuseUnder joint cs a
      collapsed (.group i m (.sequence joint) bs) r.1.1 r.1.2 r.2 := rfl

theorem step_sequence_cases (i : NodeId) (m : Option Metadata) (joint : Option String)
    (bs cs : List Tree) (a : Arena) :
    (∃ c, (fuseUnder joint cs a).1.1 = [c] ∧ step (.group i m (.sequence joint) bs) cs a =
      let r := c.withMetadata (Metadata.merge m c.metadata) (fuseUnder joint cs a).2
      (⟨r.1, true⟩, r.2)) ∨
    (fuseUnder joint cs a).1.1.length ≠ 1 ∧ step (.group i m (.sequence joint) bs) cs a =
      let r := (Tree.group i m (.sequence joint) bs).withChildren (fuseUnder joint cs a).1.1
        (fuseUnder joint cs a).2
      (⟨r.1, (fuseUnder joint cs a).1.2⟩, r.2) :=
  collapsed_cases (.group i m (.sequence joint) bs) _ _ _

theorem step_wrap (i : NodeId) (m : Option Metadata) (w : Wrapper) (b c : Tree) :
    step (.wrap i m w b) [c] = wrapped (.wrap i m w b) w c := rfl

theorem step_choice_cases (i : NodeId) (m : Option Metadata) (bs cs : List Tree) (a : Arena) :
    (∃ c, m = none ∧ cs = [c] ∧ step (.group i m .alternative bs) cs a = (⟨c, true⟩, a)) ∨
    ¬ (m = none ∧ cs.length = 1) ∧ step (.group i m .alternative bs) cs a =
      let r := (Tree.group i m .alternative bs).withChildren cs a
      (⟨r.1, false⟩, r.2) := by
  match m, cs with
  | none, [c] => exact .inl ⟨c, rfl, rfl, rfl⟩
  | none, [] | none, _ :: _ :: _ => exact .inr ⟨by simp, rfl⟩
  | some m, cs => exact .inr ⟨by simp, rfl⟩

theorem step_records : Step.Records step := by
  intro a t cs ht hcs
  cases t with
  | missing | terminal => exact .refl ht
  | wrap i m w b =>
    match cs with
    | [] | _ :: _ :: _ => exact Tree.recorded_withChildren ht hcs
    | [c] =>
      rw [step_wrap]
      rcases wrapped_cases (.wrap i m w b) w c a with ⟨k, n, w', d, v, rfl, -, h⟩ | ⟨-, h⟩ <;> rw [h]
      · have hd := (hcs _ List.mem_cons_self).children d (List.mem_singleton.2 rfl)
        exact Tree.recorded_newWrap _ v hd
      · exact Tree.recorded_withChildren ht hcs
  | group i m g bs =>
    cases g with
    | sequence joint =>
      have hrec := recorded_fuseUnder joint hcs
      have ht' := ht.mono hrec.extends_arena
      rcases step_sequence_cases i m joint bs cs a with ⟨c, hc, h⟩ | ⟨-, h⟩ <;> simp only [h]
      · have hcb := hrec.holds c (hc ▸ List.mem_singleton.2 rfl)
        have hout := Tree.recorded_withMetadata hcb (Metadata.merge m c.metadata)
        exact ⟨hout.extends_arena.trans hrec.extends_arena, hout.holds⟩
      · have hout := Tree.recorded_withChildren ht' hrec.holds
        exact ⟨hout.extends_arena.trans hrec.extends_arena, hout.holds⟩
    | alternative =>
      rcases step_choice_cases i m bs cs a with ⟨c, -, rfl, h⟩ | ⟨-, h⟩ <;> rw [h]
      · exact .refl (hcs c List.mem_cons_self)
      · exact Tree.recorded_withChildren ht hcs

theorem isPlain_iff {joint : Option String} :
    isPlain joint = true ↔ joint = none ∨ joint = some "" := by
  cases joint <;> simp [isPlain]

theorem redex_sequence_iff {i : NodeId} {m : Option Metadata} {joint : Option String}
    {cs : List Tree} : Redex (.group i m (.sequence joint) cs) ↔
      cs.length = 1 ∨ isPlain joint = true ∧ ¬ cs.IsChain Apart := by
  constructor
  · intro h
    cases h with
    | onlyChild => exact .inl rfl
    | literals hj =>
      refine .inr ⟨isPlain_iff.2 hj, fun hchain => ?_⟩
      have hapart := List.isChain_iff_forall_rel_of_append_cons_cons.1 hchain rfl
      cases hapart
  · rintro (h | ⟨hj, hchain⟩)
    · obtain ⟨c, rfl⟩ := List.length_eq_one_iff.1 h
      exact .onlyChild
    · rw [List.isChain_iff_forall_rel_of_append_cons_cons] at hchain
      push Not at hchain
      obtain ⟨c, d, xs, ys, rfl, hcd⟩ := hchain
      obtain ⟨text, htext⟩ := Option.ne_none_iff_exists'.1 hcd
      obtain ⟨k, l, s, u, rfl, rfl, -⟩ := fusedText?_eq_some_iff.1 htext
      exact .literals (isPlain_iff.1 hj)

theorem not_redex_sequence_iff {i : NodeId} {m : Option Metadata} {joint : Option String}
    {cs : List Tree} : ¬ Redex (.group i m (.sequence joint) cs) ↔
      cs.length ≠ 1 ∧ (isPlain joint = true → cs.IsChain Apart) := by
  rw [redex_sequence_iff, not_or, not_and, not_not]

theorem fuseUnder_changed {joint : Option String} {cs : List Tree} (a : Arena)
    (hj : isPlain joint = true) (hchain : ¬ cs.IsChain Apart) :
    (fuseUnder joint cs a).1.2 = true := by
  rw [fuseUnder, if_pos hj]
  exact Bool.not_eq_false _ ▸ fun h => hchain (isChain_of_fuse h)

theorem fuseUnder_eq_self {joint : Option String} {cs : List Tree} (a : Arena)
    (h : isPlain joint = true → cs.IsChain Apart) : fuseUnder joint cs a = ((cs, false), a) := by
  unfold fuseUnder
  split
  · next hj => exact fuse_of_isChain (h hj) a
  · rfl

theorem step_firesAt : Step.FiresAt step Redex where
  leaf {t} hc h := by
    cases h with
    | optional | repetition | onlyChild | onlyChoice => cases hc
    | literals => exact List.append_ne_nil_of_right_ne_nil _ (List.cons_ne_nil _ _) hc
  fires {a t} _ h := by
    cases t with
    | missing | terminal => cases h
    | wrap i m w c =>
      rw [Tree.children_wrap, step_wrap]
      obtain ⟨k, n, w', d, v, rfl, hv⟩ := redex_wrap_iff.1 h
      rw [wrapped_merged hv]
    | group i m g cs =>
      rw [Tree.children_group]
      cases g with
      | sequence joint =>
        rcases step_sequence_cases i m joint cs cs a with ⟨c, -, heq⟩ | ⟨hlen, heq⟩ <;>
          simp only [heq]
        rcases redex_sequence_iff.1 h with hone | ⟨hj, hchain⟩
        · obtain ⟨c, rfl⟩ := List.length_eq_one_iff.1 hone
          rw [fuseUnder_eq_self a fun _ => List.isChain_singleton c] at hlen
          exact absurd rfl hlen
        · exact fuseUnder_changed a hj hchain
      | alternative =>
        rcases step_choice_cases i m cs cs a with ⟨c, -, rfl, heq⟩ | ⟨hnot, -⟩
        · rw [heq]
        · exact absurd (redex_choice_iff.1 h) hnot
  rests {a t} _ h := by
    have hself := Tree.withChildren_children t a
    cases t with
    | missing | terminal => rfl
    | wrap i m w c =>
      rw [Tree.children_wrap] at hself ⊢
      rw [step_wrap, wrapped_kept (not_redex_wrap_iff.1 h), hself]
    | group i m g cs =>
      rw [Tree.children_group] at hself ⊢
      cases g with
      | sequence joint =>
        obtain ⟨hlen, hchain⟩ := not_redex_sequence_iff.1 h
        rw [step_sequence, fuseUnder_eq_self a hchain]
        simp only [collapsed_of_length_ne hlen, hself]
      | alternative =>
        rcases step_choice_cases i m cs cs a with ⟨c, rfl, rfl, -⟩ | ⟨-, heq⟩
        · exact absurd .onlyChoice h
        · rw [heq, hself]

end ToolBindings.Simplify
