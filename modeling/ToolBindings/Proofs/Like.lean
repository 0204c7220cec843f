import ToolBindings.Proofs.Equality
import ToolBindings.Proofs.Preserve

/-!
# Like trees

Two trees are alike if they have the same shape and metadata at every node and no bound in the one
differs from that in the other as a number. Trees without NaN that are the same are alike
(`like_of_same`), and like trees are the same (`Like.same`). What flattening, pruning and
simplification look at does not tell like trees apart, so in any two arenas they make like trees of them
and report the same change (`Rewrite.step_respects`).
-/
namespace ToolBindings

namespace Tree

inductive Like : Tree → Tree → Prop
  | terminal {i j : NodeId} {m : Option Metadata} {u v : Terminal} : u.same v = true →
      Like (.terminal i m u) (.terminal j m v)
  | wrap {i j : NodeId} {m : Option Metadata} {w : Wrapper} {c d : Tree} : Like c d →
      Like (.wrap i m w c) (.wrap j m w d)
  | group {i j : NodeId} {m : Option Metadata} {g : Group} {cs ds : List Tree} :
      List.Forall₂ Like cs ds → Like (.group i m g cs) (.group j m g ds)

abbrev AllLike : List Tree → List Tree → Prop := List.Forall₂ Like

mutual

theorem Like.refl : (t : Tree) → t.Whole → t.Numeric → Like t t
  | .missing _, hw, _ => absurd hw Whole.not_missing
  | .terminal .., _, hn => .terminal (Terminal.same_self (numeric_terminal.1 hn))
  | .wrap _ _ _ c, hw, hn =>
    .wrap (Like.refl c (hw.children c (List.mem_singleton.2 rfl)) (numeric_wrap.1 hn))
  | .group _ _ _ cs, hw, hn => .group (allLike_refl cs hw.children (numeric_group.1 hn))

theorem allLike_refl : (ts : List Tree) → (∀ t ∈ ts, t.Whole) → (∀ t ∈ ts, t.Numeric) →
    AllLike ts ts
  | [], _, _ => .nil
  | t :: ts, hw, hn => by
    obtain ⟨hwt, hws⟩ := List.forall_mem_cons.1 hw
    obtain ⟨hnt, hns⟩ := List.forall_mem_cons.1 hn
    exact .cons (Like.refl t hwt hnt) (allLike_refl ts hws hns)

end

section
variable {a : Arena}

theorem Like.of_id {s t : Tree} (hs : a.Holds s) (ht : a.Holds t) (hn : s.Numeric)
    (h : s.id = t.id) : Like s t :=
  hs.ext ht h ▸ Like.refl s (whole_of_holds hs) hn

theorem exists_wrap_of_same {i : NodeId} {m : Option Metadata} {w : Wrapper} {c t : Tree}
    (hid : i ≠ t.id) (h : (wrap i m w c).same t = .ok true) :
    ∃ j d, t = wrap j m w d ∧ c.same d = .ok true := by
  cases t with
  | missing | terminal | group => simp_all [same]
  | wrap j n v d =>
    rw [same, id_wrap, if_neg hid] at h
    by_cases heq : m = n ∧ w = v
    · obtain ⟨rfl, rfl⟩ := heq
      exact ⟨j, d, rfl, by simpa using h⟩
    · simp [heq] at h

theorem exists_group_of_same {i : NodeId} {m : Option Metadata} {g : Group} {cs : List Tree}
    {t : Tree} (hid : i ≠ t.id) (h : (group i m g cs).same t = .ok true) :
    ∃ j ds, t = group j m g ds ∧ sameAll cs ds = .ok true := by
  cases t with
  | missing | terminal | wrap => simp_all [same]
  | group j n v ds =>
    rw [same, id_group, if_neg hid] at h
    by_cases heq : m = n ∧ g = v ∧ cs.length = ds.length
    · obtain ⟨rfl, rfl, hlen⟩ := heq
      exact ⟨j, ds, rfl, by simpa [hlen] using h⟩
    · simp [heq] at h

mutual

theorem like_of_same : (s t : Tree) → a.Holds s → a.Holds t → s.Numeric → s.same t = .ok true →
    Like s t
  | .missing _, _, hs, _, _, _ => absurd (whole_of_holds hs) Whole.not_missing
  | .terminal i m u, t, hs, ht, hn, h => by
    by_cases hid : i = t.id
    · exact Like.of_id hs ht hn hid
    · cases t <;> simp_all [same, missing?]
      exact .terminal h.2
  | .wrap i m w c, t, hs, ht, hn, h => by
    by_cases hid : i = t.id
    · exact Like.of_id hs ht hn hid
    · obtain ⟨j, d, rfl, hcd⟩ := exists_wrap_of_same hid h
      exact .wrap (like_of_same c d (hs.children c (List.mem_singleton.2 rfl))
        (ht.children d (List.mem_singleton.2 rfl)) (numeric_wrap.1 hn) hcd)
  | .group i m g cs, t, hs, ht, hn, h => by
    by_cases hid : i = t.id
    · exact Like.of_id hs ht hn hid
    · obtain ⟨j, ds, rfl, hcs⟩ := exists_group_of_same hid h
      exact .group (allLike_of_sameAll cs ds hs.children ht.children (numeric_group.1 hn) hcs)

theorem allLike_of_sameAll : (ss ts : List Tree) → (∀ s ∈ ss, a.Holds s) →
    (∀ t ∈ ts, a.Holds t) → (∀ s ∈ ss, s.Numeric) → sameAll ss ts = .ok true → AllLike ss ts
  | [], [], _, _, _, _ => .nil
  | [], _ :: _, _, _, _, h => by cases h
  | _ :: _, [], _, _, _, h => by cases h
  | s :: ss, t :: ts, hs, ht, hn, h => by
    obtain ⟨hs, hss⟩ := List.forall_mem_cons.1 hs
    obtain ⟨ht, hts⟩ := List.forall_mem_cons.1 ht
    obtain ⟨hn, hns⟩ := List.forall_mem_cons.1 hn
    rw [sameAll] at h
    cases hst : s.same t with
    | error e =>
      rw [hst] at h
      cases h
    | ok x =>
      rw [hst] at h
      cases x with
      | false => cases h
      | true => exact .cons (like_of_same s t hs ht hn hst) (allLike_of_sameAll ss ts hss hts hns h)

end
end

mutual

theorem Like.same : (s : Tree) → {t : Tree} → Like s t → s.same t = .ok true
  | .missing _, _, h => by cases h
  | .terminal i m u, _, h => by
    cases h with
    | terminal h => simp [Tree.same, missing?, h]
  | .wrap i m w c, _, h => by
    cases h with
    | wrap h => simp [Tree.same, Like.same c h]
  | .group i m g cs, _, h => by
    cases h with
    | group h => simp [Tree.same, h.length_eq, sameAll_of_allLike cs h]

theorem sameAll_of_allLike : (ss : List Tree) → {ts : List Tree} → AllLike ss ts →
    sameAll ss ts = .ok true
  | [], _, h => by
    cases h
    rfl
  | s :: ss, _, h => by
    cases h with
    | cons hst hsts =>
      rw [sameAll, Like.same s hst]
      exact sameAll_of_allLike ss hsts

end

namespace Like
variable {s t : Tree}

theorem metadata_eq (h : Like s t) : s.metadata = t.metadata := by
  cases h <;> rfl

theorem children (h : Like s t) : AllLike s.children t.children := by
  cases h with
  | terminal => exact .nil
  | wrap h => exact .cons h .nil
  | group h => exact h

theorem literal_eq (h : Like s t) : s.literal? = t.literal? := by
  cases h with
  | wrap | group => rfl
  | @terminal i j m u v huv =>
    cases u <;> cases v <;> simp_all [Terminal.same, literal?]

theorem withMetadata (h : Like s t) (m : Option Metadata) (a b : Arena) :
    Like (s.withMetadata m a).1 (t.withMetadata m b).1 := by
  obtain ⟨j, hj⟩ := s.exists_withMetadata m a
  obtain ⟨k, hk⟩ := t.exists_withMetadata m b
  rw [hj, hk]
  cases h with
  | terminal h => exact .terminal h
  | wrap h => exact .wrap h
  | group h => exact .group h

theorem withChildren_wrap {i j : NodeId} {m : Option Metadata} {w : Wrapper} {c d : Tree}
    (h : Like s t) (a b : Arena) : Like ((Tree.wrap i m w c).withChildren [s] a).1
      ((Tree.wrap j m w d).withChildren [t] b).1 := by
  obtain ⟨i', hi⟩ := exists_withChildren_wrap i m w c s a
  obtain ⟨j', hj⟩ := exists_withChildren_wrap j m w d t b
  rw [hi, hj]
  exact .wrap h

theorem withChildren_group {i j : NodeId} {m : Option Metadata} {g : Group}
    {bs es cs ds : List Tree} (h : AllLike cs ds) (a b : Arena) :
    Like ((Tree.group i m g bs).withChildren cs a).1
      ((Tree.group j m g es).withChildren ds b).1 := by
  obtain ⟨i', hi⟩ := exists_withChildren_group i m g bs cs a
  obtain ⟨j', hj⟩ := exists_withChildren_group j m g es ds b
  rw [hi, hj]
  exact .group h

end Like
end Tree
open ToolBindings.Tree (Like AllLike)

structure Rewritten.Like (r q : Rewritten) : Prop where
  tree : r.tree.Like q.tree
  changed : r.changed = q.changed

/-- Of like nodes with like new children the step makes like trees in any two arenas, and it reports the
same change. -/
def Step.Respects (step : Step) : Prop :=
  ∀ {s t : Tree} {cs ds : List Tree} (a b : Arena), s.Like t → AllLike cs ds →
    cs.length = s.children.length → (step s cs a).1.Like (step t ds b).1

theorem any_eq_of_forall₂ {α : Type} {R : α → α → Prop} {p : α → Bool} {xs ys : List α}
    (h : List.Forall₂ R xs ys) (hp : ∀ x y, R x y → p x = p y) : xs.any p = ys.any p := by
  induction h with
  | nil => rfl
  | cons hxy _ ih => rw [List.any_cons, List.any_cons, hp _ _ hxy, ih]

theorem regroup_respects {choose : Group → List Tree → List Tree × Bool}
    (hc : ∀ g {cs ds}, AllLike cs ds →
      AllLike (choose g cs).1 (choose g ds).1 ∧ (choose g cs).2 = (choose g ds).2) :
    Step.Respects (regroup choose) := by
  intro s t cs ds a b hst hcs hlen
  cases hst with
  | terminal h => exact ⟨.terminal h, rfl⟩
  | @wrap i j m w c d h =>
    obtain ⟨c', rfl⟩ := List.length_eq_one_iff.1 hlen
    obtain ⟨d', rfl, h'⟩ := eq_singleton_of_forall₂ hcs
    exact ⟨h'.withChildren_wrap a b, rfl⟩
  | @group i j m g bs es h =>
    obtain ⟨hchosen, hflag⟩ := hc g hcs
    exact ⟨Like.withChildren_group hchosen a b, hflag⟩

namespace Flatten

theorem dissolves_eq (g : Group) {c d : Tree} (h : c.Like d) : dissolves g c = dissolves g d := by
  cases h with
  | terminal | wrap => rfl
  | @group i j m => cases m <;> rfl

theorem step_respects : Step.Respects (regroup flattened) := by
  refine regroup_respects fun g cs ds h => ⟨List.rel_flatMap h fun c d hcd => ?_, ?_⟩
  · unfold inlined
    rw [dissolves_eq g hcd]
    split
    · exact hcd.children
    · exact .cons hcd .nil
  · exact any_eq_of_forall₂ h fun _ _ => dissolves_eq g

end Flatten

namespace Prune

theorem isEmpty_eq {c d : Tree} (h : c.Like d) : isEmpty c = isEmpty d := by
  cases h with
  | terminal | wrap => rfl
  | group h => cases h <;> rfl

theorem isRemovable_eq {c d : Tree} (h : c.Like d) : isRemovable c = isRemovable d := by
  have hempty := isEmpty_eq h
  unfold isRemovable
  cases h with
  | terminal => rfl
  | wrap h => simp only [Tree.metadata_wrap, isEmpty_eq h]
  | group h => simp only [Tree.metadata_group, hempty]

theorem step_respects : Step.Respects (regroup pruned) := by
  refine regroup_respects fun g cs ds h => ?_
  have hkept : AllLike (kept cs) (kept ds) :=
    List.rel_filter (fun c d hcd => by simp [isRemovable_eq hcd]) h
  refine ⟨hkept, ?_⟩
  simp only [pruned, hkept.length_eq, h.length_eq]

end Prune

namespace Simplify

theorem fusedText_eq {c c' d d' : Tree} (hc : c.Like c') (hd : d.Like d') :
    fusedText? c d = fusedText? c' d' := by
  have hplain : ∀ {s t : Tree}, s.Like t → plainLiteral? s = plainLiteral? t := fun h => by
    have hlit := h.literal_eq
    cases h with
    | wrap | group => rfl
    | @terminal i j m u v =>
      cases m <;> cases u <;> cases v <;> simp_all [plainLiteral?, Tree.literal?]
  rw [fusedText?, hplain hc, hplain hd, fusedText?]

theorem fuseFrom_respects {c d : Tree} {cs ds : List Tree} (h : c.Like d) (hs : AllLike cs ds)
    (a b : Arena) : AllLike (fuseFrom c cs a).1.1 (fuseFrom d ds b).1.1 ∧
      (fuseFrom c cs a).1.2 = (fuseFrom d ds b).1.2 := by
  induction hs generalizing c d a b with
  | nil => exact ⟨.cons h .nil, rfl⟩
  | @cons c' d' cs ds h' _ ih =>
    have htext := fusedText_eq h h'
    cases hfused : fusedText? c c' with
    | none =>
      rw [fuseFrom_apart hfused, fuseFrom_apart (htext.symm.trans hfused)]
      exact ⟨.cons h (ih h' a b).1, (ih h' a b).2⟩
    | some text =>
      rw [fuseFrom_fused hfused, fuseFrom_fused (htext.symm.trans hfused)]
      exact ⟨(ih (.terminal (by simp [Terminal.same])) _ _).1, rfl⟩

theorem fuseUnder_respects (joint : Option String) {cs ds : List Tree} (h : AllLike cs ds)
    (a b : Arena) : AllLike (fuseUnder joint cs a).1.1 (fuseUnder joint ds b).1.1 ∧
      (fuseUnder joint cs a).1.2 = (fuseUnder joint ds b).1.2 := by
  unfold fuseUnder
  split
  · cases h with
    | nil => exact ⟨.nil, rfl⟩
    | cons h hs => exact fuseFrom_respects h hs a b
  · exact ⟨h, rfl⟩

theorem step_respects : Step.Respects step := by
  intro s t cs ds a b hst hcs hlen
  cases hst with
  | terminal h => exact ⟨.terminal h, rfl⟩
  | @wrap i j m w c d h =>
    obtain ⟨c', rfl⟩ := List.length_eq_one_iff.1 hlen
    obtain ⟨d', rfl, h'⟩ := eq_singleton_of_forall₂ hcs
    rw [step_wrap, step_wrap]
    rcases wrapped_cases (.wrap i m w c) w c' a with ⟨k, n, w', e, v, rfl, hv, hrun⟩ | ⟨hkept, hrun⟩
    · cases h' with
      | wrap he =>
        rw [hrun, wrapped_merged hv]
        exact ⟨.wrap he, rfl⟩
    · have hkept' : ∀ k n w' e, d' = .wrap k n w' e → mergeWrappers? w w' = none := by
        rintro k n w' e rfl
        cases h' with
        | wrap => exact hkept _ _ _ _ rfl
      rw [hrun, wrapped_kept hkept']
      exact ⟨h'.withChildren_wrap a b, rfl⟩
  | @group i j m g bs es h =>
    cases g with
    | sequence joint =>
      obtain ⟨hfused, hflag⟩ := fuseUnder_respects joint hcs a b
      have hlen := hfused.length_eq
      rcases step_sequence_cases i m joint bs cs a with ⟨c, hc, hrun⟩ | ⟨hne, hrun⟩ <;>
        rcases step_sequence_cases j m joint es ds b with ⟨d, hd, hrun'⟩ | ⟨hne', hrun'⟩ <;>
        simp only [hrun, hrun']
      · rw [hc, hd] at hfused
        cases hfused with
        | cons hcd =>
          rw [hcd.metadata_eq]
          exact ⟨hcd.withMetadata _ _ _, rfl⟩
      · exact absurd (by rw [← hlen, hc]; rfl) hne'
      · exact absurd (by rw [hlen, hd]; rfl) hne
      · exact ⟨Like.withChildren_group hfused _ _, hflag⟩
    | alternative =>
      have hlen := hcs.length_eq
      rcases step_choice_cases i m bs cs a with ⟨c, rfl, rfl, hrun⟩ | ⟨hnot, hrun⟩
      · obtain ⟨d, rfl, hcd⟩ := eq_singleton_of_forall₂ hcs
        exact ⟨hcd, rfl⟩
      · rcases step_choice_cases j m es ds b with ⟨d, rfl, rfl, -⟩ | ⟨-, hrun'⟩
        · exact absurd ⟨rfl, hlen⟩ hnot
        · rw [hrun, hrun']
          exact ⟨Like.withChildren_group hcs a b, rfl⟩

end Simplify

namespace Rewrite

theorem step_respects {r : Rewrite} (hr : r ≠ .canonicalize) : Step.Respects r.step := by
  cases r with
  | flatten => exact Flatten.step_respects
  | prune => exact Prune.step_respects
  | simplify => exact Simplify.step_respects
  | canonicalize => exact absurd rfl hr

end Rewrite
end ToolBindings
