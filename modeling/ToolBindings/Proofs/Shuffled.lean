import ToolBindings.Proofs.Image

/-!
# Shuffled literals

Trees are shuffled if they differ in the places of their nodes and by swaps of literals without
metadata that stand next to each other in a choice. The choice may have other children too: flattening
puts the literals of one choice among the children of another. Flattening, pruning and simplifying make
shuffled trees of shuffled trees (`Rewrite.step_keepsShuffles`), because nothing that they do in a choice
depends on the order of its children.
-/
namespace ToolBindings
open ToolBindings.Tree

/-- Apart from places the trees differ by swaps of neighbouring literals without metadata in choices,
which may have other children too. -/
inductive Shuffled : Tree → Tree → Prop
  | same {s t : Tree} : s.unplaced = t.unplaced → Shuffled s t
  | swap {i k l : NodeId} {m : Option Metadata} {text text' : String} (cs ds : List Tree) :
      Shuffled
        (.group i m .alternative
          (cs ++ .terminal k none (.literal text) :: .terminal l none (.literal text') :: ds))
        (.group i m .alternative
          (cs ++ .terminal l none (.literal text') :: .terminal k none (.literal text) :: ds))
  | wrap {i : NodeId} {m : Option Metadata} {w : Wrapper} {c d : Tree} :
      Shuffled c d → Shuffled (.wrap i m w c) (.wrap i m w d)
  | child {i : NodeId} {m : Option Metadata} {g : Group} {c d : Tree} (cs ds : List Tree) :
      Shuffled c d → Shuffled (.group i m g (cs ++ c :: ds)) (.group i m g (cs ++ d :: ds))
  | trans {s t u : Tree} : Shuffled s t → Shuffled t u → Shuffled s u

structure ShuffledAll (g : Group) (cs ds : List Tree) : Prop where
  length_eq : cs.length = ds.length
  within (i : NodeId) (m : Option Metadata) (xs ys : List Tree) :
    Shuffled (.group i m g (xs ++ cs ++ ys)) (.group i m g (xs ++ ds ++ ys))

namespace ShuffledAll
variable {g : Group} {cs ds es : List Tree} {c d : Tree}

theorem refl (g : Group) (cs : List Tree) : ShuffledAll g cs cs := ⟨rfl, fun _ _ _ _ => .same rfl⟩

theorem trans (h : ShuffledAll g cs ds) (h' : ShuffledAll g ds es) : ShuffledAll g cs es :=
  ⟨h.length_eq.trans h'.length_eq, fun i m xs ys => (h.within i m xs ys).trans (h'.within i m xs ys)⟩

theorem of_unplaced_eq (h : cs.map unplaced = ds.map unplaced) : ShuffledAll g cs ds where
  length_eq := by simpa using congrArg List.length h
  within i m xs ys := .same (by simp [h])

theorem singleton (h : Shuffled c d) : ShuffledAll g [c] [d] :=
  ⟨rfl, fun i m xs ys => by simpa using Shuffled.child xs ys h⟩

theorem append {cs' ds' : List Tree} (h : ShuffledAll g cs ds) (h' : ShuffledAll g cs' ds') :
    ShuffledAll g (cs ++ cs') (ds ++ ds') where
  length_eq := by rw [List.length_append, List.length_append, h.length_eq, h'.length_eq]
  within i m xs ys := by
    have hleft := h.within i m xs (cs' ++ ys)
    have hright := h'.within i m (xs ++ ds) ys
    simp only [List.append_assoc] at hleft hright ⊢
    exact hleft.trans hright

theorem cons (h : Shuffled c d) (hs : ShuffledAll g cs ds) : ShuffledAll g (c :: cs) (d :: ds) :=
  (singleton h).append hs

theorem swap {k l : NodeId} {text text' : String} : ShuffledAll .alternative
    [.terminal k none (.literal text), .terminal l none (.literal text')]
    [.terminal l none (.literal text'), .terminal k none (.literal text)] :=
  ⟨rfl, fun i m xs ys => by simpa using Shuffled.swap xs ys⟩

theorem group (h : ShuffledAll g cs ds) (i j : NodeId) (m : Option Metadata) :
    Shuffled (.group i m g cs) (.group j m g ds) := by
  have hwithin := h.within i m [] []
  simp only [List.nil_append, List.append_nil] at hwithin
  exact hwithin.trans (.same (by simp))

end ShuffledAll

inductive Corresponds : Tree → Tree → Prop
  | missing {i j : NodeId} : Corresponds (.missing i) (.missing j)
  | terminal {i j : NodeId} {m : Option Metadata} {u : Terminal} :
      Corresponds (.terminal i m u) (.terminal j m u)
  | wrap {i j : NodeId} {m : Option Metadata} {w : Wrapper} {c d : Tree} :
      Shuffled c d → Corresponds (.wrap i m w c) (.wrap j m w d)
  | group {i j : NodeId} {m : Option Metadata} {g : Group} {cs ds : List Tree} :
      ShuffledAll g cs ds → Corresponds (.group i m g cs) (.group j m g ds)

theorem corresponds_of_unplaced_eq {s t : Tree} (h : s.unplaced = t.unplaced) :
    Corresponds s t := by
  cases s with
  | missing => cases t <;> simp at h; exact .missing
  | terminal =>
    cases t <;> simp at h
    obtain ⟨rfl, rfl⟩ := h
    exact .terminal
  | wrap =>
    cases t <;> simp at h
    obtain ⟨rfl, rfl, h⟩ := h
    exact .wrap (.same h)
  | group =>
    cases t <;> simp at h
    obtain ⟨rfl, rfl, h⟩ := h
    exact .group (.of_unplaced_eq h)

theorem Corresponds.trans {s t u : Tree} (h : Corresponds s t) (h' : Corresponds t u) :
    Corresponds s u := by
  cases h with
  | missing => cases h'; exact .missing
  | terminal => cases h'; exact .terminal
  | wrap hc =>
    cases h' with
    | wrap hc' => exact .wrap (hc.trans hc')
  | group hs =>
    cases h' with
    | group hs' => exact .group (hs.trans hs')

theorem Shuffled.corresponds {s t : Tree} (h : Shuffled s t) : Corresponds s t := by
  induction h with
  | same h => exact corresponds_of_unplaced_eq h
  | swap cs ds =>
    exact .group ((ShuffledAll.refl _ cs).append (ShuffledAll.swap.append (.refl _ ds)))
  | wrap h => exact .wrap h
  | child cs ds h =>
    exact .group ((ShuffledAll.refl _ cs).append ((ShuffledAll.singleton h).append (.refl _ ds)))
  | trans _ _ ih ih' => exact ih.trans ih'

theorem Shuffled.unplaced {s t : Tree} (h : Shuffled s t) : Shuffled s.unplaced t.unplaced :=
  (Shuffled.same (unplaced_unplaced s)).trans (h.trans (.same (unplaced_unplaced t).symm))

theorem ShuffledAll.unplaced {g : Group} {cs ds : List Tree} (h : ShuffledAll g cs ds) :
    ShuffledAll g (cs.map Tree.unplaced) (ds.map Tree.unplaced) :=
  (of_unplaced_eq (map_unplaced_map_unplaced cs)).trans
    (h.trans (of_unplaced_eq (map_unplaced_map_unplaced ds).symm))

theorem Shuffled.metadata_eq {s t : Tree} (h : Shuffled s t) : s.metadata = t.metadata := by
  cases h.corresponds <;> rfl

theorem Shuffled.relabelled {s t : Tree} (h : Shuffled s t) (m : Option Metadata) :
    Shuffled (s.relabelled m) (t.relabelled m) := by
  cases h.corresponds with
  | missing | terminal => exact .same rfl
  | wrap hc => exact .wrap hc.unplaced
  | group hs => exact hs.unplaced.group 0 0 m

structure Step.KeepsShuffles (step : Step) : Prop where
  wrap {i : NodeId} {m : Option Metadata} {w : Wrapper} {b b' c d : Tree} : Shuffled c d →
    Shuffled (step (.wrap i m w b) [c] {}).1.tree.unplaced
      (step (.wrap i m w b') [d] {}).1.tree.unplaced
  child {i : NodeId} {m : Option Metadata} {g : Group} {bs bs' cs ds : List Tree} {c d : Tree} :
    Shuffled c d →
      Shuffled (step (.group i m g bs) (cs ++ c :: ds) {}).1.tree.unplaced
        (step (.group i m g bs') (cs ++ d :: ds) {}).1.tree.unplaced
  swap {i k l : NodeId} {m : Option Metadata} {bs bs' cs ds : List Tree} {text text' : String} :
    Shuffled
      (step (.group i m .alternative bs) (cs ++ .terminal k none (.literal text) ::
        .terminal l none (.literal text') :: ds) {}).1.tree.unplaced
      (step (.group i m .alternative bs') (cs ++ .terminal l none (.literal text') ::
        .terminal k none (.literal text) :: ds) {}).1.tree.unplaced

theorem Step.image_child (step : Step) (i : NodeId) (m : Option Metadata) (g : Group)
    (cs ds : List Tree) (c : Tree) : step.image (.group i m g (cs ++ c :: ds)) =
      (step (.group i m g (cs ++ c :: ds))
        (cs.map step.image ++ step.image c :: ds.map step.image) {}).1.tree.unplaced := by
  rw [image_of_node (by simp), children_group, List.map_append, List.map_cons]

theorem Shuffled.image {step : Step} (hs : step.IgnoresPlaces) (hk : step.KeepsShuffles)
    {s t : Tree} (h : Shuffled s t) : Shuffled (step.image s) (step.image t) := by
  induction h with
  | same h => exact .same (congrArg Tree.unplaced (Step.image_eq_of_unplaced_eq hs h))
  | swap cs ds =>
    rw [Step.image_child, Step.image_child, List.map_cons, List.map_cons]
    exact hk.swap
  | wrap _ ih => exact hk.wrap ih
  | child cs ds _ ih =>
    rw [Step.image_child, Step.image_child]
    exact hk.child ih
  | trans _ _ ih ih' => exact ih.trans ih'

theorem regroup_keepsShuffles {choose : Group → List Tree → List Tree × Bool}
    {chosen : Group → Tree → List Tree} (hc : ∀ g cs, (choose g cs).1 = cs.flatMap (chosen g))
    (hs : ∀ g {c d}, Shuffled c d → ShuffledAll g (chosen g c) (chosen g d))
    (hl : ∀ k text, chosen .alternative (.terminal k none (.literal text)) =
      [.terminal k none (.literal text)]) :
    Step.KeepsShuffles (regroup choose) where
  wrap {i m w b b' c d} h := by
    rw [unplaced_regroup_wrap, unplaced_regroup_wrap]
    exact .wrap h.unplaced
  child {i m g bs bs' cs ds c d} h := by
    rw [unplaced_regroup_group, unplaced_regroup_group, hc, hc, List.flatMap_append,
      List.flatMap_append, List.flatMap_cons, List.flatMap_cons]
    have hall := (ShuffledAll.refl g (cs.flatMap (chosen g))).append
      ((hs g h).append (.refl g (ds.flatMap (chosen g))))
    exact hall.unplaced.group 0 0 m
  swap {i k l m bs bs' cs ds text text'} := by
    rw [unplaced_regroup_group, unplaced_regroup_group, hc, hc]
    simp only [List.flatMap_append, List.flatMap_cons, hl, List.map_append, List.map_cons,
      unplaced_terminal, List.cons_append, List.nil_append]
    exact .swap _ _

namespace Flatten

theorem step_keepsShuffles : Step.KeepsShuffles (regroup flattened) := by
  refine regroup_keepsShuffles (fun _ _ => rfl) (fun g c d h => ?_) (fun _ _ => rfl)
  cases h.corresponds with
  | missing | terminal | wrap => exact .singleton h
  | @group i j m g' cs ds hs =>
    by_cases hg : dissolves g (.group i m g' cs) = true
    · obtain ⟨k, es, heq⟩ := dissolves_iff.1 hg
      cases heq
      simp only [inlined, dissolves, decide_true, if_true, children_group]
      exact hs
    · have hg' : ¬ dissolves g (.group j m g' ds) = true := by
        cases m <;> exact hg
      simp only [inlined, if_neg hg, if_neg hg']
      exact .singleton h

end Flatten

namespace Prune

theorem isEmpty_of_shuffled {c d : Tree} (h : Shuffled c d) : isEmpty c = isEmpty d := by
  cases h.corresponds with
  | missing | terminal | wrap => rfl
  | @group i j m g cs ds hs =>
    have hlen := hs.length_eq
    cases cs <;> cases ds <;> simp_all [isEmpty]

theorem isRemovable_of_shuffled {c d : Tree} (h : Shuffled c d) : isRemovable c = isRemovable d := by
  have hempty := isEmpty_of_shuffled h
  cases h.corresponds with
  | missing | terminal => rfl
  | wrap hc => simp [isRemovable, isEmpty_of_shuffled hc]
  | group => simp [isRemovable, hempty]

theorem step_keepsShuffles : Step.KeepsShuffles (regroup pruned) := by
  refine regroup_keepsShuffles (fun _ => kept_eq_flatMap) (fun g c d h => ?_) (fun _ _ => rfl)
  simp only [isRemovable_of_shuffled h]
  split
  · exact .refl g []
  · exact .singleton h

end Prune

namespace Simplify
variable {joint : Option String} {c : Tree}

theorem fuse_cons_of_not_plain (h : plainLiteral? c = none) (ds : List Tree) (a : Arena) :
    (fuse (c :: ds) a).1.1 = c :: (fuse ds a).1.1 := by
  cases ds with
  | nil => rfl
  | cons d ds =>
    rw [fuse, fuseFrom_apart (by simp [Apart, fusedText?, h])]
    rfl

theorem fuseFrom_append_of_not_plain (h : plainLiteral? c = none) (b : Tree) (cs ds : List Tree)
    (a : Arena) : (fuseFrom b (cs ++ c :: ds) a).1.1.map unplaced =
      (fuseFrom b cs {}).1.1.map unplaced ++ (fuse (c :: ds) {}).1.1.map unplaced := by
  induction cs generalizing b a with
  | nil =>
    have hapart : Apart b c := by
      unfold Apart fusedText?
      cases plainLiteral? b <;> simp [h]
    rw [List.nil_append, fuseFrom_apart hapart]
    exact congrArg (b.unplaced :: ·) (unplaced_fuseFrom rfl rfl a {})
  | cons d cs ih =>
    rw [List.cons_append]
    cases hbd : fusedText? b d with
    | none => simp only [fuseFrom_apart hbd, List.map_cons, List.cons_append, ih]
    | some text =>
      simp only [fuseFrom_fused hbd, ih]
      congr 1
      exact unplaced_fuseFrom (by simp) rfl _ _

-- A child that is no plain literal keeps the literals on its two sides apart.
theorem fuse_append_of_not_plain (h : plainLiteral? c = none) (cs ds : List Tree) (a : Arena) :
    (fuse (cs ++ c :: ds) a).1.1.map unplaced =
      (fuse cs {}).1.1.map unplaced ++ c.unplaced :: (fuse ds {}).1.1.map unplaced := by
  have hcons : ∀ a, (fuse (c :: ds) a).1.1.map unplaced =
      c.unplaced :: (fuse ds {}).1.1.map unplaced := fun a => by
    rw [fuse_cons_of_not_plain h, List.map_cons, unplaced_fuse rfl a {}]
  cases cs with
  | nil => exact hcons a
  | cons b cs =>
    rw [← hcons {}]
    exact fuseFrom_append_of_not_plain h b cs ds a

theorem fuseUnder_append_of_not_plain (h : plainLiteral? c = none) (cs ds : List Tree) (a : Arena) :
    (fuseUnder joint (cs ++ c :: ds) a).1.1.map unplaced =
      (fuseUnder joint cs {}).1.1.map unplaced ++
        c.unplaced :: (fuseUnder joint ds {}).1.1.map unplaced := by
  unfold fuseUnder
  split
  · exact fuse_append_of_not_plain h cs ds a
  · exact List.map_append

theorem shuffled_collapse {c d : Tree} (h : Shuffled c d) (m : Option Metadata) (cs ds : List Tree) :
    Shuffled (collapse m joint (cs ++ c :: ds)) (collapse m joint (cs ++ d :: ds)) := by
  by_cases hlen : (cs ++ c :: ds).length = 1
  · have hcs : cs = [] := by cases cs <;> simp_all
    have hds : ds = [] := by cases ds <;> simp_all
    subst hcs hds
    simp only [List.nil_append, collapse, h.metadata_eq]
    exact h.relabelled _
  · have hlen' : (cs ++ d :: ds).length ≠ 1 := by simpa using hlen
    rw [collapse_of_length_ne hlen, collapse_of_length_ne hlen', List.map_append, List.map_append]
    exact .child _ _ h.unplaced

theorem chosen_of_length_ne {cs : List Tree} (h : cs.length ≠ 1) (m : Option Metadata) :
    chosen m cs = .group 0 m .alternative (cs.map unplaced) := by
  match m, cs with
  | none, [c] => exact absurd rfl h
  | none, [] | none, _ :: _ :: _ | some _, _ => rfl

theorem shuffled_chosen {c d : Tree} (h : Shuffled c d) (m : Option Metadata) (cs ds : List Tree) :
    Shuffled (chosen m (cs ++ c :: ds)) (chosen m (cs ++ d :: ds)) := by
  by_cases hlen : (cs ++ c :: ds).length = 1
  · have hcs : cs = [] := by cases cs <;> simp_all
    have hds : ds = [] := by cases ds <;> simp_all
    subst hcs hds
    cases m with
    | none => exact h.unplaced
    | some m => exact (ShuffledAll.singleton h.unplaced).group 0 0 (some m)
  · have hlen' : (cs ++ d :: ds).length ≠ 1 := by simpa using hlen
    rw [chosen_of_length_ne hlen, chosen_of_length_ne hlen', List.map_append, List.map_append]
    exact .child _ _ h.unplaced

theorem plainLiteral?_of_shuffled {c d : Tree} (h : Shuffled c d) :
    c.unplaced = d.unplaced ∨ plainLiteral? c = none ∧ plainLiteral? d = none := by
  cases h.corresponds with
  | missing | terminal => exact .inl rfl
  | wrap | group => exact .inr ⟨rfl, rfl⟩

theorem step_keepsShuffles : Step.KeepsShuffles step where
  wrap {i m w b b' c d} h := by
    by_cases hk : ∀ k n w' e, c = .wrap k n w' e → mergeWrappers? w w' = none
    · have hk' : ∀ k n w' e, d = .wrap k n w' e → mergeWrappers? w w' = none := by
        rintro k n w' e rfl
        cases h.corresponds with
        | wrap => exact hk _ _ _ _ rfl
      rw [unplaced_step_kept hk, unplaced_step_kept hk']
      exact .wrap h.unplaced
    · push Not at hk
      obtain ⟨k, n, w', e, rfl, hv⟩ := hk
      obtain ⟨v, hv⟩ := Option.ne_none_iff_exists'.1 hv
      cases h.corresponds with
      | wrap he =>
        rw [unplaced_step_merged hv, unplaced_step_merged hv]
        exact .wrap he.unplaced
  child {i m g bs bs' cs ds c d} h := by
    cases g with
    | alternative =>
      rw [unplaced_step_choice, unplaced_step_choice]
      exact shuffled_chosen h m cs ds
    | sequence joint =>
      rw [unplaced_step_sequence, unplaced_step_sequence, ← collapse_unplaced,
        ← collapse_unplaced m joint (fuseUnder joint (cs ++ d :: ds) {}).1.1]
      rcases plainLiteral?_of_shuffled h with hcd | ⟨hc, hd⟩
      · have hmap : (cs ++ c :: ds).map unplaced = (cs ++ d :: ds).map unplaced := by simp [hcd]
        rw [unplaced_fuseUnder hmap {} {}]
        exact .same rfl
      · rw [fuseUnder_append_of_not_plain hc, fuseUnder_append_of_not_plain hd]
        exact shuffled_collapse h.unplaced m _ _
  swap {i k l m bs bs' cs ds text text'} := by
    rw [unplaced_step_choice, unplaced_step_choice, chosen_of_length_ne (by simp; omega),
      chosen_of_length_ne (by simp; omega)]
    simp only [List.map_append, List.map_cons, unplaced_terminal]
    exact .swap _ _

end Simplify

theorem Rewrite.step_keepsShuffles {r : Rewrite} (hr : r ≠ .canonicalize) :
    Step.KeepsShuffles r.step := by
  cases r with
  | flatten => exact Flatten.step_keepsShuffles
  | prune => exact Prune.step_keepsShuffles
  | simplify => exact Simplify.step_keepsShuffles
  | canonicalize => exact absurd rfl hr

end ToolBindings
