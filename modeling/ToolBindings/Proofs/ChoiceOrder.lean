import Mathlib.Data.List.Sort
import ToolBindings.Proofs.Equality
import ToolBindings.Proofs.PlainText
import ToolBindings.Proofs.Shuffled

/-!
# The order of choices

Literals without metadata that have one rank have one text, and sorting is stable. So neighbouring
literals may be swapped before their choice is sorted (`Canonical.sorted_swap`), and canonical order takes
shuffled trees to one tree. A round ends with it, so the rounds of two trees that differ in the order of
such choices agree from the first one on, and both are normalized to the same tree
(`normalize_permuted`).
-/
namespace ToolBindings
open ToolBindings.Tree

namespace Canonical

abbrev NotAfter (s t : Tree) : Prop := (Rank.of s).le (Rank.of t) = true

theorem orderedInsert_append {t : Tree} {before after : List Tree}
    (hb : ∀ s ∈ before, ¬ NotAfter t s) (ha : ∀ s ∈ after, NotAfter t s) :
    (before ++ after).orderedInsert NotAfter t = before ++ t :: after := by
  induction before with
  | nil =>
    cases after with
    | nil => rfl
    | cons s after => exact List.orderedInsert_cons_of_le _ _ (ha s List.mem_cons_self)
  | cons s before ih =>
    obtain ⟨hs, hb⟩ := List.forall_mem_cons.1 hb
    rw [List.cons_append, List.orderedInsert_of_not_le _ _ hs, ih hb, List.cons_append]

/-- Sorting is stable: a tree goes before those of its rank that it stood before. -/
theorem sorted_cons (t : Tree) (ts : List Tree) :
    sorted (t :: ts) = (sorted ts).orderedInsert NotAfter t := by
  obtain ⟨before, after, hcons, hts, hbefore⟩ :=
    List.mergeSort_cons (fun s u v => Rank.trans (.of s) (.of u) (.of v))
      (fun s u => Rank.total (.of s) (.of u)) t ts
  have horder : (before ++ t :: after).Pairwise NotAfter := hcons ▸ inOrder_sorted (t :: ts)
  have hafter : ∀ s ∈ after, NotAfter t s :=
    (List.pairwise_cons.1 (List.pairwise_append.1 horder).2.1).1
  rw [sorted, hcons, sorted, hts]
  refine (orderedInsert_append (fun s hs => ?_) hafter).symm
  simpa using hbefore s hs

theorem orderedInsert_comm {s t : Tree} (h : ¬ NotAfter s t) (ts : List Tree) :
    (ts.orderedInsert NotAfter t).orderedInsert NotAfter s =
      (ts.orderedInsert NotAfter s).orderedInsert NotAfter t := by
  have hts : NotAfter t s := by
    have htotal := Rank.total (.of s) (.of t)
    simpa [Bool.eq_false_iff.2 h] using htotal
  induction ts with
  | nil =>
    simp only [List.orderedInsert_nil, List.orderedInsert_cons, if_neg h, if_pos hts]
  | cons u ts ih =>
    by_cases hsu : NotAfter s u
    · have htu : NotAfter t u := Rank.trans _ _ _ hts hsu
      simp only [List.orderedInsert_cons, if_pos hsu, if_pos htu, if_neg h, if_pos hts]
    · by_cases htu : NotAfter t u
      · simp only [List.orderedInsert_cons, if_neg hsu, if_pos htu, if_neg h]
      · simp only [List.orderedInsert_cons, if_neg hsu, if_neg htu, ih]

theorem sorted_swap {s t : Tree} (h : NotAfter s t → NotAfter t s → s = t) (ts : List Tree) :
    sorted (s :: t :: ts) = sorted (t :: s :: ts) := by
  simp only [sorted_cons]
  by_cases hst : NotAfter s t
  · by_cases hts : NotAfter t s
    · rw [h hst hts]
    · exact (orderedInsert_comm hts _).symm
  · exact orderedInsert_comm hst _

theorem sorted_append {ds es : List Tree} (h : sorted ds = sorted es) (cs : List Tree) :
    sorted (cs ++ ds) = sorted (cs ++ es) := by
  induction cs with
  | nil => exact h
  | cons c cs ih => rw [List.cons_append, List.cons_append, sorted_cons, sorted_cons, ih]

theorem eq_of_literal_rank {text text' : String}
    (h : NotAfter (.terminal 0 none (.literal text)) (.terminal 0 none (.literal text')))
    (h' : NotAfter (.terminal 0 none (.literal text')) (.terminal 0 none (.literal text))) :
    text = text' := by
  have hle : "lit:" ++ text ≤ "lit:" ++ text' := by
    simpa [Rank.of, Rank.le_iff, kind, name?, key, Terminal.kind, Terminal.key] using h
  have hge : "lit:" ++ text' ≤ "lit:" ++ text := by
    simpa [Rank.of, Rank.le_iff, kind, name?, key, Terminal.kind, Terminal.key] using h'
  have heq := le_antisymm hle hge
  simpa using heq

theorem image_eq_of_shuffled {s t : Tree} (h : Shuffled s t) :
    Rewrite.canonicalize.image s = Rewrite.canonicalize.image t := by
  have hs : Step.IgnoresPlaces (regroup ordered) := step_ignoresPlaces
  simp only [Rewrite.image, Rewrite.step]
  induction h with
  | same h => exact Step.image_eq_of_unplaced_eq hs h
  | swap cs ds =>
    rw [Step.image_child, Step.image_child, unplaced_regroup_group, unplaced_regroup_group]
    simp only [ordered, arranged, List.map_cons]
    rw [sorted_append (sorted_swap _ _)]
    intro h h'
    exact congrArg (Tree.terminal 0 none <| .literal ·) (eq_of_literal_rank h h')
  | wrap _ ih =>
    rw [Step.image_of_node (by simp), Step.image_of_node (by simp)]
    simp only [children_wrap, List.map_cons, List.map_nil, unplaced_regroup_wrap, ih]
  | child cs ds _ ih =>
    rw [Step.image_child, Step.image_child, unplaced_regroup_group, unplaced_regroup_group, ih]
  | trans _ _ ih ih' => exact ih.trans ih'

end Canonical

/-- Before a round with canonical order the trees may be shuffled, after it they are the same. -/
theorem Rewrite.images_eq_of_shuffled {s t : Tree} (h : Shuffled s t) (cap : Nat) :
    images (NormalizeOptions.rewrites ⟨cap, true⟩) s =
      images (NormalizeOptions.rewrites ⟨cap, true⟩) t := by
  have himage : ∀ {r : Rewrite} {s t : Tree}, r ≠ .canonicalize → Shuffled s t →
      Shuffled (r.image s) (r.image t) :=
    fun hr h => h.image (step_ignoresPlaces _) (step_keepsShuffles hr)
  rw [NormalizeOptions.rewrites_eq]
  simp only [images, List.cons_append, List.nil_append, if_true, List.foldl_cons, List.foldl_nil,
    image_unplaced]
  apply Canonical.image_eq_of_shuffled
  exact himage (by decide) (himage (by decide) (himage (by decide) h))

namespace Tree

/-- Apart from places the trees differ in the order of choices all of whose children are literals without
metadata. -/
inductive Permuted : Tree → Tree → Prop
  | terminal {i j : NodeId} {m : Option Metadata} {u : Terminal} :
      Permuted (.terminal i m u) (.terminal j m u)
  | wrap {i j : NodeId} {m : Option Metadata} {w : Wrapper} {c d : Tree} :
      Permuted c d → Permuted (.wrap i m w c) (.wrap j m w d)
  | group {i j : NodeId} {m : Option Metadata} {g : Group} {cs ds : List Tree} :
      cs.length = ds.length → (∀ p ∈ cs.zip ds, Permuted p.1 p.2) →
        Permuted (.group i m g cs) (.group j m g ds)
  | choice {i j : NodeId} {m : Option Metadata} {cs ds : List Tree} {texts texts' : List String} :
      cs.map Simplify.plainLiteral? = texts.map some →
        ds.map Simplify.plainLiteral? = texts'.map some → texts.Perm texts' →
          Permuted (.group i m .alternative cs) (.group j m .alternative ds)

def plainLiteral (text : String) : Tree := .terminal 0 none (.literal text)

theorem map_unplaced_of_plainLiteral? {cs : List Tree} {texts : List String}
    (h : cs.map Simplify.plainLiteral? = texts.map some) :
    cs.map unplaced = (texts.map plainLiteral).map unplaced := by
  induction cs generalizing texts with
  | nil =>
    obtain rfl : texts = [] := List.map_eq_nil_iff.1 h.symm
    rfl
  | cons c cs ih =>
    obtain ⟨text, texts, rfl, hc, hcs⟩ := List.map_eq_cons_iff.1 h.symm
    obtain ⟨k, rfl⟩ := Simplify.plainLiteral?_eq_some_iff.1 hc.symm
    simp only [List.map_cons, ih hcs.symm, plainLiteral, unplaced_terminal]

theorem shuffledAll_of_perm {texts texts' : List String} (h : texts.Perm texts') :
    ShuffledAll .alternative (texts.map plainLiteral) (texts'.map plainLiteral) := by
  induction h with
  | nil => exact .refl _ _
  | cons text _ ih => exact .cons (.same rfl) ih
  | swap text text' texts => exact ShuffledAll.swap.append (.refl _ _)
  | trans _ _ ih ih' => exact ih.trans ih'

theorem shuffledAll_of_zip {g : Group} {cs ds : List Tree} (hlen : cs.length = ds.length)
    (h : ∀ p ∈ cs.zip ds, Shuffled p.1 p.2) : ShuffledAll g cs ds := by
  induction cs generalizing ds with
  | nil =>
    obtain rfl : ds = [] := List.eq_nil_of_length_eq_zero hlen.symm
    exact .refl g []
  | cons c cs ih =>
    cases ds with
    | nil => cases hlen
    | cons d ds =>
      rw [List.zip_cons_cons, List.forall_mem_cons] at h
      exact .cons h.1 (ih (Nat.succ.inj hlen) h.2)

theorem Permuted.shuffled {s t : Tree} (h : Permuted s t) : Shuffled s t := by
  induction h with
  | terminal => exact .same rfl
  | @wrap i j m w c d _ ih => exact (Shuffled.wrap ih).trans (.same rfl)
  | group hlen _ ih => exact (shuffledAll_of_zip hlen ih).group _ _ _
  | choice hcs hds hp =>
    have hall := (ShuffledAll.of_unplaced_eq (map_unplaced_of_plainLiteral? hcs)).trans
      ((shuffledAll_of_perm hp).trans (.of_unplaced_eq (map_unplaced_of_plainLiteral? hds).symm))
    exact hall.group _ _ _

/-- Normalization with canonical order does not see the order of such choices. In an arena that has both
results they are the same. -/
theorem normalize_permuted {a b : Arena} {root root' : NodeId} (ht : a.Holds (a.tree root))
    (hu : b.Holds (b.tree root')) (hp : Permuted (a.tree root) (b.tree root'))
    (hn : (a.tree root).Numeric) {cap : Nat} (hcap : 1 ≤ cap) :
    ∃ out a' out' b', ((a.tree root).normalize ⟨cap, true⟩).run a = (.ok out, a') ∧
      ((b.tree root').normalize ⟨cap, true⟩).run b = (.ok out', b') ∧
      (a'.tree out.tree.id).unplaced = (b'.tree out'.tree.id).unplaced ∧
      ∀ c : Arena, c.Extends a' → c.Extends b' →
        (c.tree out.tree.id).same (c.tree out'.tree.id) = .ok true := by
  obtain ⟨out, a', hrun, hrec, himages⟩ := exists_normalize_images ⟨cap, true⟩ ht
  obtain ⟨out', b', hrun', hrec', himages'⟩ := exists_normalize_images ⟨cap, true⟩ hu
  obtain ⟨n, rfl⟩ := Nat.exists_eq_add_of_le' hcap
  have hround := Rewrite.images_eq_of_shuffled hp.shuffled.unplaced (n + 1)
  have heq : out.tree.unplaced = out'.tree.unplaced := by
    rw [himages, himages', Function.iterate_succ_apply, Function.iterate_succ_apply, hround]
  have hnumeric : out.tree.Numeric := by
    rw [← numeric_unplaced, himages]
    exact Function.Iterate.rec Numeric ((numeric_unplaced _).2 hn)
      (fun t ht => Rewrite.images_numeric _ ht) (n + 1)
  refine ⟨out, a', out', b', hrun, hrun', ?_, fun c hca hcb => ?_⟩
  · rw [Arena.tree_id_of_holds hrec.holds, Arena.tree_id_of_holds hrec'.holds]
    exact heq
  · have hout := hrec.holds.mono hca
    rw [Arena.tree_id_of_holds hout, Arena.tree_id_of_holds (hrec'.holds.mono hcb)]
    exact same_of_unplaced_eq _ _ (whole_of_holds hout) hnumeric heq

def permutedArena : Arena :=
  ⟨#[⟨.terminal (.literal "a"), none⟩, ⟨.terminal (.literal "b"), none⟩, ⟨.terminal .str, none⟩,
    ⟨.group .alternative [0, 1], none⟩, ⟨.group .alternative [1, 0], none⟩,
    ⟨.group .alternative [2, 3], none⟩, ⟨.group .alternative [2, 4], none⟩]⟩

theorem normalize_permuted_nested :
    permutedArena.Holds (permutedArena.tree 5) ∧ permutedArena.Holds (permutedArena.tree 6) ∧
    Permuted (permutedArena.tree 5) (permutedArena.tree 6) ∧ (permutedArena.tree 5).Numeric ∧
    1 ≤ 10 ∧ ∃ out a' out' b',
      ((permutedArena.tree 5).normalize ⟨10, true⟩).run permutedArena = (.ok out, a') ∧
      ((permutedArena.tree 6).normalize ⟨10, true⟩).run permutedArena = (.ok out', b') ∧
      (a'.tree out.tree.id).unplaced = (b'.tree out'.tree.id).unplaced := by
  have h : permutedArena.Holds (permutedArena.tree 5) := Arena.holds_tree (by decide) (by decide)
  have h' : permutedArena.Holds (permutedArena.tree 6) := Arena.holds_tree (by decide) (by decide)
  have hliterals : Permuted (permutedArena.tree 3) (permutedArena.tree 4) :=
    @Permuted.choice 3 4 none _ _ ["a", "b"] ["b", "a"] rfl rfl (.swap _ _ _)
  have hp : Permuted (permutedArena.tree 5) (permutedArena.tree 6) := by
    refine .group rfl (List.forall_mem_cons.2 ⟨.terminal, List.forall_mem_singleton.2 hliterals⟩)
  have hn : (permutedArena.tree 5).Numeric := by
    simp [permutedArena, Arena.tree, Arena.treeWithin, Arena.get?, Arena.size, numeric_group,
      numeric_terminal, Terminal.Numeric]
  have hcap : 1 ≤ 10 := by decide
  obtain ⟨out, a', out', b', hrun, hrun', heq, -⟩ := normalize_permuted h h' hp hn hcap
  exact ⟨h, h', hp, hn, hcap, out, a', out', b', hrun, hrun', heq⟩

end Tree
end ToolBindings
