import Mathlib.Data.List.Flatten
import ToolBindings.Proofs.Image

/-!
# Metadata that pruning keeps

The labels of a tree are the metadata of its nodes in the order of the walk. Pruning keeps the order of
labels, and it loses one exactly where it drops a wrapper without metadata around a group that has
metadata and nothing else that stays (`prune_labels_iff`), because of a wrapper and what it wraps only
the wrapper is asked for metadata. Which trees are dropped is read off the tree as it was before the
sweep (`Vanishes`).
-/
namespace ToolBindings

theorem flatMap_eq_iff_of_sublist {α β : Type} {f g : α → List β} {xs : List α}
    (h : ∀ x ∈ xs, (f x).Sublist (g x)) :
    xs.flatMap f = xs.flatMap g ↔ ∀ x ∈ xs, f x = g x := by
  induction xs with
  | nil => simp
  | cons x xs ih =>
    obtain ⟨hx, hxs⟩ := List.forall_mem_cons.1 h
    rw [List.flatMap_cons, List.flatMap_cons, List.forall_mem_cons, ← ih hxs]
    constructor
    · intro heq
      have hlen := congrArg List.length heq
      have hle := (List.Sublist.flatMap_right xs hxs).length_le
      have hle' := hx.length_le
      rw [List.length_append, List.length_append] at hlen
      exact List.append_inj heq (by omega)
    · rintro ⟨hx, hxs⟩
      rw [hx, hxs]

namespace Tree

def labels (t : Tree) : List Metadata := t.walk.filterMap metadata

theorem labels_preorderAll (ts : List Tree) :
    (preorderAll ts).filterMap metadata = ts.flatMap labels := by
  induction ts with
  | nil => rfl
  | cons t ts ih =>
    rw [preorderAll, List.filterMap_append, ih, List.flatMap_cons, labels, walk_eq_preorder]

theorem labels_eq (t : Tree) : t.labels = t.metadata.toList ++ t.children.flatMap labels := by
  rw [labels, walk_eq_preorder, preorder_eq, ← labels_preorderAll, List.filterMap_cons]
  cases t.metadata <;> rfl

theorem labels_wrap (i : NodeId) (m : Option Metadata) (w : Wrapper) (c : Tree) :
    (wrap i m w c).labels = m.toList ++ c.labels := by
  rw [labels_eq, metadata_wrap, children_wrap, List.flatMap_singleton]

theorem labels_group (i : NodeId) (m : Option Metadata) (g : Group) (cs : List Tree) :
    (group i m g cs).labels = m.toList ++ cs.flatMap labels := by
  rw [labels_eq, metadata_group, children_group]

mutual

theorem labels_unplaced : (t : Tree) → t.unplaced.labels = t.labels
  | missing _ => by simp [labels_eq, metadata, children]
  | terminal .. => by simp [labels_eq]
  | wrap _ _ _ c => by rw [unplaced_wrap, labels_wrap, labels_wrap, labels_unplaced c]
  | group _ _ _ cs => by rw [unplaced_group, labels_group, labels_group, labels_map_unplaced cs]

theorem labels_map_unplaced : (ts : List Tree) → (ts.map unplaced).flatMap labels = ts.flatMap labels
  | [] => rfl
  | t :: ts => by
    rw [List.map_cons, List.flatMap_cons, List.flatMap_cons, labels_unplaced t,
      labels_map_unplaced ts]

end

end Tree
open ToolBindings.Tree

namespace Prune

/-- A tree that its group drops. -/
inductive Vanishes : Tree → Prop
  | group {i : NodeId} {g : Group} {cs : List Tree} :
      (∀ c ∈ cs, Vanishes c) → Vanishes (.group i none g cs)
  | aroundGroup {i j : NodeId} {w : Wrapper} {m : Option Metadata} {g : Group} {cs : List Tree} :
      (∀ c ∈ cs, Vanishes c) → Vanishes (.wrap i none w (.group j m g cs))

def Covers (t : Tree) : Prop :=
  ∃ i j w m g cs, t = .wrap i none w (.group j (some m) g cs)

/-- A group that drops a child with metadata below it. -/
inductive Loses : Tree → Prop
  | intro {i : NodeId} {m : Option Metadata} {g : Group} {cs : List Tree} {c : Tree} :
      c ∈ cs → Covers c → Vanishes c → Loses (.group i m g cs)

theorem loses_group_iff {i : NodeId} {m : Option Metadata} {g : Group} {cs : List Tree} :
    Loses (.group i m g cs) ↔ ∃ c ∈ cs, Covers c ∧ Vanishes c := by
  constructor
  · rintro ⟨hc, hcovers, hv⟩
    exact ⟨_, hc, hcovers, hv⟩
  · rintro ⟨c, hc, hcovers, hv⟩
    exact .intro hc hcovers hv

theorem image_missing (i : NodeId) : Rewrite.prune.image (.missing i) = .missing 0 := rfl

theorem image_terminal (i : NodeId) (m : Option Metadata) (u : Terminal) :
    Rewrite.prune.image (.terminal i m u) = .terminal 0 m u := rfl

theorem image_wrap (i : NodeId) (m : Option Metadata) (w : Wrapper) (c : Tree) :
    Rewrite.prune.image (.wrap i m w c) = .wrap 0 m w (Rewrite.prune.image c) :=
  image_regroup_wrap i m w c

theorem image_group (i : NodeId) (m : Option Metadata) (g : Group) (cs : List Tree) :
    Rewrite.prune.image (.group i m g cs) =
      .group 0 m g (kept (cs.map Rewrite.prune.image)) := by
  have hc : ∀ g cs, (pruned g (cs.map unplaced)).1 = (pruned g cs).1.map unplaced :=
    fun _ => kept_unplaced
  exact image_regroup_group hc (fun _ => rfl) i m g cs

theorem isEmpty_group (i : NodeId) (m : Option Metadata) (g : Group) (cs : List Tree) :
    isEmpty (.group i m g cs) = cs.isEmpty := by
  cases cs <;> rfl

theorem isEmpty_image_group {i : NodeId} {m : Option Metadata} {g : Group} {cs : List Tree} :
    isEmpty (Rewrite.prune.image (.group i m g cs)) = true ↔
      ∀ c ∈ cs, isRemovable (Rewrite.prune.image c) = true := by
  simp [image_group, isEmpty_group, kept, List.filter_eq_nil_iff]

theorem vanishes_group_iff {i : NodeId} {m : Option Metadata} {g : Group} {cs : List Tree} :
    Vanishes (.group i m g cs) ↔ m = none ∧ ∀ c ∈ cs, Vanishes c := by
  constructor
  · intro h
    cases h with
    | group h => exact ⟨rfl, h⟩
  · rintro ⟨rfl, h⟩
    exact .group h

theorem vanishes_wrap_iff {i : NodeId} {m : Option Metadata} {w : Wrapper} {c : Tree} :
    Vanishes (.wrap i m w c) ↔
      m = none ∧ ∃ j n g cs, c = .group j n g cs ∧ ∀ d ∈ cs, Vanishes d := by
  constructor
  · intro h
    cases h with
    | aroundGroup h => exact ⟨rfl, _, _, _, _, rfl, h⟩
  · rintro ⟨rfl, j, n, g, cs, rfl, h⟩
    exact .aroundGroup h

/-- What the sweep makes of a tree is dropped exactly if the tree vanishes. -/
theorem isRemovable_image_iff (t : Tree) :
    isRemovable (Rewrite.prune.image t) = true ↔ Vanishes t := by
  match t with
  | .missing _ | .terminal .. =>
    constructor
    · intro h
      simp [image_missing, image_terminal, isRemovable, isEmpty] at h
    · intro h
      cases h
  | .group i m g cs =>
    have hcs : ∀ c ∈ cs, (isRemovable (Rewrite.prune.image c) = true ↔ Vanishes c) := fun c hc => by
      have hsize : c.size < (Tree.group i m g cs).size := size_lt_of_mem_children hc
      exact isRemovable_image_iff c
    have hempty := @isEmpty_image_group i m g cs
    rw [forall₂_congr hcs, image_group] at hempty
    simp [vanishes_group_iff, image_group, isRemovable, hempty]
  | .wrap i m w c =>
    match c with
    | .missing _ | .terminal .. | .wrap .. =>
      simp [vanishes_wrap_iff, image_wrap, image_missing, image_terminal, isRemovable, isEmpty]
    | .group j n g cs =>
      have hcs : ∀ d ∈ cs, (isRemovable (Rewrite.prune.image d) = true ↔ Vanishes d) :=
        fun d hd => by
          have hsize : d.size < (Tree.group j n g cs).size := size_lt_of_mem_children hd
          have hsize' : (Tree.group j n g cs).size < (Tree.wrap i m w (.group j n g cs)).size :=
            size_lt_of_mem_children (List.mem_singleton.2 rfl)
          exact isRemovable_image_iff d
      have hempty := @isEmpty_image_group j n g cs
      rw [forall₂_congr hcs] at hempty
      simp [vanishes_wrap_iff, image_wrap, isRemovable, hempty]
termination_by t.size

section
variable {i : NodeId} {m : Option Metadata} {w : Wrapper} {g : Group} {c t : Tree} {cs : List Tree}

theorem normal_loses_wrap : (Tree.wrap i m w c).Normal Loses ↔ c.Normal Loses := by
  rw [normal_iff, children_wrap, List.forall_mem_singleton]
  exact and_iff_right (by intro h; cases h)

theorem normal_loses_group : (Tree.group i m g cs).Normal Loses ↔
    ∀ c ∈ cs, ¬ (Covers c ∧ Vanishes c) ∧ c.Normal Loses := by
  rw [normal_iff, loses_group_iff, children_group, forall₂_and]
  simp only [not_exists, not_and]

theorem labels_eq_nil_iff (h : Vanishes t) : t.labels = [] ↔ ¬ Covers t ∧ t.Normal Loses := by
  induction h with
  | @group i g cs hcs ih =>
    have hnot : ¬ Covers (.group i none g cs) := by simp [Covers]
    rw [labels_group, normal_loses_group, and_iff_right hnot]
    simp only [Option.toList_none, List.nil_append, List.flatMap_eq_nil_iff]
    refine forall₂_congr fun c hc => ?_
    rw [ih c hc, and_iff_left (hcs c hc)]
  | @aroundGroup i j w m g cs hcs ih =>
    have hcovers : Covers (.wrap i none w (.group j m g cs)) ↔ m ≠ none := by
      cases m <;> simp [Covers]
    rw [labels_wrap, labels_group, normal_loses_wrap, normal_loses_group, hcovers]
    simp only [Option.toList_none, List.nil_append, List.append_eq_nil_iff, List.flatMap_eq_nil_iff,
      Option.toList_eq_nil_iff, not_not]
    refine and_congr_right fun _ => forall₂_congr fun c hc => ?_
    rw [ih c hc, and_iff_left (hcs c hc)]

def remaining (t : Tree) : List Metadata :=
  if isRemovable (Rewrite.prune.image t) then [] else (Rewrite.prune.image t).labels

theorem labels_image_group (i : NodeId) (m : Option Metadata) (g : Group) (cs : List Tree) :
    (Rewrite.prune.image (.group i m g cs)).labels = m.toList ++ cs.flatMap remaining := by
  rw [image_group, labels_group, kept_eq_flatMap, List.flatMap_assoc, List.flatMap_map]
  congr 2
  funext c
  unfold remaining
  split <;> simp

mutual

theorem labels_image_sublist : (t : Tree) → (Rewrite.prune.image t).labels.Sublist t.labels
  | .missing _ => by simp [image_missing, labels_eq, metadata, children]
  | .terminal .. => by simp [image_terminal, labels_eq]
  | .wrap _ m _ c => by
    rw [image_wrap, labels_wrap, labels_wrap]
    exact (labels_image_sublist c).append_left m.toList
  | .group _ m _ cs => by
    rw [labels_image_group, labels_group]
    exact (List.Sublist.flatMap_right cs (remaining_sublist cs)).append_left m.toList

theorem remaining_sublist : (ts : List Tree) → ∀ t ∈ ts, (remaining t).Sublist t.labels
  | [] => by simp
  | t :: ts => by
    refine List.forall_mem_cons.2 ⟨?_, remaining_sublist ts⟩
    unfold remaining
    split
    · exact List.nil_sublist _
    · exact labels_image_sublist t

end

theorem labels_image_eq_iff (t : Tree) :
    (Rewrite.prune.image t).labels = t.labels ↔ t.Normal Loses := by
  match t with
  | .missing _ | .terminal .. =>
    refine iff_of_true (by simp [image_missing, image_terminal, labels_eq, metadata, children]) ?_
    intro s hs h
    obtain rfl := List.mem_singleton.1 hs
    cases h
  | .wrap i m w c =>
    have hsize : c.size < (Tree.wrap i m w c).size :=
      size_lt_of_mem_children (List.mem_singleton.2 rfl)
    rw [image_wrap, labels_wrap, labels_wrap, List.append_cancel_left_eq, labels_image_eq_iff c,
      normal_loses_wrap]
  | .group i m g cs =>
    rw [labels_image_group, labels_group, List.append_cancel_left_eq,
      flatMap_eq_iff_of_sublist (remaining_sublist cs), normal_loses_group]
    refine forall₂_congr fun c hc => ?_
    have hsize : c.size < (Tree.group i m g cs).size := size_lt_of_mem_children hc
    by_cases hv : Vanishes c
    · rw [remaining, if_pos ((isRemovable_image_iff c).2 hv), eq_comm, labels_eq_nil_iff hv,
        and_iff_left hv]
    · rw [remaining, if_neg (mt (isRemovable_image_iff c).1 hv), labels_image_eq_iff c,
        and_iff_right fun h => hv h.2]
termination_by t.size

end

end Prune

namespace Tree
open Prune
variable {a : Arena} {root : NodeId}

theorem exists_prune (h : a.Holds (a.tree root)) : ∃ out b,
    (Rewrite.prune.run (a.tree root)).run a = (.ok out, b) ∧
      (b.tree out.tree.id).labels = (Rewrite.prune.image (a.tree root)).labels := by
  obtain ⟨out, b, hrun, himage⟩ := Rewrite.prune.exists_run_image h
  exact ⟨out, b, hrun, by rw [← himage, labels_unplaced]⟩

/-- Pruning keeps all labels unless a group drops a wrapper around a group with metadata. -/
theorem prune_labels_iff (h : a.Holds (a.tree root)) : ∃ out b,
    (Rewrite.prune.run (a.tree root)).run a = (.ok out, b) ∧
      (b.tree out.tree.id).labels.Sublist (a.tree root).labels ∧
      ((b.tree out.tree.id).labels = (a.tree root).labels ↔
        ∀ s ∈ (a.tree root).walk, ¬ Loses s) := by
  obtain ⟨out, b, hrun, hlabels⟩ := exists_prune h
  refine ⟨out, b, hrun, ?_, ?_⟩
  · rw [hlabels]
    exact labels_image_sublist (a.tree root)
  · rw [hlabels, walk_eq_preorder]
    exact labels_image_eq_iff (a.tree root)

def coveredArena : Arena :=
  ⟨#[⟨.group (.sequence none) [], some { name := some "x" }⟩, ⟨.wrap .optional 0, none⟩,
    ⟨.group (.sequence none) [1], none⟩]⟩

/-- The optional on its own keeps what it wraps. -/
theorem prune_labels_optional : coveredArena.Holds (coveredArena.tree 1) ∧ ∃ out b,
    (Rewrite.prune.run (coveredArena.tree 1)).run coveredArena = (.ok out, b) ∧
      (b.tree out.tree.id).labels = (coveredArena.tree 1).labels := by
  have h : coveredArena.Holds (coveredArena.tree 1) := Arena.holds_tree (by decide) (by decide)
  obtain ⟨out, b, hrun, -, hlabels⟩ := prune_labels_iff h
  refine ⟨h, out, b, hrun, hlabels.2 ?_⟩
  have htree : coveredArena.tree 1 =
      .wrap 1 none .optional (.group 0 (some { name := some "x" }) (.sequence none) []) := rfl
  have hnormal : (coveredArena.tree 1).Normal Loses := by
    rw [htree, normal_loses_wrap, normal_loses_group]
    exact fun c hc => nomatch hc
  rw [walk_eq_preorder]
  exact hnormal

/-- In the sequence the name is lost. -/
theorem not_prune_keeps_labels : coveredArena.Holds (coveredArena.tree 2) ∧
    (coveredArena.tree 2).labels = [{ name := some "x" }] ∧ ∃ out b,
      (Rewrite.prune.run (coveredArena.tree 2)).run coveredArena = (.ok out, b) ∧
        (b.tree out.tree.id).labels = [] := by
  have h : coveredArena.Holds (coveredArena.tree 2) := Arena.holds_tree (by decide) (by decide)
  have htree : coveredArena.tree 2 = .group 2 none (.sequence none)
      [.wrap 1 none .optional (.group 0 (some { name := some "x" }) (.sequence none) [])] := rfl
  obtain ⟨out, b, hrun, hlabels⟩ := exists_prune h
  refine ⟨h, by simp [htree, labels_group, labels_wrap], out, b, hrun, ?_⟩
  rw [hlabels, htree, labels_image_group]
  rfl

end Tree
end ToolBindings
