import ToolBindings.Proofs.Record
import ToolBindings.Proofs.Sweep

/-!
# Trees apart from their places

Two trees that differ in the places of their nodes only are equal without them. A step ignores places
if what it makes, apart from its own place, does not depend on them or on the arena. What the sweep of
such a step makes is then a function of the tree alone, its image (`image_relation`), and trees that are
equal without places have one image (`Step.image_eq_of_unplaced_eq`).
-/
namespace ToolBindings
namespace Tree

mutual

/-- The tree with all of its nodes at place 0. -/
def unplaced : Tree → Tree
  | missing _ => missing 0
  | terminal _ m t => terminal 0 m t
  | wrap _ m w c => wrap 0 m w c.unplaced
  | group _ m g cs => group 0 m g (unplacedAll cs)

def unplacedAll : List Tree → List Tree
  | [] => []
  | t :: ts => t.unplaced :: unplacedAll ts

end

theorem unplacedAll_eq_map (ts : List Tree) : unplacedAll ts = ts.map unplaced := by
  induction ts with
  | nil => rfl
  | cons t ts ih => rw [unplacedAll, ih, List.map_cons]

section
variable {i : NodeId} {m : Option Metadata} {u : Terminal} {w : Wrapper} {g : Group} {c : Tree}
  {cs : List Tree}

@[simp] theorem unplaced_missing : (missing i).unplaced = missing 0 := rfl
@[simp] theorem unplaced_terminal : (terminal i m u).unplaced = terminal 0 m u := rfl
@[simp] theorem unplaced_wrap : (wrap i m w c).unplaced = wrap 0 m w c.unplaced := rfl

@[simp] theorem unplaced_group :
    (group i m g cs).unplaced = group 0 m g (cs.map unplaced) := by
  rw [unplaced, unplacedAll_eq_map]

end

mutual

@[simp] theorem unplaced_unplaced : (t : Tree) → t.unplaced.unplaced = t.unplaced
  | missing _ | terminal .. => rfl
  | wrap _ _ _ c => by simp [unplaced_unplaced c]
  | group _ _ _ cs => by rw [unplaced_group, unplaced_group, map_unplaced_map_unplaced cs]

theorem map_unplaced_map_unplaced : (ts : List Tree) →
    (ts.map unplaced).map unplaced = ts.map unplaced
  | [] => rfl
  | t :: ts => by
    simp only [List.map_cons, unplaced_unplaced t]
    rw [map_unplaced_map_unplaced ts]

end

@[simp] theorem metadata_unplaced (t : Tree) : t.unplaced.metadata = t.metadata := by
  cases t <;> rfl

@[simp] theorem children_unplaced (t : Tree) : t.unplaced.children = t.children.map unplaced := by
  cases t <;> simp [children]

theorem unplaced_withChildren_wrap (i : NodeId) (m : Option Metadata) (w : Wrapper) (b c : Tree)
    (a : Arena) : ((wrap i m w b).withChildren [c] a).1.unplaced = wrap 0 m w c.unplaced := by
  obtain ⟨j, h⟩ := exists_withChildren_wrap i m w b c a
  rw [h, unplaced_wrap]

theorem unplaced_withChildren_group (i : NodeId) (m : Option Metadata) (g : Group)
    (bs cs : List Tree) (a : Arena) :
    ((group i m g bs).withChildren cs a).1.unplaced = group 0 m g (cs.map unplaced) := by
  obtain ⟨j, h⟩ := exists_withChildren_group i m g bs cs a
  rw [h, unplaced_group]

def relabelled (m : Option Metadata) : Tree → Tree
  | missing _ => missing 0
  | terminal _ _ u => terminal 0 m u
  | wrap _ _ w c => wrap 0 m w c.unplaced
  | group _ _ g cs => group 0 m g (cs.map unplaced)

theorem relabelled_metadata (t : Tree) : t.relabelled t.metadata = t.unplaced := by
  cases t <;> simp [relabelled]

theorem relabelled_unplaced (t : Tree) (m : Option Metadata) :
    t.unplaced.relabelled m = t.relabelled m := by
  cases t <;> simp [relabelled]

theorem unplaced_withMetadata (t : Tree) (m : Option Metadata) (a : Arena) :
    (t.withMetadata m a).1.unplaced = t.relabelled m := by
  unfold withMetadata
  split
  · next h => exact h ▸ (relabelled_metadata t).symm
  · cases t with
    | missing | terminal | wrap => rfl
    | group => exact unplaced_group

end Tree
open ToolBindings.Tree

/-- What the step makes, apart from its place, does not depend on places or on the arena. -/
def Step.IgnoresPlaces (step : Step) : Prop :=
  ∀ {t : Tree} {cs : List Tree} (a b : Arena), cs.length = t.children.length →
    (step t cs a).1.tree.unplaced = (step t.unplaced (cs.map unplaced) b).1.tree.unplaced

namespace Step

mutual

/-- What the sweep of a step makes of a tree, apart from places. -/
def image (step : Step) : Tree → Tree
  | .missing _ => .missing 0
  | .terminal _ m u => .terminal 0 m u
  | .wrap i m w c => (step (.wrap i m w c) [step.image c] {}).1.tree.unplaced
  | .group _ m g [] => .group 0 m g []
  | .group i m g (c :: cs) =>
    (step (.group i m g (c :: cs)) (step.image c :: step.imageAll cs) {}).1.tree.unplaced

def imageAll (step : Step) : List Tree → List Tree
  | [] => []
  | t :: ts => step.image t :: step.imageAll ts

end

variable {step : Step} {t : Tree}

theorem imageAll_eq_map (ts : List Tree) : step.imageAll ts = ts.map step.image := by
  induction ts with
  | nil => rfl
  | cons t ts ih => rw [imageAll, ih, List.map_cons]

theorem image_of_leaf (h : t.children = []) : step.image t = t.unplaced := by
  cases t with
  | missing | terminal => rfl
  | wrap i m w c => cases h
  | group i m g cs =>
    rw [children_group] at h
    subst h
    rfl

theorem image_of_node (h : t.children ≠ []) :
    step.image t = (step t (t.children.map step.image) {}).1.tree.unplaced := by
  cases t with
  | missing | terminal => exact absurd rfl h
  | wrap i m w c => rfl
  | group i m g cs =>
    cases cs with
    | nil => exact absurd rfl h
    | cons c cs => rw [image, imageAll_eq_map, children_group, List.map_cons]

theorem unplaced_image (t : Tree) : (step.image t).unplaced = step.image t := by
  by_cases h : t.children = []
  · rw [image_of_leaf h, unplaced_unplaced]
  · rw [image_of_node h, unplaced_unplaced]

theorem map_unplaced_image (ts : List Tree) :
    (ts.map step.image).map unplaced = ts.map step.image := by
  rw [List.map_map]
  exact List.map_congr_left fun t _ => unplaced_image t

theorem image_congr (hs : step.IgnoresPlaces) {u : Tree}
    (htu : t.unplaced = u.unplaced) (hc : t.children.map step.image = u.children.map step.image) :
    step.image t = step.image u := by
  have hmap : t.children.map unplaced = u.children.map unplaced := by
    rw [← children_unplaced, htu, children_unplaced]
  have hlen : t.children.length = u.children.length := by
    simpa using congrArg List.length hmap
  by_cases h : t.children = []
  · have h' : u.children = [] := by
      apply List.eq_nil_of_length_eq_zero
      rw [← hlen, h]
      rfl
    rw [image_of_leaf h, image_of_leaf h', htu]
  · have h' : u.children ≠ [] := fun h' => h (List.eq_nil_of_length_eq_zero (by rw [hlen, h']; rfl))
    rw [image_of_node h, image_of_node h', hs {} {} (by simp), hs (t := u) {} {} (by simp), htu, hc]

mutual

theorem image_unplaced (hs : step.IgnoresPlaces) : (t : Tree) →
    step.image t.unplaced = step.image t
  | .missing _ | .terminal .. => rfl
  | .wrap i m w c => by
    apply image_congr hs (unplaced_unplaced _)
    simp [image_unplaced hs c]
  | .group i m g cs => by
    apply image_congr hs (unplaced_unplaced _)
    rw [children_unplaced, children_group, map_image_unplaced hs cs]

theorem map_image_unplaced (hs : step.IgnoresPlaces) : (ts : List Tree) →
    (ts.map unplaced).map step.image = ts.map step.image
  | [] => rfl
  | t :: ts => by
    rw [List.map_cons, List.map_cons, image_unplaced hs t, map_image_unplaced hs ts, List.map_cons]

end

theorem image_eq_of_unplaced_eq (hs : step.IgnoresPlaces) {u : Tree}
    (h : t.unplaced = u.unplaced) : step.image t = step.image u := by
  rw [← image_unplaced hs t, h, image_unplaced hs u]

end Step

theorem map_eq_of_forall₂ {α β γ : Type} {f : α → γ} {g : β → γ} {xs : List α} {ys : List β}
    (h : List.Forall₂ (fun x y => g y = f x) xs ys) : ys.map g = xs.map f := by
  induction h with
  | nil => rfl
  | cons hxy _ ih => rw [List.map_cons, List.map_cons, hxy, ih]

theorem image_relation {step : Step} (hs : step.IgnoresPlaces) :
    SweepRelation step fun _ t r _ => r.tree.unplaced = step.image t where
  leaf _ hc := (Step.image_of_leaf hc).symm
  node {a b t rs} _ _ hne hch := by
    have hlen : (rs.map Rewritten.tree).length = t.children.length := by
      rw [List.length_map, hch.length_eq]
    have hmap : (rs.map Rewritten.tree).map unplaced = t.children.map step.image := by
      rw [List.map_map]
      exact map_eq_of_forall₂ (hch.forall₂ id)
    rw [Step.image_of_node hne, Rewritten.above, hs b {} hlen, hmap,
      hs (t := t) {} {} (by simp), Step.map_unplaced_image]

end ToolBindings
