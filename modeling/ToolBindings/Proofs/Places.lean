import Mathlib.Algebra.Order.BigOperators.Group.List
import Mathlib.Order.Interval.Finset.Nat
import Mathlib.Order.Interval.Multiset
import ToolBindings.Proofs.Round

/-!
# Places

The places of a tree are the ids of its nodes, each as often as it occurs. A sweep takes the places of
its result from those of the tree, none more often than it is there, and from the places that are new
in the arena (`reuses_relation`). So a tree in which no place occurs twice is rewritten to such a tree.
-/
namespace ToolBindings
namespace Tree

def places (t : Tree) : Multiset NodeId := (t.preorder.map id : List NodeId)

def placesAll (ts : List Tree) : Multiset NodeId := (ts.map places).sum

theorem placesAll_eq (ts : List Tree) :
    placesAll ts = ((preorderAll ts).map id : List NodeId) := by
  induction ts with
  | nil => rfl
  | cons t ts ih =>
    change t.places + placesAll ts = _
    rw [ih, preorderAll, List.map_append]
    rfl

@[simp] theorem placesAll_nil : placesAll [] = 0 := rfl

@[simp] theorem placesAll_cons (t : Tree) (ts : List Tree) :
    placesAll (t :: ts) = t.places + placesAll ts := rfl

theorem placesAll_singleton (t : Tree) : placesAll [t] = t.places := by
  rw [placesAll_cons, placesAll_nil, add_zero]

theorem placesAll_append (ss ts : List Tree) :
    placesAll (ss ++ ts) = placesAll ss + placesAll ts := by
  simp [placesAll]

theorem places_eq (t : Tree) : t.places = {t.id} + placesAll t.children := by
  rw [places, preorder_eq, placesAll_eq]
  rfl

theorem placesAll_children_le (t : Tree) : placesAll t.children ≤ t.places := by
  rw [places_eq]
  exact Multiset.le_add_left _ _

theorem places_wrap (i : NodeId) (m : Option Metadata) (w : Wrapper) (c : Tree) :
    (wrap i m w c).places = {i} + c.places := by
  rw [places_eq, children_wrap, placesAll_singleton, id_wrap]

theorem places_group (i : NodeId) (m : Option Metadata) (g : Group) (cs : List Tree) :
    (group i m g cs).places = {i} + placesAll cs := by
  rw [places_eq, children_group, id_group]

theorem placesAll_perm {ss ts : List Tree} (h : ss.Perm ts) : placesAll ss = placesAll ts :=
  (h.map places).sum_eq

theorem placesAll_sublist {ss ts : List Tree} (h : ss.Sublist ts) :
    placesAll ss ≤ placesAll ts :=
  (h.map places).sum_le_sum fun _ _ => Multiset.zero_le _

theorem nodup_walk_iff (t : Tree) : (t.walk.map id).Nodup ↔ t.places.Nodup := by
  rw [walk_eq_preorder, places, Multiset.coe_nodup]

end Tree
open ToolBindings.Tree

abbrev newPlaces (a b : Arena) : Multiset NodeId := Multiset.Ico a.size b.size

theorem newPlaces_add {a b c : Arena} (hab : a.size ≤ b.size) (hbc : b.size ≤ c.size) :
    newPlaces a b + newPlaces b c = newPlaces a c :=
  Multiset.Ico_add_Ico_eq_Ico hab hbc

@[simp] theorem newPlaces_push (a : Arena) (n : Node) : newPlaces a (a.push n) = {a.size} := by
  rw [newPlaces, Arena.size_push]
  exact congrArg Finset.val (Nat.Ico_succ_singleton a.size)

structure Draws (a : Arena) (s u : Multiset NodeId) (b : Arena) : Prop where
  size_le : a.size ≤ b.size
  le : u ≤ s + newPlaces a b

namespace Draws
variable {a b c : Arena} {s s' u u' v : Multiset NodeId}

theorem of_le (h : u ≤ s) : Draws a s u a := ⟨Nat.le_refl _, h.trans (Multiset.le_add_right _ _)⟩

theorem push (h : u ≤ s + {a.size}) (n : Node) : Draws a s u (a.push n) :=
  ⟨by simp, by rwa [newPlaces_push]⟩

theorem trans (h : Draws a s u b) (h' : Draws b u v c) : Draws a s v c := by
  refine ⟨h.size_le.trans h'.size_le, ?_⟩
  calc v ≤ u + newPlaces b c := h'.le
    _ ≤ s + newPlaces a b + newPlaces b c := by gcongr; exact h.le
    _ = s + newPlaces a c := by rw [add_assoc, newPlaces_add h.size_le h'.size_le]

theorem add (h : Draws a s u b) (h' : Draws b s' u' c) : Draws a (s + s') (u + u') c := by
  refine ⟨h.size_le.trans h'.size_le, ?_⟩
  calc u + u' ≤ (s + newPlaces a b) + (s' + newPlaces b c) := add_le_add h.le h'.le
    _ = s + s' + (newPlaces a b + newPlaces b c) := add_add_add_comm ..
    _ = s + s' + newPlaces a c := by rw [newPlaces_add h.size_le h'.size_le]

theorem nodup (h : Draws a s u b) (hs : s.Nodup) (hlt : ∀ i ∈ s, i < a.size) : u.Nodup := by
  refine Multiset.nodup_of_le h.le (Multiset.nodup_add.2 ⟨hs, Multiset.nodup_Ico, ?_⟩)
  refine Multiset.disjoint_left.2 fun hi hnew => ?_
  exact Nat.not_le_of_lt (hlt _ hi) (Multiset.mem_Ico.1 hnew).1

end Draws

namespace Tree
variable {s : Multiset NodeId}

theorem draws_newTerminal (m : Option Metadata) (u : Terminal) (a : Arena) :
    Draws a s (newTerminal m u a).1.places (newTerminal m u a).2 :=
  .push (by rw [places_eq]; exact Multiset.le_add_left _ _) _

theorem draws_newWrap (m : Option Metadata) (w : Wrapper) {c : Tree} (h : c.places ≤ s)
    (a : Arena) : Draws a s (newWrap m w c a).1.places (newWrap m w c a).2 := by
  rw [newWrap_run]
  refine .push ?_ _
  rw [places_wrap, add_comm]
  gcongr

theorem draws_newGroup (m : Option Metadata) (g : Group) {cs : List Tree} (h : placesAll cs ≤ s)
    (a : Arena) : Draws a s (newGroup m g cs a).1.places (newGroup m g cs a).2 := by
  refine .push ?_ _
  change (group a.size m g cs).places ≤ _
  rw [places_group, add_comm]
  gcongr

theorem draws_withChildren_wrap (i : NodeId) (m : Option Metadata) (w : Wrapper) (b c : Tree)
    (a : Arena) : Draws a ({i} + c.places) ((wrap i m w b).withChildren [c] a).1.places
      ((wrap i m w b).withChildren [c] a).2 := by
  rw [withChildren_wrap]
  split
  · exact .of_le (places_wrap i m w c).le
  · exact draws_newWrap m w (Multiset.le_add_left _ _) a

theorem draws_withChildren_group (i : NodeId) (m : Option Metadata) (g : Group)
    (bs cs : List Tree) (a : Arena) : Draws a ({i} + placesAll cs)
      ((group i m g bs).withChildren cs a).1.places ((group i m g bs).withChildren cs a).2 := by
  rw [withChildren_group]
  split
  · exact .of_le (places_group i m g cs).le
  · exact draws_newGroup m g (Multiset.le_add_left _ _) a

theorem draws_withMetadata (t : Tree) (m : Option Metadata) (a : Arena) :
    Draws a t.places (t.withMetadata m a).1.places (t.withMetadata m a).2 := by
  unfold withMetadata
  split
  · exact .of_le le_rfl
  · cases t with
    | missing => exact .of_le le_rfl
    | terminal => exact draws_newTerminal m _ a
    | wrap i n w c =>
      refine draws_newWrap m w ?_ a
      rw [places_wrap]
      exact Multiset.le_add_left _ _
    | group i n g cs => exact draws_newGroup m g (placesAll_children_le _) a

end Tree

def Step.Draws (step : Step) : Prop :=
  ∀ {t : Tree} {cs : List Tree} (a : Arena), t.children ≠ [] → cs.length = t.children.length →
    ToolBindings.Draws a ({t.id} + placesAll cs) (step t cs a).1.tree.places (step t cs a).2

def Reuses (a : Arena) (t : Tree) (r : Rewritten) (b : Arena) : Prop :=
  Draws a t.places r.tree.places b

theorem drawsAll {a b : Arena} {ts : List Tree} {rs : List Rewritten} (h : Chain Reuses a ts rs b) :
    Draws a (placesAll ts) (placesAll (rs.map Rewritten.tree)) b := by
  induction h with
  | nil => exact .of_le le_rfl
  | cons hr _ ih => exact Draws.add hr ih

theorem reuses_relation {step : Step} (hs : step.Draws) : SweepRelation step Reuses where
  leaf _ _ := .of_le le_rfl
  node {a b t rs} _ _ hne hch := by
    have hlen : (rs.map Rewritten.tree).length = t.children.length := by
      rw [List.length_map, hch.length_eq]
    have hall : Draws a ({t.id} + placesAll t.children)
        ({t.id} + placesAll (rs.map Rewritten.tree)) b :=
      Draws.add (.of_le le_rfl) (drawsAll hch)
    rw [← places_eq] at hall
    exact hall.trans (hs b hne hlen)

theorem regroup_draws {choose : Group → List Tree → List Tree × Bool}
    (hc : ∀ g cs, placesAll (choose g cs).1 ≤ placesAll cs) : Step.Draws (regroup choose) := by
  intro t cs a hne hlen
  cases t with
  | missing | terminal => exact absurd rfl hne
  | wrap i m w b =>
    obtain ⟨c, rfl⟩ := List.length_eq_one_iff.1 hlen
    rw [regroup_wrap, placesAll_singleton]
    exact draws_withChildren_wrap i m w b c a
  | group i m g bs =>
    rw [regroup_group]
    have hle : {i} + placesAll (choose g cs).1 ≤ {i} + placesAll cs := by
      gcongr
      exact hc g cs
    exact (Draws.of_le hle).trans (draws_withChildren_group i m g bs _ a)

namespace Flatten

theorem placesAll_inlined (g : Group) (cs : List Tree) :
    placesAll (cs.flatMap (inlined g)) ≤ placesAll cs := by
  induction cs with
  | nil => exact le_rfl
  | cons c cs ih =>
    have hc : placesAll (inlined g c) ≤ c.places := by
      unfold inlined
      split
      · exact placesAll_children_le c
      · exact (placesAll_singleton c).le
    rw [List.flatMap_cons, placesAll_append, placesAll_cons]
    exact add_le_add hc ih

end Flatten

namespace Simplify

theorem draws_fuseFrom (c : Tree) (ds : List Tree) (a : Arena) :
    Draws a (c.places + placesAll ds) (placesAll (fuseFrom c ds a).1.1) (fuseFrom c ds a).2 := by
  induction ds generalizing c a with
  | nil => exact .of_le le_rfl
  | cons d ds ih =>
    cases h : fusedText? c d with
    | none =>
      rw [fuseFrom_apart h]
      exact Draws.add (.of_le le_rfl) (ih d a)
    | some text =>
      rw [fuseFrom_fused h]
      have hnew : Draws a (c.places + d.places) _ _ :=
        draws_newTerminal none (.literal text) a
      have hall := Draws.add hnew (.of_le (le_refl (placesAll ds)))
      rw [add_assoc, ← placesAll_cons] at hall
      exact hall.trans (ih _ _)

theorem draws_fuseUnder (joint : Option String) (cs : List Tree) (a : Arena) :
    Draws a (placesAll cs) (placesAll (fuseUnder joint cs a).1.1) (fuseUnder joint cs a).2 := by
  unfold fuseUnder
  split
  · cases cs with
    | nil => exact .of_le le_rfl
    | cons c cs => exact draws_fuseFrom c cs a
  · exact .of_le le_rfl

theorem step_draws : Step.Draws step := by
  intro t cs a hne hlen
  cases t with
  | missing | terminal => exact absurd rfl hne
  | wrap i m w b =>
    obtain ⟨c, rfl⟩ := List.length_eq_one_iff.1 hlen
    rw [step_wrap]
    rcases wrapped_cases (.wrap i m w b) w c a with ⟨k, n, w', d, v, rfl, -, h⟩ | ⟨-, h⟩ <;> rw [h]
    · refine draws_newWrap _ v ?_ a
      rw [placesAll_singleton, places_wrap, ← add_assoc]
      exact Multiset.le_add_left _ _
    · rw [placesAll_singleton]
      exact draws_withChildren_wrap i m w b c a
  | group i m g bs =>
    cases g with
    | sequence joint =>
      have hfuse : Draws a ({i} + placesAll cs) ({i} + placesAll (fuseUnder joint cs a).1.1)
          (fuseUnder joint cs a).2 := Draws.add (.of_le le_rfl) (draws_fuseUnder joint cs a)
      rcases step_sequence_cases i m joint bs cs a with ⟨c, hc, h⟩ | ⟨-, h⟩ <;> simp only [h]
      · have honly : c.places ≤ {i} + placesAll (fuseUnder joint cs a).1.1 := by
          rw [hc, placesAll_singleton]
          exact Multiset.le_add_left _ _
        exact hfuse.trans ((Draws.of_le honly).trans (draws_withMetadata c _ _))
      · exact hfuse.trans (draws_withChildren_group i m _ bs _ _)
    | alternative =>
      rcases step_choice_cases i m bs cs a with ⟨c, -, rfl, h⟩ | ⟨-, h⟩ <;> rw [h]
      · rw [placesAll_singleton]
        exact .of_le (Multiset.le_add_left _ _)
      · exact draws_withChildren_group i m _ bs cs a

end Simplify

namespace Canonical

theorem placesAll_ordered (g : Group) (cs : List Tree) :
    placesAll (ordered g cs).1 ≤ placesAll cs := by
  cases g with
  | sequence => exact le_rfl
  | alternative =>
    rw [← placesAll_perm (sorted_perm cs)]
    exact placesAll_sublist (arranged_sublist cs)

end Canonical

theorem Rewrite.step_draws (r : Rewrite) : Step.Draws r.step := by
  cases r with
  | flatten => exact regroup_draws Flatten.placesAll_inlined
  | prune => exact regroup_draws fun _ _ => placesAll_sublist List.filter_sublist
  | simplify => exact Simplify.step_draws
  | canonicalize => exact regroup_draws Canonical.placesAll_ordered

end ToolBindings
