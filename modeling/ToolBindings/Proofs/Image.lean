import ToolBindings.Proofs.NormalForm
import ToolBindings.Proofs.Unplaced

/-!
# Images of the rewrites

All four rewrites ignore places (`Rewrite.step_ignoresPlaces`), because what they look at in a node and
its children is the same without places. So a round has an image, and normalization takes the image
of a round as often as its cap allows (`Tree.exists_normalize_images`): a round that changes nothing has
the tree itself as its image, so the rounds that are saved would not have mattered.
-/
namespace ToolBindings
open ToolBindings.Tree

section
variable {choose : Group → List Tree → List Tree × Bool}

theorem unplaced_regroup_wrap (i : NodeId) (m : Option Metadata) (w : Wrapper) (b c : Tree)
    (a : Arena) :
    (regroup choose (.wrap i m w b) [c] a).1.tree.unplaced = .wrap 0 m w c.unplaced := by
  rw [regroup_wrap]
  exact unplaced_withChildren_wrap i m w b c a

theorem unplaced_regroup_group (i : NodeId) (m : Option Metadata) (g : Group) (bs cs : List Tree)
    (a : Arena) : (regroup choose (.group i m g bs) cs a).1.tree.unplaced =
      .group 0 m g ((choose g cs).1.map unplaced) := by
  rw [regroup_group]
  exact unplaced_withChildren_group i m g bs _ a

theorem regroup_ignoresPlaces
    (hc : ∀ g cs, (choose g (cs.map unplaced)).1 = (choose g cs).1.map unplaced) :
    Step.IgnoresPlaces (regroup choose) := by
  intro t cs a b hlen
  cases t with
  | missing | terminal => rfl
  | wrap i m w d =>
    obtain ⟨c, rfl⟩ := List.length_eq_one_iff.1 hlen
    rw [unplaced_wrap, List.map_singleton, unplaced_regroup_wrap, unplaced_regroup_wrap,
      unplaced_unplaced]
  | group i m g ds =>
    rw [unplaced_group, unplaced_regroup_group, unplaced_regroup_group, hc,
      map_unplaced_map_unplaced]

theorem image_regroup_wrap (i : NodeId) (m : Option Metadata) (w : Wrapper) (c : Tree) :
    Step.image (regroup choose) (.wrap i m w c) = .wrap 0 m w (Step.image (regroup choose) c) := by
  rw [Step.image_of_node (by simp), children_wrap, List.map_singleton, unplaced_regroup_wrap,
    Step.unplaced_image]

theorem image_regroup_group
    (hc : ∀ g cs, (choose g (cs.map unplaced)).1 = (choose g cs).1.map unplaced)
    (hnil : ∀ g, (choose g []).1 = []) (i : NodeId) (m : Option Metadata) (g : Group)
    (cs : List Tree) : Step.image (regroup choose) (.group i m g cs) =
      .group 0 m g (choose g (cs.map (Step.image (regroup choose)))).1 := by
  cases cs with
  | nil => rw [List.map_nil, hnil, Step.image]
  | cons c cs =>
    rw [Step.image_of_node (by simp), unplaced_regroup_group, ← hc, children_group,
      Step.map_unplaced_image]

end

namespace Flatten

theorem dissolves_unplaced (g : Group) (t : Tree) : dissolves g t.unplaced = dissolves g t := by
  cases t with
  | missing | terminal | wrap => rfl
  | group i m g' cs => cases m <;> simp [dissolves]

theorem inlined_unplaced (g : Group) (t : Tree) :
    inlined g t.unplaced = (inlined g t).map unplaced := by
  simp only [inlined, dissolves_unplaced]
  split <;> simp

theorem step_ignoresPlaces : Step.IgnoresPlaces (regroup flattened) :=
  regroup_ignoresPlaces fun g cs => by
    simp only [flattened, List.flatMap_map, List.map_flatMap, inlined_unplaced]

end Flatten

namespace Prune

theorem isEmpty_unplaced (t : Tree) : isEmpty t.unplaced = isEmpty t := by
  cases t with
  | missing | terminal | wrap => rfl
  | group i m g cs => cases cs <;> simp [isEmpty]

theorem isRemovable_unplaced (t : Tree) : isRemovable t.unplaced = isRemovable t := by
  have hempty := isEmpty_unplaced t
  cases t with
  | missing | terminal => rfl
  | wrap i m w c => simp [isRemovable, isEmpty_unplaced c]
  | group i m g cs =>
    rw [unplaced_group] at hempty ⊢
    simp [isRemovable, hempty]

theorem kept_unplaced (cs : List Tree) : kept (cs.map unplaced) = (kept cs).map unplaced := by
  simp only [kept, List.filter_map, Function.comp_def, isRemovable_unplaced]

theorem step_ignoresPlaces : Step.IgnoresPlaces (regroup pruned) :=
  regroup_ignoresPlaces fun _ => kept_unplaced

end Prune

namespace Canonical

mutual

theorem key_unplaced : (t : Tree) → t.unplaced.key = t.key
  | .missing _ | .terminal .. => rfl
  | .wrap _ _ w c => by simp only [unplaced_wrap, key, key_unplaced c]
  | .group _ _ g cs => by simp only [unplaced_group, key, keys_unplaced cs]

theorem keys_unplaced : (ts : List Tree) → keys (ts.map unplaced) = keys ts
  | [] => rfl
  | t :: ts => by simp only [List.map_cons, keys, key_unplaced t, keys_unplaced ts]

end

theorem rank_unplaced (t : Tree) : Rank.of t.unplaced = Rank.of t := by
  have hkind : t.unplaced.kind = t.kind := by cases t <;> simp [kind]
  simp only [Rank.of, name?, key_unplaced, metadata_unplaced, hkind]

theorem fingerprint_unplaced (t : Tree) : fingerprint t.unplaced = fingerprint t := by
  rw [fingerprint, key_unplaced, fingerprint]

theorem sorted_unplaced (ts : List Tree) : sorted (ts.map unplaced) = (sorted ts).map unplaced := by
  refine (List.map_mergeSort fun s _ t _ => ?_).symm
  rw [rank_unplaced, rank_unplaced]

theorem distinct_unplaced (seen : List Sha256.State) (ts : List Tree) :
    distinct seen (ts.map unplaced) = (distinct seen ts).map unplaced := by
  induction ts generalizing seen with
  | nil => rfl
  | cons t ts ih =>
    simp only [List.map_cons, distinct, metadata_unplaced, fingerprint_unplaced, ih]
    split <;> rfl

theorem arranged_unplaced (ts : List Tree) :
    arranged (ts.map unplaced) = (arranged ts).map unplaced := by
  rw [arranged, sorted_unplaced, distinct_unplaced, arranged]

theorem ordered_unplaced (g : Group) (cs : List Tree) :
    (ordered g (cs.map unplaced)).1 = (ordered g cs).1.map unplaced := by
  cases g with
  | sequence => rfl
  | alternative => exact arranged_unplaced cs

theorem step_ignoresPlaces : Step.IgnoresPlaces (regroup ordered) :=
  regroup_ignoresPlaces ordered_unplaced

end Canonical

namespace Simplify

theorem plainLiteral_unplaced (t : Tree) : plainLiteral? t.unplaced = plainLiteral? t := by
  cases t with
  | missing | wrap => rfl
  | terminal i m u => cases m <;> cases u <;> rfl
  | group i m g cs => rw [unplaced_group]; rfl

theorem fusedText_unplaced (c d : Tree) : fusedText? c.unplaced d.unplaced = fusedText? c d := by
  simp only [fusedText?, plainLiteral_unplaced]

theorem unplaced_fuseFrom {c d : Tree} {cs ds : List Tree} (h : c.unplaced = d.unplaced)
    (hs : cs.map unplaced = ds.map unplaced) (a b : Arena) :
    (fuseFrom c cs a).1.1.map unplaced = (fuseFrom d ds b).1.1.map unplaced := by
  induction cs generalizing c d ds a b with
  | nil =>
    obtain rfl : ds = [] := List.map_eq_nil_iff.1 hs.symm
    exact congrArg ([·]) h
  | cons e cs ih =>
    obtain ⟨f, ds, rfl, hf, hds⟩ := List.map_eq_cons_iff.1 hs.symm
    have htext : fusedText? c e = fusedText? d f := by
      rw [← fusedText_unplaced c, ← fusedText_unplaced d, h, hf]
    cases hce : fusedText? c e with
    | none =>
      rw [fuseFrom_apart hce, fuseFrom_apart (htext.symm.trans hce)]
      simp only [List.map_cons, h, ih hf.symm hds.symm a b]
    | some text =>
      rw [fuseFrom_fused hce, fuseFrom_fused (htext.symm.trans hce)]
      apply ih _ hds.symm
      simp

theorem unplaced_fuse {cs ds : List Tree} (h : cs.map unplaced = ds.map unplaced) (a b : Arena) :
    (fuse cs a).1.1.map unplaced = (fuse ds b).1.1.map unplaced := by
  cases cs with
  | nil =>
    obtain rfl : ds = [] := List.map_eq_nil_iff.1 h.symm
    rfl
  | cons c cs =>
    obtain ⟨d, ds, rfl, hd, hds⟩ := List.map_eq_cons_iff.1 h.symm
    exact unplaced_fuseFrom hd.symm hds.symm a b

theorem unplaced_fuseUnder {joint : Option String} {cs ds : List Tree}
    (h : cs.map unplaced = ds.map unplaced) (a b : Arena) :
    (fuseUnder joint cs a).1.1.map unplaced = (fuseUnder joint ds b).1.1.map unplaced := by
  unfold fuseUnder
  split
  · exact unplaced_fuse h a b
  · exact h

theorem unplaced_step_merged {i k : NodeId} {m n : Option Metadata} {w w' v : Wrapper} {b d : Tree}
    (h : mergeWrappers? w w' = some v) (a : Arena) :
    (step (.wrap i m w b) [.wrap k n w' d] a).1.tree.unplaced =
      .wrap 0 (Metadata.merge m n) v d.unplaced := by
  rw [step_wrap, wrapped_merged h]
  rfl

theorem unplaced_step_kept {i : NodeId} {m : Option Metadata} {w : Wrapper} {b c : Tree}
    (h : ∀ k n w' d, c = .wrap k n w' d → mergeWrappers? w w' = none) (a : Arena) :
    (step (.wrap i m w b) [c] a).1.tree.unplaced = .wrap 0 m w c.unplaced := by
  rw [step_wrap, wrapped_kept h]
  exact unplaced_withChildren_wrap i m w b c a

def collapse (m : Option Metadata) (joint : Option String) : List Tree → Tree
  | [c] => c.relabelled (Metadata.merge m c.metadata)
  | cs => .group 0 m (.sequence joint) (cs.map unplaced)

theorem collapse_unplaced (m : Option Metadata) (joint : Option String) (cs : List Tree) :
    collapse m joint (cs.map unplaced) = collapse m joint cs := by
  match cs with
  | [] => rfl
  | [c] => simp only [List.map_cons, List.map_nil, collapse, metadata_unplaced, relabelled_unplaced]
  | c :: d :: cs =>
    exact congrArg (Tree.group 0 m (.sequence joint)) (map_unplaced_map_unplaced (c :: d :: cs))

theorem collapse_of_length_ne {cs : List Tree} (h : cs.length ≠ 1) (m : Option Metadata)
    (joint : Option String) :
    collapse m joint cs = .group 0 m (.sequence joint) (cs.map unplaced) := by
  match cs with
  | [] | _ :: _ :: _ => rfl
  | [c] => exact absurd rfl h

theorem unplaced_step_sequence (i : NodeId) (m : Option Metadata) (joint : Option String)
    (bs cs : List Tree) (a : Arena) :
    (step (.group i m (.sequence joint) bs) cs a).1.tree.unplaced =
      collapse m joint (fuseUnder joint cs a).1.1 := by
  rcases step_sequence_cases i m joint bs cs a with ⟨c, hc, h⟩ | ⟨hlen, h⟩ <;> simp only [h]
  · rw [hc, collapse]
    exact unplaced_withMetadata c _ _
  · rw [collapse_of_length_ne hlen]
    exact unplaced_withChildren_group i m _ bs _ _

def chosen : Option Metadata → List Tree → Tree
  | none, [c] => c.unplaced
  | m, cs => .group 0 m .alternative (cs.map unplaced)

theorem chosen_unplaced (m : Option Metadata) (cs : List Tree) :
    chosen m (cs.map unplaced) = chosen m cs := by
  match m, cs with
  | none, [c] => exact unplaced_unplaced c
  | none, [] => rfl
  | none, c :: d :: cs =>
    exact congrArg (Tree.group 0 none .alternative) (map_unplaced_map_unplaced (c :: d :: cs))
  | some m, cs =>
    exact congrArg (Tree.group 0 (some m) .alternative) (map_unplaced_map_unplaced cs)

theorem unplaced_step_choice (i : NodeId) (m : Option Metadata) (bs cs : List Tree) (a : Arena) :
    (step (.group i m .alternative bs) cs a).1.tree.unplaced = chosen m cs := by
  rcases step_choice_cases i m bs cs a with ⟨c, rfl, rfl, h⟩ | ⟨hnot, h⟩ <;> rw [h]
  · rfl
  · refine (unplaced_withChildren_group i m .alternative bs cs a).trans ?_
    match m, cs with
    | none, [c] => exact absurd ⟨rfl, rfl⟩ hnot
    | none, [] | none, _ :: _ :: _ | some _, _ => rfl

theorem step_ignoresPlaces : Step.IgnoresPlaces step := by
  intro t cs a b hlen
  cases t with
  | missing | terminal => rfl
  | wrap i m w e =>
    obtain ⟨c, rfl⟩ := List.length_eq_one_iff.1 hlen
    rw [List.map_singleton, unplaced_wrap]
    by_cases h : ∀ k n w' d, c = .wrap k n w' d → mergeWrappers? w w' = none
    · have h' : ∀ k n w' d, c.unplaced = .wrap k n w' d → mergeWrappers? w w' = none := by
        intro k n w' d hc
        cases c with
        | missing | terminal => cases hc
        | group => rw [unplaced_group] at hc; cases hc
        | wrap k' n' w'' d' =>
          cases hc
          exact h _ _ _ _ rfl
      rw [unplaced_step_kept h, unplaced_step_kept h', unplaced_unplaced]
    · push Not at h
      obtain ⟨k, n, w', d, rfl, hv⟩ := h
      obtain ⟨v, hv⟩ := Option.ne_none_iff_exists'.1 hv
      rw [unplaced_wrap, unplaced_step_merged hv, unplaced_step_merged hv, unplaced_unplaced]
  | group i m g bs =>
    rw [unplaced_group]
    cases g with
    | sequence joint =>
      rw [unplaced_step_sequence, unplaced_step_sequence, ← collapse_unplaced, eq_comm,
        ← collapse_unplaced, unplaced_fuseUnder (map_unplaced_map_unplaced cs) b a]
    | alternative => rw [unplaced_step_choice, unplaced_step_choice, chosen_unplaced]

end Simplify

namespace Rewrite

theorem step_ignoresPlaces (r : Rewrite) : Step.IgnoresPlaces r.step := by
  cases r with
  | flatten => exact Flatten.step_ignoresPlaces
  | prune => exact Prune.step_ignoresPlaces
  | simplify => exact Simplify.step_ignoresPlaces
  | canonicalize => exact Canonical.step_ignoresPlaces

def image (r : Rewrite) (t : Tree) : Tree := r.step.image t

def images (rs : List Rewrite) (t : Tree) : Tree := rs.foldl (fun t r => r.image t) t.unplaced

theorem image_unplaced (r : Rewrite) (t : Tree) : r.image t.unplaced = r.image t :=
  Step.image_unplaced r.step_ignoresPlaces t

theorem exists_run_recorded (r : Rewrite) {a : Arena} {t : Tree} (h : a.Holds t) : ∃ out b,
    (r.run t).run a = (.ok out, b) ∧ Recorded a out.tree b ∧ out.tree.unplaced = r.image t := by
  obtain ⟨u, b, hrun, hrec, -⟩ := exists_rewrite r h
  exact ⟨⟨u.tree, .ofChange u.changed, []⟩, b, run_of_rewrite hrun, hrec,
    relation_of_rewrite h hrun (image_relation r.step_ignoresPlaces)⟩

theorem exists_run_image (r : Rewrite) {a : Arena} {t : Tree} (h : a.Holds t) : ∃ out b,
    (r.run t).run a = (.ok out, b) ∧ (b.tree out.tree.id).unplaced = r.image t := by
  obtain ⟨out, b, hrun, hrec, himage⟩ := exists_run_recorded r h
  refine ⟨out, b, hrun, ?_⟩
  rw [Arena.tree_id_of_holds hrec.holds]
  exact himage

theorem images_cons (r : Rewrite) (rs : List Rewrite) (t : Tree) :
    images (r :: rs) t = images rs (r.image t) := by
  rw [images, images, List.foldl_cons, image_unplaced]
  exact congrArg (List.foldl _ · rs) (Step.unplaced_image t).symm

theorem images_unplaced (rs : List Rewrite) (t : Tree) : images rs t.unplaced = images rs t := by
  rw [images, unplaced_unplaced, images]

end Rewrite

theorem Round.images {rs : List Rewrite} {a b : Arena} {t : Tree} {u : Rewritten}
    (h : Round rs a t u b) : u.tree.unplaced = Rewrite.images rs t := by
  induction h with
  | done => rfl
  | @rewrite r rs a b c t t' u ht hrun _ ih =>
    have himage := Rewrite.relation_of_rewrite ht hrun (image_relation r.step_ignoresPlaces)
    rw [Rewrite.images_cons, ih, ← Rewrite.images_unplaced, himage, Rewrite.image]

namespace Pass

theorem exists_iterate_images (rs : List Rewrite) (cap : Nat) {a : Arena} (o : Outcome)
    (ht : a.Holds o.tree) : ∃ out settled b,
      (iterate (compose (rs.map .basic)).apply cap o).run a = (.ok (out, settled), b) ∧
      Recorded a out.tree b ∧
      out.tree.unplaced = (Rewrite.images rs)^[cap] o.tree.unplaced := by
  induction cap generalizing a o with
  | zero => exact ⟨o, false, a, rfl, .refl ht, rfl⟩
  | succ cap ih =>
    obtain ⟨u, b, hround, hrec, hrun⟩ := exists_round rs ht
    have himages : u.tree.unplaced = Rewrite.images rs o.tree.unplaced := by
      rw [hround.images, Rewrite.images_unplaced]
    cases hu : u.changed with
    | false =>
      -- The tree is its own image, so further rounds would not change it.
      have htree : u.tree = o.tree := (hround.reports.eq_of_unchanged hu).1
      refine ⟨o.afterRound u.outcome, true, b, iterate_of_unchanged hrun hu cap, hrec, ?_⟩
      have hfixed : Rewrite.images rs o.tree.unplaced = o.tree.unplaced := by
        rw [← himages, htree]
      rw [Function.iterate_fixed hfixed]
      exact congrArg unplaced htree
    | true =>
      obtain ⟨out, settled, c, hruns, hrec', himages'⟩ := ih (o.afterRound u.outcome) hrec.holds
      refine ⟨out, settled, c, ?_, hrec.trans hrec', ?_⟩
      · rw [iterate_of_changed hrun hu, hruns]
      · rw [himages', Function.iterate_succ_apply, ← himages]
        rfl

end Pass

/-- Apart from places, normalization takes the image of a round as often as the cap allows. -/
theorem Tree.exists_normalize_images {a : Arena} {t : Tree} (o : NormalizeOptions)
    (ht : a.Holds t) : ∃ out b, (t.normalize o).run a = (.ok out, b) ∧ Recorded a out.tree b ∧
      out.tree.unplaced = (Rewrite.images o.rewrites)^[o.maxIterations] t.unplaced := by
  obtain ⟨out, settled, b, hrun, hrec, himages⟩ :=
    Pass.exists_iterate_images o.rewrites o.maxIterations ⟨t, .unchanged, []⟩ ht
  cases settled with
  | true => exact ⟨out, b, normalize_of_settled hrun, hrec, himages⟩
  | false =>
    obtain ⟨d, -, hrun⟩ := exists_normalize_of_unsettled hrun
    exact ⟨_, b, hrun, hrec, himages⟩

end ToolBindings
