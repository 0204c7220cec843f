import ToolBindings.Proofs.Labels
import ToolBindings.Proofs.Preserve

/-!
# Lists of metadata

What metadata lists, its outputs and the authors, literature and addresses of its documentation, is
gathered along the walk of a tree. Merged metadata lists what the outer one lists and then what the inner
one lists (`Metadata.Joins`). A group that is flattened away carries no metadata, and a node that is
simplified away either carries none or stands right before the node that it is merged into. So both keep
everything gathered, in its order (`gathered_run`).
-/
namespace ToolBindings

namespace Metadata
variable {α : Type}

def ofDoc (f : Documentation → List α) (m : Metadata) : List α := (m.doc.map f).getD []

def Joins (f : Metadata → List α) : Prop := ∀ outer inner, f (outer.join inner) = f outer ++ f inner

theorem joins_outputs : Joins outputs := fun _ _ => rfl

theorem joins_ofDoc {f : Documentation → List α}
    (hf : ∀ outer inner, f (outer.merge inner) = f outer ++ f inner) : Joins (ofDoc f) := by
  intro outer inner
  cases ho : outer.doc <;> cases hi : inner.doc <;> simp [ofDoc, join, ho, hi, hf]

theorem joins_authors : Joins (ofDoc Documentation.authors) := joins_ofDoc fun _ _ => rfl

theorem joins_literature : Joins (ofDoc Documentation.literature) := joins_ofDoc fun _ _ => rfl

theorem joins_urls : Joins (ofDoc Documentation.urls) := joins_ofDoc fun _ _ => rfl

theorem Joins.merge {f : Metadata → List α} (hf : Joins f) (m n : Option Metadata) :
    (Metadata.merge m n).toList.flatMap f = m.toList.flatMap f ++ n.toList.flatMap f := by
  cases m <;> cases n <;> simp [Metadata.merge, hf _ _]

end Metadata
open Metadata

namespace Tree
variable {α : Type} (f : Metadata → List α)

/-- What the metadata of a tree lists, node after node in the order of the walk. -/
def gathered (t : Tree) : List α := t.labels.flatMap f

theorem gathered_eq (t : Tree) :
    t.gathered f = t.metadata.toList.flatMap f ++ t.children.flatMap (gathered f) := by
  rw [gathered, labels_eq, List.flatMap_append, List.flatMap_assoc]
  rfl

theorem gathered_wrap (i : NodeId) (m : Option Metadata) (w : Wrapper) (c : Tree) :
    (wrap i m w c).gathered f = m.toList.flatMap f ++ c.gathered f := by
  rw [gathered_eq, metadata_wrap, children_wrap, List.flatMap_singleton]

theorem gathered_group (i : NodeId) (m : Option Metadata) (g : Group) (cs : List Tree) :
    (group i m g cs).gathered f = m.toList.flatMap f ++ cs.flatMap (gathered f) := by
  rw [gathered_eq, metadata_group, children_group]

theorem gathered_plain (i : NodeId) (u : Terminal) : (terminal i none u).gathered f = [] := by
  simp [gathered_eq]

theorem gathered_renewed {t : Tree} (h : t.missing? = none) (j : NodeId) (m : Option Metadata) :
    (t.renewed j m).gathered f = m.toList.flatMap f ++ t.children.flatMap (gathered f) := by
  rw [gathered_eq, metadata_renewed h]
  cases t <;> rfl

def SameGathered (t u : Tree) : Prop := u.gathered f = t.gathered f

variable {f}

theorem flatMap_gathered {ts us : List Tree} (h : List.Forall₂ (SameGathered f) ts us) :
    us.flatMap (gathered f) = ts.flatMap (gathered f) := by
  rw [List.flatMap_def, List.flatMap_def, map_eq_of_forall₂ h]

end Tree
open ToolBindings.Tree

variable {α : Type} {f : Metadata → List α}

namespace Flatten

theorem gathered_inlined (g : Group) (c : Tree) :
    (inlined g c).flatMap (gathered f) = c.gathered f := by
  cases hd : dissolves g c with
  | true =>
    obtain ⟨k, ds, rfl⟩ := dissolves_iff.1 hd
    rw [inlined_of_dissolves, gathered_group]
    rfl
  | false => rw [inlined_of_not_dissolves hd, List.flatMap_singleton]

theorem gathered_flattened (g : Group) (cs : List Tree) :
    (flattened g cs).1.flatMap (gathered f) = cs.flatMap (gathered f) := by
  rw [flattened, List.flatMap_assoc]
  exact List.flatMap_congr fun c _ => gathered_inlined g c

theorem step_preserves_gathered : Step.Preserves (regroup flattened) (SameGathered f) := by
  apply regroup_preserves
  · intro i j m w b c hbc
    rw [SameGathered, gathered_wrap, gathered_wrap, hbc]
  · intro i j m g bs cs hcs
    rw [SameGathered, gathered_group, gathered_group, gathered_flattened, flatMap_gathered hcs]

end Flatten

namespace Simplify

/-- Literals that fuse list nothing, and nor does the literal that they become. -/
theorem Fuses.gathered_eq {cs ds : List Tree} {fused : Bool} (h : Fuses cs ds fused) :
    ds.flatMap (gathered f) = cs.flatMap (gathered f) := by
  induction h with
  | nil => rfl
  | skip _ ih => rw [List.flatMap_cons, List.flatMap_cons, ih]
  | fuse _ ih =>
    rw [ih]
    simp only [List.flatMap_cons, gathered_plain, List.nil_append]

theorem sameGathered_of_makes (hf : Joins f) {t u : Tree} {cs : List Tree}
    (hcs : List.Forall₂ (SameGathered f) t.children cs) (h : Makes t cs u) : SameGathered f t u := by
  have hmap := flatMap_gathered hcs
  unfold SameGathered
  cases h with
  | merged hv =>
    rw [children_wrap, List.flatMap_singleton, List.flatMap_singleton, gathered_wrap] at hmap
    rw [gathered_wrap, gathered_wrap, hf.merge, List.append_assoc, hmap]
  | wrap hkept =>
    rw [children_wrap, List.flatMap_singleton, List.flatMap_singleton] at hmap
    rw [gathered_wrap, gathered_wrap, hmap]
  | onlyChild hfuse hwhole =>
    have hchild := hfuse.gathered_eq (f := f)
    rw [List.flatMap_singleton, gathered_eq, hmap, children_group] at hchild
    rw [gathered_renewed f hwhole, gathered_group, hf.merge, List.append_assoc, hchild]
  | sequence hfuse =>
    rw [gathered_group, gathered_group, hfuse.gathered_eq, hmap, children_group]
  | onlyChoice =>
    rw [children_group, List.flatMap_singleton] at hmap
    rw [gathered_group, ← hmap]
    rfl
  | choice => rw [gathered_group, gathered_group, hmap, children_group]

theorem step_preserves_gathered (hf : Joins f) : Step.Preserves step (SameGathered f) :=
  step_preserves (sameGathered_of_makes hf)

end Simplify

namespace Rewrite
variable {a : Arena} {t : Tree}

theorem step_preserves_gathered (hf : Joins f) {r : Rewrite} (hr : r = flatten ∨ r = simplify) :
    r.step.Preserves (SameGathered f) := by
  rcases hr with rfl | rfl
  · exact Flatten.step_preserves_gathered
  · exact Simplify.step_preserves_gathered hf

theorem gathered_run {r : Rewrite} (hr : r = flatten ∨ r = simplify) (ht : a.Holds t) :
    ∃ out b, (r.run t).run a = (.ok out, b) ∧ Recorded a out.tree b ∧
      ∀ {α : Type} {f : Metadata → List α}, Joins f → SameGathered f t out.tree := by
  obtain ⟨u, b, hrun, hrec, -⟩ := r.exists_rewrite ht
  refine ⟨_, b, run_of_rewrite hrun, hrec, fun hf => ?_⟩
  exact relation_of_rewrite ht hrun
    (preserves_relation (R := SameGathered _) (fun _ => rfl) (step_preserves_gathered hf hr))

end Rewrite

/-- Flattening and simplification keep the outputs of all nodes and the authors, the literature and the
addresses of all documentation, each list in the order of the walk. -/
theorem Tree.run_keeps_lists {a : Arena} {root : NodeId} (h : a.Holds (a.tree root)) {r : Rewrite}
    (hr : r = .flatten ∨ r = .simplify) :
    ∃ out b, (r.run (a.tree root)).run a = (.ok out, b) ∧
      (b.tree out.tree.id).gathered Metadata.outputs = (a.tree root).gathered Metadata.outputs ∧
      (b.tree out.tree.id).gathered (ofDoc Documentation.authors) =
        (a.tree root).gathered (ofDoc Documentation.authors) ∧
      (b.tree out.tree.id).gathered (ofDoc Documentation.literature) =
        (a.tree root).gathered (ofDoc Documentation.literature) ∧
      (b.tree out.tree.id).gathered (ofDoc Documentation.urls) =
        (a.tree root).gathered (ofDoc Documentation.urls) := by
  obtain ⟨out, b, hrun, hrec, hkeeps⟩ := Rewrite.gathered_run hr h
  refine ⟨out, b, hrun, ?_⟩
  rw [Arena.tree_id_of_holds hrec.holds]
  exact ⟨hkeeps joins_outputs, hkeeps joins_authors, hkeeps joins_literature, hkeeps joins_urls⟩

def Arena.authored : Arena := ⟨#[
  ⟨.terminal (.literal "a"), none⟩,
  ⟨.terminal (.literal "b"), none⟩,
  ⟨.group (.sequence none) [0, 1], some { doc := some { authors := ["d"] } }⟩,
  ⟨.wrap .optional 2, some { doc := some { authors := ["c"] } }⟩,
  ⟨.wrap .optional 3, some { doc := some { authors := ["b"] } }⟩,
  ⟨.group (.sequence none) [4], some { doc := some { authors := ["a"] } }⟩]⟩

/-- A sequence, an optional and a literal become a literal in an optional. -/
theorem Tree.run_keeps_lists_authored : Arena.authored.Holds (Arena.authored.tree 5) ∧
    ∃ out b, (Rewrite.simplify.run (Arena.authored.tree 5)).run Arena.authored = (.ok out, b) ∧
      out.status = .changed ∧ (b.tree out.tree.id).walk.length = 2 ∧
      (b.tree out.tree.id).gathered (ofDoc Documentation.authors) = ["a", "b", "c", "d"] := by
  have h : Arena.authored.Holds (Arena.authored.tree 5) := Arena.holds_tree (by decide) (by decide)
  obtain ⟨out, b, hrun, -, hauthors, -⟩ := run_keeps_lists h (.inr rfl)
  refine ⟨h, out, b, hrun, ?_⟩
  rw [hauthors, gathered, labels, walk_eq_preorder, walk_eq_preorder]
  cases hrun
  exact ⟨rfl, rfl, rfl⟩

end ToolBindings
