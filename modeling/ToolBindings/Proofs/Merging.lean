import ToolBindings.Proofs.Image
import ToolBindings.Proofs.PlainText
import ToolBindings.Proofs.Postorder

/-!
# Merging metadata along a chain

Merging is associative and absent metadata is neutral, so the nodes of a chain that become one may be fused
in any grouping: the metadata is always that of the chain merged from its end (`Fusion.metadata_eq`).
Simplification fuses a chain of sequences of one child from the inside out (`metadata_image_chain`), so what
it leaves has that metadata too.
-/
namespace ToolBindings

instance : Std.Associative Documentation.merge :=
  ⟨fun a b c => (Documentation.merge_assoc a b c).symm⟩

instance : Std.LawfulIdentity Documentation.merge {} where
  left_id := Documentation.merge_empty_left
  right_id := Documentation.merge_empty_right

namespace Metadata

/-- If one side has documentation, absent documentation on the other side counts as empty. -/
theorem doc_join {outer inner : Metadata} (h : outer.doc ≠ none ∨ inner.doc ≠ none) :
    (outer.join inner).doc = some ((outer.doc.getD {}).merge (inner.doc.getD {})) := by
  have hsome : (Option.merge Documentation.merge outer.doc inner.doc).isSome := by
    simpa [Option.isSome_merge, Option.isSome_iff_ne_none] using h
  exact (Option.some_get hsome).symm.trans (congrArg some (Option.get_merge (h := hsome)))

theorem join_assoc (l m n : Metadata) : (l.join m).join n = l.join (m.join n) := by
  simp only [join, Std.Associative.assoc]

instance : Std.Associative join := ⟨join_assoc⟩

instance : Std.Associative merge := inferInstanceAs (Std.Associative (Option.merge join))

theorem foldr_merge (ms : List (Option Metadata)) (m : Option Metadata) :
    ms.foldr merge m = merge (ms.foldr merge none) m := by
  have h : ms.foldr merge (merge none m) = merge (ms.foldr merge none) m := List.foldr_assoc
  rwa [merge_none_left] at h

end Metadata

/-- A grouping of a chain of nodes, the outermost first, that fuse to one node. -/
inductive Fusion
  | node (metadata : Option Metadata)
  | fuse (outer inner : Fusion)

namespace Fusion

def chain : Fusion → List (Option Metadata)
  | node m => [m]
  | fuse outer inner => outer.chain ++ inner.chain

def metadata : Fusion → Option Metadata
  | node m => m
  | fuse outer inner => Metadata.merge outer.metadata inner.metadata

theorem metadata_eq (f : Fusion) : f.metadata = f.chain.foldr Metadata.merge none := by
  induction f with
  | node m => simp [metadata, chain]
  | fuse outer inner ih ih' =>
    rw [metadata, chain, List.foldr_append, ← ih', Metadata.foldr_merge, ← ih]

end Fusion
open ToolBindings.Tree

namespace Tree

theorem missing?_relabelled (t : Tree) (m : Option Metadata) :
    (t.relabelled m).missing? = none ↔ t.missing? = none := by
  cases t <;> simp [relabelled, missing?]

theorem missing?_unplaced (t : Tree) : t.unplaced.missing? = none ↔ t.missing? = none := by
  rw [← relabelled_metadata, missing?_relabelled]

theorem metadata_relabelled {t : Tree} (h : t.missing? = none) (m : Option Metadata) :
    (t.relabelled m).metadata = m := by
  cases t with
  | missing => cases h
  | terminal | wrap | group => rfl

end Tree

/-- A sequence around one child. -/
structure Link where
  id : NodeId
  metadata : Option Metadata
  joint : Option String

namespace Link

def enclose (l : Link) (t : Tree) : Tree := .group l.id l.metadata (.sequence l.joint) [t]

theorem image_enclose (l : Link) (t : Tree) : Rewrite.simplify.image (l.enclose t) =
    (Rewrite.simplify.image t).relabelled
      (Metadata.merge l.metadata (Rewrite.simplify.image t).metadata) := by
  have hne : (l.enclose t).children ≠ [] := List.cons_ne_nil t []
  have hstep := Simplify.unplaced_step_sequence l.id l.metadata l.joint [t]
    [Rewrite.simplify.image t] {}
  rw [Simplify.fuseUnder_singleton] at hstep
  rw [Rewrite.image, Step.image_of_node hne]
  exact hstep

theorem metadata_image_chain (links : List Link) {t : Tree}
    (h : (Rewrite.simplify.image t).missing? = none) :
    (Rewrite.simplify.image (links.foldr enclose t)).missing? = none ∧
      (Rewrite.simplify.image (links.foldr enclose t)).metadata =
        (links.map Link.metadata).foldr Metadata.merge (Rewrite.simplify.image t).metadata := by
  induction links with
  | nil => exact ⟨h, rfl⟩
  | cons l links ih =>
    rw [List.foldr_cons, image_enclose, missing?_relabelled, metadata_relabelled ih.1, ih.2]
    exact ⟨ih.1, rfl⟩

theorem holds_of_chain {a : Arena} {links : List Link} {t : Tree}
    (h : a.Holds (links.foldr enclose t)) : a.Holds t := by
  induction links with
  | nil => exact h
  | cons l links ih => exact ih (h.children _ (List.mem_singleton.2 rfl))

end Link

/-- Merging is associative, absent metadata is neutral on both sides, and a chain of metadata gives the same
however its fusions are grouped. When simplification fuses sequences of one child with what they enclose, the
metadata that it leaves is that of every grouping of the chain. -/
theorem Metadata.merge_grouping :
    (∀ l m n, merge l (merge m n) = merge (merge l m) n) ∧
    (∀ m, merge none m = m ∧ merge m none = m) ∧
    (∀ f g : Fusion, f.chain = g.chain → f.metadata = g.metadata) ∧
    ∀ (a : Arena) (links : List Link) (t : Tree), a.Holds (links.foldr Link.enclose t) →
      ∃ inner b out c, (Rewrite.simplify.run t).run a = (.ok inner, b) ∧
        (Rewrite.simplify.run (links.foldr Link.enclose t)).run a = (.ok out, c) ∧
        ∀ f : Fusion, f.chain = links.map Link.metadata ++ [inner.tree.metadata] →
          out.tree.metadata = f.metadata := by
  refine ⟨fun l m n => (Std.Associative.assoc l m n).symm,
    fun m => ⟨merge_none_left m, merge_none_right m⟩, fun f g h => ?_, fun a links t h => ?_⟩
  · rw [f.metadata_eq, g.metadata_eq, h]
  · obtain ⟨inner, b, hinner, hrec, himage⟩ :=
      Rewrite.simplify.exists_run_recorded (Link.holds_of_chain h)
    obtain ⟨out, c, hout, -, himage'⟩ := Rewrite.simplify.exists_run_recorded h
    refine ⟨inner, b, out, c, hinner, hout, fun f hf => ?_⟩
    have hmissing : (Rewrite.simplify.image t).missing? = none := by
      rw [← himage, missing?_unplaced]
      exact (whole_iff.1 (whole_of_holds hrec.holds)).1
    rw [← metadata_unplaced, himage', (Link.metadata_image_chain links hmissing).2, ← himage,
      metadata_unplaced, f.metadata_eq, hf, List.foldr_append, List.foldr_cons, List.foldr_nil,
      merge_none_right]

def Arena.layered : Arena := ⟨#[
  ⟨.terminal .str, some { name := some "x" }⟩,
  ⟨.group (.sequence none) [0], some { doc := some { authors := ["a"] } }⟩,
  ⟨.group (.sequence (some ",")) [1],
    some { name := some "y", doc := some { title := some "t", authors := ["b"] } }⟩]⟩

def Fusion.layer (i : NodeId) : Fusion := .node (Arena.layered.tree i).metadata

theorem Metadata.merge_grouping_layered :
    Arena.layered.Holds (Arena.layered.tree 2) ∧
    (Fusion.fuse (.fuse (.layer 2) (.layer 1)) (.layer 0)).metadata =
      (Fusion.fuse (.layer 2) (.fuse (.layer 1) (.layer 0))).metadata ∧
    ∃ out c, (Rewrite.simplify.run (Arena.layered.tree 2)).run Arena.layered = (.ok out, c) ∧
      out.tree.metadata =
        some { name := some "x", doc := some { title := some "t", authors := ["b", "a"] } } := by
  have ho : Arena.layered.Ordered := by decide
  have hheld := Arena.holds_tree ho (show 2 < Arena.layered.size by decide)
  obtain ⟨-, -, hgrouping, hchain⟩ := merge_grouping
  obtain ⟨inner, b, out, c, hinner, hout, hmetadata⟩ := hchain Arena.layered
    [⟨2, (Arena.layered.tree 2).metadata, some ","⟩, ⟨1, (Arena.layered.tree 1).metadata, none⟩]
    (Arena.layered.tree 0) hheld
  cases hinner
  have hmerged := hmetadata (.fuse (.fuse (.layer 2) (.layer 1)) (.layer 0)) rfl
  exact ⟨hheld, hgrouping _ _ rfl, out, c, hout, hmerged⟩

end ToolBindings
