import ToolBindings.Proofs.Size

/-!
# What canonical order keeps

A sweep that puts choices in canonical order either makes the tree smaller, because a double is
dropped, or only reorders choices, and then there is nothing left to reorder (`reorders_relation`).
The other rewrites look at a node, at some features of its children and, in a sequence, at their
order, so a tree that is reordered is still normal for a rewrite for which it was normal before.
-/
namespace ToolBindings

def Tree.wrapper? : Tree → Option Wrapper
  | wrap _ _ w _ => some w
  | _ => none

structure Alike (s t : Tree) : Prop where
  dissolves (g : Group) : Flatten.dissolves g s = Flatten.dissolves g t
  isEmpty : Prune.isEmpty s = Prune.isEmpty t
  isRemovable : Prune.isRemovable s = Prune.isRemovable t
  plainLiteral : Simplify.plainLiteral? s = Simplify.plainLiteral? t
  wrapper : s.wrapper? = t.wrapper?

section
variable {i j : NodeId} {m : Option Metadata} {w : Wrapper} {g : Group} {c d : Tree}
  {cs ds : List Tree}

theorem Alike.refl (t : Tree) : Alike t t := ⟨fun _ => rfl, rfl, rfl, rfl, rfl⟩

theorem alike_wrap (h : Alike c d) : Alike (.wrap i m w c) (.wrap j m w d) := by
  refine ⟨fun _ => rfl, rfl, ?_, rfl, rfl⟩
  simp only [Prune.isRemovable, Tree.metadata_wrap, h.isEmpty]

theorem alike_group (h : cs.length = ds.length) : Alike (.group i m g cs) (.group j m g ds) := by
  have hempty : Prune.isEmpty (.group i m g cs) = Prune.isEmpty (.group j m g ds) := by
    cases cs <;> cases ds <;> first | rfl | cases h
  refine ⟨fun _ => ?_, hempty, ?_, rfl, rfl⟩
  · cases m <;> rfl
  · simp only [Prune.isRemovable, Tree.metadata_group]
    rw [hempty]

theorem Simplify.redex_wrap_iff_wrapper : Simplify.Redex (.wrap i m w c) ↔
    ∃ w', c.wrapper? = some w' ∧ (mergeWrappers? w w').isSome := by
  rw [redex_wrap_iff]
  constructor
  · rintro ⟨k, n, w', d, v, rfl, hv⟩
    exact ⟨w', rfl, Option.isSome_of_eq_some hv⟩
  · rintro ⟨w', hc, hv⟩
    obtain ⟨v, hv⟩ := Option.isSome_iff_exists.1 hv
    cases c with
    | missing | terminal | group => cases hc
    | wrap k n w'' d =>
      cases hc
      exact ⟨k, n, w', d, v, rfl, hv⟩

theorem map_plainLiteral_of_alike (h : List.Forall₂ Alike cs ds) :
    cs.map Simplify.plainLiteral? = ds.map Simplify.plainLiteral? := by
  induction h with
  | nil => rfl
  | cons hc _ ih => rw [List.map_cons, List.map_cons, hc.plainLiteral, ih]

structure AlikeChildren (g : Group) (cs ds : List Tree) : Prop where
  exists_alike : ∀ d ∈ ds, ∃ c ∈ cs, Alike c d
  length_eq : cs.length = ds.length
  sequence : g ≠ .alternative → List.Forall₂ Alike cs ds

namespace Rewrite
variable {r : Rewrite}

theorem redex_wrap_of_alike (hr : r ≠ .canonicalize) (hc : Alike c d)
    (h : r.Redex (.wrap j m w d)) : r.Redex (.wrap i m w c) := by
  cases r with
  | flatten | prune => cases h
  | simplify =>
    rw [Redex, Simplify.redex_wrap_iff_wrapper] at h ⊢
    rw [hc.wrapper]
    exact h
  | canonicalize => exact absurd rfl hr

theorem redex_group_of_alike (hr : r ≠ .canonicalize) (hs : AlikeChildren g cs ds)
    (h : r.Redex (.group j m g ds)) : r.Redex (.group i m g cs) := by
  cases r with
  | flatten =>
    obtain ⟨d, hd, hdissolves⟩ := Flatten.redex_group_iff.1 h
    obtain ⟨c, hc, hcd⟩ := hs.exists_alike d hd
    exact Flatten.redex_group_iff.2 ⟨c, hc, (hcd.dissolves g).trans hdissolves⟩
  | prune =>
    obtain ⟨d, hd, hremovable⟩ := Prune.redex_group_iff.1 h
    obtain ⟨c, hc, hcd⟩ := hs.exists_alike d hd
    exact Prune.redex_group_iff.2 ⟨c, hc, hcd.isRemovable.trans hremovable⟩
  | simplify =>
    cases g with
    | sequence joint =>
      have hplain := map_plainLiteral_of_alike (hs.sequence (by simp))
      rw [Redex, Simplify.redex_sequence_iff, Simplify.isChain_apart_iff] at h ⊢
      rw [hs.length_eq, hplain]
      exact h
    | alternative =>
      rw [Redex, Simplify.redex_choice_iff] at h ⊢
      rw [hs.length_eq]
      exact h
  | canonicalize => exact absurd rfl hr

end Rewrite

structure Reordered (t u : Tree) : Prop where
  size_eq : u.size = t.size
  alike : Alike t u
  normal (r : Rewrite) : r ≠ .canonicalize → t.Normal r.Redex → u.Normal r.Redex
  canonical : u.Normal Canonical.Redex

theorem sizeAll_of_reordered (h : List.Forall₂ Reordered cs ds) :
    Tree.sizeAll ds = Tree.sizeAll cs := by
  induction h with
  | nil => rfl
  | cons hc _ ih => simp only [Tree.sizeAll, hc.size_eq, ih]

theorem reordered_leaf {t : Tree} (h : t.children = []) : Reordered t t := by
  refine ⟨rfl, .refl t, fun _ _ ht => ht, Tree.normal_iff.2 ⟨?_, ?_⟩⟩
  · exact (regroup_firesAt Canonical.ordered_firesAt).leaf h
  · simp [h]

theorem reordered_wrap (h : Reordered c d) : Reordered (.wrap i m w c) (.wrap j m w d) := by
  refine ⟨by simp only [Tree.size, h.size_eq], alike_wrap h.alike, fun r hr ht => ?_, ?_⟩
  · obtain ⟨hredex, hc⟩ := Tree.normal_iff.1 ht
    have hd := h.normal r hr (hc c (List.mem_singleton.2 rfl))
    refine Tree.normal_iff.2 ⟨fun hu => hredex ?_, fun e he => ?_⟩
    · exact Rewrite.redex_wrap_of_alike hr h.alike hu
    · exact List.mem_singleton.1 he ▸ hd
  · refine Tree.normal_iff.2 ⟨fun hu => ?_, fun e he => ?_⟩
    · cases hu
    · exact List.mem_singleton.1 he ▸ h.canonical

theorem reordered_group {es : List Tree} (h : List.Forall₂ Reordered cs ds) (hp : es.Perm ds)
    (hseq : g ≠ .alternative → es = ds) (harranged : g = .alternative → Canonical.arranged es = es) :
    Reordered (.group i m g cs) (.group j m g es) := by
  have hlen : cs.length = es.length := h.length_eq.trans hp.length_eq.symm
  have hexists : ∀ e ∈ es, ∃ c ∈ cs, Reordered c e := fun e he =>
    exists_of_forall₂ h (hp.mem_iff.1 he)
  refine ⟨?_, alike_group hlen, fun r hr ht => ?_, ?_⟩
  · simp only [Tree.size, Tree.sizeAll_perm hp, sizeAll_of_reordered h]
  · obtain ⟨hredex, hcs⟩ := Tree.normal_iff.1 ht
    have hs : AlikeChildren g cs es := by
      refine ⟨fun e he => ?_, hlen, fun hg => hseq hg ▸ h.imp fun _ _ hc => hc.alike⟩
      obtain ⟨c, hc, hce⟩ := hexists e he
      exact ⟨c, hc, hce.alike⟩
    refine Tree.normal_iff.2 ⟨fun hu => hredex (Rewrite.redex_group_of_alike hr hs hu), ?_⟩
    intro e he
    obtain ⟨c, hc, hce⟩ := hexists e he
    exact hce.normal r hr (hcs c hc)
  · refine Tree.normal_iff.2 ⟨?_, fun e he => ?_⟩
    · rintro ⟨hne⟩
      exact hne (harranged rfl)
    · obtain ⟨c, -, hce⟩ := hexists e he
      exact hce.canonical

end

def Reorders (_ : Arena) (t : Tree) (r : Rewritten) (_ : Arena) : Prop :=
  r.tree.size < t.size ∨ Reordered t r.tree

theorem reordersAll {a b : Arena} {ts : List Tree} {rs : List Rewritten}
    (h : Chain Reorders a ts rs b) :
    Tree.sizeAll (rs.map Rewritten.tree) < Tree.sizeAll ts ∨
      List.Forall₂ Reordered ts (rs.map Rewritten.tree) := by
  induction h with
  | nil => exact .inr .nil
  | @cons a b c t r ts rs hr _ ih =>
    simp only [List.map_cons, Tree.sizeAll]
    rcases hr with hlt | hr <;> rcases ih with hlts | hrs
    · omega
    · have hsize := sizeAll_of_reordered hrs
      omega
    · have hsize := hr.size_eq
      omega
    · exact .inr (.cons hr hrs)

namespace Canonical

theorem sizeAll_ordered_le (g : Group) (cs : List Tree) :
    Tree.sizeAll (ordered g cs).1 ≤ Tree.sizeAll cs := by
  cases g with
  | sequence => exact Nat.le_refl _
  | alternative =>
    rw [← Tree.sizeAll_perm (sorted_perm cs)]
    exact Tree.sizeAll_sublist (arranged_sublist cs)

theorem arranged_perm_of_size {cs : List Tree}
    (h : Tree.sizeAll cs ≤ Tree.sizeAll (arranged cs)) : (arranged cs).Perm cs := by
  rw [← Tree.sizeAll_perm (sorted_perm cs)] at h
  rw [Tree.eq_of_sublist_of_sizeAll_le (arranged_sublist cs) h]
  exact sorted_perm cs

theorem ordered_perm_of_size {g : Group} {cs : List Tree}
    (h : Tree.sizeAll cs ≤ Tree.sizeAll (ordered g cs).1) : (ordered g cs).1.Perm cs := by
  cases g with
  | sequence => exact .refl cs
  | alternative => exact arranged_perm_of_size h

theorem reorders_relation : SweepRelation (regroup ordered) Reorders where
  leaf _ hc := .inr (reordered_leaf hc)
  node {a b t rs} _ _ hne hch := by
    have hlen : (rs.map Rewritten.tree).length = t.children.length := by
      rw [List.length_map, hch.length_eq]
    have hall := reordersAll hch
    generalize hds : rs.map Rewritten.tree = ds at hlen hall ⊢
    cases t with
    | missing | terminal => exact absurd rfl hne
    | wrap i m w c =>
      obtain ⟨d, rfl⟩ := List.length_eq_one_iff.1 hlen
      obtain ⟨j, hj⟩ := Tree.exists_withChildren_wrap i m w c d b
      rw [regroup_wrap]
      simp only [Reorders, Rewritten.above, hj]
      rcases hall with hlt | hall
      · simp only [Tree.children_wrap, Tree.sizeAll] at hlt
        simp only [Tree.size]
        omega
      · exact .inr (reordered_wrap (List.forall₂_cons.1 hall).1)
    | group i m g cs =>
      rw [Tree.children_group] at hall
      obtain ⟨j, hj⟩ := Tree.exists_withChildren_group i m g cs (ordered g ds).1 b
      rw [regroup_group]
      simp only [Reorders, Rewritten.above, hj, Tree.size]
      by_cases hlt : Tree.sizeAll (ordered g ds).1 < Tree.sizeAll cs
      · exact .inl (Nat.succ_lt_succ hlt)
      · -- No child has become smaller and none is dropped, so all that happens is reordering.
        rcases hall with hlt' | hall
        · have hle := sizeAll_ordered_le g ds
          omega
        · have hsame := sizeAll_of_reordered hall
          refine .inr (reordered_group hall (ordered_perm_of_size (by omega)) ?_ ?_)
          · intro hg
            cases g with
            | sequence => rfl
            | alternative => exact absurd rfl hg
          · rintro rfl
            exact arranged_arranged ds

end Canonical
end ToolBindings
