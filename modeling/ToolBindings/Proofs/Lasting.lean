import ToolBindings.Compile
import ToolBindings.Proofs.Building
import ToolBindings.Proofs.Formed
import ToolBindings.Proofs.NormalForm
import ToolBindings.Proofs.Preserve
import ToolBindings.Proofs.Unions

/-!
# Choices that stay inhabited

Pruning takes out children that stand for nothing, and it takes them out of a choice as well. So a choice
between such children is left without any, and it stays, with a union without variants for its type, if it
carries metadata (`compile_uninhabited`). What a choice needs is a child that lasts: one that rewrites may
turn into another tree but do not take away. Rewrites keep trees lasting (`Rewrite.step_keepsLasting`), so
where every choice of a descriptor has such a child the normal tree has no choice without children and no
type a union without variants (`compile_inhabited`).
-/
namespace ToolBindings
open ToolBindings.Tree

namespace Tree

/-- A tree that rewrites do not take away: one with a leaf, or one that carries metadata or has only
groups above what does. Metadata does not count (`named` is false) within a wrapper, because a wrapper is
taken out whatever the metadata of the empty group in it. If choices lose doubles (`strict`) every child of
a choice has to last, because which of two doubles stays is not known. -/
inductive Lasts (strict : Bool) : Bool → Tree → Prop
  | metadata {t : Tree} : t.metadata.isSome → Lasts strict true t
  | leaf {named : Bool} {i : NodeId} {m : Option Metadata} {u : Terminal} :
      Lasts strict named (terminal i m u)
  | wrap {named : Bool} {i : NodeId} {m : Option Metadata} {w : Wrapper} {c : Tree} :
      Lasts strict false c → Lasts strict named (wrap i m w c)
  | group {named : Bool} {i : NodeId} {m : Option Metadata} {g : Group} {cs : List Tree} {c : Tree} :
      c ∈ cs → Lasts strict named c →
      (g = .alternative → strict = true → ∀ d ∈ cs, Lasts strict named d) →
      Lasts strict named (group i m g cs)

structure LastsAmong (strict named : Bool) (g : Group) (cs : List Tree) : Prop where
  exists_mem : ∃ c ∈ cs, c.Lasts strict named
  all : g = .alternative → strict = true → ∀ c ∈ cs, c.Lasts strict named

section
variable {strict named : Bool} {i : NodeId} {m : Option Metadata} {w : Wrapper} {g : Group}
  {c : Tree} {cs : List Tree}

theorem lasts_wrap_iff : (wrap i m w c).Lasts strict named ↔
    named = true ∧ m.isSome ∨ c.Lasts strict false := by
  constructor
  · rintro (h | - | h | -)
    · exact .inl ⟨rfl, h⟩
    · exact .inr h
  · rintro (⟨rfl, h⟩ | h)
    · exact .metadata h
    · exact .wrap h

theorem lasts_group_iff : (group i m g cs).Lasts strict named ↔
    named = true ∧ m.isSome ∨ LastsAmong strict named g cs := by
  constructor
  · rintro (h | - | - | ⟨hc, hlasts, hall⟩)
    · exact .inl ⟨rfl, h⟩
    · exact .inr ⟨⟨_, hc, hlasts⟩, hall⟩
  · rintro (⟨rfl, h⟩ | ⟨⟨c, hc, hlasts⟩, hall⟩)
    · exact .metadata h
    · exact .group hc hlasts hall

/-- Every choice in the tree has a child that lasts, or only such children if choices lose doubles. -/
def Secured (strict : Bool) (t : Tree) : Prop :=
  ∀ s ∈ t.preorder, ∀ i m cs, s = group i m .alternative cs → LastsAmong strict true .alternative cs

theorem Secured.choicesInhabited {t : Tree} (h : t.Secured strict) : t.ChoicesInhabited := by
  intro s hs i m cs hgroup
  obtain ⟨c, hc, -⟩ := (h s hs i m cs hgroup).exists_mem
  exact List.ne_nil_of_mem hc

theorem Secured.children {t : Tree} (h : t.Secured strict) : ∀ c ∈ t.children, c.Secured strict :=
  (forall_preorder.1 h).2

theorem secured_terminal {u : Terminal} : (terminal i m u).Secured strict := by
  simp [Secured, preorder]

theorem secured_wrap : (wrap i m w c).Secured strict ↔ c.Secured strict := by
  rw [Secured, forall_preorder]
  exact (and_iff_right nofun).trans List.forall_mem_singleton

theorem secured_group : (group i m g cs).Secured strict ↔
    (g = .alternative → LastsAmong strict true g cs) ∧ ∀ c ∈ cs, c.Secured strict := by
  rw [Secured, forall_preorder]
  refine and_congr_left fun _ => ⟨?_, fun h => ?_⟩
  · rintro h rfl
    exact h i m cs rfl
  · rintro _ _ _ ⟨⟩
    exact h rfl

mutual

def lasts (strict : Bool) : Bool → Tree → Bool
  | _, missing _ => false
  | _, terminal .. => true
  | named, wrap _ m _ c => named && m.isSome || lasts strict false c
  | named, group _ m g cs => named && m.isSome ||
    someLasts strict named cs && (!(strict && g = .alternative) || everyLasts strict named cs)

def someLasts (strict : Bool) : Bool → List Tree → Bool
  | _, [] => false
  | named, t :: ts => lasts strict named t || someLasts strict named ts

def everyLasts (strict : Bool) : Bool → List Tree → Bool
  | _, [] => true
  | named, t :: ts => lasts strict named t && everyLasts strict named ts

end

mutual

theorem lasts_iff (strict : Bool) : (named : Bool) → (t : Tree) →
    (lasts strict named t = true ↔ t.Lasts strict named)
  | _, missing _ => ⟨nofun, by rintro ⟨⟨⟩⟩⟩
  | _, terminal .. => ⟨fun _ => .leaf, fun _ => rfl⟩
  | named, wrap _ m _ c => by
    rw [lasts_wrap_iff, ← lasts_iff strict false c]
    simp [lasts]
  | named, group _ m g cs => by
    have hsome := someLasts_iff strict named cs
    have hevery := everyLasts_iff strict named cs
    have hamong : LastsAmong strict named g cs ↔ someLasts strict named cs = true ∧
        (g = .alternative → strict = true → everyLasts strict named cs = true) := by
      rw [hsome, hevery]
      exact ⟨fun ⟨h, h'⟩ => ⟨h, h'⟩, fun ⟨h, h'⟩ => ⟨h, h'⟩⟩
    rw [lasts_group_iff, hamong]
    cases strict <;> by_cases hg : g = .alternative <;> simp [lasts, hg]

theorem someLasts_iff (strict : Bool) : (named : Bool) → (ts : List Tree) →
    (someLasts strict named ts = true ↔ ∃ t ∈ ts, t.Lasts strict named)
  | _, [] => by simp [someLasts]
  | named, t :: ts => by
    rw [List.exists_mem_cons_iff, ← lasts_iff strict named t, ← someLasts_iff strict named ts,
      someLasts, Bool.or_eq_true]

theorem everyLasts_iff (strict : Bool) : (named : Bool) → (ts : List Tree) →
    (everyLasts strict named ts = true ↔ ∀ t ∈ ts, t.Lasts strict named)
  | _, [] => by simp [everyLasts]
  | named, t :: ts => by
    rw [List.forall_mem_cons, ← lasts_iff strict named t, ← everyLasts_iff strict named ts,
      everyLasts, Bool.and_eq_true]

end

def isSecured (strict : Bool) : Tree → Bool
  | group _ _ .alternative cs =>
    someLasts strict true cs && (!strict || everyLasts strict true cs)
  | _ => true

theorem secured_iff {t : Tree} :
    t.Secured strict ↔ ∀ s ∈ t.preorder, s.isSecured strict = true := by
  refine forall₂_congr fun s _ => ?_
  have hchoice : ∀ i m cs, LastsAmong strict true .alternative cs ↔
      (group i m .alternative cs).isSecured strict = true := by
    intro i m cs
    have hiff : LastsAmong strict true .alternative cs ↔ someLasts strict true cs = true ∧
        (strict = true → everyLasts strict true cs = true) := by
      rw [someLasts_iff, everyLasts_iff]
      exact ⟨fun ⟨h, h'⟩ => ⟨h, h' rfl⟩, fun ⟨h, h'⟩ => ⟨h, fun _ => h'⟩⟩
    rw [hiff]
    cases strict <;> simp [isSecured]
  constructor
  · intro h
    unfold isSecured
    split
    · next i m cs _ => exact (hchoice i m cs).1 (h i m cs rfl)
    · rfl
  · rintro h i m cs rfl
    exact (hchoice i m cs).2 h

instance {t : Tree} : Decidable (t.Secured strict) := decidable_of_iff' _ secured_iff

theorem Lasts.renewed {t : Tree} (j : NodeId) (h : t.Lasts strict named) :
    (t.renewed j (Metadata.merge m t.metadata)).Lasts strict named := by
  cases t with
  | missing => exact h
  | terminal => exact .leaf
  | wrap =>
    refine lasts_wrap_iff.2 ((lasts_wrap_iff.1 h).imp_left (And.imp_right fun hm => ?_))
    exact Metadata.isSome_merge.2 (.inr hm)
  | group =>
    refine lasts_group_iff.2 ((lasts_group_iff.1 h).imp_left (And.imp_right fun hm => ?_))
    exact Metadata.isSome_merge.2 (.inr hm)

theorem Secured.renewed {t : Tree} (h : t.Secured strict) (j : NodeId) (m : Option Metadata) :
    (t.renewed j m).Secured strict := by
  cases t with
  | missing => exact h
  | terminal => exact secured_terminal
  | wrap => exact secured_wrap.2 (secured_wrap.1 h)
  | group => exact secured_group.2 (secured_group.1 h)

end

structure KeepsLasting (strict : Bool) (t u : Tree) : Prop where
  lasts {named : Bool} : t.Lasts strict named → u.Lasts strict named
  secured : t.Secured strict → u.Secured strict

end Tree

variable {strict named : Bool} {bs cs : List Tree}

theorem lastsAmong_of_forall₂ {g : Group} (h : List.Forall₂ (KeepsLasting strict) bs cs)
    (hbs : LastsAmong strict named g bs) : LastsAmong strict named g cs where
  exists_mem := by
    obtain ⟨b, hb, hlasts⟩ := hbs.exists_mem
    obtain ⟨c, hc, hbc⟩ := exists_of_forall₂ h.flip hb
    exact ⟨c, hc, hbc.lasts hlasts⟩
  all hg hstrict c hc := by
    obtain ⟨b, hb, hbc⟩ := exists_of_forall₂ h hc
    exact hbc.lasts (hbs.all hg hstrict b hb)

theorem secured_of_forall₂ (h : List.Forall₂ (KeepsLasting strict) bs cs)
    (hbs : ∀ b ∈ bs, b.Secured strict) : ∀ c ∈ cs, c.Secured strict := by
  intro c hc
  obtain ⟨b, hb, hbc⟩ := exists_of_forall₂ h hc
  exact hbc.secured (hbs b hb)

theorem regroup_keepsLasting {choose : Group → List Tree → List Tree × Bool}
    (hlasts : ∀ {named g cs}, LastsAmong strict named g cs → LastsAmong strict named g (choose g cs).1)
    (hsecured : ∀ g {cs}, (∀ c ∈ cs, c.Secured strict) → ∀ c ∈ (choose g cs).1, c.Secured strict) :
    Step.Preserves (regroup choose) (KeepsLasting strict) := by
  apply regroup_preserves
  · intro i j m w b c hbc
    exact ⟨fun h => lasts_wrap_iff.2 ((lasts_wrap_iff.1 h).imp_right hbc.lasts),
      fun h => secured_wrap.2 (hbc.secured (secured_wrap.1 h))⟩
  · intro i j m g bs cs hcs
    refine ⟨fun h => lasts_group_iff.2 ((lasts_group_iff.1 h).imp_right fun hbs => ?_), fun h => ?_⟩
    · exact hlasts (lastsAmong_of_forall₂ hcs hbs)
    · obtain ⟨hg, hbs⟩ := secured_group.1 h
      exact secured_group.2 ⟨fun halt => hlasts (lastsAmong_of_forall₂ hcs (hg halt)),
        hsecured g (secured_of_forall₂ hcs hbs)⟩

namespace Flatten

theorem lastsAmong_inlined {g : Group} {c : Tree} (h : c.Lasts strict named) :
    LastsAmong strict named g (inlined g c) := by
  cases hd : dissolves g c with
  | true =>
    obtain ⟨k, ds, rfl⟩ := dissolves_iff.1 hd
    rw [inlined_of_dissolves]
    exact (lasts_group_iff.1 h).resolve_left fun hm => nomatch hm.2
  | false =>
    rw [inlined_of_not_dissolves hd]
    exact ⟨⟨c, List.mem_cons_self, h⟩, fun _ _ => List.forall_mem_singleton.2 h⟩

theorem lastsAmong_flattened {g : Group} (h : LastsAmong strict named g cs) :
    LastsAmong strict named g (flattened g cs).1 where
  exists_mem := by
    obtain ⟨c, hc, hlasts⟩ := h.exists_mem
    obtain ⟨d, hd, hlasts⟩ := (lastsAmong_inlined (g := g) hlasts).exists_mem
    exact ⟨d, List.mem_flatMap.2 ⟨c, hc, hd⟩, hlasts⟩
  all hg hstrict d hd := by
    obtain ⟨c, hc, hdc⟩ := List.mem_flatMap.1 hd
    exact (lastsAmong_inlined (h.all hg hstrict c hc)).all hg hstrict d hdc

theorem step_keepsLasting : Step.Preserves (regroup flattened) (KeepsLasting strict) :=
  regroup_keepsLasting lastsAmong_flattened (forall_mem_flattened Secured.children)

end Flatten

namespace Prune

theorem not_lastsAmong_nil {g : Group} : ¬ LastsAmong strict named g [] := fun h => by
  obtain ⟨c, hc, -⟩ := h.exists_mem
  cases hc

theorem not_lasts_of_isRemovable {t : Tree} (h : isRemovable t = true) :
    ¬ t.Lasts strict named := by
  intro hlasts
  rcases isRemovable_iff.1 h with ⟨k, g, rfl⟩ | ⟨k, w, l, n, g, rfl⟩
  · exact not_lastsAmong_nil ((lasts_group_iff.1 hlasts).resolve_left nofun)
  · have hgroup := (lasts_wrap_iff.1 hlasts).resolve_left nofun
    exact not_lastsAmong_nil ((lasts_group_iff.1 hgroup).resolve_left nofun)

theorem lastsAmong_pruned {g : Group} (h : LastsAmong strict named g cs) :
    LastsAmong strict named g (pruned g cs).1 where
  exists_mem := by
    obtain ⟨c, hc, hlasts⟩ := h.exists_mem
    refine ⟨c, List.mem_filter.2 ⟨hc, ?_⟩, hlasts⟩
    simpa using fun hr => not_lasts_of_isRemovable hr hlasts
  all hg hstrict c hc := h.all hg hstrict c (List.mem_of_mem_filter hc)

theorem step_keepsLasting : Step.Preserves (regroup pruned) (KeepsLasting strict) :=
  regroup_keepsLasting lastsAmong_pruned forall_mem_pruned

end Prune

namespace Canonical

theorem arranged_ne_nil (h : cs ≠ []) : arranged cs ≠ [] := by
  have hsorted : sorted cs ≠ [] := fun hnil => h ((hnil ▸ sorted_perm cs).nil_eq.symm)
  obtain ⟨c, cs', hcons⟩ := List.exists_cons_of_ne_nil hsorted
  rw [arranged, hcons, distinct, if_pos (.inr List.not_mem_nil)]
  exact List.cons_ne_nil _ _

theorem lastsAmong_ordered {g : Group} (h : LastsAmong true named g cs) :
    LastsAmong true named g (ordered g cs).1 := by
  cases g with
  | sequence => exact h
  | alternative =>
    have hall : ∀ c ∈ arranged cs, c.Lasts true named := fun c hc =>
      h.all rfl rfl c (mem_of_mem_arranged hc)
    obtain ⟨c, hc, -⟩ := h.exists_mem
    obtain ⟨d, hd⟩ := List.exists_mem_of_ne_nil _ (arranged_ne_nil (List.ne_nil_of_mem hc))
    exact ⟨⟨d, hd, hall d hd⟩, fun _ _ => hall⟩

theorem step_keepsLasting : Step.Preserves (regroup ordered) (KeepsLasting true) :=
  regroup_keepsLasting lastsAmong_ordered forall_mem_ordered

end Canonical

namespace Simplify

theorem Fuses.lasts {ds : List Tree} {fused : Bool} (h : Fuses cs ds fused)
    (hcs : ∃ c ∈ cs, c.Lasts strict named) : ∃ d ∈ ds, d.Lasts strict named := by
  induction h with
  | nil => exact hcs
  | skip _ ih =>
    rw [List.exists_mem_cons_iff] at hcs ⊢
    exact hcs.imp_right ih
  | fuse _ ih => exact ih ⟨_, List.mem_cons_self, .leaf⟩

theorem Fuses.secured {ds : List Tree} {fused : Bool} (h : Fuses cs ds fused)
    (hcs : ∀ c ∈ cs, c.Secured strict) : ∀ d ∈ ds, d.Secured strict :=
  h.forall_mem (fun _ _ => secured_terminal) hcs

theorem step_keepsLasting : Step.Preserves step (KeepsLasting strict) := by
  refine step_preserves fun {t u cs} hcs hmakes => ⟨fun {named} h => ?_, fun h => ?_⟩
  · cases hmakes with
    | merged hv =>
      have hinner := List.forall₂_cons.1 hcs
      refine lasts_wrap_iff.2 ?_
      rcases lasts_wrap_iff.1 h with ⟨hnamed, hm⟩ | hb
      · exact .inl ⟨hnamed, Metadata.isSome_merge.2 (.inl hm)⟩
      · exact .inr ((lasts_wrap_iff.1 (hinner.1.lasts hb)).resolve_left nofun)
    | wrap =>
      have hinner := List.forall₂_cons.1 hcs
      exact lasts_wrap_iff.2 ((lasts_wrap_iff.1 h).imp_right hinner.1.lasts)
    | onlyChild hfuse hmissing =>
      rcases lasts_group_iff.1 h with ⟨rfl, hm⟩ | hbs
      · apply Lasts.metadata
        rw [metadata_renewed hmissing]
        exact Metadata.isSome_merge.2 (.inl hm)
      · obtain ⟨d, hd, hlasts⟩ := hfuse.lasts (lastsAmong_of_forall₂ hcs hbs).exists_mem
        exact (List.mem_singleton.1 hd ▸ hlasts).renewed _
    | sequence hfuse =>
      refine lasts_group_iff.2 ((lasts_group_iff.1 h).imp_right fun hbs => ⟨?_, nofun⟩)
      exact hfuse.lasts (lastsAmong_of_forall₂ hcs hbs).exists_mem
    | onlyChoice =>
      have hbs := (lasts_group_iff.1 h).resolve_left nofun
      obtain ⟨c, hc, hlasts⟩ := (lastsAmong_of_forall₂ hcs hbs).exists_mem
      exact List.mem_singleton.1 hc ▸ hlasts
    | choice =>
      exact lasts_group_iff.2 ((lasts_group_iff.1 h).imp_right (lastsAmong_of_forall₂ hcs))
  · have hnew := secured_of_forall₂ hcs h.children
    cases hmakes with
    | merged => exact secured_wrap.2 (secured_wrap.1 (hnew _ List.mem_cons_self))
    | wrap => exact secured_wrap.2 (hnew _ List.mem_cons_self)
    | onlyChild hfuse => exact (hfuse.secured hnew _ List.mem_cons_self).renewed _ _
    | sequence hfuse => exact secured_group.2 ⟨nofun, hfuse.secured hnew⟩
    | onlyChoice => exact hnew _ List.mem_cons_self
    | choice =>
      have hbs := (secured_group.1 h).1 rfl
      exact secured_group.2 ⟨fun _ => lastsAmong_of_forall₂ hcs hbs, hnew⟩

end Simplify

theorem Rewrite.step_keepsLasting {r : Rewrite} (hr : r = .canonicalize → strict = true) :
    Step.Preserves r.step (KeepsLasting strict) := by
  cases r with
  | flatten => exact Flatten.step_keepsLasting
  | prune => exact Prune.step_keepsLasting
  | simplify => exact Simplify.step_keepsLasting
  | canonicalize => exact hr rfl ▸ Canonical.step_keepsLasting

namespace Tree
variable {a : Arena} {t : Tree}

theorem exists_normalize_secured (o : NormalizeOptions) (ht : a.Holds t)
    (h : t.Secured o.canonicalize) : ∃ out b, (t.normalize o).run a = (.ok out, b) ∧
      Recorded a out.tree b ∧ out.tree.Secured o.canonicalize := by
  have hparts : ∀ r ∈ o.pass.parts, Step.Preserves r.step (KeepsLasting o.canonicalize) := by
    intro r hr
    apply Rewrite.step_keepsLasting
    rintro rfl
    rw [NormalizeOptions.pass, Pass.parts_pipeline, NormalizeOptions.rewrites_eq] at hr
    simpa using hr
  obtain ⟨out, b, hrun, hrec, hkeeps⟩ := Pass.exists_apply_preserves (fun _ => ⟨fun h => h, fun h => h⟩)
    (fun h h' => ⟨h'.lasts ∘ h.lasts, h'.secured ∘ h.secured⟩) hparts ht
  exact ⟨out, b, hrun, hrec, hkeeps.secured h⟩

theorem choiceVariants_of_choicesInhabited (hw : t.Whole) (h : t.ChoicesInhabited) :
    t.ChoiceVariants (· ≠ []) := by
  rintro s hs i m cs hgroup path k vs htype rfl
  obtain ⟨hparts, htrees, -⟩ := exists_becomes_of_union (hw.of_mem s hs) hgroup htype
  rw [List.forall₂_nil_right_iff.1 hparts] at htrees
  exact h s hs i m cs hgroup htrees.symm

end Tree

open Descriptor in
/-- A descriptor without an app is only read; any other is also normalized and solved without error. -/
theorem compile_cases (o : NormalizeOptions) (source : String) :
    (compile o source).parsed = (parse source).tree ∧
    ((compile o source).tree = (parse source).tree ∧
        (compile o source).arena = (parse source).arena ∧ (compile o source).bindings = [] ∨
      ∃ out, ((parse source).tree.normalize o).run (parse source).arena =
          (.ok out, (compile o source).arena) ∧
        Recorded (parse source).arena out.tree (compile o source).arena ∧
        (compile o source).tree = out.tree ∧ out.tree.solve = .ok (compile o source).solution) := by
  have ht := (grown_parse source).holds _ List.mem_cons_self
  obtain ⟨out, b, hrun, hrec, -⟩ := exists_normalize o ht
  obtain ⟨sol, hsol⟩ := exists_solvedAs (whole_of_holds hrec.holds)
  have hsolve : (out.tree.solveWith Naming.default {}).1 = .ok sol := hsol.solve
  cases happ : (parse source).app with
  | none =>
    simp only [compile, compileWith, happ]
    exact ⟨trivial, .inl ⟨trivial, trivial, rfl⟩⟩
  | some app =>
    simp only [compile, compileWith, happ, hrun, hsolve]
    exact ⟨trivial, .inr ⟨out, rfl, hrec, rfl, hsol.solve⟩⟩

theorem tree_parsed (o : NormalizeOptions) (source : String) :
    (compile o source).arena.tree (compile o source).parsed.id = (Descriptor.parse source).tree := by
  have ht := (Descriptor.grown_parse source).holds _ List.mem_cons_self
  obtain ⟨hparsed, ⟨-, harena, -⟩ | ⟨out, -, hrec, -⟩⟩ := compile_cases o source
  · rw [hparsed, harena, Arena.tree_id_of_holds ht]
  · rw [hparsed, Arena.tree_id_of_holds (ht.mono hrec.extends_arena)]

/-- Every choice of a descriptor has a child. It keeps one, and there is no union without variants, where
every choice has a child that lasts, and only such children if choices lose doubles. -/
theorem compile_inhabited (o : NormalizeOptions) (source : String) :
    ((compile o source).arena.tree (compile o source).parsed.id).ChoicesInhabited ∧
    (((compile o source).arena.tree (compile o source).parsed.id).Secured o.canonicalize →
      ((compile o source).arena.tree (compile o source).tree.id).ChoicesInhabited ∧
      ∀ b ∈ (compile o source).bindings, .union [] ∉ b.type.parts) := by
  have ht := (Descriptor.grown_parse source).holds _ List.mem_cons_self
  have hinhabited := (Descriptor.formed_parse source).inhabited
  rw [tree_parsed]
  refine ⟨hinhabited, fun hsecured => ?_⟩
  obtain ⟨-, ⟨htree, harena, hbindings⟩ | ⟨out, hrun, hrec, htree, hsolve⟩⟩ :=
    compile_cases o source
  · rw [htree, harena, Arena.tree_id_of_holds ht, hbindings]
    exact ⟨hinhabited, nofun⟩
  · obtain ⟨out', b, hrun', -, hnormal⟩ := exists_normalize_secured o ht hsecured
    obtain rfl : out = out' := Except.ok.inj (congrArg Prod.fst (hrun.symm.trans hrun'))
    have hw := whole_of_holds hrec.holds
    obtain ⟨sol, hsol, hunions⟩ :=
      solve_unions hw (choiceVariants_of_choicesInhabited hw hnormal.choicesInhabited)
    obtain rfl : sol = (compile o source).solution :=
      Except.ok.inj (hsol.solve.symm.trans hsolve)
    rw [htree, Arena.tree_id_of_holds hrec.holds]
    exact ⟨hnormal.choicesInhabited, fun b hb hempty => hunions b hb [] hempty rfl⟩

namespace Descriptor

def emptySource : String :=
  "\x7b\"id\":\"t\",\"command-line\":\"[U]\",\"inputs\":[\x7b\"id\":\"u\",\"value-key\":\"[U]\",\"type\":[\x7b\x7d,\x7b\x7d]\x7d]\x7d"

def namedSource : String :=
  "\x7b\"id\":\"t\",\"command-line\":\"[U]\",\"inputs\":[\x7b\"id\":\"u\",\"value-key\":\"[U]\",\"type\":[\x7b\"id\":\"a\"\x7d,\x7b\"id\":\"b\"\x7d]\x7d]\x7d"

end Descriptor
open Descriptor

theorem compile_inhabited_named :
    ((compile {} namedSource).arena.tree (compile {} namedSource).parsed.id).Secured false ∧
    ((compile {} namedSource).arena.tree (compile {} namedSource).tree.id).ChoicesInhabited ∧
    ∀ b ∈ (compile {} namedSource).bindings, .union [] ∉ b.type.parts := by
  have hsecured :
      ((compile {} namedSource).arena.tree (compile {} namedSource).parsed.id).Secured false := by
    decide +kernel
  exact ⟨hsecured, (compile_inhabited {} namedSource).2 hsecured⟩

def Tree.isEmptyChoice : Tree → Bool
  | group _ _ .alternative [] => true
  | _ => false

def ValueType.isEmptyUnion : ValueType → Bool
  | union [] => true
  | _ => false

/-- The choice has lost both of its commands, and stays because it carries metadata. -/
theorem compile_uninhabited :
    ¬ ((compile {} emptySource).arena.tree (compile {} emptySource).tree.id).ChoicesInhabited ∧
    ∃ b ∈ (compile {} emptySource).bindings, .union [] ∈ b.type.parts := by
  constructor
  · have htree : ((compile {} emptySource).arena.tree
        (compile {} emptySource).tree.id).isEmptyChoice = true := by decide +kernel
    intro h
    have hroot := (forall_preorder.1 h).1
    unfold isEmptyChoice at htree
    split at htree
    · next i m heq => exact hroot i m [] heq rfl
    · cases htree
  · have hany : ((compile {} emptySource).bindings.any fun b => b.type.isEmptyUnion) = true := by
      decide +kernel
    obtain ⟨b, hb, hempty⟩ := List.any_eq_true.1 hany
    refine ⟨b, hb, ?_⟩
    unfold ValueType.isEmptyUnion at hempty
    split at hempty
    · next htype =>
      rw [htype]
      simp [ValueType.parts]
    · cases hempty

end ToolBindings
