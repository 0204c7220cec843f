import ToolBindings.Proofs.Coverage
import ToolBindings.Proofs.Together

/-!
# Results on like trees

Names, types and counters depend on what like trees have in common, so solving like trees gives one type
and bindings that differ in the bound places only (`outline_agrees`). Together with the runs of the passes
this makes the results of two trees that are the same differ in places only, wherever in the arena they
stand and whatever else it holds (`same_results`).
-/
namespace ToolBindings
open Solving

structure Binding.Agrees (b c : Binding) : Prop where
  id : b.id = c.id
  name : b.name = c.name
  type : b.type = c.type

structure Solving.Variant.Agrees (v w : Variant) : Prop where
  name : v.name = w.name
  type : v.type = w.type
  nearest : v.tree.nearestName = w.tree.nearestName

namespace Solving

theorem scalar?_eq {u v : Terminal} (h : u.same v = true) : scalar? u = scalar? v := by
  cases u <;> cases v <;> simp_all [Terminal.same, scalar?]

theorem tagged_eq {v w : Variant} (h : v.Agrees w) : tagged v = tagged w := by
  unfold tagged
  rw [h.name, h.type, h.nearest]

theorem mapM_tagged_eq {vs ws : List Variant} (h : List.Forall₂ Variant.Agrees vs ws) :
    vs.mapM tagged = ws.mapM tagged := by
  induction h with
  | nil => rfl
  | cons hvw _ ih => rw [List.mapM_cons, List.mapM_cons, tagged_eq hvw, ih]

theorem choiceType_eq_of_agree {vs ws : List Variant} (h : List.Forall₂ Variant.Agrees vs ws) :
    choiceType vs = choiceType ws := by
  have htypes : ws.map (·.type) = vs.map (·.type) :=
    map_eq_of_forall₂ (h.imp fun _ _ hvw => hvw.type.symm)
  have hpairs : ws.map (fun w => (w.name, w.type)) = vs.map fun v => (v.name, v.type) :=
    map_eq_of_forall₂ (h.imp fun _ _ hvw => by rw [hvw.name, hvw.type])
  have hall : ∀ us : List Variant, (us.all fun u => u.type.isLiteral) =
      (us.map (·.type)).all (·.isLiteral) := fun us => by rw [List.all_map, Function.comp_def]
  unfold choiceType
  rw [hall, hall, htypes, hpairs, mapM_tagged_eq h]

end Solving

namespace Tree

mutual

theorem Like.nearestName_eq : (s : Tree) → {t : Tree} → Like s t → s.nearestName = t.nearestName
  | .missing _, _, h => by cases h
  | .terminal .., _, h => by
    cases h
    rfl
  | .wrap i m w c, _, h => by
    cases h with
    | wrap h => rw [nearestName, nearestName, Like.nearestName_eq c h]
  | .group i m g cs, _, h => by
    cases h with
    | group h => simp only [nearestName, firstName_eq cs h]

theorem firstName_eq : (ss : List Tree) → {ts : List Tree} → AllLike ss ts →
    firstName ss = firstName ts
  | [], _, h => by
    cases h
    rfl
  | s :: ss, _, h => by
    cases h with
    | cons h hss =>
      rw [firstName, firstName, isLiteral, isLiteral, h.literal_eq, Like.nearestName_eq s h,
        firstName_eq ss hss]

end

variable {s t : Tree}

theorem Like.nameAt_eq (h : Like s t) (path : List String) (k : Counter) :
    s.nameAt path k = t.nameAt path k := by
  simp only [nameAt, Naming.default, Naming.defaultName, h.nearestName_eq]

theorem Like.variantBase_eq (h : Like s t) (i : Nat) : variantBase i s = variantBase i t := by
  simp only [variantBase, name?, h.literal_eq, h.metadata_eq]

end Tree

structure Outline.Agrees (o p : Outline) : Prop where
  tree : o.tree.Like p.tree
  type : o.type = p.type
  bindings : List.Forall₂ Binding.Agrees o.bindings p.bindings

namespace Outline
variable {ps qs : List (String × Outline)}

def PartsAgree : List (String × Outline) → List (String × Outline) → Prop :=
  List.Forall₂ fun p q => p.1 = q.1 ∧ p.2.Agrees q.2

theorem PartsAgree.single (name : String) {o p : Outline} (h : o.Agrees p) :
    PartsAgree [(name, o)] [(name, p)] :=
  .cons ⟨rfl, h⟩ .nil

theorem PartsAgree.entries (h : PartsAgree ps qs) : Outline.entries ps = Outline.entries qs := by
  induction h with
  | nil => rfl
  | cons hpq _ ih =>
    simp only [Outline.entries, List.filterMap_cons, hpq.1, hpq.2.type] at ih ⊢
    rw [ih]

theorem PartsAgree.bindings (h : PartsAgree ps qs) :
    List.Forall₂ Binding.Agrees (bindingsAll ps) (bindingsAll qs) := by
  induction h with
  | nil => exact .nil
  | @cons p q _ _ hpq _ ih =>
    rw [bindingsAll_cons, bindingsAll_cons]
    exact List.rel_append hpq.2.bindings ih

theorem PartsAgree.variants (h : PartsAgree ps qs) :
    choiceTypeOf (ps.map variant) = choiceTypeOf (qs.map variant) := by
  have hvs : List.Forall₂ Variant.Agrees (ps.map variant) (qs.map variant) := by
    refine List.rel_map (fun p q hpq => ⟨hpq.1, ?_, hpq.2.tree.nearestName_eq⟩) h
    simp only [variant, variantType, hpq.2.type, hpq.2.tree.literal_eq]
  rw [choiceTypeOf, choiceType_eq_of_agree hvs, choiceTypeOf]

end Outline
open Outline (PartsAgree)

namespace Tree
variable {s t : Tree} {ps qs : List (String × Outline)}

def OutlinesAgree (x y : Outline × Counter) : Prop := x.1.Agrees y.1 ∧ x.2 = y.2

theorem unboundAt_agrees (h : Like s t) (hps : PartsAgree ps qs) (type : Option ValueType)
    (k : Counter) : OutlinesAgree (s.unboundAt type ps k) (t.unboundAt type qs k) := by
  refine ⟨⟨h, rfl, ?_⟩, rfl⟩
  rw [Outline.bindings_eq, Outline.bindings_eq]
  exact List.rel_append hps.bindings .nil

theorem boundAt_agrees (h : Like s t) (hps : PartsAgree ps qs) (name : String)
    (type : ValueType) (k : Counter) :
    OutlinesAgree (s.boundAt name type ps k) (t.boundAt name type qs k) := by
  refine ⟨⟨h, rfl, ?_⟩, rfl⟩
  rw [Outline.bindings_eq, Outline.bindings_eq]
  exact List.rel_append hps.bindings (.cons ⟨rfl, rfl, rfl⟩ .nil)

theorem sequenceAt_agrees (h : Like s t) (hps : PartsAgree ps qs) (name : String) (k : Counter) :
    OutlinesAgree (s.sequenceAt name ps k) (t.sequenceAt name qs k) := by
  unfold sequenceAt
  rw [hps.entries]
  split
  · exact unboundAt_agrees h hps none k
  · exact unboundAt_agrees h hps _ k
  · exact boundAt_agrees h hps name _ k

mutual

theorem outline_agrees : (s : Tree) → {t : Tree} → Like s t → (path : List String) →
    (k : Counter) → OutlinesAgree (s.outline path k) (t.outline path k)
  | .missing _, _, h, _, _ => by cases h
  | .terminal i m u, _, h, path, k => by
    have hname := h.nameAt_eq path k
    cases h with
    | terminal huv =>
      rw [outline, outline, hname, scalar?_eq huv]
      split
      · exact unboundAt_agrees (.terminal huv) .nil _ _
      · exact boundAt_agrees (.terminal huv) .nil _ _ _
  | .wrap i m w c, _, h, path, k => by
    have hname := h.nameAt_eq path k
    have hwrap := h
    cases h with
    | wrap h =>
      obtain ⟨hinner, hcounter⟩ := outline_agrees c h (path ++ [(nameAt (wrap i m w c) path k).1])
        (nameAt (wrap i m w c) path k).2
      rw [outline, outline, ← hname, ← hinner.type, ← hcounter]
      exact boundAt_agrees hwrap (.single _ hinner) _ _ _
  | .group i m (.sequence joint) cs, _, h, path, k => by
    have hname := h.nameAt_eq path k
    have hgroup := h
    cases h with
    | group h =>
      obtain ⟨hparts, hcounter⟩ := outlineFields_agree cs h path
        (nameAt (group i m (.sequence joint) cs) path k).2
      rw [outline, outline, ← hname, ← hcounter]
      exact sequenceAt_agrees hgroup hparts _ _
  | .group i m .alternative cs, _, h, path, k => by
    have hname := h.nameAt_eq path k
    have hgroup := h
    cases h with
    | group h =>
      obtain ⟨hparts, hcounter⟩ := outlineVariants_agree cs h path 0 []
        (nameAt (group i m .alternative cs) path k).2
      rw [outline, outline, ← hname, ← hcounter, ← hparts.variants]
      exact boundAt_agrees hgroup hparts _ _ _

theorem outlineFields_agree : (ss : List Tree) → {ts : List Tree} → AllLike ss ts →
    (path : List String) → (k : Counter) →
    PartsAgree (outlineFields ss path k).1 (outlineFields ts path k).1 ∧
      (outlineFields ss path k).2 = (outlineFields ts path k).2
  | [], _, h, _, _ => by
    cases h
    exact ⟨.nil, rfl⟩
  | s :: ss, _, h, path, k => by
    cases h with
    | @cons _ t _ ts h hss =>
      obtain ⟨hhead, hcounter⟩ := outline_agrees s h (path ++ [(t.nameAt path k).1])
        (t.nameAt path k).2
      rw [outlineFields, outlineFields, h.nameAt_eq, hcounter]
      obtain ⟨htail, hcounter'⟩ := outlineFields_agree ss hss path
        (t.outline (path ++ [(t.nameAt path k).1]) (t.nameAt path k).2).2
      exact ⟨.cons ⟨rfl, hhead⟩ htail, hcounter'⟩

theorem outlineVariants_agree : (ss : List Tree) → {ts : List Tree} → AllLike ss ts →
    (path : List String) → (i : Nat) → (used : List String) → (k : Counter) →
    PartsAgree (outlineVariants ss path i used k).1 (outlineVariants ts path i used k).1 ∧
      (outlineVariants ss path i used k).2 = (outlineVariants ts path i used k).2
  | [], _, h, _, _, _, _ => by
    cases h
    exact ⟨.nil, rfl⟩
  | s :: ss, _, h, path, i, used, k => by
    cases h with
    | @cons _ t _ ts h hss =>
      obtain ⟨hhead, hcounter⟩ := outline_agrees s h (path ++ ["variant_" ++ toString i]) k
      rw [outlineVariants, outlineVariants, h.variantBase_eq, hcounter]
      obtain ⟨htail, hcounter'⟩ := outlineVariants_agree ss hss path (i + 1)
        (takeName used (variantBase i t)).2 (t.outline (path ++ ["variant_" ++ toString i]) k).2
      exact ⟨.cons ⟨rfl, hhead⟩ htail, hcounter'⟩

end

/-- Two roots of one arena that are the same, wherever they stand, are normalized to trees that are the
same, with one status and the same warnings, also where the arena has grown in between. Solving them
gives one type and bindings that differ in the bound places only. -/
theorem same_results {a : Arena} {r s : NodeId} (hr : a.Holds (a.tree r)) (hs : a.Holds (a.tree s))
    (hn : (a.tree r).Numeric) (h : (a.tree r).same (a.tree s) = .ok true) (cap : Nat) :
    (∃ out b, ((a.tree r).normalize ⟨cap, false⟩).run a = (.ok out, b) ∧
      ∀ d : Arena, d.Extends b → ∃ out' c,
        ((d.tree s).normalize ⟨cap, false⟩).run d = (.ok out', c) ∧
        (c.tree out.tree.id).same (c.tree out'.tree.id) = .ok true ∧
        out.status = out'.status ∧ out.warnings = out'.warnings) ∧
    ∃ sol sol', (a.tree r).solve = .ok sol ∧ (a.tree s).solve = .ok sol' ∧
      sol.rootType = sol'.rootType ∧
      List.Forall₂ (fun b b' => b.id = b'.id ∧ b.name = b'.name ∧ b.type = b'.type)
        sol.registry.toList sol'.registry.toList := by
  have hlike := like_of_same _ _ hr hs hn h
  constructor
  · obtain ⟨out, b, hrun, hrec, -⟩ := exists_normalize_images ⟨cap, false⟩ hr
    refine ⟨out, b, hrun, fun d hd => ?_⟩
    have hsd : d.Holds (a.tree s) := hs.mono (hd.trans hrec.extends_arena)
    have htree : d.tree s = a.tree s := by
      conv_lhs => rw [← Arena.id_tree a s]
      exact Arena.tree_id_of_holds hsd
    obtain ⟨out', c, hrun', hrec', -⟩ := exists_normalize_images ⟨cap, false⟩ hsd
    have hp := NormalizeOptions.canonicalize_not_mem cap
    obtain ⟨x, a', y, d', hx, hy, hxy⟩ := Pass.apply_together hp hlike a d
    cases hrun.symm.trans hx
    cases hrun'.symm.trans hy
    refine ⟨out', c, htree ▸ hrun', ?_, hxy.status, hxy.warnings⟩
    have hout : c.Holds out.tree := hrec.holds.mono (hrec'.extends_arena.trans hd)
    rw [Arena.tree_id_of_holds hout, Arena.tree_id_of_holds hrec'.holds]
    exact Like.same _ hxy.tree
  · obtain ⟨sol, hsol⟩ := exists_solvedAs (whole_of_holds hr)
    obtain ⟨sol', hsol'⟩ := exists_solvedAs (whole_of_holds hs)
    obtain ⟨hagrees, -⟩ := outline_agrees _ hlike [] {}
    refine ⟨sol, sol', hsol.solve, hsol'.solve, ?_, ?_⟩
    · rw [hsol.rootType, hsol'.rootType, hagrees.type]
    · rw [hsol.bindings, hsol'.bindings]
      exact hagrees.bindings.imp fun b b' hb => ⟨hb.id, hb.name, hb.type⟩

end Tree

def Arena.twins : Arena := ⟨#[
  ⟨.terminal (.float (some (.zero false)) none), none⟩,
  ⟨.wrap .optional 0, none⟩,
  ⟨.wrap .optional 1, none⟩,
  ⟨.terminal .str, none⟩,
  ⟨.terminal (.float (some (.zero true)) none), none⟩,
  ⟨.wrap .optional 4, none⟩,
  ⟨.wrap .optional 5, none⟩]⟩

theorem Tree.same_results_twins :
    Arena.twins.Holds (Arena.twins.tree 2) ∧ Arena.twins.Holds (Arena.twins.tree 6) ∧
      (Arena.twins.tree 2).Numeric ∧ (Arena.twins.tree 2).same (Arena.twins.tree 6) = .ok true ∧
      (∃ out b, ((Arena.twins.tree 2).normalize ⟨5, false⟩).run Arena.twins = (.ok out, b) ∧
        ∃ out' c, ((b.tree 6).normalize ⟨5, false⟩).run b = (.ok out', c) ∧
          (c.tree out.tree.id).same (c.tree out'.tree.id) = .ok true ∧
          out.status = out'.status ∧ out.warnings = out'.warnings) ∧
      ∃ sol sol', (Arena.twins.tree 2).solve = .ok sol ∧ (Arena.twins.tree 6).solve = .ok sol' ∧
        sol.rootType = sol'.rootType ∧
        List.Forall₂ (fun b b' => b.id = b'.id ∧ b.name = b'.name ∧ b.type = b'.type)
          sol.registry.toList sol'.registry.toList := by
  have ho : Arena.twins.Ordered := by decide
  have hr : Arena.twins.Holds (Arena.twins.tree 2) := Arena.holds_tree ho (by decide)
  have hs : Arena.twins.Holds (Arena.twins.tree 6) := Arena.holds_tree ho (by decide)
  have hn : (Arena.twins.tree 2).Numeric :=
    numeric_wrap.2 (numeric_wrap.2 (numeric_terminal.2 ⟨nofun, nofun⟩))
  have hsame : (Arena.twins.tree 2).same (Arena.twins.tree 6) = .ok true := rfl
  obtain ⟨⟨out, b, hrun, hlater⟩, hsolve⟩ := same_results hr hs hn hsame 5
  exact ⟨hr, hs, hn, hsame, ⟨out, b, hrun, hlater b (.refl b)⟩, hsolve⟩

end ToolBindings
