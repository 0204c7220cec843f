import ToolBindings.Binding.Solve
import ToolBindings.Proofs.Postorder
import ToolBindings.Proofs.Registry

/-!
# Outlines

The outline of a tree is what solving it with the default naming finds out at each node: its type if it
has one, its binding if it is bound, and the same of its children, each under the name it goes by in
its parent. It is computed without errors, the counter of the naming being passed along. On a tree in
which no node is missing solving ends well, its type is that of the outline, and its bindings are those
of the outline from the leaves up (`solve_eq_outline`).
-/
namespace ToolBindings

/-- What solving finds out at a node and below it. -/
inductive Outline
  | node (tree : Tree) (type : Option ValueType) (binding : Option Binding)
      (parts : List (String × Outline))

namespace Outline

def tree : Outline → Tree
  | node t _ _ _ => t

def type : Outline → Option ValueType
  | node _ ty _ _ => ty

def binding : Outline → Option Binding
  | node _ _ b _ => b

def parts : Outline → List (String × Outline)
  | node _ _ _ ps => ps

mutual

def postorder : Outline → List Outline
  | node t ty b ps => postorderAll ps ++ [node t ty b ps]

def postorderAll : List (String × Outline) → List Outline
  | [] => []
  | (_, o) :: ps => postorder o ++ postorderAll ps

end

def bindings (o : Outline) : List Binding := o.postorder.filterMap binding

def bindingsAll (ps : List (String × Outline)) : List Binding :=
  (postorderAll ps).filterMap binding

theorem bindings_eq (o : Outline) : o.bindings = bindingsAll o.parts ++ o.binding.toList := by
  obtain ⟨t, ty, b, ps⟩ := o
  rw [bindings, postorder, List.filterMap_append]
  cases b <;> rfl

theorem bindingsAll_cons (n : String) (o : Outline) (ps : List (String × Outline)) :
    bindingsAll ((n, o) :: ps) = o.bindings ++ bindingsAll ps := by
  rw [bindingsAll, postorderAll, List.filterMap_append]
  rfl

theorem bindingsAll_singleton (n : String) (o : Outline) : bindingsAll [(n, o)] = o.bindings := by
  rw [bindingsAll_cons]
  exact List.append_nil _

def entries (ps : List (String × Outline)) : List (String × ValueType) :=
  ps.filterMap fun p => p.2.type.map (p.1, ·)

def variant (p : String × Outline) : Solving.Variant :=
  ⟨p.1, Solving.variantType p.2.tree p.2.type, p.2.tree⟩

end Outline

open Solving in
def choiceTypeOf (vs : List Variant) : ValueType := (choiceType vs).toOption.getD .bool

namespace Tree

def nameAt (t : Tree) (path : List String) (k : Counter) : String × Counter :=
  match (Naming.default.nameFor t path).run k with
  | (.ok name, k) => (name, k)
  | (.error _, k) => ("", k)

def unboundAt (t : Tree) (type : Option ValueType) (parts : List (String × Outline))
    (k : Counter) : Outline × Counter :=
  (.node t type none parts, k)

def boundAt (t : Tree) (name : String) (type : ValueType) (parts : List (String × Outline))
    (k : Counter) : Outline × Counter :=
  (.node t (some type) (some ⟨k.next, t.id, name, type⟩) parts, k.take.2)

def sequenceAt (t : Tree) (name : String) (parts : List (String × Outline)) (k : Counter) :
    Outline × Counter :=
  match OrderedMap.ofList (Outline.entries parts) with
  | [] => t.unboundAt none parts k
  | [(_, type)] => t.unboundAt (some type) parts k
  | fs => t.boundAt name (.struct fs) parts k

theorem parts_sequenceAt (t : Tree) (name : String) (parts : List (String × Outline))
    (k : Counter) : (t.sequenceAt name parts k).1.parts = parts := by
  unfold sequenceAt
  split <;> rfl

theorem tree_sequenceAt (t : Tree) (name : String) (parts : List (String × Outline))
    (k : Counter) : (t.sequenceAt name parts k).1.tree = t := by
  unfold sequenceAt
  split <;> rfl

mutual

def outline : Tree → List String → Counter → Outline × Counter
  | missing id, _, k => unboundAt (missing id) none [] k
  | terminal id m t, path, k =>
    let n := nameAt (terminal id m t) path k
    match Solving.scalar? t with
    | none => unboundAt (terminal id m t) none [] n.2
    | some s => boundAt (terminal id m t) n.1 (.scalar s) [] n.2
  | wrap id m w c, path, k =>
    let n := nameAt (wrap id m w c) path k
    let o := outline c (path ++ [n.1]) n.2
    boundAt (wrap id m w c) n.1 (Solving.wrapperType w o.1.type) [(n.1, o.1)] o.2
  | group id m (.sequence joint) cs, path, k =>
    let n := nameAt (group id m (.sequence joint) cs) path k
    let os := outlineFields cs path n.2
    sequenceAt (group id m (.sequence joint) cs) n.1 os.1 os.2
  | group id m .alternative cs, path, k =>
    let n := nameAt (group id m .alternative cs) path k
    let os := outlineVariants cs path 0 [] n.2
    boundAt (group id m .alternative cs) n.1 (choiceTypeOf (os.1.map Outline.variant)) os.1 os.2

def outlineFields :
    List Tree → List String → Counter → List (String × Outline) × Counter
  | [], _, k => ([], k)
  | c :: cs, path, k =>
    let n := nameAt c path k
    let o := outline c (path ++ [n.1]) n.2
    let os := outlineFields cs path o.2
    ((n.1, o.1) :: os.1, os.2)

def outlineVariants :
    List Tree → List String → Nat → List String → Counter → List (String × Outline) × Counter
  | [], _, _, _, k => ([], k)
  | c :: cs, path, i, used, k =>
    let o := outline c (path ++ ["variant_" ++ toString i]) k
    let n := Solving.takeName used (Solving.variantBase i c)
    let os := outlineVariants cs path (i + 1) n.2 o.2
    ((n.1, o.1) :: os.1, os.2)

end

variable {t : Tree}

theorem nameFor_run (h : t.Whole) (path : List String) (k : Counter) :
    (Naming.default.nameFor t path).run k = (.ok (t.nameAt path k).1, (t.nameAt path k).2) := by
  obtain ⟨n, hn⟩ := exists_nearestName t h
  have hrun : ∃ name k', (Naming.default.nameFor t path).run k = (.ok name, k') := by
    change ∃ name k', (Naming.defaultName t path).run k = _
    unfold Naming.defaultName
    rw [hn]
    cases n with
    | some n => exact ⟨n, k, rfl⟩
    | none =>
      cases path.getLast? with
      | some n => exact ⟨n, k, rfl⟩
      | none => exact ⟨_, _, rfl⟩
  obtain ⟨name, k', hrun⟩ := hrun
  rw [nameAt, hrun]

end Tree

namespace Solving
variable {α β : Type} {k k' k'' : Counter} {bs bs' : List Binding} {x : α} {y : β}

/-- From the counter `k` the run ends well with `x` and the counter `k'`, and adds the bindings `bs`. -/
def Gives (f : Solving Counter α) (k : Counter) (x : α) (k' : Counter) (bs : List Binding) : Prop :=
  ∀ before, f.run ⟨k, before⟩ = (.ok x, ⟨k', before ++ bs⟩)

theorem Gives.pure (k : Counter) (x : α) : Gives (Pure.pure x) k x k [] := fun before => by
  rw [List.append_nil]
  rfl

theorem Gives.bind {f : Solving Counter α} {g : α → Solving Counter β} (hf : Gives f k x k' bs)
    (hg : Gives (g x) k' y k'' bs') : Gives (f >>= g) k y k'' (bs ++ bs') := fun before => by
  change (let r := f.run ⟨k, before⟩; ExceptT.bindCont g r.1 r.2) = _
  rw [hf before, ← List.append_assoc]
  exact hg (before ++ bs)

theorem Gives.lift {e : Except MissingNode α} (h : e = .ok x) (k : Counter) :
    Gives (liftM e) k x k [] := by
  subst h
  exact .pure k x

theorem Gives.name {t : Tree} (h : t.Whole) (path : List String) (k : Counter) :
    Gives (named (Naming.default.nameFor t path)) k (t.nameAt path k).1 (t.nameAt path k).2 [] :=
  fun before => by
    have hrun := Tree.nameFor_run h path k
    change (let r := (Naming.default.nameFor t path).run k; (r.1, SolveState.mk r.2 before)) = _
    rw [hrun, List.append_nil]

theorem Gives.bound (node : NodeId) (name : String) (type : ValueType) (k : Counter) :
    Gives (Solving.bind Naming.default node name type) k type k.take.2
      [⟨k.next, node, name, type⟩] :=
  fun _ => rfl

end Solving

namespace Tree

theorem tree_outline (t : Tree) (path : List String) (k : Counter) :
    (t.outline path k).1.tree = t := by
  unfold outline
  split
  · rfl
  · next id m u path k =>
    simp only
    split <;> rfl
  · rfl
  · exact tree_sequenceAt ..
  · rfl

theorem trees_outlineFields (ts : List Tree) (path : List String) (k : Counter) :
    (outlineFields ts path k).1.map (·.2.tree) = ts := by
  induction ts generalizing k with
  | nil => rfl
  | cons t ts ih => simp only [outlineFields, List.map_cons, tree_outline, ih]

theorem trees_outlineVariants (ts : List Tree) (path : List String) (i : Nat)
    (used : List String) (k : Counter) :
    (outlineVariants ts path i used k).1.map (·.2.tree) = ts := by
  induction ts generalizing i used k with
  | nil => rfl
  | cons t ts ih => simp only [outlineVariants, List.map_cons, tree_outline, ih]

end Tree

namespace Solving

theorem exists_tagged {v : Variant} (h : v.tree.Whole) : ∃ e, tagged v = .ok e := by
  obtain ⟨n, hn⟩ := Tree.exists_nearestName v.tree h
  unfold tagged
  split
  · exact ⟨_, rfl⟩
  · exact ⟨_, rfl⟩
  · rw [hn]
    exact ⟨_, rfl⟩

theorem exists_mapM {ε : Type} {f : α → Except ε β} {xs : List α} (h : ∀ x ∈ xs, ∃ y, f x = .ok y) :
    ∃ ys, xs.mapM f = .ok ys := by
  induction xs with
  | nil => exact ⟨[], rfl⟩
  | cons x xs ih =>
    obtain ⟨y, hy⟩ := h x List.mem_cons_self
    obtain ⟨ys, hys⟩ := ih fun x hx => h x (List.mem_cons_of_mem _ hx)
    refine ⟨y :: ys, ?_⟩
    rw [List.mapM_cons, hy, hys]
    rfl

theorem choiceType_eq {vs : List Variant} (h : ∀ v ∈ vs, v.tree.Whole) :
    choiceType vs = .ok (choiceTypeOf vs) := by
  have hok : ∃ ty, choiceType vs = .ok ty := by
    obtain ⟨es, hes⟩ := exists_mapM fun v hv => exists_tagged (h v hv)
    unfold choiceType
    split
    · exact ⟨_, rfl⟩
    · split
      · exact ⟨_, rfl⟩
      · rw [hes]
        exact ⟨_, rfl⟩
  obtain ⟨ty, hty⟩ := hok
  rw [choiceTypeOf, hty]
  rfl

theorem whole_variant {ts : List Tree} (h : ∀ t ∈ ts, t.Whole) (path : List String) (i : Nat)
    (used : List String) (k : Counter) :
    ∀ v ∈ (Tree.outlineVariants ts path i used k).1.map Outline.variant, v.tree.Whole := by
  refine List.forall_mem_map.2 fun p hp => h p.2.tree ?_
  rw [← Tree.trees_outlineVariants ts path i used k]
  exact List.mem_map.2 ⟨p, hp, rfl⟩

mutual

theorem tree_gives : (t : Tree) → t.Whole → (path : List String) → (k : Counter) →
    Gives (tree Naming.default t path) k (t.outline path k).1.type (t.outline path k).2
      (t.outline path k).1.bindings
  | .missing _, h, _, _ => absurd h Tree.Whole.not_missing
  | .terminal id m u, h, path, k => by
    have hname := Gives.name h path k
    rw [tree, Tree.outline]
    cases scalar? u with
    | none => exact hname.bind (.pure _ _)
    | some sc => exact hname.bind ((Gives.bound id _ _ _).bind (.pure _ _))
  | .wrap id m w c, h, path, k => by
    have hname := Gives.name h path k
    have hc := tree_gives c (h.children c (List.mem_singleton.2 rfl))
    rw [tree, Tree.outline, Outline.bindings_eq]
    refine hname.bind ?_
    change Gives _ _ _ _ (Outline.bindingsAll [(_, _)] ++ _)
    rw [Outline.bindingsAll_singleton]
    exact (hc _ _).bind ((Gives.bound id _ _ _).bind (.pure _ _))
  | .group id m (.sequence joint) cs, h, path, k => by
    have hname := Gives.name h path k
    have hcs := fields_gives cs h.children path []
    rw [tree, Tree.outline, Outline.bindings_eq, Tree.parts_sequenceAt]
    refine hname.bind ((hcs _).bind ?_)
    unfold Tree.sequenceAt OrderedMap.ofList
    generalize OrderedMap.insertAll [] (Outline.entries _) = fs
    match fs with
    | [] => exact .pure _ _
    | [_] => exact .pure _ _
    | _ :: _ :: _ => exact (Gives.bound id _ _ _).bind (.pure _ _)
  | .group id m .alternative cs, h, path, k => by
    have hname := Gives.name h path k
    have hcs := variants_gives cs h.children path 0 []
    have htype := fun k => choiceType_eq (whole_variant h.children path 0 [] k)
    rw [tree, Tree.outline, Outline.bindings_eq]
    exact hname.bind ((hcs _).bind
      ((Gives.lift (htype _) _).bind ((Gives.bound id _ _ _).bind (.pure _ _))))

theorem fields_gives : (ts : List Tree) → (∀ t ∈ ts, t.Whole) → (path : List String) →
    (fs : OrderedMap String ValueType) → (k : Counter) →
    Gives (fields Naming.default ts path fs) k
      (OrderedMap.insertAll fs (Outline.entries (Tree.outlineFields ts path k).1))
      (Tree.outlineFields ts path k).2 (Outline.bindingsAll (Tree.outlineFields ts path k).1)
  | [], _, path, fs, k => .pure k fs
  | t :: ts, h, path, fs, k => by
    have hname := Gives.name (h t List.mem_cons_self) path k
    have ht := tree_gives t (h t List.mem_cons_self) (path ++ [(t.nameAt path k).1]) (t.nameAt path k).2
    have hts := fields_gives ts (fun t ht => h t (List.mem_cons_of_mem _ ht)) path
    rw [fields, Tree.outlineFields, Outline.bindingsAll_cons]
    refine hname.bind (ht.bind ?_)
    unfold Outline.entries
    rw [List.filterMap_cons]
    cases (t.outline (path ++ [(t.nameAt path k).1]) (t.nameAt path k).2).1.type with
    | none => exact hts fs _
    | some type => exact hts _ _

theorem variants_gives : (ts : List Tree) → (∀ t ∈ ts, t.Whole) → (path : List String) →
    (i : Nat) → (used : List String) → (k : Counter) →
    Gives (variants Naming.default ts path i used) k
      ((Tree.outlineVariants ts path i used k).1.map Outline.variant)
      (Tree.outlineVariants ts path i used k).2
      (Outline.bindingsAll (Tree.outlineVariants ts path i used k).1)
  | [], _, path, i, used, k => .pure k []
  | t :: ts, h, path, i, used, k => by
    have ht := tree_gives t (h t List.mem_cons_self) (path ++ ["variant_" ++ toString i]) k
    have hts := variants_gives ts (fun t ht => h t (List.mem_cons_of_mem _ ht)) path (i + 1)
      (takeName used (variantBase i t)).2 (t.outline (path ++ ["variant_" ++ toString i]) k).2
    rw [variants, Tree.outlineVariants, Outline.bindingsAll_cons, List.map_cons, Outline.variant,
      Tree.tree_outline]
    refine ht.bind ?_
    rw [← List.append_nil (Outline.bindingsAll _)]
    exact hts.bind (.pure _ _)

end

end Solving

namespace Tree

theorem solve_eq_outline {t : Tree} (h : t.Whole) : t.solve =
    .ok ⟨(t.outline [] {}).1.type, Registry.ofList (t.outline [] {}).1.bindings⟩ := by
  have hrun : (Solving.tree Naming.default t []).run ⟨Naming.default.start {}, []⟩ = _ :=
    Solving.tree_gives t h [] {} []
  unfold solve solveWith
  rw [hrun]
  rfl

theorem exists_outlineFields {ts : List Tree} {path : List String} {k : Counter} :
    ∀ p ∈ (outlineFields ts path k).1, ∃ t ∈ ts, ∃ path' k', p.2 = (t.outline path' k').1 := by
  induction ts generalizing k with
  | nil => exact fun p hp => absurd hp List.not_mem_nil
  | cons t ts ih =>
    rw [outlineFields]
    refine List.forall_mem_cons.2 ⟨⟨t, List.mem_cons_self, _, _, rfl⟩, fun p hp => ?_⟩
    obtain ⟨s, hs, path', k', hp⟩ := ih p hp
    exact ⟨s, List.mem_cons_of_mem t hs, path', k', hp⟩

theorem exists_outlineVariants {ts : List Tree} {path : List String} {i : Nat} {used : List String}
    {k : Counter} : ∀ p ∈ (outlineVariants ts path i used k).1,
      ∃ t ∈ ts, ∃ path' k', p.2 = (t.outline path' k').1 := by
  induction ts generalizing i used k with
  | nil => exact fun p hp => absurd hp List.not_mem_nil
  | cons t ts ih =>
    rw [outlineVariants]
    refine List.forall_mem_cons.2 ⟨⟨t, List.mem_cons_self, _, _, rfl⟩, fun p hp => ?_⟩
    obtain ⟨s, hs, path', k', hp⟩ := ih p hp
    exact ⟨s, List.mem_cons_of_mem t hs, path', k', hp⟩

theorem exists_part {t : Tree} {path : List String} {k : Counter} :
    ∀ p ∈ (t.outline path k).1.parts, ∃ c ∈ t.children, ∃ path' k', p.2 = (c.outline path' k').1 := by
  intro p hp
  cases t with
  | missing => cases hp
  | terminal id m u =>
    rw [outline] at hp
    cases hu : Solving.scalar? u <;> rw [hu] at hp <;> cases hp
  | wrap id m w c =>
    rw [outline] at hp
    cases List.mem_singleton.1 hp
    exact ⟨c, List.mem_singleton.2 rfl, _, _, rfl⟩
  | group id m g cs =>
    cases g with
    | sequence joint =>
      rw [outline, parts_sequenceAt] at hp
      exact exists_outlineFields p hp
    | alternative =>
      rw [outline] at hp
      exact exists_outlineVariants p hp

theorem forall_type_sequenceAt {P : ValueType → Prop}
    (hstruct : ∀ fs, (OrderedMap.keys fs).Nodup → (∀ f ∈ fs, P f.2) → P (.struct fs)) {t : Tree}
    {name : String} {parts : List (String × Outline)} {k : Counter}
    (h : ∀ p ∈ parts, ∀ type ∈ p.2.type, P type) :
    ∀ type ∈ (t.sequenceAt name parts k).1.type, P type := by
  have hentries : ∀ e ∈ Outline.entries parts, P e.2 := fun e he => by
    obtain ⟨p, hp, hpe⟩ := List.mem_filterMap.1 he
    obtain ⟨type, htype, rfl⟩ := Option.map_eq_some_iff.1 hpe
    exact h p hp type htype
  have hfields : ∀ f ∈ OrderedMap.ofList (Outline.entries parts), P f.2 := fun f hf => by
    rcases OrderedMap.mem_insertAll _ hf with hnil | hf
    · cases hnil
    · exact hentries f hf
  intro type htype
  unfold sequenceAt at htype
  split at htype
  · cases htype
  · next n type' hone =>
    cases htype
    exact hfields (n, type) (by simp [hone])
  · cases htype
    exact hstruct _ (OrderedMap.nodup_keys_ofList _) hfields

/-- What passes from the types of the children of a node to the type of the node holds of every type in
the outline. A sequence that is no structure has the type of one of its children. -/
theorem forall_type_of_parts {P : ValueType → Prop} (hscalar : ∀ s, P (.scalar s))
    (hwrapper : ∀ w type, (∀ u ∈ type, P u) → P (Solving.wrapperType w type))
    (hstruct : ∀ fs, (OrderedMap.keys fs).Nodup → (∀ f ∈ fs, P f.2) → P (.struct fs)) (t : Tree)
    (hchoice : ∀ s ∈ t.preorder, ∀ i m cs, s = group i m .alternative cs → ∀ path k,
      (∀ p ∈ (s.outline path k).1.parts, ∀ type ∈ p.2.type, P type) →
        ∀ type ∈ (s.outline path k).1.type, P type) :
    ∀ path k, ∀ type ∈ (t.outline path k).1.type, P type := by
  induction t using induct_children with
  | h t ih =>
    intro path k
    obtain ⟨hself, hbelow⟩ := forall_preorder.1 hchoice
    have hparts : ∀ p ∈ (t.outline path k).1.parts, ∀ type ∈ p.2.type, P type := fun p hp => by
      obtain ⟨c, hc, path', k', hpc⟩ := exists_part p hp
      rw [hpc]
      exact ih c hc (hbelow c hc) path' k'
    cases t with
    | missing => exact nofun
    | terminal id m u =>
      rw [outline]
      cases Solving.scalar? u with
      | none => exact nofun
      | some s => exact fun type htype => Option.some.inj htype ▸ hscalar s
    | wrap id m w c =>
      rw [outline] at hparts ⊢
      have hinner := hparts _ (List.mem_singleton.2 rfl)
      exact fun type htype => Option.some.inj htype ▸ hwrapper w _ hinner
    | group id m g cs =>
      cases g with
      | sequence joint =>
        rw [outline, parts_sequenceAt] at hparts
        rw [outline]
        exact forall_type_sequenceAt hstruct hparts
      | alternative => exact hself id m cs rfl path k hparts

theorem forall_type_outline {P : ValueType → Prop} (hscalar : ∀ s, P (.scalar s))
    (hwrapper : ∀ w type, P (Solving.wrapperType w type))
    (hstruct : ∀ fs, (OrderedMap.keys fs).Nodup → P (.struct fs))
    (hchoice : ∀ vs, P (choiceTypeOf vs)) (t : Tree) :
    ∀ path k, ∀ type ∈ (t.outline path k).1.type, P type := by
  refine forall_type_of_parts hscalar (fun w type _ => hwrapper w type)
    (fun fs hnd _ => hstruct fs hnd) t ?_
  rintro _ _ i m cs rfl path k - type htype
  exact Option.some.inj htype ▸ hchoice _

theorem trees_parts (t : Tree) (path : List String) (k : Counter) :
    (t.outline path k).1.parts.map (·.2.tree) = t.children := by
  cases t with
  | missing => rfl
  | terminal id m u =>
    rw [outline]
    cases Solving.scalar? u <;> rfl
  | wrap id m w c =>
    rw [outline]
    exact congrArg (· :: []) (tree_outline c _ _)
  | group id m g cs =>
    cases g with
    | sequence joint =>
      rw [outline, parts_sequenceAt]
      exact trees_outlineFields ..
    | alternative =>
      rw [outline]
      exact trees_outlineVariants ..

end Tree

namespace Outline

theorem postorder_eq (o : Outline) : o.postorder = postorderAll o.parts ++ [o] := by
  obtain ⟨t, ty, b, ps⟩ := o
  rw [postorder, parts]

theorem mem_postorder_self (o : Outline) : o ∈ o.postorder := by
  rw [postorder_eq]
  exact List.mem_append_right _ (List.mem_singleton.2 rfl)

theorem mem_postorderAll {o : Outline} {ps : List (String × Outline)} :
    o ∈ postorderAll ps ↔ ∃ p ∈ ps, o ∈ p.2.postorder := by
  induction ps with
  | nil => simp [postorderAll]
  | cons p ps ih => simp [postorderAll, ih]

theorem trees_postorderAll {ps : List (String × Outline)}
    (h : ∀ p ∈ ps, p.2.postorder.map tree = p.2.tree.postorder) :
    (postorderAll ps).map tree = Tree.postorderAll (ps.map (·.2.tree)) := by
  induction ps with
  | nil => rfl
  | cons p ps ih =>
    obtain ⟨hp, hps⟩ := List.forall_mem_cons.1 h
    rw [postorderAll, List.map_append, hp, ih hps]
    rfl

end Outline

namespace Tree

theorem exists_outline_of_mem (t : Tree) : ∀ path k, ∀ o ∈ (t.outline path k).1.postorder,
    ∃ path' k', o = (o.tree.outline path' k').1 := by
  induction t using induct_children with
  | h t ih =>
    intro path k o ho
    rw [Outline.postorder_eq, List.mem_append, List.mem_singleton] at ho
    rcases ho with ho | rfl
    · obtain ⟨p, hp, hop⟩ := Outline.mem_postorderAll.1 ho
      obtain ⟨c, hc, path', k', hpc⟩ := exists_part p hp
      rw [hpc] at hop
      exact ih c hc path' k' o hop
    · exact ⟨path, k, by rw [tree_outline]⟩

theorem trees_postorder (t : Tree) : ∀ path k,
    (t.outline path k).1.postorder.map Outline.tree = t.postorder := by
  induction t using induct_children with
  | h t ih =>
    intro path k
    rw [Outline.postorder_eq, postorder_eq, List.map_append, List.map_singleton, tree_outline,
      ← trees_parts t path k, Outline.trees_postorderAll fun p hp => ?_]
    obtain ⟨c, hc, path', k', hpc⟩ := exists_part p hp
    rw [hpc, tree_outline]
    exact ih c hc path' k'

end Tree
end ToolBindings
