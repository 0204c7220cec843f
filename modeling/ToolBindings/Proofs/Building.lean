import ToolBindings.Descriptor.Build
import ToolBindings.Proofs.CopyOnWrite

/-!
# One tree for a descriptor

Nothing is added to the arena for an input before it is known to be good, and every tree that is made
goes on to exactly one place: under a node that is made after it, or back to who asked for it. So the
actions that build from a descriptor pass trees from hand to hand (`Makes`), those that only read or
report leave the arena alone (`Idle`), and at the end the tree of the descriptor is all that was made
(`parse_one_tree`).
-/
namespace ToolBindings
open ToolBindings.Tree

structure Grown (a : Arena) (ts : List Tree) (b : Arena) : Prop where
  extends_arena : b.Extends a
  holds : ∀ t ∈ ts, b.Holds t
  ordered : a.Ordered → b.Ordered
  places : placesAll ts = newPlaces a b

namespace Grown
variable {a b c : Arena} {ts us : List Tree} {t : Tree}

theorem refl (a : Arena) : Grown a [] a :=
  ⟨.refl a, fun _ => nofun, id, (Multiset.Ico_self a.size).symm⟩

theorem append (h : Grown a ts b) (h' : Grown b us c) : Grown a (ts ++ us) c where
  extends_arena := h'.extends_arena.trans h.extends_arena
  holds := List.forall_mem_append.2 ⟨fun t ht => (h.holds t ht).mono h'.extends_arena, h'.holds⟩
  ordered := h'.ordered ∘ h.ordered
  places := by
    rw [placesAll_append, h.places, h'.places,
      newPlaces_add h.extends_arena.size_le h'.extends_arena.size_le]

theorem perm (h : Grown a ts b) (hp : ts.Perm us) : Grown a us b where
  extends_arena := h.extends_arena
  holds t ht := h.holds t (hp.mem_iff.2 ht)
  ordered := h.ordered
  places := by rw [← placesAll_perm hp, h.places]

theorem push (h : Grown a t.children b) {n : Node} (hn : t.node? = some n) (hid : t.id = b.size) :
    Grown a [t] (b.push n) where
  extends_arena := (Arena.extends_push b n).trans h.extends_arena
  holds := List.forall_mem_singleton.2 (recorded_push hn hid h.holds).holds
  ordered ho := Arena.ordered_push (h.ordered ho) (by
    rw [shape_children_of_node? hn]
    exact List.forall_mem_map.2 fun c hc => (h.holds c hc).lt_size)
  places := by
    rw [placesAll_singleton, places_eq, h.places, hid, ← newPlaces_push b n, add_comm]
    exact newPlaces_add h.extends_arena.size_le (Arena.extends_push b n).size_le

theorem eq_of_nil (h : Grown a [] b) : b = a := by
  have hnew : newPlaces a b = 0 := h.places.symm
  have hle : b.size ≤ a.size := Multiset.Ico_eq_zero_iff.1 hnew |> not_lt.1
  exact congrArg Arena.mk (Array.toList_inj.1 (h.extends_arena.eq_of_length_le hle).symm)

theorem id_add_one (h : Grown a [t] b) (ho : a.Ordered) : t.id + 1 = b.size := by
  have hholds := h.holds t List.mem_cons_self
  have hplaces : t.places = newPlaces a b := by rw [← placesAll_singleton, h.places]
  have hroot : t.id ∈ t.places := by
    rw [places_eq]
    exact Multiset.mem_add.2 (.inl (Multiset.mem_singleton_self _))
  have hle : a.size ≤ t.id := (Multiset.mem_Ico.1 (hplaces ▸ hroot)).1
  have hlt : t.id < b.size := hholds.lt_size
  have hlast : b.size - 1 ∈ t.places := by
    rw [hplaces]
    exact Multiset.mem_Ico.2
      ⟨Nat.le_sub_one_of_lt (Nat.lt_of_le_of_lt hle hlt), Nat.sub_one_lt_of_lt hlt⟩
  have hmax : b.size - 1 ≤ t.id := hholds.le_id (h.ordered ho) _ hlast
  exact Nat.le_antisymm hlt (Nat.sub_le_iff_le_add.1 hmax)

end Grown

namespace Descriptor

def Idle {α : Type} (x : Builder α) : Prop :=
  ∀ (fs : List Finding) (a : Arena), ((x.run fs).run a).2 = a

/-- Who has the trees `us` in hand has the trees `ts` of the result in hand after the action. No node
that is made besides, and no tree that was there, gets lost. -/
def Makes {α : Type} (us : List Tree) (x : Builder α) (ts : α → List Tree) : Prop :=
  ∀ (a₀ a : Arena) (fs : List Finding), Grown a₀ us a →
    Grown a₀ (ts ((x.run fs).run a).1.1) ((x.run fs).run a).2

def treesOf {α : Type} (ts : α → List Tree) : Except Finding α → List Tree
  | .ok r => ts r
  | .error _ => []

namespace Idle
variable {α β : Type} {x : Builder α}

theorem pure (r : α) : Idle (Pure.pure r) := fun _ _ => rfl

theorem bind {f : α → Builder β} (hx : Idle x) (hf : ∀ r, Idle (f r)) : Idle (x >>= f) :=
  fun fs a => (hf _ _ _).trans (hx fs a)

theorem makes (hx : Idle x) (us : List Tree) : Makes us x fun _ => us := fun a₀ a fs h => by
  rw [hx fs a]
  exact h

end Idle

namespace Makes
variable {α β : Type} {us : List Tree} {ts : α → List Tree} {vs : β → List Tree}

theorem pure (r : α) (ts : α → List Tree) : Makes (ts r) (Pure.pure r) ts := fun _ _ _ h => h

theorem bind {x : Builder α} {f : α → Builder β} (hx : Makes us x ts)
    (hf : ∀ r, Makes (ts r) (f r) vs) : Makes us (x >>= f) vs := fun a₀ a fs h =>
  hf _ a₀ _ _ (hx a₀ a fs h)

theorem perm {x : Builder α} (hx : Makes us x ts) {us' : List Tree} (h : us'.Perm us) :
    Makes us' x ts := fun a₀ a fs hg => hx a₀ a fs (hg.perm h)

/-- What was in hand before an action that starts with nothing is in hand after it. -/
theorem after {x : Builder α} (hx : Makes [] x ts) (us : List Tree) :
    Makes us x fun r => us ++ ts r := fun _ a fs h => h.append (hx a a fs (.refl a))

theorem lift {x : Builder α} (hx : Makes us x ts) :
    Makes us (liftM x : InputBuilder α).run (treesOf ts) := fun a₀ a fs h => hx a₀ a fs h

theorem bindInput {x : InputBuilder α} {f : α → InputBuilder β} (hx : Makes us x.run (treesOf ts))
    (hf : ∀ r, Makes (ts r) (f r).run (treesOf vs)) : Makes us (x >>= f).run (treesOf vs) :=
  bind (f := ExceptT.bindCont f) hx fun r => match r with
    | .ok r => hf r
    | .error e => pure (Except.error e : Except Finding β) (treesOf vs)

-- An error is only thrown with no tree in hand.
theorem throw (f : Finding) : Makes [] (MonadExcept.throw f : InputBuilder α).run (treesOf ts) :=
  pure (Except.error f : Except Finding α) (treesOf ts)

theorem ofExcept (e : Except Finding α) :
    Makes [] (liftM e : InputBuilder α).run (treesOf fun _ => []) := fun a₀ a fs h => by
  cases e <;> exact h

end Makes

theorem idle_note (f : Finding) : Idle (note f) := fun _ _ => rfl

theorem makes_newTerminal (m : Option Metadata) (u : Terminal) :
    Makes [] (liftM (newTerminal m u)) ([·]) := fun _ _ _ h => h.push rfl rfl

theorem makes_newWrap (m : Option Metadata) (w : Wrapper) (c : Tree) :
    Makes [c] (liftM (newWrap m w c)) ([·]) := fun _ _ _ h => h.push rfl rfl

theorem makes_newGroup (m : Option Metadata) (g : Group) (cs : List Tree) :
    Makes cs (liftM (newGroup m g cs)) ([·]) := fun _ _ _ h => h.push rfl rfl

theorem makes_literal (text : String) : Makes [] (literal text) ([·]) :=
  makes_newTerminal none (.literal text)

section
variable (i : Input)

theorem makes_literals (n : Nat) (vs : List Json) : Makes [] (literals i n vs) id := by
  induction vs generalizing n with
  | nil => exact .pure [] id
  | cons v vs ih =>
    have hcons (text : String) : Makes [] (do
        return (← literal text) :: (← literals i (n + 1) vs)) id :=
      (makes_literal text).bind fun t => ((ih (n + 1)).after [t]).bind fun ts => .pure (t :: ts) id
    cases v with
    | str | int | double => exact hcons _
    | null | bool | arr | obj => exact ((idle_note _).makes []).bind fun _ => ih (n + 1)

theorem makes_choiceTree (choices : Json) :
    Makes [] (choiceTree i choices).run (treesOf ([·])) := by
  unfold choiceTree
  split
  · next vs =>
    refine (Makes.lift (makes_literals i 0 vs)).bindInput fun ts => ?_
    split
    · exact .throw _
    · exact .lift (makes_newGroup _ _ _)
  · exact .throw _

theorem idle_integerLeaf : Idle (integerLeaf i) := by
  unfold integerLeaf
  extract_lets o lo hi leaf
  have hleaf : ∀ r, Idle (leaf r) := fun _ => .pure _
  split
  · split
    · exact (idle_note _).bind hleaf
    · exact hleaf ()
  · exact hleaf ()

theorem idle_alternatives (n : Nat) (vs : List Json) : Idle (alternatives i n vs) := by
  induction vs generalizing n with
  | nil => exact .pure []
  | cons v vs ih =>
    unfold alternatives
    split
    · exact (ih (n + 1)).bind fun _ => .pure _
    · exact (idle_note _).bind fun _ => ih (n + 1)

theorem idle_entryBound (key : String) : Idle (entryBound i key) := by
  unfold entryBound
  split
  · exact .pure none
  · extract_lets bound
    have hbound : ∀ r, Idle (bound r) := fun _ => .pure _
    split
    · exact (idle_note _).bind hbound
    · exact hbound ()

theorem idle_entryBounds : Idle (entryBounds i) := by
  unfold entryBounds
  refine (idle_entryBound i _).bind fun lo => (idle_entryBound i _).bind fun hi => ?_
  extract_lets bounds
  have hbounds : ∀ r, Idle (bounds r) := fun _ => .pure _
  split
  · split
    · exact (idle_note _).bind fun _ => .pure _
    · exact hbounds ()
  · exact hbounds ()

theorem makes_wrapped (f : Form) (t : Tree) : Makes [t] (wrapped i f t) ([·]) := by
  unfold wrapped
  extract_lets optional separator led
  have hoptional : ∀ t, Makes [t] (optional t) ([·]) := fun t => by
    unfold optional
    split
    · exact makes_newWrap _ _ t
    · exact .pure t ([·])
  have hled : ∀ t, Makes [t] (led t) ([·]) := fun t => by
    unfold led
    split
    · -- The flag is made after the tree that it stands before.
      refine ((makes_literal _).after [t]).bind fun lead => ?_
      exact ((makes_newGroup _ _ [lead, t]).perm (.swap lead t [])).bind hoptional
    · exact (Makes.pure t ([·])).bind hoptional
  split
  · exact ((idle_entryBounds i).makes [t]).bind fun _ => (makes_newWrap _ _ t).bind hled
  · exact (Makes.pure t ([·])).bind hled

end

section
variable {nested : Nested} (hn : ∀ path d m, Makes [] (nested path d m) ([·]))
include hn

theorem makes_alternativeTrees (i : Input) (os : List (Nat × Json)) :
    Makes [] (alternativeTrees nested i os) id := by
  induction os with
  | nil => exact .pure [] id
  | cons p os ih =>
    obtain ⟨n, o⟩ := p
    exact (hn _ _ _).bind fun t => (ih.after [t]).bind fun ts => .pure (t :: ts) id

theorem makes_unionTree (i : Input) (vs : List Json) :
    Makes [] (unionTree nested i vs).run (treesOf ([·])) := by
  unfold unionTree
  refine (Makes.lift ((idle_alternatives i 0 vs).makes [])).bindInput fun os => ?_
  split
  · exact .throw _
  · exact .lift (hn _ _ _)
  · refine (Makes.lift (makes_alternativeTrees hn i _)).bindInput fun ts => ?_
    exact .lift (makes_newGroup _ _ ts)

theorem makes_kindTree (i : Input) (k : Kind) :
    Makes [] (kindTree nested i k).run (treesOf ([·])) := by
  cases k with
  | text | number | file => exact .lift (makes_newTerminal _ _)
  | integer =>
    refine (Makes.lift ((idle_integerLeaf i).makes [])).bindInput fun u => ?_
    exact .lift (makes_newTerminal _ u)
  | flag =>
    unfold kindTree
    dsimp only
    split
    · exact .throw _
    · refine (Makes.lift (makes_literal _)).bindInput fun t => ?_
      exact .lift (makes_newWrap _ _ t)
  | subcommand d => exact .lift (hn _ _ _)
  | union vs => exact makes_unionTree hn i vs

theorem makes_inputTree (i : Input) : Makes [] (inputTree nested i).run (treesOf ([·])) := by
  unfold inputTree
  refine (Makes.ofExcept (form i)).bindInput fun f => ?_
  split
  · exact (makes_choiceTree i _).bindInput fun t => .lift (makes_wrapped i f t)
  · exact makes_kindTree hn i .flag
  · exact (makes_kindTree hn i _).bindInput fun t => .lift (makes_wrapped i f t)

theorem makes_input? (i : Input) : Makes [] (input? nested i) Option.toList :=
  (makes_inputTree hn i).bind fun r => match r with
    | .ok t => .pure (some t) Option.toList
    | .error f => ((idle_note f).makes []).bind fun _ => .pure none Option.toList

theorem makes_pieceTrees (ps : List (Template.Fragment Input)) :
    Makes [] (pieceTrees nested ps) Prod.fst := by
  induction ps with
  | nil => exact .pure ([], []) Prod.fst
  | cons p ps ih =>
    cases p with
    | literal text =>
      refine (makes_literal text).bind fun t => (ih.after [t]).bind fun r => ?_
      exact .pure (t :: r.1, r.2) Prod.fst
    | payload key i =>
      refine (makes_input? hn i).bind fun t? => (ih.after t?.toList).bind fun r => ?_
      cases t? with
      | some t => exact .pure (t :: r.1, i.id?.toList ++ r.2) Prod.fst
      | none => exact .pure r Prod.fst

theorem makes_tokenTrees (table : OrderedMap String Input) (tokens : List String) :
    Makes [] (tokenTrees nested table tokens) Prod.fst := by
  induction tokens with
  | nil => exact .pure ([], []) Prod.fst
  | cons token tokens ih =>
    unfold tokenTrees
    refine (makes_pieceTrees hn _).bind fun ⟨pieces, ids⟩ => ?_
    dsimp -zeta only
    extract_lets next
    have hnext : ∀ t, Makes t (next t) Prod.fst := fun t =>
      (ih.after t).bind fun r => .pure (t ++ r.1, ids ++ r.2) Prod.fst
    split
    · exact (Makes.pure [] id).bind hnext
    · next t => exact (Makes.pure [t] id).bind hnext
    · exact (makes_newGroup _ _ pieces).bind fun t => (Makes.pure [t] id).bind hnext

end

theorem idle_tokensOf (path : Json.Path) (d : Json) : Idle (tokensOf path d) := by
  unfold tokensOf
  split
  · exact (idle_note _).bind fun _ => .pure []
  · split
    · exact .pure _
    · exact (idle_note _).bind fun _ => .pure []

theorem idle_pathParts (placed : List String) (unplaced : String → Finding)
    (ps : List (Template.Fragment Input)) : Idle (pathParts placed unplaced ps) := by
  induction ps with
  | nil => exact .pure []
  | cons p ps ih =>
    cases p with
    | literal text => exact ih.bind fun _ => .pure _
    | payload key i =>
      unfold pathParts
      extract_lets name parts
      have hparts : ∀ r, Idle (parts r) := fun _ => ih.bind fun _ => .pure _
      split
      · exact (idle_note _).bind hparts
      · exact hparts ()

theorem idle_outputs (path : Json.Path) (table : OrderedMap String Input) (placed : List String)
    (n : Nat) (vs : List Json) : Idle (outputs path table placed n vs) := by
  induction vs generalizing n with
  | nil => exact .pure []
  | cons v vs ih =>
    unfold outputs
    split
    · exact ih (n + 1)
    · extract_lets name unplaced rest
      have hrest : ∀ parts, Idle (rest parts) := fun _ => (ih (n + 1)).bind fun _ => .pure _
      split
      · exact (Idle.pure []).bind hrest
      · exact (idle_pathParts _ _ _).bind hrest

theorem makes_treeOver {nested : Nested} (hn : ∀ path d m, Makes [] (nested path d m) ([·]))
    (path : Json.Path) (d : Json) (m : Option Metadata) :
    Makes [] (treeOver nested path d m) ([·]) := by
  refine ((idle_tokensOf path d).makes []).bind fun tokens => ?_
  refine (makes_tokenTrees hn _ tokens).bind fun r => ?_
  refine ((idle_outputs path _ r.2 0 _).makes r.1).bind fun os => ?_
  exact makes_newGroup _ _ r.1

theorem makes_tree (depth : Nat) (path : Json.Path) (d : Json) (m : Option Metadata) :
    Makes [] (tree depth path d m) ([·]) := by
  induction depth generalizing path d m with
  | zero => exact makes_treeOver (fun _ _ m => makes_newGroup m _ []) path d m
  | succ depth ih => exact makes_treeOver ih path d m

theorem grown_rejected (f : Finding) :
    Grown {} [(Parsed.rejected f).tree] (Parsed.rejected f).arena :=
  (Grown.refl {}).push rfl rfl

theorem grown_parse (source : String) : Grown {} [(parse source).tree] (parse source).arena := by
  unfold parse
  split
  · exact grown_rejected _
  · split
    · exact grown_rejected _
    · split
      · exact grown_rejected _
      · next d _ _ app _ =>
        exact makes_tree Json.Reader.deepest [] d (some (named app.id)) {} {} [] (.refl {})

/-- The tree of a descriptor is all that is in the arena: every child stands before its parents, the
root is the last node, and walking from it meets every node once. -/
theorem parse_one_tree (source : String) :
    (parse source).arena.tree (parse source).tree.id = (parse source).tree ∧
      (parse source).tree.id + 1 = (parse source).arena.size ∧
      (parse source).arena.Ordered ∧
      ((parse source).tree.walk.map Tree.id).Perm (List.range (parse source).arena.size) := by
  have h := grown_parse source
  have ho : ({} : Arena).Ordered := by decide
  refine ⟨Arena.tree_id_of_holds (h.holds _ List.mem_cons_self), h.id_add_one ho, h.ordered ho, ?_⟩
  have hplaces := h.places
  rw [placesAll_singleton] at hplaces
  rw [walk_eq_preorder, List.range_eq_range']
  exact Multiset.coe_eq_coe.1 hplaces

end Descriptor
end ToolBindings
