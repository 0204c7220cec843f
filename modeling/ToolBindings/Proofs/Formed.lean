import ToolBindings.Descriptor.Build

/-!
# Trees of descriptors are well formed

In the tree of a descriptor every choice has a child, and the bounds of a repetition do not contradict
each other (`formed_parse`). The choices and unions of a descriptor that would have no child are errors,
and bounds that contradict each other are dropped, each before a node is made. So what is known of the
result of an action (`Returns`) is enough, whatever was found and recorded before.
-/
namespace ToolBindings

def Wrapper.Consistent (w : Wrapper) : Prop :=
  ∀ joint lo hi, w = .repetition joint (some lo) (some hi) → lo ≤ hi

namespace Tree

/-- No repetition in the tree has bounds that contradict each other. -/
def Consistent (t : Tree) : Prop :=
  ∀ s ∈ t.preorder, ∀ i m joint lo hi c, s = wrap i m (.repetition joint (some lo) (some hi)) c →
    lo ≤ hi

/-- Every choice in the tree has a child. -/
def ChoicesInhabited (t : Tree) : Prop :=
  ∀ s ∈ t.preorder, ∀ i m cs, s = group i m .alternative cs → cs ≠ []

def boundsAgree : Tree → Bool
  | wrap _ _ (.repetition _ (some lo) (some hi)) _ => lo ≤ hi
  | _ => true

def isInhabited : Tree → Bool
  | group _ _ .alternative cs => !cs.isEmpty
  | _ => true

theorem consistent_iff {t : Tree} : t.Consistent ↔ ∀ s ∈ t.preorder, s.boundsAgree = true := by
  refine forall₂_congr fun s _ => ⟨fun h => ?_, ?_⟩
  · unfold boundsAgree
    split
    · next i m joint lo hi c _ => exact decide_eq_true (h i m joint lo hi c rfl)
    · rfl
  · rintro h _ _ _ _ _ _ rfl
    exact of_decide_eq_true h

theorem choicesInhabited_iff {t : Tree} :
    t.ChoicesInhabited ↔ ∀ s ∈ t.preorder, s.isInhabited = true := by
  refine forall₂_congr fun s _ => ⟨fun h => ?_, ?_⟩
  · unfold isInhabited
    split
    · next i m cs _ => simpa using h i m cs rfl
    · rfl
  · rintro h _ _ _ rfl
    simpa [isInhabited] using h

instance (t : Tree) : Decidable t.Consistent := decidable_of_iff' _ consistent_iff

instance (t : Tree) : Decidable t.ChoicesInhabited := decidable_of_iff' _ choicesInhabited_iff

structure Formed (t : Tree) : Prop where
  consistent : t.Consistent
  inhabited : t.ChoicesInhabited

section
variable {i : NodeId} {m : Option Metadata} {u : Terminal} {w : Wrapper} {g : Group} {c : Tree}
  {cs : List Tree}

theorem consistent_terminal : (terminal i m u).Consistent := by
  simp [Consistent, preorder]

theorem consistent_wrap : (wrap i m w c).Consistent ↔ w.Consistent ∧ c.Consistent := by
  rw [Consistent, forall_preorder]
  refine and_congr ⟨fun h joint lo hi hw => h i m joint lo hi c (hw ▸ rfl), fun h => ?_⟩ ?_
  · rintro _ _ joint lo hi _ ⟨⟩
    exact h joint lo hi rfl
  · exact List.forall_mem_singleton

theorem consistent_group : (group i m g cs).Consistent ↔ ∀ c ∈ cs, c.Consistent := by
  rw [Consistent, forall_preorder]
  exact and_iff_right nofun

theorem choicesInhabited_terminal : (terminal i m u).ChoicesInhabited := by
  simp [ChoicesInhabited, preorder]

theorem choicesInhabited_wrap : (wrap i m w c).ChoicesInhabited ↔ c.ChoicesInhabited := by
  rw [ChoicesInhabited, forall_preorder]
  exact (and_iff_right nofun).trans List.forall_mem_singleton

theorem choicesInhabited_group : (group i m g cs).ChoicesInhabited ↔
    (g = .alternative → cs ≠ []) ∧ ∀ c ∈ cs, c.ChoicesInhabited := by
  rw [ChoicesInhabited, forall_preorder]
  refine and_congr_left fun _ => ⟨fun h hg => h i m cs (hg ▸ rfl), fun h => ?_⟩
  rintro _ _ _ ⟨⟩
  exact h rfl

theorem formed_terminal : (terminal i m u).Formed :=
  ⟨consistent_terminal, choicesInhabited_terminal⟩

theorem formed_wrap (hw : w.Consistent) (hc : c.Formed) : (wrap i m w c).Formed :=
  ⟨consistent_wrap.2 ⟨hw, hc.consistent⟩, choicesInhabited_wrap.2 hc.inhabited⟩

theorem formed_group (hg : g = .alternative → cs ≠ []) (hcs : ∀ c ∈ cs, c.Formed) :
    (group i m g cs).Formed where
  consistent := consistent_group.2 fun c hc => (hcs c hc).consistent
  inhabited := choicesInhabited_group.2 ⟨hg, fun c hc => (hcs c hc).inhabited⟩

end
end Tree
open ToolBindings.Tree

namespace Descriptor

def Returns {α : Type} (x : Builder α) (Q : α → Prop) : Prop :=
  ∀ (fs : List Finding) (a : Arena), Q ((x.run fs).run a).1.1

def UnlessError {α : Type} (Q : α → Prop) : Except Finding α → Prop
  | .ok r => Q r
  | .error _ => True

namespace Returns
variable {α β : Type} {Q : α → Prop} {R : β → Prop}

theorem pure {r : α} (h : Q r) : Returns (Pure.pure r) Q := fun _ _ => h

theorem bind {x : Builder α} {f : α → Builder β} (hx : Returns x Q)
    (hf : ∀ r, Q r → Returns (f r) R) : Returns (x >>= f) R := fun fs a => hf _ (hx fs a) _ _

theorem any (x : Builder α) : Returns x fun _ => True := fun _ _ => trivial

theorem lift {x : Builder α} (hx : Returns x Q) :
    Returns (liftM x : InputBuilder α).run (UnlessError Q) := hx

theorem bindInput {x : InputBuilder α} {f : α → InputBuilder β}
    (hx : Returns x.run (UnlessError Q)) (hf : ∀ r, Q r → Returns (f r).run (UnlessError R)) :
    Returns (x >>= f).run (UnlessError R) :=
  bind (f := ExceptT.bindCont f) hx fun r hr => match r with
    | .ok r => hf r hr
    | .error e => pure (r := (Except.error e : Except Finding β)) trivial

theorem throw (f : Finding) :
    Returns (MonadExcept.throw f : InputBuilder α).run (UnlessError Q) :=
  pure (r := (Except.error f : Except Finding α)) trivial

theorem ofExcept (e : Except Finding α) :
    Returns (liftM e : InputBuilder α).run (UnlessError fun _ => True) := fun _ _ => by
  cases e <;> trivial

end Returns

theorem returns_newTerminal (m : Option Metadata) (u : Terminal) :
    Returns (liftM (newTerminal m u)) Formed := fun _ _ => formed_terminal

theorem returns_newWrap (m : Option Metadata) {w : Wrapper} (hw : w.Consistent) {c : Tree}
    (hc : c.Formed) : Returns (liftM (newWrap m w c)) Formed := fun _ _ => formed_wrap hw hc

theorem returns_newSequence (m : Option Metadata) (joint : Option String) {cs : List Tree}
    (hcs : ∀ c ∈ cs, c.Formed) : Returns (liftM (newGroup m (.sequence joint) cs)) Formed :=
  fun _ _ => formed_group nofun hcs

theorem returns_newChoice (m : Option Metadata) {cs : List Tree} (hne : cs ≠ [])
    (hcs : ∀ c ∈ cs, c.Formed) : Returns (liftM (newGroup m .alternative cs)) Formed :=
  fun _ _ => formed_group (fun _ => hne) hcs

theorem consistent_optional : Wrapper.optional.Consistent := nofun

theorem returns_literal (text : String) : Returns (literal text) Formed :=
  returns_newTerminal none (.literal text)

section
variable (i : Input)

theorem returns_literals (n : Nat) (vs : List Json) :
    Returns (literals i n vs) fun ts => ∀ t ∈ ts, t.Formed := by
  induction vs generalizing n with
  | nil => exact .pure nofun
  | cons v vs ih =>
    have hcons (text : String) : Returns (do
        return (← literal text) :: (← literals i (n + 1) vs)) fun ts => ∀ t ∈ ts, t.Formed :=
      (returns_literal text).bind fun t ht => (ih (n + 1)).bind fun ts hts =>
        .pure (List.forall_mem_cons.2 ⟨ht, hts⟩)
    cases v with
    | str | int | double => exact hcons _
    | null | bool | arr | obj => exact (Returns.any _).bind fun _ _ => ih (n + 1)

theorem returns_choiceTree (choices : Json) :
    Returns (choiceTree i choices).run (UnlessError Formed) := by
  unfold choiceTree
  split
  · next vs =>
    refine (Returns.lift (returns_literals i 0 vs)).bindInput fun ts hts => ?_
    split
    · exact .throw _
    · next hne => exact .lift (returns_newChoice _ hne hts)
  · exact .throw _

theorem returns_entryBounds : Returns (entryBounds i) fun r =>
    ∀ joint, (Wrapper.repetition joint r.1 r.2).Consistent := by
  unfold entryBounds
  refine (Returns.any _).bind fun lo _ => (Returns.any _).bind fun hi _ => ?_
  extract_lets bounds
  split
  · next l h heq =>
    split
    · refine (Returns.any _).bind fun _ _ => .pure ?_
      rintro _ _ _ _ ⟨⟩
    · next hle =>
      cases heq
      refine Returns.pure ?_
      rintro _ _ _ _ ⟨⟩
      exact Nat.not_lt.1 hle
  · next hnot =>
    refine Returns.pure ?_
    rintro _ _ l h ⟨⟩
    exact absurd rfl (hnot l h)

theorem returns_wrapped_of {Q : Tree → Prop}
    (hwrap : ∀ id w c, w.Consistent → Q c → Q (wrap id none w c))
    (hlead : ∀ id id' text c, Q c →
      Q (group id none (.sequence none) [terminal id' none (.literal text), c]))
    (f : Form) {t : Tree} (ht : Q t) : Returns (wrapped i f t) Q := by
  unfold wrapped
  extract_lets optional separator led
  have hoptional : ∀ t : Tree, Q t → Returns (optional t) Q := fun t ht => by
    unfold optional
    split
    · exact fun _ _ => hwrap _ _ t consistent_optional ht
    · exact .pure ht
  have hled : ∀ t : Tree, Q t → Returns (led t) Q := fun t ht => by
    unfold led
    split
    · have hliteral (text : String) :
          Returns (literal text) fun lead => ∃ id, lead = terminal id none (.literal text) :=
        fun _ _ => ⟨_, rfl⟩
      refine (hliteral _).bind fun lead hlit => ?_
      obtain ⟨id, rfl⟩ := hlit
      exact Returns.bind (Q := Q) (fun _ _ => hlead _ id _ t ht) hoptional
    · exact hoptional t ht
  split
  · refine (returns_entryBounds i).bind fun r hr => ?_
    exact Returns.bind (Q := Q) (fun _ _ => hwrap _ _ t (hr _) ht) hled
  · exact hled t ht

theorem returns_wrapped (f : Form) {t : Tree} (ht : t.Formed) :
    Returns (wrapped i f t) Formed := by
  refine returns_wrapped_of i (fun _ _ _ => formed_wrap) (fun _ _ _ c hc => ?_) f ht
  exact formed_group nofun (List.forall_mem_cons.2 ⟨formed_terminal, List.forall_mem_singleton.2 hc⟩)

end

section
variable {nested : Nested} (hn : ∀ path d m, Returns (nested path d m) Formed)
include hn

theorem returns_alternativeTrees (i : Input) (os : List (Nat × Json)) :
    Returns (alternativeTrees nested i os) fun ts =>
      (os ≠ [] → ts ≠ []) ∧ ∀ t ∈ ts, t.Formed := by
  induction os with
  | nil => exact .pure ⟨fun h => absurd rfl h, nofun⟩
  | cons e os ih =>
    obtain ⟨n, o⟩ := e
    refine (hn _ _ _).bind fun t ht => ih.bind fun ts hts => .pure ⟨fun _ => ?_, ?_⟩
    · exact List.cons_ne_nil t ts
    · exact List.forall_mem_cons.2 ⟨ht, hts.2⟩

theorem returns_unionTree (i : Input) (vs : List Json) :
    Returns (unionTree nested i vs).run (UnlessError Formed) := by
  unfold unionTree
  refine (Returns.lift (Returns.any _)).bindInput fun os _ => ?_
  split
  · exact .throw _
  · exact .lift (hn _ _ _)
  · next hne _ =>
    refine (Returns.lift (returns_alternativeTrees hn i _)).bindInput fun ts hts => ?_
    exact .lift (returns_newChoice _ (hts.1 hne) hts.2)

theorem returns_kindTree (i : Input) (k : Kind) :
    Returns (kindTree nested i k).run (UnlessError Formed) := by
  cases k with
  | text | number | file => exact .lift (returns_newTerminal _ _)
  | integer =>
    exact (Returns.lift (Returns.any _)).bindInput fun u _ => .lift (returns_newTerminal _ u)
  | flag =>
    unfold kindTree
    dsimp only
    split
    · exact .throw _
    · refine (Returns.lift (returns_literal _)).bindInput fun t ht => ?_
      exact .lift (returns_newWrap _ consistent_optional ht)
  | subcommand d => exact .lift (hn _ _ _)
  | union vs => exact returns_unionTree hn i vs

theorem returns_inputTree (i : Input) :
    Returns (inputTree nested i).run (UnlessError Formed) := by
  unfold inputTree
  refine (Returns.ofExcept (form i)).bindInput fun f _ => ?_
  split
  · exact (returns_choiceTree i _).bindInput fun _ ht => .lift (returns_wrapped i f ht)
  · exact returns_kindTree hn i .flag
  · exact (returns_kindTree hn i _).bindInput fun _ ht => .lift (returns_wrapped i f ht)

theorem returns_input? (i : Input) :
    Returns (input? nested i) fun t? => ∀ t ∈ t?, t.Formed :=
  (returns_inputTree hn i).bind fun r hr => match r with
    | .ok _ => .pure fun _ h => Option.mem_some.1 h ▸ hr
    | .error _ => (Returns.any _).bind fun _ _ => .pure nofun

theorem returns_pieceTrees (ps : List (Template.Fragment Input)) :
    Returns (pieceTrees nested ps) fun r => ∀ t ∈ r.1, t.Formed := by
  induction ps with
  | nil => exact .pure nofun
  | cons p ps ih =>
    cases p with
    | literal text =>
      refine (returns_literal text).bind fun t ht => ih.bind fun r hr => .pure ?_
      exact List.forall_mem_cons.2 ⟨ht, hr⟩
    | payload key i =>
      refine (returns_input? hn i).bind fun t? ht => ih.bind fun r hr => ?_
      cases t? with
      | some t => exact .pure (List.forall_mem_cons.2 ⟨ht t rfl, hr⟩)
      | none => exact .pure hr

theorem returns_tokenTrees (table : OrderedMap String Input) (tokens : List String) :
    Returns (tokenTrees nested table tokens) fun r => ∀ t ∈ r.1, t.Formed := by
  induction tokens with
  | nil => exact .pure nofun
  | cons token tokens ih =>
    unfold tokenTrees
    refine (returns_pieceTrees hn _).bind fun ⟨pieces, ids⟩ hpieces => ?_
    dsimp -zeta only
    extract_lets next
    have hnext : ∀ ts : List Tree, (∀ t ∈ ts, t.Formed) →
        Returns (next ts) fun r => ∀ t ∈ r.1, t.Formed := fun ts hts =>
      ih.bind fun r hr => .pure (List.forall_mem_append.2 ⟨hts, hr⟩)
    split
    · exact hnext [] nofun
    · next t => exact hnext [t] hpieces
    · refine (returns_newSequence _ _ hpieces).bind fun t ht => ?_
      exact hnext [t] (List.forall_mem_singleton.2 ht)

theorem returns_treeOver (path : Json.Path) (d : Json) (m : Option Metadata) :
    Returns (treeOver nested path d m) Formed := by
  refine (Returns.any _).bind fun tokens _ => ?_
  refine (returns_tokenTrees hn _ tokens).bind fun r hr => ?_
  exact (Returns.any _).bind fun os _ => returns_newSequence _ _ hr

end

theorem returns_tree (depth : Nat) (path : Json.Path) (d : Json) (m : Option Metadata) :
    Returns (tree depth path d m) Formed := by
  induction depth generalizing path d m with
  | zero => exact returns_treeOver (fun _ _ m => @returns_newSequence m none [] nofun) path d m
  | succ depth ih => exact returns_treeOver ih path d m

theorem formed_parse (source : String) : (parse source).tree.Formed := by
  have hrejected (f : Finding) : (Parsed.rejected f).tree.Formed := formed_group nofun nofun
  unfold parse
  split
  · exact hrejected _
  · split
    · exact hrejected _
    · split
      · exact hrejected _
      · next d _ _ app _ =>
        exact returns_tree Json.Reader.deepest [] d (some (named app.id)) [] {}

end Descriptor
end ToolBindings
