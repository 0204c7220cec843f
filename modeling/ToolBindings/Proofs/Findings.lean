import ToolBindings.Descriptor.Build
import ToolBindings.Proofs.Fragments
import ToolBindings.Proofs.Registry

/-!
# What is added to the findings

Nothing that was found is ever taken back, so an action is described by what it adds to the findings
(`Adds`). Before an input is known to be good only warnings are added, at the input or further in. After
that no error is found but those of the subcommands, and these stand further in than the type of the
input. So an input becomes a tree, and then no error at its own places tells otherwise, or it is dropped
with one error at such a place (`adds_input?`).
-/
namespace ToolBindings

theorem Template.mem_of_mem_destructure {α : Type} {table : OrderedMap String α} {token key : String}
    {x : α} (h : Fragment.payload key x ∈ destructure table token) : (key, x) ∈ table :=
  OrderedMap.mem_of_find? (payload_of_mem h).2

namespace Descriptor
open ToolBindings.Tree

/-- The action adds to the findings that are there. Of its result and of what it adds `Q` holds. -/
def Adds {α : Type} (x : Builder α) (Q : α → List Finding → Prop) : Prop :=
  ∀ (fs : List Finding) (a : Arena), ∃ new,
    ((x.run fs).run a).1.2 = fs ++ new ∧ Q ((x.run fs).run a).1.1 new

namespace Adds
variable {α β : Type} {Q : α → List Finding → Prop} {R : β → List Finding → Prop}

theorem pure {r : α} (h : Q r []) : Adds (Pure.pure r) Q := fun fs _ =>
  ⟨[], (List.append_nil fs).symm, h⟩

theorem record {x : Recorder α} (h : ∀ r, Q r []) : Adds (liftM x) Q := fun fs _ =>
  ⟨[], (List.append_nil fs).symm, h _⟩

theorem note {f : Finding} {Q : Unit → List Finding → Prop} (h : Q () [f]) : Adds (note f) Q :=
  fun _ _ => ⟨[f], rfl, h⟩

theorem bind {x : Builder α} {f : α → Builder β} (hx : Adds x Q)
    (hf : ∀ r ws, Q r ws → Adds (f r) fun s new => R s (ws ++ new)) : Adds (x >>= f) R := by
  intro fs a
  obtain ⟨ws, hws, hq⟩ := hx fs a
  obtain ⟨new, hnew, hr⟩ := hf _ ws hq ((x.run fs).run a).1.2 ((x.run fs).run a).2
  refine ⟨ws ++ new, ?_, hr⟩
  rw [← List.append_assoc, ← hws]
  exact hnew

theorem imp {x : Builder α} {Q' : α → List Finding → Prop} (hx : Adds x Q)
    (h : ∀ r ws, Q r ws → Q' r ws) : Adds x Q' := fun fs a => by
  obtain ⟨ws, hws, hq⟩ := hx fs a
  exact ⟨ws, hws, h _ ws hq⟩

end Adds

def AddsOnly {α : Type} (P : Finding → Prop) (x : Builder α) : Prop :=
  Adds x fun _ new => ∀ f ∈ new, P f

namespace AddsOnly
variable {α β : Type} {P : Finding → Prop}

theorem pure (r : α) : AddsOnly P (Pure.pure r) := Adds.pure nofun

theorem record (x : Recorder α) : AddsOnly P (liftM x) := Adds.record fun _ => nofun

theorem note {f : Finding} (h : P f) : AddsOnly P (note f) :=
  Adds.note (List.forall_mem_singleton.2 h)

theorem bind {x : Builder α} {f : α → Builder β} (hx : AddsOnly P x)
    (hf : ∀ r, AddsOnly P (f r)) : AddsOnly P (x >>= f) :=
  Adds.bind hx fun r _ hws => (hf r).imp fun _ _ hnew => List.forall_mem_append.2 ⟨hws, hnew⟩

theorem imp {x : Builder α} {P' : Finding → Prop} (hx : AddsOnly P x) (h : ∀ f, P f → P' f) :
    AddsOnly P' x :=
  Adds.imp hx fun _ _ hws f hf => h f (hws f hf)

end AddsOnly

structure Input.Allows (i : Input) (P : Finding → Prop) : Prop where
  input : ∀ issue, issue.level = .warning → P (i.finding issue)
  member : ∀ key w issue, i.object.member? key = some w → issue.level = .warning →
    P (i.findingAt [.key key] issue)

section
variable {i : Input} {P : Finding → Prop}

theorem addsOnly_literals {n : Nat} {vs : List Json}
    (h : ∀ k w issue, vs[k]? = some w → issue.level = .warning →
      P (i.findingAt [.key "value-choices", .index (n + k)] issue)) :
    AddsOnly P (literals i n vs) := by
  induction vs generalizing n with
  | nil => exact .pure []
  | cons v vs ih =>
    have hvs : AddsOnly P (literals i (n + 1) vs) := ih fun k w issue hk hlevel => by
      rw [Nat.add_right_comm]
      exact h (k + 1) w issue hk hlevel
    have hcons (text : String) : AddsOnly P (do
        return (← literal text) :: (← literals i (n + 1) vs)) :=
      (AddsOnly.record _).bind fun _ => hvs.bind fun _ => .pure _
    cases v with
    | str | int | double => exact hcons _
    | null | bool | arr | obj => exact (AddsOnly.note (h 0 _ _ rfl rfl)).bind fun _ => hvs

variable (h : i.Allows P)
include h

theorem addsOnly_integerLeaf : AddsOnly P (integerLeaf i) := by
  unfold integerLeaf
  extract_lets o lo hi leaf
  have hleaf : ∀ r, AddsOnly P (leaf r) := fun _ => .pure _
  split
  · split
    · exact (AddsOnly.note (h.input _ rfl)).bind hleaf
    · exact hleaf ()
  · exact hleaf ()

theorem addsOnly_entryBound (key : String) : AddsOnly P (entryBound i key) := by
  unfold entryBound
  split
  · exact .pure none
  · next w hw =>
    extract_lets bound
    have hbound : ∀ r, AddsOnly P (bound r) := fun _ => .pure _
    split
    · exact (AddsOnly.note (h.member key w _ hw rfl)).bind hbound
    · exact hbound ()

theorem addsOnly_entryBounds : AddsOnly P (entryBounds i) := by
  unfold entryBounds
  refine (addsOnly_entryBound h _).bind fun lo => (addsOnly_entryBound h _).bind fun hi => ?_
  extract_lets bounds
  have hbounds : ∀ r, AddsOnly P (bounds r) := fun _ => .pure _
  split
  · split
    · exact (AddsOnly.note (h.input _ rfl)).bind fun _ => .pure _
    · exact hbounds ()
  · exact hbounds ()

theorem addsOnly_wrapped (f : Form) (t : Tree) : AddsOnly P (wrapped i f t) := by
  unfold wrapped
  extract_lets optional separator led
  have hoptional : ∀ t, AddsOnly P (optional t) := fun t => by
    unfold optional
    split
    · exact .record _
    · exact .pure _
  have hled : ∀ t, AddsOnly P (led t) := fun t => by
    unfold led
    split
    · exact (AddsOnly.record _).bind fun lead => (AddsOnly.record _).bind hoptional
    · exact hoptional t
  split
  · exact (addsOnly_entryBounds h).bind fun r => (AddsOnly.record _).bind hled
  · exact hled t

end

/-- Found at the path or further in. -/
def Finding.Within (path : Json.Path) (f : Finding) : Prop := ∃ q, f.location = some (path ++ q)

def Finding.Below (path : Json.Path) (f : Finding) : Prop :=
  ∃ q, q ≠ [] ∧ f.location = some (path ++ q)

namespace Finding
variable {f : Finding} {path q : Json.Path}

theorem Within.of_append (h : f.Within (path ++ q)) : f.Within path := by
  obtain ⟨r, h⟩ := h
  exact ⟨q ++ r, by rw [h, List.append_assoc]⟩

theorem Within.below (h : f.Within (path ++ q)) (hq : q ≠ []) : f.Below path := by
  obtain ⟨r, h⟩ := h
  exact ⟨q ++ r, List.append_ne_nil_of_left_ne_nil hq r, by rw [h, List.append_assoc]⟩

theorem Below.of_append (h : f.Below (path ++ q)) : f.Below path := by
  obtain ⟨r, hr, h⟩ := h
  exact ⟨q ++ r, List.append_ne_nil_of_right_ne_nil q hr, by rw [h, List.append_assoc]⟩

/-- Found at the path or further in, an error further in. -/
structure Under (path : Json.Path) (f : Finding) : Prop where
  within : f.Within path
  error : f.isError = true → f.Below path

theorem Within.under (h : f.Within (path ++ q)) (hq : q ≠ []) : f.Under path :=
  ⟨h.of_append, fun _ => h.below hq⟩

end Finding

namespace Input

/-- Where an error of the input itself is reported. -/
def places (i : Input) : List Json.Path :=
  [i.path, i.path ++ [.key "value-choices"], i.path ++ [.key "type"]]

structure Warns (i : Input) (f : Finding) : Prop where
  warning : f.isError = false
  within : f.Within i.path

structure Tells (i : Input) (f : Finding) : Prop where
  within : f.Within i.path
  error : f.isError = true → f.Below (i.path ++ [.key "type"])

structure Rejects (i : Input) (f : Finding) : Prop where
  error : f.isError = true
  place : ∃ p ∈ i.places, f.location = some p

variable {i : Input} {f : Finding}

theorem Warns.tells (h : i.Warns f) : i.Tells f :=
  ⟨h.within, fun he => nomatch he.symm.trans h.warning⟩

theorem tells_of_under {q : Json.Path} (h : f.Under (i.path ++ .key "type" :: q)) : i.Tells f := by
  refine ⟨h.within.of_append, fun he => ?_⟩
  have hbelow := h.error he
  rw [List.append_cons] at hbelow
  exact hbelow.of_append

theorem Rejects.within (h : i.Rejects f) : f.Within i.path := by
  obtain ⟨p, hp, hf⟩ := h.place
  simp only [places, List.mem_cons, List.not_mem_nil, or_false] at hp
  rcases hp with rfl | rfl | rfl
  · exact ⟨[], by rw [hf, List.append_nil]⟩
  · exact ⟨_, hf⟩
  · exact ⟨_, hf⟩

/-- What the result of an input and the findings that are added for it have to do with each other. -/
def Settled {α : Type} (i : Input) : Except Finding α → List Finding → Prop
  | .ok _, new => ∀ f ∈ new, i.Tells f
  | .error f, new => i.Rejects f ∧ ∀ w ∈ new, i.Warns w

end Input

def Settles {α : Type} (i : Input) (x : InputBuilder α) : Prop := Adds x.run i.Settled

namespace Settles
variable {α β : Type} {i : Input}

theorem throw {f : Finding} (h : i.Rejects f) : Settles i (MonadExcept.throw f : InputBuilder α) :=
  Adds.pure (r := (Except.error f : Except Finding α)) ⟨h, nofun⟩

theorem ofExcept {e : Except Finding α} {f : α → InputBuilder β}
    (he : ∀ g, e = .error g → i.Rejects g) (hf : ∀ r, Settles i (f r)) :
    Settles i (liftM e >>= f) := by
  cases e with
  | ok r => exact hf r
  | error g => exact Adds.pure (r := (Except.error g : Except Finding β)) ⟨he g rfl, nofun⟩

theorem lift {x : Builder α} (hx : AddsOnly i.Tells x) : Settles i (liftM x) := hx

theorem afterWarnings {x : Builder α} {f : α → InputBuilder β} (hx : AddsOnly i.Warns x)
    (hf : ∀ r, Settles i (f r)) : Settles i (liftM x >>= f) :=
  Adds.bind (f := fun r => (f r).run) hx fun r ws hws => (hf r).imp fun e new hnew => by
    cases e with
    | ok s => exact List.forall_mem_append.2 ⟨fun w hw => (hws w hw).tells, hnew⟩
    | error e => exact ⟨hnew.1, List.forall_mem_append.2 ⟨hws, hnew.2⟩⟩

theorem andThen {x : InputBuilder α} {f : α → Builder β} (hx : Settles i x)
    (hf : ∀ r, AddsOnly i.Tells (f r)) : Settles i (x >>= fun r => liftM (f r)) :=
  -- An error passes by what follows, so it stays the last that was found.
  Adds.bind (f := ExceptT.bindCont fun r => (liftM (f r) : InputBuilder β)) hx fun e ws hws =>
    match e, hws with
    | .ok r, hws => fun fs a => by
      obtain ⟨new, hnew, htells⟩ := hf r fs a
      exact ⟨new, hnew, List.forall_mem_append.2 ⟨hws, htells⟩⟩
    | .error e, hws => Adds.pure (r := (Except.error e : Except Finding β)) (by
      rw [List.append_nil]
      exact hws)

end Settles

section
variable (i : Input)

theorem Input.rejects_finding {issue : Issue} (h : issue.level = .error) :
    i.Rejects (i.finding issue) :=
  ⟨decide_eq_true h, i.path, List.mem_cons_self, rfl⟩

theorem Input.rejects_findingAt {key : String} {issue : Issue} (h : issue.level = .error)
    (hkey : key = "value-choices" ∨ key = "type") : i.Rejects (i.findingAt [.key key] issue) := by
  refine ⟨decide_eq_true h, i.path ++ [.key key], List.mem_cons_of_mem _ ?_, rfl⟩
  rcases hkey with rfl | rfl
  · exact List.mem_cons_self
  · exact List.mem_cons_of_mem _ List.mem_cons_self

theorem Input.warns_finding {issue : Issue} (h : issue.level = .warning) : i.Warns (i.finding issue) :=
  ⟨by simp [Finding.isError, finding, h], [], by simp [finding]⟩

theorem Input.warns_findingAt {issue : Issue} (h : issue.level = .warning) (q : Json.Path) :
    i.Warns (i.findingAt q issue) :=
  ⟨by simp [Finding.isError, findingAt, h], q, rfl⟩

theorem Input.allows_warns : i.Allows i.Warns :=
  ⟨fun _ => i.warns_finding, fun _ _ _ _ h => i.warns_findingAt h _⟩

theorem Input.allows_tells : i.Allows i.Tells :=
  ⟨fun _ h => (i.warns_finding h).tells, fun _ _ _ _ h => (i.warns_findingAt h _).tells⟩

theorem settles_choiceTree (choices : Json) : Settles i (choiceTree i choices) := by
  unfold choiceTree
  split
  · next vs =>
    refine .afterWarnings (addsOnly_literals fun _ _ _ _ h => i.warns_findingAt h _) fun ts => ?_
    split
    · exact .throw (i.rejects_findingAt rfl (.inl rfl))
    · exact .lift (.record _)
  · exact .throw (i.rejects_findingAt rfl (.inl rfl))

theorem addsOnly_alternatives (n : Nat) (vs : List Json) :
    AddsOnly i.Warns (alternatives i n vs) := by
  induction vs generalizing n with
  | nil => exact .pure []
  | cons v vs ih =>
    unfold alternatives
    split
    · exact (ih (n + 1)).bind fun _ => .pure _
    · exact (AddsOnly.note (i.warns_findingAt rfl _)).bind fun _ => ih (n + 1)

theorem rejects_of_kind {f : Finding} (h : kind i = .error f) : i.Rejects f := by
  unfold kind at h
  split at h
  · cases h; exact i.rejects_finding rfl
  · cases h; exact i.rejects_finding rfl
  · cases h
  · cases h
  · split at h
    · cases h
    · split at h
      · cases h
      · split at h
        · cases h
        · split at h
          · cases h
          · cases h; exact i.rejects_finding rfl
  · cases h; exact i.rejects_finding rfl

theorem rejects_of_form {f : Finding} (h : form i = .error f) : i.Rejects f := by
  unfold form at h
  cases hk : kind i with
  | error e =>
    rw [hk] at h
    cases h
    exact rejects_of_kind i hk
  | ok k =>
    rw [hk] at h
    cases k with
    | file =>
      dsimp [bind, Except.bind] at h
      split at h <;> cases h
      exact i.rejects_finding rfl
    | flag | text | integer | number | subcommand | union => cases h

end

def Input.SettledTree (i : Input) : Option Tree → List Finding → Prop
  | some _, new => ∀ f ∈ new, i.Tells f
  | none, new => ∃ ws f, new = ws ++ [f] ∧ i.Rejects f ∧ ∀ w ∈ ws, i.Warns w

theorem Input.SettledTree.within {i : Input} {t? : Option Tree} {new : List Finding}
    (h : i.SettledTree t? new) : ∀ f ∈ new, f.Within i.path := by
  cases t? with
  | some t => exact fun f hf => (h f hf).within
  | none =>
    obtain ⟨ws, f, rfl, hf, hws⟩ := h
    refine List.forall_mem_append.2 ⟨fun w hw => (hws w hw).within, ?_⟩
    exact List.forall_mem_singleton.2 hf.within

section
variable {nested : Nested} (hn : ∀ path d m, AddsOnly (Finding.Under path) (nested path d m))
include hn

theorem addsOnly_alternativeTrees (i : Input) (os : List (Nat × Json)) :
    AddsOnly i.Tells (alternativeTrees nested i os) := by
  induction os with
  | nil => exact .pure []
  | cons e os ih =>
    obtain ⟨n, o⟩ := e
    refine ((hn _ o _).imp fun _ => Input.tells_of_under).bind fun t => ?_
    exact ih.bind fun _ => .pure _

theorem settles_unionTree (i : Input) (vs : List Json) : Settles i (unionTree nested i vs) := by
  unfold unionTree
  refine .afterWarnings (addsOnly_alternatives i 0 vs) fun os => ?_
  split
  · exact .throw (i.rejects_findingAt rfl (.inr rfl))
  · exact .lift ((hn _ _ _).imp fun _ => Input.tells_of_under)
  · exact (Settles.lift (addsOnly_alternativeTrees hn i _)).andThen fun ts => .record (newGroup _ _ ts)

theorem settles_kindTree (i : Input) (k : Kind) : Settles i (kindTree nested i k) := by
  cases k with
  | text | number | file => exact .lift (.record _)
  | integer => exact .afterWarnings (addsOnly_integerLeaf i.allows_warns) fun u => .lift (.record _)
  | flag =>
    unfold kindTree
    dsimp only
    split
    · exact .throw (i.rejects_finding rfl)
    · exact (Settles.lift (.record _)).andThen fun t => .record (newWrap _ _ t)
  | subcommand d => exact .lift ((hn _ d _).imp fun _ => Input.tells_of_under)
  | union vs => exact settles_unionTree hn i vs

theorem settles_inputTree (i : Input) : Settles i (inputTree nested i) := by
  unfold inputTree
  refine .ofExcept (fun _ => rejects_of_form i) fun f => ?_
  split
  · exact (settles_choiceTree i _).andThen (addsOnly_wrapped i.allows_tells f)
  · exact settles_kindTree hn i .flag
  · exact (settles_kindTree hn i _).andThen (addsOnly_wrapped i.allows_tells f)

theorem adds_input? (i : Input) : Adds (input? nested i) i.SettledTree :=
  Adds.bind (settles_inputTree hn i) fun r ws hws => match r, hws with
    | .ok t, hws => .pure (r := some t) (by rwa [List.append_nil])
    | .error f, hws => fun _ _ => ⟨[f], rfl, ws, f, rfl, hws⟩

theorem addsOnly_input? (i : Input) : AddsOnly (Finding.Within i.path) (input? nested i) :=
  (adds_input? hn i).imp fun _ _ => Input.SettledTree.within

theorem addsOnly_pieceTrees {path : Json.Path} {ps : List (Template.Fragment Input)}
    (h : ∀ key i, Template.Fragment.payload key i ∈ ps → path <+: i.path) :
    AddsOnly (Finding.Within path) (pieceTrees nested ps) := by
  induction ps with
  | nil => exact .pure ([], [])
  | cons p ps ih =>
    have hps := ih fun key i hmem => h key i (List.mem_cons_of_mem p hmem)
    cases p with
    | literal text => exact (AddsOnly.record _).bind fun t => hps.bind fun r => .pure _
    | payload key i =>
      -- Whether the input becomes a tree or not, all that is found of it stands within it.
      obtain ⟨q, hq⟩ := h key i List.mem_cons_self
      have hi := (addsOnly_input? hn i).imp fun f (hf : f.Within i.path) =>
        (hq ▸ hf : f.Within (path ++ q)).of_append
      refine hi.bind fun t? => hps.bind fun r => ?_
      cases t? <;> exact .pure _

theorem addsOnly_tokenTrees {path : Json.Path} {table : OrderedMap String Input}
    (h : ∀ e ∈ table, path <+: e.2.path) (tokens : List String) :
    AddsOnly (Finding.Within path) (tokenTrees nested table tokens) := by
  induction tokens with
  | nil => exact .pure ([], [])
  | cons token tokens ih =>
    unfold tokenTrees
    have hpieces : AddsOnly (Finding.Within path)
        (pieceTrees nested (Template.destructure table token)) :=
      addsOnly_pieceTrees hn fun key i hmem => h _ (Template.mem_of_mem_destructure hmem)
    refine hpieces.bind fun ⟨pieces, ids⟩ => ?_
    dsimp -zeta only
    extract_lets next
    have hnext : ∀ ts, AddsOnly (Finding.Within path) (next ts) := fun _ => ih.bind fun _ => .pure _
    split
    · exact hnext []
    · next t => exact hnext [t]
    · exact (AddsOnly.record _).bind fun t => hnext [t]

end

theorem prefix_keyedInputs (path : Json.Path) (n : Nat) (vs : List Json) :
    ∀ e ∈ keyedInputs path n vs, path ++ [.key "inputs"] <+: e.2.path := by
  induction vs generalizing n with
  | nil => exact nofun
  | cons v vs ih =>
    unfold keyedInputs
    extract_lets rest
    have hrest : ∀ e ∈ rest, path ++ [.key "inputs"] <+: e.2.path := ih (n + 1)
    split
    · exact hrest
    · split
      · exact hrest
      · refine List.forall_mem_cons.2 ⟨⟨[.index n], ?_⟩, hrest⟩
        rw [List.append_assoc]
        rfl

theorem prefix_inputTable (path : Json.Path) (d : Json) :
    ∀ e ∈ inputTable path d, path ++ [.key "inputs"] <+: e.2.path := by
  intro e he
  rcases OrderedMap.mem_insertAll e he with he | he
  · cases he
  · exact prefix_keyedInputs path 0 _ e he

structure Finding.BesidesOutputs (path : Json.Path) (f : Finding) : Prop where
  under : f.Under path
  besides : ¬ f.Within (path ++ [.key "output-files"])

theorem Finding.besidesOutputs_of_member {f : Finding} {path : Json.Path} {key : String}
    (h : f.Within (path ++ [.key key])) (hkey : key ≠ "output-files") : f.BesidesOutputs path := by
  refine ⟨h.under (List.cons_ne_nil _ _), fun houtputs => hkey ?_⟩
  obtain ⟨q, hq⟩ := h
  obtain ⟨r, hr⟩ := houtputs
  rw [hq, Option.some_inj, List.append_assoc, List.append_assoc, List.append_cancel_left_eq] at hr
  exact Json.Step.key.inj (List.cons.inj hr).1

theorem Finding.besidesOutputs_of_warning {f : Finding} {path : Json.Path}
    (hlocation : f.location = some path) (hwarning : f.isError = false) : f.BesidesOutputs path := by
  refine ⟨⟨⟨[], by rw [hlocation, List.append_nil]⟩, fun he => nomatch he.symm.trans hwarning⟩, ?_⟩
  rintro ⟨q, hq⟩
  rw [hlocation, Option.some_inj, List.append_assoc] at hq
  exact absurd (List.self_eq_append_right.1 hq) (by simp)

theorem addsOnly_tokensOf (path : Json.Path) (d : Json) :
    AddsOnly (Finding.BesidesOutputs path) (tokensOf path d) := by
  have hpoint {f : Finding} (hf : f.BesidesOutputs path) :
      AddsOnly (Finding.BesidesOutputs path) (do note f; return ([] : List String)) :=
    (AddsOnly.note hf).bind fun _ => .pure []
  unfold tokensOf
  split
  · exact hpoint (Finding.besidesOutputs_of_warning rfl rfl)
  · split
    · exact .pure _
    · next e _ =>
      have hline : Finding.Within (path ++ [.key "command-line"])
          ⟨.badTemplate e, some (path ++ [.key "command-line"])⟩ := ⟨[], by simp⟩
      exact hpoint (Finding.besidesOutputs_of_member hline (by decide))

end Descriptor
end ToolBindings
