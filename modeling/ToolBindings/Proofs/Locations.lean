import Mathlib
import ToolBindings.Descriptor.Build
import ToolBindings.Proofs.Findings
import ToolBindings.Proofs.Registry

/-!
# Where findings point

Every path that is put together while a descriptor is built leads to the value that is looked at: a path
is only made longer by a step that has just been taken. So an action that is given inputs that stand where
they say (`Input.Stands`) finds nothing but what is found at a value of the document (`Finds`), and so do
subcommands at any depth. The diagnostics of a document that can be read all point into it
(`parse_located`).
-/
namespace ToolBindings

theorem Json.get?_append_of_some {v w : Json} {p q : Json.Path} (h : v.get? p = some w) :
    v.get? (p ++ q) = w.get? q := by
  rw [get?_append, h, Option.bind_some]

namespace Descriptor

def Finding.PointsInto (v : Json) (f : Finding) : Prop :=
  ∃ p w, f.location = some p ∧ v.get? p = some w

def Input.Stands (v : Json) (i : Input) : Prop := v.get? i.path = some i.object

def Finds {α : Type} (v : Json) (x : Builder α) (Q : α → Prop) : Prop :=
  ∀ (fs : List Finding) (a : Arena), (∀ f ∈ fs, f.PointsInto v) →
    (∀ f ∈ ((x.run fs).run a).1.2, f.PointsInto v) ∧ Q ((x.run fs).run a).1.1

def Sound {α : Type} (v : Json) (Q : α → Prop) : Except Finding α → Prop
  | .ok r => Q r
  | .error f => f.PointsInto v

theorem Sound.bind {α β : Type} {v : Json} {Q : α → Prop} {R : β → Prop} {x : Except Finding α}
    {f : α → Except Finding β} (hx : Sound v Q x) (hf : ∀ r, Q r → Sound v R (f r)) :
    Sound v R (x >>= f) :=
  match x, hx with
  | .ok r, hr => hf r hr
  | .error _, he => he

namespace Finds
variable {α β : Type} {v : Json} {Q : α → Prop} {R : β → Prop}

theorem pure {r : α} (h : Q r) : Finds v (Pure.pure r) Q := fun _ _ hfs => ⟨hfs, h⟩

theorem bind {x : Builder α} {f : α → Builder β} (hx : Finds v x Q)
    (hf : ∀ r, Q r → Finds v (f r) R) : Finds v (x >>= f) R := fun fs a hfs => by
  obtain ⟨hfs', hr⟩ := hx fs a hfs
  exact hf _ hr _ _ hfs'

theorem record (x : Recorder α) : Finds v (liftM x) fun _ => True := fun _ _ hfs => ⟨hfs, trivial⟩

theorem note {f : Finding} (h : f.PointsInto v) : Finds v (note f) fun _ => True :=
  fun _ _ hfs => ⟨List.forall_mem_append.2 ⟨hfs, List.forall_mem_singleton.2 h⟩, trivial⟩

theorem lift {x : Builder α} (hx : Finds v x Q) :
    Finds v (liftM x : InputBuilder α).run (Sound v Q) := fun fs a hfs => hx fs a hfs

theorem bindInput {x : InputBuilder α} {f : α → InputBuilder β} (hx : Finds v x.run (Sound v Q))
    (hf : ∀ r, Q r → Finds v (f r).run (Sound v R)) : Finds v (x >>= f).run (Sound v R) :=
  bind (f := ExceptT.bindCont f) hx fun r hr => match r with
    | .ok r => hf r hr
    | .error e => pure (r := (Except.error e : Except Finding β)) hr

theorem throw {f : Finding} (h : f.PointsInto v) :
    Finds v (MonadExcept.throw f : InputBuilder α).run (Sound v Q) :=
  pure (r := (Except.error f : Except Finding α)) h

theorem of_addsOnly {x : Builder α} (hx : AddsOnly (Finding.PointsInto v) x) :
    Finds v x fun _ => True := fun fs a hfs => by
  obtain ⟨new, hnew, hpoints⟩ := hx fs a
  rw [hnew]
  exact ⟨List.forall_mem_append.2 ⟨hfs, hpoints⟩, trivial⟩

theorem ofExcept {e : Except Finding α} (h : Sound v Q e) :
    Finds v (liftM e : InputBuilder α).run (Sound v Q) := fun fs a hfs => by
  cases e <;> exact ⟨hfs, h⟩

end Finds

def Items (v : Json) (path : Json.Path) (key : String) (n : Nat) (vs : List Json) : Prop :=
  ∀ k w, vs[k]? = some w → v.get? (path ++ [.key key, .index (n + k)]) = some w

section
variable {v w o : Json} {path : Json.Path} {key : String} {n : Nat} {vs : List Json}

theorem get?_member (h : v.get? path = some o) (hw : o.member? key = some w) :
    v.get? (path ++ [.key key]) = some w := by
  simp [Json.get?_append_of_some h, Json.get?, Json.step?, hw]

theorem items_of_member (h : v.get? path = some o) (hvs : o.member? key = some (.arr vs)) :
    Items v path key 0 vs := by
  intro k w hw
  simp [Json.get?_append_of_some h, Json.get?, Json.step?, hvs, Json.arr?, hw]

theorem items_listAt (h : v.get? path = some o) (key : String) :
    Items v path key 0 (listAt key o) := by
  unfold listAt
  cases hw : (o.member? key).bind Json.arr? with
  | none => simp [Items]
  | some vs =>
    obtain ⟨w, hw, hvs⟩ := Option.bind_eq_some_iff.1 hw
    cases w with
    | arr => cases hvs; exact items_of_member h hw
    | null | bool | int | double | str | obj => cases hvs

theorem Items.head (h : Items v path key n (w :: vs)) :
    v.get? (path ++ [.key key, .index n]) = some w := h 0 w rfl

theorem Items.tail (h : Items v path key n (w :: vs)) : Items v path key (n + 1) vs := by
  intro k u hu
  rw [Nat.add_right_comm]
  exact h (k + 1) u hu

theorem eq_of_object? (h : object? v = some o) : v = o := by
  cases v with
  | obj => cases h; rfl
  | null | bool | int | double | str | arr => cases h

theorem stands_keyedInputs (h : Items v path "inputs" n vs) :
    ∀ e ∈ keyedInputs path n vs, e.2.Stands v := by
  induction vs generalizing n with
  | nil => exact fun e he => nomatch he
  | cons w vs ih =>
    unfold keyedInputs
    extract_lets rest
    have hrest : ∀ e ∈ rest, e.2.Stands v := ih h.tail
    split
    · exact hrest
    · next o ho =>
      split
      · exact hrest
      · exact List.forall_mem_cons.2 ⟨eq_of_object? ho ▸ h.head, hrest⟩

theorem stands_inputTable (h : v.get? path = some o) :
    ∀ e ∈ inputTable path o, e.2.Stands v := by
  intro e he
  rcases OrderedMap.mem_insertAll e he with he | he
  · cases he
  · exact stands_keyedInputs (items_listAt h "inputs") e he

end

section
variable {v : Json} {i : Input} (hi : i.Stands v)
include hi

theorem pointsInto_finding (issue : Issue) : (i.finding issue).PointsInto v := ⟨_, _, rfl, hi⟩

theorem pointsInto_findingAt {key : String} {w : Json} (hw : i.object.member? key = some w)
    (issue : Issue) : (i.findingAt [.key key] issue).PointsInto v :=
  ⟨_, _, rfl, get?_member hi hw⟩

theorem allows_pointsInto : i.Allows (Finding.PointsInto v) :=
  ⟨fun issue _ => pointsInto_finding hi issue, fun _ _ issue hw _ => pointsInto_findingAt hi hw issue⟩

end

section
variable {v : Json} {i : Input}

theorem finds_choiceTree (hi : i.Stands v) {choices : Json}
    (h : i.object.member? "value-choices" = some choices) :
    Finds v (choiceTree i choices).run (Sound v fun _ => True) := by
  unfold choiceTree
  split
  · next vs =>
    have hvs := items_of_member hi h
    have hliterals : AddsOnly (Finding.PointsInto v) (literals i 0 vs) :=
      addsOnly_literals fun k w _ hw _ => ⟨_, w, rfl, hvs k w hw⟩
    refine (Finds.lift (.of_addsOnly hliterals)).bindInput fun ts _ => ?_
    split
    · exact .throw (pointsInto_findingAt hi h _)
    · exact .lift (.record _)
  · exact .throw (pointsInto_findingAt hi h _)

theorem finds_alternatives {n : Nat} {vs : List Json} (h : Items v i.path "type" n vs) :
    Finds v (alternatives i n vs) fun os =>
      ∀ e ∈ os, v.get? (i.path ++ [.key "type", .index e.1]) = some e.2 := by
  induction vs generalizing n with
  | nil => exact .pure nofun
  | cons w vs ih =>
    unfold alternatives
    split
    · next o ho =>
      refine (ih h.tail).bind fun os hos => .pure (List.forall_mem_cons.2 ⟨?_, hos⟩)
      exact eq_of_object? ho ▸ h.head
    · exact (Finds.note ⟨_, _, rfl, h.head⟩).bind fun _ _ => ih h.tail

def Kind.Reads (i : Input) : Kind → Prop
  | .subcommand d => i.object.member? "type" = some d
  | .union vs => i.object.member? "type" = some (.arr vs)
  | _ => True

structure Form.Reads (i : Input) (f : Form) : Prop where
  kind : f.kind.Reads i
  choices : ∀ w ∈ f.choices, i.object.member? "value-choices" = some w

theorem sound_kind (hi : i.Stands v) : Sound v (Kind.Reads i) (kind i) := by
  unfold kind
  split
  · exact pointsInto_finding hi _
  · exact pointsInto_finding hi _
  · next h => exact h
  · next h => exact h
  · split
    · trivial
    · split
      · trivial
      · split
        · trivial
        · split
          · split <;> trivial
          · exact pointsInto_finding hi _
  · exact pointsInto_finding hi _

theorem sound_form (hi : i.Stands v) : Sound v (Form.Reads i) (form i) := by
  unfold form
  refine (sound_kind hi).bind fun k hk => ?_
  cases k with
  | flag => exact ⟨trivial, nofun⟩
  | file =>
    dsimp -zeta only
    split
    · exact pointsInto_finding hi _
    · exact ⟨trivial, nofun⟩
  | text | integer | number | subcommand | union => exact ⟨hk, fun w hw => hw⟩

end

section
variable {v : Json} {nested : Nested}
  (hn : ∀ {path d} m, v.get? path = some d → Finds v (nested path d m) fun _ => True)
include hn

theorem finds_alternativeTrees {i : Input} {os : List (Nat × Json)}
    (h : ∀ e ∈ os, v.get? (i.path ++ [.key "type", .index e.1]) = some e.2) :
    Finds v (alternativeTrees nested i os) fun _ => True := by
  induction os with
  | nil => exact .pure trivial
  | cons e os ih =>
    obtain ⟨n, o⟩ := e
    obtain ⟨ho, hos⟩ := List.forall_mem_cons.1 h
    exact (hn _ ho).bind fun _ _ => (ih hos).bind fun _ _ => .pure trivial

theorem finds_unionTree {i : Input} (hi : i.Stands v) {vs : List Json}
    (h : i.object.member? "type" = some (.arr vs)) :
    Finds v (unionTree nested i vs).run (Sound v fun _ => True) := by
  unfold unionTree
  refine (Finds.lift (finds_alternatives (items_of_member hi h))).bindInput fun os hos => ?_
  split
  · exact .throw (pointsInto_findingAt hi h _)
  · exact .lift (hn _ (hos _ List.mem_cons_self))
  · refine (Finds.lift (finds_alternativeTrees hn hos)).bindInput fun ts _ => ?_
    exact .lift (.record _)

theorem finds_kindTree {i : Input} (hi : i.Stands v) {k : Kind} (hk : k.Reads i) :
    Finds v (kindTree nested i k).run (Sound v fun _ => True) := by
  cases k with
  | text | number | file => exact .lift (.record _)
  | integer =>
    have hleaf := addsOnly_integerLeaf (allows_pointsInto hi)
    exact (Finds.lift (.of_addsOnly hleaf)).bindInput fun u _ => .lift (.record _)
  | flag =>
    unfold kindTree
    dsimp only
    split
    · exact .throw (pointsInto_finding hi _)
    · exact (Finds.lift (.record _)).bindInput fun t _ => .lift (.record _)
  | subcommand d => exact .lift (hn _ (get?_member hi hk))
  | union vs => exact finds_unionTree hn hi hk

theorem finds_inputTree {i : Input} (hi : i.Stands v) :
    Finds v (inputTree nested i).run (Sound v fun _ => True) := by
  unfold inputTree
  refine (Finds.ofExcept (sound_form hi)).bindInput fun f hf => ?_
  have hwrapped := fun t => Finds.of_addsOnly (addsOnly_wrapped (allows_pointsInto hi) f t)
  split
  · next w hw =>
    exact (finds_choiceTree hi (hf.choices w hw)).bindInput fun t _ => .lift (hwrapped t)
  · exact finds_kindTree hn hi trivial
  · exact (finds_kindTree hn hi hf.kind).bindInput fun t _ => .lift (hwrapped t)

theorem finds_input? {i : Input} (hi : i.Stands v) :
    Finds v (input? nested i) fun _ => True :=
  (finds_inputTree hn hi).bind fun r hr => match r with
    | .ok _ => .pure trivial
    | .error _ => (Finds.note hr).bind fun _ _ => .pure trivial

theorem finds_pieceTrees {ps : List (Template.Fragment Input)}
    (h : ∀ key i, Template.Fragment.payload key i ∈ ps → i.Stands v) :
    Finds v (pieceTrees nested ps) fun _ => True := by
  induction ps with
  | nil => exact .pure trivial
  | cons p ps ih =>
    have hps := ih fun key i hmem => h key i (List.mem_cons_of_mem p hmem)
    cases p with
    | literal text => exact (Finds.record _).bind fun _ _ => hps.bind fun _ _ => .pure trivial
    | payload key i =>
      refine (finds_input? hn (h key i List.mem_cons_self)).bind fun t? _ => hps.bind fun r _ => ?_
      exact .pure trivial

theorem finds_tokenTrees {table : OrderedMap String Input} (h : ∀ e ∈ table, e.2.Stands v)
    (tokens : List String) : Finds v (tokenTrees nested table tokens) fun _ => True := by
  induction tokens with
  | nil => exact .pure trivial
  | cons token tokens ih =>
    unfold tokenTrees
    have hpieces : Finds v (pieceTrees nested (Template.destructure table token)) fun _ => True :=
      finds_pieceTrees hn fun key i hmem => h _ (Template.mem_of_mem_destructure hmem)
    refine hpieces.bind fun r _ => ?_
    obtain ⟨pieces, ids⟩ := r
    dsimp -zeta only
    extract_lets next
    have hnext : ∀ ts, Finds v (next ts) fun _ => True := fun _ => ih.bind fun _ _ => .pure trivial
    split
    · exact hnext []
    · next t => exact hnext [t]
    · exact (Finds.record _).bind fun t _ => hnext [t]

end

section
variable {v d : Json} {path : Json.Path} (h : v.get? path = some d)
include h

theorem finds_tokensOf : Finds v (tokensOf path d) fun _ => True := by
  unfold tokensOf
  split
  · exact (Finds.note ⟨_, _, rfl, h⟩).bind fun _ _ => .pure trivial
  · next w hw =>
    split
    · exact .pure trivial
    · exact (Finds.note ⟨_, _, rfl, get?_member h hw⟩).bind fun _ _ => .pure trivial

omit h in
theorem finds_pathParts (placed : List String) {unplaced : String → Finding}
    (hu : ∀ id, (unplaced id).PointsInto v) (ps : List (Template.Fragment Input)) :
    Finds v (pathParts placed unplaced ps) fun _ => True := by
  induction ps with
  | nil => exact .pure trivial
  | cons p ps ih =>
    cases p with
    | literal text => exact ih.bind fun _ _ => .pure trivial
    | payload key i =>
      unfold pathParts
      extract_lets name parts
      have hparts : ∀ r, Finds v (parts r) fun _ => True := fun _ => ih.bind fun _ _ => .pure trivial
      split
      · exact (Finds.note (hu _)).bind fun r _ => hparts r
      · exact hparts ()

omit h in
theorem finds_outputs (table : OrderedMap String Input) (placed : List String) {n : Nat}
    {vs : List Json} (hvs : Items v path "output-files" n vs) :
    Finds v (outputs path table placed n vs) fun _ => True := by
  induction vs generalizing n with
  | nil => exact .pure trivial
  | cons w vs ih =>
    unfold outputs
    split
    · exact ih hvs.tail
    · extract_lets name unplaced rest
      have hrest : ∀ parts, Finds v (rest parts) fun _ => True :=
        fun _ => (ih hvs.tail).bind fun _ _ => .pure trivial
      split
      · exact hrest []
      · exact (finds_pathParts placed (fun id => ⟨_, _, rfl, hvs.head⟩) _).bind
          fun parts _ => hrest parts

theorem finds_treeOver {nested : Nested}
    (hn : ∀ {path d} m, v.get? path = some d → Finds v (nested path d m) fun _ => True)
    (m : Option Metadata) : Finds v (treeOver nested path d m) fun _ => True := by
  refine (finds_tokensOf h).bind fun tokens _ => ?_
  refine (finds_tokenTrees hn (stands_inputTable h) tokens).bind fun r _ => ?_
  refine (finds_outputs _ r.2 (items_listAt h "output-files")).bind fun os _ => ?_
  exact .record _

theorem finds_tree (depth : Nat) (m : Option Metadata) :
    Finds v (tree depth path d m) fun _ => True := by
  induction depth generalizing path d m with
  | zero => exact finds_treeOver h (fun _ _ => .record _) m
  | succ depth ih => exact finds_treeOver h (fun m h => ih h m) m

end

theorem pointsInto_parse {source : String} {v : Json} (h : Json.read source = .ok v) :
    ∀ f ∈ (parse source).findings, f.PointsInto v := by
  have hrejected (issue : Issue) :
      ∀ f ∈ (Parsed.rejected ⟨issue, some []⟩).findings, f.PointsInto v :=
    List.forall_mem_singleton.2 ⟨[], v, rfl, rfl⟩
  unfold parse
  rw [h]
  dsimp only
  split
  · exact hrejected _
  · next d hd =>
    split
    · exact hrejected _
    · next app _ =>
      obtain rfl := eq_of_object? hd
      have hroot : v.get? [] = some v := rfl
      exact (finds_tree hroot Json.Reader.deepest (some (named app.id)) [] {} nofun).1

/-- Every diagnostic of a document that can be read has a location, and it is a lone slash for the
document itself or a path that leads to a value in it. -/
theorem parse_located {source : String} {v : Json} (h : Json.read source = .ok v) :
    ∀ d ∈ (parse source).diagnostics,
      ∃ p w, d.location = some (Finding.pathText p) ∧ v.get? p = some w := by
  intro d hd
  obtain ⟨f, hf, rfl⟩ := List.mem_map.1 hd
  obtain ⟨p, w, hp, hw⟩ := pointsInto_parse h f hf
  exact ⟨p, w, congrArg (Option.map Finding.pathText) hp, hw⟩

def subcommandSource : String :=
  "\x7b\"id\":\"t\",\"command-line\":\"[S]\",\"inputs\":[3,\x7b\"value-key\":\"[S]\",\"type\":[1,\x7b\"id\":\"u\"\x7d]\x7d]\x7d"

def subcommandDocument : Json :=
  .obj [("id", .str "t"), ("command-line", .str "[S]"), ("inputs", .arr [.int 3,
    .obj [("value-key", .str "[S]"), ("type", .arr [.int 1, .obj [("id", .str "u")]])]])]

theorem parse_located_subcommand : Json.read subcommandSource = .ok subcommandDocument ∧
    (parse subcommandSource).diagnostics.map Diagnostic.location =
      [some "/inputs/1/type/0", some "/inputs/1/type/1"] ∧
    ∀ d ∈ (parse subcommandSource).diagnostics, ∃ p w,
      d.location = some (Finding.pathText p) ∧ subcommandDocument.get? p = some w := by
  have hread : Json.read subcommandSource = .ok subcommandDocument := by cbv
  exact ⟨hread, by decide +kernel, parse_located hread⟩

end Descriptor
end ToolBindings
