import ToolBindings.Proofs.Accepted
import ToolBindings.Proofs.Findings

/-!
# References of outputs

The path of an output refers to inputs, and a reference to an input that is not placed on the command line
is reported. What counts as placed is a set of ids: a placed input without an id is not in it, and an input
that is not placed is, if a placed input has its id (`tree_reports`).
-/
namespace ToolBindings

def Template.Fragment.entry? {α : Type} : Fragment α → Option (String × α)
  | .literal _ => none
  | .payload key value => some (key, value)

namespace Descriptor
open ToolBindings.Tree

def placeholders (table : OrderedMap String Input) (text : String) : List (String × Input) :=
  (Template.destructure table text).filterMap Template.Fragment.entry?

def commandTokens (descriptor : Json) : List String :=
  ((descriptor.member? "command-line").bind fun t => (Template.tokensOf t.str?).toOption).getD []

/-- The placeholders on the command line that became a tree. -/
def placed (path : Json.Path) (descriptor : Json) : List (String × Input) :=
  ((commandTokens descriptor).flatMap (placeholders (inputTable path descriptor))).filter
    (·.2.isAccepted)

structure Reference where
  /-- The number of the output in its list. -/
  number : Nat
  output : Option String
  key : String
  input : Input

namespace Reference

def id (r : Reference) : String := r.input.id?.getD r.key

def warning (path : Json.Path) (r : Reference) : Finding :=
  ⟨.unplacedInput (r.output.getD "<unnamed>") r.id,
    some (path ++ [.key "output-files", .index r.number])⟩

/-- No input that is placed has the id of the reference. -/
def Misses (ps : List (String × Input)) (r : Reference) : Prop := ∀ p ∈ ps, p.2.id? ≠ some r.id

/-- The placeholder of the reference is placed. -/
def Placed (ps : List (String × Input)) (r : Reference) : Prop := r.key ∈ ps.map Prod.fst

instance (ps : List (String × Input)) (r : Reference) : Decidable (r.Misses ps) :=
  inferInstanceAs (Decidable (∀ p ∈ ps, p.2.id? ≠ some r.id))

instance (ps : List (String × Input)) (r : Reference) : Decidable (r.Placed ps) :=
  inferInstanceAs (Decidable (r.key ∈ ps.map Prod.fst))

end Reference

def referencesOf (table : OrderedMap String Input) (n : Nat) (output : Json) : List Reference :=
  match text? "path-template" output with
  | none => []
  | some template =>
    (placeholders table template).map fun p => ⟨n, text? "id" output, p.1, p.2⟩

def referencesFrom (table : OrderedMap String Input) (n : Nat) (vs : List Json) : List Reference :=
  (vs.zipIdx n).flatMap fun e => ((object? e.1).map (referencesOf table e.2)).getD []

def references (path : Json.Path) (descriptor : Json) : List Reference :=
  referencesFrom (inputTable path descriptor) 0 (listAt "output-files" descriptor)

theorem returns_tokensOf (path : Json.Path) (d : Json) :
    Returns (tokensOf path d) (· = commandTokens d) := by
  unfold tokensOf commandTokens
  cases d.member? "command-line" with
  | none => exact (Returns.any _).bind fun _ _ => .pure rfl
  | some template =>
    dsimp only [Option.bind_some]
    cases Template.tokensOf template.str? with
    | ok tokens => exact .pure rfl
    | error e => exact (Returns.any _).bind fun _ _ => .pure rfl

section
variable (nested : Nested)

theorem returns_pieceIds (ps : List (Template.Fragment Input)) :
    Returns (pieceTrees nested ps) fun r => r.2 =
      ((ps.filterMap Template.Fragment.entry?).filter (·.2.isAccepted)).filterMap (·.2.id?) := by
  induction ps with
  | nil => exact .pure rfl
  | cons p ps ih =>
    cases p with
    | literal text => exact (Returns.any _).bind fun _ _ => ih.bind fun _ hids => .pure hids
    | payload key i =>
      refine (becomes_input? i nested).bind fun t? ht => ih.bind fun r hids => ?_
      rw [List.filterMap_cons_some (f := Template.Fragment.entry?) rfl, List.filter_cons, ← ht]
      cases t? with
      | some t =>
        refine .pure ?_
        rw [if_pos Option.isSome_some, List.filterMap_cons, ← hids]
        dsimp only
        cases i.id? <;> rfl
      | none => exact .pure hids

theorem returns_tokenIds (table : OrderedMap String Input) (tokens : List String) :
    Returns (tokenTrees nested table tokens) fun r => r.2 =
      ((tokens.flatMap (placeholders table)).filter (·.2.isAccepted)).filterMap (·.2.id?) := by
  induction tokens with
  | nil => exact .pure rfl
  | cons token tokens ih =>
    unfold tokenTrees
    rw [List.flatMap_cons, List.filter_append, List.filterMap_append]
    refine (returns_pieceIds nested _).bind fun r hids => ?_
    obtain ⟨pieces, ids⟩ := r
    dsimp -zeta only at hids ⊢
    extract_lets next
    have hnext : ∀ ts, Returns (next ts) fun r => r.2 = ids ++
        ((tokens.flatMap (placeholders table)).filter (·.2.isAccepted)).filterMap (·.2.id?) :=
      fun ts => ih.bind fun r hr => .pure (congrArg (ids ++ ·) hr)
    rw [placeholders, ← hids]
    split
    · exact hnext []
    · next t => exact hnext [t]
    · exact (Returns.any _).bind fun t _ => hnext [t]

end

def AddsJust {α : Type} (new : List Finding) (x : Builder α) : Prop := Adds x fun _ ws => ws = new

namespace AddsJust
variable {α β : Type} {ws new : List Finding}

theorem pure (r : α) : AddsJust [] (Pure.pure r) := Adds.pure rfl

theorem note (f : Finding) : AddsJust [f] (note f) := Adds.note rfl

theorem bind {x : Builder α} {f : α → Builder β} (hx : AddsJust ws x)
    (hf : ∀ r, AddsJust new (f r)) : AddsJust (ws ++ new) (x >>= f) :=
  Adds.bind hx fun r _ hws => (hf r).imp fun _ _ hnew => congrArg₂ (· ++ ·) hws hnew

theorem bindPure {x : Builder α} (hx : AddsJust ws x) (f : α → β) :
    AddsJust ws (x >>= fun r => Pure.pure (f r)) :=
  List.append_nil ws ▸ hx.bind fun _ => .pure _

end AddsJust

theorem addsJust_pathParts (ids : List String) (unplaced : String → Finding)
    (ps : List (Template.Fragment Input)) :
    AddsJust ((((ps.filterMap Template.Fragment.entry?).map fun p => p.2.id?.getD p.1).filter
      (· ∉ ids)).map unplaced) (pathParts ids unplaced ps) := by
  induction ps with
  | nil => exact .pure []
  | cons p ps ih =>
    cases p with
    | literal text => exact ih.bindPure _
    | payload key i =>
      unfold pathParts
      extract_lets name parts
      have hparts := fun r => (ih.bindPure _ : AddsJust _ (parts r))
      rw [List.filterMap_cons_some (f := Template.Fragment.entry?) rfl, List.map_cons]
      split
      · next hid =>
        rw [List.filter_cons_of_pos (p := (decide <| · ∉ ids)) (decide_eq_true hid), List.map_cons]
        exact (AddsJust.note _).bind hparts
      · next hid =>
        rw [List.filter_cons_of_neg (p := (decide <| · ∉ ids)) (by simpa using hid)]
        exact hparts ()

theorem map_warning (path : Json.Path) (ids : List String) (n : Nat) (name : Option String)
    (ps : List (String × Input)) :
    ((ps.map fun p => (⟨n, name, p.1, p.2⟩ : Reference)).filter (·.id ∉ ids)).map (·.warning path) =
      ((ps.map fun p => p.2.id?.getD p.1).filter (· ∉ ids)).map fun id =>
        ⟨.unplacedInput (name.getD "<unnamed>") id,
          some (path ++ [.key "output-files", .index n])⟩ := by
  rw [List.filter_map, List.filter_map, List.map_map, List.map_map]
  rfl

theorem addsJust_outputs (path : Json.Path) (table : OrderedMap String Input) (ids : List String)
    (n : Nat) (vs : List Json) :
    AddsJust (((referencesFrom table n vs).filter (·.id ∉ ids)).map (·.warning path))
      (outputs path table ids n vs) := by
  induction vs generalizing n with
  | nil => exact .pure []
  | cons v vs ih =>
    unfold outputs
    rw [referencesFrom, List.zipIdx_cons, List.flatMap_cons, List.filter_append, List.map_append]
    dsimp only
    cases object? v with
    | none => exact ih (n + 1)
    | some o =>
      rw [Option.map_some, Option.getD_some, referencesOf]
      dsimp only
      cases text? "path-template" o with
      | none => exact (AddsJust.pure []).bind fun _ => (ih (n + 1)).bindPure _
      | some template =>
        dsimp only
        rw [map_warning, placeholders]
        exact (addsJust_pathParts ids _ _).bind fun _ => (ih (n + 1)).bindPure _

theorem Adds.returning {α : Type} {x : Builder α} {Q : α → List Finding → Prop} {P : α → Prop}
    (hx : Adds x Q) (hr : Returns x P) : Adds x fun r new => P r ∧ Q r new := fun fs a => by
  obtain ⟨new, hnew, hq⟩ := hx fs a
  exact ⟨new, hnew, hr fs a, hq⟩

theorem misses_iff {ps : List (String × Input)} {r : Reference} :
    r.id ∉ ps.filterMap (·.2.id?) ↔ r.Misses ps := by
  simp [Reference.Misses]

def reports (path : Json.Path) (descriptor : Json) : List Finding :=
  ((references path descriptor).filter (·.Misses (placed path descriptor))).map (·.warning path)

section
variable {nested : Nested} (hn : ∀ path d m, AddsOnly (Finding.Under path) (nested path d m))
include hn

theorem adds_treeOver (path : Json.Path) (d : Json) (m : Option Metadata) :
    Adds (treeOver nested path d m) fun _ new => ∃ others,
      (∀ f ∈ others, f.BesidesOutputs path) ∧ new = others ++ reports path d := by
  have htokens := (addsOnly_tokensOf path d).returning (returns_tokensOf path d)
  refine Adds.bind htokens fun tokens ws ⟨htokens, hws⟩ => ?_
  have htrees := (addsOnly_tokenTrees hn (prefix_inputTable path d) tokens).returning
    (returns_tokenIds nested _ tokens)
  refine Adds.bind htrees fun ⟨ts, ids⟩ ws' ⟨hids, hws'⟩ => ?_
  refine Adds.bind (addsJust_outputs path _ ids 0 _) fun os new hnew => Adds.record fun _ => ?_
  -- The outputs are checked against the ids of what the tokens left.
  refine ⟨ws ++ ws', List.forall_mem_append.2 ⟨hws, fun f hf => ?_⟩, ?_⟩
  · exact Finding.besidesOutputs_of_member (hws' f hf) (by decide)
  · dsimp only at hids
    rw [hnew, hids, htokens, List.append_nil, ← List.append_assoc]
    simp only [misses_iff]
    rfl

theorem addsOnly_treeOver (path : Json.Path) (d : Json) (m : Option Metadata) :
    AddsOnly (Finding.Under path) (treeOver nested path d m) := by
  refine (adds_treeOver hn path d m).imp fun _ new ⟨others, hothers, hnew⟩ => ?_
  rw [hnew]
  refine List.forall_mem_append.2 ⟨fun f hf => (hothers f hf).under, fun f hf => ?_⟩
  obtain ⟨r, -, rfl⟩ := List.mem_map.1 hf
  have hwithin : (r.warning path).Within (path ++ [.key "output-files", .index r.number]) :=
    ⟨[], by simp [Reference.warning]⟩
  exact hwithin.under (List.cons_ne_nil _ _)

end

theorem addsOnly_tree (depth : Nat) (path : Json.Path) (d : Json) (m : Option Metadata) :
    AddsOnly (Finding.Under path) (tree depth path d m) := by
  induction depth generalizing path d m with
  | zero => exact addsOnly_treeOver (fun _ _ _ => .record _) path d m
  | succ depth ih => exact addsOnly_treeOver ih path d m

theorem adds_tree (depth : Nat) (path : Json.Path) (d : Json) (m : Option Metadata) :
    Adds (tree depth path d m) fun _ new => ∃ others,
      (∀ f ∈ others, f.BesidesOutputs path) ∧ new = others ++ reports path d := by
  cases depth with
  | zero => exact adds_treeOver (fun _ _ _ => .record _) path d m
  | succ depth => exact adds_treeOver (addsOnly_tree depth) path d m

theorem find?_of_mem_placeholders {table : OrderedMap String Input} {text : String}
    {p : String × Input} (h : p ∈ placeholders table text) : table.find? p.1 = some p.2 := by
  obtain ⟨f, hf, hp⟩ := List.mem_filterMap.1 h
  cases f with
  | literal text => cases hp
  | payload key i =>
    cases hp
    exact (Template.payload_of_mem hf).2

theorem find?_of_mem_placed {path : Json.Path} {d : Json} {p : String × Input}
    (h : p ∈ placed path d) : (inputTable path d).find? p.1 = some p.2 := by
  obtain ⟨token, -, hp⟩ := List.mem_flatMap.1 (List.mem_filter.1 h).1
  exact find?_of_mem_placeholders hp

theorem find?_of_mem_references {path : Json.Path} {d : Json} {r : Reference}
    (h : r ∈ references path d) : (inputTable path d).find? r.key = some r.input := by
  obtain ⟨⟨v, n⟩, -, hr⟩ := List.mem_flatMap.1 h
  dsimp only at hr
  cases ho : object? v with
  | none =>
    rw [ho] at hr
    cases hr
  | some o =>
    rw [ho, Option.map_some, Option.getD_some, referencesOf] at hr
    cases htemplate : text? "path-template" o with
    | none =>
      rw [htemplate] at hr
      cases hr
    | some template =>
      rw [htemplate] at hr
      obtain ⟨p, hp, rfl⟩ := List.mem_map.1 hr
      exact find?_of_mem_placeholders hp

/-- A key that is referred to and a key that is placed stand for the same input. -/
theorem input_placed {path : Json.Path} {d : Json} {r : Reference} (hr : r ∈ references path d)
    (hplaced : r.Placed (placed path d)) : ∃ p ∈ placed path d, p.2 = r.input := by
  obtain ⟨p, hp, hkey⟩ := List.mem_map.1 hplaced
  refine ⟨p, hp, ?_⟩
  have hinput := find?_of_mem_placed hp
  rw [hkey, find?_of_mem_references hr] at hinput
  exact (Option.some.inj hinput).symm

/-- The findings of the outputs come last: a warning for each reference whose id no placed input has. Such a
warning tells of a reference whether its placeholder is placed exactly if, where it is placed, its input has
an id or its key is the id of a placed input, and where it is not, no placed input has its id. What is placed
stands on the command line and became a tree. -/
theorem tree_reports (depth : Nat) (path : Json.Path) (d : Json) (m : Option Metadata)
    (fs : List Finding) (a : Arena) :
    (∃ others, (((tree depth path d m).run fs).run a).1.2 = fs ++ others ++
        ((references path d).filter (·.Misses (placed path d))).map (·.warning path) ∧
      ∀ f ∈ others, ¬ f.Within (path ++ [.key "output-files"])) ∧
    (∀ r ∈ references path d,
      (r.Misses (placed path d) ↔ ¬ r.Placed (placed path d)) ↔
        (r.Placed (placed path d) → r.input.id? = none →
          ∃ p ∈ placed path d, p.2.id? = some r.key) ∧
        (¬ r.Placed (placed path d) → ∀ p ∈ placed path d, p.2.id? ≠ some r.id)) ∧
    ∀ (nested : Nested) (i : Input) (gs : List Finding) (b : Arena),
      (((input? nested i).run gs).run b).1.1.isSome = i.isAccepted := by
  refine ⟨?_, fun r hr => ?_, fun nested i => becomes_input? i nested⟩
  · obtain ⟨new, hnew, others, hothers, rfl⟩ := adds_tree depth path d m fs a
    refine ⟨others, ?_, fun f hf => (hothers f hf).besides⟩
    rw [hnew, List.append_assoc]
    rfl
  · by_cases hplaced : r.Placed (placed path d)
    · obtain ⟨p, hp, hinput⟩ := input_placed hr hplaced
      cases hid : r.input.id? with
      | some id =>
        -- The placed input itself has the id.
        have hp : ¬ r.Misses (placed path d) := fun hmisses =>
          hmisses p hp (by rw [hinput, Reference.id, hid, Option.getD_some])
        simp [hplaced, hp]
      | none =>
        -- Nothing was kept of the placed input, and the reference goes by its key.
        have hid : r.id = r.key := by rw [Reference.id, hid, Option.getD_none]
        simp [hplaced, Reference.Misses, hid]
    · simp [hplaced, Reference.Misses]

def namelessDocument : Json :=
  .obj [("id", .str "t"), ("command-line", .str "[A]"),
    ("inputs", .arr [.obj [("value-key", .str "[A]"), ("type", .str "String")]]),
    ("output-files", .arr [.obj [("id", .str "o"), ("path-template", .str "[A].txt")]])]

def sharedDocument : Json :=
  .obj [("id", .str "t"), ("command-line", .str "[A]"),
    ("inputs", .arr [
      .obj [("id", .str "x"), ("value-key", .str "[A]"), ("type", .str "String")],
      .obj [("id", .str "x"), ("value-key", .str "[B]"), ("type", .str "String")]]),
    ("output-files", .arr [.obj [("id", .str "o"), ("path-template", .str "[B].txt")]])]

theorem reports_ne_unplaced :
    (∀ r ∈ references [] namelessDocument, r.Placed (placed [] namelessDocument)) ∧
      ((((tree 0 [] namelessDocument none).run []).run {}).1.2.map fun f =>
        (f.issue.code, f.location)) = [("W0201", some [.key "output-files", .index 0])] ∧
    (∃ r ∈ references [] sharedDocument, ¬ r.Placed (placed [] sharedDocument)) ∧
      (((tree 0 [] sharedDocument none).run []).run {}).1.2.isEmpty = true := by
  decide +kernel

end Descriptor
end ToolBindings
