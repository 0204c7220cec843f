import ToolBindings.Proofs.Formed
import ToolBindings.Proofs.DoubleValue

/-!
# Bounds of integers

The minimum and the maximum of an integer are read as doubles, moved to the nearest end of the range of 64
bits if they are beyond it, and taken down to an integer; a bound that is exclusive then moves by one, but
not out of the range. So the bounds of the leaf are the floors of what was read (`integer?_eq`), and within
the range they admit the integers that the declared bounds admit (`input?_integerBounds`).
-/
namespace ToolBindings

namespace Json

def value? : Json → Option ℚ
  | int n => some (n : ℚ)
  | double x => x.value?
  | _ => none

/-- An integer among the values has at most 53 bits. -/
def IsShort (v : Json) : Prop := ∀ n, v = int n → n.natAbs ≤ Binary64.significandBound

/-- What has at most 53 bits is not rounded where a double is read. -/
theorem value?_of_double {v : Json} (h : v.IsShort) : v.double?.bind Binary64.value? = v.value? := by
  cases v with
  | int n => exact Binary64.value?_ofInt (h n rfl)
  | null | bool | double | str | arr | obj => rfl

end Json

namespace Tree

theorem values_eq_preorder (t : Tree) : t.values = t.preorder.filter isValue := by
  rw [values, walk_eq_preorder]

theorem values_terminal {id : NodeId} {m : Option Metadata} {u : Terminal} (h : u.isLiteral = false) :
    (terminal id m u).values = [terminal id m u] := by
  rw [values_eq_preorder, preorder]
  exact List.filter_cons_of_pos (by rw [isValue, h]; rfl)

theorem values_wrap (id : NodeId) (m : Option Metadata) (w : Wrapper) (c : Tree) :
    (wrap id m w c).values = c.values := by
  rw [values_eq_preorder, values_eq_preorder, preorder]
  exact List.filter_cons_of_neg Bool.false_ne_true

theorem values_flagged (id id' : NodeId) (m m' : Option Metadata) (g : Group) (text : String)
    (t : Tree) : (group id m g [terminal id' m' (.literal text), t]).values = t.values := by
  simp [values_eq_preorder, preorder, preorderAll, isValue, Terminal.isLiteral]

end Tree

namespace Descriptor
open ToolBindings.Tree

theorem values_wrapped (i : Input) (f : Form) (t : Tree) :
    Returns (wrapped i f t) fun t' => t'.values = t.values := by
  refine returns_wrapped_of i (Q := fun t' => t'.values = t.values) (fun _ _ _ _ hc => ?_)
    (fun _ _ _ _ hc => ?_) f rfl
  · exact (values_wrap ..).trans hc
  · exact (values_flagged ..).trans hc

def withinRange (q : ℚ) : ℚ := max Reading.leastInt (min Reading.greatestInt q)

/-- A declared bound as it is read. -/
def bound? (key : String) (v : Json) : Option ℚ :=
  ((number? key v).bind Binary64.value?).map withinRange

theorem le_withinRange (q : ℚ) : (Reading.leastInt : ℚ) ≤ withinRange q := le_max_left _ _

theorem withinRange_le (q : ℚ) : withinRange q ≤ (Reading.greatestInt : ℚ) :=
  max_le (Int.cast_le.2 (by decide)) (min_le_left _ _)

theorem clamp_floor (q : ℚ) : clamp ⌊q⌋ = ⌊withinRange q⌋ := by
  rw [clamp, withinRange, Int.floor_mono.map_max, Int.floor_mono.map_min, Int.floor_intCast,
    Int.floor_intCast]

theorem integer?_eq (key : String) (v : Json) : integer? key v = (bound? key v).map Int.floor := by
  unfold integer? bound? number?
  cases (v.member? key).bind Json.double? with
  | none => rfl
  | some x =>
    rw [Option.bind_some, Option.bind_some, Binary64.floor?_eq, Option.map_map, Option.map_map]
    exact congrArg (Option.map · x.value?) (funext clamp_floor)

theorem mem_range_of_bound? {key : String} {v : Json} {q : ℚ} (h : bound? key v = some q) :
    (Reading.leastInt : ℚ) ≤ q ∧ q ≤ Reading.greatestInt := by
  obtain ⟨r, -, rfl⟩ := Option.map_eq_some_iff.1 h
  exact ⟨le_withinRange r, withinRange_le r⟩

def lowest? (o : Json) : Option Int :=
  (integer? "minimum" o).map fun n => if isTrue "exclusive-minimum" o then clamp (n + 1) else n

def highest? (o : Json) : Option Int :=
  (integer? "maximum" o).map fun n => if isTrue "exclusive-maximum" o then clamp (n - 1) else n

theorem clamp_add_one_le_iff {k n : Int} (hk : Reading.leastInt ≤ k)
    (hn : n ≤ Reading.greatestInt) : clamp (k + 1) ≤ n ↔ k < n ∨ n = Reading.greatestInt := by
  unfold clamp Reading.leastInt Reading.greatestInt at *
  omega

theorem le_clamp_sub_one_iff {k n : Int} (hk : k ≤ Reading.greatestInt)
    (hn : Reading.leastInt ≤ n) : n ≤ clamp (k - 1) ↔ n < k ∨ n = Reading.leastInt := by
  unfold clamp Reading.leastInt Reading.greatestInt at *
  omega

theorem lowest_le_iff {o : Json} (hwhole : isTrue "exclusive-minimum" o = false →
    ∀ q ∈ bound? "minimum" o, (⌊q⌋ : ℚ) = q) {n : Int} (hn : n ≤ Reading.greatestInt) :
    (∀ l ∈ lowest? o, l ≤ n) ↔ ∀ q ∈ bound? "minimum" o, q ≤ n ∧
      (isTrue "exclusive-minimum" o = true → q < n ∨ n = Reading.greatestInt) := by
  rw [lowest?, integer?_eq]
  cases hbound : bound? "minimum" o with
  | none => simp
  | some q =>
    obtain ⟨hlow, hhigh⟩ := mem_range_of_bound? hbound
    simp only [Option.map_some, Option.mem_some, forall_eq']
    cases hexclusive : isTrue "exclusive-minimum" o with
    | false =>
      -- A bound without a fraction is its floor; with one, the floor would admit too much.
      rw [if_neg Bool.false_ne_true, ← Int.cast_le (R := ℚ), hwhole hexclusive q hbound]
      exact (and_iff_left nofun).symm
    | true =>
      -- One more than the floor is the least integer past the bound, with a fraction or without.
      rw [if_pos rfl, clamp_add_one_le_iff (Int.le_floor.2 hlow) hn, Int.floor_lt]
      refine ⟨fun h => ⟨?_, fun _ => h⟩, fun h => h.2 rfl⟩
      rcases h with h | rfl
      · exact h.le
      · exact hhigh

theorem le_highest_iff {o : Json} (hwhole : isTrue "exclusive-maximum" o = true →
    ∀ q ∈ bound? "maximum" o, (⌊q⌋ : ℚ) = q) {n : Int} (hn : Reading.leastInt ≤ n) :
    (∀ h ∈ highest? o, n ≤ h) ↔ ∀ q ∈ bound? "maximum" o, n ≤ q ∧
      (isTrue "exclusive-maximum" o = true → n < q ∨ n = Reading.leastInt) := by
  rw [highest?, integer?_eq]
  cases hbound : bound? "maximum" o with
  | none => simp
  | some q =>
    obtain ⟨hlow, hhigh⟩ := mem_range_of_bound? hbound
    simp only [Option.map_some, Option.mem_some, forall_eq']
    cases hexclusive : isTrue "exclusive-maximum" o with
    | false =>
      rw [if_neg Bool.false_ne_true, Int.le_floor]
      exact (and_iff_left nofun).symm
    | true =>
      have hfloor : ⌊q⌋ ≤ Reading.greatestInt := Int.cast_le.1 ((Int.floor_le q).trans hhigh)
      rw [if_pos rfl, le_clamp_sub_one_iff hfloor hn, ← Int.cast_lt (R := ℚ),
        hwhole hexclusive q hbound]
      refine ⟨fun h => ⟨?_, fun _ => h⟩, fun h => h.2 rfl⟩
      rcases h with h | rfl
      · exact h.le
      · exact hlow

theorem returns_integerLeaf (i : Input) :
    Returns (integerLeaf i) (· = .int (lowest? i.object) (highest? i.object)) := by
  unfold integerLeaf
  extract_lets o lo hi leaf
  have hleaf : ∀ r, Returns (leaf r) (· = .int lo hi) := fun _ => .pure rfl
  change Returns _ fun u => u = Terminal.int lo hi
  split
  · split
    · exact (Returns.any _).bind fun r _ => hleaf r
    · exact hleaf ()
  · exact hleaf ()

theorem form_integer {i : Input} (htype : i.object.member? "type" = some (.str "Number"))
    (hinteger : isTrue "integer" i.object = true) (hchoices : i.object.member? "value-choices" = none) :
    form i = .ok ⟨.integer, isTrue "list" i.object, isTrue "optional" i.object, none⟩ := by
  have hkind : kind i = .ok .integer := by simp [kind, htype, hinteger]
  unfold form
  rw [hkind, hchoices]
  rfl

theorem returns_integerTree (nested : Nested) (i : Input) :
    Returns (kindTree nested i .integer).run fun r => ∃ id, r = .ok
      (terminal id (metadata? i.object) (.int (lowest? i.object) (highest? i.object))) :=
  Returns.bind (f := fun u => (liftM (newTerminal (metadata? i.object) u) : InputBuilder Tree).run)
    (returns_integerLeaf i) fun _ hu => hu ▸ fun _ _ => ⟨_, rfl⟩

theorem returns_integerInput (nested : Nested) {i : Input}
    (htype : i.object.member? "type" = some (.str "Number"))
    (hinteger : isTrue "integer" i.object = true) (hchoices : i.object.member? "value-choices" = none) :
    Returns (input? nested i) fun t? => ∃ t id, t? = some t ∧
      t.values = [terminal id (metadata? i.object) (.int (lowest? i.object) (highest? i.object))] := by
  have htree : Returns (inputTree nested i).run fun r => ∃ t id, r = .ok t ∧
      t.values = [terminal id (metadata? i.object)
        (.int (lowest? i.object) (highest? i.object))] := by
    unfold inputTree
    rw [form_integer htype hinteger hchoices]
    refine Returns.bind (f := ExceptT.bindCont fun t => (liftM (wrapped i _ t) : InputBuilder Tree))
      (returns_integerTree nested i) fun r hr => ?_
    obtain ⟨id, rfl⟩ := hr
    intro fs a
    refine ⟨_, id, rfl, (values_wrapped i _ _ fs a).trans (values_terminal rfl)⟩
  refine htree.bind fun r hr => ?_
  obtain ⟨t, id, rfl, hvalues⟩ := hr
  exact .pure ⟨t, id, rfl, hvalues⟩

theorem bound?_of_short {key : String} {o v : Json} (hv : o.member? key = some v) (h : v.IsShort) :
    bound? key o = v.value?.map withinRange := by
  rw [bound?, number?, hv, Option.bind_some, Json.value?_of_double h]

theorem withinRange_intCast (n : Int) : withinRange n = (clamp n : ℚ) := by
  rw [withinRange, clamp]
  push_cast
  rfl

theorem bound?_of_int {key : String} {o : Json} {n : Int} (hv : o.member? key = some (.int n))
    (h : n.natAbs ≤ Binary64.significandBound) : bound? key o = some (clamp n : ℚ) := by
  rw [bound?_of_short hv (by rintro _ ⟨⟩; exact h), Json.value?, Option.map_some, withinRange_intCast]

/-- The integer is within the bounds that there are. -/
def Bounded (lo hi : Option Int) (n : Int) : Prop := (∀ l ∈ lo, l ≤ n) ∧ ∀ h ∈ hi, n ≤ h

/-- An integer becomes a leaf whose bounds admit, of the integers in the range, those that the declared
bounds admit as they are read, where an exclusive bound at the end of the range admits that end. What is
left open is a fraction for a minimum, or for an exclusive maximum. Numbers of at most 53 bits are read as
they are. -/
theorem input?_integerBounds {i : Input} (htype : i.object.member? "type" = some (.str "Number"))
    (hinteger : isTrue "integer" i.object = true) (hchoices : i.object.member? "value-choices" = none)
    (hmin : isTrue "exclusive-minimum" i.object = false →
      ∀ q ∈ bound? "minimum" i.object, (⌊q⌋ : ℚ) = q)
    (hmax : isTrue "exclusive-maximum" i.object = true →
      ∀ q ∈ bound? "maximum" i.object, (⌊q⌋ : ℚ) = q)
    (nested : Nested) (fs : List Finding) (a : Arena) :
    (∃ t id lo hi, (((input? nested i).run fs).run a).1.1 = some t ∧
      t.values = [terminal id (metadata? i.object) (.int lo hi)] ∧
      ∀ n, Reading.leastInt ≤ n → n ≤ Reading.greatestInt → (Bounded lo hi n ↔
        (∀ q ∈ bound? "minimum" i.object, q ≤ n ∧
          (isTrue "exclusive-minimum" i.object = true → q < n ∨ n = Reading.greatestInt)) ∧
        ∀ q ∈ bound? "maximum" i.object, n ≤ q ∧
          (isTrue "exclusive-maximum" i.object = true → n < q ∨ n = Reading.leastInt))) ∧
    ∀ key v, i.object.member? key = some v → v.IsShort →
      bound? key i.object = v.value?.map withinRange := by
  refine ⟨?_, fun key v => bound?_of_short⟩
  obtain ⟨t, id, hrun, hvalues⟩ := returns_integerInput nested htype hinteger hchoices fs a
  refine ⟨t, id, _, _, hrun, hvalues, fun n hleast hgreatest => ?_⟩
  exact and_congr (lowest_le_iff hmin hgreatest) (le_highest_iff hmax hleast)

def integerObject (bounds : List (String × Json)) : Json :=
  .obj ([("value-key", .str "[N]"), ("type", .str "Number"), ("integer", .bool true)] ++ bounds)

def digitObject : Json :=
  integerObject [("minimum", .int 0), ("maximum", .int 10), ("exclusive-maximum", .bool true)]

theorem input?_integerBounds_digits :
    digitObject.member? "type" = some (.str "Number") ∧ isTrue "integer" digitObject = true ∧
      digitObject.member? "value-choices" = none ∧
      bound? "minimum" digitObject = some 0 ∧ bound? "maximum" digitObject = some 10 ∧
      ∃ t id lo hi, (((input? (tree 0) ⟨digitObject, []⟩).run []).run {}).1.1 = some t ∧
        t.values = [terminal id none (.int lo hi)] ∧
        ∀ n, Reading.leastInt ≤ n → n ≤ Reading.greatestInt → (Bounded lo hi n ↔ 0 ≤ n ∧ n < 10) := by
  have hmin : bound? "minimum" digitObject = some ((0 : Int) : ℚ) :=
    bound?_of_int (n := 0) rfl (by decide)
  have hmax : bound? "maximum" digitObject = some ((10 : Int) : ℚ) :=
    bound?_of_int (n := 10) rfl (by decide)
  refine ⟨rfl, rfl, rfl, by simp [hmin], by simp [hmax], ?_⟩
  obtain ⟨⟨t, id, lo, hi, hrun, hvalues, hadmits⟩, -⟩ :=
    input?_integerBounds (i := ⟨digitObject, []⟩) rfl rfl rfl
      (fun _ q hq => by
        rw [hmin] at hq
        cases hq
        rw [Int.floor_intCast])
      (fun _ q hq => by
        rw [hmax] at hq
        cases hq
        rw [Int.floor_intCast])
      (tree 0) [] {}
  refine ⟨t, id, lo, hi, hrun, hvalues, fun n hleast hgreatest => ?_⟩
  have hexclusive : isTrue "exclusive-minimum" digitObject = false := rfl
  have hexclusive' : isTrue "exclusive-maximum" digitObject = true := rfl
  rw [hadmits n hleast hgreatest, hmin, hmax, hexclusive, hexclusive']
  simp only [Option.mem_some, forall_eq', Int.cast_le, Int.cast_lt, Bool.false_eq_true, false_implies,
    true_implies, and_true, Reading.leastInt]
  omega

def longObject : Json :=
  -- 2 ^ 53 + 1 is no double
  integerObject [("minimum", .int 9007199254740993)]

def pastObject : Json :=
  integerObject [("maximum", .int 18446744073709551615), ("exclusive-maximum", .bool true)]

/-- The integer is within the declared bounds, each as the number that it stands for. -/
def Declares (o : Json) (n : Int) : Prop :=
  (∀ q ∈ (o.member? "minimum").bind Json.value?,
    if isTrue "exclusive-minimum" o then q < n else q ≤ n) ∧
  ∀ q ∈ (o.member? "maximum").bind Json.value?,
    if isTrue "exclusive-maximum" o then n < q else n ≤ q

theorem integerBounds_ne_declared :
    (∃ t id lo hi, (((input? (tree 0) ⟨longObject, []⟩).run []).run {}).1.1 = some t ∧
      t.values = [terminal id none (.int lo hi)] ∧
      Bounded lo hi 9007199254740992 ∧ ¬ Declares longObject 9007199254740992) ∧
    ∃ t id lo hi, (((input? (tree 0) ⟨pastObject, []⟩).run []).run {}).1.1 = some t ∧
      t.values = [terminal id none (.int lo hi)] ∧
      ¬ Bounded lo hi Reading.greatestInt ∧ Declares pastObject Reading.greatestInt := by
  have hlong : lowest? longObject = some 9007199254740992 := by decide +kernel
  have hpast : highest? pastObject = some (Reading.greatestInt - 1) := by decide +kernel
  constructor
  · obtain ⟨t, id, hrun, hvalues⟩ :=
      returns_integerInput (i := ⟨longObject, []⟩) (tree 0) rfl rfl rfl [] {}
    refine ⟨t, id, _, _, hrun, hvalues, ?_, fun hdeclares => ?_⟩
    · exact ⟨fun l hl => (Option.some.inj (hlong.symm.trans hl)).ge, nofun⟩
    · have hle := hdeclares.1 ((9007199254740993 : Int) : ℚ) rfl
      have hexclusive : isTrue "exclusive-minimum" longObject = false := rfl
      rw [hexclusive, if_neg Bool.false_ne_true] at hle
      exact absurd (Int.cast_le.1 hle) (by decide)
  · obtain ⟨t, id, hrun, hvalues⟩ :=
      returns_integerInput (i := ⟨pastObject, []⟩) (tree 0) rfl rfl rfl [] {}
    refine ⟨t, id, _, _, hrun, hvalues, fun hbounded => ?_, nofun, fun q hq => ?_⟩
    · exact absurd (hbounded.2 _ hpast) (by decide)
    · cases hq
      have hexclusive : isTrue "exclusive-maximum" pastObject = true := rfl
      rw [hexclusive, if_pos rfl, Int.cast_lt]
      decide

end Descriptor
end ToolBindings
