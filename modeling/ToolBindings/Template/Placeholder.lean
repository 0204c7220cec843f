import ToolBindings.OrderedMap

/-!
# Placeholders in a token

A token is divided at the keys of a table. The first key of the table that occurs anywhere in the
text divides it, at its leftmost occurrence, even where another key stands further left; the text
before it and the text behind it are divided in the same way. Empty keys never occur.
-/
namespace ToolBindings.Template
universe u
variable {α : Type u}

inductive Fragment (α : Type u)
  | literal (text : String)
  | payload (key : String) (value : α)
  deriving Repr

def dropKey? : List Char → List Char → Option (List Char)
  | [], cs => some cs
  | _ :: _, [] => none
  | k :: ks, c :: cs => if k = c then dropKey? ks cs else none

def divide? (key : List Char) : List Char → Option (List Char × List Char)
  | [] => (dropKey? key []).map fun rest => ([], rest)
  | c :: cs =>
    match dropKey? key (c :: cs) with
    | some rest => some ([], rest)
    | none => (divide? key cs).map (Prod.map (c :: ·) id)

theorem eq_append_of_dropKey? {key cs rest : List Char} (h : dropKey? key cs = some rest) :
    cs = key ++ rest := by
  induction key generalizing cs with
  | nil => simpa [dropKey?] using h
  | cons k ks ih =>
    cases cs with
    | nil => simp [dropKey?] at h
    | cons c cs =>
      simp only [dropKey?] at h
      split at h
      · next e => rw [ih h, e]; rfl
      · simp at h

theorem eq_append_of_divide? {key cs before rest : List Char}
    (h : divide? key cs = some (before, rest)) : cs = before ++ key ++ rest := by
  induction cs generalizing before with
  | nil =>
    obtain ⟨r, hr, e⟩ := Option.map_eq_some_iff.1 h
    simp only [Prod.mk.injEq] at e
    rw [← e.1, ← e.2]
    exact eq_append_of_dropKey? hr
  | cons c cs ih =>
    simp only [divide?] at h
    split at h
    · next r hr =>
      simp only [Option.some.injEq, Prod.mk.injEq] at h
      rw [← h.1, ← h.2]
      exact eq_append_of_dropKey? hr
    · obtain ⟨⟨b, r⟩, hr, e⟩ := Option.map_eq_some_iff.1 h
      simp only [Prod.map_apply, id, Prod.mk.injEq] at e
      rw [← e.1, ih (e.2 ▸ hr)]
      rfl

structure Cut (α : Type u) where
  key : String
  value : α
  before : List Char
  rest : List Char

def cut? (table : OrderedMap String α) (text : List Char) : Option (Cut α) :=
  table.findSome? fun e =>
    if e.1.toList = [] then none
    else (divide? e.1.toList text).map fun d => ⟨e.1, e.2, d.1, d.2⟩

theorem mem_of_cut? {table : OrderedMap String α} {text : List Char} {c : Cut α}
    (h : cut? table text = some c) :
    (c.key, c.value) ∈ table ∧ c.key.toList ≠ [] ∧
      divide? c.key.toList text = some (c.before, c.rest) := by
  obtain ⟨⟨key, value⟩, hm, h⟩ := List.exists_of_findSome?_eq_some h
  by_cases hk : key.toList = []
  · simp [hk] at h
  · rw [if_neg hk] at h
    obtain ⟨⟨b, r⟩, hd, e⟩ := Option.map_eq_some_iff.1 h
    subst e
    exact ⟨hm, hk, hd⟩

theorem length_of_cut? {table : OrderedMap String α} {text : List Char} {c : Cut α}
    (h : cut? table text = some c) :
    c.before.length < text.length ∧ c.rest.length < text.length := by
  obtain ⟨-, hk, hd⟩ := mem_of_cut? h
  have hl := List.length_pos_iff.2 hk
  have e := congrArg List.length (eq_append_of_divide? hd)
  simp only [List.length_append] at e
  omega

def fragments (table : OrderedMap String α) (text : List Char) : List (Fragment α) :=
  if text = [] then []
  else
    match h : cut? table text with
    | none => [.literal (String.ofList text)]
    | some c =>
      have := length_of_cut? h
      fragments table c.before ++ .payload c.key c.value :: fragments table c.rest
termination_by text.length
decreasing_by
  · exact this.1
  · exact this.2

/-- The pieces of a token; the empty token is one empty literal. -/
def destructure (table : OrderedMap String α) (token : String) : List (Fragment α) :=
  if token.toList = [] then [.literal ""] else fragments table token.toList

def Fragment.text : Fragment α → String
  | .literal text => text
  | .payload key _ => key

def reassemble (fs : List (Fragment α)) : String := String.join (fs.map Fragment.text)

end ToolBindings.Template
