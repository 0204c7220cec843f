import ToolBindings.Proofs.NumberText
import ToolBindings.Spelling

/-!
# Imports of a spelling

The names in a spelling are read off its text, apart from what stands in quotes there. A name that comes
from outside of the language has one line that imports it (`Language.importOf?`). Spellings are put together
from texts that set each other off, so the names of the whole are the names of the parts (`names_append`),
and every type that a spelling goes into is one of the parts of the type, which are asked for imports. So
each name is imported, and no line stands twice (`imports_supply`).
-/
namespace ToolBindings

inductive QuoteState
  | outside
  | inside
  | escaped
  deriving DecidableEq, Repr

namespace QuoteState

def next : QuoteState → Char → QuoteState
  | outside, c => if c = '\x22' then inside else outside
  | inside, c => if c = '\x22' then outside else if c = '\\' then escaped else inside
  | escaped, _ => inside

def code (q : QuoteState) : List Char → List Char
  | [] => []
  | c :: cs => (if q = outside then [c] else []) ++ code (q.next c) cs

theorem code_append (q : QuoteState) (cs ds : List Char) :
    q.code (cs ++ ds) = q.code cs ++ (cs.foldl next q).code ds := by
  induction cs generalizing q with
  | nil => rfl
  | cons c cs ih => simp [code, ih]

structure StaysInside (cs : List Char) : Prop where
  code : inside.code cs = []
  state : cs.foldl next inside = inside

theorem StaysInside.append {cs ds : List Char} (hc : StaysInside cs) (hd : StaysInside ds) :
    StaysInside (cs ++ ds) where
  code := by rw [code_append, hc.code, hc.state, hd.code, List.append_nil]
  state := by rw [List.foldl_append, hc.state, hd.state]

theorem staysInside_of_plain {cs : List Char} (h : ∀ c ∈ cs, c ≠ '\x22' ∧ c ≠ '\\') :
    StaysInside cs := by
  induction cs with
  | nil => exact ⟨rfl, rfl⟩
  | cons c cs ih =>
    obtain ⟨⟨hquote, hescape⟩, hcs⟩ := List.forall_mem_cons.1 h
    have hnext : inside.next c = inside := by simp [next, hquote, hescape]
    obtain ⟨hcode, hstate⟩ := ih hcs
    exact ⟨by simp [QuoteState.code, hnext, hcode], by simp [hnext, hstate]⟩

theorem outside_of_not_mem {cs : List Char} (h : '\x22' ∉ cs) :
    outside.code cs = cs ∧ cs.foldl next outside = outside := by
  induction cs with
  | nil => exact ⟨rfl, rfl⟩
  | cons c cs ih =>
    obtain ⟨hne, hcs⟩ := not_or.1 fun hmem => h (List.mem_cons.2 hmem)
    have hnext : outside.next c = outside := if_neg (Ne.symm hne)
    obtain ⟨hcode, hstate⟩ := ih hcs
    exact ⟨by simp [code, hnext, hcode], by simp [hnext, hstate]⟩

end QuoteState
open QuoteState

theorem forall_mem_toDigits {P : Char → Prop} {base : Nat} (hbase : 1 < base)
    (h : ∀ k < base, P (Nat.digitChar k)) (n : Nat) : ∀ c ∈ Nat.toDigits base n, P c := by
  induction n using Nat.strongRecOn with
  | ind n ih =>
    rw [Nat.toDigits_eq_if hbase]
    split
    · next hlt => exact List.forall_mem_singleton.2 (h n hlt)
    · next hle =>
      have hdiv : n / base < n := Nat.div_lt_self (by omega) hbase
      have hmod : n % base < base := Nat.mod_lt n (by omega)
      exact List.forall_mem_append.2 ⟨ih _ hdiv, List.forall_mem_singleton.2 (h _ hmod)⟩

theorem Text.staysInside_quotedChar (c : Char) : StaysInside (quotedChar c).toList := by
  unfold quotedChar
  split
  case h_7 hquote hescape _ _ _ _ =>
    split
    · have hhex : StaysInside (hexText c.toNat).toList := by
        apply staysInside_of_plain
        rw [hexText, String.toList_ofList]
        exact forall_mem_toDigits (by decide) (by decide) c.toNat
      have hopen : StaysInside "\\u\x7b".toList := ⟨by decide, by decide⟩
      have hclose : StaysInside "\x7d".toList := ⟨by decide, by decide⟩
      rw [String.toList_append, String.toList_append]
      exact (hopen.append hhex).append hclose
    · apply staysInside_of_plain
      rw [String.toList_singleton]
      exact List.forall_mem_singleton.2 ⟨hquote, hescape⟩
  all_goals exact ⟨by decide, by decide⟩

theorem Text.staysInside_join (cs : List Char) :
    StaysInside (String.join (cs.map quotedChar)).toList := by
  induction cs with
  | nil => exact ⟨by decide, by decide⟩
  | cons c cs ih =>
    rw [List.map_cons, String.join_cons, String.toList_append]
    exact (staysInside_quotedChar c).append ih

theorem Text.toList_quoted (s : String) : (quoted s).toList =
    '\x22' :: ((String.join (s.toList.map quotedChar)).toList ++ ['\x22']) := by
  simp [quoted]

namespace Language

def isNameChar (c : Char) : Bool := c.isAlphanum || c = '_'

def words (cs : List Char) : List (List Char) :=
  (cs.splitOnP fun c => !isNameChar c).filter (· ≠ [])

theorem words_append_cons {c : Char} (hc : isNameChar c = false) (cs ds : List Char) :
    words (cs ++ c :: ds) = words cs ++ words ds := by
  unfold words
  rw [List.splitOnP_append_cons cs ds (by simp [hc]), List.filter_append]

theorem words_nil : words [] = [] := by simp [words, List.splitOnP_nil]

theorem words_cons {c : Char} (hc : isNameChar c = false) (cs : List Char) :
    words (c :: cs) = words cs := by
  simpa [words_nil] using words_append_cons hc [] cs

theorem words_of_forall {cs : List Char} (hne : cs ≠ []) (h : ∀ c ∈ cs, isNameChar c = true) :
    words cs = [cs] := by
  rw [words, List.splitOnP_eq_singleton fun c hc => by simp [h c hc]]
  simp [hne]

section Names
variable {s t : String}

def codeOf (s : String) : List Char := outside.code s.toList

/-- The names in a text, without those in quotes. -/
def names (s : String) : List String := (words (codeOf s)).map String.ofList

def Closed (s : String) : Prop := s.toList.foldl next outside = outside

instance (s : String) : Decidable (Closed s) := inferInstanceAs (Decidable (_ = _))

def endsApart (s : String) : Bool := (codeOf s).getLast?.any fun c => !isNameChar c

def startsApart (s : String) : Bool := (codeOf s).head?.any fun c => !isNameChar c

theorem Closed.codeOf_append (hs : Closed s) (t : String) :
    codeOf (s ++ t) = codeOf s ++ codeOf t := by
  rw [codeOf, String.toList_append, code_append, hs]
  rfl

theorem Closed.append (hs : Closed s) (ht : Closed t) : Closed (s ++ t) := by
  rw [Closed, String.toList_append, List.foldl_append, hs, ht]

theorem Closed.endsApart_append (hs : Closed s) (ht : endsApart t) : endsApart (s ++ t) := by
  rw [endsApart, hs.codeOf_append, List.getLast?_append]
  cases hlast : (codeOf t).getLast? with
  | none => simp [endsApart, hlast] at ht
  | some c => simpa [endsApart, hlast] using ht

theorem names_append (hs : Closed s) (h : endsApart s ∨ startsApart t) :
    names (s ++ t) = names s ++ names t := by
  have hwords : words (codeOf s ++ codeOf t) = words (codeOf s) ++ words (codeOf t) := by
    obtain h | h := h
    · obtain ⟨c, hlast, hc⟩ := (Option.any_eq_true _ _).1 h
      obtain ⟨cs, hcs⟩ := List.getLast?_eq_some_iff.1 hlast
      have hbreak : isNameChar c = false := by simpa using hc
      have hends : words (cs ++ [c]) = words cs := by
        rw [words_append_cons hbreak, words_nil, List.append_nil]
      rw [hcs, List.append_assoc, List.singleton_append, words_append_cons hbreak, hends]
    · obtain ⟨c, hhead, hc⟩ := (Option.any_eq_true _ _).1 h
      obtain ⟨ds, hds⟩ := List.head?_eq_some_iff.1 hhead
      have hbreak : isNameChar c = false := by simpa using hc
      rw [hds, words_append_cons hbreak, words_cons hbreak]
  rw [names, hs.codeOf_append, hwords, List.map_append]
  rfl

end Names

theorem closed_intText (n : Int) : Closed (intText n) :=
  (outside_of_not_mem (not_mem_intText n rfl (by decide))).2

theorem names_intText (n : Int) : names (intText n) = [String.ofList (Nat.toDigits 10 n.natAbs)] := by
  have hcode : codeOf (intText n) = (intText n).toList :=
    (outside_of_not_mem (not_mem_intText n rfl (by decide))).1
  have hdigits : words (Nat.toDigits 10 n.natAbs) = [Nat.toDigits 10 n.natAbs] := by
    apply words_of_forall (by simp)
    intro c hc
    simp [isNameChar, Char.isAlphanum, isDigit_toDigits _ c hc]
  rw [names, hcode, toList_intText]
  split
  · rw [List.singleton_append, words_cons rfl, hdigits, List.map_singleton]
  · rw [List.nil_append, hdigits, List.map_singleton]

theorem closed_quoted (s : String) : Closed (Text.quoted s) := by
  rw [Closed, Text.toList_quoted, List.foldl_cons, List.foldl_append]
  exact congrArg (List.foldl next · ['\x22']) (Text.staysInside_join s.toList).state

theorem codeOf_quoted (s : String) : codeOf (Text.quoted s) = ['\x22'] := by
  have hinside := Text.staysInside_join s.toList
  have hquote : outside.next '\x22' = inside := rfl
  rw [codeOf, Text.toList_quoted, code, hquote, code_append, hinside.code, hinside.state]
  rfl

/-- The line that imports a name from outside of the language. -/
def importOf? : Language → String → Option String
  | rust, "PathBuf" => some "use std::path::PathBuf;"
  | rust, "HashMap" => some "use std::collections::HashMap;"
  | rust, "Value" => some "use serde_json::Value;"
  | python, "pathlib" => some "import pathlib"
  | python, "Any" => some "from typing import Any"
  | python, "Literal" => some "from typing import Literal"
  | _, _ => none

structure Supplied (l : Language) (lines : List String) (s : String) : Prop where
  closed : Closed s
  covered : (names s).filterMap l.importOf? ⊆ lines

namespace Supplied
variable {l : Language} {lines : List String} {s t : String}

theorem append (hs : Supplied l lines s) (ht : Supplied l lines t)
    (h : endsApart s ∨ startsApart t) : Supplied l lines (s ++ t) where
  closed := hs.closed.append ht.closed
  covered := by
    rw [names_append hs.closed h, List.filterMap_append]
    exact List.append_subset.2 ⟨hs.covered, ht.covered⟩

theorem enclosed {before after : String} (hbefore : Supplied l lines before)
    (hs : Supplied l lines s) (hafter : Supplied l lines after) (hends : endsApart before)
    (hstarts : startsApart after) : Supplied l lines (before ++ s ++ after) :=
  (hbefore.append hs (.inl hends)).append hafter (.inr hstarts)

theorem of_needed {needed : List String} (h : needed ⊆ lines) (hclosed : Closed s)
    (hneeded : (names s).filterMap l.importOf? = needed) : Supplied l lines s :=
  ⟨hclosed, hneeded ▸ h⟩

theorem of_needs_none (hclosed : Closed s) (hneeded : (names s).filterMap l.importOf? = []) :
    Supplied l lines s :=
  of_needed (List.nil_subset lines) hclosed hneeded

theorem intText (n : Int) : Supplied python lines (ToolBindings.intText n) := by
  apply of_needs_none (closed_intText n)
  have hother : ∀ w : String, 'p' ∈ w.toList ∨ 'A' ∈ w.toList ∨ 'L' ∈ w.toList →
      String.ofList (Nat.toDigits 10 n.natAbs) ≠ w := by
    rintro w hw rfl
    rw [String.toList_ofList] at hw
    have hdigits := isDigit_toDigits n.natAbs
    obtain h | h | h := hw <;> exact absurd h (not_mem_of_isDigit hdigits rfl)
  rw [names_intText, List.filterMap_cons]
  simp [importOf?, hother]

theorem quoted (s : String) : Supplied l lines (Text.quoted s) := by
  apply of_needs_none (closed_quoted s)
  rw [names, codeOf_quoted]
  rfl

end Supplied

section
variable {lines : List String}

theorem supplied_rustSpelling : (t : ValueType) → t.parts.flatMap rust.ownImports ⊆ lines →
    Supplied rust lines (rustSpelling t)
  | .scalar .int, _ | .scalar .float, _ | .scalar .str, _ | .bool, _ | .count, _ =>
    .of_needs_none (by decide) (by decide)
  | .scalar .path, h => .of_needed h (by decide) (by decide)
  | .literal (.int _), _ | .literal (.str _), _ => by
    rw [rustSpelling]
    exact .of_needs_none (by decide) (by decide)
  | .optional t, h | .nullable t, h => by
    have ht := supplied_rustSpelling t (by simpa [ValueType.parts, ownImports] using h)
    have hopen : Supplied rust lines "Option<" := .of_needs_none (by decide) (by decide)
    have hclose : Supplied rust lines ">" := .of_needs_none (by decide) (by decide)
    exact hopen.enclosed ht hclose (by decide) (by decide)
  | .list t, h => by
    have ht := supplied_rustSpelling t (by simpa [ValueType.parts, ownImports] using h)
    have hopen : Supplied rust lines "Vec<" := .of_needs_none (by decide) (by decide)
    have hclose : Supplied rust lines ">" := .of_needs_none (by decide) (by decide)
    exact hopen.enclosed ht hclose (by decide) (by decide)
  | .struct fields, h => by
    rw [ValueType.parts, List.flatMap_cons, List.append_subset] at h
    rw [rustSpelling]
    exact .of_needed h.1 (by decide) (by simp only [ownImports]; decide)
  | .union variants, h => by
    rw [ValueType.parts, List.flatMap_cons, List.append_subset] at h
    rw [rustSpelling]
    exact .of_needed h.1 (by decide) (by simp only [ownImports]; decide)

mutual

theorem supplied_pythonSpelling : (t : ValueType) → t.parts.flatMap python.ownImports ⊆ lines →
    Supplied python lines (pythonSpelling t)
  | .scalar .int, _ | .scalar .float, _ | .scalar .str, _ | .bool, _ | .count, _ =>
    .of_needs_none (by decide) (by decide)
  | .scalar .path, h => .of_needed h (by decide) (by decide)
  | .literal v, h => by
    have hopen : Supplied python lines "Literal[" := .of_needed h (by decide) (by
      simp only [ValueType.parts, List.flatMap_singleton, ownImports]
      decide)
    have hclose : Supplied python lines "]" := .of_needs_none (by decide) (by decide)
    have hmember : ∀ s, Supplied python lines s → Supplied python lines ("Literal[" ++ s ++ "]") :=
      fun s hs => hopen.enclosed hs hclose (by decide) (by decide)
    cases v with
    | int n => exact hmember _ (.intText n)
    | str s => exact hmember _ (.quoted s)
  | .optional t, h | .nullable t, h => by
    have ht := supplied_pythonSpelling t (by simpa [ValueType.parts, ownImports] using h)
    exact ht.append (.of_needs_none (by decide) (by decide)) (.inr (by decide))
  | .list t, h => by
    have ht := supplied_pythonSpelling t (by simpa [ValueType.parts, ownImports] using h)
    have hopen : Supplied python lines "list[" := .of_needs_none (by decide) (by decide)
    have hclose : Supplied python lines "]" := .of_needs_none (by decide) (by decide)
    exact hopen.enclosed ht hclose (by decide) (by decide)
  | .struct fields, h => by
    rw [ValueType.parts, List.flatMap_cons, List.append_subset] at h
    rw [pythonSpelling]
    exact .of_needed h.1 (by decide) (by simp only [ownImports]; decide)
  | .union variants, h => by
    rw [pythonSpelling]
    exact supplied_pythonSpellings variants (by simpa [ValueType.parts, ownImports] using h)

theorem supplied_pythonSpellings : (vs : List (String × ValueType)) →
    (ValueType.partsAll vs).flatMap python.ownImports ⊆ lines →
    Supplied python lines (" | ".intercalate (pythonSpellings vs))
  | [], _ => .of_needs_none (by decide) (by decide)
  | (_, t) :: vs, h => by
    rw [ValueType.partsAll, List.flatMap_append, List.append_subset] at h
    have ht := supplied_pythonSpelling t h.1
    have hrest := supplied_pythonSpellings vs h.2
    have hbar : Supplied python lines " | " := .of_needs_none (by decide) (by decide)
    cases vs with
    | nil => simpa [pythonSpellings] using ht
    | cons v vs =>
      have hjoin := (ht.append hbar (.inr (by decide))).append hrest
        (.inl (ht.closed.endsApart_append (by decide)))
      simpa [pythonSpellings] using hjoin

end

end

theorem mem_addLines {lines new : List String} {line : String} :
    line ∈ addLines lines new ↔ line ∈ lines ∨ line ∈ new := by
  induction new generalizing lines with
  | nil => simp [addLines]
  | cons l new ih =>
    rw [addLines, List.foldl_cons, ← addLines, ih, List.mem_cons, ← or_assoc]
    split
    · next hl =>
      have hline : line = l → line ∈ lines := fun heq => heq ▸ hl
      simp [or_iff_left_of_imp hline]
    · simp

theorem nodup_addLines {lines : List String} (h : lines.Nodup) (new : List String) :
    (addLines lines new).Nodup := by
  induction new generalizing lines with
  | nil => exact h
  | cons l new ih =>
    rw [addLines, List.foldl_cons, ← addLines]
    apply ih
    split
    · exact h
    · next hnew => exact h.append (List.nodup_singleton l) (by simpa using hnew)

/-- No name in a spelling lacks its import, and no import is listed twice. -/
theorem imports_supply (l : Language) (t : ValueType) :
    (∀ w ∈ names (l.spelling t), ∀ line ∈ l.importOf? w, line ∈ l.imports t) ∧
      (l.imports t).Nodup := by
  refine ⟨fun w hw line hline => ?_, nodup_addLines List.nodup_nil _⟩
  have hsubset : t.parts.flatMap l.ownImports ⊆ l.imports t := fun line hline =>
    mem_addLines.2 (.inr hline)
  cases l with
  | rust => exact (supplied_rustSpelling t hsubset).covered (List.mem_filterMap.2 ⟨w, hw, hline⟩)
  | python =>
    exact (supplied_pythonSpelling t hsubset).covered (List.mem_filterMap.2 ⟨w, hw, hline⟩)
  | typescript => cases hline

example : names (python.spelling (.union [("file", .scalar .path), ("text", .optional (.struct []))]))
    = ["pathlib", "Path", "dict", "str", "Any", "None"] := by decide

end Language
end ToolBindings
