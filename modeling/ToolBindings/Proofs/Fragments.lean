import Mathlib.Data.List.Chain
import Mathlib.Data.List.Infix
import ToolBindings.Template.Placeholder

/-!
# What destructuring leaves

A token is cut at a key as long as a key occurs in one of its texts. So the fragments of a text make up
the text again, a payload is an entry of the table, and in a literal no key of the table occurs
(`Pieces`). Each cut puts a payload between what it leaves on its two sides, so no two literals stand
side by side (`destructure_lossless`).
-/
namespace ToolBindings.Template
open OrderedMap
universe u
variable {α : Type u} {table : OrderedMap String α}

def Occurs (key text : List Char) : Prop := key ≠ [] ∧ key <:+: text

theorem Occurs.mono {key text whole : List Char} (h : Occurs key text) (hstands : text <:+: whole) :
    Occurs key whole :=
  ⟨h.1, h.2.trans hstands⟩

section
variable {key cs before rest : List Char}

theorem dropKey?_eq_some_iff : dropKey? key cs = some rest ↔ cs = key ++ rest := by
  refine ⟨eq_append_of_dropKey?, ?_⟩
  rintro rfl
  induction key with
  | nil => rfl
  | cons k ks ih => rw [List.cons_append, dropKey?, if_pos rfl, ih]

theorem dropKey?_eq_none_iff : dropKey? key cs = none ↔ ¬ key <+: cs := by
  rw [Option.eq_none_iff_forall_ne_some]
  simp only [ne_eq, dropKey?_eq_some_iff, eq_comm (a := cs)]
  exact not_exists.symm

theorem divide?_eq_none_iff : divide? key cs = none ↔ ¬ key <:+: cs := by
  induction cs with
  | nil => rw [divide?, Option.map_eq_none_iff, dropKey?_eq_none_iff, List.prefix_nil, List.infix_nil]
  | cons c cs ih =>
    rw [divide?, List.infix_cons_iff, not_or, ← dropKey?_eq_none_iff, ← ih]
    cases dropKey? key (c :: cs) with
    | none => simp
    | some rest => simp

/-- The cut is made where the key stands first. -/
theorem not_occurs_before (h : divide? key cs = some (before, rest)) : ¬ Occurs key before := by
  rintro ⟨hkey, hstands⟩
  induction cs generalizing before with
  | nil =>
    obtain ⟨_, -, e⟩ := Option.map_eq_some_iff.1 h
    cases e
    exact hkey (List.infix_nil.1 hstands)
  | cons c cs ih =>
    rw [divide?] at h
    split at h
    · cases h
      exact hkey (List.infix_nil.1 hstands)
    · next hnone =>
      obtain ⟨⟨b, r⟩, hdivide, e⟩ := Option.map_eq_some_iff.1 h
      cases e
      rcases List.infix_cons_iff.1 hstands with hfirst | hstands
      · have hcs : c :: b <+: c :: cs := by
          rw [eq_append_of_divide? hdivide, List.append_assoc]
          exact List.prefix_append (c :: b) (key ++ r)
        exact dropKey?_eq_none_iff.1 hnone (hfirst.trans hcs)
      · exact ih hdivide hstands

end

def cutAt? (text : List Char) (e : String × α) : Option (Cut α) :=
  if e.1.toList = [] then none
  else (divide? e.1.toList text).map fun d => ⟨e.1, e.2, d.1, d.2⟩

section
variable {text : List Char} {e : String × α}

theorem cutAt?_eq_none_iff : cutAt? text e = none ↔ ¬ Occurs e.1.toList text := by
  rw [cutAt?, Occurs, not_and, ← divide?_eq_none_iff]
  split
  · next hempty => simp [hempty]
  · next hne => simp [hne]

theorem cutAt?_of_divide? {before rest : List Char} (hkey : e.1.toList ≠ [])
    (h : divide? e.1.toList text = some (before, rest)) :
    cutAt? text e = some ⟨e.1, e.2, before, rest⟩ := by
  rw [cutAt?, if_neg hkey, h]
  rfl

theorem key_of_cutAt? {c : Cut α} (h : cutAt? text e = some c) : c.key = e.1 ∧ c.value = e.2 := by
  rw [cutAt?] at h
  split at h
  · cases h
  · obtain ⟨d, -, rfl⟩ := Option.map_eq_some_iff.1 h
    exact ⟨rfl, rfl⟩

theorem cut?_cons : cut? (e :: table) text = (cutAt? text e).or (cut? table text) := by
  change (e :: table).findSome? (cutAt? text) = _
  rw [List.findSome?_cons]
  cases cutAt? text e <;> rfl

theorem cut?_cons_of_not_occurs (h : ¬ Occurs e.1.toList text) :
    cut? (e :: table) text = cut? table text := by
  rw [cut?_cons, cutAt?_eq_none_iff.2 h, Option.none_or]

theorem cut?_eq_none_iff : cut? table text = none ↔ ∀ key ∈ keys table, ¬ Occurs key.toList text := by
  change table.findSome? (cutAt? text) = none ↔ _
  simp only [List.findSome?_eq_none_iff, cutAt?_eq_none_iff, keys, List.forall_mem_map]

theorem occurs_of_cut? {c : Cut α} (h : cut? table text = some c) : Occurs c.key.toList text := by
  obtain ⟨-, hkey, hdivide⟩ := mem_of_cut? h
  rw [eq_append_of_divide? hdivide]
  exact ⟨hkey, List.infix_append ..⟩

theorem find?_of_cut? {c : Cut α} (h : cut? table text = some c) :
    find? c.key table = some c.value := by
  induction table with
  | nil => cases h
  | cons e table ih =>
    by_cases he : Occurs e.1.toList text
    · obtain ⟨d, hd⟩ := Option.ne_none_iff_exists'.1 (mt cutAt?_eq_none_iff.1 (not_not_intro he))
      rw [cut?_cons, hd, Option.some_or] at h
      cases h
      obtain ⟨hkey, hvalue⟩ := key_of_cutAt? hd
      rw [find?, if_pos hkey.symm, hvalue]
    · -- An entry before the cut has another key, since that key does not occur.
      rw [cut?_cons_of_not_occurs he] at h
      have hne : e.1 ≠ c.key := fun hkey => he (hkey ▸ occurs_of_cut? h)
      rw [find?, if_neg hne, ih h]

end

def Fragment.IsLiteral : Fragment α → Prop
  | .literal _ => True
  | .payload _ _ => False

/-- No key occurs in a literal, and a payload is what the table holds under its key. -/
def Fragment.Settled (table : OrderedMap String α) : Fragment α → Prop
  | .literal text => text ≠ "" ∧ ∀ key ∈ keys table, ¬ Occurs key.toList text.toList
  | .payload key value => key ≠ "" ∧ find? key table = some value

structure Pieces (table : OrderedMap String α) (text : List Char) (fs : List (Fragment α)) :
    Prop where
  text_eq : fs.flatMap (·.text.toList) = text
  settled : ∀ f ∈ fs, f.Settled table
  apart : fs.IsChain fun f g => ¬ (f.IsLiteral ∧ g.IsLiteral)

theorem Pieces.nil : Pieces table [] [] := ⟨rfl, nofun, .nil⟩

theorem Pieces.whole {text : List Char} (hne : text ≠ []) (h : cut? table text = none) :
    Pieces table text [.literal (String.ofList text)] where
  text_eq := by simp [Fragment.text]
  settled := by
    rw [List.forall_mem_singleton, Fragment.Settled, String.toList_ofList]
    exact ⟨mt String.ofList_eq_empty_iff.1 hne, cut?_eq_none_iff.1 h⟩
  apart := .singleton _

theorem Pieces.cut {text : List Char} {c : Cut α} {fs gs : List (Fragment α)}
    (h : cut? table text = some c) (hfs : Pieces table c.before fs) (hgs : Pieces table c.rest gs) :
    Pieces table text (fs ++ .payload c.key c.value :: gs) where
  text_eq := by
    obtain ⟨-, -, hdivide⟩ := mem_of_cut? h
    rw [List.flatMap_append, List.flatMap_cons, hfs.text_eq, hgs.text_eq,
      eq_append_of_divide? hdivide, List.append_assoc]
    rfl
  settled := by
    have hkey : c.key ≠ "" := mt String.toList_eq_nil_iff.2 (occurs_of_cut? h).1
    rw [List.forall_mem_append, List.forall_mem_cons]
    exact ⟨hfs.settled, ⟨hkey, find?_of_cut? h⟩, hgs.settled⟩
  apart := by
    rw [List.isChain_append, List.isChain_cons]
    exact ⟨hfs.apart, ⟨fun _ _ hboth => hboth.1, hgs.apart⟩, fun _ _ g hg hboth => by
      cases hg
      exact hboth.2⟩

theorem pieces_fragments (table : OrderedMap String α) (text : List Char) :
    Pieces table text (fragments table text) := by
  fun_induction fragments table text with
  | case1 => exact .nil
  | case2 text hne hnone => exact .whole hne hnone
  | case3 text hne c hcut _ ihbefore ihrest => exact .cut hcut ihbefore ihrest

theorem toList_reassemble (fs : List (Fragment α)) :
    (reassemble fs).toList = fs.flatMap (·.text.toList) := by
  rw [reassemble, String.toList_join, List.flatMap_map]

theorem payload_of_mem {token key : String} {value : α}
    (h : .payload key value ∈ destructure table token) :
    key ≠ "" ∧ find? key table = some value := by
  unfold destructure at h
  split at h
  · simp at h
  · exact (pieces_fragments table token.toList).settled _ h

/-- Fragments make up their token. A payload is what the table holds under a key that is not empty, no such
key is left in a literal, and literals are kept apart. The empty token is an empty literal, and no other
literal is empty. -/
theorem destructure_lossless (table : OrderedMap String α) (token : String) :
    reassemble (destructure table token) = token ∧
      (∀ key value, .payload key value ∈ destructure table token →
        key ≠ "" ∧ table.find? key = some value) ∧
      (∀ text, .literal text ∈ destructure table token →
        ∀ key ∈ table.keys, key ≠ "" → ¬ key.toList <:+: text.toList) ∧
      (token = "" → destructure table token = [.literal ""]) ∧
      (token ≠ "" → ∀ text, .literal text ∈ destructure table token → text ≠ "") ∧
      (destructure table token).IsChain fun f g => ¬ (f.IsLiteral ∧ g.IsLiteral) := by
  by_cases htoken : token.toList = []
  · have hempty : token = "" := String.toList_eq_nil_iff.1 htoken
    have hfragments : destructure table token = [.literal ""] := if_pos htoken
    refine ⟨?_, fun _ _ => payload_of_mem, fun text h key _ hkey hstands => ?_, fun _ => hfragments,
      fun hne => absurd hempty hne, ?_⟩
    · rw [hfragments, hempty]
      rfl
    · rw [hfragments] at h
      cases List.mem_singleton.1 h
      exact hkey (String.toList_eq_nil_iff.1 (List.infix_nil.1 hstands))
    · rw [hfragments]
      exact .singleton _
  · have hne : token ≠ "" := mt String.toList_eq_nil_iff.2 htoken
    have hpieces : Pieces table token.toList (destructure table token) := by
      rw [destructure, if_neg htoken]
      exact pieces_fragments table token.toList
    refine ⟨?_, fun _ _ => payload_of_mem, fun text h key hmem hkey hstands => ?_,
      fun hempty => absurd hempty hne, fun _ _ h => (hpieces.settled _ h).1, hpieces.apart⟩
    · rw [← String.toList_inj, toList_reassemble, hpieces.text_eq]
    · exact (hpieces.settled _ h).2 key hmem ⟨mt String.toList_eq_nil_iff.1 hkey, hstands⟩

end ToolBindings.Template
