import ToolBindings.Proofs.Fragments

/-!
# One key after another

A token can also be divided key by key: each key in turn splits all the text that is still left, wherever
it stands. A cut leaves no text in which an earlier key occurs, so it makes no difference that the search
begins with the first key again on both sides of each cut (`destructure_eq_splitAtKeys`).
-/
namespace ToolBindings.Template
open OrderedMap
universe u
variable {α : Type u} {table : OrderedMap String α} {e : String × α}

def between (key : List Char) : List Char → List (List Char)
  | [] => [[]]
  | c :: cs =>
    if key <+: c :: cs then [] :: between key (cs.drop (key.length - 1))
    else (between key cs).modifyHead (c :: ·)
termination_by text => text.length
decreasing_by
  · simp only [List.length_drop, List.length_cons]
    omega
  · simp

inductive Part (α : Type u)
  | text (cs : List Char)
  | entry (e : String × α)

def Part.isEmpty : Part α → Bool
  | .text cs => cs.isEmpty
  | .entry _ => false

def Part.splitAt (e : String × α) : Part α → List (Part α)
  | .text cs => (((between e.1.toList cs).map .text).intersperse (.entry e)).filter (!·.isEmpty)
  | .entry f => [.entry f]

def Part.fragment : Part α → Fragment α
  | .text cs => .literal (String.ofList cs)
  | .entry e => .payload e.1 e.2

/-- The token, split at every key that is not empty in the order of the table. -/
def splitAtKeys (table : OrderedMap String α) (token : String) : List (Fragment α) :=
  let entries := table.filter fun e => e.1 ≠ ""
  (entries.foldl (fun ps e => ps.flatMap (·.splitAt e)) [.text token.toList]).map Part.fragment

section
variable {key text before rest : List Char}

theorem between_ne_nil (key text : List Char) : between key text ≠ [] := by
  fun_induction between key text with
  | case1 => exact List.cons_ne_nil _ _
  | case2 => exact List.cons_ne_nil _ _
  | case3 c cs _ ih =>
    obtain ⟨p, ps, hps⟩ := List.exists_cons_of_ne_nil ih
    rw [hps]
    exact List.cons_ne_nil _ _

theorem between_of_not_infix (h : ¬ key <:+: text) : between key text = [text] := by
  induction text with
  | nil => rw [between]
  | cons c cs ih =>
    rw [List.infix_cons_iff, not_or] at h
    rw [between, if_neg h.1, ih h.2]
    rfl

theorem between_of_divide? (hkey : key ≠ []) (h : divide? key text = some (before, rest)) :
    between key text = before :: between key rest := by
  induction text generalizing before with
  | nil =>
    have hempty : before = [] ∧ key = [] ∧ rest = [] := by simpa using eq_append_of_divide? h
    exact absurd hempty.2.1 hkey
  | cons c cs ih =>
    rw [divide?] at h
    split at h
    · next r hr =>
      cases h
      obtain ⟨k, ks, rfl⟩ := List.exists_cons_of_ne_nil hkey
      obtain ⟨rfl, rfl⟩ : c = k ∧ cs = ks ++ rest := by simpa using eq_append_of_dropKey? hr
      have hfirst : c :: ks <+: c :: (ks ++ rest) := List.prefix_append (c :: ks) rest
      rw [between, if_pos hfirst, List.length_cons, Nat.add_sub_cancel, List.drop_left]
    · next hnone =>
      obtain ⟨⟨b, r⟩, hdivide, heq⟩ := Option.map_eq_some_iff.1 h
      cases heq
      rw [between, if_neg (dropKey?_eq_none_iff.1 hnone), ih hdivide]
      rfl

theorem fragments_nil : fragments table [] = [] := by
  rw [fragments, if_pos rfl]

theorem fragments_of_uncut (hne : text ≠ []) (h : cut? table text = none) :
    fragments table text = [.literal (String.ofList text)] := by
  rw [fragments, if_neg hne]
  split
  · rfl
  · next hc =>
    rw [h] at hc
    cases hc

theorem fragments_of_cut? {c : Cut α} (h : cut? table text = some c) : fragments table text =
    fragments table c.before ++ .payload c.key c.value :: fragments table c.rest := by
  have hne : text ≠ [] := List.ne_nil_of_length_pos (Nat.zero_lt_of_lt (length_of_cut? h).1)
  rw [fragments, if_neg hne]
  split
  · next hnone =>
    rw [h] at hnone
    cases hnone
  · next hc =>
    rw [h] at hc
    cases hc
    rfl

theorem fragments_cons_of_not_occurs (h : ¬ Occurs e.1.toList text) :
    fragments (e :: table) text = fragments table text := by
  fun_induction fragments table text with
  | case1 => exact fragments_nil
  | case2 text hne hnone => exact fragments_of_uncut hne ((cut?_cons_of_not_occurs h).trans hnone)
  | case3 text hne c hcut _ ihbefore ihrest =>
    obtain ⟨-, -, hdivide⟩ := mem_of_cut? hcut
    have htext := eq_append_of_divide? hdivide
    have hbefore : c.before <:+: text :=
      htext ▸ (List.prefix_append ..).isInfix.trans (List.prefix_append ..).isInfix
    have hrest : c.rest <:+: text := htext ▸ (List.suffix_append ..).isInfix
    rw [fragments_of_cut? ((cut?_cons_of_not_occurs h).trans hcut),
      ihbefore fun hoccurs => h (hoccurs.mono hbefore), ihrest fun hoccurs => h (hoccurs.mono hrest)]

end

def Part.fragments (table : OrderedMap String α) : Part α → List (Fragment α)
  | .text cs => Template.fragments table cs
  | .entry e => [.payload e.1 e.2]

theorem flatMap_fragments_filter (ps : List (Part α)) :
    (ps.filter (!·.isEmpty)).flatMap (·.fragments table) = ps.flatMap (·.fragments table) := by
  induction ps with
  | nil => rfl
  | cons p ps ih =>
    rw [List.filter_cons, List.flatMap_cons]
    split
    · rw [List.flatMap_cons, ih]
    · next hempty =>
      cases p with
      | entry f => exact absurd rfl hempty
      | text cs =>
        have hnil : cs = [] := by simpa [Part.isEmpty] using hempty
        rw [ih, Part.fragments, hnil, fragments_nil, List.nil_append]

theorem fragments_text_cons (hkey : e.1.toList ≠ []) (cs : List Char) :
    ((Part.text cs).splitAt e).flatMap (·.fragments table) = fragments (e :: table) cs := by
  rw [Part.splitAt, flatMap_fragments_filter]
  by_cases hoccurs : Occurs e.1.toList cs
  · obtain ⟨⟨before, rest⟩, hdivide⟩ :=
      Option.ne_none_iff_exists'.1 (mt divide?_eq_none_iff.1 (not_not_intro hoccurs.2))
    have hcut : cut? (e :: table) cs = some ⟨e.1, e.2, before, rest⟩ := by
      rw [cut?_cons, cutAt?_of_divide? hkey hdivide, Option.some_or]
    -- No key `e.1` stands in `before`, so there the search begins with the next key; `rest` is shorter.
    have hshorter := (length_of_cut? hcut).2
    have ih := fragments_text_cons hkey rest
    rw [Part.splitAt, flatMap_fragments_filter] at ih
    rw [fragments_of_cut? hcut, fragments_cons_of_not_occurs (not_occurs_before hdivide), ← ih,
      between_of_divide? hkey hdivide]
    obtain ⟨p, ps, hps⟩ := List.exists_cons_of_ne_nil (between_ne_nil e.1.toList rest)
    rw [hps]
    rfl
  · have hnot : ¬ e.1.toList <:+: cs := fun hstands => hoccurs ⟨hkey, hstands⟩
    rw [fragments_cons_of_not_occurs hoccurs, between_of_not_infix hnot]
    exact List.flatMap_singleton ..
termination_by cs.length

theorem flatMap_splitAt (hkey : e.1.toList ≠ []) (p : Part α) :
    (p.splitAt e).flatMap (·.fragments table) = p.fragments (e :: table) := by
  cases p with
  | text cs => exact fragments_text_cons hkey cs
  | entry f => rfl

theorem not_isEmpty_of_mem_splitAt {p q : Part α} (hp : p.isEmpty = false) (h : q ∈ p.splitAt e) :
    q.isEmpty = false := by
  cases p with
  | text cs => simpa using (List.mem_filter.1 h).2
  | entry f =>
    cases List.mem_singleton.1 h
    rfl

theorem fragments_of_empty_table {p : Part α} (hp : p.isEmpty = false) :
    p.fragments [] = [p.fragment] := by
  cases p with
  | text cs => exact fragments_of_uncut (by simpa [Part.isEmpty] using hp) rfl
  | entry f => rfl

/-- Splitting parts at each key in turn leaves what dividing them by the whole table leaves. -/
theorem foldl_splitAt (table : OrderedMap String α) {ps : List (Part α)}
    (hps : ∀ p ∈ ps, p.isEmpty = false) :
    ((table.filter fun e => e.1 ≠ "").foldl (fun ps e => ps.flatMap (·.splitAt e)) ps).map
      Part.fragment = ps.flatMap (·.fragments table) := by
  induction table generalizing ps with
  | nil =>
    rw [List.flatMap_congr fun p hp => fragments_of_empty_table (hps p hp)]
    exact List.map_eq_flatMap
  | cons e table ih =>
    rw [List.filter_cons]
    split
    · next hkey =>
      have hne : e.1.toList ≠ [] := by simpa using hkey
      rw [List.foldl_cons, ih, List.flatMap_assoc]
      · simp only [flatMap_splitAt hne]
      · rw [List.forall_mem_flatMap]
        exact fun p hp q hq => not_isEmpty_of_mem_splitAt (hps p hp) hq
    · next hkey =>
      have hempty : e.1.toList = [] := by simpa using hkey
      rw [ih hps]
      refine List.flatMap_congr fun p _ => ?_
      cases p with
      | text cs => exact (fragments_cons_of_not_occurs fun hoccurs => hoccurs.1 hempty).symm
      | entry f => rfl

/-- Searching for the first key again on both sides of each cut gives what splitting key by key gives. -/
theorem destructure_eq_splitAtKeys (table : OrderedMap String α) {token : String} (h : token ≠ "") :
    destructure table token = splitAtKeys table token := by
  have hne : token.toList ≠ [] := mt String.toList_eq_nil_iff.1 h
  have hstart : ∀ p ∈ [(Part.text token.toList : Part α)], p.isEmpty = false := by
    simpa [Part.isEmpty] using h
  rw [destructure, if_neg hne, splitAtKeys, foldl_splitAt table hstart]
  exact (List.flatMap_singleton ..).symm

/-- The second key stands further left, and the first one overlaps with itself. -/
theorem destructure_eq_splitAtKeys_overlapping :
    "[aaa" ≠ "" ∧
      destructure [("aa", 1), ("[a", 2), ("", 3)] "[aaa" =
        splitAtKeys [("aa", 1), ("[a", 2), ("", 3)] "[aaa" ∧
      splitAtKeys [("aa", 1), ("[a", 2), ("", 3)] "[aaa" =
        [.literal "[", .payload "aa" 1, .literal "a"] := by
  refine ⟨by decide, destructure_eq_splitAtKeys _ (by decide), ?_⟩
  simp [splitAtKeys, between, Part.splitAt, Part.isEmpty, Part.fragment]

end ToolBindings.Template
