import Mathlib.Data.List.TakeWhile
import ToolBindings.Template.Token

/-!
# The grammar of command templates

`Lexeme` says how a segment is written, and `Reads` how a text is read segment by segment. A segment is
read exactly where one is written (`segment?_eq_some_iff`), so the segments of a text are what reading it
from left to right gives, and where no segment is written there is a quote or a backslash. A template is
accepted exactly if it can be read to its end; otherwise the error tells where the reading stops and why
(`tokens_grammar`).
-/
namespace ToolBindings.Template

def escapable : List Char := [backslash, doubleQuote, '$', '\x60', '\n']

inductive Escaped : List Char → List Char → Prop
  | nil : Escaped [] []
  | plain {c : Char} {inside text : List Char} : c ≠ doubleQuote → c ≠ backslash →
    Escaped inside text → Escaped (c :: inside) (c :: text)
  | escape (c : Char) {inside text : List Char} : Escaped inside text →
    Escaped (backslash :: c :: inside) ((if c ∈ escapable then [c] else [backslash, c]) ++ text)

def special : List Char := [singleQuote, doubleQuote, backslash]

def Bare (c : Char) : Prop := Text.isBlank c = false ∧ c ∉ special

structure Run (kind : Char → Prop) (run rest : List Char) : Prop where
  ne_nil : run ≠ []
  all : ∀ c ∈ run, kind c
  ends : ∀ c ∈ rest.head?, ¬ kind c

/-- How a segment is written where `rest` follows it. -/
inductive Lexeme : Segment → List Char → List Char → Prop
  | blank {run rest : List Char} : Run (fun c => Text.isBlank c = true) run rest →
    Lexeme .blank run rest
  | single {text : List Char} (rest : List Char) : singleQuote ∉ text →
    Lexeme (.piece text) (singleQuote :: text ++ [singleQuote]) rest
  | double {inside text : List Char} (rest : List Char) : Escaped inside text →
    Lexeme (.piece text) (doubleQuote :: inside ++ [doubleQuote]) rest
  | escape (c : Char) (rest : List Char) : Lexeme (.piece [c]) [backslash, c] rest
  | bare {run rest : List Char} : Run Bare run rest → Lexeme (.piece run) run rest

/-- Reading a text from the left gives the segments and stops before the last list of characters. -/
inductive Reads : List Char → List Segment → List Char → Prop
  | done (cs : List Char) : Reads cs [] cs
  | step {s : Segment} {written rest stop : List Char} {ss : List Segment} :
    Lexeme s written rest → Reads rest ss stop → Reads (written ++ rest) (s :: ss) stop

theorem isBare_iff (c : Char) : isBare c = true ↔ Bare c := by
  simp [isBare, Bare, special, and_assoc]

theorem run_iff {p : Char → Bool} {kind : Char → Prop} (hp : ∀ c, p c = true ↔ kind c) {c : Char}
    {cs run rest : List Char} : Run kind run rest ∧ c :: cs = run ++ rest ↔
      kind c ∧ run = c :: cs.takeWhile p ∧ rest = cs.dropWhile p := by
  constructor
  · rintro ⟨⟨hne, hall, hends⟩, h⟩
    cases run with
    | nil => exact absurd rfl hne
    | cons d run =>
      rw [List.cons_append] at h
      obtain ⟨rfl, rfl⟩ := List.cons.inj h
      obtain ⟨hc, hrun⟩ := List.forall_mem_cons.1 hall
      have hpos : ∀ d ∈ run, p d = true := fun d hd => (hp d).2 (hrun d hd)
      rw [List.takeWhile_append_of_pos hpos, List.dropWhile_append_of_pos hpos]
      cases rest with
      | nil => simp [hc]
      | cons d rest =>
        have hd : p d = false := Bool.eq_false_iff.2 (mt (hp d).1 (hends d rfl))
        simp [hc, hd]
  · rintro ⟨hc, rfl, rfl⟩
    refine ⟨⟨List.cons_ne_nil _ _, ?_, fun d hd => ?_⟩, ?_⟩
    · exact List.forall_mem_cons.2 ⟨hc, fun d hd => (hp d).1 (List.mem_takeWhile_imp hd)⟩
    · have hnot := List.head?_dropWhile_not p cs
      rw [hd] at hnot
      exact fun hkind => absurd ((hp d).2 hkind) (Bool.eq_false_iff.1 hnot)
    · rw [List.cons_append, List.takeWhile_append_dropWhile]

theorem isUnescaped_iff {c : Char} : isUnescaped c = true ↔ c ∈ escapable := by
  simp [isUnescaped, escapable]

theorem escaping_append (c : Char) (text : List Char) :
    (if isUnescaped c then c :: text else backslash :: c :: text) =
      (if c ∈ escapable then [c] else [backslash, c]) ++ text := by
  by_cases hc : c ∈ escapable
  · rw [if_pos hc, if_pos (isUnescaped_iff.2 hc)]
    rfl
  · rw [if_neg hc, if_neg (mt isUnescaped_iff.1 hc)]
    rfl

section
variable {cs text rest : List Char}

theorem singleQuoted?_eq_some_iff :
    singleQuoted? cs = some (text, rest) ↔ singleQuote ∉ text ∧ cs = text ++ singleQuote :: rest := by
  induction cs generalizing text with
  | nil => simp [singleQuoted?]
  | cons c cs ih =>
    rw [singleQuoted?]
    split
    · next hc =>
      subst hc
      constructor
      · intro h
        cases h
        exact ⟨List.not_mem_nil, rfl⟩
      · rintro ⟨hnot, h⟩
        cases text with
        | nil =>
          cases h
          rfl
        | cons d text =>
          cases h
          exact absurd List.mem_cons_self hnot
    · next hc =>
      constructor
      · intro h
        obtain ⟨t, rfl, ht⟩ := exists_of_map_fst h
        obtain ⟨hnot, rfl⟩ := ih.1 ht
        exact ⟨fun hmem => (List.mem_cons.1 hmem).elim (fun h => hc h.symm) hnot, rfl⟩
      · rintro ⟨hnot, h⟩
        cases text with
        | nil =>
          cases h
          exact absurd rfl hc
        | cons d text =>
          cases h
          rw [ih.2 ⟨fun hmem => hnot (List.mem_cons_of_mem _ hmem), rfl⟩]
          rfl

theorem exists_of_doubleQuoted? (h : doubleQuoted? cs = some (text, rest)) :
    ∃ inside, Escaped inside text ∧ cs = inside ++ doubleQuote :: rest := by
  fun_induction doubleQuoted? cs generalizing text with
  | case1 => cases h
  | case2 r =>
    cases h
    exact ⟨[], .nil, rfl⟩
  | case3 c r ih =>
    obtain ⟨t, rfl, ht⟩ := exists_of_map_fst h
    obtain ⟨inside, hinside, rfl⟩ := ih ht
    refine ⟨backslash :: c :: inside, ?_, rfl⟩
    rw [escaping_append]
    exact .escape c hinside
  | case4 c r hquote hslash ih =>
    obtain ⟨t, rfl, ht⟩ := exists_of_map_fst h
    have hplain : c ≠ backslash := fun hc => by
      cases r with
      | nil => cases ht
      | cons d r => exact hslash d r hc rfl
    obtain ⟨inside, hinside, rfl⟩ := ih ht
    exact ⟨c :: inside, .plain hquote hplain hinside, rfl⟩

theorem doubleQuoted?_of_escaped {inside : List Char} (h : Escaped inside text) (rest : List Char) :
    doubleQuoted? (inside ++ doubleQuote :: rest) = some (text, rest) := by
  induction h with
  | nil => rfl
  | @plain c inside text hquote hslash _ ih =>
    rw [List.cons_append, doubleQuoted?, ih]
    · rfl
    · exact hquote
    · exact fun _ _ hc => absurd hc hslash
  | @escape c inside text _ ih =>
    rw [← escaping_append]
    change (doubleQuoted? (inside ++ doubleQuote :: rest)).map _ = _
    rw [ih]
    rfl

theorem segment?_cons {c : Char} (hc : c ∉ special) (cs : List Char) :
    segment? (c :: cs) =
      if Text.isBlank c then some (.blank, cs.dropWhile Text.isBlank)
      else some (.piece (c :: cs.takeWhile isBare), cs.dropWhile isBare) := by
  unfold segment?
  split
  · next heq => cases heq
  · next heq =>
    cases heq
    exact absurd (by decide) hc
  · next heq =>
    cases heq
    exact absurd (by decide) hc
  · next heq =>
    cases heq
    exact absurd (by decide) hc
  · next heq =>
    cases heq
    exact absurd (by decide) hc
  · next heq =>
    cases heq
    rfl

theorem mem_special {c : Char} :
    c ∈ special ↔ c = singleQuote ∨ c = doubleQuote ∨ c = backslash := by
  simp [special]

theorem exists_lexeme_of_segment? {s : Segment} (h : segment? cs = some (s, rest)) :
    ∃ written, Lexeme s written rest ∧ cs = written ++ rest := by
  cases cs with
  | nil => cases h
  | cons c cs =>
    by_cases hc : c ∈ special
    · rcases mem_special.1 hc with rfl | rfl | rfl
      · obtain ⟨t, rfl, ht⟩ := exists_of_map_fst h
        obtain ⟨hnot, rfl⟩ := singleQuoted?_eq_some_iff.1 ht
        exact ⟨_, .single rest hnot, by simp⟩
      · obtain ⟨t, rfl, ht⟩ := exists_of_map_fst h
        obtain ⟨inside, hinside, rfl⟩ := exists_of_doubleQuoted? ht
        exact ⟨_, .double rest hinside, by simp⟩
      · cases cs with
        | nil => cases h
        | cons d cs =>
          cases h
          exact ⟨_, .escape d rest, rfl⟩
    · rw [segment?_cons hc] at h
      split at h
      · next hblank =>
        cases h
        obtain ⟨hrun, happend⟩ := (run_iff fun _ => Iff.rfl).2 ⟨hblank, rfl, rfl⟩
        exact ⟨_, .blank hrun, happend⟩
      · next hblank =>
        cases h
        have hbare : Bare c := ⟨Bool.eq_false_iff.2 hblank, hc⟩
        obtain ⟨hrun, happend⟩ := (run_iff isBare_iff).2 ⟨hbare, rfl, rfl⟩
        exact ⟨_, .bare hrun, happend⟩

theorem not_mem_special_of_isBlank {c : Char} (h : Text.isBlank c = true) : c ∉ special := by
  intro hc
  rcases mem_special.1 hc with rfl | rfl | rfl <;> exact absurd h (by decide)

theorem segment?_of_lexeme {s : Segment} {written : List Char} (h : Lexeme s written rest) :
    segment? (written ++ rest) = some (s, rest) := by
  cases h with
  | @blank _ _ hrun =>
    obtain ⟨c, run, rfl⟩ := List.exists_cons_of_ne_nil hrun.ne_nil
    obtain ⟨hblank, hwritten, hrest⟩ := (run_iff fun _ => Iff.rfl).1 ⟨hrun, List.cons_append.symm⟩
    rw [List.cons_append, segment?_cons (not_mem_special_of_isBlank hblank), if_pos hblank, ← hrest]
  | @single text _ hnot =>
    have hread : singleQuoted? (text ++ singleQuote :: rest) = some (text, rest) :=
      singleQuoted?_eq_some_iff.2 ⟨hnot, rfl⟩
    rw [List.append_assoc]
    change (singleQuoted? (text ++ singleQuote :: rest)).map _ = _
    rw [hread]
    rfl
  | @double inside text _ hinside =>
    have hread := doubleQuoted?_of_escaped hinside rest
    rw [List.append_assoc]
    change (doubleQuoted? (inside ++ doubleQuote :: rest)).map _ = _
    rw [hread]
    rfl
  | escape c => rfl
  | @bare _ _ hrun =>
    obtain ⟨c, run, rfl⟩ := List.exists_cons_of_ne_nil hrun.ne_nil
    obtain ⟨hbare, hwritten, hrest⟩ := (run_iff isBare_iff).1 ⟨hrun, List.cons_append.symm⟩
    rw [List.cons_append, segment?_cons hbare.2, if_neg (Bool.eq_false_iff.1 hbare.1), ← hwritten,
      ← hrest]

theorem segment?_eq_some_iff {s : Segment} :
    segment? cs = some (s, rest) ↔ ∃ written, Lexeme s written rest ∧ cs = written ++ rest :=
  ⟨exists_lexeme_of_segment?, fun ⟨_, h, hcs⟩ => hcs ▸ segment?_of_lexeme h⟩

/-- A text that cannot be read on begins with a quote or is a single backslash. -/
theorem stuck_cases {c : Char} (h : segment? (c :: cs) = none) :
    c = singleQuote ∨ c = doubleQuote ∨ c = backslash := by
  refine mem_special.1 (Classical.byContradiction fun hc => ?_)
  rw [segment?_cons hc] at h
  split at h <;> cases h

theorem segments_nil : segments [] = .ok [] := by
  rw [segments]

theorem segments_of_segment? {s : Segment} (h : segment? cs = some (s, rest)) :
    segments cs = (segments rest).map (s :: ·) := by
  cases cs with
  | nil => cases h
  | cons c cs =>
    rw [segments]
    split
    · next hnone =>
      rw [h] at hnone
      cases hnone
    · next hsome =>
      rw [h] at hsome
      cases hsome
      rfl

theorem segments_of_stuck (hne : cs ≠ []) (h : segment? cs = none) : segments cs = .error cs := by
  cases cs with
  | nil => exact absurd rfl hne
  | cons c cs =>
    rw [segments]
    split
    · rfl
    · next hsome =>
      rw [h] at hsome
      cases hsome

theorem Reads.segments_eq {ss : List Segment} {stop : List Char} (h : Reads cs ss stop) :
    segments cs = (segments stop).map (ss ++ ·) := by
  induction h with
  | done cs => cases hs : segments cs <;> rfl
  | @step s written rest stop ss hs _ ih =>
    rw [segments_of_segment? (segment?_of_lexeme hs), ih]
    cases segments stop <;> rfl

theorem Reads.exists_append {ss : List Segment} {stop : List Char} (h : Reads cs ss stop) :
    ∃ read, cs = read ++ stop := by
  induction h with
  | done cs => exact ⟨[], rfl⟩
  | @step s written rest stop ss _ _ ih =>
    obtain ⟨read, rfl⟩ := ih
    exact ⟨written ++ read, (List.append_assoc ..).symm⟩

/-- Every text can be read until it ends or until no segment is written there. -/
theorem exists_reads (cs : List Char) :
    ∃ ss stop, Reads cs ss stop ∧ (stop ≠ [] → segment? stop = none) := by
  fun_induction segments cs with
  | case1 => exact ⟨[], [], .done [], fun h => absurd rfl h⟩
  | case2 c r hnone => exact ⟨[], c :: r, .done _, fun _ => hnone⟩
  | case3 c r s rest hsome _ ih =>
    obtain ⟨ss, stop, hreads, hstop⟩ := ih
    obtain ⟨written, hs, happend⟩ := exists_lexeme_of_segment? hsome
    exact ⟨s :: ss, stop, happend ▸ hreads.step hs, hstop⟩

theorem Reads.segments_eq_ok {ss : List Segment} (h : Reads cs ss []) : segments cs = .ok ss := by
  rw [h.segments_eq, segments_nil]
  exact congrArg Except.ok (List.append_nil ss)

theorem Reads.segments_eq_error {ss : List Segment} (h : Reads cs ss rest) (hne : rest ≠ [])
    (hstuck : segment? rest = none) : segments cs = .error rest := by
  rw [h.segments_eq, segments_of_stuck hne hstuck]
  rfl

theorem segments_eq_ok_iff {ss : List Segment} : segments cs = .ok ss ↔ Reads cs ss [] := by
  refine ⟨fun h => ?_, Reads.segments_eq_ok⟩
  obtain ⟨ss', stop, hreads, hstop⟩ := exists_reads cs
  by_cases hne : stop = []
  · subst hne
    rw [hreads.segments_eq_ok] at h
    cases h
    exact hreads
  · rw [hreads.segments_eq_error hne (hstop hne)] at h
    cases h

theorem segments_eq_error_iff : segments cs = .error rest ↔
    ∃ ss, Reads cs ss rest ∧ rest ≠ [] ∧ segment? rest = none := by
  refine ⟨fun h => ?_, fun ⟨ss, hreads, hne, hstuck⟩ => hreads.segments_eq_error hne hstuck⟩
  obtain ⟨ss, stop, hreads, hstop⟩ := exists_reads cs
  by_cases hne : stop = []
  · subst hne
    rw [hreads.segments_eq_ok] at h
    cases h
  · rw [hreads.segments_eq_error hne (hstop hne)] at h
    cases h
    exact ⟨ss, hreads, hne, hstop hne⟩

end

def Segment.text : Segment → List Char
  | .blank => []
  | .piece text => text

/-- What stands between blanks, its pieces joined, unless that is empty. -/
def words (ss : List Segment) : List (List Char) :=
  ((ss.splitOnP (· = .blank)).map (·.flatMap Segment.text)).filter (· ≠ [])

theorem putToken_filter (token : List Char) (groups : List (List Char)) :
    putToken token (groups.filter (· ≠ [])) = (token :: groups).filter (· ≠ []) := by
  cases token <;> rfl

theorem modifyHead_nil_append (groups : List (List Char)) :
    groups.modifyHead ([] ++ ·) = groups := by
  cases groups <;> rfl

theorem glue_eq (token : List Char) (ss : List Segment) : glue token ss =
    (((ss.splitOnP (· = .blank)).map (·.flatMap Segment.text)).modifyHead
      (token ++ ·)).filter (· ≠ []) := by
  induction ss generalizing token with
  | nil =>
    rw [glue, ← List.filter_nil, putToken_filter, List.splitOnP_nil]
    simp
  | cons s ss ih =>
    rw [List.splitOnP_cons_eq_if_modifyHead]
    cases s with
    | blank =>
      rw [glue, ih, putToken_filter, modifyHead_nil_append]
      simp
    | piece text =>
      rw [glue, ih]
      cases List.splitOnP (· = .blank) ss <;> simp [Segment.text]

theorem glue_nil (ss : List Segment) : glue [] ss = words ss := by
  rw [glue_eq, words, modifyHead_nil_append]

/-- The error where the text cannot be read on, so many bytes into the template. -/
inductive BreaksOff (offset : Nat) : List Char → TokenError → Prop
  | unclosedQuote {quote : Char} (rest : List Char) : quote = singleQuote ∨ quote = doubleQuote →
    BreaksOff offset (quote :: rest) (.unclosedQuote quote offset)
  | trailingBackslash (rest : List Char) :
    BreaksOff offset (backslash :: rest) (.trailingBackslash offset)

theorem offset_eq (read rest : List Char) : (String.ofList read).utf8ByteSize =
    Text.byteSize (read ++ rest) - Text.byteSize rest := by
  rw [Text.utf8ByteSize_ofList, Text.byteSize_append, Nat.add_sub_cancel]

theorem breaksOff_iff {read rest : List Char} {e : TokenError} (hne : rest ≠ [])
    (h : segment? rest = none) : BreaksOff (String.ofList read).utf8ByteSize rest e ↔
      e = .ofRest (read ++ rest) rest := by
  rw [offset_eq read rest]
  cases rest with
  | nil => exact absurd rfl hne
  | cons c rest =>
    constructor
    · intro hb
      cases hb with
      | unclosedQuote _ hc => rcases hc with rfl | rfl <;> rfl
      | trailingBackslash => rfl
    · rintro rfl
      rcases stuck_cases h with rfl | rfl | rfl
      · exact .unclosedQuote rest (.inl rfl)
      · exact .unclosedQuote rest (.inr rfl)
      · exact .trailingBackslash rest

theorem stuck_iff {rest : List Char} : segment? rest = none ↔
    ∀ s written after, rest = written ++ after → ¬ Lexeme s written after := by
  rw [Option.eq_none_iff_forall_ne_some]
  constructor
  · intro h s written after happend hs
    exact h _ (segment?_eq_some_iff.2 ⟨written, hs, happend⟩)
  · intro h ⟨s, after⟩ hs
    obtain ⟨written, hlexeme, happend⟩ := exists_lexeme_of_segment? hs
    exact h s written after happend hlexeme

theorem tokens_eq_ok_iff {template : String} {ts : List String} : tokens template = .ok ts ↔
    ∃ ss, segments template.toList = .ok ss ∧ ts = (words ss).map String.ofList := by
  rw [tokens, tokenList]
  cases segments template.toList with
  | ok ss =>
    change Except.ok ((glue [] ss).map String.ofList) = Except.ok ts ↔ _
    rw [glue_nil]
    constructor
    · intro h
      cases h
      exact ⟨ss, rfl, rfl⟩
    · rintro ⟨_, h, rfl⟩
      cases h
      rfl
  | error rest => exact ⟨nofun, nofun⟩

theorem tokens_eq_error_iff {template : String} {e : TokenError} : tokens template = .error e ↔
    ∃ rest, segments template.toList = .error rest ∧ e = .ofRest template.toList rest := by
  rw [tokens, tokenList]
  cases segments template.toList with
  | ok ss => exact ⟨nofun, nofun⟩
  | error rest =>
    constructor
    · intro h
      cases h
      exact ⟨rest, rfl, rfl⟩
    · rintro ⟨_, h, rfl⟩
      cases h
      rfl

/-- A template is accepted exactly if it can be read to its end, and its tokens are the words of what was
read. Otherwise the reading breaks off at the first place where no segment is written. -/
theorem tokens_grammar (template : String) :
    (∀ ts, tokens template = .ok ts ↔
      ∃ ss, Reads template.toList ss [] ∧ ts = (words ss).map String.ofList) ∧
    ∀ e, tokens template = .error e ↔
      ∃ read rest ss, template.toList = read ++ rest ∧ Reads template.toList ss rest ∧
        (∀ s written after, rest = written ++ after → ¬ Lexeme s written after) ∧
        BreaksOff (String.ofList read).utf8ByteSize rest e := by
  refine ⟨fun ts => ?_, fun e => ?_⟩
  · simp only [tokens_eq_ok_iff, segments_eq_ok_iff]
  · simp only [tokens_eq_error_iff, segments_eq_error_iff]
    constructor
    · rintro ⟨rest, ⟨ss, hreads, hne, hstuck⟩, he⟩
      obtain ⟨read, hread⟩ := hreads.exists_append
      rw [hread] at he
      exact ⟨read, rest, ss, hread, hreads, stuck_iff.1 hstuck, (breaksOff_iff hne hstuck).2 he⟩
    · rintro ⟨read, rest, ss, hread, hreads, hstuck, hbreaks⟩
      have hne : rest ≠ [] := by
        cases hbreaks <;> exact List.cons_ne_nil _ _
      refine ⟨rest, ⟨ss, hreads, hne, stuck_iff.2 hstuck⟩, ?_⟩
      rw [hread]
      exact (breaksOff_iff hne (stuck_iff.2 hstuck)).1 hbreaks

end ToolBindings.Template
