import ToolBindings.Proofs.Blanks

/-!
# Quoting words

Every word that is not empty can be quoted with a backslash before each of its characters or between double
quotes, and between single quotes if it contains none. A quoted word is read as pieces that make up the word
(`Quoting.reads_write`), so a line of quoted words with blanks between them has just these words as its
tokens (`tokens_joined`).
-/
namespace ToolBindings.Template

inductive Quoting
  | backslashes
  | single
  | double

def writeInside (c : Char) : List Char :=
  if c = backslash ∨ c = doubleQuote then [backslash, c] else [c]

def Quoting.write : Quoting → List Char → List Char
  | .backslashes, text => text.flatMap fun c => [backslash, c]
  | .single, text => singleQuote :: text ++ [singleQuote]
  | .double, text => doubleQuote :: text.flatMap writeInside ++ [doubleQuote]

def Quoting.Fits : Quoting → List Char → Prop
  | .single, text => singleQuote ∉ text
  | _, _ => True

instance : (quoting : Quoting) → (text : List Char) → Decidable (quoting.Fits text)
  | .single, text => inferInstanceAs (Decidable (singleQuote ∉ text))
  | .backslashes, _ | .double, _ => .isTrue trivial

structure QuotedWord where
  quoting : Quoting
  text : String
  ne_empty : text ≠ ""
  fits : quoting.Fits text.toList

def QuotedWord.written (w : QuotedWord) : String := String.ofList (w.quoting.write w.text.toList)

/-- The line consists of the words in their order, with a run of blanks between two of them. -/
inductive Joined : List String → String → Prop
  | nil : Joined [] ""
  | single (word : String) : Joined [word] word
  | cons {word next blanks line : String} {words : List String} : Blanks blanks.toList →
    Joined (next :: words) line → Joined (word :: next :: words) (word ++ blanks ++ line)

theorem glue_singletons (token text : List Char) :
    glue token (text.map fun c => .piece [c]) = putToken (token ++ text) [] := by
  induction text generalizing token with
  | nil =>
    rw [List.append_nil]
    rfl
  | cons c text ih =>
    rw [List.map_cons, glue, ih, List.append_assoc]
    rfl

theorem reads_backslashes (text : List Char) :
    Reads (Quoting.backslashes.write text) (text.map fun c => .piece [c]) [] := by
  induction text with
  | nil => exact .done []
  | cons c text ih => exact .step (.escape c _) ih

theorem escaped_flatMap (text : List Char) : Escaped (text.flatMap writeInside) text := by
  induction text with
  | nil => exact .nil
  | cons c text ih =>
    rw [List.flatMap_cons, writeInside]
    split
    · next hc =>
      have hescapable : c ∈ escapable := by
        rcases hc with rfl | rfl <;> simp [escapable]
      have hescaped := Escaped.escape c ih
      rwa [if_pos hescapable] at hescaped
    · next hc =>
      obtain ⟨hslash, hquote⟩ := not_or.1 hc
      exact .plain hquote hslash ih

theorem Lexeme.reads {s : Segment} {written : List Char} (h : Lexeme s written []) :
    Reads written [s] [] := by
  have hreads := Reads.step h (.done [])
  rwa [List.append_nil] at hreads

/-- A quoted text is read as pieces that make up the text. -/
theorem Quoting.reads_write {quoting : Quoting} {text : List Char} (hfits : quoting.Fits text) :
    ∃ ss, Reads (quoting.write text) ss [] ∧ glue [] ss = putToken text [] := by
  cases quoting with
  | backslashes => exact ⟨_, reads_backslashes text, glue_singletons [] text⟩
  | single => exact ⟨[.piece text], (Lexeme.single [] hfits).reads, rfl⟩
  | double => exact ⟨[.piece text], (Lexeme.double [] (escaped_flatMap text)).reads, rfl⟩

theorem QuotedWord.reads_written (w : QuotedWord) :
    ∃ ss, Reads w.written.toList ss [] ∧ glue [] ss = [w.text.toList] := by
  obtain ⟨ss, hreads, hglue⟩ := Quoting.reads_write w.fits
  have hput : putToken w.text.toList [] = [w.text.toList] := by
    simp [putToken, w.ne_empty]
  rw [QuotedWord.written, String.toList_ofList]
  exact ⟨ss, hreads, hglue.trans hput⟩

theorem tokensAfter_joined {words : List QuotedWord} {line : String}
    (h : Joined (words.map (·.written)) line) :
    tokensAfter [] line.toList = .ok (words.map (·.text.toList)) := by
  induction words generalizing line with
  | nil =>
    cases h
    rw [tokensAfter_nil, String.toList_empty, segments_nil]
    rfl
  | cons word words ih =>
    obtain ⟨ss, hreads, hglue⟩ := word.reads_written
    cases words with
    | nil =>
      cases h
      rw [tokensAfter, hreads.segments_eq_ok]
      exact congrArg Except.ok hglue
    | cons next words =>
      cases h with
      | @cons _ _ blanks line _ hblanks hline =>
        rw [String.toList_append, String.toList_append, List.append_assoc,
          tokensAfter_append hreads hblanks, ih hline, hglue]
        rfl

/-- A line of quoted words is read as these words, however each of them is quoted and whatever blanks stand
between them. -/
theorem tokens_joined {words : List QuotedWord} {line : String}
    (h : Joined (words.map (·.written)) line) : tokens line = .ok (words.map (·.text)) := by
  have htexts : (words.map (·.text.toList)).map String.ofList = words.map (·.text) := by simp
  rw [tokens_eq_tokensAfter, tokensAfter_joined h]
  exact congrArg Except.ok htexts

def quotedThreeWays : List QuotedWord :=
  [⟨.backslashes, "a b", by decide, trivial⟩, ⟨.single, "\"\\\n", by decide, by decide⟩,
    ⟨.double, "it\x27s \\", by decide, trivial⟩]

def lineThreeWays : String :=
  "\\a\\ \\b" ++ " " ++ ("\x27\"\\\n\x27" ++ "\u3000\t" ++ "\"it\x27s \\\\\"")

theorem tokens_joined_three_ways : Joined (quotedThreeWays.map (·.written)) lineThreeWays ∧
    tokens lineThreeWays = .ok ["a b", "\"\\\n", "it\x27s \\"] := by
  have hspace : Blanks " ".toList := ⟨by decide, by simp [Text.isBlank]⟩
  have hwide : Blanks "\u3000\t".toList := ⟨by decide, by simp [Text.isBlank]⟩
  have hjoined : Joined (quotedThreeWays.map (·.written)) lineThreeWays :=
    .cons hspace (.cons hwide (.single _))
  exact ⟨hjoined, tokens_joined hjoined⟩

end ToolBindings.Template
