import Mathlib
import ToolBindings.Proofs.Lexemes

/-!
# Templates side by side

A run of blanks ends whatever stands before it: behind a template that is read to its end no quote and no
token is open, and blanks that meet at a seam are one run. So the tokens of two templates with blanks
between them are the tokens of the one and those of the other (`tokensAfter_append`), and where the second
breaks off, the whole breaks off as many bytes further on (`tokens_append_blanks`).
-/
namespace ToolBindings.Template

/-- A run of blanks, which is not empty. -/
structure Blanks (run : List Char) : Prop where
  ne_nil : run ≠ []
  all : ∀ c ∈ run, Text.isBlank c = true

def tokensAfter (token cs : List Char) : Except (List Char) (List (List Char)) :=
  (segments cs).map (glue token)

section
variable {token cs run rest : List Char} {ss : List Segment}

theorem putToken_append (token : List Char) (us vs : List (List Char)) :
    putToken token (us ++ vs) = putToken token us ++ vs := by
  cases token <;> rfl

theorem tokensAfter_of_segment? {s : Segment} (h : segment? cs = some (s, rest)) (token : List Char) :
    tokensAfter token cs = (segments rest).map fun ss => glue token (s :: ss) := by
  rw [tokensAfter, segments_of_segment? h]
  cases segments rest <;> rfl

theorem tokensAfter_cons_blank {c : Char} (hc : Text.isBlank c = true) (token cs : List Char) :
    tokensAfter token (c :: cs) =
      (tokensAfter [] (cs.dropWhile Text.isBlank)).map (putToken token) := by
  have hsegment := segment?_cons (not_mem_special_of_isBlank hc) cs
  rw [if_pos hc] at hsegment
  rw [tokensAfter_of_segment? hsegment, tokensAfter]
  cases segments (cs.dropWhile Text.isBlank) <;> rfl

theorem tokensAfter_dropWhile (cs : List Char) :
    tokensAfter [] (cs.dropWhile Text.isBlank) = tokensAfter [] cs := by
  cases cs with
  | nil => rfl
  | cons c cs =>
    rw [List.dropWhile_cons]
    split
    · next hc =>
      rw [tokensAfter_cons_blank hc]
      cases tokensAfter [] (cs.dropWhile Text.isBlank) <;> rfl
    · rfl

theorem tokensAfter_blanks (hrun : Blanks run) (token cs : List Char) :
    tokensAfter token (run ++ cs) = (tokensAfter [] cs).map (putToken token) := by
  obtain ⟨c, run, rfl⟩ := List.exists_cons_of_ne_nil hrun.ne_nil
  obtain ⟨hc, hall⟩ := List.forall_mem_cons.1 hrun.all
  rw [List.cons_append, tokensAfter_cons_blank hc, List.dropWhile_append_of_pos hall,
    tokensAfter_dropWhile]

theorem Blanks.not_bare_head (hrun : Blanks run) (cs : List Char) :
    ∀ c ∈ (run ++ cs).head?, ¬ Bare c := by
  obtain ⟨c, run, rfl⟩ := List.exists_cons_of_ne_nil hrun.ne_nil
  intro d hd hbare
  cases hd
  exact Bool.false_ne_true (hbare.1.symm.trans (hrun.all c List.mem_cons_self))

theorem Lexeme.before_blanks {text written : List Char} (h : Lexeme (.piece text) written rest)
    (hrun : Blanks run) (cs : List Char) : Lexeme (.piece text) written (rest ++ (run ++ cs)) := by
  cases h with
  | single _ hnot => exact .single _ hnot
  | double _ hinside => exact .double _ hinside
  | escape c => exact .escape c _
  | bare hbare =>
    refine .bare ⟨hbare.ne_nil, hbare.all, ?_⟩
    cases rest with
    | nil => exact hrun.not_bare_head cs
    | cons d rest => exact hbare.ends

/-- The induction is on the reading of the first text. A run of blanks at its end is not read as it was, since
it goes on in `run`, but neither it nor `run` makes a token. -/
theorem tokensAfter_append (h : Reads cs ss []) (hrun : Blanks run) (token ds : List Char) :
    tokensAfter token (cs ++ (run ++ ds)) = (tokensAfter [] ds).map (glue token ss ++ ·) := by
  obtain ⟨stop, hstop⟩ : ∃ stop : List Char, stop = [] := ⟨[], rfl⟩
  rw [← hstop] at h
  induction h generalizing token with
  | done cs =>
    subst hstop
    rw [List.nil_append, tokensAfter_blanks hrun]
    cases tokensAfter [] ds with
    | error rest => rfl
    | ok ts => exact congrArg Except.ok (putToken_append token [] ts)
  | @step s written rest stop ss hs _ ih =>
    rw [List.append_assoc]
    cases s with
    | blank =>
      cases hs with
      | blank hblank =>
        rw [tokensAfter_blanks ⟨hblank.ne_nil, hblank.all⟩, ih [] hstop]
        cases tokensAfter [] ds with
        | error rest => rfl
        | ok ts => exact congrArg Except.ok (putToken_append token (glue [] ss) ts)
    | piece text =>
      rw [tokensAfter_of_segment? (segment?_of_lexeme (hs.before_blanks hrun ds))]
      exact ih (token ++ text) hstop

theorem tokensAfter_nil (cs : List Char) : tokensAfter [] cs = (segments cs).map words := by
  rw [tokensAfter]
  cases segments cs with
  | error rest => rfl
  | ok ss => exact congrArg Except.ok (glue_nil ss)

end

def TokenError.shifted (n : Nat) : TokenError → TokenError
  | .missing => .missing
  | .unclosedQuote quote offset => .unclosedQuote quote (offset + n)
  | .trailingBackslash offset => .trailingBackslash (offset + n)

theorem ofRest_append (front read rest : List Char) :
    TokenError.ofRest (front ++ (read ++ rest)) rest =
      (TokenError.ofRest (read ++ rest) rest).shifted (Text.byteSize front) := by
  have hoffset : Text.byteSize (front ++ (read ++ rest)) - Text.byteSize rest =
      Text.byteSize (read ++ rest) - Text.byteSize rest + Text.byteSize front := by
    simp only [Text.byteSize_append]
    omega
  unfold TokenError.ofRest
  simp only [hoffset]
  split
  · split <;> rfl
  · rfl

theorem tokens_eq_tokensAfter (template : String) : tokens template =
    ((tokensAfter [] template.toList).map (·.map String.ofList)).mapError
      (.ofRest template.toList) := by
  rw [tokens, tokenList, tokensAfter]
  cases segments template.toList <;> rfl

/-- If blanks stand behind a template that can be read, the tokens of what follows them are added to its
tokens. What cannot be read there is reported where it stands in the whole. -/
theorem tokens_append_blanks {a blanks : String} {xs : List String} (h : tokens a = .ok xs)
    (hblanks : Blanks blanks.toList) (b : String) : tokens (a ++ blanks ++ b) =
      ((tokens b).map (xs ++ ·)).mapError (·.shifted (a ++ blanks).utf8ByteSize) := by
  obtain ⟨ss, hss, rfl⟩ := tokens_eq_ok_iff.1 h
  have hwhole : tokensAfter [] (a ++ blanks ++ b).toList =
      (tokensAfter [] b.toList).map (words ss ++ ·) := by
    rw [String.toList_append, String.toList_append, List.append_assoc, ← glue_nil]
    exact tokensAfter_append (segments_eq_ok_iff.1 hss) hblanks [] b.toList
  rw [tokens_eq_tokensAfter, tokens_eq_tokensAfter, hwhole, tokensAfter_nil]
  cases hb : segments b.toList with
  | ok ts => exact congrArg Except.ok List.map_append
  | error rest =>
    obtain ⟨_, hreads, -⟩ := segments_eq_error_iff.1 hb
    obtain ⟨read, hread⟩ := hreads.exists_append
    have hshifted := ofRest_append (a ++ blanks).toList read rest
    rw [← hread, ← String.toList_append, ← Text.utf8ByteSize_ofList, String.ofList_toList]
      at hshifted
    exact congrArg Except.error hshifted

/-- The blanks at the seam are one run, and the quote is never closed. -/
theorem tokens_append_blanks_unclosed :
    tokens "é\\ x " = .ok ["é x"] ∧ Blanks "\u2003 ".toList ∧
      tokens ("é\\ x " ++ "\u2003 " ++ " y \x27z") =
        ((tokens " y \x27z").map (["é x"] ++ ·)).mapError
          (·.shifted ("é\\ x " ++ "\u2003 ").utf8ByteSize) ∧
      tokens " y \x27z" = .error (.unclosedQuote singleQuote 3) ∧
      ("é\\ x " ++ "\u2003 ").utf8ByteSize = 10 := by
  have htokens : tokens "é\\ x " = .ok ["é x"] := by cbv
  have hblanks : Blanks "\u2003 ".toList := ⟨by decide, by simp [Text.isBlank]⟩
  exact ⟨htokens, hblanks, tokens_append_blanks htokens hblanks " y \x27z", by cbv, by decide⟩

end ToolBindings.Template
