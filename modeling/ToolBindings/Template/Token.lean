import ToolBindings.Text.Blank
import ToolBindings.Text.Size

/-!
# Tokens of a command template

A template is read in segments: runs of blanks, quoted text, escaped characters and bare runs. The
pieces between two runs of blanks make one token; a token is never empty. Single quotes keep all
that they enclose. Between double quotes a backslash disappears before a backslash, a double quote,
a dollar sign, a backtick or a newline and stays before any other character. A backslash outside
quotes stands for the character behind it.

Reading stops at the first place where no segment can start: at a quote that is never closed, or at
a backslash with nothing behind it.
-/
namespace ToolBindings.Template

def singleQuote : Char := '\x27'
def doubleQuote : Char := '\x22'
def backslash : Char := '\x5c'

inductive Segment
  | blank
  | piece (text : List Char)
  deriving DecidableEq, Repr

def isBare (c : Char) : Bool :=
  !Text.isBlank c && c ≠ singleQuote && c ≠ doubleQuote && c ≠ backslash

def isUnescaped (c : Char) : Bool :=
  c = backslash ∨ c = doubleQuote ∨ c = '$' ∨ c = '\x60' ∨ c = '\n'

def singleQuoted? : List Char → Option (List Char × List Char)
  | [] => none
  | c :: r =>
    if c = singleQuote then some ([], r)
    else (singleQuoted? r).map (Prod.map (c :: ·) id)

/-- The text up to the closing double quote with its escapes undone, and what follows the quote. -/
def doubleQuoted? : List Char → Option (List Char × List Char)
  | [] => none
  | '\x22' :: r => some ([], r)
  | '\x5c' :: c :: r =>
    (doubleQuoted? r).map (Prod.map (fun t => if isUnescaped c then c :: t else backslash :: c :: t) id)
  | c :: r => (doubleQuoted? r).map (Prod.map (c :: ·) id)

def segment? : List Char → Option (Segment × List Char)
  | [] => none
  | '\x27' :: r => (singleQuoted? r).map (Prod.map .piece id)
  | '\x22' :: r => (doubleQuoted? r).map (Prod.map .piece id)
  | ['\x5c'] => none
  | '\x5c' :: c :: r => some (.piece [c], r)
  | c :: r =>
    if Text.isBlank c then some (.blank, r.dropWhile Text.isBlank)
    else some (.piece (c :: r.takeWhile isBare), r.dropWhile isBare)

theorem exists_of_map_fst {α β γ : Type} {f : α → β} {o : Option (α × γ)} {u : β} {rest : γ}
    (h : o.map (Prod.map f id) = some (u, rest)) : ∃ t, f t = u ∧ o = some (t, rest) := by
  obtain ⟨⟨t, r⟩, ho, e⟩ := Option.map_eq_some_iff.1 h
  simp only [Prod.map_apply, id, Prod.mk.injEq] at e
  exact ⟨t, e.1, e.2 ▸ ho⟩

theorem length_of_singleQuoted? {cs t rest : List Char} (h : singleQuoted? cs = some (t, rest)) :
    rest.length < cs.length := by
  induction cs generalizing t with
  | nil => simp [singleQuoted?] at h
  | cons c r ih =>
    simp only [singleQuoted?] at h
    split at h
    · simp at h; simp [h.2]
    · obtain ⟨t', -, h'⟩ := exists_of_map_fst h
      exact Nat.lt_succ_of_lt (ih h')

theorem length_of_doubleQuoted? {cs t rest : List Char} (h : doubleQuoted? cs = some (t, rest)) :
    rest.length < cs.length := by
  fun_induction doubleQuoted? cs generalizing t with
  | case1 => simp at h
  | case2 r => simp at h; simp [h.2]
  | case3 c r ih =>
    obtain ⟨t', -, h'⟩ := exists_of_map_fst h
    exact Nat.lt_succ_of_lt (Nat.lt_succ_of_lt (ih h'))
  | case4 c r _ _ ih =>
    obtain ⟨t', -, h'⟩ := exists_of_map_fst h
    exact Nat.lt_succ_of_lt (ih h')

theorem length_dropWhile_le (p : Char → Bool) (cs : List Char) :
    (cs.dropWhile p).length ≤ cs.length :=
  (List.dropWhile_sublist p).length_le

theorem length_of_segment? {cs rest : List Char} {s : Segment} (h : segment? cs = some (s, rest)) :
    rest.length < cs.length := by
  fun_cases segment? cs with
  | case1 => simp [segment?] at h
  | case2 r =>
    obtain ⟨t, -, h'⟩ := exists_of_map_fst h
    exact Nat.lt_succ_of_lt (length_of_singleQuoted? h')
  | case3 r =>
    obtain ⟨t, -, h'⟩ := exists_of_map_fst h
    exact Nat.lt_succ_of_lt (length_of_doubleQuoted? h')
  | case4 => simp [segment?] at h
  | case5 c r =>
    simp [segment?] at h
    simp only [h.2, List.length_cons]
    omega
  | case6 c r _ _ _ _ hb =>
    simp [segment?, hb] at h
    exact h.2 ▸ Nat.lt_succ_of_le (length_dropWhile_le Text.isBlank r)
  | case7 c r _ _ _ _ hb =>
    simp [segment?, hb] at h
    exact h.2 ▸ Nat.lt_succ_of_le (length_dropWhile_le isBare r)

def segments (cs : List Char) : Except (List Char) (List Segment) :=
  match cs with
  | [] => .ok []
  | c :: r =>
    match h : segment? (c :: r) with
    | none => .error (c :: r)
    | some (s, rest) =>
      have := length_of_segment? h
      (segments rest).map (s :: ·)
termination_by cs.length
decreasing_by exact this

def putToken (token : List Char) (tokens : List (List Char)) : List (List Char) :=
  if token.isEmpty then tokens else token :: tokens

def glue : List Char → List Segment → List (List Char)
  | token, [] => putToken token []
  | token, .blank :: ss => putToken token (glue [] ss)
  | token, .piece t :: ss => glue (token ++ t) ss

inductive TokenError
  | missing
  | unclosedQuote (quote : Char) (offset : Nat)
  | trailingBackslash (offset : Nat)
  deriving DecidableEq, Repr

def TokenError.message : TokenError → String
  | .missing => "command template is missing"
  | .unclosedQuote quote offset =>
    "unclosed " ++ String.singleton quote ++ " quote starting at byte " ++ toString offset
  | .trailingBackslash offset => "trailing backslash at byte " ++ toString offset

def TokenError.ofRest (template rest : List Char) : TokenError :=
  let offset := Text.byteSize template - Text.byteSize rest
  match rest with
  | c :: _ =>
    if c = backslash then .trailingBackslash offset
    else .unclosedQuote (if c = singleQuote then singleQuote else doubleQuote) offset
  | [] => .unclosedQuote doubleQuote offset

def tokenList (template : List Char) : Except TokenError (List (List Char)) :=
  match segments template with
  | .ok ss => .ok (glue [] ss)
  | .error rest => .error (.ofRest template rest)

def tokens (template : String) : Except TokenError (List String) :=
  (tokenList template.toList).map (·.map String.ofList)

def tokensOf (template : Option String) : Except TokenError (List String) :=
  match template with
  | none => .error .missing
  | some t => tokens t

end ToolBindings.Template
