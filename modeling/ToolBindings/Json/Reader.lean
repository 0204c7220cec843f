import ToolBindings.Json.Numeral
import ToolBindings.Text.Size

/-!
# Reading JSON

A reader takes a cursor, the text that is left and the number of bytes before it, to a value and
the cursor behind the value. A fault knows its cause and how many bytes of the text lead up to it:
a fault at a character counts one byte of that character, a fault at the end of the text counts the
whole text. Containers nest to a depth of 127.
-/
namespace ToolBindings.Json

inductive Cause
  | endInValue
  | endInString
  | endInList
  | endInObject
  | expectedValue
  | expectedWord
  | invalidNumber
  | numberOutOfRange
  | controlCharacter
  | invalidEscape
  | loneSurrogate
  | unexpectedEndOfEscape
  | trailingComma
  | expectedCommaOrBracket
  | expectedCommaOrBrace
  | expectedColon
  | keyNotString
  | tooDeep
  | trailingCharacters
  deriving DecidableEq, Repr

def Cause.message : Cause → String
  | .endInValue => "EOF while parsing a value"
  | .endInString => "EOF while parsing a string"
  | .endInList => "EOF while parsing a list"
  | .endInObject => "EOF while parsing an object"
  | .expectedValue => "expected value"
  | .expectedWord => "expected ident"
  | .invalidNumber => "invalid number"
  | .numberOutOfRange => "number out of range"
  | .controlCharacter => "control character (\\u0000-\\u001F) found while parsing a string"
  | .invalidEscape => "invalid escape"
  | .loneSurrogate => "lone leading surrogate in hex escape"
  | .unexpectedEndOfEscape => "unexpected end of hex escape"
  | .trailingComma => "trailing comma"
  | .expectedCommaOrBracket => "expected \x60,\x60 or \x60]\x60"
  | .expectedCommaOrBrace => "expected \x60,\x60 or \x60\x7d\x60"
  | .expectedColon => "expected \x60:\x60"
  | .keyNotString => "key must be a string"
  | .tooDeep => "recursion limit exceeded"
  | .trailingCharacters => "trailing characters"

structure Fault where
  cause : Cause
  offset : Nat
  deriving DecidableEq, Repr

def Fault.position (f : Fault) (text : String) : Nat × Nat :=
  let seen := text.toUTF8.toList.take f.offset
  (seen.count 10 + 1, (seen.reverse.takeWhile (· ≠ 10)).length)

def Fault.message (f : Fault) (text : String) : String :=
  let (line, column) := f.position text
  s!"{f.cause.message} at line {line} column {column}"

structure Cursor where
  offset : Nat
  rest : List Char

namespace Cursor

def ofString (text : String) : Cursor := ⟨0, text.toList⟩

def advance (c : Cursor) : Cursor :=
  match c.rest with
  | [] => c
  | x :: r => ⟨c.offset + x.utf8Size, r⟩

def span (c : Cursor) (p : Char → Bool) : List Char × Cursor :=
  let xs := c.rest.takeWhile p
  (xs, ⟨c.offset + Text.byteSize xs, c.rest.dropWhile p⟩)

def skipBlanks (c : Cursor) : Cursor :=
  (c.span fun x => x = ' ' ∨ x = '\n' ∨ x = '\t' ∨ x = '\r').2

def faultAt (c : Cursor) (cause : Cause) : Fault :=
  ⟨cause, if c.rest.isEmpty then c.offset else c.offset + 1⟩

def faultBefore (c : Cursor) (cause : Cause) : Fault := ⟨cause, c.offset⟩

def faultOr (c : Cursor) (atEnd cause : Cause) : Fault :=
  c.faultAt (if c.rest.isEmpty then atEnd else cause)

end Cursor

abbrev Reader (α : Type) := Cursor → Except Fault (α × Cursor)

namespace Reader

/-- Reads items until `item` gives none. An item takes at least one character, and none is read from
an empty rest, so the end of `bound` is not reached when it starts above the length of the rest. -/
def repeated (item : Reader (Option α)) : Nat → Reader (List α)
  | 0, c => .error (c.faultAt .expectedValue)
  | bound + 1, c => do
    match ← item c with
    | (none, c) => return ([], c)
    | (some x, c) =>
      let (xs, c) ← repeated item bound c
      return (x :: xs, c)

def many (item : Reader (Option α)) : Reader (List α) := fun c => repeated item (c.rest.length + 1) c

def word (value : Json) : List Char → Reader Json
  | [], c => .ok (value, c)
  | x :: xs, c =>
    if c.rest.head? = some x then word value xs c.advance
    else .error (c.faultOr .endInValue .expectedWord)

def digits : Reader (List Char) := fun c => .ok (c.span Char.isDigit)

def someDigits : Reader (List Char) := fun c =>
  match c.span Char.isDigit with
  | ([], c) => .error (c.faultOr .endInValue .invalidNumber)
  | read => .ok read

def wholeDigits : Reader (List Char) := fun c =>
  if c.rest.head? = some '0' then
    let after := c.advance
    if after.rest.head?.any Char.isDigit then .error (after.faultAt .invalidNumber)
    else .ok (['0'], after)
  else someDigits c

def exponentDigits : Reader (Bool × List Char) := fun c => do
  let (negative, c) := match c.rest.head? with
    | some '+' => (false, c.advance)
    | some '-' => (true, c.advance)
    | _ => (false, c)
  let (ds, c) ← someDigits c
  return ((negative, ds), c)

/-- A numeral behind its sign; and its value. A fault of the value lies behind the numeral, or
behind the digit of the exponent with which the exponent leaves its range. -/
def number (negative : Bool) : Reader Json := fun c => do
  let (whole, c) ← wholeDigits c
  let (fraction?, c) ← match c.rest.head? with
    | some '.' => do
      let (ds, c) ← someDigits c.advance
      pure (some ds, c)
    | _ => pure (none, c)
  let (exponent, c) ← match c.rest.head? with
    | some 'e' | some 'E' => do
      let (e, c) ← exponentDigits c.advance
      pure (some e, c)
    | _ => pure (none, c)
  let numeral : Numeral := ⟨negative, whole, fraction?.getD [], fraction?.isSome, exponent⟩
  match numeral.value with
  | .ok v => return (v, c)
  | .error .value => throw (c.faultBefore .numberOutOfRange)
  | .error (.exponent read) =>
    let unread := (exponent.map fun e => e.2.length - read).getD 0
    throw ⟨.numberOutOfRange, c.offset - unread⟩

def hexDigit? (x : Char) : Option Nat :=
  if x.isDigit then some (x.toNat - '0'.toNat)
  else if 'a' ≤ x ∧ x ≤ 'f' then some (x.toNat - 'a'.toNat + 10)
  else if 'A' ≤ x ∧ x ≤ 'F' then some (x.toNat - 'A'.toNat + 10)
  else none

def codeUnit : Reader Nat := fun c =>
  let next := c.rest.take 4
  let size := Text.byteSize next
  if size < 4 then .error ⟨.endInString, c.offset + size⟩
  else
    match next.mapM hexDigit? with
    | some ds => .ok (ds.foldl (fun n d => 16 * n + d) 0, ⟨c.offset + 4, c.rest.drop 4⟩)
    | none => .error ⟨.invalidEscape, c.offset + 4⟩

def expectInEscape (x : Char) (c : Cursor) : Except Fault Cursor :=
  if c.rest.head? = some x then .ok c.advance
  else .error (c.faultOr .endInString .unexpectedEndOfEscape)

def unicodeEscape : Reader Char := fun c => do
  let (n, c) ← codeUnit c
  if 0xDC00 ≤ n ∧ n ≤ 0xDFFF then throw (c.faultBefore .loneSurrogate)
  if n < 0xD800 ∨ 0xDBFF < n then return (Char.ofNat n, c)
  let c ← expectInEscape '\x5c' c
  let c ← expectInEscape 'u' c
  let (m, c) ← codeUnit c
  if m < 0xDC00 ∨ 0xDFFF < m then throw (c.faultBefore .loneSurrogate)
  return (Char.ofNat ((n - 0xD800) * 0x400 + (m - 0xDC00) + 0x10000), c)

def escape : Reader Char := fun c =>
  match c.rest.head? with
  | some '\x22' => .ok ('\x22', c.advance)
  | some '\x5c' => .ok ('\x5c', c.advance)
  | some '/' => .ok ('/', c.advance)
  | some 'b' => .ok ('\x08', c.advance)
  | some 'f' => .ok ('\x0c', c.advance)
  | some 'n' => .ok ('\n', c.advance)
  | some 'r' => .ok ('\r', c.advance)
  | some 't' => .ok ('\t', c.advance)
  | some 'u' => unicodeEscape c.advance
  | _ => .error (c.faultOr .endInString .invalidEscape)

def stringChar : Reader (Option Char) := fun c =>
  match c.rest.head? with
  | none => .error (c.faultAt .endInString)
  | some '\x22' => .ok (none, c.advance)
  | some '\x5c' => (escape c.advance).map fun (x, c) => (some x, c)
  | some x =>
    if x.toNat < 0x20 then .error (c.faultAt .controlCharacter) else .ok (some x, c.advance)

def string : Reader String := fun c =>
  (many stringChar c).map fun (xs, c) => (String.ofList xs, c)

def nextItem (item : Reader Json) : Reader (Option Json) := fun c => do
  let c := c.skipBlanks
  match c.rest.head? with
  | some ']' => return (none, c.advance)
  | some ',' =>
    let c := c.advance.skipBlanks
    if c.rest.head? = some ']' then throw (c.faultAt .trailingComma)
    let (v, c) ← item c
    return (some v, c)
  | _ => throw (c.faultOr .endInList .expectedCommaOrBracket)

def list (item : Reader Json) : Reader Json := fun c => do
  let c := c.skipBlanks
  match c.rest.head? with
  | none => throw (c.faultAt .endInList)
  | some ']' => return (arr [], c.advance)
  | _ =>
    let (v, c) ← item c
    let (vs, c) ← many (nextItem item) c
    return (arr (v :: vs), c)

def member (item : Reader Json) : Reader (String × Json) := fun c => do
  let (k, c) ← string c.advance
  let c := c.skipBlanks
  if c.rest.head? ≠ some ':' then throw (c.faultOr .endInObject .expectedColon)
  let (v, c) ← item c.advance
  return ((k, v), c)

def nextMember (item : Reader Json) : Reader (Option (String × Json)) := fun c => do
  let c := c.skipBlanks
  match c.rest.head? with
  | some '\x7d' => return (none, c.advance)
  | some ',' =>
    let c := c.advance.skipBlanks
    match c.rest.head? with
    | some '\x22' =>
      let (m, c) ← member item c
      return (some m, c)
    | some '\x7d' => throw (c.faultAt .trailingComma)
    | _ => throw (c.faultOr .endInValue .keyNotString)
  | _ => throw (c.faultOr .endInObject .expectedCommaOrBrace)

/-- An object behind its opening brace. A key that comes again replaces the value it had. -/
def object (item : Reader Json) : Reader Json := fun c => do
  let c := c.skipBlanks
  match c.rest.head? with
  | some '\x7d' => return (obj [], c.advance)
  | some '\x22' =>
    let (m, c) ← member item c
    let (ms, c) ← many (nextMember item) c
    return (obj (OrderedMap.ofList (m :: ms)), c)
  | _ => throw (c.faultOr .endInObject .keyNotString)

def deepest : Nat := 127

def value : Nat → Reader Json
  | depth, c =>
    let c := c.skipBlanks
    match c.rest.head? with
    | none => .error (c.faultAt .endInValue)
    | some 'n' => word .null "ull".toList c.advance
    | some 't' => word (.bool true) "rue".toList c.advance
    | some 'f' => word (.bool false) "alse".toList c.advance
    | some '-' => number true c.advance
    | some '\x22' => (string c.advance).map fun (s, c) => (.str s, c)
    | some '[' => match depth with
      | 0 => .error (c.faultAt .tooDeep)
      | depth + 1 => list (value depth) c.advance
    | some '\x7b' => match depth with
      | 0 => .error (c.faultAt .tooDeep)
      | depth + 1 => object (value depth) c.advance
    | some x => if x.isDigit then number false c else .error (c.faultAt .expectedValue)

end Reader

/-- The value that a text holds, with nothing but blanks around it. -/
def read (text : String) : Except Fault Json := do
  let (v, c) ← Reader.value Reader.deepest (Cursor.ofString text)
  let c := c.skipBlanks
  if c.rest.isEmpty then return v else throw (c.faultAt .trailingCharacters)

end ToolBindings.Json
