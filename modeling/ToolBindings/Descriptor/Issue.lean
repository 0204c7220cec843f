import ToolBindings.Diagnostic
import ToolBindings.Json.Printer
import ToolBindings.Json.Reader
import ToolBindings.Template.Token

/-!
# Issues of a descriptor

An issue is what is wrong with a part of a descriptor. An error loses that part, a warning loses
nothing that was meant. A finding is an issue and the path in the document at which it was found.
-/
namespace ToolBindings.Descriptor

inductive Issue
  | notJson (fault : String)
  | notObject
  | noId
  | missingType (input : String)
  | unknownType (type : String)
  | choicesOfFile (input : String)
  | choicesNotList (input : String)
  | noChoices (input : String)
  | flagWithoutText (input : String)
  | noAlternatives (input : String)
  | badTemplate (error : Template.TokenError)
  | ignoredChoice (choice : Json)
  | skippedAlternative
  | invalidCount (key input : String) (value : Json)
  | contradictoryCounts (min max : Nat) (input : String)
  | emptyRange (min max : Int) (input : String)
  | noTemplate
  | unplacedInput (output input : String)
  deriving Repr

namespace Issue

def code : Issue → String
  | notJson _ => "E0001"
  | notObject => "E0002"
  | noId => "E0003"
  | missingType _ => "E0100"
  | unknownType _ => "E0101"
  | choicesOfFile _ => "E0102"
  | choicesNotList _ => "E0103"
  | noChoices _ => "E0104"
  | flagWithoutText _ => "E0105"
  | noAlternatives _ => "E0106"
  | badTemplate _ => "E0200"
  | ignoredChoice _ => "W0100"
  | skippedAlternative => "W0101"
  | invalidCount .. => "W0102"
  | contradictoryCounts .. => "W0102"
  | emptyRange .. => "W0103"
  | noTemplate => "W0200"
  | unplacedInput .. => "W0201"

def level : Issue → Level
  | ignoredChoice _ | skippedAlternative | invalidCount .. | contradictoryCounts ..
  | emptyRange .. | noTemplate | unplacedInput .. => .warning
  | _ => .error

def inTicks (s : String) : String := "'" ++ s ++ "'"

def message : Issue → String
  | notJson fault => "invalid JSON: " ++ fault
  | notObject => "JSON source is not an object"
  | noId => "Descriptor is missing id/name"
  | missingType input => "type is missing for input: " ++ inTicks input
  | unknownType type => "Unknown input type: " ++ inTicks type
  | choicesOfFile input => "File input " ++ inTicks input ++ " cannot have value-choices"
  | choicesNotList input => "Invalid value-choices for " ++ inTicks input
  | noChoices input => "No valid value-choices for " ++ inTicks input
  | flagWithoutText input => "Flag input " ++ inTicks input ++ " missing command-line-flag"
  | noAlternatives input => "No valid alternatives for subcommand union " ++ inTicks input
  | badTemplate error => "failed to parse command-line: " ++ error.message
  | ignoredChoice choice => "Ignoring non-string/number enum choice: " ++ choice.compact
  | skippedAlternative => "Skipping non-object subcommand alternative"
  | invalidCount key input value =>
    "Ignoring invalid " ++ key ++ " for " ++ inTicks input ++ ": " ++ value.compact
  | contradictoryCounts min max input =>
    s!"min-list-entries ({min}) exceeds max-list-entries ({max}) for " ++ inTicks input ++
      "; bounds ignored"
  | emptyRange min max input =>
    "integer range of " ++ inTicks input ++ " is empty after folding bounds (" ++ intText min ++
      ".." ++ intText max ++ ")"
  | noTemplate => "descriptor has no command-line"
  | unplacedInput output input =>
    "output " ++ inTicks output ++ " references input " ++ inTicks input ++
      " which is not on the command line"

def hint : Issue → Option String
  | missingType _ => some "declare one of String, Number, File, Flag"
  | _ => none

end Issue

structure Finding where
  issue : Issue
  location : Option Json.Path
  deriving Repr

namespace Finding

def stepText : Json.Step → String
  | .key name => "/" ++ name
  | .index i => "/" ++ toString i

/-- A path with a slash before each of its steps; the whole document is a lone slash. -/
def pathText (p : Json.Path) : String :=
  if p.isEmpty then "/" else String.join (p.map stepText)

def diagnostic (f : Finding) : Diagnostic where
  level := f.issue.level
  message := f.issue.message
  code := some f.issue.code
  location := f.location.map pathText
  hint := f.issue.hint

def isError (f : Finding) : Bool := f.issue.level = .error

end Finding
end ToolBindings.Descriptor
