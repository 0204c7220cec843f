/-!
# Diagnostics

A diagnostic reports on an input without stopping the work on it. Its location leads into the
document in which it arose.
-/
namespace ToolBindings

inductive Level
  | error
  | warning
  deriving DecidableEq, Repr

def Level.name : Level → String
  | .error => "error"
  | .warning => "warning"

structure Diagnostic where
  level : Level
  message : String
  code : Option String := none
  location : Option String := none
  hint : Option String := none
  deriving DecidableEq, Repr

namespace Diagnostic

def isError (d : Diagnostic) : Bool := d.level = .error

def text (d : Diagnostic) : String :=
  let code := (d.code.map fun c => "[" ++ c ++ "]").getD ""
  let location := (d.location.map fun l => "\n  at: " ++ l).getD ""
  let hint := (d.hint.map fun h => "\n  hint: " ++ h).getD ""
  d.level.name ++ code ++ ": " ++ d.message ++ location ++ hint

def anyError (ds : List Diagnostic) : Bool := ds.any isError

end Diagnostic
end ToolBindings
