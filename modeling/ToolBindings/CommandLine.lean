import ToolBindings.Report

/-!
# The command line of the program

Arguments are read from left to right. Options may stand anywhere; none may come twice, and behind
`--` all arguments are positional. The one positional argument is the path of the descriptor. The
first argument that is wrong, or that asks for the version, decides.
-/
namespace ToolBindings.CommandLine

structure Request where
  descriptor : String
  stage : Stage
  output : Option String
  options : NormalizeOptions
  deriving Repr

inductive Invocation
  | request (r : Request)
  | version
  | misuse
  deriving Repr

structure Settings where
  descriptor : Option String := none
  stage : Option Stage := none
  output : Option String := none
  maxIterations : Option Nat := none
  canonicalize : Bool := false
  verbose : Bool := false

namespace Settings

def request? (s : Settings) : Option Request := do
  let defaults : NormalizeOptions := {}
  return {
    descriptor := ← s.descriptor
    stage := s.stage.getD .bindings
    output := s.output
    options := ⟨s.maxIterations.getD defaults.maxIterations, s.canonicalize⟩ }

def path? (s : String) : Option String := if s.isEmpty then none else some s

def setOnce {α : Type} (old new : Option α) : Option α := if old.isSome then none else new

def setDescriptor (s : Settings) (arg : String) : Option Settings := do
  return { s with descriptor := some (← setOnce s.descriptor (path? arg)) }

end Settings

inductive Flag
  | canonicalize
  | verbose

inductive ValueOption
  | emit
  | output
  | maxIterations

def Settings.setFlag (s : Settings) : Flag → Option Settings
  | .canonicalize => if s.canonicalize then none else some { s with canonicalize := true }
  | .verbose => if s.verbose then none else some { s with verbose := true }

def Settings.setValue (s : Settings) (o : ValueOption) (value : String) : Option Settings := do
  match o with
  | .emit => return { s with stage := some (← setOnce s.stage (Stage.ofName? value)) }
  | .output => return { s with output := some (← setOnce s.output (path? value)) }
  | .maxIterations =>
    return { s with maxIterations := some (← setOnce s.maxIterations (Reading.count? value)) }

inductive Argument
  | positional (text : String)
  | separator
  | flag (f : Flag)
  | option (o : ValueOption) (value : Option String)
  | version
  | unknown

def splitValue (cs : List Char) : String × Option String :=
  let name := String.ofList (cs.takeWhile (· ≠ '='))
  match cs.dropWhile (· ≠ '=') with
  | [] => (name, none)
  | _ :: value => (name, some (String.ofList value))

def longArgument (cs : List Char) : Argument :=
  match splitValue cs with
  | ("emit", v) => .option .emit v
  | ("output", v) => .option .output v
  | ("max-iterations", v) => .option .maxIterations v
  | ("canonicalize", none) => .flag .canonicalize
  | ("verbose", none) => .flag .verbose
  | ("version", none) => .version
  | _ => .unknown

def Argument.of (s : String) : Argument :=
  match s.toList with
  | ['-', '-'] => .separator
  | '-' :: '-' :: cs => longArgument cs
  | ['-', 'o'] => .option .output none
  | '-' :: 'o' :: '=' :: value => .option .output (some (String.ofList value))
  | '-' :: 'o' :: value => .option .output (some (String.ofList value))
  | '-' :: 'V' :: _ => .version
  | '-' :: _ :: _ => .unknown
  -- a lone dash is no option
  | _ => .positional s

def finish (s : Settings) : Invocation :=
  match s.request? with
  | some r => .request r
  | none => .misuse

def positionals (s : Settings) : List String → Invocation
  | [] => finish s
  | arg :: args =>
    match s.setDescriptor arg with
    | some s => positionals s args
    | none => .misuse

def arguments (s : Settings) : List String → Invocation
  | [] => finish s
  | arg :: args =>
    let next (s? : Option Settings) : Invocation :=
      match s? with
      | some s => arguments s args
      | none => .misuse
    match Argument.of arg with
    | .positional p => next (s.setDescriptor p)
    | .separator => positionals s args
    | .flag f => next (s.setFlag f)
    | .option o (some v) => next (s.setValue o v)
    | .version => .version
    | .unknown => .misuse
    | .option o none =>
      match args with
      | [] => .misuse
      | v :: rest =>
        match Argument.of v, s.setValue o v with
        | .positional _, some s => arguments s rest
        | _, _ => .misuse

def invocation (args : List String) : Invocation := arguments {} args

def program : String := "styx"

def versionText : String := program ++ " " ++ ToolBindings.version ++ "\n"

def diagnosticLine (d : Diagnostic) : String := program ++ ": " ++ d.text

def failureLine (action path reason : String) : String :=
  program ++ ": error: " ++ action ++ " " ++ path ++ ": " ++ reason

def notText : String := "stream did not contain valid UTF-8"

structure Answer where
  diagnosticLines : List String
  text : String
  exitCode : Nat

def Request.answer (r : Request) (source : String) : Answer :=
  let c := compile r.options source
  ⟨c.diagnostics.map diagnosticLine, c.report r.stage, if c.hasErrors then 1 else 0⟩

end ToolBindings.CommandLine
