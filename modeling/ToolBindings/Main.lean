import ToolBindings.CommandLine

/-!
# The program

Reads the descriptor that the arguments name, tells the diagnostics on the error stream and writes
the report to a file or to the output stream. The exit code is 1 if a diagnostic is an error and 2
if the arguments are wrong or a file cannot be read or written.
-/
open ToolBindings CommandLine

def fail (action path reason : String) : IO UInt32 := do
  IO.eprintln (failureLine action path reason)
  return 2

def reasonText : IO.Error → String
  | .noFileOrDirectory _ code _ => s!"No such file or directory (os error {code})"
  | .inappropriateType _ 20 _ => "Not a directory (os error 20)"
  | .inappropriateType _ code _ => s!"Is a directory (os error {code})"
  | .permissionDenied _ code _ => s!"Permission denied (os error {code})"
  | e => toString e

def runRequest (r : Request) : IO UInt32 := do
  match ← EIO.toBaseIO (IO.FS.readBinFile r.descriptor) with
  | .error e => fail "reading" r.descriptor (reasonText e)
  | .ok bytes =>
    match String.fromUTF8? bytes with
    | none => fail "reading" r.descriptor notText
    | some source =>
      let a := r.answer source
      a.diagnosticLines.forM IO.eprintln
      match r.output with
      | none => IO.print a.text
      | some path =>
        match ← EIO.toBaseIO (IO.FS.writeFile path a.text) with
        | .error e => return ← fail "writing" path (reasonText e)
        | .ok _ => pure ()
      return a.exitCode.toUInt32

def main (args : List String) : IO UInt32 := do
  match invocation args with
  | .version => IO.print versionText; return 0
  | .misuse => IO.eprintln "error: the arguments are not understood"; return 2
  | .request r => runRequest r
