import ToolBindings.Tree.Basic

/-!
# Listing a tree

A listing has one line for each node in the order of the walk, indented by two spaces for each step
down. A header tells of the app.
-/
namespace ToolBindings

def inQuotes (s : String) : String := "\x22" ++ s ++ "\x22"

def inBraces (parts : List String) : String :=
  if parts.isEmpty then "" else " \x7b" ++ ", ".intercalate parts ++ "\x7d"

def rangeText (lo hi : Option String) : String :=
  if lo.isNone ∧ hi.isNone then "" else " (" ++ lo.getD "" ++ ".." ++ hi.getD "" ++ ")"

def Terminal.details : Terminal → String
  | .literal text => " " ++ inQuotes text
  | .int lo hi => rangeText (lo.map intText) (hi.map intText)
  | .float lo hi => rangeText (lo.map Binary64.plainText) (hi.map Binary64.plainText)
  | .str => ""
  | .path resolveParent mutable =>
    inBraces ((if resolveParent then ["resolve_parent"] else []) ++ (if mutable then ["mutable"] else []))

def Wrapper.details : Wrapper → String
  | .optional => ""
  | .repetition joint lo hi =>
    inBraces ((joint.map fun j => "join=" ++ inQuotes j).toList ++
      (lo.map fun n => "min=" ++ toString n).toList ++ (hi.map fun n => "max=" ++ toString n).toList)

def Group.details : Group → Bool → String
  | .sequence joint, isEmpty =>
    (joint.map fun j => " join=" ++ inQuotes j).getD "" ++ (if isEmpty then " (empty)" else "")
  | .alternative, _ => ""

namespace Tree

def details : Tree → String
  | missing _ => ""
  | terminal _ _ t => t.details
  | wrap _ _ w _ => w.details
  | group _ _ g cs => g.details cs.isEmpty

def line (depth : Nat) (t : Tree) : String :=
  String.join (List.replicate depth "  ") ++ t.kind ++
    ((t.name?.map fun n => " [" ++ n ++ "]").getD "") ++ t.details

mutual

def lines (depth : Nat) : Tree → List String
  | missing id => [line depth (missing id)]
  | terminal id m t => [line depth (terminal id m t)]
  | wrap id m w c => line depth (wrap id m w c) :: lines (depth + 1) c
  | group id m g cs => line depth (group id m g cs) :: linesAll (depth + 1) cs

def linesAll (depth : Nat) : List Tree → List String
  | [] => []
  | t :: ts => lines depth t ++ linesAll depth ts

end

def listing (t : Tree) : String := "\n".intercalate (t.lines 0)

end Tree

def App.header (a : App) : List String :=
  let description := a.doc.bind (·.description)
  ["app " ++ a.id ++ (a.version.map fun v => "@" ++ v).getD ""] ++
    (description.map fun d => "  " ++ inQuotes d).toList ++
    (if a.authors.isEmpty then [] else ["  authors: " ++ ", ".intercalate a.authors]) ++
    (a.container.map fun c =>
      "  container: " ++ c.image ++ (c.kind.map fun k => " (" ++ k.name ++ ")").getD "").toList ++
    (a.stdout.map fun s => "  stdout: " ++ s.name).toList ++
    (a.stderr.map fun s => "  stderr: " ++ s.name).toList ++ [""]

def Tree.listingFor (app : Option App) (t : Tree) : String :=
  "\n".intercalate ((app.map App.header).getD [] ++ t.lines 0)

end ToolBindings
