import ToolBindings.Compile
import ToolBindings.Schema
import ToolBindings.Spelling
import ToolBindings.Tree.Listing

/-!
# Reports

A report shows one stage of a compilation: a tree, the bindings, their schema, their types in
another language or the provenance.
-/
namespace ToolBindings

inductive Stage
  | parsed
  | normalized
  | bindings
  | schema
  | types (l : Language)
  | provenance
  deriving DecidableEq, Repr

namespace Stage

def all : List Stage :=
  [parsed, normalized, bindings, schema, types .rust, types .python, types .typescript, provenance]

def name : Stage → String
  | parsed => "ir"
  | normalized => "normalized"
  | bindings => "bindings"
  | schema => "schema"
  | types l => l.name
  | provenance => "build-info"

def ofName? (s : String) : Option Stage := all.find? (·.name = s)

end Stage

def typeLines (l : Language) (bs : List Binding) : List String :=
  let imports := Language.addLines [] (bs.flatMap fun b => l.imports b.type)
  imports ++ (if imports.isEmpty then [] else [""]) ++
    bs.map fun b => b.name ++ ": " ++ l.spelling b.type

def Compiled.report (c : Compiled) : Stage → String
  | .parsed => c.parsed.listingFor c.app ++ "\n"
  | .normalized => c.tree.listingFor c.app ++ "\n"
  | .bindings => "\n".intercalate (c.bindings.map fun b => Binding.idText b.id ++ " " ++ b.text) ++ "\n"
  | .schema => c.solution.registry.schema.pretty ++ "\n"
  | .types l => "\n".intercalate (typeLines l c.bindings) ++ "\n"
  | .provenance => c.provenance.text

end ToolBindings
