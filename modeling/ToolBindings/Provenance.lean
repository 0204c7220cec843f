import ToolBindings.Digest.Sha256
import ToolBindings.Json.Printer

/-!
# Provenance

The provenance of a result is the digest of the text it was made from and the version of this
program.
-/
namespace ToolBindings

def version : String := "0.3.0"

structure Provenance where
  sourceHash : String
  version : String
  deriving DecidableEq, Repr

namespace Provenance

def ofSource (source : String) : Provenance := ⟨Sha256.ofString source, ToolBindings.version⟩

def json (p : Provenance) : Json :=
  .obj [("source_hash", .str p.sourceHash), ("compiler_version", .str p.version)]

def text (p : Provenance) : String := p.json.pretty ++ "\n"

end Provenance
end ToolBindings
