import ToolBindings.Rewrite.Sweep
import ToolBindings.Tree.Key
import ToolBindings.Digest.Sha256

/-!
# Canonical order

The children of a choice are sorted by kind, name and structural key; of children with the same
rank the earlier one stays first. A child without metadata is dropped if the key of a child before it
has the same fingerprint. Two tools whose choices differ in order only thus have the same tree.
-/
namespace ToolBindings.Canonical

structure Rank where
  kind : String
  name : String
  key : String
  deriving DecidableEq, Repr

def Rank.of (t : Tree) : Rank := ⟨t.kind, t.name?.getD "", t.key⟩

/-- The order of ranks: kinds decide, then names, then keys, each in the order of characters. -/
def Rank.le (r s : Rank) : Bool :=
  r.kind < s.kind ∨ r.kind = s.kind ∧
    (r.name < s.name ∨ r.name = s.name ∧ (r.key < s.key ∨ r.key = s.key))

def sorted (ts : List Tree) : List Tree :=
  ts.mergeSort fun s t => (Rank.of s).le (Rank.of t)

def fingerprint (t : Tree) : Sha256.State := Sha256.digest t.key.toUTF8.toList

def distinct (seen : List Sha256.State) : List Tree → List Tree
  | [] => []
  | t :: ts =>
    if t.metadata.isSome ∨ fingerprint t ∉ seen then t :: distinct (fingerprint t :: seen) ts
    else distinct seen ts

def arranged (children : List Tree) : List Tree := distinct [] (sorted children)

def ordered : Group → List Tree → List Tree × Bool
  | .sequence _, cs => (cs, false)
  | .alternative, cs => (arranged cs, (arranged cs).map Tree.id ≠ cs.map Tree.id)

def run (t : Tree) : Rewriting Rewritten := t.sweep (regroup ordered)

end ToolBindings.Canonical
