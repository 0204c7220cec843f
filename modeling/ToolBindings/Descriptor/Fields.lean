import ToolBindings.Json.Value
import ToolBindings.Metadata

/-!
# Fields of a descriptor

What a descriptor says about the tool, its inputs and its outputs apart from their use. A field with
a value of the wrong kind counts as absent.
-/
namespace ToolBindings.Descriptor

def text? (key : String) (v : Json) : Option String := (v.member? key).bind Json.str?

def isTrue (key : String) (v : Json) : Bool := ((v.member? key).bind Json.bool?) = some true

def object? : Json → Option Json
  | .obj ms => some (.obj ms)
  | _ => none

def objectAt? (key : String) (v : Json) : Option Json := (v.member? key).bind object?

def documentation? (v : Json) : Option Documentation :=
  match text? "name" v, text? "description" v with
  | none, none => none
  | title, description => some { title, description }

def id? (v : Json) : Option String :=
  match v.member? "id" with
  | none | some .null => text? "name" v
  | some id => id.str?

def metadata? (v : Json) : Option Metadata :=
  match text? "id" v, documentation? v with
  | none, none => none
  | name, doc => some { name, doc }

def named (name : String) : Metadata := { name := some name }

def streamFile? (v : Json) : Option StreamFile := do return ⟨← text? "id" v, documentation? v⟩

def containerKind (s : String) : ContainerKind :=
  if s = "docker" then .docker else if s = "singularity" then .singularity else .other

def container? (v : Json) : Option Container := do
  return ⟨← text? "image" v, (text? "type" v).map containerKind⟩

def app? (v : Json) : Option App := do
  return {
    id := ← id? v
    version := text? "tool-version" v
    doc := documentation? v
    authors := (text? "author" v).toList
    urls := (text? "url" v).toList
    container := (objectAt? "container-image" v).bind container?
    stdout := (objectAt? "stdout-output" v).bind streamFile?
    stderr := (objectAt? "stderr-output" v).bind streamFile? }

end ToolBindings.Descriptor
