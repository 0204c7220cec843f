import ToolBindings.Binding.Registry
import ToolBindings.Json.Value

/-!
# Schemas

The JSON schema of a type describes its values. The schema of a registry is an object with one
property for each name that is bound; of several bindings with one name the last one counts, at the
place of the first. What may be left out is not required.
-/
namespace ToolBindings

namespace ValueType

mutual

def schema : ValueType → Json
  | scalar .int => .obj [("type", .str "integer")]
  | scalar .float => .obj [("type", .str "number")]
  | scalar .str => .obj [("type", .str "string")]
  | scalar .path => .obj [("type", .str "string"), ("format", .str "path")]
  | bool => .obj [("type", .str "boolean")]
  | count => .obj [("type", .str "integer"), ("minimum", .int 0)]
  | literal (.int n) => .obj [("const", .int n)]
  | literal (.str s) => .obj [("const", .str s)]
  | optional t => t.schema
  | list t => .obj [("type", .str "array"), ("items", t.schema)]
  | struct fields =>
    .obj [("type", .str "object"), ("properties", .obj (properties fields)),
      ("required", .arr (required fields))]
  | union variants => .obj [("oneOf", .arr (schemas variants))]
  | nullable t => .obj [("oneOf", .arr [t.schema, .obj [("type", .str "null")]])]

def properties : List (String × ValueType) → List (String × Json)
  | [] => []
  | (name, t) :: rest => (name, t.schema) :: properties rest

def schemas : List (String × ValueType) → List Json
  | [] => []
  | (_, t) :: rest => t.schema :: schemas rest

def required : List (String × ValueType) → List Json
  | [] => []
  | (name, t) :: rest => if t.isOmittable then required rest else .str name :: required rest

end

end ValueType

namespace Registry

def dialect : String := "https://json-schema.org/draft/2020-12/schema"

def byName (r : Registry) : OrderedMap String ValueType :=
  OrderedMap.ofList (r.toList.map fun b => (b.name, b.type))

def schema (r : Registry) : Json :=
  .obj [("$schema", .str dialect), ("type", .str "object"),
    ("properties", .obj (ValueType.properties r.byName)),
    ("required", .arr (ValueType.required r.byName))]

end Registry
end ToolBindings
