import ToolBindings.Tree.Basic

/-!
# Structural keys

The key of a tree is a text made of kinds, attributes and children. Metadata, the bounds of
repetitions and the difference between no joint and an empty one do not enter it.
-/
namespace ToolBindings

def Terminal.key : Terminal → String
  | .literal text => "lit:" ++ text
  | .int lo hi => "int:" ++ (lo.map intText).getD "" ++ ":" ++ (hi.map intText).getD ""
  | .float lo hi =>
    "float:" ++ (lo.map Binary64.plainText).getD "" ++ ":" ++ (hi.map Binary64.plainText).getD ""
  | .str => "str"
  | .path resolveParent mutable => "path:" ++ toString resolveParent ++ ":" ++ toString mutable

def Wrapper.key : Wrapper → String
  | .optional => "opt:"
  | .repetition joint _ _ => "rep:" ++ joint.getD "" ++ ":"

def Group.key : Group → String
  | .sequence joint => "seq:" ++ joint.getD "" ++ ":"
  | .alternative => "alt:"

namespace Tree

mutual

def key : Tree → String
  | missing _ => ""
  | terminal _ _ t => t.key
  | wrap _ _ w c => w.key ++ c.key
  | group _ _ g cs => g.key ++ ",".intercalate (keys cs)

def keys : List Tree → List String
  | [] => []
  | t :: ts => t.key :: keys ts

end

end Tree
end ToolBindings
