/-!
# Metadata

Documentation, outputs and names belong to a node of a command tree; an app is the tool as a whole.
Where two nodes become one their metadata is merged: of two single values the inner one stays, lists
are joined with the outer one first. Empty documentation and absent metadata are neutral.
-/
namespace ToolBindings

structure Documentation where
  title : Option String := none
  description : Option String := none
  authors : List String := []
  literature : List String := []
  urls : List String := []
  comment : Option String := none
  deriving DecidableEq, Repr, Inhabited

namespace Documentation

def merge (outer inner : Documentation) : Documentation where
  title := inner.title.or outer.title
  description := inner.description.or outer.description
  authors := outer.authors ++ inner.authors
  literature := outer.literature ++ inner.literature
  urls := outer.urls ++ inner.urls
  comment := inner.comment.or outer.comment

theorem merge_assoc (a b c : Documentation) : a.merge (b.merge c) = (a.merge b).merge c := by
  simp [merge, Option.or_assoc]

theorem merge_empty_left (d : Documentation) : merge {} d = d := by simp [merge]

theorem merge_empty_right (d : Documentation) : d.merge {} = d := by simp [merge]

end Documentation

inductive PathPart
  | text (s : String)
  | input (id : String)
  deriving DecidableEq, Repr

structure Output where
  name : Option String
  doc : Option Documentation
  path : List PathPart
  deriving DecidableEq, Repr

structure Metadata where
  name : Option String := none
  doc : Option Documentation := none
  outputs : List Output := []
  deriving DecidableEq, Repr, Inhabited

namespace Metadata

def join (outer inner : Metadata) : Metadata where
  name := inner.name.or outer.name
  doc := Option.merge Documentation.merge outer.doc inner.doc
  outputs := outer.outputs ++ inner.outputs

def merge (outer inner : Option Metadata) : Option Metadata := Option.merge join outer inner

@[simp] theorem merge_none_left (m : Option Metadata) : merge none m = m := by
  cases m <;> rfl

@[simp] theorem merge_none_right (m : Option Metadata) : merge m none = m := by
  cases m <;> rfl

end Metadata

inductive ContainerKind
  | docker
  | singularity
  | other
  deriving DecidableEq, Repr

def ContainerKind.name : ContainerKind → String
  | .docker => "docker"
  | .singularity => "singularity"
  | .other => "other"

structure Container where
  image : String
  kind : Option ContainerKind
  deriving DecidableEq, Repr

structure StreamFile where
  name : String
  doc : Option Documentation
  deriving DecidableEq, Repr

structure App where
  id : String
  version : Option String
  doc : Option Documentation
  authors : List String
  urls : List String
  container : Option Container
  stdout : Option StreamFile
  stderr : Option StreamFile
  deriving DecidableEq, Repr

end ToolBindings
