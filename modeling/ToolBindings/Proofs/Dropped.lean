import ToolBindings.Proofs.Building
import ToolBindings.Proofs.References

/-!
# Inputs that are dropped

An input that becomes no tree leaves the arena as it was, and the last that is found is an error of the
input itself (`input?_settled`). An input that becomes a tree has no such error: an error of its
subcommands is found further in than its type, and the text of a location tells these apart too.
-/
namespace ToolBindings.Descriptor
open ToolBindings.Tree

namespace Finding

theorem toList_pathText {p : Json.Path} (hp : p ≠ []) :
    (pathText p).toList = p.flatMap fun s => (stepText s).toList := by
  rw [pathText, if_neg (by simpa using hp), String.toList_join, List.flatMap_map]

theorem toList_stepText_key (name : String) : (stepText (.key name)).toList = '/' :: name.toList := by
  rw [stepText, String.toList_append]
  rfl

theorem toList_stepText_ne_nil (s : Json.Step) : (stepText s).toList ≠ [] := by
  cases s <;> simp [stepText, String.toList_append]

theorem pathText_append_ne {p q : Json.Path} (hp : p ≠ []) (hq : q ≠ []) :
    pathText (p ++ q) ≠ pathText p := by
  intro h
  have htext := congrArg String.toList h
  rw [toList_pathText (List.append_ne_nil_of_left_ne_nil hp q), toList_pathText hp, List.flatMap_append,
    List.append_right_eq_self, List.flatMap_eq_nil_iff] at htext
  obtain ⟨s, hs⟩ := List.exists_mem_of_ne_nil q hq
  exact toList_stepText_ne_nil s (htext s hs)

theorem pathText_type_ne_choices {p : Json.Path} (q : Json.Path) :
    pathText (p ++ .key "type" :: q) ≠ pathText (p ++ [.key "value-choices"]) := by
  intro h
  have htext := congrArg String.toList h
  rw [toList_pathText (by simp), toList_pathText (by simp), List.flatMap_append, List.flatMap_append,
    List.append_cancel_left_eq, List.flatMap_cons, List.flatMap_cons, toList_stepText_key,
    toList_stepText_key] at htext
  simp at htext

theorem pathText_type_ne {p q : Json.Path} : pathText (p ++ .key "type" :: q) ≠ pathText p := by
  cases p with
  | nil =>
    intro h
    have htext := congrArg String.toList h
    rw [List.nil_append, toList_pathText (List.cons_ne_nil _ q), List.flatMap_cons,
      toList_stepText_key] at htext
    simp [pathText] at htext
  | cons s p => exact pathText_append_ne (List.cons_ne_nil s p) (List.cons_ne_nil _ q)

theorem Below.location_ne {f : Finding} {i : Input} (h : f.Below (i.path ++ [.key "type"])) :
    ∀ p ∈ i.places, f.diagnostic.location ≠ some (pathText p) := by
  obtain ⟨q, hq, hlocation⟩ := h
  have hne : ∀ p ∈ i.places, pathText (i.path ++ [.key "type"] ++ q) ≠ pathText p := by
    simp only [Input.places, List.forall_mem_cons, List.append_assoc, List.singleton_append]
    -- The three texts are shorter, or they differ from the first letter of the member on.
    refine ⟨pathText_type_ne, pathText_type_ne_choices q, ?_, List.forall_mem_nil _⟩
    rw [List.append_cons]
    exact pathText_append_ne (by simp) hq
  intro p hp heq
  rw [diagnostic, hlocation] at heq
  exact hne p hp (Option.some.inj heq)

end Finding

/-- If an input becomes no tree, the arena is as before, and an error is added, after warnings at most, at
the input, its choices or its type. If it becomes a tree, no error that is added stands at one of these. -/
theorem input?_settled (depth : Nat) (i : Input) (fs : List Finding) (a : Arena) :
    match ((input? (tree depth) i).run fs).run a with
    | ((none, gs), b) => b = a ∧ ∃ ws f, gs = fs ++ ws ++ [f] ∧ f.isError = true ∧
        (∃ p ∈ i.places, f.diagnostic.location = some (Finding.pathText p)) ∧
        ∀ w ∈ ws, w.isError = false
    | ((some _, gs), _) => ∃ ws, gs = fs ++ ws ∧ ∀ f ∈ ws, f.isError = true →
        ∀ p ∈ i.places, f.diagnostic.location ≠ some (Finding.pathText p) := by
  obtain ⟨new, hnew, hsettled⟩ := adds_input? (addsOnly_tree depth) i fs a
  have hgrown := makes_input? (makes_tree depth) i a a fs (.refl a)
  revert hnew hsettled hgrown
  generalize ((input? (tree depth) i).run fs).run a = r
  obtain ⟨⟨t?, gs⟩, b⟩ := r
  rintro (rfl : gs = fs ++ new) hsettled hgrown
  cases t? with
  | none =>
    obtain ⟨ws, f, rfl, hf, hws⟩ := hsettled
    obtain ⟨p, hp, hlocation⟩ := hf.place
    refine ⟨hgrown.eq_of_nil, ws, f, (List.append_assoc ..).symm, hf.error, ⟨p, hp, ?_⟩,
      fun w hw => (hws w hw).warning⟩
    rw [Finding.diagnostic, hlocation]
    rfl
  | some t => exact ⟨new, rfl, fun f hf herror => ((hsettled f hf).error herror).location_ne⟩

end ToolBindings.Descriptor
