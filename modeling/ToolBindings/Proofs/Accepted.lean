import ToolBindings.Proofs.Formed

/-!
# Inputs that become trees

Whether an input becomes a tree is read off its object (`becomes_input?`): its type and its choices have
to be of the right form, a flag needs a text, and a choice or a union something to choose from. It depends
on nothing that was found before, nor on how subcommands become trees, since these always do.
-/
namespace ToolBindings.Descriptor
open ToolBindings.Tree

def isChoice : Json → Bool
  | .str _ | .int _ | .double _ => true
  | _ => false

def Input.hasNeeds (i : Input) : Kind → Bool
  | .flag => (text? "command-line-flag" i.object).isSome
  | .union vs => vs.any fun v => (object? v).isSome
  | _ => true

def Input.isComplete (i : Input) (f : Form) : Bool :=
  f.choices.elim (i.hasNeeds f.kind) fun choices => (choices.arr?.getD []).any isChoice

/-- The input becomes a tree. -/
def Input.isAccepted (i : Input) : Bool :=
  match form i with
  | .error _ => false
  | .ok f => i.isComplete f

def Becomes {α : Type} (x : InputBuilder α) (b : Bool) : Prop := Returns x.run fun r => r.isOk = b

namespace Becomes
variable {α β : Type} {b : Bool}

theorem throw (f : Finding) : Becomes (MonadExcept.throw f : InputBuilder α) false := fun _ _ => rfl

theorem lift (x : Builder α) : Becomes (liftM x) true := fun _ _ => rfl

theorem bindLift {x : Builder α} {Q : α → Prop} {f : α → InputBuilder β} (hx : Returns x Q)
    (hf : ∀ r, Q r → Becomes (f r) b) : Becomes (liftM x >>= f) b :=
  Returns.bind (f := fun r => (f r).run) hx hf

theorem bindOk {r : α} {f : α → InputBuilder β} (h : Becomes (f r) b) :
    Becomes (liftM (Except.ok r : Except Finding α) >>= f) b := h

theorem andThen {x : InputBuilder α} (f : α → Builder β) (hx : Becomes x b) :
    Becomes (x >>= fun r => liftM (f r)) b :=
  Returns.bind (f := ExceptT.bindCont fun r => (liftM (f r) : InputBuilder β)) hx fun r hr =>
    match r, hr with
    | .ok _, hr => fun _ _ => hr
    | .error _, hr => fun _ _ => hr

end Becomes

section
variable (i : Input)

theorem isEmpty_literals (n : Nat) (vs : List Json) :
    Returns (literals i n vs) fun ts => (!ts.isEmpty) = vs.any isChoice := by
  induction vs generalizing n with
  | nil => exact .pure rfl
  | cons v vs ih =>
    have hcons (text : String) : Returns (do
        return (← literal text) :: (← literals i (n + 1) vs)) fun ts => (!ts.isEmpty) = true :=
      (Returns.any _).bind fun _ _ => (Returns.any _).bind fun _ _ => .pure rfl
    cases v with
    | str | int | double => exact hcons _
    | null | bool | arr | obj => exact (Returns.any _).bind fun _ _ => ih (n + 1)

theorem isEmpty_alternatives (n : Nat) (vs : List Json) : Returns (alternatives i n vs) fun os =>
    (!os.isEmpty) = vs.any fun v => (object? v).isSome := by
  induction vs generalizing n with
  | nil => exact .pure rfl
  | cons v vs ih =>
    unfold alternatives
    rw [List.any_cons]
    split
    · next o ho =>
      rw [ho]
      exact (Returns.any _).bind fun _ _ => .pure rfl
    · next hnone =>
      rw [hnone]
      exact (Returns.any _).bind fun _ _ => ih (n + 1)

theorem becomes_choiceTree (choices : Json) :
    Becomes (choiceTree i choices) ((choices.arr?.getD []).any isChoice) := by
  unfold choiceTree
  split
  · next vs =>
    refine .bindLift (isEmpty_literals i 0 vs) fun ts hts => ?_
    change Becomes _ (vs.any isChoice)
    rw [← hts]
    cases ts with
    | nil => exact .throw _
    | cons t ts => exact .lift _
  · next hnot =>
    have hnone : choices.arr? = none := by
      cases choices with
      | arr vs => exact absurd rfl (hnot vs)
      | null | bool | int | double | str | obj => rfl
    rw [hnone]
    exact .throw _

theorem becomes_unionTree (nested : Nested) (vs : List Json) :
    Becomes (unionTree nested i vs) (vs.any fun v => (object? v).isSome) := by
  unfold unionTree
  refine .bindLift (isEmpty_alternatives i 0 vs) fun os hos => ?_
  rw [← hos]
  match os with
  | [] => exact .throw _
  | [_] => exact .lift _
  | _ :: _ :: _ => exact (Becomes.lift _).andThen _

theorem becomes_kindTree (nested : Nested) (k : Kind) :
    Becomes (kindTree nested i k) (i.hasNeeds k) := by
  cases k with
  | text | number | file | subcommand => exact .lift _
  | integer => exact .bindLift (.any _) fun _ _ => .lift _
  | flag =>
    unfold kindTree Input.hasNeeds
    dsimp only
    split
    · next hnone =>
      rw [hnone]
      exact .throw _
    · next text hsome =>
      rw [hsome]
      exact .bindLift (.any _) fun _ _ => .lift _
  | union vs => exact becomes_unionTree i nested vs

theorem becomes_inputTree (nested : Nested) : Becomes (inputTree nested i) i.isAccepted := by
  unfold inputTree
  cases hform : form i with
  | error f =>
    rw [Input.isAccepted, hform]
    exact .throw f
  | ok f =>
    rw [Input.isAccepted, hform]
    refine Becomes.bindOk ?_
    dsimp only
    rw [Input.isComplete]
    split
    · next hchoices =>
      rw [hchoices]
      exact (becomes_choiceTree i _).andThen _
    · next hchoices hkind =>
      rw [hchoices, hkind]
      exact becomes_kindTree i nested .flag
    · next hchoices _ =>
      rw [hchoices]
      exact (becomes_kindTree i nested f.kind).andThen _

/-- An input becomes a tree exactly if it is accepted. -/
theorem becomes_input? (nested : Nested) :
    Returns (input? nested i) fun t? => t?.isSome = i.isAccepted :=
  (becomes_inputTree i nested).bind fun r hr => match r, hr with
    | .ok _, hr => .pure hr
    | .error _, hr => (Returns.any _).bind fun _ _ => .pure hr

end
end ToolBindings.Descriptor
