import Mathlib.Computability.Language
import ToolBindings.Proofs.Simplify

/-!
# Argument vectors

A tree stands for the lists of arguments that it can put on a command line. A literal gives its text,
a value any one argument, a choice what one of its children gives; an optional may give nothing. A
sequence gives the arguments of its children one after another and a repetition those of its child, as
often as its bounds allow. With a joint their arguments become one argument, unless there are none.

Two languages may differ in where their arguments end and yet give the same under a joint that puts
nothing between them. `SameUnder` says that they do, and every node keeps it from its children
(`Wrapper.sameUnder_argvs`, `Group.sameUnder_argvs`).
-/

abbrev Argvs := Language String

namespace ToolBindings
open Simplify (isPlain isPlain_iff)

def joined : Option String → List String → List String
  | none, args => args
  | some _, [] => []
  | some j, args => [j.intercalate args]

@[simp] theorem joined_nil (joint : Option String) : joined joint [] = [] := by
  cases joint <;> rfl

theorem joined_of_length_le {args : List String} (h : args.length ≤ 1) (joint : Option String) :
    joined joint args = args := by
  match joint, args with
  | none, _ => rfl
  | some _, [] => rfl
  | some _, [_] => exact congrArg (· :: []) String.intercalate_singleton
  | some _, _ :: _ :: _ => simp at h

theorem length_joined_le (j : String) (args : List String) :
    (joined (some j) args).length ≤ 1 := by
  cases args with
  | nil => exact Nat.zero_le _
  | cons => exact Nat.le_refl _

theorem joined_joined_self (joint : Option String) (args : List String) :
    joined joint (joined joint args) = joined joint args := by
  cases joint with
  | none => rfl
  | some j => exact joined_of_length_le (length_joined_le j args) _

/-- Parts may be joined first, each with the joint of the whole. -/
theorem joined_append (joint : Option String) (xs ys : List String) :
    joined joint (xs ++ ys) = joined joint (joined joint xs ++ joined joint ys) := by
  match joint, xs, ys with
  | none, _, _ => rfl
  | joint, [], ys => rw [joined_nil, List.nil_append, List.nil_append, joined_joined_self]
  | joint, xs, [] => rw [joined_nil, List.append_nil, List.append_nil, joined_joined_self]
  | some j, x :: xs, y :: ys =>
    have hparts : j.intercalate (x :: xs ++ y :: ys) =
        j.intercalate [j.intercalate (x :: xs), j.intercalate (y :: ys)] := by
      rw [String.intercalate_append_of_ne_nil (List.cons_ne_nil _ _) (List.cons_ne_nil _ _),
        String.intercalate_cons_cons, String.intercalate_singleton]
    exact congrArg (· :: []) hparts

/-- The joint that the arguments below a joint end up with, if nothing stands between them. -/
def jointBelow (k joint : Option String) : Option String :=
  if isPlain joint then k.or joint else none

theorem joined_joined {k joint : Option String} (hk : isPlain k = true)
    (hj : isPlain joint = true) (args : List String) :
    joined k (joined joint args) = joined (k.or joint) args := by
  rcases isPlain_iff.1 hk with rfl | rfl
  · rfl
  · rcases isPlain_iff.1 hj with rfl | rfl
    · rfl
    · exact joined_joined_self (some "") args

def glued (joint : Option String) (l : Argvs) : Argvs :=
  {args | ∃ as ∈ l, joined joint as = args}

theorem mem_glued {joint : Option String} {l : Argvs} {args : List String} :
    args ∈ glued joint l ↔ ∃ as ∈ l, joined joint as = args := Iff.rfl

theorem glued_eq_self {joint : Option String} {l : Argvs}
    (h : ∀ args ∈ l, joined joint args = args) : glued joint l = l := by
  ext args
  refine ⟨fun ⟨as, has, hargs⟩ => ?_, fun hargs => ⟨args, hargs, h args hargs⟩⟩
  rw [← hargs, h as has]
  exact has

@[simp] theorem glued_none (l : Argvs) : glued none l = l := glued_eq_self fun _ _ => rfl

theorem glued_add (joint : Option String) (l m : Argvs) :
    glued joint (l + m) = glued joint l + glued joint m := by
  ext args
  simp only [mem_glued, Language.mem_add, or_and_right, exists_or]

variable {k joint : Option String}

theorem glued_mul (k : Option String) (l m : Argvs) :
    glued k (l * m) = glued k (glued k l * glued k m) := by
  ext args
  simp only [mem_glued, Language.mem_mul]
  constructor
  · rintro ⟨_, ⟨xs, hxs, ys, hys, rfl⟩, rfl⟩
    exact ⟨_, ⟨_, ⟨xs, hxs, rfl⟩, _, ⟨ys, hys, rfl⟩, rfl⟩, (joined_append k xs ys).symm⟩
  · rintro ⟨_, ⟨_, ⟨xs, hxs, rfl⟩, _, ⟨ys, hys, rfl⟩, rfl⟩, rfl⟩
    exact ⟨_, ⟨xs, hxs, ys, hys, rfl⟩, joined_append k xs ys⟩

theorem glued_glued (hk : isPlain k = true) (hj : isPlain joint = true)
    (l : Argvs) : glued k (glued joint l) = glued (k.or joint) l := by
  ext args
  simp only [mem_glued]
  constructor
  · rintro ⟨_, ⟨as, has, rfl⟩, rfl⟩
    exact ⟨as, has, (joined_joined hk hj as).symm⟩
  · rintro ⟨as, has, rfl⟩
    exact ⟨_, ⟨as, has, rfl⟩, joined_joined hk hj as⟩

/-- The languages give the same with the joint between their arguments. -/
def SameUnder (k : Option String) (l m : Argvs) : Prop := glued k l = glued k m

namespace SameUnder
variable {l l' m m' n : Argvs}

theorem refl (k : Option String) (l : Argvs) : SameUnder k l l := rfl

theorem trans (h : SameUnder k l m) (h' : SameUnder k m n) : SameUnder k l n := Eq.trans h h'

theorem eq (h : SameUnder none l m) : l = m := by
  rwa [SameUnder, glued_none, glued_none] at h

theorem add (h : SameUnder k l l') (h' : SameUnder k m m') : SameUnder k (l + m) (l' + m') := by
  unfold SameUnder at h h' ⊢
  rw [glued_add, glued_add, h, h']

theorem mul (h : SameUnder k l l') (h' : SameUnder k m m') : SameUnder k (l * m) (l' * m') := by
  unfold SameUnder at h h' ⊢
  rw [glued_mul, h, h', ← glued_mul]

theorem pow (h : SameUnder k l l') (n : Nat) : SameUnder k (l ^ n) (l' ^ n) := by
  induction n with
  | zero => rw [pow_zero, pow_zero]; exact refl k 1
  | succ n ih => rw [pow_succ, pow_succ]; exact ih.mul h

theorem prod {ls ls' : List (Argvs)} (h : List.Forall₂ (SameUnder k) ls ls') :
    SameUnder k ls.prod ls'.prod := by
  induction h with
  | nil => exact refl k 1
  | cons hl _ ih =>
    rw [List.prod_cons, List.prod_cons]
    exact hl.mul ih

theorem sum {ls ls' : List (Argvs)} (h : List.Forall₂ (SameUnder k) ls ls') :
    SameUnder k ls.sum ls'.sum := by
  induction h with
  | nil => exact refl k 0
  | cons hl _ ih =>
    rw [List.sum_cons, List.sum_cons]
    exact hl.add ih

theorem glue (hk : isPlain k = true) (h : SameUnder (jointBelow k joint) l m) :
    SameUnder k (glued joint l) (glued joint m) := by
  unfold jointBelow at h
  split at h
  · next hj =>
    unfold SameUnder at h ⊢
    rw [glued_glued hk hj, glued_glued hk hj, h]
  · rw [h.eq]
    exact refl k _

end SameUnder

def inBounds (lo hi : Option Nat) (n : Nat) : Prop := (∀ l ∈ lo, l ≤ n) ∧ ∀ h ∈ hi, n ≤ h

def repeated (lo hi : Option Nat) (l : Argvs) : Argvs :=
  {args | ∃ n, inBounds lo hi n ∧ args ∈ l ^ n}

def Terminal.argvs : Terminal → Argvs
  | literal text => {[text]}
  | _ => {args | args.length = 1}

namespace Wrapper

def argvs : Wrapper → Argvs → Argvs
  | optional, l => 1 + l
  | repetition joint lo hi, l => glued joint (repeated lo hi l)

def below (k : Option String) : Wrapper → Option String
  | optional => k
  | repetition joint _ _ => jointBelow k joint

end Wrapper

namespace Group

def argvs : Group → List (Argvs) → Argvs
  | sequence joint, ls => glued joint ls.prod
  | alternative, ls => ls.sum

def below (k : Option String) : Group → Option String
  | sequence joint => jointBelow k joint
  | alternative => k

end Group

namespace Tree

mutual

/-- The lists of arguments that a tree can put on a command line. -/
def argvs : Tree → Argvs
  | missing _ => 0
  | terminal _ _ t => t.argvs
  | wrap _ _ w c => w.argvs c.argvs
  | group _ _ g cs => g.argvs (argvsAll cs)

def argvsAll : List Tree → List (Argvs)
  | [] => []
  | t :: ts => t.argvs :: argvsAll ts

end

theorem argvsAll_eq_map (ts : List Tree) : argvsAll ts = ts.map argvs := by
  induction ts with
  | nil => rfl
  | cons t ts ih => rw [argvsAll, ih, List.map_cons]

theorem argvsAll_append (ss ts : List Tree) : argvsAll (ss ++ ts) = argvsAll ss ++ argvsAll ts := by
  rw [argvsAll_eq_map, argvsAll_eq_map, argvsAll_eq_map, List.map_append]

end Tree
end ToolBindings
