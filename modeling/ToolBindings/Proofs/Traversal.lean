import ToolBindings.Proofs.Arena
import ToolBindings.Proofs.NumberText
import ToolBindings.Tree.Listing

/-!
# Traversals agree

The walk can be done on places alone, with a stack of them: each turn visits the place on top and puts the
places of its children on the stack, the last one first. In an arena in which children stand before their
parents this loop ends, whatever place it starts from, and has then visited the tree at that place in
preorder (`walks_iff`). The listing of the tree has one line for each node that is visited, indented by its
depth (`lines_eq`), and as long as no text in the tree breaks a line these are the lines of the listing
(`splitOn_listing`).
-/
namespace ToolBindings

namespace Arena

def turn? (a : Arena) (stack : List NodeId) : Option (NodeId × List NodeId) := do
  let id ← stack.getLast?
  let n ← a.get? id
  return (id, stack.dropLast ++ n.shape.children.reverse)

/-- The loop ends with an empty stack and has visited these places. -/
inductive Walks (a : Arena) : List NodeId → List NodeId → Prop
  | done : Walks a [] []
  | visit {id : NodeId} {stack rest order : List NodeId} :
      a.turn? stack = some (id, rest) → Walks a rest order → Walks a stack (id :: order)

variable {a : Arena}

theorem Walks.eq {stack order order' : List NodeId} (h : a.Walks stack order)
    (h' : a.Walks stack order') : order = order' := by
  induction h generalizing order' with
  | done =>
    cases h' with
    | done => rfl
    | visit hturn => cases hturn
  | visit hturn _ ih =>
    cases h' with
    | done => cases hturn
    | visit hturn' hrest =>
      cases hturn.symm.trans hturn'
      rw [ih hrest]

theorem turn?_of_holds {t : Tree} (h : a.Holds t) (stack : List Tree) :
    a.turn? ((t :: stack).map Tree.id).reverse =
      some (t.id, ((t.children ++ stack).map Tree.id).reverse) := by
  obtain ⟨n, hn, hget⟩ := h.get?
  simp [turn?, hget, Tree.shape_children_of_node? hn]

theorem walks_visits {stack : List Tree} (h : ∀ t ∈ stack, a.Holds t) :
    a.Walks (stack.map Tree.id).reverse ((Tree.visits stack).map Tree.id) := by
  fun_induction Tree.visits stack with
  | case1 => exact .done
  | case2 t stack ih =>
    obtain ⟨ht, hstack⟩ := List.forall_mem_cons.1 h
    exact .visit (turn?_of_holds ht stack) (ih (List.forall_mem_append.2 ⟨ht.children, hstack⟩))

theorem walks_iff {t : Tree} (h : a.Holds t) {order : List NodeId} :
    a.Walks [t.id] order ↔ order = t.preorder.map Tree.id := by
  have hwalk := walks_visits (List.forall_mem_singleton.2 h)
  rw [Tree.visits_eq_preorderAll, Tree.preorderAll, Tree.preorderAll, List.append_nil] at hwalk
  exact ⟨fun horder => horder.eq hwalk, fun heq => heq ▸ hwalk⟩

end Arena

def IsLine (s : String) : Prop := '\n' ∉ s.toList

theorem isLine_append {s t : String} : IsLine (s ++ t) ↔ IsLine s ∧ IsLine t := by simp [IsLine]

theorem isLine_intercalate {sep : String} {parts : List String} (hsep : IsLine sep)
    (hparts : ∀ p ∈ parts, IsLine p) : IsLine (sep.intercalate parts) := by
  induction parts with
  | nil => simp [IsLine]
  | cons p ps ih =>
    obtain ⟨hp, hps⟩ := List.forall_mem_cons.1 hparts
    cases ps with
    | nil => simpa using hp
    | cons q qs =>
      rw [String.intercalate_cons_cons, isLine_append, isLine_append]
      exact ⟨⟨hp, hsep⟩, ih hps⟩

theorem isLine_inQuotes {s : String} (h : IsLine s) : IsLine (inQuotes s) := by
  simpa [inQuotes, IsLine] using h

theorem isLine_inBraces {parts : List String} (h : ∀ p ∈ parts, IsLine p) :
    IsLine (inBraces parts) := by
  unfold inBraces
  split
  · simp [IsLine]
  · have hcomma : IsLine ", " := by simp [IsLine]
    have hparts := isLine_intercalate hcomma h
    simpa [IsLine] using hparts

theorem isLine_rangeText {lo hi : Option String} (hlo : ∀ s ∈ lo, IsLine s)
    (hhi : ∀ s ∈ hi, IsLine s) : IsLine (rangeText lo hi) := by
  have hget : ∀ x : Option String, (∀ s ∈ x, IsLine s) → IsLine (x.getD "") := by
    intro x hx
    cases x with
    | none => simp [IsLine]
    | some s => exact hx s rfl
  unfold rangeText
  split
  · simp [IsLine]
  · have hends := And.intro (hget lo hlo) (hget hi hhi)
    simpa [IsLine] using hends

theorem Terminal.isLine_details {t : Terminal} (h : ∀ text, t = .literal text → IsLine text) :
    IsLine t.details := by
  cases t with
  | literal text =>
    have htext := isLine_inQuotes (h text rfl)
    simpa [details, IsLine] using htext
  | int lo hi =>
    have hnumber : ∀ x : Option Int, ∀ s ∈ x.map intText, IsLine s := by
      intro x s hs
      obtain ⟨n, -, rfl⟩ := Option.map_eq_some_iff.1 hs
      exact not_mem_intText n rfl (by decide)
    exact isLine_rangeText (hnumber lo) (hnumber hi)
  | float lo hi =>
    have hnumber : ∀ x : Option Binary64, ∀ s ∈ x.map Binary64.plainText, IsLine s := by
      intro x s hs
      obtain ⟨y, -, rfl⟩ := Option.map_eq_some_iff.1 hs
      exact y.not_mem_plainText rfl (by decide) (by decide)
    exact isLine_rangeText (hnumber lo) (hnumber hi)
  | str => simp [details, IsLine]
  | path resolveParent mutable =>
    apply isLine_inBraces
    cases resolveParent <;> cases mutable <;> simp [IsLine]

theorem Wrapper.isLine_details {w : Wrapper}
    (h : ∀ j lo hi, w = .repetition (some j) lo hi → IsLine j) : IsLine w.details := by
  cases w with
  | optional => simp [details, IsLine]
  | repetition joint lo hi =>
    have hnumber : ∀ n : Nat, IsLine (toString n) := fun n => by
      simpa [IsLine] using not_mem_of_isDigit (isDigit_toDigits n) rfl
    apply isLine_inBraces
    intro p hp
    rcases List.mem_append.1 hp with hp | hp
    · rcases List.mem_append.1 hp with hp | hp
      · obtain ⟨j, rfl, rfl⟩ := Option.map_eq_some_iff.1 (Option.mem_toList.1 hp)
        have hj := isLine_inQuotes (h j lo hi rfl)
        simpa [IsLine] using hj
      · obtain ⟨n, -, rfl⟩ := Option.map_eq_some_iff.1 (Option.mem_toList.1 hp)
        simpa [IsLine] using hnumber n
    · obtain ⟨n, -, rfl⟩ := Option.map_eq_some_iff.1 (Option.mem_toList.1 hp)
      simpa [IsLine] using hnumber n

theorem Group.isLine_details {g : Group} (h : ∀ j, g = .sequence (some j) → IsLine j)
    (isEmpty : Bool) : IsLine (g.details isEmpty) := by
  cases g with
  | alternative => simp [details, IsLine]
  | sequence joint =>
    have hempty : IsLine (if isEmpty then " (empty)" else "") := by
      cases isEmpty <;> simp [IsLine]
    rw [details, isLine_append, and_iff_left hempty]
    cases joint with
    | none => simp [IsLine]
    | some j =>
      have hj := isLine_inQuotes (h j rfl)
      simpa [IsLine] using hj

namespace Tree

/-- The texts that the line of a node shows as they are: its name, and the text of a literal or a joint. -/
def texts (t : Tree) : List String :=
  t.name?.toList ++ match t with
    | terminal _ _ (.literal text) => [text]
    | wrap _ _ (.repetition joint _ _) _ => joint.toList
    | group _ _ (.sequence joint) _ => joint.toList
    | _ => []

theorem isLine_details {t : Tree} (h : ∀ text ∈ t.texts, IsLine text) : IsLine t.details := by
  cases t with
  | missing => simp [details, IsLine]
  | terminal i m u =>
    refine Terminal.isLine_details fun text hu => h text ?_
    subst hu
    simp [texts]
  | wrap i m w c =>
    refine Wrapper.isLine_details fun j lo hi hw => h j ?_
    subst hw
    simp [texts]
  | group i m g cs =>
    refine Group.isLine_details (fun j hg => h j ?_) _
    subst hg
    simp [texts]

theorem isLine_kind (t : Tree) : IsLine t.kind := by
  cases t with
  | missing => simp [kind, IsLine]
  | terminal i m u => cases u <;> simp [kind, Terminal.kind, IsLine]
  | wrap i m w c => cases w <;> simp [kind, Wrapper.kind, IsLine]
  | group i m g cs => cases g <;> simp [kind, Group.kind, IsLine]

/-- A line of the listing is the line of the node on its own behind two spaces for each step down. -/
theorem toList_line (depth : Nat) (t : Tree) :
    (t.line depth).toList = List.replicate (2 * depth) ' ' ++ (t.line 0).toList := by
  have hspaces : (List.replicate depth "  ").flatMap String.toList = List.replicate (2 * depth) ' ' := by
    induction depth with
    | zero => rfl
    | succ depth ih =>
      rw [List.replicate_succ, List.flatMap_cons, ih, Nat.mul_succ, Nat.add_comm, List.replicate_add]
      rfl
  simp [line, String.toList_join, hspaces]

theorem newline_not_mem_line {t : Tree} (h : ∀ text ∈ t.texts, IsLine text) (depth : Nat) :
    '\n' ∉ (t.line depth).toList := by
  have hname : IsLine ((t.name?.map fun n => " [" ++ n ++ "]").getD "") := by
    cases hn : t.name? with
    | none => simp [IsLine]
    | some n =>
      have htext := h n (List.mem_append_left _ (by simp [hn]))
      simpa [IsLine] using htext
  rw [toList_line, List.mem_append, not_or]
  refine ⟨by simp, ?_⟩
  have hline : IsLine (t.line 0) := by
    rw [line, isLine_append, isLine_append, isLine_append]
    exact ⟨⟨⟨by simp [IsLine], t.isLine_kind⟩, hname⟩, isLine_details h⟩
  exact hline

mutual

/-- The nodes of a tree in preorder, each with its depth below the root, which stands at `depth`. -/
def levels (depth : Nat) : Tree → List (Nat × Tree)
  | missing id => [(depth, missing id)]
  | terminal id m t => [(depth, terminal id m t)]
  | wrap id m w c => (depth, wrap id m w c) :: levels (depth + 1) c
  | group id m g cs => (depth, group id m g cs) :: levelsAll (depth + 1) cs

def levelsAll (depth : Nat) : List Tree → List (Nat × Tree)
  | [] => []
  | t :: ts => levels depth t ++ levelsAll depth ts

end

mutual

theorem map_snd_levels (depth : Nat) : (t : Tree) → (t.levels depth).map Prod.snd = t.preorder
  | missing _ | terminal .. => rfl
  | wrap _ _ _ c => by rw [levels, List.map_cons, map_snd_levels (depth + 1) c, preorder]
  | group _ _ _ cs => by rw [levels, List.map_cons, map_snd_levelsAll (depth + 1) cs, preorder]

theorem map_snd_levelsAll (depth : Nat) : (ts : List Tree) →
    (levelsAll depth ts).map Prod.snd = preorderAll ts
  | [] => rfl
  | t :: ts => by
    rw [levelsAll, List.map_append, map_snd_levels depth t, map_snd_levelsAll depth ts, preorderAll]

end

mutual

theorem lines_eq (depth : Nat) : (t : Tree) →
    t.lines depth = (t.levels depth).map fun e => e.2.line e.1
  | missing _ | terminal .. => rfl
  | wrap _ _ _ c => by rw [levels, List.map_cons, lines, lines_eq (depth + 1) c]
  | group _ _ _ cs => by rw [levels, List.map_cons, lines, linesAll_eq (depth + 1) cs]

theorem linesAll_eq (depth : Nat) : (ts : List Tree) →
    linesAll depth ts = (levelsAll depth ts).map fun e => e.2.line e.1
  | [] => rfl
  | t :: ts => by
    rw [levelsAll, List.map_append, linesAll, lines_eq depth t, linesAll_eq depth ts]

end

theorem splitOn_listing {t : Tree} (h : ∀ s ∈ t.preorder, ∀ text ∈ s.texts, IsLine text) :
    (t.listingFor none).toList.splitOn '\n' =
      (t.levels 0).map fun e => List.replicate (2 * e.1) ' ' ++ (e.2.line 0).toList := by
  have hlines : (t.lines 0).map String.toList =
      (t.levels 0).map fun e => List.replicate (2 * e.1) ' ' ++ (e.2.line 0).toList := by
    rw [lines_eq, List.map_map]
    exact List.map_congr_left fun e _ => toList_line e.1 e.2
  have hnewline : ∀ l ∈ (t.lines 0).map String.toList, '\n' ∉ l := by
    rw [lines_eq, List.map_map, List.forall_mem_map]
    intro e he
    refine newline_not_mem_line (h e.2 ?_) e.1
    rw [← map_snd_levels 0 t]
    exact List.mem_map_of_mem he
  have hne : (t.lines 0).map String.toList ≠ [] := by cases t <;> simp [lines]
  rw [← hlines, listingFor, String.toList_intercalate]
  exact List.splitOn_intercalate '\n' hnewline hne

end Tree

/-- In an arena in which children stand before their parents the loop over places ends, from every place,
and visits the tree there in preorder, as the walk of the tree does. If no name, literal or joint in the
tree has a line break, the listing has one line for each node of the walk, in its order: the line of that
node behind two spaces for each step down to it. -/
theorem Arena.traversals_agree {a : Arena} {root : NodeId} (ho : a.Ordered) (hroot : root < a.size) :
    (∀ order, a.Walks [root] order ↔ order = (a.tree root).preorder.map Tree.id) ∧
      (a.tree root).walk = (a.tree root).preorder ∧
      ((∀ s ∈ (a.tree root).walk, ∀ text ∈ s.texts, '\n' ∉ text.toList) →
        ((a.tree root).levels 0).map Prod.snd = (a.tree root).walk ∧
        ((a.tree root).listingFor none).toList.splitOn '\n' = ((a.tree root).levels 0).map
          fun e => List.replicate (2 * e.1) ' ' ++ (e.2.line 0).toList) := by
  have hwalk := Tree.walk_eq_preorder (a.tree root)
  refine ⟨fun order => ?_, hwalk, fun htexts => ?_⟩
  · conv_lhs => rw [← a.id_tree root]
    exact walks_iff (holds_tree ho hroot)
  · rw [hwalk] at htexts ⊢
    exact ⟨Tree.map_snd_levels 0 (a.tree root), Tree.splitOn_listing htexts⟩

def Arena.sandwich : Arena := ⟨#[
  ⟨.terminal (.literal "a"), none⟩,
  ⟨.wrap .optional 0, some { name := some "x" }⟩,
  ⟨.group (.sequence (some ",")) [1, 0, 1], none⟩]⟩

theorem Arena.traversals_agree_sandwich : sandwich.Ordered ∧ 2 < sandwich.size ∧
    (∀ s ∈ (sandwich.tree 2).walk, ∀ text ∈ s.texts, '\n' ∉ text.toList) ∧
    sandwich.Walks [2] [2, 1, 0, 0, 1, 0] ∧
    ((sandwich.tree 2).listingFor none).toList.splitOn '\n' =
      ["sequence join=\x22,\x22", "  optional [x]", "    literal \x22a\x22", "  literal \x22a\x22",
        "  optional [x]", "    literal \x22a\x22"].map String.toList := by
  have ho : sandwich.Ordered := by decide
  have hroot : 2 < sandwich.size := by decide
  obtain ⟨hwalks, hwalk, hlines⟩ := traversals_agree ho hroot
  have htexts : ∀ s ∈ (sandwich.tree 2).walk, ∀ text ∈ s.texts, '\n' ∉ text.toList := by
    rw [hwalk]
    decide
  exact ⟨ho, hroot, htexts, (hwalks _).2 rfl, (hlines htexts).2.trans (by decide)⟩

end ToolBindings
