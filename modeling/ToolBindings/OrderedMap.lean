/-!
# Maps in order of insertion

A map is the list of its entries, the key written first standing first. Writing a key again
replaces its value and keeps its place, so a map built by `insert` holds every key once
(`nodup_keys_insert`). The entries are a plain list: a type may hold a map of itself.
-/
namespace ToolBindings
universe u v

abbrev OrderedMap (κ : Type u) (α : Type v) := List (κ × α)

namespace OrderedMap
variable {κ : Type u} {α : Type v} [DecidableEq κ]

def insert (k : κ) (v : α) : OrderedMap κ α → OrderedMap κ α
  | [] => [(k, v)]
  | e :: m => if e.1 = k then (k, v) :: m else e :: insert k v m

def find? (k : κ) : OrderedMap κ α → Option α
  | [] => none
  | e :: m => if e.1 = k then some e.2 else find? k m

def keys (m : OrderedMap κ α) : List κ := m.map Prod.fst

def values (m : OrderedMap κ α) : List α := m.map Prod.snd

def insertAll (m entries : OrderedMap κ α) : OrderedMap κ α :=
  entries.foldl (fun m e => insert e.1 e.2 m) m

/-- The map that a list of writes leaves, the last write of a key being the one that counts. -/
def ofList (entries : List (κ × α)) : OrderedMap κ α := insertAll [] entries

@[simp] theorem find?_nil (k : κ) : find? k ([] : OrderedMap κ α) = none := rfl

theorem find?_insert_self (k : κ) (v : α) (m : OrderedMap κ α) :
    find? k (insert k v m) = some v := by
  induction m with
  | nil => simp [insert, find?]
  | cons e m ih => by_cases h : e.1 = k <;> simp [insert, find?, h, ih]

theorem find?_insert_of_ne {k l : κ} (h : l ≠ k) (v : α) (m : OrderedMap κ α) :
    find? l (insert k v m) = find? l m := by
  induction m with
  | nil => simp [insert, find?, Ne.symm h]
  | cons e m ih =>
    by_cases hk : e.1 = k
    · simp [insert, find?, hk, Ne.symm h]
    · by_cases hl : e.1 = l
      · subst hl; simp [insert, find?, hk]
      · simp [insert, find?, hk, hl, ih]

theorem find?_insert (k l : κ) (v : α) (m : OrderedMap κ α) :
    find? l (insert k v m) = if l = k then some v else find? l m := by
  by_cases h : l = k
  · subst h; simp [find?_insert_self]
  · simp [find?_insert_of_ne h, h]

theorem keys_insert (k : κ) (v : α) (m : OrderedMap κ α) :
    keys (insert k v m) = if k ∈ keys m then keys m else keys m ++ [k] := by
  induction m with
  | nil => simp [insert, keys]
  | cons e m ih =>
    by_cases h : e.1 = k
    · simp [insert, keys, h]
    · have h' : ¬ k = e.1 := fun q => h q.symm
      have ih' : List.map Prod.fst (insert k v m) =
          if k ∈ List.map Prod.fst m then List.map Prod.fst m
          else List.map Prod.fst m ++ [k] := ih
      simp only [insert, h, if_false, keys, List.map_cons, ih', List.mem_cons, h', false_or]
      split <;> simp

theorem nodup_keys_insert {k : κ} {v : α} {m : OrderedMap κ α} (h : (keys m).Nodup) :
    (keys (insert k v m)).Nodup := by
  rw [keys_insert]
  split
  · exact h
  · next hk =>
    rw [List.nodup_append]
    refine ⟨h, by simp, fun a ha b hb => ?_⟩
    rw [List.mem_singleton] at hb
    subst hb
    exact fun q => hk (q ▸ ha)

theorem find?_isSome_iff (k : κ) (m : OrderedMap κ α) : (find? k m).isSome ↔ k ∈ keys m := by
  induction m with
  | nil => simp [find?, keys]
  | cons e m ih =>
    by_cases h : e.1 = k
    · simp [find?, keys, h]
    · have h' : ¬ k = e.1 := fun q => h q.symm
      simpa [find?, keys, h, h'] using ih

end OrderedMap
end ToolBindings
