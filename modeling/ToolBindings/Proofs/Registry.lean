import Mathlib.Data.List.Nodup
import ToolBindings.Binding.Registry

/-!
# Registries of distinct bindings

Where no key is written twice a map is the list of its writes. So a registry that is filled with
bindings of distinct ids and distinct nodes lists these bindings in their order, and finds the binding
of a node by looking through them (`resolve?_ofList`).
-/
namespace ToolBindings

namespace OrderedMap
universe u v
variable {κ : Type u} {α : Type v} {β : Type*}

theorem keys_map (f : β → κ) (g : β → α) (xs : List β) :
    keys (xs.map fun x => (f x, g x)) = xs.map f :=
  List.map_map

variable [DecidableEq κ]

theorem insert_of_not_mem {k : κ} {m : OrderedMap κ α} (h : k ∉ keys m) (v : α) :
    insert k v m = m ++ [(k, v)] := by
  induction m with
  | nil => rfl
  | cons e m ih =>
    obtain ⟨hk, hm⟩ := not_or.1 fun hmem => h (List.mem_cons.2 hmem)
    rw [insert, if_neg (Ne.symm hk), ih hm, List.cons_append]

theorem insertAll_of_nodup {m entries : OrderedMap κ α} (h : (keys (m ++ entries)).Nodup) :
    insertAll m entries = m ++ entries := by
  induction entries generalizing m with
  | nil => exact (List.append_nil m).symm
  | cons e es ih =>
    have hassoc : m ++ e :: es = m ++ [e] ++ es := by simp
    have hnot : e.1 ∉ keys m := by
      rw [keys, List.map_append, List.nodup_append] at h
      exact fun hm => h.2.2 _ hm _ List.mem_cons_self rfl
    rw [hassoc] at h ⊢
    rw [← ih h, insertAll, List.foldl_cons, insert_of_not_mem hnot]
    rfl

theorem ofList_of_nodup {entries : OrderedMap κ α} (h : (keys entries).Nodup) :
    ofList entries = entries :=
  insertAll_of_nodup h

theorem mem_of_find? {k : κ} {v : α} {m : OrderedMap κ α} (h : find? k m = some v) :
    (k, v) ∈ m := by
  induction m with
  | nil => cases h
  | cons e m ih =>
    rw [find?] at h
    split at h
    · next hk =>
      cases h
      rw [← hk]
      exact List.mem_cons_self
    · exact List.mem_cons_of_mem _ (ih h)

theorem mem_insert {k : κ} {v : α} {m : OrderedMap κ α} :
    ∀ e ∈ insert k v m, e = (k, v) ∨ e ∈ m := by
  induction m with
  | nil => exact fun e he => .inl (List.mem_singleton.1 he)
  | cons f m ih =>
    rw [insert]
    split
    · refine List.forall_mem_cons.2 ⟨.inl rfl, fun e he => ?_⟩
      exact .inr (List.mem_cons_of_mem _ he)
    · refine List.forall_mem_cons.2 ⟨.inr List.mem_cons_self, fun e he => ?_⟩
      exact (ih e he).imp_right (List.mem_cons_of_mem _)

theorem mem_insertAll {m entries : OrderedMap κ α} :
    ∀ e ∈ insertAll m entries, e ∈ m ∨ e ∈ entries := by
  induction entries generalizing m with
  | nil => exact fun e he => .inl he
  | cons f es ih =>
    intro e he
    rcases ih e he with hm | hes
    · rcases mem_insert e hm with rfl | hm
      · exact .inr List.mem_cons_self
      · exact .inl hm
    · exact .inr (List.mem_cons_of_mem _ hes)

theorem mem_keys_insert {k l : κ} {v : α} {m : OrderedMap κ α} :
    l ∈ keys (insert k v m) ↔ l = k ∨ l ∈ keys m := by
  rw [keys_insert]
  split
  · next hk => exact ⟨.inr, fun h => h.elim (fun heq => heq ▸ hk) id⟩
  · simp [or_comm]

theorem mem_keys_insertAll {k : κ} {m entries : OrderedMap κ α} :
    k ∈ keys (insertAll m entries) ↔ k ∈ keys m ∨ k ∈ keys entries := by
  induction entries generalizing m with
  | nil => simp [insertAll, keys]
  | cons e es ih =>
    have hrec := ih (m := insert e.1 e.2 m)
    rw [mem_keys_insert] at hrec
    rw [insertAll, List.foldl_cons]
    refine hrec.trans ?_
    simp only [keys, List.map_cons, List.mem_cons]
    exact or_assoc.trans or_left_comm

theorem mem_keys_ofList {k : κ} {entries : OrderedMap κ α} :
    k ∈ keys (ofList entries) ↔ k ∈ keys entries := by
  rw [ofList, mem_keys_insertAll]
  simp [keys]

theorem nodup_keys_insertAll {m entries : OrderedMap κ α} (h : (keys m).Nodup) :
    (keys (insertAll m entries)).Nodup := by
  induction entries generalizing m with
  | nil => exact h
  | cons e es ih => exact ih (nodup_keys_insert h)

theorem nodup_keys_ofList (entries : OrderedMap κ α) : (keys (ofList entries)).Nodup :=
  nodup_keys_insertAll List.nodup_nil

theorem insertAll_cons_of_not_mem {e : κ × α} {m entries : OrderedMap κ α}
    (h : e.1 ∉ keys entries) : insertAll (e :: m) entries = e :: insertAll m entries := by
  induction entries generalizing m with
  | nil => rfl
  | cons f es ih =>
    obtain ⟨hne, hes⟩ := not_or.1 fun hmem => h (List.mem_cons.2 hmem)
    rw [insertAll, List.foldl_cons, insert, if_neg hne]
    exact ih hes

theorem find?_map (f : β → κ) (g : β → α) (k : κ) (xs : List β) :
    find? k (xs.map fun x => (f x, g x)) = (xs.find? fun x => f x = k).map g := by
  induction xs with
  | nil => rfl
  | cons x xs ih =>
    rw [List.map_cons, find?, List.find?_cons]
    by_cases h : f x = k
    · simp [h]
    · simp [h, ih]

end OrderedMap

namespace Registry
variable {bs : List Binding}

theorem foldl_insert (bs : List Binding) (r : Registry) :
    bs.foldl (fun r b => r.insert b) r =
      ⟨OrderedMap.insertAll r.byId (bs.map fun b => (b.id, b)),
        OrderedMap.insertAll r.byNode (bs.map fun b => (b.node, b.id))⟩ := by
  induction bs generalizing r with
  | nil => rfl
  | cons b bs ih => exact ih (r.insert b)

theorem byId_ofList (hid : (bs.map (·.id)).Nodup) :
    (ofList bs).byId = bs.map fun b => (b.id, b) := by
  rw [ofList, foldl_insert]
  exact OrderedMap.ofList_of_nodup (by rwa [OrderedMap.keys_map])

theorem byNode_ofList (hnode : (bs.map (·.node)).Nodup) :
    (ofList bs).byNode = bs.map fun b => (b.node, b.id) := by
  rw [ofList, foldl_insert]
  exact OrderedMap.ofList_of_nodup (by rwa [OrderedMap.keys_map])

theorem toList_ofList (hid : (bs.map (·.id)).Nodup) : (ofList bs).toList = bs := by
  rw [toList, byId_ofList hid]
  exact List.map_map.trans (List.map_id bs)

theorem find?_id (hid : (bs.map (·.id)).Nodup) {b : Binding} (hb : b ∈ bs) :
    bs.find? (fun c => c.id = b.id) = some b := by
  cases h : bs.find? fun c => decide (c.id = b.id) with
  | none => exact absurd (decide_eq_true rfl) (List.find?_eq_none.1 h b hb)
  | some c =>
    have hc := List.find?_some h
    rw [List.inj_on_of_nodup_map hid (List.mem_of_find?_eq_some h) hb (of_decide_eq_true hc)]

theorem resolve?_ofList (hid : (bs.map (·.id)).Nodup) (hnode : (bs.map (·.node)).Nodup)
    (node : NodeId) : (ofList bs).resolve? node = bs.find? fun b => b.node = node := by
  rw [resolve?, byNode_ofList hnode, OrderedMap.find?_map]
  cases h : bs.find? fun b => decide (b.node = node) with
  | none => rfl
  | some b =>
    have hget := find?_id hid (List.mem_of_find?_eq_some h)
    change OrderedMap.find? b.id (ofList bs).byId = some b
    rw [byId_ofList hid, OrderedMap.find?_map, hget]
    rfl

end Registry
end ToolBindings
