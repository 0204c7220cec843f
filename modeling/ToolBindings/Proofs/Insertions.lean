import Mathlib.Data.List.Induction
import ToolBindings.Proofs.Registry

/-!
# Registries as maps

A list of writes leaves a map whose keys stand in the order of their first writes and whose values are
those of the last writes (`keys_ofList`, `find?_ofList`). Of a registry both indexes are such maps, one
written by id and one by node. So it lists one binding for each id that was ever inserted, and resolves a
node to what its latest id stands for now, which is a binding of that node unless the id was given to
another node, too (`ofList_isMap`).
-/
namespace ToolBindings

namespace OrderedMap
universe u v
variable {κ : Type u} {α : Type v} [DecidableEq κ]

theorem ofList_concat (entries : List (κ × α)) (e : κ × α) :
    ofList (entries ++ [e]) = insert e.1 e.2 (ofList entries) := by
  simp [ofList, insertAll]

theorem eraseDups_concat (ks : List κ) (k : κ) :
    (ks ++ [k]).eraseDups = if k ∈ ks then ks.eraseDups else ks.eraseDups ++ [k] := by
  rw [List.eraseDups_append]
  split <;> next h => simp [List.removeAll, List.eraseDups_cons, h]

theorem keys_ofList (entries : List (κ × α)) : keys (ofList entries) = (keys entries).eraseDups := by
  induction entries using List.reverseRecOn with
  | nil => rfl
  | append_singleton entries e ih =>
    have hkeys : keys (entries ++ [e]) = keys entries ++ [e.1] := List.map_append
    rw [ofList_concat, keys_insert, ih, hkeys, eraseDups_concat]
    simp only [List.mem_eraseDups]

theorem find?_ofList (k : κ) (entries : List (κ × α)) :
    find? k (ofList entries) = (entries.reverse.find? fun e => e.1 = k).map Prod.snd := by
  induction entries using List.reverseRecOn with
  | nil => rfl
  | append_singleton entries e ih =>
    rw [ofList_concat, find?_insert, ih, List.reverse_concat, List.find?_cons]
    by_cases h : e.1 = k
    · simp [h]
    · simp [h, Ne.symm h]

theorem find?_of_mem {k : κ} {v : α} {m : OrderedMap κ α} (hnd : (keys m).Nodup)
    (h : (k, v) ∈ m) : find? k m = some v := by
  induction m with
  | nil => cases h
  | cons e m ih =>
    obtain ⟨hnot, hnd⟩ := List.nodup_cons.1 hnd
    rcases List.mem_cons.1 h with rfl | h
    · exact if_pos rfl
    · have hne : e.1 ≠ k := fun heq => hnot (List.mem_map.2 ⟨(k, v), h, heq.symm⟩)
      rw [find?, if_neg hne, ih hnd h]

end OrderedMap

namespace Registry
variable {bs : List Binding} {b : Binding}

/-- The binding that was inserted last with an id. -/
def lastWith (bs : List Binding) (id : Nat) : Option Binding := bs.reverse.find? fun b => b.id = id

/-- The binding that was inserted last for a node. -/
def lastFor (bs : List Binding) (node : NodeId) : Option Binding :=
  bs.reverse.find? fun b => b.node = node

theorem mem_of_find?_reverse {p : Binding → Prop} [DecidablePred p]
    (h : bs.reverse.find? (fun b => p b) = some b) : b ∈ bs ∧ p b :=
  ⟨List.mem_reverse.1 (List.mem_of_find?_eq_some h), by simpa using List.find?_some h⟩

theorem lastWith_isSome_iff {id : Nat} : (lastWith bs id).isSome ↔ ∃ b ∈ bs, b.id = id := by
  simp [lastWith]

theorem lastFor_isSome_iff {node : NodeId} : (lastFor bs node).isSome ↔ ∃ b ∈ bs, b.node = node := by
  simp [lastFor]

theorem ofList_eq (bs : List Binding) :
    ofList bs = ⟨OrderedMap.ofList (bs.map fun b => (b.id, b)),
      OrderedMap.ofList (bs.map fun b => (b.node, b.id))⟩ :=
  foldl_insert bs {}

theorem get?_ofList (bs : List Binding) (id : Nat) : (ofList bs).get? id = lastWith bs id := by
  rw [get?, ofList_eq, OrderedMap.find?_ofList, ← List.map_reverse, List.find?_map, Option.map_map]
  exact Option.map_id' ..

theorem resolve?_ofList_eq (bs : List Binding) (node : NodeId) :
    (ofList bs).resolve? node = (lastFor bs node).bind fun b => (ofList bs).get? b.id := by
  rw [resolve?, ofList_eq, OrderedMap.find?_ofList, ← List.map_reverse, List.find?_map,
    Option.map_map, Option.bind_map]
  rfl

theorem resolve?_isSome_iff {node : NodeId} :
    ((ofList bs).resolve? node).isSome ↔ ∃ b ∈ bs, b.node = node := by
  rw [resolve?_ofList_eq, ← lastFor_isSome_iff]
  cases h : lastFor bs node with
  | none => simp
  | some b =>
    have hget : ((ofList bs).get? b.id).isSome := by
      rw [get?_ofList, lastWith_isSome_iff]
      exact ⟨b, (mem_of_find?_reverse h).1, rfl⟩
    simpa using hget

theorem id_of_mem_byId {e : Nat × Binding} (he : e ∈ (ofList bs).byId) : e.2.id = e.1 := by
  rw [ofList_eq] at he
  rcases OrderedMap.mem_insertAll e he with hnil | hmem
  · cases hnil
  · obtain ⟨b, -, rfl⟩ := List.mem_map.1 hmem
    rfl

theorem ids_toList_ofList (bs : List Binding) :
    (ofList bs).toList.map (·.id) = (bs.map (·.id)).eraseDups := by
  have hkeys : (ofList bs).toList.map (·.id) = OrderedMap.keys (ofList bs).byId := by
    rw [toList, OrderedMap.values, List.map_map]
    exact List.map_congr_left fun e he => id_of_mem_byId he
  rw [hkeys, ofList_eq, OrderedMap.keys_ofList, OrderedMap.keys_map]

theorem lastWith_of_mem_toList (h : b ∈ (ofList bs).toList) : lastWith bs b.id = some b := by
  obtain ⟨e, he, rfl⟩ := List.mem_map.1 h
  have hnd : (OrderedMap.keys (ofList bs).byId).Nodup := by
    rw [ofList_eq]
    exact OrderedMap.nodup_keys_ofList _
  rw [← get?_ofList, get?, id_of_mem_byId he]
  exact OrderedMap.find?_of_mem hnd he

/-- If no id is given to two nodes, a node resolves to a binding of its own. -/
theorem node_of_resolve? (hid : ∀ b ∈ bs, ∀ c ∈ bs, b.id = c.id → b.node = c.node) {node : NodeId}
    (h : (ofList bs).resolve? node = some b) : b.node = node := by
  rw [resolve?_ofList_eq] at h
  obtain ⟨c, hc, hb⟩ := Option.bind_eq_some_iff.1 h
  rw [get?_ofList] at hb
  obtain ⟨hcmem, hnode⟩ := mem_of_find?_reverse hc
  obtain ⟨hbmem, hsame⟩ := mem_of_find?_reverse hb
  exact (hid b hbmem c hcmem hsame).trans hnode

/-- What a registry holds after any insertions. It lists the ids in the order of their first insertions,
each with the binding inserted last with it, and that is what it gets by the id. A node is resolved to the
current binding of the id inserted last for it. -/
theorem ofList_isMap (bs : List Binding) :
    (ofList bs).toList.map (·.id) = (bs.map (·.id)).eraseDups ∧
      (∀ b ∈ (ofList bs).toList, lastWith bs b.id = some b) ∧
      (∀ id, (ofList bs).get? id = lastWith bs id) ∧
      (∀ node, (ofList bs).resolve? node =
        (lastFor bs node).bind fun b => (ofList bs).get? b.id) ∧
      (∀ node, ((ofList bs).resolve? node).isSome ↔ ∃ b ∈ bs, b.node = node) ∧
      ((∀ b ∈ bs, ∀ c ∈ bs, b.id = c.id → b.node = c.node) →
        ∀ node, ∀ b ∈ (ofList bs).resolve? node, b.node = node) :=
  ⟨ids_toList_ofList bs, fun _ => lastWith_of_mem_toList, get?_ofList bs, resolve?_ofList_eq bs,
    fun _ => resolve?_isSome_iff, fun hid _ _ => node_of_resolve? hid⟩

/-- Two ids for one node, of which the first one is inserted again. The node goes by it again, and it keeps
its place. -/
theorem ofList_isMap_renewed :
    let bs : List Binding := [⟨7, 0, "a", .bool⟩, ⟨8, 0, "b", .count⟩, ⟨9, 1, "c", .bool⟩,
      ⟨7, 0, "d", .count⟩]
    (∀ b ∈ bs, ∀ c ∈ bs, b.id = c.id → b.node = c.node) ∧
      (ofList bs).toList.map (·.id) = [7, 8, 9] ∧
      ∃ b, (ofList bs).resolve? 0 = some b ∧ b.name = "d" ∧ b.node = 0 := by
  intro bs
  obtain ⟨hids, -, -, -, -, hnode⟩ := ofList_isMap bs
  have hid : ∀ b ∈ bs, ∀ c ∈ bs, b.id = c.id → b.node = c.node := by simp [bs]
  exact ⟨hid, hids.trans rfl, _, rfl, rfl, hnode hid 0 _ rfl⟩

/-- Where one id is given to two nodes, both of them resolve to the last binding. -/
example : (ofList [⟨7, 0, "a", .bool⟩, ⟨7, 1, "b", .bool⟩]).resolve? 0 = some ⟨7, 1, "b", .bool⟩ := rfl

end Registry
end ToolBindings
