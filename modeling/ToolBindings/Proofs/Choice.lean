import ToolBindings.Proofs.FreshName
import ToolBindings.Proofs.Outline

/-!
# Types of choices

A choice is a flag, or a union of what tagging makes of its variants (`choiceType_cases`). Tagging leaves
a literal as it is and makes a structure of every other type. The structure begins with the name of the
variant as the discriminator, except where a type that is no structure goes by the name of the
discriminator itself: there its field takes the place of the discriminator (`tag?_tagged_iff`).
-/
namespace ToolBindings
open Solving

namespace ValueType

def isStruct : ValueType → Bool
  | struct _ => true
  | _ => false

theorem exists_of_isLiteral {t : ValueType} (h : t.isLiteral = true) : ∃ l, t = literal l := by
  cases t with
  | literal l => exact ⟨l, rfl⟩
  | _ => cases h

theorem exists_of_isStruct {t : ValueType} (h : t.isStruct = true) : ∃ fs, t = struct fs := by
  cases t with
  | struct fs => exact ⟨fs, rfl⟩
  | _ => cases h

def tag? : ValueType → Option String
  | struct ((field, literal (.str name)) :: _) => if field = discriminator then some name else none
  | _ => none

theorem tag?_eq_some_iff {t : ValueType} {name : String} :
    t.tag? = some name ↔ ∃ fs, t = struct ((discriminator, literal (.str name)) :: fs) := by
  constructor
  · intro h
    unfold tag? at h
    split at h
    · next field n fs =>
      split at h <;> cases h
      next hfield => exact ⟨fs, by rw [hfield]⟩
    · cases h
  · rintro ⟨fs, rfl⟩
    rw [tag?, if_pos rfl]

theorem tag?_of_isLiteral {t : ValueType} (h : t.isLiteral = true) : t.tag? = none := by
  obtain ⟨l, rfl⟩ := exists_of_isLiteral h
  rfl

end ValueType

namespace Solving

theorem isLiteral_of_flag? {t : ValueType} {f : Flag} (h : flag? t = some f) :
    t.isLiteral = true := by
  cases t <;> first | rfl | cases h

theorem isLiteral_of_isFlagPair {ts : List ValueType} (h : isFlagPair ts = true) :
    ∀ t ∈ ts, t.isLiteral = true := by
  unfold isFlagPair at h
  split at h
  · next s t =>
    cases hs : flag? s with
    | none => simp [hs] at h
    | some f =>
      cases ht : flag? t with
      | none => simp [hs, ht] at h
      | some g =>
        refine List.forall_mem_cons.2 ⟨isLiteral_of_flag? hs, ?_⟩
        exact List.forall_mem_singleton.2 (isLiteral_of_flag? ht)
  · cases h

theorem tagged_of_isLiteral {v : Variant} (h : v.type.isLiteral = true) :
    tagged v = .ok (v.name, v.type) := by
  obtain ⟨l, hl⟩ := ValueType.exists_of_isLiteral h
  unfold tagged
  rw [hl]
  rfl

theorem forall₂_tagged {vs : List Variant} {es : List (String × ValueType)}
    (h : vs.mapM tagged = .ok es) : List.Forall₂ (fun v e => tagged v = .ok e) vs es := by
  induction vs generalizing es with
  | nil =>
    cases h
    exact .nil
  | cons v vs ih =>
    rw [List.mapM_cons] at h
    cases he : tagged v with
    | error e =>
      rw [he] at h
      cases h
    | ok e =>
      cases hes : vs.mapM tagged with
      | error e' =>
        rw [he, hes] at h
        cases h
      | ok es' =>
        rw [he, hes] at h
        cases h
        exact .cons he (ih hes)

theorem choiceType_cases {vs : List Variant} {type : ValueType} (h : choiceType vs = .ok type) :
    (isFlagPair (vs.map (·.type)) = true ∧ type = .bool) ∨
      ∃ es, type = .union es ∧ List.Forall₂ (fun v e => tagged v = .ok e) vs es := by
  unfold choiceType at h
  split at h
  · next hpair =>
    cases h
    exact .inl ⟨hpair, rfl⟩
  · split at h
    · next hlit =>
      cases h
      refine .inr ⟨_, rfl, List.forall₂_map_right_iff.2 (List.forall₂_same.2 fun v hv => ?_)⟩
      exact tagged_of_isLiteral (List.all_eq_true.1 hlit v hv)
    · cases hes : vs.mapM tagged with
      | error e =>
        rw [hes] at h
        cases h
      | ok es =>
        rw [hes] at h
        cases h
        exact .inr ⟨es, rfl, forall₂_tagged hes⟩

theorem choiceType_eq_bool_iff {vs : List Variant} {type : ValueType} (h : choiceType vs = .ok type) :
    type = .bool ↔ isFlagPair (vs.map (·.type)) = true := by
  constructor
  · intro hbool
    rcases choiceType_cases h with ⟨hpair, -⟩ | ⟨es, hunion, -⟩
    · exact hpair
    · cases hbool.symm.trans hunion
  · intro hpair
    rw [choiceType, if_pos hpair] at h
    exact (Except.ok.inj h).symm

theorem choiceTypeOf_cases (vs : List Variant) :
    choiceTypeOf vs = .bool ∨ ∃ es, choiceTypeOf vs = .union es := by
  unfold choiceTypeOf
  cases h : choiceType vs with
  | error e => exact .inl rfl
  | ok type =>
    rcases choiceType_cases h with ⟨-, rfl⟩ | ⟨es, rfl, -⟩
    · exact .inl rfl
    · exact .inr ⟨es, rfl⟩

theorem tagged_of_isStruct {v : Variant} (h : v.type.isStruct = true) : ∃ others,
    tagged v = .ok (v.name, .struct ((discriminator, .literal (.str v.name)) :: others)) := by
  obtain ⟨fs, hfs⟩ := ValueType.exists_of_isStruct h
  have hnot : discriminator ∉ OrderedMap.keys (fs.filter fun f => f.1 ≠ discriminator) :=
    fun hmem => by
      obtain ⟨f, hf, hkey⟩ := List.mem_map.1 hmem
      exact of_decide_eq_true (List.mem_filter.1 hf).2 hkey
  refine ⟨OrderedMap.insertAll [] (fs.filter fun f => f.1 ≠ discriminator), ?_⟩
  rw [← OrderedMap.insertAll_cons_of_not_mem hnot]
  unfold tagged
  rw [hfs]
  rfl

theorem tagged_boxed {v : Variant} {n : Option String} (hlit : v.type.isLiteral = false)
    (hstruct : v.type.isStruct = false) (hn : v.tree.nearestName = .ok n) :
    tagged v = .ok (v.name, .struct (OrderedMap.insert (n.getD "value") v.type
      [(discriminator, .literal (.str v.name))])) := by
  unfold tagged
  split
  · next l hl =>
    rw [hl] at hlit
    cases hlit
  · next fs hfs =>
    rw [hfs] at hstruct
    cases hstruct
  · rw [hn]
    rfl

theorem exists_struct_of_tagged {v : Variant} {e : String × ValueType} (hw : v.tree.Whole)
    (hlit : v.type.isLiteral = false) (he : tagged v = .ok e) : ∃ fs, e = (v.name, .struct fs) := by
  cases hstruct : v.type.isStruct with
  | true =>
    obtain ⟨others, htagged⟩ := tagged_of_isStruct hstruct
    exact ⟨_, Except.ok.inj (he.symm.trans htagged)⟩
  | false =>
    obtain ⟨n, hn⟩ := Tree.exists_nearestName v.tree hw
    exact ⟨_, Except.ok.inj (he.symm.trans (tagged_boxed hlit hstruct hn))⟩

theorem tag?_tagged_iff {v : Variant} {e : String × ValueType} (hw : v.tree.Whole)
    (hlit : v.type.isLiteral = false) (he : tagged v = .ok e) :
    e.2.tag? = some v.name ↔
      (v.type.isStruct = false → v.tree.nearestName ≠ .ok (some discriminator)) := by
  rw [ValueType.tag?_eq_some_iff]
  cases hstruct : v.type.isStruct with
  | true =>
    obtain ⟨others, htagged⟩ := tagged_of_isStruct hstruct
    obtain rfl := Except.ok.inj (he.symm.trans htagged)
    exact ⟨fun _ => nofun, fun _ => ⟨others, rfl⟩⟩
  | false =>
    obtain ⟨n, hn⟩ := Tree.exists_nearestName v.tree hw
    obtain rfl := Except.ok.inj (he.symm.trans (tagged_boxed hlit hstruct hn))
    have hfield : n.getD "value" = discriminator ↔ n = some discriminator := by
      cases n with
      | none => exact ⟨fun h => absurd h (by decide), nofun⟩
      | some m => exact (Option.some_inj (a := m)).symm
    rw [hn, OrderedMap.insert]
    split
    · next heq =>
      constructor
      · rintro ⟨fs, hfs⟩
        have hhead : v.type = .literal (.str v.name) :=
          congrArg Prod.snd (List.cons.inj (ValueType.struct.inj hfs)).1
        rw [hhead] at hlit
        cases hlit
      · exact fun h => absurd (congrArg Except.ok (hfield.1 heq.symm)) (h rfl)
    · next hne => exact ⟨fun _ _ h => hne (hfield.2 (Except.ok.inj h)).symm, fun _ => ⟨_, rfl⟩⟩

end Solving

namespace Tree

theorem names_outlineVariants (ts : List Tree) (path : List String) (i : Nat) (used : List String)
    (k : Counter) : ((outlineVariants ts path i used k).1.map Prod.fst).Nodup ∧
      ∀ n ∈ (outlineVariants ts path i used k).1.map Prod.fst, n ∉ used := by
  induction ts generalizing i used k with
  | nil => exact ⟨.nil, nofun⟩
  | cons t ts ih =>
    have hfresh := takeName_not_mem used (variantBase i t)
    obtain ⟨hnd, hnot⟩ := ih (i + 1) (takeName used (variantBase i t)).2
      (t.outline (path ++ ["variant_" ++ toString i]) k).2
    rw [takeName_used] at hnot
    rw [outlineVariants, List.map_cons]
    refine ⟨List.nodup_cons.2 ⟨fun hmem => hnot _ hmem List.mem_cons_self, hnd⟩, ?_⟩
    refine List.forall_mem_cons.2 ⟨hfresh, fun n hn hused => hnot n hn ?_⟩
    exact List.mem_cons_of_mem _ hused

end Tree
end ToolBindings
