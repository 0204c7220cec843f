import ToolBindings.Number.Text
import ToolBindings.Proofs.Shortest

/-!
# Numbers are told apart by their texts

Integers and doubles with one text are one (`intText_injective`, `plainText_injective`). A double without
exponent is written as a sign, digits and perhaps a point and more digits, from which the value of its
shortest decimal can be read again (`readDecimal_positionalText`).
-/
namespace ToolBindings

def IsNumberText (cs : List Char) : Prop := cs ≠ [] ∧ ',' ∉ cs ∧ ':' ∉ cs

theorem isDigit_toDigits (n : Nat) : ∀ c ∈ Nat.toDigits 10 n, c.isDigit = true := fun _ hc =>
  Nat.isDigit_of_mem_toDigits (by decide) (by decide) hc

theorem not_mem_of_isDigit {cs : List Char} (h : ∀ c ∈ cs, c.isDigit = true) {d : Char}
    (hd : d.isDigit = false) : d ∉ cs := fun hmem => by
  rw [h d hmem] at hd
  cases hd

theorem toDigits_injective {m n : Nat} (h : Nat.toDigits 10 m = Nat.toDigits 10 n) : m = n := by
  have hvalue := congrArg (Nat.ofDigitChars 10 · 0) h
  simpa using hvalue

theorem toList_intText (n : Int) : (intText n).toList =
    (if n < 0 then ['-'] else []) ++ Nat.toDigits 10 n.natAbs := by
  unfold intText FloatLayout.digitText
  split <;> simp

theorem intText_injective {m n : Int} (h : intText m = intText n) : m = n := by
  have hlist := congrArg String.toList h
  rw [toList_intText, toList_intText] at hlist
  have hminus : ∀ k, '-' ∉ Nat.toDigits 10 k := fun k => not_mem_of_isDigit (isDigit_toDigits k) rfl
  by_cases hm : m < 0 <;> by_cases hn : n < 0 <;>
    simp only [hm, hn, if_true, if_false, List.nil_append, List.cons_append, List.cons.injEq,
      true_and] at hlist
  · have habs := toDigits_injective hlist
    omega
  · exact absurd (hlist ▸ List.mem_cons_self) (hminus _)
  · exact absurd (hlist ▸ List.mem_cons_self) (hminus _)
  · have habs := toDigits_injective hlist
    omega

theorem not_mem_intText (n : Int) {d : Char} (hd : d.isDigit = false) (hminus : d ≠ '-') :
    d ∉ (intText n).toList := by
  have hdigits := not_mem_of_isDigit (isDigit_toDigits n.natAbs) hd
  rw [toList_intText]
  split <;> simp [hdigits, hminus]

theorem isNumberText_intText (n : Int) : IsNumberText (intText n).toList := by
  refine ⟨?_, not_mem_intText n rfl (by decide), not_mem_intText n rfl (by decide)⟩
  rw [toList_intText]
  simp

def readDecimal (cs : List Char) : ℚ :=
  let whole := cs.takeWhile Char.isDigit
  let part := (cs.dropWhile Char.isDigit).tail
  Nat.ofDigitChars 10 (whole ++ part) 0 / 10 ^ part.length

structure IsDecimalText (cs whole part : List Char) : Prop where
  eq_append : cs = whole ++ if part = [] then [] else '.' :: part
  ne_nil : whole ≠ []
  isDigit : ∀ c ∈ whole ++ part, c.isDigit = true

namespace IsDecimalText
variable {cs whole part : List Char}

theorem read (h : IsDecimalText cs whole part) :
    readDecimal cs = Nat.ofDigitChars 10 (whole ++ part) 0 / 10 ^ part.length := by
  have hwhole : ∀ c ∈ whole, c.isDigit = true := fun c hc =>
    h.isDigit c (List.mem_append_left _ hc)
  rw [h.eq_append, readDecimal, List.takeWhile_append_of_pos hwhole,
    List.dropWhile_append_of_pos hwhole]
  by_cases hpart : part = [] <;> simp [hpart]

theorem exists_head (h : IsDecimalText cs whole part) : ∃ c rest, cs = c :: rest ∧ c.isDigit = true := by
  obtain ⟨c, rest, hwhole⟩ := List.exists_cons_of_ne_nil h.ne_nil
  subst hwhole
  exact ⟨c, _, h.eq_append, h.isDigit c List.mem_cons_self⟩

theorem not_mem (h : IsDecimalText cs whole part) {d : Char} (hd : d.isDigit = false)
    (hpoint : d ≠ '.') : d ∉ cs := by
  intro hmem
  rw [h.eq_append, List.mem_append] at hmem
  have hnot := not_mem_of_isDigit h.isDigit hd
  rw [List.mem_append, not_or] at hnot
  split at hmem <;> simp_all

end IsDecimalText

namespace FloatLayout

theorem isDigit_zeros (n : Nat) : ∀ c ∈ List.replicate n '0', c.isDigit = true := fun c hc => by
  rw [List.eq_of_mem_replicate hc]
  rfl

theorem exists_positionalText (d : Decimal) : ∃ whole part,
    IsDecimalText (plain.positionalText d).toList whole part ∧
      (Nat.ofDigitChars 10 (whole ++ part) 0 : ℚ) / 10 ^ part.length = d.value := by
  have hdigits := isDigit_toDigits d.digits
  unfold positionalText
  dsimp only
  split
  · next hexp =>
    obtain ⟨n, hn⟩ := Int.eq_ofNat_of_zero_le hexp
    refine ⟨Nat.toDigits 10 d.digits ++ List.replicate n '0', [], ⟨?_, ?_, ?_⟩, ?_⟩
    · simp [plain, hn]
    · simp
    · rw [List.append_nil]
      exact List.forall_mem_append.2 ⟨hdigits, isDigit_zeros n⟩
    · simp [Decimal.value, hn, Nat.ofDigitChars_append, mul_comm]
  · next hexp =>
    obtain ⟨n, hn⟩ := Int.eq_ofNat_of_zero_le (Int.neg_nonneg.2 (not_le.1 hexp).le)
    have hn' : d.exponent = -(n : Int) := by omega
    rw [hn, Int.toNat_natCast]
    generalize hds : List.replicate (n + 1 - (Nat.toDigits 10 d.digits).length) '0' ++
      Nat.toDigits 10 d.digits = ds
    have hlen : n < ds.length := by
      rw [← hds, List.length_append, List.length_replicate]
      omega
    have hvalue : Nat.ofDigitChars 10 ds 0 = d.digits := by
      rw [← hds]
      simp [Nat.ofDigitChars_append]
    have hpart : (ds.drop (ds.length - n)).length = n := by
      rw [List.length_drop]
      omega
    have hne : ds.drop (ds.length - n) ≠ [] := fun hnil => by
      rw [hnil, List.length_nil] at hpart
      omega
    refine ⟨ds.take (ds.length - n), ds.drop (ds.length - n), ⟨?_, ?_, ?_⟩, ?_⟩
    · rw [String.toList_ofList, if_neg hne]
    · rw [Ne, ← List.length_eq_zero_iff, List.length_take]
      omega
    · rw [List.take_append_drop, ← hds]
      exact List.forall_mem_append.2 ⟨isDigit_zeros _, hdigits⟩
    · rw [List.take_append_drop, hvalue, hpart, Decimal.value, hn', zpow_neg, zpow_natCast,
        div_eq_mul_inv]

theorem readDecimal_positionalText (d : Decimal) :
    readDecimal (plain.positionalText d).toList = d.value := by
  obtain ⟨whole, part, htext, hvalue⟩ := exists_positionalText d
  rw [htext.read, hvalue]

end FloatLayout

namespace Binary64
open FloatLayout

def isNegative : Binary64 → Bool
  | nan => false
  | infinite s | finite s .. => s

def magnitudeText : Binary64 → List Char
  | nan => ['N', 'a', 'N']
  | infinite _ => ['i', 'n', 'f']
  | finite _ m e _ => (plain.positionalText (shortest .up m e)).toList

theorem toList_plainText (x : Binary64) :
    x.plainText.toList = (if x.isNegative then ['-'] else []) ++ x.magnitudeText := by
  cases x with
  | nan => rfl
  | infinite s => cases s <;> rfl
  | finite s m e h =>
    cases s <;> simp [plainText, write, decimalText, plain, isNegative, magnitudeText]

theorem not_mem_plainText (x : Binary64) {d : Char} (hd : d.isAlphanum = false) (hpoint : d ≠ '.')
    (hminus : d ≠ '-') : d ∉ x.plainText.toList := by
  have hword : ∀ c : Char, c.isAlphanum = true → d ≠ c := fun c hc heq => by
    rw [← heq, hd] at hc
    cases hc
  have hmagnitude : d ∉ x.magnitudeText := by
    cases x with
    | nan | infinite => simp [magnitudeText, hword]
    | finite s m e h =>
      obtain ⟨whole, part, htext, -⟩ := exists_positionalText (shortest .up m e)
      rw [Char.isAlphanum, Bool.or_eq_false_iff] at hd
      exact htext.not_mem hd.2 hpoint
  rw [toList_plainText]
  split <;> simp [hmagnitude, hminus]

theorem exists_head_magnitudeText (s : Bool) {m : Nat} {e : Int} (h : IsNormal m e) :
    ∃ c rest, (finite s m e h).magnitudeText = c :: rest ∧ c.isDigit = true := by
  obtain ⟨whole, part, htext, -⟩ := exists_positionalText (shortest .up m e)
  exact htext.exists_head

theorem isNumberText_plainText (x : Binary64) : IsNumberText x.plainText.toList := by
  have hne : x.magnitudeText ≠ [] := by
    cases x with
    | nan | infinite => simp [magnitudeText]
    | finite s m e h =>
      obtain ⟨c, rest, htext, -⟩ := exists_head_magnitudeText s h
      rw [htext]
      exact List.cons_ne_nil c rest
  refine ⟨?_, not_mem_plainText x rfl (by decide) (by decide),
    not_mem_plainText x rfl (by decide) (by decide)⟩
  rw [toList_plainText]
  simp [hne]

theorem head?_magnitudeText_ne (x : Binary64) : x.magnitudeText.head? ≠ some '-' := by
  cases x with
  | nan | infinite => simp [magnitudeText]
  | finite s m e h =>
    obtain ⟨c, rest, htext, hc⟩ := exists_head_magnitudeText s h
    rw [htext, List.head?_cons]
    rintro ⟨rfl⟩
    cases hc

theorem eq_of_magnitudeText {x y : Binary64} (h : x.magnitudeText = y.magnitudeText)
    (hs : x.isNegative = y.isNegative) : x = y := by
  cases x with
  | nan =>
    cases y with
    | nan => rfl
    | infinite => cases h
    | finite s m e hn =>
      obtain ⟨c, rest, htext, hc⟩ := exists_head_magnitudeText s hn
      cases h.trans htext
      cases hc
  | infinite s =>
    cases y with
    | nan => cases h
    | infinite t => exact congrArg infinite hs
    | finite t m e hn =>
      obtain ⟨c, rest, htext, hc⟩ := exists_head_magnitudeText t hn
      cases h.trans htext
      cases hc
  | finite s m e hn =>
    obtain ⟨c, rest, htext, hc⟩ := exists_head_magnitudeText s hn
    cases y with
    | nan | infinite =>
      cases htext.symm.trans h
      cases hc
    | finite t m' e' hn' =>
      have hvalue := congrArg readDecimal h
      simp only [magnitudeText, readDecimal_positionalText] at hvalue
      obtain ⟨rfl, rfl⟩ := Shortest.value_shortest_inj hn hn' hvalue
      cases hs
      rfl

theorem plainText_injective {x y : Binary64} (h : x.plainText = y.plainText) : x = y := by
  have hlist := congrArg String.toList h
  rw [toList_plainText, toList_plainText] at hlist
  have hx := head?_magnitudeText_ne x
  have hy := head?_magnitudeText_ne y
  cases hs : x.isNegative <;> cases ht : y.isNegative <;> rw [hs, ht] at hlist
  · exact eq_of_magnitudeText hlist (hs.trans ht.symm)
  · exact absurd (congrArg List.head? hlist) hx
  · exact absurd (congrArg List.head? hlist).symm hy
  · exact eq_of_magnitudeText (List.cons.inj hlist).2 (hs.trans ht.symm)

end Binary64
end ToolBindings
