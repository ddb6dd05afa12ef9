import Retention.PropertyKey

/-!
# Texts of array indices

A text that stands for an array index is the decimal numeral of the index, so no
two texts stand for the same one.

* `eq_toString_of_arrayIndex?`: the text of an index.
* `PropertyKey.arrayIndex?_injective`: keys of the same index are the same key.
* `PropertyKey.ofIndex_ne_length`: no numeral is the key of an array's length.
-/

namespace Retention

theorem toNat_of_isDigit {c : Char} (h : c.isDigit = true) : 48 ≤ c.toNat ∧ c.toNat ≤ 57 := by
  simp only [Char.isDigit, Bool.and_eq_true, decide_eq_true_eq] at h
  exact ⟨UInt32.le_iff_toNat_le.mp h.1, UInt32.le_iff_toNat_le.mp h.2⟩

/-- A digit is the numeral of its value. -/
theorem toDigits_of_isDigit {c : Char} (h : c.isDigit = true) :
    Nat.toDigits 10 (c.toNat - '0'.toNat) = [c] := by
  obtain ⟨hle, hge⟩ := toNat_of_isDigit h
  show Nat.toDigits 10 (c.toNat - 48) = [c]
  rw [Nat.toDigits_of_lt_base (by omega)]
  refine congrArg (· :: []) (Char.toNat_inj.mp ?_)
  rw [Nat.toNat_digitChar_of_lt_ten (by omega)]
  omega

/-- A number is read off its numeral. -/
theorem toDigits_injective {m n : Nat} (h : Nat.toDigits 10 m = Nat.toDigits 10 n) : m = n :=
  calc
    m = Nat.ofDigitChars 10 (Nat.toDigits 10 m) 0 := Nat.ofDigitChars_ten_toDigits.symm
    _ = Nat.ofDigitChars 10 (Nat.toDigits 10 n) 0 := by rw [h]
    _ = n := Nat.ofDigitChars_ten_toDigits

theorem toList_toString (n : Nat) : (toString n).toList = Nat.toDigits 10 n := by
  rw [Nat.toString_eq_repr, Nat.toList_repr]

theorem toString_injective {m n : Nat} (h : toString m = toString n) : m = n :=
  toDigits_injective (by rw [← toList_toString, h, toList_toString])

theorem appendDigit?_eq_some {n m : Nat} {c : Char} (h : appendDigit? n c = some m) :
    c.isDigit = true ∧ m = 10 * n + (c.toNat - '0'.toNat) := by
  unfold appendDigit? at h
  dsimp only at h
  split at h
  · rename_i hdigit
    exact ⟨(Bool.and_eq_true_iff.mp hdigit).1, (Option.some.inj h).symm⟩
  · cases h

/-- Digits after the numeral of a number make a longer numeral. -/
theorem toDigits_append_of_foldlM {n m : Nat} {digits : List Char} (hn : 0 < n)
    (h : digits.foldlM appendDigit? n = some m) :
    Nat.toDigits 10 n ++ digits = Nat.toDigits 10 m := by
  induction digits generalizing n with
  | nil =>
    cases h
    rw [List.append_nil]
  | cons c digits ih =>
    rw [List.foldlM_cons] at h
    obtain ⟨next, hnext, h⟩ := Option.bind_eq_some_iff.mp h
    obtain ⟨hdigit, rfl⟩ := appendDigit?_eq_some hnext
    have hlt : c.toNat - '0'.toNat < 10 := by
      obtain ⟨-, hge⟩ := toNat_of_isDigit hdigit
      show c.toNat - 48 < 10
      omega
    have hlonger := Nat.toDigits_append_toDigits (by decide : 1 < 10) hn hlt
    rw [toDigits_of_isDigit hdigit] at hlonger
    rw [← ih (by omega) h, ← hlonger, List.append_assoc, List.singleton_append]

/-- A text stands for the index whose decimal numeral it is. -/
theorem toList_of_arrayIndex? {s : String} {i : Nat} (h : arrayIndex? s = some i) :
    s.toList = Nat.toDigits 10 i := by
  unfold arrayIndex? at h
  split at h
  · cases h
  · cases h
  · rename_i hempty hzero
    obtain ⟨hfold, -⟩ := Option.filter_eq_some_iff.mp h
    cases hs : s.toList with
    | nil => exact absurd hs hempty
    | cons c rest =>
      rw [hs, List.foldlM_cons] at hfold
      obtain ⟨first, hfirst, hfold⟩ := Option.bind_eq_some_iff.mp hfold
      obtain ⟨hdigit, rfl⟩ := appendDigit?_eq_some hfirst
      rw [Nat.mul_zero, Nat.zero_add] at hfold
      have hc := toDigits_of_isDigit hdigit
      by_cases hpos : 0 < c.toNat - '0'.toNat
      · rw [← toDigits_append_of_foldlM hpos hfold, hc, List.singleton_append]
      · -- a zero in front stands alone
        have hc0 : c = '0' := by
          obtain ⟨hle, -⟩ := toNat_of_isDigit hdigit
          have hnot : ¬ 0 < c.toNat - 48 := hpos
          exact Char.toNat_inj.mp (show c.toNat = 48 by omega)
        cases rest with
        | cons c' rest => exact absurd (hc0 ▸ hs) (hzero c' rest)
        | nil =>
          cases hfold
          exact hc.symm

theorem eq_toString_of_arrayIndex? {s : String} {i : Nat} (h : arrayIndex? s = some i) :
    s = toString i := String.toList_injective (by rw [toList_of_arrayIndex? h, toList_toString])

theorem lt_of_arrayIndex? {s : String} {i : Nat} (h : arrayIndex? s = some i) :
    i < arrayIndexLimit := by
  unfold arrayIndex? at h
  split at h
  · cases h
  · cases h
  · exact of_decide_eq_true (Option.filter_eq_some_iff.mp h).2

namespace PropertyKey

/-- A key that stands for an index is the one that the index is written as. -/
theorem eq_ofIndex_of_arrayIndex? {key : PropertyKey} {i : Nat} (h : key.arrayIndex? = some i) :
    key = ofIndex i := by
  cases key with
  | symbol ref => cases h
  | string s => exact congrArg string (eq_toString_of_arrayIndex? h)

/-- Keys that stand for the same index are the same. -/
theorem arrayIndex?_injective {key key' : PropertyKey} {i : Nat}
    (h : key.arrayIndex? = some i) (h' : key'.arrayIndex? = some i) : key = key' :=
  (eq_ofIndex_of_arrayIndex? h).trans (eq_ofIndex_of_arrayIndex? h').symm

theorem arrayIndex?_lt {key : PropertyKey} {i : Nat} (h : key.arrayIndex? = some i) :
    i < arrayIndexLimit := by
  cases key with
  | symbol ref => cases h
  | string s => exact lt_of_arrayIndex? h

/-- An array's length is not kept under an index. -/
theorem ne_length_of_arrayIndex? {key : PropertyKey} {i : Nat} (h : key.arrayIndex? = some i) :
    key ≠ length := by
  rintro rfl
  rw [arrayIndex?_length] at h
  cases h

/-- No numeral is the key of an array's length. -/
theorem ofIndex_ne_length (i : Nat) : ofIndex i ≠ length := by
  intro heq
  have htext : toString i = "length" := string.inj heq
  have hdigit : ∀ c ∈ (toString i).toList, c.isDigit = true := by
    intro c hc
    rw [toList_toString] at hc
    exact Nat.isDigit_of_mem_toDigits (by decide : 0 < 10) (Nat.le_refl 10) hc
  rw [htext] at hdigit
  exact absurd (hdigit 'l' (by decide)) (by decide)

end PropertyKey
end Retention
