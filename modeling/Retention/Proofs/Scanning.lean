import Retention.Proofs.Numerals

/-!
# Scanning array indices

A key stands for an array index if and only if it is the decimal numeral of a
number below `arrayIndexLimit`. A scan of the key's bytes that computes in 64-bit
words, and asks of every product and sum whether it fits, gives the same answer
and never finds one that does not.

* `arrayIndex?_eq_some_iff`: the texts that stand for an index.
* `scan_utf8`: the scan of bytes is the reading of the text.
* `PropertyKey.arrayIndex?_iff_numeral`: texts, keys and their indices.
-/

namespace Retention

/-! ## Numerals are read -/

theorem le_ofDigitChars (digits : List Char) (n : Nat) : n ≤ Nat.ofDigitChars 10 digits n := by
  rw [Nat.ofDigitChars_eq_ofDigitChars_zero]
  exact Nat.le_add_right_of_le (Nat.le_mul_of_pos_left n (Nat.pow_pos (by decide)))

theorem appendDigit?_of_isDigit {n : Nat} {c : Char} (h : c.isDigit = true) :
    appendDigit? n c =
      if 10 * n + (c.toNat - '0'.toNat) ≤ arrayIndexLimit then
        some (10 * n + (c.toNat - '0'.toNat))
      else none := by
  simp [appendDigit?, h]

theorem appendDigit?_of_not_isDigit {n : Nat} {c : Char} (h : c.isDigit = false) :
    appendDigit? n c = none := by
  simp [appendDigit?, h]

/-- Digits are read as long as the number stays within the limit. -/
theorem foldlM_appendDigit? {digits : List Char} {n : Nat}
    (hdigits : ∀ c ∈ digits, c.isDigit = true)
    (hlimit : Nat.ofDigitChars 10 digits n ≤ arrayIndexLimit) :
    digits.foldlM appendDigit? n = some (Nat.ofDigitChars 10 digits n) := by
  induction digits generalizing n with
  | nil => rfl
  | cons c rest ih =>
    rw [Nat.ofDigitChars_cons] at hlimit ⊢
    have hnext : 10 * n + (c.toNat - '0'.toNat) ≤ arrayIndexLimit :=
      Nat.le_trans (le_ofDigitChars rest _) hlimit
    rw [List.foldlM_cons, appendDigit?_of_isDigit (hdigits c List.mem_cons_self), if_pos hnext]
    exact ih (fun d hd => hdigits d (List.mem_cons_of_mem c hd)) hlimit

/-- The numeral of a positive number does not begin with a zero. -/
theorem head?_toDigits {n : Nat} (hn : 0 < n) : (Nat.toDigits 10 n).head? ≠ some '0' := by
  induction n using Nat.strongRecOn with
  | ind n ih =>
    rw [Nat.toDigits_eq_if (by decide)]
    split
    · rename_i hlt
      intro hzero
      have hnat := congrArg Char.toNat (Option.some.inj hzero)
      rw [Nat.toNat_digitChar_of_lt_ten hlt] at hnat
      have hcode : '0'.toNat = 48 := rfl
      omega
    · intro hzero
      rw [List.head?_append, Option.or_of_isSome (List.isSome_head?.mpr Nat.toDigits_ne_nil)] at hzero
      exact ih (n / 10) (by omega) (by omega) hzero

/-- The numeral of an index is read as that index. -/
theorem arrayIndex?_toString {n : Nat} (hn : n < arrayIndexLimit) :
    arrayIndex? (toString n) = some n := by
  have hread : (Nat.toDigits 10 n).foldlM appendDigit? 0 = some n := by
    have hvalue : Nat.ofDigitChars 10 (Nat.toDigits 10 n) 0 = n := Nat.ofDigitChars_ten_toDigits
    rw [foldlM_appendDigit? (fun c hc => Nat.isDigit_of_mem_toDigits (by decide) (by decide) hc)
      (hvalue.symm ▸ Nat.le_of_lt hn), hvalue]
  unfold arrayIndex?
  rw [toList_toString]
  split
  · rename_i hnil
    exact absurd hnil Nat.toDigits_ne_nil
  · rename_i c rest hzero
    rcases Nat.eq_zero_or_pos n with rfl | hpos
    · cases hzero
    · exact absurd (by rw [hzero]; rfl) (head?_toDigits hpos)
  · rw [hread]
    exact Option.filter_eq_some_iff.mpr ⟨rfl, decide_eq_true hn⟩

/-- The texts that stand for an index are the numerals of the indices. -/
theorem arrayIndex?_eq_some_iff {s : String} {n : Nat} :
    arrayIndex? s = some n ↔ n < arrayIndexLimit ∧ s = toString n := by
  constructor
  · exact fun h => ⟨lt_of_arrayIndex? h, eq_toString_of_arrayIndex? h⟩
  · rintro ⟨hn, rfl⟩
    exact arrayIndex?_toString hn

/-! ## The scan in words -/

/-- A product or a sum that does not fit into its word. -/
inductive Overflow where
  | overflow
deriving DecidableEq, Repr

/-- The product of two words, if it fits. -/
def checkedMul (a b : UInt64) : Option UInt64 :=
  if a.toNat * b.toNat < UInt64.size then some (a * b) else none

/-- The sum of two words, if it fits. -/
def checkedAdd (a b : UInt64) : Option UInt64 :=
  if a.toNat + b.toNat < UInt64.size then some (a + b) else none

/-- The number with one digit more, if it fits. -/
def shiftIn? (value : UInt64) (digit : UInt8) : Option UInt64 :=
  (checkedMul value 10).bind (checkedAdd · digit.toUInt64)

/-- The number that a run of bytes goes on to write in decimal digits, unless a
byte is no digit or the number leaves 32 bits. -/
def scanFrom (value : UInt64) : List UInt8 → Except Overflow (Option UInt64)
  | [] => .ok (some value)
  | b :: rest =>
    if b < 48 || 57 < b then .ok none
    else match shiftIn? value (b - 48) with
      | none => .error .overflow
      | some next => if 4294967295 < next then .ok none else scanFrom next rest

/-- The array index that the bytes of a text stand for. -/
def scan : List UInt8 → Except Overflow (Option UInt32)
  | [] => .ok none
  | 48 :: _ :: _ => .ok none
  | bytes => (scanFrom 0 bytes).map fun value? =>
    (value?.filter (· != 4294967295)).map UInt64.toUInt32

theorem toNat_checkedMul {a b : UInt64} (h : a.toNat * b.toNat < UInt64.size) :
    ∃ c, checkedMul a b = some c ∧ c.toNat = a.toNat * b.toNat :=
  ⟨a * b, if_pos h, by rw [UInt64.toNat_mul]; exact Nat.mod_eq_of_lt h⟩

theorem toNat_checkedAdd {a b : UInt64} (h : a.toNat + b.toNat < UInt64.size) :
    ∃ c, checkedAdd a b = some c ∧ c.toNat = a.toNat + b.toNat :=
  ⟨a + b, if_pos h, by rw [UInt64.toNat_add]; exact Nat.mod_eq_of_lt h⟩

/-- A number of 32 bits can take one digit more. -/
theorem toNat_shiftIn? {value : UInt64} {digit : UInt8} (hvalue : value.toNat ≤ arrayIndexLimit)
    (hdigit : digit.toNat < 10) :
    ∃ next, shiftIn? value digit = some next ∧ next.toNat = 10 * value.toNat + digit.toNat := by
  have hsize : UInt64.size = 18446744073709551616 := rfl
  unfold arrayIndexLimit at hvalue
  obtain ⟨tens, htens, htimes⟩ : ∃ c, checkedMul value 10 = some c ∧ c.toNat = value.toNat * 10 :=
    toNat_checkedMul (by show value.toNat * 10 < _; omega)
  have hword : digit.toUInt64.toNat = digit.toNat := UInt8.toNat_toUInt64 digit
  obtain ⟨next, hnext, hplus⟩ : ∃ c, checkedAdd tens digit.toUInt64 = some c ∧
      c.toNat = tens.toNat + digit.toUInt64.toNat := toNat_checkedAdd (by omega)
  refine ⟨next, ?_, by omega⟩
  rw [shiftIn?, htens]
  exact hnext

/-! ## Bytes and characters -/

/-- A digit is one byte, its code. -/
theorem utf8EncodeChar_of_isDigit {c : Char} (h : c.isDigit = true) :
    ∃ b : UInt8, String.utf8EncodeChar c = [b] ∧ b.toNat = c.toNat := by
  obtain ⟨-, hge⟩ := toNat_of_isDigit h
  have hval : c.val.toNat = c.toNat := rfl
  refine ⟨UInt8.ofNat c.toNat, ?_, UInt8.toNat_ofNat_of_lt' (by show c.toNat < 256; omega)⟩
  rw [String.utf8EncodeChar.eq_1, if_pos (by omega), hval]

/-- The bytes of any other character begin with one that is no digit. -/
theorem utf8EncodeChar_of_not_isDigit {c : Char} (h : c.isDigit = false) :
    ∃ b rest, String.utf8EncodeChar c = b :: rest ∧ (b < 48 || 57 < b) = true := by
  have hcode : ¬ (48 ≤ c.val.toNat ∧ c.val.toNat ≤ 57) := by
    rintro ⟨hle, hge⟩
    have hdigit : c.isDigit = true := by
      simp only [Char.isDigit, Bool.and_eq_true, decide_eq_true_eq]
      exact ⟨UInt32.le_iff_toNat_le.mpr hle, UInt32.le_iff_toNat_le.mpr hge⟩
    rw [h] at hdigit
    cases hdigit
  have hfirst {n : Nat} (hn : n < 256) (hout : n < 48 ∨ 57 < n) :
      ((UInt8.ofNat n) < 48 || 57 < (UInt8.ofNat n)) = true := by
    have hnat : (UInt8.ofNat n).toNat = n := UInt8.toNat_ofNat_of_lt' hn
    rw [Bool.or_eq_true, decide_eq_true_eq, decide_eq_true_eq, UInt8.lt_iff_toNat_lt,
      UInt8.lt_iff_toNat_lt, hnat]
    exact hout
  rw [String.utf8EncodeChar.eq_1]
  split
  · exact ⟨_, _, rfl, hfirst (by omega) (by omega)⟩
  · split
    · exact ⟨_, _, rfl, hfirst (by omega) (by omega)⟩
    · split
      · exact ⟨_, _, rfl, hfirst (by omega) (by omega)⟩
      · exact ⟨_, _, rfl, hfirst (by omega) (by omega)⟩

/-- The first byte of a character is that of a zero only if the character is one. -/
theorem utf8EncodeChar_eq_zero_cons {c : Char} {rest : List UInt8}
    (h : String.utf8EncodeChar c = 48 :: rest) : c = '0' := by
  cases hc : c.isDigit with
  | true =>
    obtain ⟨b, hb, hcode⟩ := utf8EncodeChar_of_isDigit hc
    obtain ⟨rfl, -⟩ := List.cons.inj (hb.symm.trans h)
    exact Char.toNat_inj.mp hcode.symm
  | false =>
    obtain ⟨b, rest', hb, hout⟩ := utf8EncodeChar_of_not_isDigit hc
    obtain ⟨rfl, -⟩ := List.cons.inj (hb.symm.trans h)
    exact absurd hout (by decide)

theorem flatMap_utf8EncodeChar_eq_nil {cs : List Char}
    (h : cs.flatMap String.utf8EncodeChar = []) : cs = [] := by
  cases cs with
  | nil => rfl
  | cons c cs =>
    exact absurd (List.flatMap_eq_nil_iff.mp h c List.mem_cons_self) String.utf8EncodeChar_ne_nil

/-- Bytes that begin with that of a zero and go on are those of a zero that goes on. -/
theorem flatMap_utf8EncodeChar_eq_zero_cons {cs : List Char} {b : UInt8} {rest : List UInt8}
    (h : cs.flatMap String.utf8EncodeChar = 48 :: b :: rest) : ∃ c cs', cs = '0' :: c :: cs' := by
  cases cs with
  | nil => cases h
  | cons c cs =>
    rw [List.flatMap_cons] at h
    obtain ⟨first, bytes, hc⟩ :=
      List.exists_cons_of_ne_nil (String.utf8EncodeChar_ne_nil : String.utf8EncodeChar c ≠ [])
    rw [hc, List.cons_append] at h
    obtain ⟨rfl, h⟩ := List.cons.inj h
    obtain rfl := utf8EncodeChar_eq_zero_cons hc
    obtain ⟨-, rfl⟩ : (48 : UInt8) = 48 ∧ [] = bytes := List.cons.inj hc
    cases cs with
    | nil => cases h
    | cons c cs => exact ⟨c, cs, rfl⟩

/-! ## The scan of a text -/

/-- A digit is shifted into a number of 32 bits, and no product or sum leaves its word. -/
theorem scanFrom_of_isDigit {value : UInt64} (hvalue : value.toNat ≤ arrayIndexLimit) {c : Char}
    (hc : c.isDigit = true) :
    ∃ next : UInt64, next.toNat = 10 * value.toNat + (c.toNat - '0'.toNat) ∧
      ∀ bytes, scanFrom value (String.utf8EncodeChar c ++ bytes) =
        if 4294967295 < next then .ok none else scanFrom next bytes := by
  obtain ⟨b, hb, hcode⟩ := utf8EncodeChar_of_isDigit hc
  obtain ⟨hle, hge⟩ := toNat_of_isDigit hc
  have h48 : (48 : UInt8).toNat = 48 := rfl
  have h57 : (57 : UInt8).toNat = 57 := rfl
  have hzero : '0'.toNat = 48 := rfl
  have hin : (b < 48 || 57 < b) = false := by
    rw [Bool.or_eq_false_iff, decide_eq_false_iff_not, decide_eq_false_iff_not,
      UInt8.lt_iff_toNat_lt, UInt8.lt_iff_toNat_lt]
    omega
  have hdigit : (b - 48).toNat = c.toNat - '0'.toNat := by
    rw [UInt8.toNat_sub_of_le b 48 (UInt8.le_iff_toNat_le.mpr (by omega)), hcode]
    rfl
  obtain ⟨next, hnext, hsum⟩ := toNat_shiftIn? hvalue (show (b - 48).toNat < 10 by omega)
  refine ⟨next, hdigit ▸ hsum, fun bytes => ?_⟩
  rw [hb, List.singleton_append, scanFrom, hin, hnext]
  rfl

/-- From a number of 32 bits on, the scan goes the way of the characters: no product
and no sum leaves its word. -/
theorem scanFrom_flatMap (cs : List Char) {value : UInt64} (hvalue : value.toNat ≤ arrayIndexLimit) :
    ∃ value?, scanFrom value (cs.flatMap String.utf8EncodeChar) = .ok value? ∧
      value?.map UInt64.toNat = cs.foldlM appendDigit? value.toNat ∧
      ∀ v, value? = some v → v.toNat ≤ arrayIndexLimit := by
  induction cs generalizing value with
  | nil => exact ⟨some value, rfl, rfl, fun v hv => Option.some.inj hv ▸ hvalue⟩
  | cons c cs ih =>
    rw [List.flatMap_cons, List.foldlM_cons]
    cases hc : c.isDigit with
    | false =>
      obtain ⟨b, rest, hb, hout⟩ := utf8EncodeChar_of_not_isDigit hc
      rw [hb, appendDigit?_of_not_isDigit hc]
      exact ⟨none, if_pos hout, rfl, fun v hv => nomatch hv⟩
    | true =>
      obtain ⟨next, hnext, hscan⟩ := scanFrom_of_isDigit hvalue hc
      rw [hscan, appendDigit?_of_isDigit hc, ← hnext]
      by_cases hlimit : next.toNat ≤ arrayIndexLimit
      · rw [if_neg (fun h => Nat.not_le_of_lt (UInt64.lt_iff_toNat_lt.mp h) hlimit), if_pos hlimit]
        exact ih hlimit
      · rw [if_pos (UInt64.lt_iff_toNat_lt.mpr (Nat.lt_of_not_le hlimit)), if_neg hlimit]
        exact ⟨none, rfl, rfl, fun v hv => nomatch hv⟩

/-- The number that a scan ends with is an index unless it is the limit. -/
theorem map_filter_limit {value? : Option UInt64}
    (hlimit : ∀ v, value? = some v → v.toNat ≤ arrayIndexLimit) :
    ((value?.filter (· != 4294967295)).map UInt64.toUInt32).map UInt32.toNat =
      (value?.map UInt64.toNat).filter (· < arrayIndexLimit) := by
  cases value? with
  | none => rfl
  | some v =>
    have hle := hlimit v rfl
    by_cases hv : v = 4294967295
    · subst hv
      rfl
    · have hne : v.toNat ≠ arrayIndexLimit := fun h => hv (UInt64.toNat_inj.mp h)
      have hlt : v.toNat < arrayIndexLimit := by omega
      have hword : v.toUInt32.toNat = v.toNat := by
        rw [UInt64.toNat_toUInt32]
        unfold arrayIndexLimit at hlt
        exact Nat.mod_eq_of_lt (by omega)
      simp [Option.filter, hv, hlt, hword]

/-- The scan of a text's bytes finds the array index that the text stands for, and
no number on its way leaves the word that holds it. -/
theorem scan_utf8 (s : String) :
    (scan s.toUTF8.data.toList).map (Option.map UInt32.toNat) = .ok (arrayIndex? s) := by
  have hbytes : s.toUTF8.data.toList = s.toList.flatMap String.utf8EncodeChar := by
    show s.toByteArray.data.toList = _
    rw [← String.utf8Encode_toList, List.utf8Encode, List.toList_data_toByteArray]
  rw [hbytes]
  unfold arrayIndex?
  split
  · rename_i hnil
    rw [hnil]
    rfl
  · rename_i c rest hzero
    obtain ⟨b, bytes, hb⟩ :=
      List.exists_cons_of_ne_nil (String.utf8EncodeChar_ne_nil : String.utf8EncodeChar c ≠ [])
    rw [hzero, List.flatMap_cons, List.flatMap_cons, hb]
    rfl
  · rename_i hnil hzero
    have hstart : (0 : UInt64).toNat ≤ arrayIndexLimit := Nat.zero_le _
    obtain ⟨value?, hscan, hvalue, hlimit⟩ := scanFrom_flatMap s.toList hstart
    have hwhole : scan (s.toList.flatMap String.utf8EncodeChar) =
        .ok ((value?.filter (· != 4294967295)).map UInt64.toUInt32) := by
      unfold scan
      split
      · rename_i hempty
        exact absurd (flatMap_utf8EncodeChar_eq_nil hempty) hnil
      · rename_i b bytes hbytes
        obtain ⟨c, rest, hs⟩ := flatMap_utf8EncodeChar_eq_zero_cons hbytes
        exact absurd hs (hzero c rest)
      · rw [hscan]
        rfl
    rw [hwhole]
    show Except.ok _ = Except.ok _
    rw [map_filter_limit hlimit, hvalue]
    rfl

namespace PropertyKey

/-- The keys that stand for an index are the written indices. -/
theorem arrayIndex?_eq_some_iff_ofIndex {key : PropertyKey} {n : Nat} :
    key.arrayIndex? = some n ↔ n < arrayIndexLimit ∧ key = ofIndex n := by
  cases key with
  | symbol ref =>
    refine iff_of_false (fun h => ?_) (fun h => ?_)
    · cases h
    · cases h.2
  | string s =>
    rw [ofIndex, string.injEq]
    exact Retention.arrayIndex?_eq_some_iff

/-- A text stands for the number below the limit that it is the decimal numeral of, and
for nothing if there is none. So a written index is read as itself, a key is the written
form of its index, and no other key has that index. The scan of the bytes finds the same,
whatever their number, and no product and no sum on its way leaves its word. -/
theorem arrayIndex?_iff_numeral (s : String) (n : Nat) (key key' : PropertyKey) :
    (Retention.arrayIndex? s = some n ↔ n < arrayIndexLimit ∧ string s = ofIndex n) ∧
      ((ofIndex n).arrayIndex? = if n < arrayIndexLimit then some n else none) ∧
      (key.arrayIndex? = some n ↔ n < arrayIndexLimit ∧ key = ofIndex n) ∧
      (key.arrayIndex? = some n → key'.arrayIndex? = some n → key = key') ∧
      (scan s.toUTF8.data.toList).map (Option.map UInt32.toNat) = .ok (Retention.arrayIndex? s) := by
  have hread : (ofIndex n).arrayIndex? = if n < arrayIndexLimit then some n else none := by
    split
    · rename_i hn
      exact arrayIndex?_eq_some_iff_ofIndex.mpr ⟨hn, rfl⟩
    · rename_i hn
      refine Option.eq_none_iff_forall_ne_some.mpr fun m hm => hn ?_
      obtain ⟨hlt, hsame⟩ := arrayIndex?_eq_some_iff_ofIndex.mp hm
      rwa [toString_injective (string.inj hsame)]
  have htext : (string s).arrayIndex? = some n ↔ n < arrayIndexLimit ∧ string s = ofIndex n :=
    arrayIndex?_eq_some_iff_ofIndex
  exact ⟨htext, hread, arrayIndex?_eq_some_iff_ofIndex, arrayIndex?_injective, scan_utf8 s⟩

/-- The greatest index, and the number after it, which is none. -/
theorem arrayIndex?_iff_numeral_last :
    (ofIndex 4294967294).arrayIndex? = some 4294967294 ∧
      (string "4294967294").arrayIndex? = some 4294967294 ∧
      string "4294967294" = ofIndex 4294967294 ∧ (ofIndex 4294967295).arrayIndex? = none := by
  have hlast : (ofIndex 4294967294).arrayIndex? = some 4294967294 := by decide +kernel
  have htext : (string "4294967294").arrayIndex? = some 4294967294 := by decide +kernel
  obtain ⟨-, -, -, hsame, -⟩ := arrayIndex?_iff_numeral "4294967294" 4294967294
    (string "4294967294") (ofIndex 4294967294)
  obtain ⟨-, hnext, -⟩ := arrayIndex?_iff_numeral "" 4294967295 length length
  exact ⟨hlast, htext, hsame htext hlast, hnext⟩

end PropertyKey
end Retention
