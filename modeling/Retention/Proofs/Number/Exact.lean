import Retention.Number.Basic

/-!
# Numbers that are exact

A natural number below `2^53` has a binary64 number of its own: converting it
rounds nothing away.

* `Number.magnitude_ofNat`: the magnitude of a number that stands for a natural number.
* `Number.toInt?_ofNat`, `Number.saturatingNat_ofNat`: reading the number back.
-/

namespace Retention.Number

/-! ## Powers of two -/

theorem two_pow_add (m n : Nat) : Nat.pow 2 (m + n) = Nat.pow 2 m * Nat.pow 2 n := Nat.pow_add 2 m n

theorem two_pow_pos (n : Nat) : 0 < Nat.pow 2 n := Nat.two_pow_pos n

theorem two_pow_succ (n : Nat) : Nat.pow 2 (n + 1) = 2 * Nat.pow 2 n := Nat.pow_succ'

theorem two_pow_52 : Nat.pow 2 52 = 4503599627370496 := rfl

/-- The exponent is kept as a variable, so that nothing computes the power. -/
theorem exists_unitsPerOne : ∃ k, k = 1074 ∧ unitsPerOne = Nat.pow 2 k := by
  unfold unitsPerOne
  generalize 1074 = k
  exact ⟨k, rfl, rfl⟩

theorem unitsPerOne_pos : 0 < unitsPerOne := by
  obtain ⟨k, -, hk⟩ := exists_unitsPerOne
  rw [hk]
  exact two_pow_pos k

theorem log2_eq_iff {n k : Nat} (hn : n ≠ 0) :
    n.log2 = k ↔ Nat.pow 2 k ≤ n ∧ n < Nat.pow 2 (k + 1) := Nat.log2_eq_iff hn

/-- A shift to the left moves the highest bit as far. -/
theorem log2_mul_two_pow {n : Nat} (hn : n ≠ 0) (k : Nat) : (n * Nat.pow 2 k).log2 = n.log2 + k := by
  have hpos := two_pow_pos k
  obtain ⟨hle, hlt⟩ := (log2_eq_iff hn).mp rfl
  rw [log2_eq_iff (Nat.mul_ne_zero hn (Nat.ne_of_gt hpos)), two_pow_add,
    Nat.add_right_comm, two_pow_add]
  exact ⟨Nat.mul_le_mul_right _ hle, Nat.mul_lt_mul_of_pos_right hlt hpos⟩

/-! ## Fields of a word -/

/-- The word of a positive normal number: the exponent field `e`, and a significand `m`
whose highest bit is hidden. -/
structure IsNormal (e m : Nat) : Prop where
  exponent : e + 1 < exponentLimit
  hidden : Nat.pow 2 52 ≤ m
  fits : m < 2 * Nat.pow 2 52

section Normal

variable {e m : Nat} (h : IsNormal e m)

include h

theorem word_ofWord_normal : (ofWord (e * Nat.pow 2 52 + m)).word = e * Nat.pow 2 52 + m := by
  obtain ⟨hexponent, -, hfits⟩ := h
  unfold exponentLimit at hexponent
  rw [two_pow_52] at hfits ⊢
  exact UInt64.toNat_ofNat_of_lt' (by
    show _ < 18446744073709551616
    omega)

theorem exponentField_normal : (ofWord (e * Nat.pow 2 52 + m)).exponentField = e + 1 := by
  have hword := word_ofWord_normal h
  obtain ⟨hexponent, hhidden, hfits⟩ := h
  unfold exponentLimit at hexponent
  rw [exponentField, hword]
  rw [two_pow_52] at hhidden hfits ⊢
  show (e * 4503599627370496 + m) / 4503599627370496 % 2048 = e + 1
  omega

theorem fractionField_normal : (ofWord (e * Nat.pow 2 52 + m)).fractionField = m - Nat.pow 2 52 := by
  have hword := word_ofWord_normal h
  obtain ⟨hexponent, hhidden, hfits⟩ := h
  rw [fractionField, hword]
  rw [two_pow_52] at hhidden hfits ⊢
  omega

theorem isFinite_normal : (ofWord (e * Nat.pow 2 52 + m)).isFinite = true := by
  rw [isFinite, exponentField_normal h]
  exact bne_iff_ne.mpr (Nat.ne_of_lt h.exponent)

theorem isNegative_normal : (ofWord (e * Nat.pow 2 52 + m)).isNegative = false := by
  have hword := word_ofWord_normal h
  obtain ⟨hexponent, hhidden, hfits⟩ := h
  unfold exponentLimit at hexponent
  rw [isNegative, hword]
  rw [two_pow_52] at hhidden hfits ⊢
  show decide (9223372036854775808 ≤ _) = false
  exact decide_eq_false (by omega)

theorem magnitude_normal : (ofWord (e * Nat.pow 2 52 + m)).magnitude = m * Nat.pow 2 e := by
  rw [magnitude, significand, unitExponent, exponentField_normal h, fractionField_normal h,
    if_neg (Nat.succ_ne_zero e), Nat.add_sub_cancel, Nat.add_sub_cancel' h.hidden]

end Normal

/-! ## Natural numbers -/

/-- A quotient that is an integer is rounded to itself. -/
theorem roundEven_mul (q : Nat) {d : Nat} (hd : 0 < d) : roundEven (q * d) d = q := by
  simp [roundEven, Nat.mul_div_cancel q hd, Nat.mul_mod_left, hd]

/-- The significand of a natural number, with the bits to fill it up. -/
theorem exists_normal {n : Nat} (hn : n ≠ 0) (hlt : n < Nat.pow 2 53) :
    ∃ e m, IsNormal e m ∧ ofNat n = ofWord (e * Nat.pow 2 52 + m) ∧
      m * Nat.pow 2 e = n * unitsPerOne := by
  obtain ⟨hle, hgt⟩ := (log2_eq_iff hn).mp rfl
  have hbits : n.log2 ≤ 52 := Nat.le_of_not_lt fun hmore => by
    have hpow : Nat.pow 2 53 ≤ Nat.pow 2 n.log2 := Nat.pow_le_pow_right (by decide) hmore
    omega
  have hsums {k : Nat} (hk : k = 1074) :
      52 - n.log2 + (n.log2 + 1022) = k ∧ n.log2 + k - 52 = n.log2 + 1022 := by omega
  have hfill : Nat.pow 2 52 = Nat.pow 2 n.log2 * Nat.pow 2 (52 - n.log2) := by
    rw [← two_pow_add, Nat.add_sub_cancel' hbits]
  obtain ⟨k, hk, hunit⟩ := exists_unitsPerOne
  have hunits : n * Nat.pow 2 (52 - n.log2) * Nat.pow 2 (n.log2 + 1022) = n * unitsPerOne := by
    rw [Nat.mul_assoc, ← two_pow_add, (hsums hk).1, hunit]
  have hnormal : IsNormal (n.log2 + 1022) (n * Nat.pow 2 (52 - n.log2)) := by
    refine ⟨?_, ?_, ?_⟩
    · show _ < 2047
      omega
    · rw [hfill]
      exact Nat.mul_le_mul_right _ hle
    · rw [hfill, ← Nat.mul_assoc, ← two_pow_succ]
      exact Nat.mul_lt_mul_of_pos_right hgt (two_pow_pos _)
  refine ⟨_, _, hnormal, ?_, hunits⟩
  have hexponent : (n * unitsPerOne / 1).log2 - 52 = n.log2 + 1022 := by
    rw [Nat.div_one, hunit, log2_mul_two_pow hn, (hsums hk).2]
  have hround : roundEven (n * unitsPerOne) (1 * Nat.pow 2 (n.log2 + 1022)) =
      n * Nat.pow 2 (52 - n.log2) := by
    rw [Nat.one_mul, ← hunits, roundEven_mul _ (two_pow_pos _)]
  have hmin : (n.log2 + 1022) * Nat.pow 2 52 + n * Nat.pow 2 (52 - n.log2) ≤
      exponentLimit * Nat.pow 2 52 := by
    have hfits := hnormal.fits
    unfold exponentLimit
    rw [two_pow_52] at hfits ⊢
    omega
  have hword : nearestWord n 1 = (n.log2 + 1022) * Nat.pow 2 52 + n * Nat.pow 2 (52 - n.log2) := by
    simp only [nearestWord, hexponent, hround]
    exact Nat.min_eq_left hmin
  rw [ofNat, nearest, hword]
  simp only [signWord, Bool.false_eq_true, if_false, Nat.zero_add]

/-- A natural number below `2^53` is converted exactly. -/
theorem magnitude_ofNat {n : Nat} (hlt : n < Nat.pow 2 53) :
    (ofNat n).isFinite = true ∧ (ofNat n).isNegative = false ∧
      (ofNat n).magnitude = n * unitsPerOne := by
  rcases Nat.eq_zero_or_pos n with rfl | hpos
  · decide +kernel
  · obtain ⟨e, m, hnormal, heq, hunits⟩ := exists_normal (Nat.ne_of_gt hpos) hlt
    rw [heq, magnitude_normal hnormal]
    exact ⟨isFinite_normal hnormal, isNegative_normal hnormal, hunits⟩

/-- The integer that the number of a natural number is. -/
theorem toInt?_ofNat {n : Nat} (hlt : n < Nat.pow 2 53) : (ofNat n).toInt? = some (n : Int) := by
  obtain ⟨hfinite, hpositive, hmagnitude⟩ := magnitude_ofNat hlt
  have hdiv : n * unitsPerOne / unitsPerOne = n := Nat.mul_div_cancel n unitsPerOne_pos
  simp [toInt?, hfinite, hpositive, hmagnitude, hdiv]

/-- What a number that is an integer is made of. -/
theorem exists_of_toInt? {number : Number} {i : Int} (hint : number.toInt? = some i) :
    ∃ size : Nat, number.isFinite = true ∧ number.magnitude = size * unitsPerOne ∧
      i = if number.isNegative then -(size : Int) else size := by
  unfold toInt? at hint
  split at hint
  · rename_i hinteger
    obtain ⟨hfinite, hmultiple⟩ := Bool.and_eq_true_iff.mp hinteger
    exact ⟨_, hfinite,
      (Nat.div_mul_cancel (Nat.dvd_of_mod_eq_zero (beq_iff_eq.mp hmultiple))).symm,
      (Option.some.inj hint).symm⟩
  · cases hint

/-- The integer part of a number that is an integer. -/
theorem saturatingNat_of_toInt? {number : Number} {i : Int} (hint : number.toInt? = some i) :
    number.saturatingNat = min i.toNat (Nat.pow 2 64 - 1) := by
  obtain ⟨size, hfinite, hmagnitude, rfl⟩ := exists_of_toInt? hint
  rw [saturatingNat, hmagnitude, Nat.mul_div_cancel size unitsPerOne_pos]
  cases number.isNegative <;> simp [isNaN, isInfinite, hfinite]

/-- The integer part of the number of a natural number. -/
theorem saturatingNat_ofNat {n : Nat} (hlt : n < Nat.pow 2 53) : (ofNat n).saturatingNat = n := by
  have h53 : Nat.pow 2 53 = 9007199254740992 := rfl
  have hle : n ≤ Nat.pow 2 64 - 1 := by
    rw [h53] at hlt
    show n ≤ 18446744073709551615
    omega
  rw [saturatingNat_of_toInt? (toInt?_ofNat hlt), Int.toNat_natCast, Nat.min_eq_left hle]

end Retention.Number
