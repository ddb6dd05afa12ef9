import Retention.Proofs.Number.Exact

/-!
# Numbers are nearest to themselves

A finite number is the number nearest to its own magnitude, so rounding an integer
that a number is gives the number back. Numbers that are the same integer are equal.

* `Number.nearest_of_magnitude`: the number nearest to a magnitude that a number has.
* `Number.equal_iff_of_toInt?`: numbers that are integers are equal as the integers are.
* `Number.ofInt_equal_of_toInt?`: an integer that a number is rounds to the number.
-/

namespace Retention.Number

variable {n : Number}

/-! ## The parts of a word -/

theorem fractionField_lt (n : Number) : n.fractionField < Nat.pow 2 52 :=
  Nat.mod_lt _ (two_pow_pos 52)

theorem exponentField_lt (hfinite : n.isFinite = true) : n.exponentField < exponentLimit := by
  have hne : n.exponentField ≠ exponentLimit := bne_iff_ne.mp hfinite
  have hlt : n.exponentField < 2048 := Nat.mod_lt _ (by decide)
  unfold exponentLimit at hne ⊢
  omega

/-- A word is put together from its sign, its exponent and its fraction. -/
theorem word_eq (n : Number) :
    signWord n.isNegative + (n.exponentField * Nat.pow 2 52 + n.fractionField) = n.word := by
  have hlt : n.word < 18446744073709551616 := UInt64.toNat_lt n.bits
  have h63 : Nat.pow 2 63 = 9223372036854775808 := rfl
  have h11 : Nat.pow 2 11 = 2048 := rfl
  unfold signWord isNegative exponentField fractionField
  rw [two_pow_52, h63, h11]
  by_cases hsign : 9223372036854775808 ≤ n.word
  · rw [decide_eq_true hsign, if_pos rfl]
    omega
  · rw [decide_eq_false hsign, if_neg (by decide)]
    omega

theorem ofWord_word (n : Number) : ofWord n.word = n :=
  congrArg Number.mk UInt64.ofNat_toNat

/-! ## The magnitude of a number -/

theorem significand_of_exponentField_eq_zero (h : n.exponentField = 0) :
    n.significand = n.fractionField := if_pos h

theorem significand_of_exponentField_ne_zero (h : n.exponentField ≠ 0) :
    n.significand = Nat.pow 2 52 + n.fractionField := if_neg h

/-- The exponent and the significand of a number make up its word, but for the sign. -/
theorem unitExponent_add_significand (n : Number) :
    n.unitExponent * Nat.pow 2 52 + n.significand =
      n.exponentField * Nat.pow 2 52 + n.fractionField := by
  by_cases h : n.exponentField = 0
  · rw [significand_of_exponentField_eq_zero h, unitExponent, h]
  · obtain ⟨e, he⟩ := Nat.exists_eq_succ_of_ne_zero h
    rw [significand_of_exponentField_ne_zero h, unitExponent, he, Nat.succ_sub_one, Nat.succ_mul,
      Nat.add_assoc]

/-- The exponent of a number is read off its magnitude. -/
theorem log2_magnitude (n : Number) : n.magnitude.log2 - 52 = n.unitExponent := by
  have hfraction := fractionField_lt n
  by_cases h : n.exponentField = 0
  · have hmagnitude : n.magnitude = n.fractionField := by
      rw [magnitude, unitExponent, h, significand_of_exponentField_eq_zero h]
      exact Nat.mul_one _
    have hlog : n.fractionField.log2 < 52 := by
      rcases Nat.eq_zero_or_pos n.fractionField with hzero | hpos
      · rw [hzero]
        decide
      · exact (Nat.log2_lt (Nat.ne_of_gt hpos)).mpr hfraction
    rw [hmagnitude, unitExponent, h]
    omega
  · have hpos : n.significand ≠ 0 := by
      rw [significand_of_exponentField_ne_zero h]
      exact Nat.ne_of_gt (Nat.add_pos_left (two_pow_pos 52) _)
    have htwice : Nat.pow 2 (52 + 1) = 2 * Nat.pow 2 52 := two_pow_succ 52
    have hlog : n.significand.log2 = 52 := by
      rw [log2_eq_iff hpos, significand_of_exponentField_ne_zero h, htwice]
      omega
    rw [magnitude, log2_mul_two_pow hpos, hlog, Nat.add_sub_cancel_left]

/-- The word nearest to a number's magnitude is that of the number, but for the sign. -/
theorem nearestWord_of_magnitude (hfinite : n.isFinite = true) {num den : Nat} (hden : 0 < den)
    (h : num * unitsPerOne = n.magnitude * den) :
    nearestWord num den = n.exponentField * Nat.pow 2 52 + n.fractionField := by
  have hunits : n.magnitude * den = n.significand * (den * Nat.pow 2 n.unitExponent) := by
    rw [magnitude, Nat.mul_assoc, Nat.mul_comm (Nat.pow 2 n.unitExponent)]
  have hround : roundEven (n.magnitude * den) (den * Nat.pow 2 n.unitExponent) = n.significand := by
    rw [hunits, roundEven_mul _ (Nat.mul_pos hden (two_pow_pos _))]
  have hlimit : n.exponentField * Nat.pow 2 52 + n.fractionField ≤ exponentLimit * Nat.pow 2 52 := by
    have hexponent := exponentField_lt hfinite
    have hfraction := fractionField_lt n
    unfold exponentLimit at hexponent ⊢
    rw [two_pow_52] at hfraction ⊢
    omega
  simp only [nearestWord, h, Nat.mul_div_cancel _ hden, log2_magnitude, hround,
    unitExponent_add_significand]
  exact Nat.min_eq_left hlimit

/-- A finite number is nearest to its own magnitude. -/
theorem nearest_of_magnitude (hfinite : n.isFinite = true) {num den : Nat} (hden : 0 < den)
    (h : num * unitsPerOne = n.magnitude * den) : nearest n.isNegative num den = n := by
  rw [nearest, nearestWord_of_magnitude hfinite hden h, word_eq, ofWord_word]

/-! ## The integer that a number is -/

theorem isFinite_of_toInt? {i : Int} (h : n.toInt? = some i) : n.isFinite = true :=
  have ⟨_, hfinite, _⟩ := exists_of_toInt? h
  hfinite

/-- The magnitude of a number that is an integer. -/
theorem magnitude_of_toInt? {i : Int} (h : n.toInt? = some i) :
    n.magnitude = i.natAbs * unitsPerOne := by
  obtain ⟨size, -, hmagnitude, rfl⟩ := exists_of_toInt? h
  rw [hmagnitude]
  cases n.isNegative <;> simp

/-- The sign of a number that is an integer other than zero. -/
theorem isNegative_of_toInt? {i : Int} (h : n.toInt? = some i) (hi : i ≠ 0) :
    n.isNegative = decide (i < 0) := by
  obtain ⟨size, -, -, hsize⟩ := exists_of_toInt? h
  cases hsign : n.isNegative
  · rw [hsign, if_neg (by decide)] at hsize
    exact (decide_eq_false (by omega)).symm
  · rw [hsign, if_pos rfl] at hsize
    exact (decide_eq_true (by omega)).symm

/-- A number is the only one, but for zero, that an integer rounds to. -/
theorem ofInt_of_toInt? {i : Int} (h : n.toInt? = some i) (hi : i ≠ 0) : ofInt i = n := by
  rw [ofInt, ← isNegative_of_toInt? h hi]
  exact nearest_of_magnitude (isFinite_of_toInt? h) Nat.one_pos (by
    rw [magnitude_of_toInt? h, Nat.mul_one])

theorem isZero_of_toInt?_zero (h : n.toInt? = some 0) : n.isZero = true := by
  rw [isZero, isFinite_of_toInt? h, magnitude_of_toInt? h]
  simp

theorem toInt?_of_isZero (h : n.isZero = true) : n.toInt? = some 0 := by
  obtain ⟨hfinite, hmagnitude⟩ := Bool.and_eq_true_iff.mp h
  simp [toInt?, hfinite, beq_iff_eq.mp hmagnitude]

theorem not_isNaN_of_isFinite (h : n.isFinite = true) : n.isNaN = false := by
  rw [isNaN, h]
  rfl

/-- Numbers that are equal are the same integer, if they are one. -/
theorem toInt?_congr {m : Number} (h : m.equal n = true) : m.toInt? = n.toInt? := by
  obtain ⟨-, hsame⟩ := Bool.and_eq_true_iff.mp h
  rcases Bool.or_eq_true_iff.mp hsame with heq | hzeros
  · rw [beq_iff_eq.mp heq]
  · obtain ⟨hm, hn⟩ := Bool.and_eq_true_iff.mp hzeros
    rw [toInt?_of_isZero hm, toInt?_of_isZero hn]

/-- Numbers that are integers are equal as these integers are. -/
theorem equal_iff_of_toInt? {m : Number} {i j : Int} (hm : m.toInt? = some i)
    (hn : n.toInt? = some j) : m.equal n = true ↔ i = j := by
  constructor
  · intro h
    rw [toInt?_congr h, hn] at hm
    exact (Option.some.inj hm).symm
  · rintro rfl
    have hsame : (m == n || (m.isZero && n.isZero)) = true := by
      by_cases hzero : i = 0
      · subst hzero
        rw [isZero_of_toInt?_zero hm, isZero_of_toInt?_zero hn]
        exact Bool.or_true _
      · rw [← ofInt_of_toInt? hm hzero, ofInt_of_toInt? hn hzero, beq_self_eq_true]
        rfl
    rw [equal, not_isNaN_of_isFinite (isFinite_of_toInt? hm),
      not_isNaN_of_isFinite (isFinite_of_toInt? hn), hsame]
    rfl

/-- The number nearest to an integer that a number is equals the number. -/
theorem ofInt_equal_of_toInt? {i : Int} (h : n.toInt? = some i) : (ofInt i).equal n = true := by
  by_cases hzero : i = 0
  · subst hzero
    exact (equal_iff_of_toInt? (by decide +kernel) h).mpr rfl
  · rw [ofInt_of_toInt? h hzero]
    exact (equal_iff_of_toInt? h h).mpr rfl

end Retention.Number
