import Std.Data.String.ToInt
import Retention.Proofs.Number.Rounding
import Retention.Value

/-!
# Integers read back from their texts

The text of a number that is an integer is a numeral, kept within the range of 64-bit
signed words. The numeral tells numbers of that range apart, and reading it gives the
number back. Beyond the range, all numbers of one sign have one text.

* `Number.display_of_toInt?`: the text of a number that is an integer.
* `Number.ReadsAs`: a numeral that rounds to a number.
* `Value.primitiveText?_integer_iff`: the numbers that have a text of their own.
-/

namespace Retention

namespace Number

/-! ## Numerals -/

theorem toInt?_toString (i : Int) : (toString i).toInt? = some i := Int.toInt?_repr i

/-- An integer is read off its numeral. -/
theorem int_toString_injective {i j : Int} (h : toString i = toString j) : i = j := by
  have hread := toInt?_toString i
  rw [h, toInt?_toString j] at hread
  exact (Option.some.inj hread).symm

/-- A text is a numeral that rounds to a number. -/
def ReadsAs (text : String) (n : Number) : Prop :=
  ∃ k, text.toInt? = some k ∧ (ofInt k).equal n = true

theorem readsAs_toString_iff {i : Int} {n : Number} :
    ReadsAs (toString i) n ↔ (ofInt i).equal n = true := by
  simp only [ReadsAs, toInt?_toString, Option.some.injEq, exists_eq_left']

/-! ## The range of 64-bit words -/

/-- The least positive integer beyond the range of 64-bit signed words. -/
def int64Limit : Int := 9223372036854775808

/-- Integers are moved to one word if they are the same, or beyond the same end of the
range. The largest word has to be left out: integers beyond it are moved there. -/
theorem clampInt64_eq_iff {i j : Int} (hi : i ≠ int64Limit - 1) (hj : j ≠ int64Limit - 1) :
    clampInt64 i = clampInt64 j ↔
      i = j ∨ (int64Limit ≤ i ∧ int64Limit ≤ j) ∨ (i ≤ -int64Limit ∧ j ≤ -int64Limit) := by
  unfold int64Limit at hi hj ⊢
  unfold clampInt64
  omega

theorem toInt?_ofInt_maxInt64 : (ofInt (int64Limit - 1)).toInt? = some int64Limit := by
  decide +kernel

theorem toInt?_ofInt_minInt64 : (ofInt (-int64Limit)).toInt? = some (-int64Limit) := by
  decide +kernel

variable {n : Number} {i : Int}

/-- The largest 64-bit signed word is no number: it has more bits than a significand. -/
theorem ne_maxInt64_of_toInt? (h : n.toInt? = some i) : i ≠ int64Limit - 1 := by
  rintro rfl
  rw [← ofInt_of_toInt? h (by decide), toInt?_ofInt_maxInt64] at h
  exact absurd (Option.some.inj h) (by decide)

/-- A number is nearest to its integer, moved into the range of 64-bit signed words, unless
it is beyond the two integers at the ends of the range. -/
theorem ofInt_clampInt64_equal_iff (h : n.toInt? = some i) :
    (ofInt (clampInt64 i)).equal n = true ↔ -int64Limit ≤ i ∧ i ≤ int64Limit := by
  rcases Int.lt_or_le i (-int64Limit) with hlow | hlow
  · have hclamp : clampInt64 i = -int64Limit := by
      unfold int64Limit at hlow ⊢
      unfold clampInt64
      omega
    rw [hclamp, equal_iff_of_toInt? toInt?_ofInt_minInt64 h]
    omega
  · rcases Int.lt_or_le i int64Limit with hhigh | hhigh
    · have hclamp : clampInt64 i = i := by
        unfold int64Limit at hlow hhigh
        unfold clampInt64
        omega
      rw [hclamp]
      exact iff_of_true (ofInt_equal_of_toInt? h) ⟨hlow, Int.le_of_lt hhigh⟩
    · have hclamp : clampInt64 i = int64Limit - 1 := by
        unfold int64Limit at hhigh ⊢
        unfold clampInt64
        omega
      rw [hclamp, equal_iff_of_toInt? toInt?_ofInt_maxInt64 h]
      omega

/-! ## Texts of numbers -/

/-- The text of a number that is an integer below the limit. -/
theorem display_of_toInt? (h : n.toInt? = some i) (hlt : i.natAbs < integerTextLimit) :
    n.display = toString (clampInt64 i) := by
  have hfinite := isFinite_of_toInt? h
  have hinfinite : n.isInfinite = false := by
    rw [isInfinite, hfinite]
    rfl
  simp only [display, not_isNaN_of_isFinite hfinite, hinfinite, Bool.false_eq_true, if_false, h,
    if_pos hlt]

end Number

namespace Value

open Number (int64Limit ReadsAs)

variable {m n : Number} {i j : Int}

/-- Numbers that are integers have different texts, and a text rounds to its number, as
long as they are within the range of 64-bit signed words. Beyond it, all numbers of one
sign have the text of the integer at that end of the range, and it rounds to no other
number. -/
theorem primitiveText?_integer_iff (hm : m.toInt? = some i) (hn : n.toInt? = some j)
    (hmlt : i.natAbs < Number.integerTextLimit) (hnlt : j.natAbs < Number.integerTextLimit) :
    ∃ s t, (number m).primitiveText? = some s ∧ (number n).primitiveText? = some t ∧
      (s = t ↔ m.equal n = true ∨ (int64Limit ≤ i ∧ int64Limit ≤ j) ∨
        (i ≤ -int64Limit ∧ j ≤ -int64Limit)) ∧
      (ReadsAs t n ↔ -int64Limit ≤ j ∧ j ≤ int64Limit) := by
  refine ⟨_, _, rfl, rfl, ?_, ?_⟩
  · rw [Number.display_of_toInt? hm hmlt, Number.display_of_toInt? hn hnlt,
      Number.equal_iff_of_toInt? hm hn, ← Number.clampInt64_eq_iff
        (Number.ne_maxInt64_of_toInt? hm) (Number.ne_maxInt64_of_toInt? hn)]
    exact ⟨Number.int_toString_injective, congrArg toString⟩
  · rw [Number.display_of_toInt? hn hnlt, Number.readsAs_toString_iff,
      Number.ofInt_clampInt64_equal_iff hn]

/-- The largest number below `2^63` and `2^63` itself: each has a text that rounds to it. -/
theorem primitiveText?_integer_iff_limit :
    let m : Number := ⟨0x43dfffffffffffff⟩
    let n : Number := ⟨0x43e0000000000000⟩
    m.toInt? = some 9223372036854774784 ∧ n.toInt? = some int64Limit ∧
    ∃ s t, (number m).primitiveText? = some s ∧ (number n).primitiveText? = some t ∧
      s ≠ t ∧ ReadsAs t n := by
  have hm : (Number.mk 0x43dfffffffffffff).toInt? = some 9223372036854774784 := by decide +kernel
  have hn : (Number.mk 0x43e0000000000000).toInt? = some int64Limit := by decide +kernel
  obtain ⟨s, t, hs, ht, hst, hreads⟩ :=
    primitiveText?_integer_iff hm hn (by decide +kernel) (by decide +kernel)
  refine ⟨hm, hn, s, t, hs, ht, fun heq => ?_, hreads.mpr (by decide)⟩
  exact absurd (hst.mp heq) (by decide +kernel)

/-- The numbers `2^64` and `2^65` have one text, which rounds to neither. -/
theorem primitiveText?_integer_beyond :
    let m : Number := ⟨0x43f0000000000000⟩
    let n : Number := ⟨0x4400000000000000⟩
    m.toInt? = some 18446744073709551616 ∧ n.toInt? = some 36893488147419103232 ∧
    36893488147419103232 < Number.integerTextLimit ∧ m.equal n = false ∧
    ∃ text, (number m).primitiveText? = some text ∧ (number n).primitiveText? = some text ∧
      ¬ ReadsAs text m ∧ ¬ ReadsAs text n := by
  have hm : (Number.mk 0x43f0000000000000).toInt? = some 18446744073709551616 := by decide +kernel
  have hn : (Number.mk 0x4400000000000000).toInt? = some 36893488147419103232 := by decide +kernel
  have hmlt : (18446744073709551616 : Int).natAbs < Number.integerTextLimit := by decide +kernel
  have hnlt : (36893488147419103232 : Int).natAbs < Number.integerTextLimit := by decide +kernel
  have hclamp : Number.clampInt64 18446744073709551616 = Number.clampInt64 36893488147419103232 := by
    decide
  have hmtext := Number.display_of_toInt? hm hmlt
  have hntext := Number.display_of_toInt? hn hnlt
  refine ⟨hm, hn, hnlt, by decide +kernel, _, congrArg some hmtext, ?_, ?_, ?_⟩
  · rw [hclamp]
    exact congrArg some hntext
  · rw [Number.readsAs_toString_iff, Number.ofInt_clampInt64_equal_iff hm]
    decide
  · rw [hclamp, Number.readsAs_toString_iff, Number.ofInt_clampInt64_equal_iff hn]
    decide

end Value
end Retention
