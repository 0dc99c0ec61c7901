import Mathlib.Tactic

/-!
# Bit masks over bit vectors

Bits of low masks and single-bit masks, and the value of a word whose bits below a
position come from one word and the others from another.
-/

set_option autoImplicit false

namespace Vesper.Lib.Bits

theorem getLsbD_lowMask (w n i : Nat) :
    (BitVec.ofNat w (2 ^ n - 1)).getLsbD i = (decide (i < w) && decide (i < n)) := by
  rw [BitVec.getLsbD_ofNat, Nat.testBit_two_pow_sub_one]

theorem getLsbD_shiftLeft_one_sub_one {w n i : Nat} (small : n < w) :
    ((1#w <<< n) - 1#w).getLsbD i = (decide (i < w) && decide (i < n)) := by
  have mask : (1#w <<< n) - 1#w = BitVec.ofNat w (2 ^ n - 1) := by
    apply BitVec.eq_of_toNat_eq
    have big : 2 ^ n < 2 ^ w := Nat.pow_lt_pow_right (by decide) small
    have one : 1 < 2 ^ w := lt_of_le_of_lt Nat.one_le_two_pow big
    have shifted : (1#w <<< n).toNat = 2 ^ n := by
      rw [BitVec.toNat_shiftLeft, BitVec.toNat_ofNat, Nat.mod_eq_of_lt one,
        Nat.shiftLeft_eq, one_mul, Nat.mod_eq_of_lt big]
    have le : 1#w ≤ 1#w <<< n := by
      rw [BitVec.le_def, shifted, BitVec.toNat_ofNat, Nat.mod_eq_of_lt one]
      exact Nat.one_le_two_pow
    rw [BitVec.toNat_sub_of_le le, shifted, BitVec.toNat_ofNat, Nat.mod_eq_of_lt one,
      BitVec.toNat_ofNat, Nat.mod_eq_of_lt (by omega)]
  rw [mask, getLsbD_lowMask]

/-- A word meets a mask exactly when they share a bit. -/
theorem and_ne_zero_iff {w : Nat} (x mask : BitVec w) :
    (x &&& mask != 0) = true ↔ ∃ i, x.getLsbD i = true ∧ mask.getLsbD i = true := by
  rw [bne_iff_ne]
  constructor
  · intro nonzero
    by_contra none
    apply nonzero
    apply BitVec.eq_of_getLsbD_eq
    intro i _
    rw [BitVec.getLsbD_and]
    by_cases left : x.getLsbD i = true
    · by_cases right : mask.getLsbD i = true
      · exact absurd ⟨i, left, right⟩ none
      · simp [Bool.eq_false_iff.mpr right]
    · simp [Bool.eq_false_iff.mpr left]
  · rintro ⟨i, left, right⟩ zero
    have bit : (x &&& mask).getLsbD i = true := by
      rw [BitVec.getLsbD_and, left, right, Bool.and_self]
    rw [zero] at bit
    simp at bit

theorem toNat_splice {w n : Nat} (x y z : BitVec w)
    (high : ∀ i, n ≤ i → i < w → z.getLsbD i = x.getLsbD i)
    (low : ∀ i, i < n → i < w → z.getLsbD i = y.getLsbD i) :
    z.toNat = x.toNat / 2 ^ n * 2 ^ n ||| y.toNat % 2 ^ n := by
  apply Nat.eq_of_testBit_eq
  intro i
  rw [Nat.testBit_or, Nat.testBit_mul_two_pow, Nat.testBit_div_two_pow,
    Nat.testBit_mod_two_pow]
  by_cases inWord : i < w
  · by_cases below : i < n
    · have bit := low i below inWord
      simp only [BitVec.getLsbD] at bit
      simp [bit, below]
    · have bit := high i (by omega) inWord
      simp only [BitVec.getLsbD] at bit
      have sum : i - n + n = i := by omega
      simp [bit, below, sum, Nat.le_of_not_lt below]
  · have zero : ∀ v : BitVec w, v.toNat.testBit i = false := by
      intro v
      exact BitVec.getLsbD_of_ge v i (by omega)
    by_cases below : i < n
    · simp [zero, below]
    · have sum : i - n + n = i := by omega
      simp [zero, below, sum]

end Vesper.Lib.Bits
