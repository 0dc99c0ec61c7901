import Vesper.Lib.Bits
import Vesper.Mm.Sv39

/-!
# Sv39 entries, bit by bit

What `map` packs into an entry is what the walks unpack: a branch entry gives back the
page it was made from, a leaf entry gives back the physical address rounded down to the
size of its page, and the virtual page numbers are the nine-bit slices of the address.
-/

set_option autoImplicit false

namespace Vesper.Mm.Sv39

open Vesper.Lib.Bits

theorem valid_getLsbD (i : Nat) : PteFlags.VALID.bits.getLsbD i = decide (i = 0) := by
  have one : PteFlags.VALID.bits = 1#64 := rfl
  rw [one, BitVec.getLsbD_one]
  simp

theorem rwx_getLsbD (i : Nat) :
    PteFlags.RWX.bits.getLsbD i = decide (i = 1 ∨ i = 2 ∨ i = 3) := by
  by_cases small : i < 64
  · have table : ∀ j : Fin 64,
        PteFlags.RWX.bits.getLsbD j.val = decide (j.val = 1 ∨ j.val = 2 ∨ j.val = 3) := by
      decide
    exact table ⟨i, small⟩
  · rw [BitVec.getLsbD_of_ge _ _ (by omega), eq_comm, decide_eq_false_iff_not]
    omega

theorem flags_getLsbD_of_ge (f : PteFlags) {i : Nat} (high : 8 ≤ i) :
    f.bits.getLsbD i = false := by
  rw [PteFlags.bits, BitVec.getLsbD_setWidth, BitVec.getLsbD_of_ge f.flags i high,
    Bool.and_false]

theorem isValid_eq (e : Entry) : isValid e = e.getLsbD 0 := by
  rw [Bool.eq_iff_iff, isValid, and_ne_zero_iff]
  constructor
  · rintro ⟨i, bit, mask⟩
    rw [valid_getLsbD, decide_eq_true_eq] at mask
    rwa [mask] at bit
  · intro bit
    exact ⟨0, bit, valid_getLsbD 0⟩

theorem isLeaf_iff (e : Entry) :
    isLeaf e = true ↔ e.getLsbD 1 = true ∨ e.getLsbD 2 = true ∨ e.getLsbD 3 = true := by
  rw [isLeaf, and_ne_zero_iff]
  constructor
  · rintro ⟨i, bit, mask⟩
    rw [rwx_getLsbD, decide_eq_true_eq] at mask
    rcases mask with rfl | rfl | rfl
    · exact .inl bit
    · exact .inr (.inl bit)
    · exact .inr (.inr bit)
  · rintro (bit | bit | bit)
    · exact ⟨1, bit, rwx_getLsbD 1⟩
    · exact ⟨2, bit, rwx_getLsbD 2⟩
    · exact ⟨3, bit, rwx_getLsbD 3⟩

/-! ## Branch entries -/

theorem testBit_of_aligned {addr i : Nat} (aligned : addr % 4096 = 0) (low : i < 12) :
    addr.testBit i = false := by
  have zero : (addr % 2 ^ 12).testBit i = addr.testBit i := by
    rw [Nat.testBit_mod_two_pow, decide_eq_true low, Bool.true_and]
  rw [← zero, show (2 : Nat) ^ 12 = 4096 from rfl, aligned, Nat.zero_testBit]

theorem branchTo_getLsbD (addr : Nat) {i : Nat} (small : i + 2 < 64) :
    (branchTo addr).getLsbD i = (addr.testBit (i + 2) || decide (i = 0)) := by
  have inWord : ¬ 64 ≤ i := by omega
  have noSign : 2 + i < 64 := by omega
  rw [branchTo, BitVec.getLsbD_or, valid_getLsbD, BitVec.getLsbD_sshiftRight,
    if_pos noSign, BitVec.getLsbD_ofNat, Nat.add_comm 2 i]
  simp only [small, inWord, decide_true, decide_false, Bool.not_false, Bool.true_and]

theorem isValid_branchTo (addr : Nat) : isValid (branchTo addr) = true := by
  rw [isValid_eq, branchTo_getLsbD addr (by decide)]
  simp

theorem isLeaf_branchTo {addr : Nat} (aligned : addr % 4096 = 0) :
    isLeaf (branchTo addr) = false := by
  rw [Bool.eq_false_iff, Ne, isLeaf_iff]
  simp only [branchTo_getLsbD addr (show 1 + 2 < 64 by decide),
    branchTo_getLsbD addr (show 2 + 2 < 64 by decide),
    branchTo_getLsbD addr (show 3 + 2 < 64 by decide)]
  simp [testBit_of_aligned aligned]

theorem tableOf_testBit (e : Entry) {i : Nat} (small : i < 64) :
    (tableOf e).testBit i = (decide (12 ≤ i) && e.getLsbD (i - 2)) := by
  have mask : ∀ j, (0x3ff#64).getLsbD j = (decide (j < 64) && decide (j < 10)) := by
    intro j
    exact getLsbD_lowMask 64 10 j
  rw [tableOf, BitVec.testBit_toNat, BitVec.getLsbD_shiftLeft, BitVec.getLsbD_and,
    BitVec.getLsbD_not, mask]
  by_cases high : 12 ≤ i
  · have shifted : ¬ i < 2 := by omega
    have above : ¬ i - 2 < 10 := by omega
    have inWord : i - 2 < 64 := by omega
    simp [high, small, shifted, above, inWord]
  · by_cases shifted : i < 2
    · simp [high, shifted]
    · have below : i - 2 < 10 := by omega
      have inWord : i - 2 < 64 := by omega
      simp [high, below, inWord]

theorem tableOf_lt (e : Entry) : tableOf e < 2 ^ 64 := BitVec.isLt _

theorem tableOf_aligned (e : Entry) : tableOf e % 4096 = 0 := by
  apply Nat.eq_of_testBit_eq
  intro i
  rw [show (4096 : Nat) = 2 ^ 12 from rfl, Nat.testBit_mod_two_pow, Nat.zero_testBit]
  by_cases low : i < 12
  · rw [tableOf_testBit e (by omega)]
    simp [Nat.not_le_of_lt low]
  · simp [low]

theorem tableOf_branchTo {addr : Nat} (aligned : addr % 4096 = 0) (small : addr < 2 ^ 64) :
    tableOf (branchTo addr) = addr := by
  apply Nat.eq_of_testBit_eq
  intro i
  by_cases inWord : i < 64
  · rw [tableOf_testBit _ inWord]
    by_cases high : 12 ≤ i
    · have back : i - 2 + 2 = i := by omega
      have positive : i - 2 ≠ 0 := by omega
      rw [branchTo_getLsbD addr (by omega), back]
      simp [high, positive]
    · rw [testBit_of_aligned aligned (by omega)]
      simp [high]
  · rw [Nat.testBit_lt_two_pow (lt_of_lt_of_le (tableOf_lt _)
      (Nat.pow_le_pow_right (by decide) (by omega))),
      Nat.testBit_lt_two_pow (lt_of_lt_of_le small
      (Nat.pow_le_pow_right (by decide) (by omega)))]

/-! ## Leaf entries -/

theorem isValid_leafEntry (paddr : BitVec 64) (bits : PteFlags) :
    isValid (leafEntry paddr bits) = true := by
  rw [isValid_eq, leafEntry, BitVec.getLsbD_or, valid_getLsbD]
  simp

theorem isLeaf_leafEntry (paddr : BitVec 64) (bits : PteFlags)
    (rwx : bits.bits &&& PteFlags.RWX.bits ≠ 0) :
    isLeaf (leafEntry paddr bits) = true := by
  have flagBits : isLeaf bits.bits = true := by
    rw [isLeaf, bne_iff_ne]
    exact rwx
  have carries : ∀ i, bits.bits.getLsbD i = true →
      (leafEntry paddr bits).getLsbD i = true := by
    intro i bit
    rw [leafEntry, BitVec.getLsbD_or, BitVec.getLsbD_or, bit, Bool.or_true, Bool.true_or]
  rw [isLeaf_iff] at flagBits ⊢
  exact flagBits.imp (carries 1) (Or.imp (carries 2) (carries 3))

theorem leafEntry_getLsbD_low (paddr : BitVec 64) (bits : PteFlags) {i : Nat}
    (low : i < 10) :
    (leafEntry paddr bits).getLsbD i = (bits.bits.getLsbD i || decide (i = 0)) := by
  have first : i < 19 := by omega
  have second : i < 28 := by omega
  simp only [leafEntry, BitVec.getLsbD_or, BitVec.getLsbD_shiftLeft, valid_getLsbD, low, first,
    second, decide_true, Bool.not_true, Bool.and_false, Bool.false_and, Bool.false_or]

/-- Bits 10 to 53 of a leaf entry are bits 12 to 55 of the physical address. -/
theorem leafEntry_getLsbD (paddr : BitVec 64) (bits : PteFlags) {i : Nat}
    (low : 10 ≤ i) (high : i < 54) :
    (leafEntry paddr bits).getLsbD i = paddr.getLsbD (i + 2) := by
  have nine : ∀ j, (0x1ff#64).getLsbD j = (decide (j < 64) && decide (j < 9)) := by
    intro j
    exact getLsbD_lowMask 64 9 j
  have wide : ∀ j, (0x3ffffff#64).getLsbD j = (decide (j < 64) && decide (j < 26)) := by
    intro j
    exact getLsbD_lowMask 64 26 j
  have flags := flags_getLsbD_of_ge bits (show 8 ≤ i by omega)
  have notZero : i ≠ 0 := by omega
  have inWord : i < 64 := by omega
  simp only [leafEntry, BitVec.getLsbD_or, BitVec.getLsbD_shiftLeft, BitVec.getLsbD_and,
    BitVec.getLsbD_ushiftRight, nine, wide, flags, valid_getLsbD, notZero, inWord,
    decide_true, decide_false, Bool.or_false, Bool.true_and]
  by_cases first : i < 19
  · have a : i < 28 := by omega
    have b : ¬ i < 10 := by omega
    have c : i - 10 < 64 := by omega
    have d : i - 10 < 9 := by omega
    have e : 12 + (i - 10) = i + 2 := by omega
    simp [first, a, b, c, d, e]
  · by_cases second : i < 28
    · have b : ¬ i < 10 := by omega
      have c : i - 19 < 64 := by omega
      have d : i - 19 < 9 := by omega
      have e : 21 + (i - 19) = i + 2 := by omega
      have f : ¬ i - 10 < 9 := by omega
      simp [first, second, b, c, d, e, f]
    · have b : ¬ i < 10 := by omega
      have c : i - 28 < 64 := by omega
      have d : i - 28 < 26 := by omega
      have e : 30 + (i - 28) = i + 2 := by omega
      have f : ¬ i - 10 < 9 := by omega
      have g : ¬ i - 19 < 9 := by omega
      simp [first, second, b, c, d, e, f, g]

theorem leafEntry_getLsbD_high (paddr : BitVec 64) (bits : PteFlags) {i : Nat} (high : 54 ≤ i) :
    (leafEntry paddr bits).getLsbD i = false := by
  have nine : ∀ k, (0x1ff#64).getLsbD k = (decide (k < 64) && decide (k < 9)) :=
    fun k => getLsbD_lowMask 64 9 k
  have wide : ∀ k, (0x3ffffff#64).getLsbD k = (decide (k < 64) && decide (k < 26)) :=
    fun k => getLsbD_lowMask 64 26 k
  have flags := flags_getLsbD_of_ge bits (show 8 ≤ i by omega)
  have a : ¬ i - 28 < 26 := by omega
  have b : ¬ i - 19 < 9 := by omega
  have c : ¬ i - 10 < 9 := by omega
  have d : i ≠ 0 := by omega
  simp [leafEntry, nine, wide, flags, valid_getLsbD, a, b, c, d]

/-- A leaf of level `i` translates to the physical address rounded down to its page size
and the low bits of the virtual address. -/
theorem leafAddress_leafEntry {i : Nat} (level : i ≤ 2) {paddr : BitVec 64}
    (small : paddr.toNat < 2 ^ 56) (bits : PteFlags) (vaddr : BitVec 64) :
    (leafAddress i (leafEntry paddr bits) vaddr).toNat =
      paddr.toNat / 2 ^ (12 + 9 * i) * 2 ^ (12 + 9 * i) |||
        vaddr.toNat % 2 ^ (12 + 9 * i) := by
  have mask : ∀ j, ((1#64 <<< (12 + 9 * i)) - 1#64).getLsbD j =
      (decide (j < 64) && decide (j < 12 + 9 * i)) :=
    fun j => getLsbD_shiftLeft_one_sub_one (by omega)
  apply toNat_splice
  · intro j high inWord
    have above : ¬ j < 12 + 9 * i := by omega
    have shifted : ¬ j < 2 := by omega
    simp only [leafAddress, BitVec.getLsbD_or, BitVec.getLsbD_and, BitVec.getLsbD_not,
      BitVec.getLsbD_shiftLeft, mask, inWord, above, shifted, decide_true, decide_false,
      Bool.and_false, Bool.or_false, Bool.not_false, Bool.and_true, Bool.true_and]
    by_cases top : j < 56
    · rw [leafEntry_getLsbD paddr bits (by omega) (by omega)]
      congr 1
      omega
    · -- above bit 55 both the entry and the address are zero
      have zero : paddr.getLsbD j = false :=
        Nat.testBit_lt_two_pow (lt_of_lt_of_le small
          (Nat.pow_le_pow_right (by decide) (by omega)))
      rw [zero, leafEntry_getLsbD_high paddr bits (by omega)]
  · intro j low inWord
    simp only [leafAddress, BitVec.getLsbD_or, BitVec.getLsbD_and, BitVec.getLsbD_not,
      mask, inWord, low, decide_true, Bool.and_true, Bool.not_true, Bool.and_false,
      Bool.false_or]

/-! ## Virtual page numbers -/

theorem vpnBits_eq (vaddr : BitVec 64) {i : Nat} (level : i ≤ 2) :
    vpnBits vaddr i = vaddr >>> (12 + 9 * i) &&& 0x1ff#64 := by
  interval_cases i <;> rfl

theorem vpn_eq_iff {left right : BitVec 64} {i : Nat} (level : i ≤ 2) :
    vpn left i = vpn right i ↔
      ∀ b, 12 + 9 * i ≤ b → b < 21 + 9 * i → left.getLsbD b = right.getLsbD b := by
  have slice : ∀ (v : BitVec 64) (j : Nat),
      (vpnBits v i).getLsbD j = (v.getLsbD (12 + 9 * i + j) && decide (j < 9)) := by
    intro v j
    have mask := getLsbD_lowMask 64 9 j
    rw [show BitVec.ofNat 64 (2 ^ 9 - 1) = 0x1ff#64 from rfl] at mask
    rw [vpnBits_eq v level, BitVec.getLsbD_and, BitVec.getLsbD_ushiftRight, mask]
    by_cases small : j < 9
    · have inWord : j < 64 := by omega
      simp [small, inWord]
    · simp [small]
  rw [Fin.ext_iff]
  simp only [vpn]
  rw [BitVec.toNat_inj]
  constructor
  · intro same b low high
    have bit := congrArg (fun v => BitVec.getLsbD v (b - (12 + 9 * i))) same
    simp only [slice] at bit
    have back : 12 + 9 * i + (b - (12 + 9 * i)) = b := by omega
    have inSlice : b - (12 + 9 * i) < 9 := by omega
    simpa [back, inSlice] using bit
  · intro same
    apply BitVec.eq_of_getLsbD_eq
    intro j _
    rw [slice, slice]
    by_cases inSlice : j < 9
    · rw [same (12 + 9 * i + j) (by omega) (by omega)]
    · simp [inSlice]

end Vesper.Mm.Sv39
