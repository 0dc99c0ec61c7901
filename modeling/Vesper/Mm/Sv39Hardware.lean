import Vesper.Mm.Paging

/-!
# The software walk and the hardware walk

`hardwareTranslate` is the Sv39 address translation of the privileged specification,
without permission and accessed/dirty checks.  `v2p` finds the same leaf, but it neither
looks at the upper bits of the address nor refuses a leaf that is writable and not
readable or a superpage off its alignment.  On every page table built by `map` the two
agree at an address exactly if there is no leaf for it or none of these three happens.
-/

set_option autoImplicit false

namespace Vesper.Mm.Sv39

open Vesper.Lib.Bits
open Vesper.Lib.PathTree

/-! ## The translation of the specification -/

def ppn (pte : Entry) : Nat := pte.toNat / 2 ^ 10 % 2 ^ 44

def vpnField (va : BitVec 64) (i : Nat) : Nat := va.toNat / 2 ^ (12 + 9 * i) % 2 ^ 9

/-- Bits 63 to 39 equal bit 38. -/
def Canonical (va : BitVec 64) : Prop :=
  ∀ b : Fin 25, va.getLsbD (39 + b.val) = va.getLsbD 38

instance canonicalDecidable (va : BitVec 64) : Decidable (Canonical va) :=
  inferInstanceAs (Decidable (∀ b : Fin 25, va.getLsbD (39 + b.val) = va.getLsbD 38))

/-- W = 1 with R = 0. -/
def Reserved (pte : Entry) : Prop := pte.getLsbD 2 = true ∧ pte.getLsbD 1 = false

instance reservedDecidable (pte : Entry) : Decidable (Reserved pte) :=
  inferInstanceAs (Decidable (_ ∧ _))

/-- A leaf at level `i` whose page numbers below level `i` are not all zero. -/
def Misaligned (i : Nat) (pte : Entry) : Prop := ppn pte % 2 ^ (9 * i) ≠ 0

instance misalignedDecidable (i : Nat) (pte : Entry) : Decidable (Misaligned i pte) :=
  inferInstanceAs (Decidable (_ ≠ _))

/-- The walk from the level `i` table at `base`. -/
def hardwareWalk (m : Mem) (va : BitVec 64) : Nat → Nat → Option Nat
  | i, base =>
      let pte := m (base + 8 * vpnField va i)
      if pte.getLsbD 0 = false ∨ Reserved pte then none
      else if pte.getLsbD 1 = true ∨ pte.getLsbD 3 = true then
        if Misaligned i pte then none
        else some (ppn pte * 2 ^ 12 + va.toNat % 2 ^ (12 + 9 * i))
      else
        match i with
        | 0 => none
        | i' + 1 => hardwareWalk m va i' (ppn pte * 2 ^ 12)

def hardwareTranslate (m : Mem) (root : Nat) (va : BitVec 64) : Option Nat :=
  if Canonical va then hardwareWalk m va 2 root else none

/-! ## The fields of an entry -/

theorem vpn_eq_vpnField (va : BitVec 64) {i : Nat} (level : i ≤ 2) :
    (vpn va i).val = vpnField va i := by
  have field : (vpn va i).val = (vpnBits va i).toNat := rfl
  rw [field, vpnBits_eq va level, BitVec.toNat_and, BitVec.toNat_ushiftRight,
    Nat.shiftRight_eq_div_pow]
  exact Nat.and_two_pow_sub_one_eq_mod _ 9

theorem tableOf_toNat (e : Entry) : tableOf e = e.toNat / 2 ^ 10 * 2 ^ 12 % 2 ^ 64 := by
  have mask : ∀ j, (0x3ff#64).getLsbD j = (decide (j < 64) && decide (j < 10)) :=
    fun j => getLsbD_lowMask 64 10 j
  have cleared : (e &&& ~~~0x3ff#64).toNat = e.toNat / 2 ^ 10 * 2 ^ 10 := by
    have spliced := toNat_splice (n := 10) e 0 (e &&& ~~~0x3ff#64)
      (fun j high inWord => by
        rw [BitVec.getLsbD_and, BitVec.getLsbD_not, mask]
        simp [inWord, not_lt.mpr high])
      (fun j low inWord => by
        rw [BitVec.getLsbD_and, BitVec.getLsbD_not, mask]
        simp [low, inWord])
    rw [spliced, show (0 : BitVec 64).toNat % 2 ^ 10 = 0 from rfl, Nat.or_zero]
  rw [tableOf, BitVec.toNat_shiftLeft, cleared, Nat.shiftLeft_eq, Nat.mul_assoc]
  rfl

theorem tableOf_eq_ppn {e : Entry} (small : tableOf e < 2 ^ 56) : tableOf e = ppn e * 2 ^ 12 := by
  rw [tableOf_toNat] at small ⊢
  unfold ppn
  omega

theorem leafEntry_lt (paddr : BitVec 64) (bits : PteFlags) :
    (leafEntry paddr bits).toNat < 2 ^ 54 :=
  Nat.lt_pow_two_of_testBit _ fun _ high => leafEntry_getLsbD_high paddr bits high

theorem leafAddress_aligned {i : Nat} (level : i ≤ 2) {e : Entry} (small : e.toNat < 2 ^ 54)
    (aligned : ¬ Misaligned i e) (va : BitVec 64) :
    (leafAddress i e va).toNat = ppn e * 2 ^ 12 + va.toNat % 2 ^ (12 + 9 * i) := by
  have mask : ∀ j, ((1#64 <<< (12 + 9 * i)) - 1#64).getLsbD j =
      (decide (j < 64) && decide (j < 12 + 9 * i)) :=
    fun j => getLsbD_shiftLeft_one_sub_one (by omega)
  have spliced : (leafAddress i e va).toNat =
      (e <<< 2).toNat / 2 ^ (12 + 9 * i) * 2 ^ (12 + 9 * i) ||| va.toNat % 2 ^ (12 + 9 * i) := by
    apply toNat_splice
    · intro j high inWord
      rw [leafAddress, BitVec.getLsbD_or, BitVec.getLsbD_and, BitVec.getLsbD_and,
        BitVec.getLsbD_not, mask]
      simp [inWord, not_lt.mpr high]
    · intro j low inWord
      rw [leafAddress, BitVec.getLsbD_or, BitVec.getLsbD_and, BitVec.getLsbD_and,
        BitVec.getLsbD_not, mask]
      simp [low, inWord]
  have shifted : (e <<< 2).toNat = e.toNat * 4 := by
    rw [BitVec.toNat_shiftLeft, Nat.shiftLeft_eq]
    exact Nat.mod_eq_of_lt (by omega)
  have page : e.toNat * 4 / 2 ^ (12 + 9 * i) * 2 ^ (12 + 9 * i) = ppn e * 2 ^ 12 := by
    unfold Misaligned at aligned
    unfold ppn at aligned ⊢
    interval_cases i <;> omega
  rw [spliced, shifted, Nat.mul_comm, ← Nat.two_pow_add_eq_or_of_lt
    (Nat.mod_lt _ (Nat.two_pow_pos _)), Nat.mul_comm, page]

/-! ## One walk in terms of the other -/

def resolve (va : BitVec 64) (leaf : Nat × Entry) : Option Nat :=
  if Reserved leaf.2 ∨ Misaligned leaf.1 leaf.2 then none
  else some (ppn leaf.2 * 2 ^ 12 + va.toNat % 2 ^ (12 + 9 * leaf.1))

section Walks
variable {m : Mem} {root : Nat} {va : BitVec 64}

theorem hardwareWalk_invalid {i base : Nat}
    (invalid : isValid (m (base + 8 * vpnField va i)) = false) :
    hardwareWalk m va i base = none := by
  rw [isValid_eq] at invalid
  rw [hardwareWalk.eq_def]
  exact if_pos (Or.inl invalid)

theorem hardwareWalk_leaf {i base : Nat}
    (valid : isValid (m (base + 8 * vpnField va i)) = true)
    (leaf : isLeaf (m (base + 8 * vpnField va i)) = true) :
    hardwareWalk m va i base = resolve va (i, m (base + 8 * vpnField va i)) := by
  rw [isValid_eq] at valid
  rw [isLeaf_iff] at leaf
  rw [hardwareWalk.eq_def, resolve]
  dsimp only
  rw [valid]
  by_cases reserved : Reserved (m (base + 8 * vpnField va i))
  · rw [if_pos (Or.inr reserved), if_pos (Or.inl reserved)]
  · have readOrExecute : (m (base + 8 * vpnField va i)).getLsbD 1 = true ∨
        (m (base + 8 * vpnField va i)).getLsbD 3 = true := by
      unfold Reserved at reserved
      cases read : (m (base + 8 * vpnField va i)).getLsbD 1 with
      | true => exact Or.inl rfl
      | false =>
          rw [read] at leaf reserved
          simp only [and_true] at reserved
          exact leaf.elim (fun bit => by cases bit) fun rest => Or.inr (rest.resolve_left reserved)
    simp only [reserved, or_false, false_or, Bool.true_eq_false, if_false, if_pos readOrExecute]

theorem branch_bits {e : Entry} (valid : isValid e = true) (branch : isLeaf e = false) :
    ¬ (e.getLsbD 0 = false ∨ Reserved e) ∧ ¬ (e.getLsbD 1 = true ∨ e.getLsbD 3 = true) := by
  rw [isValid_eq] at valid
  have clear : ¬ (isLeaf e = true) := by
    rw [branch]
    exact Bool.false_ne_true
  rw [isLeaf_iff, not_or, not_or] at clear
  obtain ⟨read, write, execute⟩ := clear
  refine ⟨?_, not_or.mpr ⟨read, execute⟩⟩
  rw [valid, not_or]
  exact ⟨Bool.false_ne_true.symm, fun reserved => write reserved.1⟩

theorem hardwareWalk_bottom {base : Nat} (valid : isValid (m (base + 8 * vpnField va 0)) = true)
    (branch : isLeaf (m (base + 8 * vpnField va 0)) = false) :
    hardwareWalk m va 0 base = none := by
  obtain ⟨notRefused, notLeaf⟩ := branch_bits valid branch
  rw [hardwareWalk, if_neg notRefused, if_neg notLeaf]

theorem hardwareWalk_branch {i base : Nat}
    (valid : isValid (m (base + 8 * vpnField va (i + 1))) = true)
    (branch : isLeaf (m (base + 8 * vpnField va (i + 1))) = false) :
    hardwareWalk m va (i + 1) base =
      hardwareWalk m va i (ppn (m (base + 8 * vpnField va (i + 1))) * 2 ^ 12) := by
  obtain ⟨notRefused, notLeaf⟩ := branch_bits valid branch
  rw [hardwareWalk, if_neg notRefused, if_neg notLeaf]

theorem entryAddr_eq_vpnField (va : BitVec 64) (base : Nat) {i : Nat} (level : i ≤ 2) :
    base + 8 * vpnField va i = entryAddr base (vpn va i) := by
  rw [entryAddr, vpn_eq_vpnField va level]

theorem hardwareWalk_eq_of_end {i base : Nat} (level : i ≤ 2)
    (ends : isValid (m (entryAddr base (vpn va i))) = true →
      isLeaf (m (entryAddr base (vpn va i))) = true) :
    hardwareWalk m va i base =
      (leafWalk m va i (entryAddr base (vpn va i))).bind (resolve va) := by
  have here := entryAddr_eq_vpnField va base level
  cases valid : isValid (m (entryAddr base (vpn va i))) with
  | false =>
      rw [leafWalk_invalid valid, hardwareWalk_invalid (by rw [here, valid])]
      rfl
  | true =>
      rw [leafWalk_leaf valid (ends valid), hardwareWalk_leaf (by rw [here, valid])
        (by rw [here, ends valid]), here]
      rfl

/-- The hardware resolves the leaf `v2p` finds, if no table lies above `2 ^ 56`. -/
theorem hardwareWalk_eq (addressable : ∀ i base, i < 2 →
      follow (child m) root (tablePath va i) = some base → base < 2 ^ 56)
    {i base : Nat} (level : i ≤ 2)
    (atBase : follow (child m) root (tablePath va i) = some base) :
    hardwareWalk m va i base =
      (leafWalk m va i (entryAddr base (vpn va i))).bind (resolve va) := by
  induction i generalizing base with
  | zero =>
      by_cases branch : isValid (m (entryAddr base (vpn va 0))) = true ∧
          isLeaf (m (entryAddr base (vpn va 0))) = false
      · obtain ⟨valid, notLeaf⟩ := branch
        have here := entryAddr_eq_vpnField va base level
        rw [hardwareWalk_bottom (by rw [here, valid]) (by rw [here, notLeaf]), leafWalk]
        simp [isInvalid, valid, notLeaf]
      · refine hardwareWalk_eq_of_end level fun valid => ?_
        simpa [valid] using branch
  | succ i ih =>
      by_cases branch : isValid (m (entryAddr base (vpn va (i + 1)))) = true ∧
          isLeaf (m (entryAddr base (vpn va (i + 1)))) = false
      · obtain ⟨valid, notLeaf⟩ := branch
        have here := entryAddr_eq_vpnField va base level
        have atNext : follow (child m) root (tablePath va i) =
            some (tableOf (m (entryAddr base (vpn va (i + 1))))) := by
          rw [tablePath_succ va level, follow_snoc, atBase, Option.bind_some]
          exact child_of_branch valid notLeaf
        have next := tableOf_eq_ppn (addressable i _ (by omega) atNext)
        rw [hardwareWalk_branch (by rw [here, valid]) (by rw [here, notLeaf]), here, ← next,
          leafWalk_branch valid notLeaf]
        exact ih (by omega) atNext
      · refine hardwareWalk_eq_of_end level fun valid => ?_
        simpa [valid] using branch

/-- Where no table lies above `2 ^ 56` and no leaf has a bit above 53, `v2p` agrees with the
hardware exactly if there is no leaf or nothing about the leaf and the address is refused. -/
theorem v2p_agrees_iff (table : PageTable m root) (addressable : ∀ i base, i < 2 →
      follow (child m) root (tablePath va i) = some base → base < 2 ^ 56)
    (leaves : ∀ i e, leafOf m root va = some (i, e) → i ≤ 2 ∧ e.toNat < 2 ^ 54) :
    (∀ pa : BitVec 64, v2p m root va = .ok (some pa) ↔
        hardwareTranslate m root va = some pa.toNat) ↔
      ∀ i e, leafOf m root va = some (i, e) →
        Canonical va ∧ ¬ Reserved e ∧ ¬ Misaligned i e := by
  have walked : hardwareTranslate m root va =
      if Canonical va then (leafOf m root va).bind (resolve va) else none := by
    rw [hardwareTranslate, hardwareWalk_eq addressable (le_refl 2) rfl]
    rfl
  rw [v2p_eq_leafOf table, walked]
  cases found : leafOf m root va with
  | none => simp
  | some leaf =>
      obtain ⟨i, e⟩ := leaf
      obtain ⟨level, small⟩ := leaves i e found
      simp only [Option.map_some, Option.bind_some, Option.some.injEq, Except.ok.injEq,
        Prod.mk.injEq, resolve]
      constructor
      · rintro same i' e' ⟨rfl, rfl⟩
        have translated := (same _).mp rfl
        split_ifs at translated with canonical refused
        exact ⟨canonical, not_or.mp refused⟩
      · intro fine pa
        obtain ⟨canonical, usable⟩ := fine i e ⟨rfl, rfl⟩
        rw [if_pos canonical, if_neg (not_or.mpr usable), Option.some.injEq,
          ← leafAddress_aligned level small usable.2 va]
        exact BitVec.toNat_inj.symm

end Walks

end Vesper.Mm.Sv39

namespace Vesper.Mm.Paging

open Vesper.Lib
open Vesper.Lib.PathTree
open Vesper.Mm.PageFrame (Heap pageSize_eq)
open Vesper.Mm.Sv39

/-! ## The page tables `map` builds -/

section Built
variable {h : Heap} {root : Nat} {s : State h}

structure Built (root : Nat) (s : State h) : Prop where
  inv : Inv root s
  leaves : ∀ va i e, leafOf s.mem root va = some (i, e) →
    i ≤ 2 ∧ ∃ pa bits, e = leafEntry pa bits

theorem leafOf_store (inv : Inv root s) {addr : Nat} (e : Entry)
    (outside : ∀ base ∈ root :: s.frames, ¬ (base ≤ addr ∧ addr < base + PageFrame.pageSize))
    (va : BitVec 64) : leafOf (s.mem.write addr e) root va = leafOf s.mem root va := by
  apply leafOf_congr
  intro j level base atBase
  have member : base ∈ tables s.mem root := table_of_path atBase
  rw [inv.held.tables] at member
  apply write_other
  intro same
  have small := (vpn va j).isLt
  refine outside base member ?_
  rw [← same, entryAddr, pageSize_eq]
  omega

theorem leaves_map (low : h.heapEnd ≤ 2 ^ 63) (built : Built root s) {va pa : BitVec 64}
    {bits : PteFlags} {level : Nat} {mem : Mem} {pages : PageFrame.State h} {frames : List Nat}
    (rwx : bits.bits &&& PteFlags.RWX.bits ≠ 0) (small : level ≤ 2)
    (clears : PathClear s.mem root va level)
    (success : Sv39.map frame root va pa bits level s.mem (s.pages, s.frames) =
      .ok (mem, (pages, frames))) {va' : BitVec 64} {i : Nat} {e : Entry}
    (found : leafOf mem root va' = some (i, e)) : i ≤ 2 ∧ ∃ pa bits, e = leafEntry pa bits := by
  rcases map_outcome pa small rwx (held_hosts low va level) built.inv.held built.inv.table clears
    with ⟨failed, _⟩ | ⟨m', s', success', installed, _, _⟩
  · rw [failed] at success
    cases success
  · rw [success'] at success
    cases success
    by_cases page : SamePage level va va'
    · rw [installed.inside va' page] at found
      cases found
      exact ⟨small, pa, bits, rfl⟩
    · rw [installed.outside va' page] at found
      exact built.leaves va' i e found

theorem initial_built (initial : Initial root s) : Built root s where
  inv := initial_inv initial
  leaves := by
    intro va i e found
    have zero : isValid (s.mem (entryAddr root (vpn va 2))) = false := by
      rw [initial.zero]
      exact isValid_zero
    rw [leafOf, leafWalk_invalid zero] at found
    cases found

theorem reach_built (low : h.heapEnd ≤ 2 ^ 63)
    (reached : ((paging h root).restrict (clear root)).Reach s) : Built root s := by
  refine reached.invariant (fun (s : State h) (initial : Initial root s) =>
    initial_built initial) ?_
  intro s a s' built taken
  obtain ⟨clears, taken⟩ := System.restrict_step taken
  refine ⟨inv_step low built.inv clears taken, ?_⟩
  rcases step_cases taken with ⟨va, pa, bits, level, mem, pages, frames, rfl, rwx, small,
      success, rfl⟩ | ⟨count, pages, _, _, rfl⟩ | ⟨count, addr, pages, _, _, rfl⟩ |
      ⟨r, pages, _, _, rfl⟩ | ⟨addr, e, outside, rfl⟩
  · intro va' i e found
    exact leaves_map low built rwx small (pathClear_of_clearFrom small clears) success found
  · exact built.leaves
  · exact built.leaves
  · exact built.leaves
  · intro va i e' found
    rw [leafOf_store built.inv e outside] at found
    exact built.leaves va i e' found

theorem Inv.table_below (inv : Inv root s) {va : BitVec 64} {i base : Nat} (below : i < 2)
    (atBase : follow (child s.mem) root (tablePath va i) = some base) :
    base < h.runAddr h.pages := by
  have member : base ∈ tables s.mem root := table_of_path atBase
  rw [inv.held.tables] at member
  cases List.mem_cons.mp member with
  | inl isRoot =>
      have paths := inv.table.tree (tablePath va i) [] base
        (by rw [tablePath_length]; omega) (by simp) atBase (by rw [isRoot]; rfl)
      have length := congrArg List.length paths
      rw [tablePath_length, List.length_nil] at length
      omega
  | inr isFrame =>
      obtain ⟨pool, _, _, owned, _⟩ := inv.held.allocator
      obtain ⟨j, rfl, live, _⟩ := owned base isFrame
      have bound := pool.bounded _ live
      simp only [Heap.runAddr, pageSize_eq]
      dsimp only at bound
      omega

theorem heapEnd_le_of_pages (low : h.runAddr h.pages ≤ 2 ^ 56) : h.heapEnd ≤ 2 ^ 63 := by
  have table := h.table_le_allocStart
  have size : h.heapSize < (h.pages + 1) * 4096 := by
    have split := Nat.div_add_mod h.heapSize 4096
    have rest := Nat.mod_lt h.heapSize (show 0 < 4096 by decide)
    have pages : h.pages = h.heapSize / 4096 := rfl
    omega
  simp only [Heap.runAddr, pageSize_eq] at low
  unfold Heap.heapEnd
  omega

end Built

/-- For every page table built by `map` calls over pages with 56-bit addresses, and every
virtual address: `v2p` agrees with the hardware exactly if the address has no leaf, or it
is canonical and its leaf neither reserved nor a misaligned superpage. -/
theorem v2p_matches_hardware_iff (h : Heap) (root : Nat) (low : h.runAddr h.pages ≤ 2 ^ 56)
    (s : State h) (reached : ((paging h root).restrict (clear root)).Reach s) (va : BitVec 64) :
    (∀ pa : BitVec 64, v2p s.mem root va = .ok (some pa) ↔
        hardwareTranslate s.mem root va = some pa.toNat) ↔
      ∀ i e, leafOf s.mem root va = some (i, e) →
        Canonical va ∧ ¬ Reserved e ∧ ¬ Misaligned i e := by
  have built := reach_built (heapEnd_le_of_pages low) reached
  refine v2p_agrees_iff built.inv.table (fun i base below atBase => ?_) fun i e found => ?_
  · exact (built.inv.table_below below atBase).trans_le low
  · obtain ⟨level, pa, bits, rfl⟩ := built.leaves va i e found
    exact ⟨level, leafEntry_lt pa bits⟩

section SmallHeap
open Vesper.Mm.PageFrame (smallHeap)

theorem v2p_matches_hardware_firstPage :
    ∃ s : State smallHeap, ((paging smallHeap 0x1000).restrict (clear 0x1000)).Reach s ∧
      v2p s.mem 0x1000 0x123#64 = .ok (some 0x5123#64) ∧
      hardwareTranslate s.mem 0x1000 0x123#64 = some 0x5123 := by
  have ran : ((((paging smallHeap 0x1000).restrict (clear 0x1000)).run zeroState
      [firstPage]).map fun s => (leafOf s.mem 0x1000 0x123#64, v2p s.mem 0x1000 0x123#64)) =
        some (some (0, leafEntry 0x5000#64 PteFlags.READ), .ok (some 0x5123#64)) := by
    decide +kernel
  obtain ⟨s, ends, facts⟩ := Option.map_eq_some_iff.mp ran
  obtain ⟨leaf, translated⟩ := Prod.mk.inj facts
  have reached := (System.Reach.start zeroState_initial).run ends
  refine ⟨s, reached, translated, ((v2p_matches_hardware_iff smallHeap 0x1000 (by decide) s reached
    0x123#64).mpr ?_ 0x5123#64).mp translated⟩
  intro i e found
  rw [leaf] at found
  cases found
  decide

/-- A page at address zero, also found at the non-canonical address `2 ^ 39`; a page that is
writable and not readable; a megapage at an address that is no multiple of its size.  The
hardware faults on all three. -/
theorem v2p_accepts_what_hardware_refuses :
    (∃ s : State smallHeap, ((paging smallHeap 0x1000).restrict (clear 0x1000)).Reach s ∧
      v2p s.mem 0x1000 0x8000000000#64 = .ok (some 0x5000#64) ∧
      hardwareTranslate s.mem 0x1000 0x8000000000#64 = none) ∧
    (∃ s : State smallHeap, ((paging smallHeap 0x1000).restrict (clear 0x1000)).Reach s ∧
      v2p s.mem 0x1000 0#64 = .ok (some 0x5000#64) ∧
      hardwareTranslate s.mem 0x1000 0#64 = none) ∧
    ∃ s : State smallHeap, ((paging smallHeap 0x1000).restrict (clear 0x1000)).Reach s ∧
      v2p s.mem 0x1000 0#64 = .ok (some 0#64) ∧
      hardwareTranslate s.mem 0x1000 0#64 = none := by
  have found (a : Action) (va : BitVec 64) (answer : Except Panic (Option (BitVec 64)))
      (ran : ((((paging smallHeap 0x1000).restrict (clear 0x1000)).run zeroState [a]).map
        fun s => (v2p s.mem 0x1000 va, hardwareTranslate s.mem 0x1000 va)) =
          some (answer, none)) :
      ∃ s : State smallHeap, ((paging smallHeap 0x1000).restrict (clear 0x1000)).Reach s ∧
        v2p s.mem 0x1000 va = answer ∧ hardwareTranslate s.mem 0x1000 va = none := by
    obtain ⟨s, ends, facts⟩ := Option.map_eq_some_iff.mp ran
    obtain ⟨software, hardware⟩ := Prod.mk.inj facts
    exact ⟨s, (System.Reach.start zeroState_initial).run ends, software, hardware⟩
  exact ⟨found firstPage _ _ (by decide +kernel),
    found (.map 0#64 0x5000#64 PteFlags.WRITE 0) _ _ (by decide +kernel),
    found (.map 0#64 0x1000#64 PteFlags.READ 1) _ _ (by decide +kernel)⟩

end SmallHeap

end Vesper.Mm.Paging
