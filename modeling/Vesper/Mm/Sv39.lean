import Mathlib.Tactic
import Vesper.Mm.PageFrame

/-!
# Sv39 page tables

Functional model of `mm/paging/sv39/types.rs` and of `map` and `v2p` in
`mm/paging/sv39/map.rs`.  Physical memory is a function from the byte address of an
aligned word to the word; a table is the 512 words of one page and is only ever
reached through the address packed in an entry.  The allocator behind `zallocate(1)`
is a parameter: a state and one call that hands out the address of a page.
-/

set_option autoImplicit false

namespace Vesper.Mm.Sv39

open Vesper.Mm.PageFrame (pageSize)

/-! ## Entries -/

abbrev Entry := BitVec 64

/-- `PteFlags`: the constants and `|` of the source only ever set the low eight bits. -/
structure PteFlags where
  flags : BitVec 8
  deriving DecidableEq, Repr

namespace PteFlags

def EMPTY : PteFlags := ⟨0⟩
def VALID : PteFlags := ⟨1 <<< 0⟩
def READ : PteFlags := ⟨1 <<< 1⟩
def WRITE : PteFlags := ⟨1 <<< 2⟩
def EXECUTE : PteFlags := ⟨1 <<< 3⟩
def USER : PteFlags := ⟨1 <<< 4⟩
def GLOBAL : PteFlags := ⟨1 <<< 5⟩
def ACCESSED : PteFlags := ⟨1 <<< 6⟩
def DIRTY : PteFlags := ⟨1 <<< 7⟩
def RWX : PteFlags := ⟨0xe⟩

def bits (f : PteFlags) : BitVec 64 := f.flags.setWidth 64

def bitor (f g : PteFlags) : PteFlags := ⟨f.flags ||| g.flags⟩

instance : OrOp PteFlags := ⟨bitor⟩

end PteFlags

def isValid (e : Entry) : Bool := e &&& PteFlags.VALID.bits != 0
def isInvalid (e : Entry) : Bool := !isValid e
def isLeaf (e : Entry) : Bool := e &&& PteFlags.RWX.bits != 0
def isBranch (e : Entry) : Bool := !isLeaf e

/-- `(entry & !0x3ff) << 2`: the address of the next table. -/
def tableOf (e : Entry) : Nat := ((e &&& ~~~0x3ff#64) <<< 2).toNat

/-- `(addr >> 2) | VALID` on an `i64` address. -/
def branchTo (addr : Nat) : Entry :=
  (BitVec.ofNat 64 addr).sshiftRight 2 ||| PteFlags.VALID.bits

def leafEntry (paddr : BitVec 64) (bits : PteFlags) : Entry :=
  ((paddr >>> 30 &&& 0x3ffffff#64) <<< 28) ||| ((paddr >>> 21 &&& 0x1ff#64) <<< 19) |||
    ((paddr >>> 12 &&& 0x1ff#64) <<< 10) ||| bits.bits ||| PteFlags.VALID.bits

def vpnBits (vaddr : BitVec 64) : Nat → BitVec 64
  | 0 => vaddr >>> 12 &&& 0x1ff#64
  | 1 => vaddr >>> 21 &&& 0x1ff#64
  | _ => vaddr >>> 30 &&& 0x1ff#64

theorem vpnBits_lt (vaddr : BitVec 64) (i : Nat) : (vpnBits vaddr i).toNat < 512 := by
  have small : ∀ x : BitVec 64, (x &&& 0x1ff#64).toNat < 512 := by
    intro x
    rw [BitVec.toNat_and]
    exact lt_of_le_of_lt Nat.and_le_right (by decide)
  unfold vpnBits
  split <;> exact small _

def vpn (vaddr : BitVec 64) (i : Nat) : Fin 512 := ⟨(vpnBits vaddr i).toNat, vpnBits_lt vaddr i⟩

/-- `v2p` at a leaf of level `i`: superpages keep more offset bits. -/
def leafAddress (i : Nat) (e : Entry) (vaddr : BitVec 64) : BitVec 64 :=
  let offMask := (1#64 <<< (12 + 9 * i)) - 1#64
  ((e <<< 2) &&& ~~~offMask) ||| (vaddr &&& offMask)

/-! ## Memory and the two walks -/

abbrev Mem := Nat → Entry

def Mem.write (m : Mem) (addr : Nat) (e : Entry) : Mem := Function.update m addr e

def Mem.zeroPage (m : Mem) (page : Nat) : Mem :=
  fun addr => if page ≤ addr ∧ addr < page + pageSize then 0 else m addr

def entryAddr (base : Nat) (index : Fin 512) : Nat := base + 8 * index.val

inductive Panic where
  /-- `assert!(bits.bits() & PteFlags::RWX.bits() != 0)` -/
  | notALeaf
  /-- "failed to allocate page for page table" -/
  | outOfFrames
  /-- `as_mut().unwrap()` on a null entry pointer -/
  | nullEntry
  deriving DecidableEq, Repr

section Map
variable {σ : Type} (allocate : σ → Option (Nat × σ))

def zallocate (m : Mem) (s : σ) : Option (Nat × Mem × σ) :=
  (allocate s).map fun (page, s') => (page, m.zeroPage page, s')

def ensureTable (v : Nat) (m : Mem) (s : σ) : Except Panic (Mem × σ) :=
  if isInvalid (m v) then
    match zallocate allocate m s with
    | none => .error .outOfFrames
    | some (page, m', s') => .ok (m'.write v (branchTo page), s')
  else .ok (m, s)

/-- The loop `for i in (level..2).rev()` from iteration `i` on; `v` is the address of the
current entry. -/
def descend (vaddr : BitVec 64) (level : Nat) :
    Nat → Nat → Mem → σ → Except Panic (Nat × Mem × σ)
  | 0, v, m, s => .ok (v, m, s)
  | i + 1, v, m, s =>
      if i < level then .ok (v, m, s)
      else
        match ensureTable allocate v m s with
        | .error panic => .error panic
        | .ok (m', s') =>
            let next := entryAddr (tableOf (m' v)) (vpn vaddr i)
            if next = 0 then .error .nullEntry
            else descend vaddr level i next m' s'

def map (root : Nat) (vaddr paddr : BitVec 64) (bits : PteFlags) (level : Nat) (m : Mem)
    (s : σ) : Except Panic (Mem × σ) :=
  if bits.bits &&& PteFlags.RWX.bits = 0 then .error .notALeaf
  else
    match descend allocate vaddr level 2 (entryAddr root (vpn vaddr 2)) m s with
    | .error panic => .error panic
    | .ok (v, m', s') => .ok (m'.write v (leafEntry paddr bits), s')

end Map

/-- The loop of `v2p` from level `i` on, at the entry with address `v`. -/
def walk (m : Mem) (vaddr : BitVec 64) : Nat → Nat → Except Panic (Option (BitVec 64))
  | i, v =>
      if isInvalid (m v) then .ok none
      else if isLeaf (m v) then .ok (some (leafAddress i (m v) vaddr))
      else
        match i with
        | 0 => .ok none
        | i' + 1 =>
            let next := entryAddr (tableOf (m v)) (vpn vaddr i')
            if next = 0 then .error .nullEntry else walk m vaddr i' next

def v2p (m : Mem) (root : Nat) (vaddr : BitVec 64) : Except Panic (Option (BitVec 64)) :=
  walk m vaddr 2 (entryAddr root (vpn vaddr 2))

end Vesper.Mm.Sv39
