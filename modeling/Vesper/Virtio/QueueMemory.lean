import Mathlib.Tactic
import Vesper.Lib.ByteMemory
import Vesper.Virtio.Queue
import Vesper.Virtio.Setup

/-!
# The queue as bytes

`Descriptor`, `AvailRing`, `UsedRing` and `Request` (`drivers/virtio/spec.rs`) as they lie in
memory, with the stores by which driver and device change them.  The driver has three pointers
into the queue pages; the device computes its own from the page number it is given, by the
layout of the legacy interface.  The page number is taken from the low 32 bits of the address,
so that the two agree exactly for queues below 4 GiB.
-/

set_option autoImplicit false

namespace Vesper.Virtio

open Vesper.Lib.ByteMemory
open Vesper.Mm.PageFrame (pageSize pageSize_eq nextMultipleOf)

/-! ## Where the parts are -/

structure Pointers where
  desc : Nat
  avail : Nat
  used : Nat
  descAvail : desc + 128 ≤ avail
  availUsed : avail + 22 ≤ used

theorem descBytes_toNat : Setup.descBytes.toNat = 128 := by decide

theorem usedOffset_toNat : Setup.usedOffset.toNat = 4096 := by decide

theorem queue_descAvail (base : Nat) : base + 128 ≤ base + Setup.descBytes.toNat := by
  rw [descBytes_toNat]

theorem queue_availUsed (base : Nat) :
    base + Setup.descBytes.toNat + 22 ≤ base + Setup.usedOffset.toNat := by
  rw [descBytes_toNat, usedOffset_toNat]
  omega

/-- The pointers `setup_block_device` stores. -/
def Pointers.ofQueue (queueMem : Nat) : Pointers where
  desc := queueMem
  avail := queueMem + Setup.descBytes.toNat
  used := queueMem + Setup.usedOffset.toNat
  descAvail := queue_descAvail queueMem
  availUsed := queue_availUsed queueMem

/-- The value `setup_block_device` writes to `QueuePfn`. -/
def queuePfn (queueMem : Nat) : BitVec 32 := BitVec.ofNat 32 queueMem / BitVec.ofNat 32 pageSize

def legacyAvailEnd (num : Nat) : Nat := 16 * num + 2 * (3 + num)

theorem legacy_availUsed (base : Nat) :
    base + 16 * 8 + 22 ≤ base + nextMultipleOf (legacyAvailEnd 8) 4096 := by
  rw [show nextMultipleOf (legacyAvailEnd 8) 4096 = 4096 by decide]
  omega

/-- The legacy layout with eight entries, an alignment of one page and pages of 4 KiB. -/
def Pointers.ofPfn (pfn : BitVec 32) : Pointers where
  desc := pfn.toNat * 4096
  avail := pfn.toNat * 4096 + 16 * 8
  used := pfn.toNat * 4096 + nextMultipleOf (legacyAvailEnd 8) 4096
  descAvail := le_rfl
  availUsed := legacy_availUsed _

theorem Pointers.ext_desc {p q : Pointers} (desc : p.desc = q.desc) (avail : p.avail = q.avail)
    (used : p.used = q.used) : p = q := by
  cases p
  cases q
  cases desc
  cases avail
  cases used
  rfl

theorem ofPfn_desc {queueMem : Nat} (aligned : queueMem % 4096 = 0) :
    (Pointers.ofPfn (queuePfn queueMem)).desc = queueMem % 2 ^ 32 := by
  have number : (queuePfn queueMem).toNat = queueMem % 2 ^ 32 / 4096 := by
    rw [queuePfn, BitVec.toNat_udiv, BitVec.toNat_ofNat, BitVec.toNat_ofNat, pageSize_eq]
  change (queuePfn queueMem).toNat * 4096 = _
  rw [number]
  omega

/-- The device finds the rings where the driver has them, unless the queue lies too high. -/
theorem ofPfn_eq_iff {queueMem : Nat} (aligned : queueMem % 4096 = 0) :
    Pointers.ofPfn (queuePfn queueMem) = Pointers.ofQueue queueMem ↔ queueMem < 2 ^ 32 := by
  have found := ofPfn_desc aligned
  constructor
  · intro same
    have desc : queueMem % 2 ^ 32 = queueMem := found.symm.trans (congrArg Pointers.desc same)
    rw [← desc]
    exact Nat.mod_lt _ (by decide)
  · intro low
    rw [Nat.mod_eq_of_lt low] at found
    have start : (queuePfn queueMem).toNat * 4096 = queueMem := found
    refine Pointers.ext_desc found ?_ ?_
    · change (queuePfn queueMem).toNat * 4096 + 16 * 8 = queueMem + Setup.descBytes.toNat
      rw [start, descBytes_toNat]
    · change (queuePfn queueMem).toNat * 4096 + nextMultipleOf (legacyAvailEnd 8) 4096 =
        queueMem + Setup.usedOffset.toNat
      rw [start, usedOffset_toNat]
      rfl

/-! ## Reading and writing -/

section Fields
variable (m : Mem) (q : Pointers)

def readDesc (i : Index) : Descriptor where
  addr := load m (q.desc + 16 * i) 8
  len := BitVec.ofNat 32 (load m (q.desc + 16 * i + 8) 4)
  flags := BitVec.ofNat 16 (load m (q.desc + 16 * i + 12) 2)
  next := BitVec.ofNat 16 (load m (q.desc + 16 * i + 14) 2)

def readAvail : AvailRing where
  idx := BitVec.ofNat 16 (load m (q.avail + 2) 2)
  ring i := BitVec.ofNat 16 (load m (q.avail + 4 + 2 * i) 2)

def readElem (i : Index) : UsedElem where
  id := BitVec.ofNat 32 (load m (q.used + 4 + 8 * i) 4)
  len := BitVec.ofNat 32 (load m (q.used + 4 + 8 * i + 4) 4)

def readUsed : UsedRing where
  idx := BitVec.ofNat 16 (load m (q.used + 2) 2)
  ring := readElem m q

def readRequest (page : Nat) : Request where
  header :=
    { blktype := BitVec.ofNat 32 (load m page 4)
      reserved := BitVec.ofNat 32 (load m (page + 4) 4)
      sector := BitVec.ofNat 64 (load m (page + 8) 8) }
  data := load m (page + 16) 8

end Fields

section Stores
variable (q : Pointers)

def descStores (i : Index) (d : Descriptor) : List Store :=
  [⟨q.desc + 16 * i, 8, d.addr⟩, ⟨q.desc + 16 * i + 8, 4, d.len.toNat⟩,
    ⟨q.desc + 16 * i + 12, 2, d.flags.toNat⟩, ⟨q.desc + 16 * i + 14, 2, d.next.toNat⟩]

def ringStore (i : Index) (head : BitVec 16) : Store := ⟨q.avail + 4 + 2 * i, 2, head.toNat⟩

def availIdxStore (idx : BitVec 16) : Store := ⟨q.avail + 2, 2, idx.toNat⟩

/-- The device writes the element before it moves the index. -/
def usedStores (i : Index) (elem : UsedElem) (idx : BitVec 16) : List Store :=
  [⟨q.used + 4 + 8 * i, 4, elem.id.toNat⟩, ⟨q.used + 4 + 8 * i + 4, 4, elem.len.toNat⟩,
    ⟨q.used + 2, 2, idx.toNat⟩]

def requestStores (page : Nat) (op : Op) : List Store :=
  [⟨page, 4, (requestOf op).header.blktype.toNat⟩, ⟨page + 4, 4, 0⟩,
    ⟨page + 8, 8, (requestOf op).header.sector.toNat⟩, ⟨page + 16, 8, op.buffer⟩,
    ⟨statusAddr page, 1, statusPending.toNat⟩]

end Stores

/-! ## What a store changes -/

section Reads
variable {m m' : Mem} {q : Pointers} {stores : List Store}

theorem readDesc_congr {i : Index}
    (same : ∀ a, q.desc + 16 * i ≤ a → a < q.desc + 16 * i + 16 → m a = m' a) :
    readDesc m q i = readDesc m' q i := by
  simp only [readDesc, Descriptor.mk.injEq]
  refine ⟨load_congr fun a low high => same a (by omega) (by omega), ?_, ?_, ?_⟩ <;>
    exact congrArg _ (load_congr fun a low high => same a (by omega) (by omega))

theorem readAvail_congr (same : ∀ a, q.avail ≤ a → a < q.avail + 22 → m a = m' a) :
    readAvail m q = readAvail m' q := by
  simp only [readAvail, AvailRing.mk.injEq]
  refine ⟨congrArg _ (load_congr fun a low high => same a (by omega) (by omega)), ?_⟩
  funext i
  have small := i.isLt
  exact congrArg _ (load_congr fun a low high => same a (by omega) (by omega))

theorem readUsed_congr (same : ∀ a, q.used ≤ a → a < q.used + 72 → m a = m' a) :
    readUsed m q = readUsed m' q := by
  simp only [readUsed, UsedRing.mk.injEq]
  refine ⟨congrArg _ (load_congr fun a low high => same a (by omega) (by omega)), ?_⟩
  funext i
  have small := i.isLt
  simp only [readElem, UsedElem.mk.injEq]
  constructor <;> exact congrArg _ (load_congr fun a low high => same a (by omega) (by omega))

theorem readRequest_congr {page : Nat} (same : ∀ a, page ≤ a → a < page + 24 → m a = m' a) :
    readRequest m page = readRequest m' page := by
  simp only [readRequest, Request.mk.injEq, Header.mk.injEq]
  refine ⟨⟨?_, ?_, ?_⟩, load_congr fun a low high => same a (by omega) (by omega)⟩ <;>
    exact congrArg _ (load_congr fun a low high => same a (by omega) (by omega))

theorem readDesc_clear {i : Index} (clear : Clear stores (q.desc + 16 * i) 16) :
    readDesc (applyAll stores m) q i = readDesc m q i :=
  readDesc_congr fun _ low high => applyAll_outside (clear.outside low high)

theorem readAvail_clear (clear : Clear stores q.avail 22) :
    readAvail (applyAll stores m) q = readAvail m q :=
  readAvail_congr fun _ low high => applyAll_outside (clear.outside low high)

theorem readUsed_clear (clear : Clear stores q.used 72) :
    readUsed (applyAll stores m) q = readUsed m q :=
  readUsed_congr fun _ low high => applyAll_outside (clear.outside low high)

theorem descStores_clear {i j : Index} (apart : j ≠ i) (d : Descriptor) :
    Clear (descStores q i d) (q.desc + 16 * j) 16 := by
  have other : j.val ≠ i.val := fun same => apart (Fin.ext same)
  simp only [Clear, descStores, List.forall_mem_cons, List.not_mem_nil, false_imp_iff,
    implies_true, and_true]
  omega

theorem descStores_apart (i : Index) (d : Descriptor) :
    (descStores q i d).Pairwise Store.Apart := by
  simp [descStores, Store.Apart]

theorem readDesc_stored (i : Index) {d : Descriptor} (small : d.addr < 2 ^ 64) (m : Mem) :
    readDesc (applyAll (descStores q i d) m) q i = d := by
  have apart : (descStores q i d).Pairwise Store.Apart := descStores_apart i d
  have addr := load_applyAll_mem (s := ⟨q.desc + 16 * i, 8, d.addr⟩) apart (by simp [descStores]) m
  dsimp only at addr
  rw [Nat.mod_eq_of_lt (by omega)] at addr
  rw [readDesc, addr, ofNat_load_mem d.len rfl apart (by simp [descStores]),
    ofNat_load_mem d.flags rfl apart (by simp [descStores]),
    ofNat_load_mem d.next rfl apart (by simp [descStores])]

theorem readDesc_descStores (i : Index) {d : Descriptor} (small : d.addr < 2 ^ 64) (m : Mem) :
    readDesc (applyAll (descStores q i d) m) q = Function.update (readDesc m q) i d := by
  funext j
  by_cases same : j = i
  · rw [same, Function.update_self, readDesc_stored i small]
  · rw [Function.update_of_ne same, readDesc_clear (descStores_clear same d)]

def exposeStores (q : Pointers) (i : Index) (head idx : BitVec 16) : List Store :=
  [ringStore q i head, availIdxStore q idx]

theorem readAvail_exposeStores (i : Index) (head idx : BitVec 16) (m : Mem) :
    readAvail (applyAll (exposeStores q i head idx) m) q =
      ⟨idx, Function.update (readAvail m q).ring i head⟩ := by
  have apart : (exposeStores q i head idx).Pairwise Store.Apart := by
    simp [exposeStores, ringStore, availIdxStore, Store.Apart]
  rw [readAvail, ofNat_load_mem idx rfl apart (by simp [exposeStores, availIdxStore])]
  congr 1
  funext j
  by_cases same : j = i
  · rw [same, Function.update_self,
      ofNat_load_mem head rfl apart (by simp [exposeStores, ringStore])]
  · have other : j.val ≠ i.val := fun equal => same (Fin.ext equal)
    have clear : Clear (exposeStores q i head idx) (q.avail + 4 + 2 * j) 2 := by
      simp [Clear, exposeStores, ringStore, availIdxStore]
      omega
    rw [Function.update_of_ne same, load_applyAll_clear clear]
    rfl

theorem readUsed_usedStores (i : Index) (elem : UsedElem) (idx : BitVec 16) (m : Mem) :
    readUsed (applyAll (usedStores q i elem idx) m) q =
      ⟨idx, Function.update (readUsed m q).ring i elem⟩ := by
  have apart : (usedStores q i elem idx).Pairwise Store.Apart := by
    simp [usedStores, Store.Apart]
    omega
  rw [readUsed, ofNat_load_mem idx rfl apart (by simp [usedStores])]
  congr 1
  funext j
  by_cases same : j = i
  · rw [same, Function.update_self, readElem,
      ofNat_load_mem elem.id rfl apart (by simp [usedStores]),
      ofNat_load_mem elem.len rfl apart (by simp [usedStores])]
  · have other : j.val ≠ i.val := fun equal => same (Fin.ext equal)
    have clear : Clear (usedStores q i elem idx) (q.used + 4 + 8 * j) 4 ∧
        Clear (usedStores q i elem idx) (q.used + 4 + 8 * j + 4) 4 := by
      simp [Clear, usedStores]
      omega
    rw [Function.update_of_ne same, readElem, load_applyAll_clear clear.1,
      load_applyAll_clear clear.2]
    rfl

theorem requestStores_stored (page : Nat) {op : Op} (small : op.buffer < 2 ^ 64) (m : Mem) :
    readRequest (applyAll (requestStores page op) m) page = requestOf op ∧
      applyAll (requestStores page op) m (statusAddr page) = statusPending := by
  have apart : (requestStores page op).Pairwise Store.Apart := by
    simp [requestStores, Store.Apart, statusAddr]
  constructor
  · have data := load_applyAll_mem (s := ⟨page + 16, 8, op.buffer⟩) apart
      (by simp [requestStores]) m
    dsimp only at data
    rw [Nat.mod_eq_of_lt (by omega)] at data
    rw [readRequest, data,
      ofNat_load_mem (requestOf op).header.blktype rfl apart (by simp [requestStores]),
      ofNat_load_mem (0 : BitVec 32) rfl apart (by simp [requestStores]),
      ofNat_load_mem (requestOf op).header.sector rfl apart (by simp [requestStores])]
    rfl
  · simp [requestStores, Store.apply, Store.covers, statusPending]

end Reads

end Vesper.Virtio
