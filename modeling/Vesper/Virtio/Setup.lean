import Vesper.Mm.HeapBounds
import Vesper.Virtio.Spurious

/-!
# Setting up a block device

`setup_block_device` negotiates with a device over its registers, allocates the queue pages,
tells the device where they are, registers the device and only then sets `DRIVER_OK`.  Any
register access may fault.  Up to the allocation a failure leaves nothing behind; the two
accesses behind it return `false` as well, but undo neither the allocation nor the
registration.
-/

set_option autoImplicit false

namespace Vesper.Virtio.Setup

open Vesper.Lib.FirstFit
open Vesper.Mm.PageFrame (Heap pageSize)

/-! ## Registers -/

inductive MmioOffset where
  | magicValue
  | deviceId
  | hostFeatures
  | guestFeatures
  | guestPageSize
  | queueSel
  | queueNumMax
  | queueNum
  | queueAlign
  | queuePfn
  | status
  deriving DecidableEq, Repr

def acknowledge : BitVec 32 := 1
def driver : BitVec 32 := 2
def driverOk : BitVec 32 := 4
def featuresOk : BitVec 32 := 8
def failed : BitVec 32 := 128

def blkReadOnly : BitVec 32 := 1 <<< 5

def ringSize : BitVec 32 := 8

inductive Access where
  | read (off : MmioOffset)
  | write (off : MmioOffset) (val : BitVec 32)
  deriving DecidableEq, Repr

/-- What the `n`-th access meets: `none` is an access fault, otherwise the value a read
returns. -/
abbrev Bus := Nat → Option (BitVec 32)

/-! ## The statics -/

abbrev Slot := Fin 8

structure DevicePtr where
  addr : Nat
  low : mmioVirtioStart ≤ addr
  high : (addr - mmioVirtioStart) >>> 12 < 8

def devSlotFromPtr (ptr : DevicePtr) : Slot := ⟨(ptr.addr - mmioVirtioStart) >>> 12, ptr.high⟩

/-- `BlockDevice` as it stands in `BLOCK_DEVICES`: the queue by its three pointers. -/
structure BlockEntry where
  dev : Nat
  desc : Nat
  avail : Nat
  used : Nat
  free : Index → Bool
  reqHead : Index → Nat
  ackUsedIdx : BitVec 16
  readOnly : Bool

def BlockEntry.empty : BlockEntry := ⟨0, 0, 0, 0, fun _ => true, fun _ => 0, 0, false⟩

inductive DeviceType where
  | block
  | entropy
  | unknown
  deriving DecidableEq, Repr

/-- `BLOCK_DEVICES`, `VIRTIO_DEVICES`, the allocator and the register accesses made so far. -/
structure Sys (h : Heap) where
  blockDevices : Slot → BlockEntry
  virtioDevices : Slot → Option DeviceType
  pages : Mm.PageFrame.State h
  log : List Access

variable {h : Heap}

def Sys.after (s : Sys h) (a : Access) : Sys h := { s with log := s.log ++ [a] }

def mmioRead32 (bus : Bus) (off : MmioOffset) (s : Sys h) : Option (BitVec 32) × Sys h :=
  (bus s.log.length, s.after (.read off))

def mmioWrite32 (bus : Bus) (off : MmioOffset) (val : BitVec 32) (s : Sys h) : Bool × Sys h :=
  ((bus s.log.length).isSome, s.after (.write off val))

/-- `if !mmio_write32(..) { return false; }` -/
def ifWritten (answer : Bool × Sys h) (next : Sys h → Bool × Sys h) : Bool × Sys h :=
  if answer.1 then next answer.2 else (false, answer.2)

/-- `let Some(value) = mmio_read32(..) else { return false; };` -/
def ifRead (answer : Option (BitVec 32) × Sys h) (next : BitVec 32 → Sys h → Bool × Sys h) :
    Bool × Sys h :=
  match answer.1 with
  | none => (false, answer.2)
  | some value => next value answer.2

/-! ## The queue pages -/

def alignUp (value align : BitVec 64) : BitVec 64 := (value + align - 1) &&& ~~~(align - 1)

def descBytes : BitVec 64 := 16 * 8

def availBytes : BitVec 64 := 22

def usedBytes : BitVec 64 := 72

def pageBytes : BitVec 64 := BitVec.ofNat 64 pageSize

def usedOffset : BitVec 64 := alignUp (descBytes + availBytes) pageBytes

def queuePages : Nat := (alignUp (usedOffset + usedBytes) pageBytes / pageBytes).toNat

theorem queuePages_eq : queuePages = 2 := by decide

def zallocate (count : Nat) (s : Sys h) : Option (Nat × Sys h) :=
  (Mm.PageFrame.zallocate count s.pages).map fun (page, pages) => (page, { s with pages := pages })

/-! ## The handshake -/

/-- `setup_block_device` from the allocation of the queue pages on. -/
def attachQueue (bus : Bus) (ptr : DevicePtr) (readOnly : Bool) (statusBits : BitVec 32)
    (s : Sys h) : Bool × Sys h :=
  match zallocate queuePages s with
  | none => (false, (mmioWrite32 bus .status failed s).2)
  | some (queueMem, s) =>
      let pfn := BitVec.ofNat 32 queueMem / BitVec.ofNat 32 pageSize
      ifWritten (mmioWrite32 bus .queuePfn pfn s) fun s =>
        let entry : BlockEntry :=
          { BlockEntry.empty with
            dev := ptr.addr
            desc := queueMem
            avail := queueMem + descBytes.toNat
            used := queueMem + usedOffset.toNat
            readOnly := readOnly }
        let s :=
          { s with
            blockDevices := Function.update s.blockDevices (devSlotFromPtr ptr) entry
            virtioDevices := Function.update s.virtioDevices (devSlotFromPtr ptr) (some .block) }
        ifWritten (mmioWrite32 bus .status (statusBits ||| driverOk) s) fun s => (true, s)

def setupBlockDevice (bus : Bus) (ptr : DevicePtr) (s : Sys h) : Bool × Sys h :=
  ifWritten (mmioWrite32 bus .status 0 s) fun s =>
  ifWritten (mmioWrite32 bus .status acknowledge s) fun s =>
  ifWritten (mmioWrite32 bus .status (acknowledge ||| driver) s) fun s =>
  ifRead (mmioRead32 bus .hostFeatures s) fun hostFeatures s =>
  let guestFeatures := hostFeatures &&& ~~~blkReadOnly
  let readOnly := hostFeatures &&& blkReadOnly != 0
  ifWritten (mmioWrite32 bus .guestFeatures guestFeatures s) fun s =>
  let statusBits := acknowledge ||| driver ||| featuresOk
  ifWritten (mmioWrite32 bus .status statusBits s) fun s =>
  ifRead (mmioRead32 bus .status s) fun statusOk s =>
  if statusOk &&& featuresOk = 0 then (false, (mmioWrite32 bus .status failed s).2)
  else
    ifWritten (mmioWrite32 bus .queueSel 0 s) fun s =>
    ifRead (mmioRead32 bus .queueNumMax s) fun qnmax s =>
    if qnmax < ringSize then (false, (mmioWrite32 bus .status failed s).2)
    else
      ifWritten (mmioWrite32 bus .queueNum ringSize s) fun s =>
      ifWritten (mmioWrite32 bus .queueAlign (BitVec.ofNat 32 pageSize) s) fun s =>
      ifWritten (mmioWrite32 bus .guestPageSize (BitVec.ofNat 32 pageSize) s) fun s =>
      attachQueue bus ptr readOnly statusBits s

def firstBlockDevice (s : Sys h) : Option Slot :=
  (List.finRange 8).find? fun slot => (s.blockDevices slot).dev != 0

def irq (entry : BlockEntry) : Option Nat :=
  if entry.dev = 0 then none else some (1 + (entry.dev - mmioVirtioStart) >>> 12)

def configuredIrqs (s : Sys h) : Slot → Option Nat := fun slot => irq (s.blockDevices slot)

/-! ## What a failure leaves behind -/

/-- The handshake has made `k` register accesses since `s` and done nothing else. -/
structure Stage (s s' : Sys h) (k : Nat) : Prop where
  blockDevices : s'.blockDevices = s.blockDevices
  virtioDevices : s'.virtioDevices = s.virtioDevices
  pages : s'.pages = s.pages
  accesses : s'.log.length = s.log.length + k

def NoTrace (s : Sys h) (result : Bool × Sys h) : Prop :=
  result.1 = false → result.2.blockDevices = s.blockDevices ∧
    result.2.virtioDevices = s.virtioDevices ∧ result.2.pages.table = s.pages.table

/-- The answers from access `n` on let the handshake come to the allocation. -/
structure Negotiated (bus : Bus) (n : Nat) : Prop where
  answered : ∀ k < 12, (bus (n + k)).isSome = true
  features : ∀ value, bus (n + 6) = some value → value &&& featuresOk ≠ 0
  queueSize : ∀ value, bus (n + 8) = some value → ringSize ≤ value

theorem after_length (s : Sys h) (a : Access) : (s.after a).log.length = s.log.length + 1 := by
  rw [Sys.after, List.length_append, List.length_singleton]

section Chain
variable {bus : Bus} {s s' : Sys h} {k : Nat}

theorem Stage.refl (s : Sys h) : Stage s s 0 := ⟨rfl, rfl, rfl, rfl⟩

theorem Stage.after (stage : Stage s s' k) (a : Access) : Stage s (s'.after a) (k + 1) :=
  ⟨stage.blockDevices, stage.virtioDevices, stage.pages, by
    rw [after_length, stage.accesses, Nat.add_assoc]⟩

theorem Stage.noTrace (stage : Stage s s' k) (result : Bool) : NoTrace s (result, s') :=
  fun _ => ⟨stage.blockDevices, stage.virtioDevices, congrArg _ stage.pages⟩

variable {off : MmioOffset} {reaches P : Prop}

/-- A write that faults leaves no trace, and one that does not leaves the answer to the
rest, which gets on only if the write was served. -/
theorem noTrace_write (stage : Stage s s' k) {val : BitVec 32} {next : Sys h → Bool × Sys h}
    (needed : reaches → (bus (s.log.length + k)).isSome = true)
    (rest : (bus (s.log.length + k)).isSome = true → ∀ s'', Stage s s'' (k + 1) →
      (NoTrace s (next s'') ↔ (reaches → P))) :
    NoTrace s (ifWritten (mmioWrite32 bus off val s') next) ↔ (reaches → P) := by
  unfold ifWritten mmioWrite32
  rw [← stage.accesses] at needed rest
  dsimp only
  split_ifs with served
  · exact rest served _ (stage.after _)
  · exact ⟨fun _ got => absurd (needed got) served, fun _ => (stage.after _).noTrace false⟩

theorem noTrace_read (stage : Stage s s' k) {next : BitVec 32 → Sys h → Bool × Sys h}
    (needed : reaches → (bus (s.log.length + k)).isSome = true)
    (rest : ∀ value, bus (s.log.length + k) = some value → ∀ s'', Stage s s'' (k + 1) →
      (NoTrace s (next value s'') ↔ (reaches → P))) :
    NoTrace s (ifRead (mmioRead32 bus off s') next) ↔ (reaches → P) := by
  unfold ifRead mmioRead32
  rw [← stage.accesses] at needed rest
  dsimp only
  split
  · next fault =>
      rw [fault] at needed
      exact ⟨fun _ got => absurd (needed got) Bool.false_ne_true,
        fun _ => (stage.after _).noTrace false⟩
  · next value answer => exact rest value answer _ (stage.after _)

theorem noTrace_failed (stage : Stage s s' k) (off : ¬ reaches) :
    NoTrace s (false, (mmioWrite32 bus .status failed s').2) ↔ (reaches → P) :=
  ⟨fun _ got => absurd got off, fun _ => (stage.after _).noTrace false⟩

end Chain

section Setup
variable {bus : Bus} {s s' : Sys h} {ptr : DevicePtr} {live : Finset Run}

theorem zallocate_cases (trace : Mm.PageFrame.Trace h s.pages live)
    (same : s'.pages = s.pages) :
    (zallocate queuePages s' = none ∧
        ∀ i, ¬ Mm.PageFrame.FreeWindow s.pages.table queuePages i) ∨
      ∃ page pages, zallocate queuePages s' = some (page, { s' with pages := pages }) ∧
        (∃ i, Mm.PageFrame.FreeWindow s.pages.table queuePages i) ∧
        pages.table ≠ s.pages.table := by
  obtain ⟨pool, _, refines⟩ := Mm.PageFrame.trace_refines trace
  have pos : 0 < queuePages := by decide
  unfold zallocate
  rw [same]
  rcases Mm.PageFrame.zallocate_cases refines pos with
    ⟨full, none⟩ | ⟨i, pages, fit, success, _⟩
  · refine .inl ⟨by rw [full]; rfl, fun i window => none i ?_⟩
    exact refines.table.freeWindow_iff_window.mp window
  · exact .inr ⟨_, pages, by rw [success]; rfl,
      ⟨i, refines.table.freeWindow_iff_window.mpr fit.1⟩,
      Mm.PageFrame.allocate_table_ne refines pos (Mm.PageFrame.allocate_of_zallocate success)⟩

/-- No queue pages, or both accesses behind their allocation are served. -/
def Committed (bus : Bus) (s : Sys h) : Prop :=
  (∀ i, ¬ Mm.PageFrame.FreeWindow s.pages.table queuePages i) ∨
    (bus (s.log.length + 12)).isSome = true ∧ (bus (s.log.length + 13)).isSome = true

theorem attachQueue_noTrace_iff (trace : Mm.PageFrame.Trace h s.pages live)
    (stage : Stage s s' 12) (readOnly : Bool) (statusBits : BitVec 32) :
    NoTrace s (attachQueue bus ptr readOnly statusBits s') ↔ Committed bus s := by
  unfold attachQueue Committed
  rcases zallocate_cases trace stage.pages with
    ⟨failed, none⟩ | ⟨page, pages, success, some, changed⟩
  · rw [failed]
    exact ⟨fun _ => .inl none, fun _ => (stage.after _).noTrace false⟩
  · rw [success]
    dsimp only [ifWritten, mmioWrite32]
    simp only [after_length, stage.accesses]
    have fails {s'' : Sys h} (kept : s''.pages = pages) : ¬ NoTrace s (false, s'') := by
      intro clean
      obtain ⟨_, _, same⟩ := clean rfl
      rw [kept] at same
      exact changed same
    have more : ¬ ∀ i, ¬ Mm.PageFrame.FreeWindow s.pages.table queuePages i :=
      fun none => some.elim none
    split_ifs with first second
    · exact ⟨fun _ => .inr ⟨first, second⟩, fun _ done => by cases done⟩
    · refine ⟨fun clean => absurd clean (fails rfl), fun condition => ?_⟩
      exact absurd (condition.resolve_left more).2 second
    · refine ⟨fun clean => absurd clean (fails rfl), fun condition => ?_⟩
      exact absurd (condition.resolve_left more).1 first

/-- A failed setup leaves no trace exactly if the handshake fails before the allocation, the
queue pages are not to be had, or neither access behind the allocation faults. -/
theorem failed_setup_no_trace_iff (bus : Bus) (ptr : DevicePtr) (s : Sys h) (live : Finset Run)
    (trace : Mm.PageFrame.Trace h s.pages live) :
    NoTrace s (setupBlockDevice bus ptr s) ↔
      (Negotiated bus s.log.length → Committed bus s) := by
  have needed (k : Nat) (small : k < 12) (all : Negotiated bus s.log.length) :=
    all.answered k small
  unfold setupBlockDevice
  refine noTrace_write (Stage.refl s) (needed 0 (by decide)) fun a₀ _ stage => ?_
  refine noTrace_write stage (needed 1 (by decide)) fun a₁ _ stage => ?_
  refine noTrace_write stage (needed 2 (by decide)) fun a₂ _ stage => ?_
  refine noTrace_read stage (needed 3 (by decide)) fun hostFeatures a₃ _ stage => ?_
  refine noTrace_write stage (needed 4 (by decide)) fun a₄ _ stage => ?_
  refine noTrace_write stage (needed 5 (by decide)) fun a₅ _ stage => ?_
  refine noTrace_read stage (needed 6 (by decide)) fun statusOk a₆ _ stage => ?_
  split_ifs with refused
  · exact noTrace_failed stage fun all => all.features statusOk a₆ refused
  refine noTrace_write stage (needed 7 (by decide)) fun a₇ _ stage => ?_
  refine noTrace_read stage (needed 8 (by decide)) fun qnmax a₈ _ stage => ?_
  split_ifs with short
  · exact noTrace_failed stage fun all => absurd (all.queueSize qnmax a₈) (BitVec.not_le.mpr short)
  refine noTrace_write stage (needed 9 (by decide)) fun a₉ _ stage => ?_
  refine noTrace_write stage (needed 10 (by decide)) fun a₁₀ _ stage => ?_
  refine noTrace_write stage (needed 11 (by decide)) fun a₁₁ _ stage => ?_
  have all : Negotiated bus s.log.length := by
    refine ⟨fun k small => ?_, fun value answer => ?_, fun value answer => ?_⟩
    · interval_cases k
      · exact a₀
      · exact a₁
      · exact a₂
      · exact Option.isSome_of_mem a₃
      · exact a₄
      · exact a₅
      · exact Option.isSome_of_mem a₆
      · exact a₇
      · exact Option.isSome_of_mem a₈
      · exact a₉
      · exact a₁₀
      · exact a₁₁
    · rw [a₆, Option.some.injEq] at answer
      exact answer ▸ refused
    · rw [a₈, Option.some.injEq] at answer
      exact answer ▸ BitVec.not_lt.mp short
  exact (attachQueue_noTrace_iff trace stage _ _).trans (imp_iff_right all).symm

end Setup

section SmallHeap
open Vesper.Mm.PageFrame (smallHeap rawState PageDesc)

def bootSys : Sys smallHeap :=
  ⟨fun _ => BlockEntry.empty, fun _ => none, Mm.PageFrame.init rawState, []⟩

def firstDevice : DevicePtr := ⟨mmioVirtioStart, le_refl _, by decide⟩

def faultyAt (fault : Nat) : Bus := fun n => if n = fault then none else some 8

theorem failed_setup_no_trace_early :
    (setupBlockDevice (faultyAt 8) firstDevice bootSys).1 = false ∧
      NoTrace bootSys (setupBlockDevice (faultyAt 8) firstDevice bootSys) := by
  refine ⟨by decide, (failed_setup_no_trace_iff (faultyAt 8) firstDevice bootSys ∅
    (Mm.PageFrame.Trace.boot rawState)).mpr fun all => ?_⟩
  exact absurd (all.answered 8 (by decide)) (by decide)

/-- A fault on `QueuePfn` keeps both queue pages; a fault on the last `Status` write keeps
them too, and the device is the first block device although its setup failed. -/
theorem failed_setup_leaves_device :
    ((setupBlockDevice (faultyAt 12) firstDevice bootSys).1 = false ∧
      (setupBlockDevice (faultyAt 12) firstDevice bootSys).2.pages.table =
        [PageDesc.inner, PageDesc.final, PageDesc.free] ∧
      ¬ NoTrace bootSys (setupBlockDevice (faultyAt 12) firstDevice bootSys)) ∧
    (setupBlockDevice (faultyAt 13) firstDevice bootSys).1 = false ∧
      firstBlockDevice (setupBlockDevice (faultyAt 13) firstDevice bootSys).2 = some 0 ∧
      configuredIrqs (setupBlockDevice (faultyAt 13) firstDevice bootSys).2 0 = some 1 ∧
      (setupBlockDevice (faultyAt 13) firstDevice bootSys).2.pages.table =
        [PageDesc.inner, PageDesc.final, PageDesc.free] ∧
      ¬ NoTrace bootSys (setupBlockDevice (faultyAt 13) firstDevice bootSys) := by
  have taken : bootSys.pages.table ≠ [PageDesc.inner, PageDesc.final, PageDesc.free] := by
    decide
  have visible {r : Bool × Sys smallHeap} (failed : r.1 = false)
      (table : r.2.pages.table = [PageDesc.inner, PageDesc.final, PageDesc.free]) :
      ¬ NoTrace bootSys r := fun clean => taken ((clean failed).2.2.symm.trans table)
  have first : (setupBlockDevice (faultyAt 12) firstDevice bootSys).1 = false ∧
      (setupBlockDevice (faultyAt 12) firstDevice bootSys).2.pages.table =
        [PageDesc.inner, PageDesc.final, PageDesc.free] := by decide +kernel
  have second : (setupBlockDevice (faultyAt 13) firstDevice bootSys).1 = false ∧
      firstBlockDevice (setupBlockDevice (faultyAt 13) firstDevice bootSys).2 = some 0 ∧
      configuredIrqs (setupBlockDevice (faultyAt 13) firstDevice bootSys).2 0 = some 1 ∧
      (setupBlockDevice (faultyAt 13) firstDevice bootSys).2.pages.table =
        [PageDesc.inner, PageDesc.final, PageDesc.free] := by decide +kernel
  exact ⟨⟨first.1, first.2, visible first.1 first.2⟩, second.1, second.2.1, second.2.2.1,
    second.2.2.2, visible second.1 second.2.2.2⟩

end SmallHeap

end Vesper.Virtio.Setup
