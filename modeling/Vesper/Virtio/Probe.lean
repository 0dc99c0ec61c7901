import Mathlib.Tactic
import Vesper.Lib.EarlyExit
import Vesper.Virtio.Setup

/-!
# Probing the bus

`probe` goes through the eight device slots, reads magic value and device id, and sets up or
registers what it finds.  Whatever the registers answer and wherever an access faults, the
two device tables agree afterwards: a slot holds a block device in both or in neither, it
holds the address and the interrupt of its own slot, and its queue is a live run of the
page allocator that no other device shares.
-/

set_option autoImplicit false

namespace Vesper.Virtio.Setup

open Vesper.Lib.EarlyExit (foldl_finRange)
open Vesper.Lib.FirstFit
open Vesper.Mm.PageFrame (Heap Refines)

def mmioVirtioMagic : BitVec 32 := 0x74726976
def virtioDeviceBlock : BitVec 32 := 2
def virtioDeviceEntropy : BitVec 32 := 4

def slotPtr (slot : Slot) : DevicePtr where
  addr := mmioVirtioStart + mmioVirtioStride * slot
  low := Nat.le_add_right _ _
  high := by
    have := slot.isLt
    rw [Nat.add_sub_cancel_left, mmioVirtioStride, Nat.shiftRight_eq_div_pow]
    omega

theorem devSlotFromPtr_slotPtr (slot : Slot) : devSlotFromPtr (slotPtr slot) = slot := by
  apply Fin.ext
  simp only [devSlotFromPtr, slotPtr, mmioVirtioStride, Nat.add_sub_cancel_left,
    Nat.shiftRight_eq_div_pow]
  omega

variable {h : Heap}

def registerDevice (kind : DeviceType) (ptr : DevicePtr) (s : Sys h) : Sys h :=
  { s with virtioDevices := Function.update s.virtioDevices (devSlotFromPtr ptr) (some kind) }

def registerEntropyDevice (ptr : DevicePtr) (s : Sys h) : Sys h := registerDevice .entropy ptr s

def registerUnknownDevice (ptr : DevicePtr) (s : Sys h) : Sys h := registerDevice .unknown ptr s

def probeSlot (bus : Bus) (s : Sys h) (slot : Slot) : Sys h :=
  let ptr := slotPtr slot
  match mmioRead32 bus .magicValue s with
  | (none, s) => s
  | (some magicvalue, s) =>
      if magicvalue ≠ mmioVirtioMagic then s
      else
        match mmioRead32 bus .deviceId s with
        | (none, s) => s
        | (some deviceid, s) =>
            if deviceid = 0 then s
            else if deviceid = virtioDeviceBlock then (setupBlockDevice bus ptr s).2
            else if deviceid = virtioDeviceEntropy then registerEntropyDevice ptr s
            else registerUnknownDevice ptr s

def probe (bus : Bus) (s : Sys h) : Sys h := (List.finRange 8).foldl (probeSlot bus) s

/-! ## What the setup can do -/

section Outcomes
variable {bus : Bus} {s s' : Sys h} {k : Nat} {Q : Bool × Sys h → Prop}

theorem ifWritten_meets (stage : Stage s s' k) {off : MmioOffset} {val : BitVec 32}
    {next : Sys h → Bool × Sys h} (early : ∀ k s'', Stage s s'' k → Q (false, s''))
    (rest : ∀ s'', Stage s s'' (k + 1) → Q (next s'')) :
    Q (ifWritten (mmioWrite32 bus off val s') next) := by
  unfold ifWritten mmioWrite32
  dsimp only
  split_ifs
  · exact rest _ (stage.after _)
  · exact early _ _ (stage.after _)

theorem ifRead_meets (stage : Stage s s' k) {off : MmioOffset}
    {next : BitVec 32 → Sys h → Bool × Sys h} (early : ∀ k s'', Stage s s'' k → Q (false, s''))
    (rest : ∀ value s'', Stage s s'' (k + 1) → Q (next value s'')) :
    Q (ifRead (mmioRead32 bus off s') next) := by
  unfold ifRead mmioRead32
  dsimp only
  split
  · exact early _ _ (stage.after _)
  · exact rest _ _ (stage.after _)

/-- The handshake ends before the queue is allocated, with nothing but register accesses
made, or goes on to the allocation. -/
theorem setupBlockDevice_meets {ptr : DevicePtr}
    (early : ∀ k s', Stage s s' k → Q (false, s'))
    (late : ∀ s' readOnly statusBits, Stage s s' 12 →
      Q (attachQueue bus ptr readOnly statusBits s')) :
    Q (setupBlockDevice bus ptr s) := by
  unfold setupBlockDevice
  refine ifWritten_meets (Stage.refl s) early fun _ stage => ?_
  refine ifWritten_meets stage early fun _ stage => ?_
  refine ifWritten_meets stage early fun _ stage => ?_
  refine ifRead_meets stage early fun _ _ stage => ?_
  refine ifWritten_meets stage early fun _ stage => ?_
  refine ifWritten_meets stage early fun _ stage => ?_
  refine ifRead_meets stage early fun _ _ stage => ?_
  split_ifs
  · exact early _ _ (stage.after _)
  refine ifWritten_meets stage early fun _ stage => ?_
  refine ifRead_meets stage early fun _ _ stage => ?_
  split_ifs
  · exact early _ _ (stage.after _)
  refine ifWritten_meets stage early fun _ stage => ?_
  refine ifWritten_meets stage early fun _ stage => ?_
  refine ifWritten_meets stage early fun _ stage => ?_
  exact late _ _ _ stage

end Outcomes

/-! ## The tables -/

structure Registered (k : Nat) (s : Sys h) (pool : Pool h.pages) : Prop where
  pages : Refines s.pages pool
  ahead : ∀ slot : Slot, k ≤ slot → (s.blockDevices slot).dev = 0 ∧ s.virtioDevices slot = none
  kinds : ∀ slot, (s.blockDevices slot).dev ≠ 0 ↔ s.virtioDevices slot = some .block
  address : ∀ slot, (s.blockDevices slot).dev ≠ 0 →
    (s.blockDevices slot).dev = (slotPtr slot).addr
  queue : ∀ slot, (s.blockDevices slot).dev ≠ 0 →
    ∃ i, (s.blockDevices slot).desc = h.runAddr i ∧ ⟨i, queuePages⟩ ∈ pool.live
  apart : ∀ first second, (s.blockDevices first).dev ≠ 0 → (s.blockDevices second).dev ≠ 0 →
    (s.blockDevices first).desc = (s.blockDevices second).desc → first = second

namespace Registered
variable {k : Nat} {s s' : Sys h} {pool : Pool h.pages}

theorem mono (inv : Registered k s pool) {pool' : Pool h.pages} {k' : Nat}
    (block : s'.blockDevices = s.blockDevices) (kind : s'.virtioDevices = s.virtioDevices)
    (pages : Refines s'.pages pool') (grows : pool.live ⊆ pool'.live) (later : k ≤ k') :
    Registered k' s' pool' := by
  refine ⟨pages, ?_, ?_, ?_, ?_, ?_⟩
  · rw [block, kind]
    exact fun slot high => inv.ahead slot (later.trans high)
  · rw [block, kind]
    exact inv.kinds
  · rw [block]
    exact inv.address
  · rw [block]
    intro slot present
    obtain ⟨i, desc, live⟩ := inv.queue slot present
    exact ⟨i, desc, grows live⟩
  · rw [block]
    exact inv.apart

theorem stage (inv : Registered k s pool) {n : Nat} (quiet : Stage s s' n) :
    Registered k s' pool :=
  inv.mono quiet.blockDevices quiet.virtioDevices (by rw [quiet.pages]; exact inv.pages)
    (Finset.Subset.refl _) (le_refl k)

theorem next (inv : Registered k s pool) : Registered (k + 1) s pool :=
  inv.mono rfl rfl inv.pages (Finset.Subset.refl _) (Nat.le_succ k)

theorem registerDevice {slot : Slot} (inv : Registered slot s pool) {kind : DeviceType}
    (other : kind ≠ .block) :
    Registered (slot + 1) (Setup.registerDevice kind (slotPtr slot) s) pool := by
  have free := (inv.ahead slot (le_refl _)).1
  refine ⟨inv.pages, ?_, ?_, inv.address, inv.queue, inv.apart⟩
  · intro later high
    have apart : later ≠ slot := fun same => by
      subst same
      omega
    rw [Setup.registerDevice, devSlotFromPtr_slotPtr]
    dsimp only
    rw [Function.update_of_ne apart]
    exact inv.ahead later (by omega)
  · intro any
    rw [Setup.registerDevice, devSlotFromPtr_slotPtr]
    dsimp only
    by_cases here : any = slot
    · subst here
      rw [Function.update_self, free]
      exact iff_of_false (fun present => present rfl) fun same => other (Option.some.inj same)
    · rw [Function.update_of_ne here]
      exact inv.kinds any

theorem addBlock {slot : Slot} (inv : Registered slot s pool) {entry : BlockEntry} {i : Nat}
    (pos : 0 < queuePages) (window : pool.Window queuePages i)
    (block : s'.blockDevices = Function.update s.blockDevices slot entry)
    (kind : s'.virtioDevices = Function.update s.virtioDevices slot (some .block))
    (pages : Refines s'.pages (pool.take queuePages i pos window))
    (dev : entry.dev = (slotPtr slot).addr) (desc : entry.desc = h.runAddr i) :
    Registered (slot + 1) s' (pool.take queuePages i pos window) := by
  have present : entry.dev ≠ 0 := by
    rw [dev]
    exact Nat.ne_of_gt (Nat.lt_of_lt_of_le (by decide) (slotPtr slot).low)
  have old {any : Slot} (away : any ≠ slot) : s'.blockDevices any = s.blockDevices any := by
    rw [block, Function.update_of_ne away]
  have new : s'.blockDevices slot = entry := by rw [block, Function.update_self]
  -- The new run is disjoint from the live ones, so no older queue starts where it does.
  have fresh {any : Slot} (away : any ≠ slot) (there : (s.blockDevices any).dev ≠ 0) :
      (s.blockDevices any).desc ≠ h.runAddr i := by
    intro same
    obtain ⟨j, address, live⟩ := inv.queue any there
    have index := h.runAddr_injective (address.symm.trans same)
    subst index
    exact Finset.disjoint_left.mp (window.2 _ live) (Run.start_mem pos) (Run.start_mem pos)
  refine ⟨pages, ?_, ?_, ?_, ?_, ?_⟩
  · intro later high
    have away : later ≠ slot := fun same => by
      subst same
      omega
    rw [old away, kind, Function.update_of_ne away]
    exact inv.ahead later (by omega)
  · intro any
    by_cases here : any = slot
    · subst here
      rw [new, kind, Function.update_self]
      exact iff_of_true present rfl
    · rw [old here, kind, Function.update_of_ne here]
      exact inv.kinds any
  · intro any
    by_cases here : any = slot
    · subst here
      rw [new]
      exact fun _ => dev
    · rw [old here]
      exact inv.address any
  · intro any
    by_cases here : any = slot
    · subst here
      rw [new]
      exact fun _ => ⟨i, desc, Finset.mem_insert_self _ _⟩
    · rw [old here]
      intro there
      obtain ⟨j, address, live⟩ := inv.queue any there
      exact ⟨j, address, Finset.mem_insert_of_mem live⟩
  · intro first second
    by_cases left : first = slot
    · by_cases right : second = slot
      · exact fun _ _ _ => left.trans right.symm
      · subst left
        rw [new, old right, desc]
        exact fun _ there same => absurd same.symm (fresh right there)
    · by_cases right : second = slot
      · subst right
        rw [new, old left, desc]
        exact fun there _ same => absurd same (fresh left there)
      · rw [old left, old right]
        exact inv.apart first second

end Registered

/-! ## Probing -/

section Probe
variable {bus : Bus} {s s' : Sys h} {slot : Slot} {pool : Pool h.pages}

/-- From the allocation on: no pages, pages without a device, or a device with its pages. -/
theorem attachQueue_registered (inv : Registered slot s pool) (readOnly : Bool)
    (statusBits : BitVec 32) :
    ∃ pool', Registered (slot + 1) (attachQueue bus (slotPtr slot) readOnly statusBits s).2
      pool' := by
  have pos : 0 < queuePages := by decide
  unfold attachQueue zallocate
  rcases Mm.PageFrame.zallocate_cases inv.pages pos with ⟨full, _⟩ | ⟨i, pages, fit, success, after⟩
  · rw [full]
    exact ⟨pool, (inv.stage ((Stage.refl s).after _)).next⟩
  · rw [success, Option.map_some]
    refine ⟨pool.take queuePages i pos fit.1, ?_⟩
    dsimp only [ifWritten, mmioWrite32]
    split_ifs with first second
    · exact inv.addBlock pos fit.1 (by rw [devSlotFromPtr_slotPtr]; rfl)
        (by rw [devSlotFromPtr_slotPtr]; rfl) after rfl rfl
    · exact inv.addBlock pos fit.1 (by rw [devSlotFromPtr_slotPtr]; rfl)
        (by rw [devSlotFromPtr_slotPtr]; rfl) after rfl rfl
    · exact inv.mono rfl rfl after (Finset.subset_insert _ _) (Nat.le_succ _)

theorem setupBlockDevice_registered (inv : Registered slot s pool) :
    ∃ pool', Registered (slot + 1) (setupBlockDevice bus (slotPtr slot) s).2 pool' := by
  refine setupBlockDevice_meets (Q := fun r => ∃ pool', Registered (slot + 1) r.2 pool') ?_ ?_
  · exact fun k s' stage => ⟨pool, (inv.stage stage).next⟩
  · exact fun s' readOnly statusBits stage =>
      attachQueue_registered (inv.stage stage) readOnly statusBits

theorem probeSlot_registered (inv : Registered slot s pool) :
    ∃ pool', Registered (slot + 1) (probeSlot bus s slot) pool' := by
  have once := inv.stage ((Stage.refl s).after (.read .magicValue))
  have twice := inv.stage (((Stage.refl s).after (.read .magicValue)).after (.read .deviceId))
  unfold probeSlot mmioRead32
  dsimp only
  split
  · next s₁ answer =>
      obtain ⟨_, rfl⟩ := Prod.mk.inj answer
      exact ⟨pool, once.next⟩
  · next value s₁ answer =>
      obtain ⟨_, rfl⟩ := Prod.mk.inj answer
      split_ifs with wrong
      · exact ⟨pool, once.next⟩
      · split
        · next s₂ answer =>
            obtain ⟨_, rfl⟩ := Prod.mk.inj answer
            exact ⟨pool, twice.next⟩
        · next deviceid s₂ answer =>
            obtain ⟨_, rfl⟩ := Prod.mk.inj answer
            split_ifs
            · exact ⟨pool, twice.next⟩
            · exact setupBlockDevice_registered twice
            · exact ⟨pool, twice.registerDevice (by decide)⟩
            · exact ⟨pool, twice.registerDevice (by decide)⟩

/-- After probing, on any answers and faults of the bus, the device tables agree and every
block device has its own interrupt and its own live queue pages. -/
theorem probe_registered (bus : Bus) (s : Sys h) (pool : Pool h.pages)
    (pages : Refines s.pages pool)
    (empty : ∀ slot, (s.blockDevices slot).dev = 0 ∧ s.virtioDevices slot = none) :
    ∃ pool', Registered 8 (probe bus s) pool' := by
  have start : Registered 0 s pool := by
    refine ⟨pages, fun slot _ => empty slot, fun slot => ?_, fun slot present => ?_,
      fun slot present => ?_, fun first _ present => ?_⟩
    · rw [(empty slot).1, (empty slot).2]
      exact iff_of_false (fun present => present rfl) fun same => by cases same
    · exact absurd (empty slot).1 present
    · exact absurd (empty slot).1 present
    · exact absurd (empty first).1 present
  refine foldl_finRange (P := fun k s => ∃ pool', Registered k s pool') (fun k s inv => ?_)
    ⟨pool, start⟩
  obtain ⟨pool', registered⟩ := inv
  exact probeSlot_registered registered

theorem configuredIrqs_registered (inv : Registered 8 s pool) {n : Nat}
    (configured : configuredIrqs s slot = some n) : n = 1 + slot := by
  unfold configuredIrqs irq at configured
  split_ifs at configured with absent
  rw [inv.address slot absent, Option.some.injEq] at configured
  have index := congrArg Fin.val (devSlotFromPtr_slotPtr slot)
  simp only [devSlotFromPtr] at index
  omega

/-- The queues of two devices share no page. -/
theorem queues_disjoint (inv : Registered 8 s pool) {first second : Slot} (away : first ≠ second)
    (left : (s.blockDevices first).dev ≠ 0) (right : (s.blockDevices second).dev ≠ 0) :
    ∃ i j, (s.blockDevices first).desc = h.runAddr i ∧ (s.blockDevices second).desc = h.runAddr j ∧
      Disjoint (Run.mk i queuePages).cells (Run.mk j queuePages).cells := by
  obtain ⟨i, address, live⟩ := inv.queue first left
  obtain ⟨j, address', live'⟩ := inv.queue second right
  refine ⟨i, j, address, address', pool.disjoint _ live _ live' fun same => ?_⟩
  cases same
  exact away (inv.apart first second left right (address.trans address'.symm))

end Probe

end Vesper.Virtio.Setup
