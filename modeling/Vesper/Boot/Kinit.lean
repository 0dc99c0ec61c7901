import Vesper.Boot.Start
import Vesper.Console.External
import Vesper.Mm.Sv39Hardware
import Vesper.Virtio.Probe

/-!
# `kinit`

`kinit` (`boot/entry.rs`) as a whole: it sets up the page-frame allocator on whatever the heap
holds, builds the kernel's page table with pages from it, allocates the trap stack, probes the
bus, routes the interrupts and enters `skmain` in supervisor mode.  The parts are the models
of the other modules; here they run one after the other on one allocator.  Console output is
left out.

With 91 pages in the heap `kinit` does not run out of memory, whatever the devices answer,
and what it leaves behind is what the other modules start from: the hardware translates every
mapped address to itself under any later memory that keeps the table pages, the pages handed
out are disjoint live runs inside the RAM that is mapped, and exactly the UART and the block
devices interrupt.
-/

set_option autoImplicit false

namespace Vesper.Boot

open Vesper.Lib.EarlyExit (foldl_finRange)
open Vesper.Lib.FirstFit
open Vesper.Lib.PathTree
open Vesper.Mm.PageFrame (Heap Refines pageSize pageSize_eq pageSize_pos)
open Vesper.Mm.Paging (frame Held)
open Vesper.Mm.Sv39
open Vesper.Virtio.Setup (Bus Slot probe configuredIrqs queuePages)

/-! ## Model -/

/-- `_heap_start` and `_heap_size` of the linker script. -/
def heapOf (l : Layout) : Heap := ⟨l.heapStart, memoryEnd - l.heapStart⟩

def makeSatpSv39 (rootTableAddr : BitVec 64) : BitVec 64 :=
  (8 : BitVec 64) <<< 60 ||| rootTableAddr >>> 12

def trapStackPages : Nat := 4

theorem trapStackPages_pos : 0 < trapStackPages := Nat.succ_pos 3

def timerTick : BitVec 64 := 10000000

def mieMtie : BitVec 64 := (1 : BitVec 64) <<< 7
def mieMeie : BitVec 64 := (1 : BitVec 64) <<< 11

inductive KinitPanic where
  /-- "OOM allocating root page table" -/
  | rootTable
  /-- "OOM allocating trap stack" -/
  | trapStack
  | map (panic : Panic)
  /-- "attempt to add with overflow" -/
  | timer

structure KinitEnv where
  bus : Bus
  mtime : BitVec 64
  trapFrame : BitVec 64
  mTrapVector : BitVec 64
  skmain : BitVec 64
  overflowChecks : Bool

structure TrapFrame where
  regs : Fin 32 → BitVec 64
  fregs : Fin 32 → BitVec 64
  satp : BitVec 64
  trapStack : Nat
  hartid : BitVec 64

def TrapFrame.empty : TrapFrame := ⟨fun _ => 0, fun _ => 0, 0, 0, 0⟩

/-- Nothing reads `root` and `frames`, the pages of the page table. -/
structure Kernel (l : Layout) where
  hart : Start.Hart
  mem : Mem
  devices : Virtio.Setup.Sys (heapOf l)
  plic : Plic.Regs
  mscratch : BitVec 64
  mie : BitVec 64
  mtimecmp : BitVec 64
  trapStackTop : Nat
  trapFrame : TrapFrame
  root : Nat
  frames : List Nat

def zeroPages (mem : Mem) (p count : Nat) : Mem := fun a =>
  if p ≤ a ∧ a < p + count * pageSize then 0 else mem a

def zallocatePages {h : Heap} (count : Nat) (mem : Mem) (pages : Mm.PageFrame.State h) :
    Option (Nat × Mem × Mm.PageFrame.State h) :=
  (Mm.PageFrame.zallocate count pages).map fun (p, pages) => (p, zeroPages mem p count, pages)

/-- `enter_sv39`, up to and including its `mret`. -/
def enterSv39 (satp sEntry : BitVec 64) (hart : Start.Hart) : Start.Hart :=
  let status := (1 : BitVec 64) <<< 11 ||| Start.mpie
  { hart with
    x := { hart.x with t0 := status }
    csrs := { hart.csrs with satp := satp, mepc := sEntry, mstatus := Start.mretStatus status }
    mode := Start.modeOf ((status >>> 11).setWidth 2)
    pc := .elsewhere sEntry }

def irqList {h : Heap} (s : Virtio.Setup.Sys h) : List Nat :=
  (List.finRange 8).filterMap (configuredIrqs s)

/-- The value `enable_interrupts` writes to `mtimecmp`. -/
def nextTick (env : KinitEnv) : Except KinitPanic (BitVec 64) :=
  if env.overflowChecks ∧ 2 ^ 64 ≤ env.mtime.toNat + timerTick.toNat then .error .timer
  else .ok (env.mtime + timerTick)

def kinit (l : Layout) (env : KinitEnv) (k : Kernel l) : Except KinitPanic (Kernel l) :=
  match zallocatePages 1 k.mem (Mm.PageFrame.init k.devices.pages) with
  | none => .error .rootTable
  | some (root, mem, pages) =>
      match kinitMap frame root l mem (pages, []) with
      | .error panic => .error (.map panic)
      | .ok (mem, (pages, frames)) =>
          let satp := makeSatpSv39 (BitVec.ofNat 64 root)
          -- `install`
          match zallocatePages trapStackPages mem pages with
          | none => .error .trapStack
          | some (trapStack, mem, pages) =>
              let stackTop := trapStack + trapStackPages * pageSize
              let devices := probe env.bus { k.devices with pages := pages }
              (nextTick env).map fun tick =>
                { hart := enterSv39 satp env.skmain
                    { k.hart with csrs := { k.hart.csrs with mtvec := env.mTrapVector } }
                  mem := mem
                  devices := devices
                  plic := Plic.configure (irqList devices) k.plic
                  mscratch := env.trapFrame
                  mie := mieMeie ||| mieMtie
                  mtimecmp := tick
                  trapStackTop := stackTop
                  trapFrame :=
                    { k.trapFrame with satp := satp, trapStack := stackTop, hartid := 0 }
                  root := root
                  frames := frames }

/-! ## Pages at the low end of the heap -/

section Room
variable {h : Heap} {pages : Mm.PageFrame.State h} {pool : Pool h.pages} {k count : Nat}

theorem allocate_below (refines : Refines pages pool) (below : pool.Below k) (pos : 0 < count)
    (room : k + count ≤ h.pages) :
    ∃ i pages', ∃ fit : pool.IsFirstFit count i, i ≤ k ∧
      Mm.PageFrame.allocate pages count = .ok (some (h.runAddr i), pages') ∧
      Refines pages' (pool.take count i pos fit.1) ∧
      (pool.take count i pos fit.1).Below (k + count) := by
  rcases Mm.PageFrame.allocate_cases refines pos with ⟨_, full⟩ | ⟨i, pages', fit, found, refines'⟩
  · exact absurd (below.window room) (full k)
  · exact ⟨i, pages', fit, fit.2 (below.window room), found, refines', below.take room pos fit⟩

theorem zallocatePages_below (refines : Refines pages pool) (below : pool.Below k)
    (pos : 0 < count) (room : k + count ≤ h.pages) (mem : Mem) :
    ∃ i pages', ∃ fit : pool.IsFirstFit count i, i ≤ k ∧
      zallocatePages count mem pages =
        some (h.runAddr i, zeroPages mem (h.runAddr i) count, pages') ∧
      Refines pages' (pool.take count i pos fit.1) ∧
      (pool.take count i pos fit.1).Below (k + count) := by
  obtain ⟨i, pages', fit, low, found, rest⟩ := allocate_below refines below pos room
  exact ⟨i, pages', fit, low, by rw [zallocatePages, Mm.PageFrame.zallocate, found]; rfl, rest⟩

theorem frame_supplies (refines : Refines pages pool) (below : pool.Below k)
    (room : k + count ≤ h.pages) (low : h.heapEnd ≤ 2 ^ 63) {used : Set Nat}
    (known : ∀ page ∈ used, ∃ i, page = h.runAddr i ∧ ∃ r ∈ pool.live, i ∈ r.cells)
    (log : List Nat) : Supplies frame count (pages, log) used := by
  induction count generalizing k pages pool used log with
  | zero => trivial
  | succ count ih =>
      obtain ⟨i, pages', fit, _, found, refines', below'⟩ :=
        allocate_below refines below Nat.one_pos (show k + 1 ≤ h.pages by omega)
      have bound : i < h.pages := fit.1.1
      have fresh : h.runAddr i ∉ used := by
        intro member
        obtain ⟨j, same, r, live, inside⟩ := known _ member
        rw [← h.runAddr_injective same] at inside
        exact Mm.Paging.window_fresh fit.1 (le_refl i) (Nat.lt_succ_self i) live inside
      have aligned : h.runAddr i % pageSize = 0 := by
        rw [Heap.runAddr, Nat.add_mul_mod_self_right]
        exact h.allocStart_mod
      have drawn : frame (pages, log) = (h.runAddr i, pages', log ++ [h.runAddr i]) := by
        rw [frame, Mm.PageFrame.zallocate, found]
        rfl
      refine ⟨h.runAddr i, (pages', log ++ [h.runAddr i]), drawn, aligned,
        h.runAddr_ne_zero bound, h.runAddr_lt_two_pow bound.le low, fresh, ?_⟩
      refine ih refines' below' (by omega) ?_ _
      rintro page (rfl | member)
      · exact ⟨i, rfl, ⟨i, 1⟩, Finset.mem_insert_self _ _, Run.start_mem Nat.one_pos⟩
      · obtain ⟨j, same, r, live, inside⟩ := known page member
        exact ⟨j, same, r, Finset.mem_insert_of_mem live, inside⟩

end Room

/-! ## What the page table is made of -/

section Keeps
variable {σ : Type} {allocate : σ → Option (Nat × σ)} {root : Nat}
  {wanted : Finset (List (Fin 512))} {inv : Mem → σ → Prop}

theorem idMapPages_keeps {bits : PteFlags} (rwx : bits.bits &&& PteFlags.RWX.bits ≠ 0)
    (short : ∀ p ∈ wanted, p.length ≤ 2) {addrs : List Nat}
    (aligned : ∀ addr ∈ addrs, addr % pageSize = 0 ∧ addr < 2 ^ 39)
    (wants : ∀ addr ∈ addrs, pathTables addr ⊆ wanted)
    (hosts : ∀ addr, pathTables addr ⊆ wanted →
      Hosts allocate root (BitVec.ofNat 64 addr) 0 inv)
    {m m' : Mem} {s s' : σ} {view : Nat → Option PteFlags} (shows : Shows m root view)
    (stocked : Stocked allocate root wanted m s) (holds : inv m s)
    (done : idMapPages allocate root bits addrs m s = .ok (m', s')) : inv m' s' := by
  induction addrs generalizing m s view with
  | nil =>
      cases done
      exact holds
  | cons addr rest ih =>
      have here := List.mem_cons_self (a := addr) (l := rest)
      have single : ∀ a ∈ [addr], a ∈ addr :: rest := by
        intro a member
        rw [List.mem_singleton.mp member]
        exact here
      -- one page at a time: what it shows, and what it keeps
      obtain ⟨m₁, s₁, one, stocked₁, shows₁⟩ := idMapPages_shows rwx short
        (fun a member => aligned a (single a member)) (fun a member => wants a (single a member))
        shows stocked
      rcases map_outcome (BitVec.ofNat 64 addr) (Nat.zero_le 2) rwx
        (hosts addr (wants addr here)) holds shows.table (shows.pathClear _) with
        ⟨failed, _⟩ | ⟨m₂, s₂, success, _, holds₂, _⟩
      · rw [idMapPages, failed] at one
        cases one
      · rw [idMapPages, success] at one done
        cases one
        exact ih (fun a member => aligned a (List.mem_cons_of_mem _ member))
          (fun a member => wants a (List.mem_cons_of_mem _ member)) shows₁ stocked₁ holds₂ done

theorem mapSections_keeps {secs : List Section} (sound : ∀ sec ∈ secs, sec.Sound)
    (short : ∀ p ∈ wanted, p.length ≤ 2)
    (wants : ∀ sec ∈ secs, ∀ addr ∈ sec.pages, pathTables addr ⊆ wanted)
    (hosts : ∀ addr, pathTables addr ⊆ wanted →
      Hosts allocate root (BitVec.ofNat 64 addr) 0 inv)
    {m m' : Mem} {s s' : σ} {view : Nat → Option PteFlags} (shows : Shows m root view)
    (stocked : Stocked allocate root wanted m s) (holds : inv m s)
    (done : mapSections allocate root secs m s = .ok (m', s')) : inv m' s' := by
  induction secs generalizing m s view with
  | nil =>
      cases done
      exact holds
  | cons sec rest ih =>
      have here := List.mem_cons_self (a := sec) (l := rest)
      have secSound := sound sec here
      obtain ⟨m₁, s₁, success, stocked₁, shows₁⟩ :=
        mapSection_shows secSound short (wants sec here) shows stocked
      have aligned : ∀ addr ∈ sec.pages, addr % pageSize = 0 ∧ addr < 2 ^ 39 := by
        intro addr member
        obtain ⟨whole, covered⟩ := (Section.mem_pages secSound.start).mp member
        exact ⟨whole, covered.2.trans_le secSound.stop⟩
      have pages : idMapPages allocate root sec.flags sec.pages m s = .ok (m₁, s₁) := by
        rw [mapSection, idMapRange] at success
        split_ifs at success
        exact success
      have holds₁ := idMapPages_keeps secSound.rwx short aligned (wants sec here) hosts shows
        stocked holds pages
      rw [mapSections, success] at done
      exact ih (fun s member => sound s (List.mem_cons_of_mem _ member))
        (fun s member => wants s (List.mem_cons_of_mem _ member)) shows₁ stocked₁ holds₁ done

end Keeps

section Tables
variable {h : Heap} {root : Nat} {wanted : Finset (List (Fin 512))} {before : Finset Run}
  {k budget : Nat}

/-- The pages of the page table are its frames, there are no more of them than wanted, the
live runs are those from before and the frames, and all of them stay at the low end. -/
structure Drawn (root : Nat) (wanted : Finset (List (Fin 512))) (before : Finset Run)
    (k budget : Nat) (m : Mem) (s : Mm.PageFrame.State h × List Nat) : Prop where
  held : Held root ∅ m s
  count : s.2.length + (missing wanted m root).card ≤ budget
  low : ∃ pool : Pool h.pages, Refines s.1 pool ∧ before ⊆ pool.live ∧
    (∀ r ∈ pool.live, r ∈ before ∨ r.len = 1 ∧ h.runAddr r.start ∈ s.2) ∧
    pool.Below (k + s.2.length)

theorem drawn_hosts (low : h.heapEnd ≤ 2 ^ 63) (short : ∀ p ∈ wanted, p.length ≤ 2)
    (room : k + budget ≤ h.pages) {addr : Nat} (wants : pathTables addr ⊆ wanted) :
    Hosts frame root (BitVec.ofNat 64 addr) 0 (Drawn (h := h) root wanted before k budget) where
  hang := by
    intro m s i base page s' level top drawn table atBase invalid call
    obtain ⟨grown, held⟩ := (Mm.Paging.held_hosts low (BitVec.ofNat 64 addr) 0).hang level top
      drawn.held table atBase invalid call
    obtain ⟨answer, recorded⟩ := Mm.Paging.frame_eq_some call
    have wanted_ : tablePath (BitVec.ofNat 64 addr) i ∈ wanted := by
      apply wants
      have below : i < 2 := top
      interval_cases i
      · exact Finset.mem_insert_self _ _
      · exact Finset.mem_insert_of_mem (Finset.mem_singleton_self _)
    have absent : tablePath (BitVec.ofNat 64 addr) i ∈ missing wanted m root :=
      Finset.mem_filter.mpr ⟨wanted_, follow_of_invalid top atBase invalid⟩
    have fewer := Finset.card_erase_add_one absent
    have count := drawn.count
    have length : s'.2.length = s.2.length + 1 := by
      rw [recorded, List.length_append, List.length_singleton]
    refine ⟨grown, held, ?_, ?_⟩
    · rw [grown.missing_eq short, length]
      omega
    · obtain ⟨pool, refines, kept, known, below⟩ := drawn.low
      obtain ⟨j, pages', fit, _, found, refines', below'⟩ :=
        allocate_below refines below Nat.one_pos (by omega)
      rw [found] at answer
      cases answer
      rw [length]
      refine ⟨_, refines', kept.trans (Finset.subset_insert _ _), fun r member => ?_, below'⟩
      rw [recorded]
      rcases Finset.mem_insert.mp member with rfl | old
      · exact .inr ⟨rfl, List.mem_append_right _ (List.mem_singleton_self _)⟩
      · exact (known r old).imp_right fun ⟨one, listed⟩ => ⟨one, List.mem_append_left _ listed⟩
  same := by
    intro m m' s drawn same
    have sameMissing : missing wanted m' root = missing wanted m root := by
      apply Finset.filter_congr
      intro p member
      rw [same p (by have := short p member; omega)]
    refine ⟨(Mm.Paging.held_hosts low (BitVec.ofNat 64 addr) 0).same drawn.held same, ?_,
      drawn.low⟩
    rw [sameMissing]
    exact drawn.count

theorem Drawn.live_pages {i : Nat} {m : Mem} {s : Mm.PageFrame.State h × List Nat}
    (drawn : Drawn (h.runAddr i) wanted {⟨i, 1⟩} k budget m s) {pool : Pool h.pages}
    (refines : Refines s.1 pool) (kept : {⟨i, 1⟩} ⊆ pool.live) :
    ∀ base ∈ h.runAddr i :: s.2, ∃ j, base = h.runAddr j ∧ ⟨j, 1⟩ ∈ pool.live := by
  intro base member
  rcases List.mem_cons.mp member with root | frame
  · exact ⟨i, root, kept (Finset.mem_singleton_self _)⟩
  · obtain ⟨pool', refines', _, owned, _⟩ := drawn.held.allocator
    obtain ⟨j, same, live, _⟩ := owned base frame
    rw [refines'.table.live_unique refines.table] at live
    exact ⟨j, same, live⟩

theorem live_iff_table {i : Nat} {frames : List Nat} {pool : Pool h.pages}
    (known : ∀ r ∈ pool.live, r ∈ ({⟨i, 1⟩} : Finset Run) ∨
      r.len = 1 ∧ h.runAddr r.start ∈ frames)
    (tables : ∀ base ∈ h.runAddr i :: frames, ∃ j, base = h.runAddr j ∧ ⟨j, 1⟩ ∈ pool.live)
    (r : Run) : r ∈ pool.live ↔ r.len = 1 ∧ h.runAddr r.start ∈ h.runAddr i :: frames := by
  constructor
  · intro live
    rcases known r live with root | ⟨one, listed⟩
    · rw [Finset.mem_singleton.mp root]
      exact ⟨rfl, List.mem_cons_self⟩
    · exact ⟨one, List.mem_cons_of_mem _ listed⟩
  · rintro ⟨one, listed⟩
    obtain ⟨j, same, live⟩ := tables _ listed
    have run : r = ⟨j, 1⟩ := by
      rw [← h.runAddr_injective same, ← one]
    rw [run]
    exact live

end Tables

/-! ## What probing draws -/

section Probe
open Vesper.Virtio.Setup
variable {h : Heap} {bus : Bus} {s : Sys h}

def DrawsQueue (s s' : Sys h) : Prop :=
  s'.pages = s.pages ∨
    ∃ p, Mm.PageFrame.allocate s.pages queuePages = .ok (some p, s'.pages)

theorem attachQueue_draws (ptr : DevicePtr) (readOnly : Bool) (statusBits : BitVec 32) :
    DrawsQueue s (attachQueue bus ptr readOnly statusBits s).2 := by
  unfold attachQueue
  split
  · exact Or.inl rfl
  · next queueMem s₁ found =>
      right
      refine ⟨queueMem, ?_⟩
      have drawn : Mm.PageFrame.allocate s.pages queuePages = .ok (some queueMem, s₁.pages) := by
        obtain ⟨⟨page, pages⟩, answer, same⟩ := Option.map_eq_some_iff.mp found
        cases same
        exact Mm.PageFrame.allocate_of_zallocate answer
      rw [drawn, ifWritten]
      split_ifs
      · rw [ifWritten]
        split_ifs
        · rfl
        · rfl
      · rfl

theorem setupBlockDevice_draws (ptr : DevicePtr) :
    DrawsQueue s (setupBlockDevice bus ptr s).2 := by
  refine setupBlockDevice_meets (Q := fun result => DrawsQueue s result.2) ?_ ?_
  · intro k s' stage
    exact Or.inl stage.pages
  · intro s' readOnly statusBits stage
    have drawn := @attachQueue_draws _ bus s' ptr readOnly statusBits
    rw [DrawsQueue, stage.pages] at drawn
    exact drawn

theorem probeSlot_draws (slot : Slot) : DrawsQueue s (probeSlot bus s slot) := by
  unfold probeSlot mmioRead32
  dsimp only
  split
  · next s₁ answer =>
      obtain ⟨_, rfl⟩ := Prod.mk.inj answer
      exact Or.inl rfl
  · next value s₁ answer =>
      obtain ⟨_, rfl⟩ := Prod.mk.inj answer
      split_ifs with wrong
      · exact Or.inl rfl
      · split
        · next s₂ answer =>
            obtain ⟨_, rfl⟩ := Prod.mk.inj answer
            exact Or.inl rfl
        · next deviceid s₂ answer =>
            obtain ⟨_, rfl⟩ := Prod.mk.inj answer
            split_ifs
            · exact Or.inl rfl
            · exact setupBlockDevice_draws (slotPtr slot)
            · exact Or.inl rfl
            · exact Or.inl rfl

structure QueuesDrawn (pool pool' : Pool h.pages) (queues : Finset Run) (n : Nat) : Prop where
  live : pool'.live = pool.live ∪ queues
  len : ∀ r ∈ queues, r.len = queuePages
  few : queues.card ≤ n

theorem QueuesDrawn.take {pool pool' : Pool h.pages} {queues : Finset Run} {n i : Nat}
    (drawn : QueuesDrawn pool pool' queues n) {pos : 0 < queuePages}
    (window : pool'.Window queuePages i) :
    QueuesDrawn pool (pool'.take queuePages i pos window) (insert ⟨i, queuePages⟩ queues)
      (n + 1) where
  live := by
    change insert _ pool'.live = _
    rw [drawn.live, Finset.union_insert]
  len r member := by
    rcases Finset.mem_insert.mp member with rfl | old
    · rfl
    · exact drawn.len r old
  few := (Finset.card_insert_le _ _).trans (Nat.succ_le_succ drawn.few)

/-- Every run that was live stays so, and the others are queues, eight of them at most. -/
theorem probe_below {pool : Pool h.pages} (refines : Refines s.pages pool) {k : Nat}
    (below : pool.Below k) (room : k + 8 * queuePages ≤ h.pages) :
    ∃ (pool' : Pool h.pages) (queues : Finset Run), Refines (probe bus s).pages pool' ∧
      QueuesDrawn pool pool' queues 8 ∧ pool'.Below (k + 8 * queuePages) := by
  have loop : ∀ (slot : Slot) (s : Sys h),
      (∃ (pool' : Pool h.pages) (queues : Finset Run), Refines s.pages pool' ∧
        QueuesDrawn pool pool' queues slot ∧ pool'.Below (k + slot * queuePages)) →
      ∃ (pool' : Pool h.pages) (queues : Finset Run), Refines (probeSlot bus s slot).pages pool' ∧
        QueuesDrawn pool pool' queues (slot + 1) ∧ pool'.Below (k + (slot + 1) * queuePages) := by
    intro slot s before
    obtain ⟨pool', queues, refines, drawn, below⟩ := before
    have small := slot.isLt
    rcases @probeSlot_draws _ bus s slot with same | ⟨p, answer⟩
    · refine ⟨pool', queues, same ▸ refines, ⟨drawn.live, drawn.len, drawn.few.trans (by omega)⟩,
        fun r member => ?_⟩
      have bound := below r member
      rw [queuePages_eq] at *
      omega
    · obtain ⟨i, pages', fit, _, found, refines', below'⟩ :=
        allocate_below refines below (show 0 < queuePages by decide)
          (by rw [queuePages_eq] at *; omega)
      rw [found] at answer
      cases answer
      refine ⟨_, insert ⟨i, queuePages⟩ queues, refines', drawn.take fit.1, fun r member => ?_⟩
      have bound := below' r member
      rw [queuePages_eq] at *
      omega
  exact foldl_finRange (P := fun n (s : Sys h) => ∃ (pool' : Pool h.pages) (queues : Finset Run),
    Refines s.pages pool' ∧ QueuesDrawn pool pool' queues n ∧ pool'.Below (k + n * queuePages))
    loop ⟨pool, ∅, refines, ⟨(Finset.union_empty _).symm, fun r none => absurd none
      (Finset.notMem_empty r), le_rfl⟩, by simpa using below⟩

end Probe

/-! ## Interrupts -/

section Irqs
open Vesper.Virtio.Setup
variable {h : Heap} {s : Sys h}

def present (s : Sys h) (slot : Nat) : Bool :=
  if bound : slot < 8 then (s.blockDevices ⟨slot, bound⟩).dev != 0 else false

theorem irqList_eq {pool : Pool h.pages} (registered : Registered 8 s pool) :
    irqList s = Console.External.irqs (present s) := by
  have slots : configuredIrqs s =
      fun slot : Fin 8 => if present s slot.val then some (slot.val + 1) else none := by
    funext slot
    have there : present s slot = ((s.blockDevices slot).dev != 0) := dif_pos slot.isLt
    rw [there]
    by_cases absent : (s.blockDevices slot).dev = 0
    · simp [configuredIrqs, irq, absent]
    · have configured : configuredIrqs s slot = some _ := if_neg absent
      rw [configured, configuredIrqs_registered registered configured, Nat.add_comm]
      simp [absent]
  have indices : List.range 8 = (List.finRange 8).map Fin.val := by decide
  rw [irqList, slots, Console.External.irqs,
    show Virtio.Interrupt.maxVirtioDevices = 8 from rfl, indices, List.filter_map, List.map_map,
    ← List.filterMap_eq_map, ← List.filterMap_eq_filter, List.filterMap_filterMap]
  congr 1
  funext slot
  by_cases there : present s slot = true <;> simp [Option.guard, there]

theorem configure_served {pool : Pool h.pages} (registered : Registered 8 s pool)
    {p : Plic.Regs} (off : p.enables = 0) :
    Plic.Routes (Plic.configure (irqList s) p) (Console.External.Served (present s)) := by
  rw [irqList_eq registered]
  exact (Plic.configure_routes off Console.External.irqs_lt).1

end Irqs

/-! ## The hardware's view -/

section Hardware
variable {l : Layout} {m m' : Mem} {root : Nat}

theorem Shows.agree {view : Nat → Option PteFlags} (shows : Shows m root view)
    (same : ∀ base ∈ tables m root, ∀ index,
      m' (entryAddr base index) = m (entryAddr base index)) :
    Shows m' root view ∧ tables m' root = tables m root := by
  have sameTree : SameTree m m' root := fun p short =>
    follow_congr (fun base member index => child_congr (same base member index)) short
  refine ⟨⟨sameTree.pageTable shows.table, sameTree.leafLevel shows.leaves, fun va => ?_⟩,
    sameTree.tables_eq⟩
  rw [← shows.leafOf va]
  refine leafOf_congr fun j level base atBase => same base ?_ _
  exact table_of_path atBase

theorem kernelView_readable {page : Nat} {flags : PteFlags}
    (painted : kernelView l page = some flags) : flags.bits.getLsbD 1 = true := by
  have last : KernelFlags flags :=
    foldl_paint_mem (sections_flags l) (fun f absent => by cases absent) flags painted
  rcases last with rfl | rfl | rfl
  · rfl
  · rfl
  · rfl

theorem covered_small {sec : Section} (member : sec ∈ sections l) {addr : Nat}
    (covers : sec.covers addr) : addr < 2 ^ 38 := by
  have range := sections_range member covers
  rw [textStart] at range
  omega

theorem canonical_of_small {va : BitVec 64} (small : va.toNat < 2 ^ 38) : Canonical va := by
  have zero : ∀ i, 38 ≤ i → va.getLsbD i = false := by
    intro i high
    rw [← BitVec.testBit_toNat]
    exact Nat.testBit_lt_two_pow (small.trans_le (Nat.pow_le_pow_right (by decide) high))
  intro b
  rw [zero _ (by omega), zero _ le_rfl]

theorem canonical_high {va : BitVec 64} (canonical : Canonical va) (high : 2 ^ 38 ≤ va.toNat) :
    2 ^ 38 ≤ pageOf va * pageSize := by
  have bit : va.toNat.testBit 38 = true := by
    by_contra clear
    have zero : ∀ i ≥ 38, va.toNat.testBit i = false := by
      intro i above
      have same : va.getLsbD 38 = false := by
        rw [← BitVec.testBit_toNat]
        exact Bool.not_eq_true _ ▸ clear
      rw [BitVec.testBit_toNat]
      by_cases top : i < 64
      · rcases Nat.eq_or_lt_of_le above with rfl | above
        · exact same
        · have sign := canonical ⟨i - 39, by omega⟩
          rw [show 39 + (i - 39) = i by omega] at sign
          exact sign.trans same
      · exact BitVec.getLsbD_of_ge va i (not_lt.mp top)
    exact absurd (Nat.lt_pow_two_of_testBit _ zero) (not_lt.mpr high)
  rw [Nat.testBit_eq_decide_div_mod_eq, decide_eq_true_eq] at bit
  rw [pageOf, pageSize_eq]
  omega

/-- What is mapped translates to itself and nothing else translates. -/
theorem Shows.hardwareTranslate_eq (shows : Shows m root (kernelView l))
    (addressable : ∀ base ∈ tables m root, base < 2 ^ 56) (va : BitVec 64) :
    hardwareTranslate m root va =
      if ∃ sec ∈ sections l, sec.covers va.toNat then some va.toNat else none := by
  have small : ∀ i base, i < 2 → follow (child m) root (tablePath va i) = some base →
      base < 2 ^ 56 := fun i base _ atBase => addressable base (table_of_path atBase)
  split_ifs with covered
  · obtain ⟨sec, member, covers⟩ := covered
    have below := covered_small member covers
    have low : va.toNat < 2 ^ 39 := by omega
    have leaf : ∀ i e, Mm.Sv39.leafOf m root va = some (i, e) →
        i = 0 ∧ ∃ flags, kernelView l (pageOf va) = some flags ∧
          e = leafEntry (BitVec.ofNat 64 (pageOf va * pageSize)) flags := by
      intro i e found
      rw [shows.leafOf] at found
      obtain ⟨flags, painted, entry⟩ := Option.map_eq_some_iff.mp found
      obtain ⟨level, same⟩ := Prod.mk.inj entry
      exact ⟨level.symm, flags, painted, same.symm⟩
    have painted : ∃ flags, kernelView l (pageOf va) = some flags := by
      rcases sections_split ⟨sec, member, covers⟩ with inText | inRodata | inData
      · exact ⟨rx, view_text low inText⟩
      · exact ⟨ro, view_rodata low inRodata⟩
      · exact ⟨rw, view_data low inData⟩
    have agrees := (v2p_agrees_iff shows.table small fun i e found => by
      obtain ⟨rfl, flags, _, rfl⟩ := leaf i e found
      exact ⟨Nat.zero_le 2, leafEntry_lt _ _⟩).mpr fun i e found => by
        obtain ⟨rfl, flags, seen, rfl⟩ := leaf i e found
        refine ⟨canonical_of_small below, fun reserved => ?_, fun off => off (Nat.mod_one _)⟩
        have readable := reserved.2
        rw [leafEntry_getLsbD_low _ _ (by decide), kernelView_readable seen] at readable
        cases readable
    obtain ⟨flags, seen⟩ := painted
    refine (agrees va).mp ?_
    rw [shows.v2p_eq low, ← pageOf_low low, seen]
    rfl
  · rw [hardwareTranslate]
    split_ifs with canonical
    · have unpainted : kernelView l (pageOf va) = none := by
        refine kernelView_none fun sec member covers => ?_
        have bound := covered_small member covers
        have low : va.toNat < 2 ^ 38 := by
          by_contra high
          exact absurd bound (not_lt.mpr (canonical_high canonical (not_lt.mp high)))
        exact covered ⟨sec, member, (sections_cover_page member (by omega)).mp covers⟩
      rw [hardwareWalk_eq small le_rfl rfl]
      change (Mm.Sv39.leafOf m root va).bind _ = none
      rw [shows.leafOf, unpainted]
      rfl
    · rfl

end Hardware

/-! ## Booting -/

section Boot
open Vesper.Virtio.Setup (Registered)
variable {l : Layout}

/-- The table pages are in `m` as `kinit` left them. -/
def Kernel.Agrees (k : Kernel l) (m : Mem) : Prop :=
  ∀ base ∈ k.root :: k.frames, ∀ a, base ≤ a → a < base + pageSize → m a = k.mem a

/-- The statics before `kinit`, and a controller in which no source is enabled. -/
structure Fresh (k₀ : Kernel l) : Prop where
  devices : ∀ slot, (k₀.devices.blockDevices slot).dev = 0 ∧ k₀.devices.virtioDevices slot = none
  trapFrame : k₀.trapFrame = .empty
  plic : k₀.plic.enables = 0

/-- Whose the live runs are: of the page table, of the trap stack, or queues.  A device that
faults behind the allocation of its queue leaves one without being registered. -/
structure Accounts (k : Kernel l) (pool : Pool (heapOf l).pages) (stack : Nat)
    (queues : Finset Run) : Prop where
  tables : ∀ base ∈ k.root :: k.frames, ∃ i, base = (heapOf l).runAddr i ∧ ⟨i, 1⟩ ∈ pool.live
  stackTop : k.trapStackTop = (heapOf l).runAddr stack + trapStackPages * pageSize
  live : ∀ r, r ∈ pool.live ↔ r.len = 1 ∧ (heapOf l).runAddr r.start ∈ k.root :: k.frames ∨
    r = ⟨stack, trapStackPages⟩ ∨ r ∈ queues
  queueLen : ∀ r ∈ queues, r.len = queuePages
  few : queues.card ≤ 8
  mapped : ∀ r ∈ pool.live, ∀ a, (heapOf l).runAddr r.start ≤ a →
    a < (heapOf l).runAddr (r.start + r.len) → ∃ sec ∈ dataSections l, sec.covers a

structure Booted (env : KinitEnv) (k : Kernel l) : Prop where
  entry : k.hart.mode = .supervisor ∧ k.hart.pc = .elsewhere env.skmain
  handler : k.hart.csrs.mtvec = env.mTrapVector ∧ k.mscratch = env.trapFrame
  trapFrame : k.trapFrame = ⟨fun _ => 0, fun _ => 0, k.hart.csrs.satp, k.trapStackTop, 0⟩
  enabled : k.mie = mieMeie ||| mieMtie ∧ k.mtimecmp = env.mtime + timerTick
  satp : k.hart.csrs.satp.toNat = 8 * 2 ^ 60 + k.root / pageSize ∧ k.root % pageSize = 0
  shows : ∀ m, k.Agrees m → Shows m k.root (kernelView l)
  translates : ∀ m, k.Agrees m → ∀ va, hardwareTranslate m k.root va =
    if ∃ sec ∈ sections l, sec.covers va.toNat then some va.toNat else none
  distinct : (k.root :: k.frames).Nodup
  owners : ∃ pool stack queues, Registered 8 k.devices pool ∧ Accounts k pool stack queues
  interrupts : Plic.Routes k.plic (Console.External.Served (present k.devices))

theorem satp_toNat {root : Nat} (small : root < 2 ^ 56) :
    (makeSatpSv39 (BitVec.ofNat 64 root)).toNat = 8 * 2 ^ 60 + root / pageSize := by
  have number : (BitVec.ofNat 64 root >>> 12).toNat = root / pageSize := by
    rw [BitVec.toNat_ushiftRight, BitVec.toNat_ofNat, Nat.shiftRight_eq_div_pow, pageSize_eq]
    omega
  have mode : ((8 : BitVec 64) <<< 60).toNat = 2 ^ 60 * 8 := by decide
  have below : root / pageSize < 2 ^ 60 := by
    rw [pageSize_eq]
    omega
  rw [makeSatpSv39, BitVec.toNat_or, number, mode, ← Nat.two_pow_add_eq_or_of_lt below,
    Nat.mul_comm]

theorem zeroPages_apart {h : Heap} {pool : Pool h.pages} {i j count : Nat} (mem : Mem)
    (live : ⟨i, 1⟩ ∈ pool.live) (window : pool.Window count j) {a : Nat} (low : h.runAddr i ≤ a)
    (high : a < h.runAddr i + pageSize) : zeroPages mem (h.runAddr j) count a = mem a := by
  refine if_neg fun inside => ?_
  have outside : ¬ (j ≤ i ∧ i < j + count) := fun between =>
    Mm.Paging.window_fresh window between.1 between.2 live (Run.start_mem Nat.one_pos)
  simp only [Heap.runAddr, pageSize_eq] at *
  omega

theorem zeroPages_entry (mem : Mem) (base : Nat) (index : Fin 512) :
    zeroPages mem base 1 (entryAddr base index) = 0 := by
  have small := index.isLt
  refine if_pos ?_
  rw [entryAddr, pageSize_eq]
  omega

/-- The page table reads the same in every memory that keeps its pages as a later allocation
leaves them. -/
theorem Drawn.agree {h : Heap} {wanted : Finset (List (Fin 512))} {i j k budget count : Nat}
    {mem m : Mem} {s : Mm.PageFrame.State h × List Nat} {view : Nat → Option PteFlags}
    (drawn : Drawn (h.runAddr i) wanted {⟨i, 1⟩} k budget mem s)
    (shows : Shows mem (h.runAddr i) view) {pool : Pool h.pages}
    (live : ∀ base ∈ h.runAddr i :: s.2, ∃ j, base = h.runAddr j ∧ ⟨j, 1⟩ ∈ pool.live)
    (window : pool.Window count j)
    (same : ∀ base ∈ h.runAddr i :: s.2, ∀ a, base ≤ a → a < base + pageSize →
      m a = zeroPages mem (h.runAddr j) count a) :
    Shows m (h.runAddr i) view ∧ tables m (h.runAddr i) = {base | base ∈ h.runAddr i :: s.2} := by
  rw [← drawn.held.tables]
  refine shows.agree fun base member index => ?_
  rw [drawn.held.tables] at member
  obtain ⟨_, atRun, alive⟩ := live base member
  have small := index.isLt
  have low : base ≤ entryAddr base index := Nat.le_add_right _ _
  have inPage : entryAddr base index < base + pageSize := by
    rw [entryAddr, pageSize_eq]
    omega
  rw [same base member _ low inPage]
  rw [atRun] at low inPage ⊢
  exact zeroPages_apart mem alive window low inPage

section Room
variable {n : Nat} (room : n + 2 ≤ (heapOf l).pages)
include room

theorem heapOf_end : (heapOf l).heapEnd = memoryEnd := by
  have size : n + 2 ≤ (memoryEnd - l.heapStart) / pageSize := room
  rw [pageSize_eq] at size
  change l.heapStart + (memoryEnd - l.heapStart) = memoryEnd
  omega

/-- The table of descriptors takes no more than the last two pages from the first few. -/
theorem runAddr_le_memoryEnd (few : n ≤ 4095) {i : Nat} (low : i ≤ n) :
    (heapOf l).runAddr i ≤ memoryEnd := by
  have stop := heapOf_end room
  have start := Mm.PageFrame.nextMultipleOf_lt ((heapOf l).heapStart + (heapOf l).pages) pageSize
    pageSize_pos
  have size : (heapOf l).pages * pageSize ≤ (heapOf l).heapSize := Nat.div_mul_le_self _ _
  rw [Heap.heapEnd] at stop
  rw [Heap.runAddr, Heap.allocStart]
  rw [pageSize_eq] at *
  omega

theorem table_addressable (few : n ≤ 4095) {pool : Pool (heapOf l).pages} (below : pool.Below n)
    {base : Nat} (live : ∃ i, base = (heapOf l).runAddr i ∧ ⟨i, 1⟩ ∈ pool.live) :
    base < 2 ^ 56 := by
  obtain ⟨i, rfl, alive⟩ := live
  refine lt_of_le_of_lt (runAddr_le_memoryEnd room few ((Nat.le_succ i).trans (below _ alive))) ?_
  rw [memoryEnd]
  omega

theorem heap_covered (few : n ≤ 4095) {i a : Nat} (high : i ≤ n) (low : (heapOf l).allocStart ≤ a)
    (below : a < (heapOf l).runAddr i) : ∃ sec ∈ dataSections l, sec.covers a := by
  have inside := runAddr_le_memoryEnd room few high
  have table := (heapOf l).table_le_allocStart
  have start : (heapOf l).heapStart = l.heapStart := rfl
  have ram := heapOf_end room
  have stop : memoryEnd = 0x88000000 := rfl
  refine ⟨⟨l.heapStart, memoryEnd, rw⟩, by simp [dataSections], ?_, ?_⟩
  · dsimp only
    rw [Heap.heapEnd, start] at ram
    rw [alignDown_eq (by omega), pageSize_eq]
    omega
  · exact lt_of_lt_of_le (below.trans_le inside) (Mm.PageFrame.le_nextMultipleOf _ _)

end Room

theorem kinitMap_drawn (room : 91 ≤ (heapOf l).pages)
    {pages : Mm.PageFrame.State (heapOf l)} {pool : Pool (heapOf l).pages}
    (refines : Refines pages pool) (live : pool.live = {⟨0, 1⟩}) {mem : Mem}
    (zero : ∀ i, mem (entryAddr ((heapOf l).runAddr 0) i) = 0) :
    ∃ mem' s', kinitMap frame ((heapOf l).runAddr 0) l mem (pages, []) = .ok (mem', s') ∧
      Shows mem' ((heapOf l).runAddr 0) (kernelView l) ∧
      Drawn ((heapOf l).runAddr 0) (kernelTables l) {⟨0, 1⟩} 1 68 mem' s' := by
  have ends := heapOf_end room
  have low : (heapOf l).heapEnd ≤ 2 ^ 63 := by
    rw [ends, memoryEnd]
    omega
  have first : ∀ r ∈ pool.live, r = ⟨0, 1⟩ := by
    intro r member
    rw [live] at member
    exact Finset.mem_singleton.mp member
  have rootLive : (⟨0, 1⟩ : Run) ∈ pool.live := by
    rw [live]
    exact Finset.mem_singleton_self _
  have below : pool.Below 1 := by
    intro r member
    rw [first r member]
    exact le_rfl
  have aligned : (heapOf l).runAddr 0 % pageSize = 0 := by
    rw [Heap.runAddr, Nat.add_mul_mod_self_right]
    exact (heapOf l).allocStart_mod
  have nonNull := (heapOf l).runAddr_ne_zero (i := 0) (by omega)
  have supplies : Supplies frame (kernelTables l).card (pages, []) {(heapOf l).runAddr 0} := by
    refine Supplies.of_le (kernelTables_card l)
      (frame_supplies refines below (by omega) low (fun page member => ?_) [])
    exact ⟨0, member, ⟨0, 1⟩, rootLive, Run.start_mem Nat.one_pos⟩
  have stocked : Stocked frame ((heapOf l).runAddr 0) (kernelTables l) mem (pages, []) := by
    rw [Stocked, tables_zeroRoot zero]
    exact supplies.of_le (Finset.card_filter_le _ _)
  have held : Held ((heapOf l).runAddr 0) ∅ mem (pages, []) := by
    refine ⟨?_, List.nodup_singleton _, pool, refines, Finset.empty_subset _, ?_, ?_⟩
    · rw [tables_zeroRoot zero]
      ext base
      simp
    · exact fun f member => absurd member List.not_mem_nil
    · intro i _ same
      rw [(heapOf l).runAddr_injective same]
      exact ⟨⟨0, 1⟩, rootLive, Finset.notMem_empty _, Run.start_mem Nat.one_pos⟩
  have drawn : Drawn ((heapOf l).runAddr 0) (kernelTables l) {⟨0, 1⟩} 1 68 mem (pages, []) := by
    refine ⟨held, ?_, pool, refines, live.ge, fun r member => .inl (live ▸ member), below⟩
    rw [List.length_nil, Nat.zero_add]
    exact (Finset.card_filter_le _ _).trans (kernelTables_card l)
  obtain ⟨mem', s', success, shows⟩ := kinitMap_shows aligned nonNull zero supplies
  refine ⟨mem', s', success, shows, ?_⟩
  exact mapSections_keeps (sections_sound l) kernelTables_short
    (fun sec member addr inPages => pathTables_subset member inPages)
    (fun addr wants => drawn_hosts low kernelTables_short (by omega) wants)
    (shows_zeroRoot aligned nonNull zero) stocked drawn success

/-- What `kinit` ends with, and that the pages it has drawn are the lowest ones. -/
theorem kinit_ends (env : KinitEnv) (k₀ : Kernel l) (room : 91 ≤ (heapOf l).pages)
    (fresh : Fresh k₀) (early : env.mtime.toNat + timerTick.toNat < 2 ^ 64) :
    ∃ k, kinit l env k₀ = .ok k ∧ Booted env k ∧
      ∃ pool : Pool (heapOf l).pages, Refines k.devices.pages pool ∧ pool.Below 89 := by
  have started : Refines (Mm.PageFrame.init k₀.devices.pages)
      (Pool.empty : Pool (heapOf l).pages) :=
    ⟨Mm.PageFrame.init_allocStart _, Mm.PageFrame.init_represents _⟩
  have nothing : (Pool.empty : Pool (heapOf l).pages).Below 0 := fun r member =>
    absurd member (Finset.notMem_empty r)
  -- the root
  obtain ⟨i, pages₁, fit₁, least, rootCall, refines₁, _⟩ :=
    zallocatePages_below started nothing Nat.one_pos (by omega) k₀.mem
  obtain rfl : i = 0 := Nat.le_zero.mp least
  -- the page table
  obtain ⟨mem₂, ⟨pages₂, frames⟩, mapped, shows, drawn⟩ :=
    kinitMap_drawn room refines₁ (by rfl) (zeroPages_entry k₀.mem _)
  obtain ⟨pool₂, refines₂, kept, known, below₂⟩ := drawn.low
  have count : frames.length ≤ 68 := (Nat.le_add_right _ _).trans drawn.count
  have tables₂ := drawn.live_pages refines₂ kept
  -- the trap stack
  obtain ⟨j, pages₃, fit₃, _, stackCall, refines₃, below₃⟩ :=
    zallocatePages_below refines₂ below₂ trapStackPages_pos
      (by rw [trapStackPages]; dsimp only; omega) mem₂
  -- the devices
  have probed := @probe_below _ env.bus { k₀.devices with pages := pages₃ } _ refines₃ _ below₃
    (by rw [Virtio.Setup.queuePages_eq, trapStackPages]; dsimp only; omega)
  obtain ⟨pool₄, queues, refines₄, queued, below₄⟩ := probed
  obtain ⟨pool₅, registered⟩ := Virtio.Setup.probe_registered env.bus
    { k₀.devices with pages := pages₃ } _ refines₃ fresh.devices
  obtain rfl : pool₅ = pool₄ :=
    Pool.eq_of_live (registered.pages.table.live_unique refines₄.table)
  have high : ∀ r ∈ pool₅.live, r.start + r.len ≤ 89 := by
    intro r member
    have bound := below₄ r member
    rw [Virtio.Setup.queuePages_eq, trapStackPages] at bound
    dsimp only at bound
    omega
  have tick : nextTick env = .ok (env.mtime + timerTick) :=
    if_neg fun late => absurd late.2 (Nat.not_le.mpr early)
  refine ⟨_, by
    rw [kinit, rootCall]
    dsimp only
    rw [mapped]
    dsimp only
    rw [stackCall, tick]
    rfl, ?_, pool₅, refines₄, high⟩
  have tables₅ : ∀ base ∈ (heapOf l).runAddr 0 :: frames,
      ∃ i, base = (heapOf l).runAddr i ∧ ⟨i, 1⟩ ∈ pool₅.live := by
    intro base member
    obtain ⟨i, same, live⟩ := tables₂ base member
    refine ⟨i, same, ?_⟩
    rw [queued.live]
    exact Finset.mem_union_left _ (Finset.mem_insert_of_mem live)
  have addressable : ∀ base ∈ (heapOf l).runAddr 0 :: frames, base < 2 ^ 56 :=
    fun base member => table_addressable room (by decide) high (tables₅ base member)
  have agree := fun m => drawn.agree (m := m) shows tables₂ fit₃.1
  constructor
  · exact ⟨by rfl, rfl⟩
  · exact ⟨rfl, rfl⟩
  · rw [fresh.trapFrame]
    rfl
  · exact ⟨rfl, rfl⟩
  · exact ⟨satp_toNat (addressable _ List.mem_cons_self), shows.table.rootAligned⟩
  · exact fun m same => (agree m same).1
  · intro m same va
    obtain ⟨shows', sameTables⟩ := agree m same
    refine shows'.hardwareTranslate_eq (fun base member => ?_) va
    rw [sameTables] at member
    exact addressable base member
  · exact drawn.held.distinct
  · refine ⟨pool₅, j, queues, registered, tables₅, rfl, fun r => ?_, queued.len, queued.few, ?_⟩
    · rw [queued.live, Finset.mem_union]
      have stack : r ∈ (pool₂.take trapStackPages j trapStackPages_pos fit₃.1).live ↔
          r = ⟨j, trapStackPages⟩ ∨ r ∈ pool₂.live := Finset.mem_insert
      rw [stack, live_iff_table known tables₂, or_assoc, or_left_comm]
    · intro r member a low below
      exact heap_covered room (by decide) (high r member) ((Nat.le_add_right _ _).trans low) below
  · exact configure_served registered fresh.plic

/-- Static data at `_start`: zero, but for the heap, which holds ones. -/
def loaded (l : Layout) : Kernel l where
  hart := ⟨⟨0, 0, 0, 0, 0, 0, 0, 0⟩, ⟨0, 0, 0, 0, 0, 0, 0⟩, .machine, .boot 0⟩
  mem _ := -1
  devices := ⟨fun _ => .empty, fun _ => none,
    ⟨List.replicate (heapOf l).pages ⟨0xff⟩, 0, List.length_replicate⟩, []⟩
  plic := ⟨fun _ => 0, 0, 0, ∅, ∅⟩
  mscratch := 0
  mie := 0
  mtimecmp := 0
  trapStackTop := 0
  trapFrame := .empty
  root := 0
  frames := []

theorem loaded_fresh (l : Layout) : Fresh (loaded l) := ⟨fun _ => ⟨rfl, rfl⟩, rfl, rfl⟩

def silentEnv : KinitEnv := ⟨fun _ => none, 0, 0x80005010, 0x80000200, 0x80001800, true⟩

end Boot

end Vesper.Boot
