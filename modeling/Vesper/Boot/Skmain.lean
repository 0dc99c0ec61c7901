import Vesper.Boot.Kinit
import Vesper.Fs.Directory
import Vesper.Process.Lifecycle

/-!
# From reset to the idle loop

`skmain` (`boot/entry.rs`) on what `kinit` leaves behind: it reads the first sector of the
first disk, looks for a file system there, spawns `init` and idles.  Timer interrupts before
the spawn find no process and change nothing, so that they are left out.

`kinit` draws at most 89 pages and leaves them at the low end of the heap.  Six pages behind
them are enough for `skmain`, whatever is on the disk and whatever status the device answers
a request with (one that is never answered keeps `block_op` polling and is left out): the
directory's buffer, the four scratch buffers of `read_file` and the page of a request, all
of which are given back before two pages become the stack of `init`.
-/

set_option autoImplicit false

namespace Vesper.Boot

open Vesper.Console (println)
open Vesper.Lib.FirstFit
open Vesper.Lifecycle (lifecycle booted)
open Vesper.Minix3 (Environment Pages Spare Room Stop Steady Carries driver giveBack testMinix3)
open Vesper.Mm.PageFrame (Heap Refines pageSize pageSize_eq)
open Vesper.Scheduler (Table Process schedule spawnKernel stackPages firstSlot)
open Vesper.Virtio.Setup (firstBlockDevice)

/-! ## Model -/

/-- `{:02x}`, behind a blank. -/
def hexByte (b : BitVec 8) : List Char :=
  [' ', Nat.digitChar (b.toNat / 16), Nat.digitChar (b.toNat % 16)]

def dumpLines (byte : Nat → BitVec 8) : List Char :=
  (List.range 48).flatMap fun i =>
    hexByte (byte i) ++ if (i + 1) % 24 = 0 then println "" else []

section Model
variable {h : Heap} (env : Environment)

def testBlockDriver (device : Option Nat) (s : Pages h) : Except Stop (List Char × Pages h) :=
  match device with
  | none => .ok (println "no block device discovered", s)
  | some dev =>
      match Minix3.allocateFrames 1 s with
      | none => .ok (println "failed to allocate test buffer", s)
      | some (buffer, s) =>
          let (ok, s) :=
            Minix3.blockOp (env.outcomes s.requests) { s with requests := s.requests + 1 }
          giveBack buffer (if ok then dumpLines (env.disk dev) else println "block read failed") s

structure Idle (h : Heap) where
  console : List Char
  pages : Pages h
  procs : Scheduler.Kernel

def greeting : List Char :=
  println "" ++ println "paging enabled (Sv39), now in S-mode" ++
    println "interrupts enabled — type to echo:" ++ println "Testing block driver."

def farewell : List Char :=
  println "spawned init kernel thread, awaiting first timer tick"

/-- `initProcess` is the address of `init_process`. -/
def skmain (initProcess : BitVec 64) (devices : Virtio.Setup.Sys h) (procs : Scheduler.Kernel) :
    Except Stop (Idle h) :=
  let device := (firstBlockDevice devices).map Fin.val
  match testBlockDriver env device ⟨devices.pages, 0, false⟩ with
  | .error stop => .error stop
  | .ok (tested, s) =>
      match testMinix3 env device s with
      | .error stop => .error stop
      | .ok (shown, s) =>
          match spawnKernel Lifecycle.zallocate initProcess procs s.frames with
          | (.error _, _, _) => .error (.expect "failed to spawn init")
          | (.ok _, procs, frames) =>
              .ok ⟨greeting ++ tested ++ println "Block driver done" ++ shown ++ farewell,
                { s with frames := frames }, procs⟩

end Model

/-! ## Pages -/

section Pages
variable {h : Heap} {env : Environment} {pool : Pool h.pages} {k n : Nat}

theorem room_of_below {pages : Mm.PageFrame.State h} (refines : Refines pages pool)
    (below : pool.Below k) (room : k + n ≤ h.pages) (inside : h.runAddr (k + n) ≤ h.heapEnd) :
    Room n pool := by
  induction n generalizing pages pool k with
  | zero => trivial
  | succ n ih =>
      obtain ⟨i, pages', fit, low, -, taken, below'⟩ :=
        allocate_below refines below Nat.one_pos (by omega)
      have next : k + 1 + n = k + (n + 1) := by omega
      refine ⟨i, fit, ?_, ih taken below' (by omega) (by rw [next]; exact inside)⟩
      simp only [Heap.runAddr, pageSize_eq] at inside ⊢
      omega

theorem testBlockDriver_ends (device : Option Nat) {s : Pages h}
    (spare : Spare (n + 2) pool s) :
    ∃ lines s', testBlockDriver env device s = .ok (lines, s') ∧ Spare (n + 2) pool s' := by
  cases device with
  | none => exact ⟨_, _, rfl, spare⟩
  | some dev =>
      obtain ⟨i, s₁, pool', call, taken, back⟩ := spare.borrow
      have counted : Spare (n + 1) pool' { s₁ with requests := s₁.requests + 1 } :=
        ⟨taken.refines, taken.calm, taken.room⟩
      obtain ⟨-, after⟩ := Minix3.blockOp_spare counted (env.outcomes s₁.requests)
      obtain ⟨frames, freed, last⟩ := back _ after
      unfold testBlockDriver
      rw [call]
      dsimp only
      rw [giveBack, Minix3.dropBuffer, freed]
      exact ⟨_, _, rfl, last⟩

def initTable (stack : Nat) (initProcess : BitVec 64) : Table :=
  Table.empty.setSlot firstSlot (some ⟨stack, initProcess, 1, .running⟩)

theorem empty_freeSlot : Table.empty.freeSlot = some firstSlot := by
  decide

theorem initTable_schedule (stack : Nat) (initProcess epc : BitVec 64) :
    schedule epc (initTable stack initProcess) =
      (some (firstSlot, initProcess),
        { initTable stack initProcess with current := some firstSlot }) := by
  rfl

end Pages

/-! ## The idle kernel -/

section Idle
variable {h : Heap} {env : Environment} {initProcess : BitVec 64} {devices : Virtio.Setup.Sys h}

/-- What `skmain` leaves: two more pages are taken, for the stack of `init`, the process
system starts from there, and on a disk with a root directory its entries have been shown. -/
structure Idles (env : Environment) (initProcess : BitVec 64) (devices : Virtio.Setup.Sys h)
    (idle : Idle h) : Prop where
  stack : ∃ (pool : Pool h.pages) (i : Nat) (fit : pool.IsFirstFit stackPages i),
    Refines devices.pages pool ∧
    Refines idle.pages.frames (pool.take stackPages i (Nat.succ_pos 1) fit.1) ∧
    idle.procs = ⟨initTable (h.runAddr i) initProcess, 2⟩
  calm : idle.pages.tripped = false
  reached : ∃ start : Mm.PageFrame.State h, start.table = devices.pages.table ∧
    (lifecycle start).Reach ⟨idle.procs, idle.pages.frames, false, 1, 0⟩
  shown : Steady env → ∀ slot v entries, firstBlockDevice devices = some slot →
    Carries (driver h env) slot v → Minix3.rootInode ≤ v.inodes →
    v.content Minix3.rootInode = Minix3.encodeAll entries →
    Minix3.isDir (Minix3.modeAt (driver h env) (Minix3.handle (driver h env) slot)
      Minix3.rootInode) = true →
    ∃ before, idle.console = before ++ Minix3.listLines entries ++ farewell

theorem skmain_ends {pool : Pool h.pages} {k : Nat} (refines : Refines devices.pages pool)
    (below : pool.Below k) (room : k + 6 ≤ h.pages) (inside : h.runAddr (k + 6) ≤ h.heapEnd) :
    ∃ idle, skmain env initProcess devices ⟨Table.empty, 1⟩ = .ok idle ∧
      Idles env initProcess devices idle := by
  have spare : Spare (0 + 6) pool ⟨devices.pages, 0, false⟩ :=
    ⟨refines, rfl, room_of_below refines below room inside⟩
  obtain ⟨tested, s₁, first, spare₁⟩ :=
    @testBlockDriver_ends h env pool 4 ((firstBlockDevice devices).map Fin.val) _ spare
  obtain ⟨shown, s₂, second, spare₂, lists⟩ :=
    @Minix3.testMinix3_ends h env 0 pool ((firstBlockDevice devices).map Fin.val) _ spare₁
  obtain ⟨i, frames, fit, low, call, taken, -⟩ :=
    allocate_below spare₂.refines below (show 0 < stackPages by decide)
      (show k + 2 ≤ h.pages by omega)
  have stack : Lifecycle.zallocate s₂.frames = some (h.runAddr i, frames) := by
    rw [Lifecycle.zallocate, Mm.PageFrame.zallocate, call]
  have spawned : spawnKernel Lifecycle.zallocate initProcess ⟨Table.empty, 1⟩ s₂.frames =
      (.ok 1, ⟨initTable (h.runAddr i) initProcess, 2⟩, frames) := by
    rw [spawnKernel, stack]
    dsimp only
    rw [empty_freeSlot]
    rfl
  have ends : skmain env initProcess devices ⟨Table.empty, 1⟩ =
      .ok ⟨greeting ++ tested ++ println "Block driver done" ++ shown ++ farewell,
        { s₂ with frames := frames }, ⟨initTable (h.runAddr i) initProcess, 2⟩⟩ := by
    simp only [skmain, first, second, spawned]
  refine ⟨_, ends, ⟨pool, i, fit, refines, taken, rfl⟩, spare₂.calm, ?_, ?_⟩
  · refine ⟨s₂.frames, spare₂.refines.table.table_unique refines.table rfl, ?_⟩
    refine Lifecycle.reach_step (.start rfl) (.spawn initProcess) ?_
    rw [Lifecycle.step, booted, if_neg Bool.false_ne_true]
    dsimp only
    rw [spawned, stack]
    rfl
  · intro steady slot v entries device carries present root dir
    rw [lists steady slot v entries (by rw [device]; rfl) carries present root dir]
    exact ⟨greeting ++ tested ++ println "Block driver done" ++ Minix3.probeLines slot ++
      Minix3.rootLines (driver h env) (Minix3.handle (driver h env) slot), by simp⟩

end Idle

end Vesper.Boot
