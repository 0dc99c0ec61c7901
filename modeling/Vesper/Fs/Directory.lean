import Mathlib.Tactic
import Vesper.Console.Keys
import Vesper.Fs.Store

/-!
# Listing the root directory

`DirEntry` of `fs/minix3/dir_entry.rs`, and `list_dir` and `test_minix3` of `boot/entry.rs`,
which probe the first disk at boot and print its root directory.  Only the first block of a
directory is read, so that the walk of `read_file` ends at its first zone, whatever the other
zones are.

A directory is a list of names with their inodes; `Dirent.encode` is its format on the disk.
-/

set_option autoImplicit false

namespace Vesper.Minix3

open Vesper.Console (println)
open Vesper.Lib.EarlyExit
open Vesper.Lib.FirstFit
open Vesper.Mm.PageFrame

/-! ## Model -/

def rootInode : Nat := 1

def maxNameLen : Nat := 60

def direntSize : Nat := 64

structure DirEntry where
  inode : Nat
  name : List (BitVec 8)

def DirEntry.read (slice : Nat → BitVec 8) (off : Nat) : DirEntry where
  inode := readU32 slice off
  name := (List.range maxNameLen).map fun k => slice (off + 4 + k)

def fromUtf8 (bytes : List (BitVec 8)) : Option String :=
  String.fromUTF8? ⟨(bytes.map UInt8.ofBitVec).toArray⟩

def DirEntry.nameStr (de : DirEntry) : String :=
  let len := (de.name.findIdx? (· == 0)).getD de.name.length
  (fromUtf8 (de.name.take len)).getD "<bad utf8>"

def FsError.debug : FsError → String
  | .badMagic => "BadMagic"
  | .blockReadFailed => "BlockReadFailed"
  | .outOfMemory => "OutOfMemory"
  | .inodeOutOfRange => "InodeOutOfRange"
  | .bufferTooSmall => "BufferTooSmall"

/-- `mode` of the inode that `inodeAt` decodes, which leaves it out. -/
def modeAt {σ : Type} (p : Platform σ) (fs : Fs) (num : Nat) : Nat :=
  readU16 (p.block fs.dev (fs.inodeOffset num / blockSize * blockSize))
    (fs.inodeOffset num - fs.inodeOffset num / blockSize * blockSize)

def typeMask : Nat := 0o170000

def directory : Nat := 0o040000

def isDir (mode : Nat) : Bool := (mode &&& typeMask) == directory

/-- How the kernel stops: at an `expect`, a checked subtraction or an assertion of
`deallocate`. -/
inductive Stop where
  | expect (text : String)
  | overflow
  | deallocate
  deriving DecidableEq, Repr

/-- The line for entry `i`; entries without an inode are skipped. -/
def entryLine (slice : Nat → BitVec 8) (i : Nat) : List Char :=
  let de := DirEntry.read slice (i * direntSize)
  if de.inode = 0 then []
  else println ("    inode " ++ (toString de.inode).leftpad 4 ' ' ++ "  " ++ de.nameStr)

def headLine (entries : Nat) : List Char := println ("  /  (" ++ toString entries ++ " entries):")

section Model
variable {h : Heap} (env : Environment)

/-- `page_frame::deallocate(buf_pages)` at the end of `list_dir`. -/
def giveBack (buf : Nat) (lines : List Char) (s : Pages h) :
    Except Stop (List Char × Pages h) :=
  match dropBuffer buf s with
  | none => .error .deallocate
  | some s => .ok (lines, s)

def listDir (fs : Fs) (dir : Inode) (s : Pages h) : Except Stop (List Char × Pages h) :=
  match allocateFrames 1 s with
  | none => .error (.expect "OOM listing dir")
  | some (buf, s) =>
      match readFile ((driver h env).into buf) fs dir 0#32 blockSize ⟨s, fun _ => 0, []⟩ with
      | (_, .overflow) => .error .overflow
      | (_, .dropPanic) => .error .deallocate
      | (w, .failed e) => giveBack buf (println ("  list_dir failed: " ++ e.debug)) w.sys
      | (w, .returned read) =>
          let entries := read / direntSize
          giveBack buf (headLine entries ++ (List.range entries).flatMap (entryLine w.out)) w.sys

def superBlockLine {σ : Type} (p : Platform σ) (dev : Nat) : List Char :=
  let block := p.block dev blockSize
  println ("  superblock: ninodes=" ++ toString (readU32 block 0) ++ " zones=" ++
    toString (readU32 block 20) ++ " block_size=" ++ toString (readU16 block 28) ++
    " first_data_zone=" ++ toString (readU16 block 10))

def inodeLine (mode : Nat) (inode : Inode) : List Char :=
  println ("  root inode: mode=0o" ++ String.ofList (Nat.toDigits 8 mode) ++ " size=" ++
    toString inode.size.toNat ++ " zones[0]=" ++ toString (inode.zone 0))

def probeLines (dev : Nat) : List Char :=
  println "" ++ println ("Probing device " ++ toString dev ++ " for Minix 3 filesystem...")

/-- The part of `test_minix3` behind `mount`. -/
def testRoot (fs : Fs) (lines : List Char) (s : Pages h) :
    Except Stop (List Char × Pages h) :=
  let lines := lines ++ superBlockLine (driver h env) fs.dev
  match readInode (driver h env) fs rootInode ⟨s, fun _ => 0, []⟩ with
  | (_, .overflow) => .error .overflow
  | (_, .dropPanic) => .error .deallocate
  | (w, .failed e) => .ok (lines ++ println ("  read root inode failed: " ++ e.debug), w.sys)
  | (w, .returned root) =>
      let mode := modeAt (driver h env) fs rootInode
      let lines := lines ++ inodeLine mode root
      if isDir mode = false then
        .ok (lines ++ println "  root inode is not a directory; aborting", w.sys)
      else
        match listDir env fs root w.sys with
        | .error stop => .error stop
        | .ok (listed, s) => .ok (lines ++ listed, s)

/-- `device` is the answer of `first_block_device`.  `ELF_TEST_INODE` is 0, so that
`test_elf` is not called. -/
def testMinix3 (device : Option Nat) (s : Pages h) : Except Stop (List Char × Pages h) :=
  match device with
  | none => .ok ([], s)
  | some dev =>
      match mount (driver h env) dev ⟨s, fun _ => 0, []⟩ with
      | (_, .overflow) => .error .overflow
      | (_, .dropPanic) => .error .deallocate
      | (w, .failed .badMagic) =>
          .ok (probeLines dev ++ println ("  no Minix 3 filesystem (magic mismatch). " ++
            "Format with `mkfs.minix -3` to test."), w.sys)
      | (w, .failed e) => .ok (probeLines dev ++ println ("  mount failed: " ++ e.debug), w.sys)
      | (w, .returned fs) => testRoot env fs (probeLines dev) w.sys

end Model

/-! ## Directories and their format -/

def nameBytes (name : String) : List (BitVec 8) :=
  name.toByteArray.data.toList.map UInt8.toBitVec

structure Dirent where
  inode : BitVec 32
  name : String
  short : (nameBytes name).length ≤ maxNameLen
  plain : 0#8 ∉ nameBytes name

def le32 (x : BitVec 32) : List (BitVec 8) :=
  [x.extractLsb' 0 8, x.extractLsb' 8 8, x.extractLsb' 16 8, x.extractLsb' 24 8]

def Dirent.padded (d : Dirent) : List (BitVec 8) :=
  nameBytes d.name ++ List.replicate (maxNameLen - (nameBytes d.name).length) 0

def Dirent.encode (d : Dirent) : List (BitVec 8) := le32 d.inode ++ d.padded

def encodeAll (entries : List Dirent) : List (BitVec 8) := entries.flatMap Dirent.encode

def Dirent.line (d : Dirent) : List Char :=
  if d.inode = 0 then []
  else println ("    inode " ++ (toString d.inode.toNat).leftpad 4 ' ' ++ "  " ++ d.name)

theorem Dirent.padded_length (d : Dirent) : d.padded.length = maxNameLen := by
  have short := d.short
  rw [padded, List.length_append, List.length_replicate]
  omega

theorem Dirent.encode_length (d : Dirent) : d.encode.length = direntSize := by
  rw [encode, List.length_append, d.padded_length]
  rfl

theorem fromUtf8_nameBytes (name : String) : fromUtf8 (nameBytes name) = some name := by
  have bytes : (nameBytes name).map UInt8.ofBitVec = name.toByteArray.data.toList := by
    rw [nameBytes, List.map_map]
    exact List.map_id _
  rw [fromUtf8, bytes]
  exact dif_pos name.isValidUTF8

theorem nameStr_padded (d : Dirent) (inode : Nat) :
    (⟨inode, d.padded⟩ : DirEntry).nameStr = d.name := by
  have none : (nameBytes d.name).findIdx? (· == 0) = none := by
    rw [List.findIdx?_eq_none_iff]
    intro b member
    simp only [beq_eq_false_iff_ne]
    rintro rfl
    exact d.plain member
  have ends : (d.padded.findIdx? (· == 0)).getD d.padded.length = (nameBytes d.name).length := by
    rw [Dirent.padded, List.findIdx?_append, none, List.length_append, List.length_replicate]
    cases maxNameLen - (nameBytes d.name).length with
    | zero => rfl
    | succ m => simp [List.replicate_succ, List.findIdx?_cons]
  unfold DirEntry.nameStr
  dsimp only
  rw [ends, Dirent.padded, List.take_left, fromUtf8_nameBytes]
  rfl

theorem readU32_le32 {slice : Nat → BitVec 8} {off : Nat} {x : BitVec 32}
    (stored : ∀ k < 4, (le32 x)[k]? = some (slice (off + k))) : readU32 slice off = x.toNat := by
  have b0 : x.extractLsb' 0 8 = slice off := Option.some.inj (stored 0 (by omega))
  have b1 : x.extractLsb' 8 8 = slice (off + 1) := Option.some.inj (stored 1 (by omega))
  have b2 : x.extractLsb' 16 8 = slice (off + 2) := Option.some.inj (stored 2 (by omega))
  have b3 : x.extractLsb' 24 8 = slice (off + 2 + 1) := Option.some.inj (stored 3 (by omega))
  rw [readU32, readU16, readU16, ← b0, ← b1, ← b2, ← b3]
  simp only [BitVec.extractLsb'_toNat, Nat.shiftRight_eq_div_pow]
  have bound := x.isLt
  omega

theorem read_encode {slice : Nat → BitVec 8} {off : Nat} {d : Dirent}
    (stored : ∀ k < direntSize, d.encode[k]? = some (slice (off + k))) :
    DirEntry.read slice off = ⟨d.inode.toNat, d.padded⟩ := by
  have number : ∀ k < 4, (le32 d.inode)[k]? = some (slice (off + k)) := by
    intro k small
    rw [← stored k (by change k < 64; omega), Dirent.encode, List.getElem?_append_left small]
  have name : (List.range maxNameLen).map (fun k => slice (off + 4 + k)) = d.padded := by
    apply List.ext_getElem?
    intro k
    by_cases inside : k < maxNameLen
    · have here := stored (4 + k) (by change k < 60 at inside; change 4 + k < 64; omega)
      rw [Dirent.encode, List.getElem?_append_right (by simp [le32])] at here
      have shift : 4 + k - (le32 d.inode).length = k := by simp [le32]
      rw [shift] at here
      rw [here, List.getElem?_map, List.getElem?_range inside, Option.map_some, Nat.add_assoc]
    · rw [List.getElem?_eq_none (by simpa using inside),
        List.getElem?_eq_none (by rw [d.padded_length]; omega)]
  rw [DirEntry.read, readU32_le32 number, name]

theorem encodeAll_getElem? (entries : List Dirent) (i : Nat) {k : Nat} (small : k < direntSize) :
    (encodeAll entries)[i * direntSize + k]? = (entries[i]?).bind (·.encode[k]?) := by
  induction entries generalizing i with
  | nil => rfl
  | cons d rest ih =>
      rw [encodeAll, List.flatMap_cons]
      cases i with
      | zero =>
          rw [Nat.zero_mul, Nat.zero_add, List.getElem?_append_left (d.encode_length ▸ small)]
          rfl
      | succ i =>
          rw [List.getElem?_append_right (by rw [d.encode_length, Nat.succ_mul]; omega),
            d.encode_length]
          have shift : (i + 1) * direntSize + k - direntSize = i * direntSize + k := by
            rw [Nat.succ_mul]
            omega
          rw [shift]
          exact ih i

theorem encodeAll_length (entries : List Dirent) :
    (encodeAll entries).length = entries.length * direntSize := by
  induction entries with
  | nil => rfl
  | cons d rest ih =>
      rw [encodeAll, List.flatMap_cons, List.length_append, d.encode_length, List.length_cons,
        Nat.succ_mul, Nat.add_comm]
      exact congrArg (· + direntSize) ih

theorem entryLine_stored {slice : Nat → BitVec 8} {entries : List Dirent} (n : Nat)
    (enough : n ≤ entries.length)
    (stored : ∀ k < n * direntSize, (encodeAll entries)[k]? = some (slice k)) :
    (List.range n).flatMap (entryLine slice) = (entries.take n).flatMap Dirent.line := by
  induction n with
  | zero => rfl
  | succ n ih =>
      have earlier := ih (by omega) fun k small => stored k (by rw [Nat.succ_mul]; omega)
      have here : ∀ k < direntSize,
          (entries.get ⟨n, enough⟩).encode[k]? = some (slice (n * direntSize + k)) := by
        intro k small
        rw [← stored _ (by rw [Nat.succ_mul]; omega), encodeAll_getElem? entries n small,
          List.getElem?_eq_getElem enough]
        rfl
      have line : entryLine slice n = (entries.get ⟨n, enough⟩).line := by
        rw [entryLine, read_encode here]
        dsimp only
        rw [nameStr_padded, Dirent.line]
        simp only [BitVec.toNat_eq]
        rfl
      rw [List.range_succ, List.flatMap_append, earlier, List.take_add_one,
        List.flatMap_append, List.getElem?_eq_getElem enough]
      congr 1
      rw [Option.toList_some, List.flatMap_singleton, List.flatMap_singleton]
      exact line

/-! ## Pages for scopes within scopes -/

section Room
variable {h : Heap}

/-- `n` pages can be taken one after the other, and all of them start inside the heap. -/
def Room : Nat → Pool h.pages → Prop
  | 0, _ => True
  | n + 1, pool => ∃ i, ∃ fit : pool.IsFirstFit 1 i, h.runAddr i < h.heapEnd ∧
      Room n (pool.take 1 i Nat.one_pos fit.1)

theorem Holding.room {pool : Pool h.pages} {s : Pages h} (holding : Holding pool s) {n : Nat}
    (many : n ≤ pool.free.card) : Room n pool := by
  induction n generalizing pool s with
  | zero => trivial
  | succ n ih =>
      rcases allocateFrames_one holding with ⟨full, -⟩ | ⟨i, s', fit, -, taken, less⟩
      · omega
      · exact ⟨i, fit, holding.start_below Nat.one_pos fit, ih taken (by omega)⟩

/-- The allocator holds the runs of `pool` and has `n` pages to spare. -/
structure Spare (n : Nat) (pool : Pool h.pages) (s : Pages h) : Prop where
  refines : Refines s.frames pool
  calm : s.tripped = false
  room : Room n pool

variable {env : Environment} {n : Nat} {pool : Pool h.pages}

theorem Spare.borrow {s : Pages h} (spare : Spare (n + 1) pool s) :
    ∃ (i : Nat) (s' : Pages h) (pool' : Pool h.pages),
      allocateFrames 1 s = some (h.runAddr i, s') ∧ Spare n pool' s' ∧
      ∀ s'', Spare n pool' s'' → ∃ frames, deallocate s''.frames (h.runAddr i) = .ok frames ∧
        Spare (n + 1) pool { s'' with frames := frames } := by
  obtain ⟨i, fit, inside, rest⟩ := spare.room
  rcases allocate_cases spare.refines Nat.one_pos with ⟨-, full⟩ | ⟨j, frames, fit', call, taken⟩
  · exact absurd fit.1 (full i)
  · obtain rfl : j = i := fit'.unique fit
    refine ⟨j, { s with frames := frames }, pool.take 1 j Nat.one_pos fit.1, ?_,
      ⟨taken, spare.calm, rest⟩, fun s'' after => ?_⟩
    · rw [allocateFrames, call]
    · have fresh : (⟨j, 1⟩ : Run) ∉ pool.live := fun live =>
        (Pool.mem_free.mp (Pool.window_one.mp fit.1)).2 _ live (Run.start_mem Nat.one_pos)
      obtain ⟨frames, success, refines⟩ :=
        deallocate_refines after.refines (Finset.mem_insert_self _ _) inside
      have same : (pool.take 1 j Nat.one_pos fit.1).release ⟨j, 1⟩ = pool :=
        Pool.eq_of_live (Finset.erase_insert fresh)
      rw [same] at refines
      exact ⟨frames, success, refines, after.calm, spare.room⟩

theorem blockOp_spare {s : Pages h} (spare : Spare (n + 1) pool s) (outcome : Outcome) :
    (blockOp outcome s).1 = outcome.ok ∧ Spare (n + 1) pool (blockOp outcome s).2 := by
  unfold blockOp
  split_ifs with absent
  · rw [absent]
    exact ⟨rfl, spare⟩
  · obtain ⟨i, s', pool', call, taken, back⟩ := spare.borrow
    obtain ⟨frames, freed, after⟩ := back s' taken
    rw [call]
    refine ⟨rfl, ?_⟩
    change Spare (n + 1) pool (freeRequest (h.runAddr i) s')
    rw [freeRequest, freed]
    exact after

variable {w : World (Pages h)} {dev offset : Nat}

theorem blockRead_spare (spare : Spare (n + 1) pool w.sys) :
    ∃ ok w', blockRead (sealedDriver h env) dev offset w = (ok, w') ∧ Spare (n + 1) pool w'.sys ∧
      w'.out = w.out ∧ (Steady env → ok = true) := by
  have counted : Spare (n + 1) pool { w.sys with requests := w.sys.requests + 1 } :=
    ⟨spare.refines, spare.calm, spare.room⟩
  obtain ⟨answer, after⟩ := blockOp_spare counted (env.outcomes w.sys.requests)
  refine ⟨_, _, blockRead_sealed, after, rfl, fun steady => ?_⟩
  rw [answer, steady]
  rfl

/-! ## Rules for calls -/

/-- The call returns or fails with `Q`, and the runs and pages to spare are as before. -/
structure Ends (n : Nat) (pool : Pool h.pages) {α : Type}
    (Q : (Nat → BitVec 8) → Exit α → Prop) (result : World (Pages h) × Exit α) : Prop where
  spare : Spare n pool result.1.sys
  post : Q result.1.out result.2
  returns : result.2 ≠ .overflow ∧ result.2 ≠ .dropPanic

theorem withBuffer_ends {α : Type} {Q : (Nat → BitVec 8) → Exit α → Prop}
    {body : World (Pages h) → World (Pages h) × Exit α}
    (inner : ∀ (pool : Pool h.pages) w', Spare n pool w'.sys → w'.out = w.out →
      Ends n pool Q (body w'))
    (spare : Spare (n + 1) pool w.sys) :
    Ends (n + 1) pool Q (withBuffer (sealedDriver h env) body w) := by
  obtain ⟨i, s, pool', call, taken, back⟩ := spare.borrow
  have granted : (sealedDriver h env).bufferNew w.sys = some (h.runAddr i, s) := call
  have ended := inner pool' ({ w with sys := s }.note (.bufferNew true)) taken rfl
  rw [withBuffer, granted]
  dsimp only
  generalize body ({ w with sys := s }.note (.bufferNew true)) = result at ended ⊢
  obtain ⟨w', e⟩ := result
  obtain ⟨frames, freed, after⟩ := back w'.sys ended.spare
  have dropped : (sealedDriver h env).bufferDrop (h.runAddr i) w'.sys =
      some { w'.sys with frames := frames } := by
    change dropBuffer (h.runAddr i) w'.sys = _
    rw [dropBuffer, freed]
  cases e with
  | overflow => exact absurd rfl ended.returns.1
  | dropPanic => exact absurd rfl ended.returns.2
  | returned value =>
      dsimp only
      rw [dropped]
      exact ⟨after, ended.post, ended.returns⟩
  | failed error =>
      dsimp only
      rw [dropped]
      exact ⟨after, ended.post, ended.returns⟩

theorem fetch_ends {α : Type} (dev offset : Nat) {result : Exit α}
    (returns : result ≠ .overflow ∧ result ≠ .dropPanic) (spare : Spare (n + 2) pool w.sys) :
    Ends (n + 2) pool
      (fun _ e => e = result ∨ e = .failed .blockReadFailed ∧ ¬ Steady env)
      (fetch (sealedDriver h env) dev offset result w) := by
  refine withBuffer_ends (fun pool' w' spare' _ => ?_) spare
  obtain ⟨ok, w'', call, after, -, steady⟩ := blockRead_spare spare'
  rw [call]
  cases ok with
  | true => exact ⟨after, .inl rfl, returns⟩
  | false =>
      refine ⟨after, .inr ⟨rfl, fun served => ?_⟩, by simp⟩
      cases steady served

/-! ## The first block of a file -/

/-- What `read_file` does at the first zone, from offset 0 and within one block. -/
def readFirst (p : Platform (Pages h)) (fs : Fs) (inode : Inode) (stop : Nat)
    (w : World (Pages h)) : World (Pages h) × Exit Nat :=
  let w := w.note (.call (.direct 0) (inode.zone 0) 0)
  if inode.zone 0 = 0 then (w, .returned 0)
  else
    match blockRead p fs.dev (inode.zone 0 * blockSize) w with
    | (false, w) => (w, .failed .blockReadFailed)
    | (true, w) =>
        let c : Copy := ⟨0, 0, 0, 0, stop⟩
        let block := p.block fs.dev (inode.zone 0 * blockSize)
        ({ w with
          sys := p.storeCopy block c w.sys
          out := copyNonoverlapping p block c w.out }.note (.copy c), .returned stop)

theorem visitZone_first (p : Platform (Pages h)) (fs : Fs) (inode : Inode) {stop : Nat}
    (pos : 0 < stop) (short : stop ≤ blockSize) (w : World (Pages h)) (stale : Block) :
    ∃ v, visitZone p fs stop (.direct 0) (inode.zone 0) 0 ⟨w, 0, 0, stale⟩ =
        (v, some (readFirst p fs inode stop w).2) ∧
      v.world = (readFirst p fs inode stop w).1 := by
  have full : ¬ blockSize < stop := Nat.not_lt.mpr short
  rw [visitZone, if_neg (Nat.not_le.mpr pos), copyZone, readFirst]
  dsimp only
  split_ifs with hole past
  · simp [full]
  · cases past
  · cases call : blockRead p fs.dev (inode.zone 0 * blockSize)
        (w.note (.call (.direct 0) (inode.zone 0) 0)) with
    | mk ok w' =>
        cases ok with
        | false => exact ⟨_, rfl, rfl⟩
        | true => simp [copyChunk, usizeSub, Vars.copy, Nat.min_eq_right short]

theorem walkZones_first (p : Platform (Pages h)) (fs : Fs) (inode : Inode) {stop : Nat}
    (pos : 0 < stop) (short : stop ≤ blockSize) (w : World (Pages h)) :
    walkZones p fs inode 0 stop w = readFirst p fs inode stop w := by
  obtain ⟨v, visit, world⟩ := visitZone_first p fs inode pos short w p.stale
  have exits : directZones p fs inode stop ⟨⟨w, 0, 0, p.stale⟩, 0, p.stale, p.stale, p.stale⟩ =
      .exit ⟨v, 0, p.stale, p.stale, p.stale⟩ (readFirst p fs inode stop w).2 := by
    rw [directZones, numDirectZones, forRange, zoneStep, visit]
  rw [walkZones, allZones, exits]
  exact Prod.ext world rfl

def ReadsFirst (env : Environment) (fs : Fs) (inode : Inode) (out : Nat → BitVec 8) :
    Exit Nat → Prop
  | .returned n => n = (if inode.zone 0 = 0 then 0 else want inode 0#32 blockSize) ∧
      ∀ k < n, out k = env.disk fs.dev (inode.zone 0 * blockSize + k)
  | .failed _ => ¬ Steady env
  | _ => False

theorem readFirst_ends (fs : Fs) (inode : Inode) (short : want inode 0#32 blockSize ≤ blockSize)
    (spare : Spare (n + 1) pool w.sys) :
    Ends (n + 1) pool (ReadsFirst env fs inode)
      (readFirst (sealedDriver h env) fs inode (want inode 0#32 blockSize) w) := by
  rw [readFirst]
  split_ifs with hole
  · exact ⟨spare, ⟨(if_pos hole).symm, fun k small => absurd small (Nat.not_lt_zero k)⟩, by simp⟩
  · obtain ⟨ok, w', call, after, -, steady⟩ := blockRead_spare
      (w := w.note (.call (.direct 0) (inode.zone 0) 0)) spare
    rw [call]
    cases ok with
    | false =>
        refine ⟨after, fun served => ?_, by simp⟩
        cases steady served
    | true =>
        refine ⟨?_, ⟨(if_neg hole).symm, fun k small => ?_⟩, by simp⟩
        · rw [← sealed_deaf (sealedDriver h env) ⟨0, 0, 0, 0, want inode 0#32 blockSize⟩
            ((sealedDriver h env).block fs.dev (inode.zone 0 * blockSize)) w'.sys] at after
          exact after
        have inside : k % 2 ^ 64 = k ∧ k < blockSize := by
          change _ ≤ 1024 at short
          change _ ∧ k < 1024
          omega
        have here : 0 ≤ k ∧ k < 0 + want inode 0#32 blockSize := by omega
        dsimp only [World.note, copyNonoverlapping]
        rw [if_pos here, sourceByte, Nat.zero_add, Nat.sub_zero, inside.1, if_pos inside.2]
        rfl

theorem readFile_first (fs : Fs) (inode : Inode) (spare : Spare (n + 5) pool w.sys) :
    Ends (n + 5) pool (ReadsFirst env fs inode)
      (readFile (sealedDriver h env) fs inode 0#32 blockSize w) := by
  have short : want inode 0#32 blockSize ≤ blockSize := want_le _ _ _
  by_cases nothing : want inode 0#32 blockSize = 0
  · rw [readFile_empty nothing]
    refine ⟨spare, ⟨?_, fun k small => absurd small (Nat.not_lt_zero k)⟩, by simp⟩
    rw [nothing, ite_self]
  · rw [readFile, if_neg, if_neg nothing]
    · rw [show (0#32).toNat = 0 from rfl, Nat.zero_add]
      apply withBuffer_ends _ spare
      intro pool₁ w₁ spare₁ _
      apply withBuffer_ends _ spare₁
      intro pool₂ w₂ spare₂ _
      apply withBuffer_ends _ spare₂
      intro pool₃ w₃ spare₃ _
      apply withBuffer_ends _ spare₃
      intro pool₄ w₄ spare₄ _
      rw [walkZones_first _ _ _ (Nat.pos_of_ne_zero nothing) short]
      exact readFirst_ends fs inode short spare₄
    · intro small
      apply nothing
      rw [want, Nat.sub_eq_zero_of_le (BitVec.le_def.mp small), Nat.min_zero]

/-! ## The listing -/

structure Stored (env : Environment) (fs : Fs) (dir : Inode) (entries : List Dirent) : Prop where
  size : dir.size.toNat = (encodeAll entries).length
  mapped : entries ≠ [] → dir.zone 0 ≠ 0
  bytes : ∀ k < blockSize, k < (encodeAll entries).length →
    (encodeAll entries)[k]? = some (env.disk fs.dev (dir.zone 0 * blockSize + k))

def listLines (entries : List Dirent) : List Char :=
  headLine (min 16 entries.length) ++ (entries.take 16).flatMap Dirent.line

theorem Stored.lines {fs : Fs} {dir : Inode} {entries : List Dirent}
    (stored : Stored env fs dir entries) {out : Nat → BitVec 8} {n : Nat}
    (read : ReadsFirst env fs dir out (.returned n)) :
    headLine (n / direntSize) ++ (List.range (n / direntSize)).flatMap (entryLine out) =
      listLines entries := by
  obtain ⟨count, bytes⟩ := read
  have size : dir.size.toNat = entries.length * 64 := stored.size.trans (encodeAll_length entries)
  have all : n = min 16 entries.length * 64 := by
    rw [count, want, size, show blockSize % 2 ^ 32 = 1024 from rfl, show (0#32).toNat = 0 from rfl]
    split_ifs with hole
    · have none : entries = [] := by
        by_contra some_
        exact stored.mapped some_ hole
      rw [none]
      rfl
    · omega
  have many : n / direntSize = min 16 entries.length := by
    rw [all]
    exact Nat.mul_div_cancel _ (by decide)
  rw [many, listLines, List.take_eq_take_min,
    entryLine_stored _ (Nat.min_le_right 16 entries.length)]
  intro k small
  have inside : k < n := by rw [all]; exact small
  have first : k < blockSize := by
    change k < 1024
    omega
  rw [bytes k inside]
  refine stored.bytes k first ?_
  rw [encodeAll_length]
  change k < entries.length * 64
  omega

theorem listDir_ends (fs : Fs) (dir : Inode) {s : Pages h} (spare : Spare (n + 6) pool s) :
    ∃ lines s', listDir env fs dir s = .ok (lines, s') ∧ Spare (n + 6) pool s' ∧
      (Steady env → ∀ entries, Stored env fs dir entries → lines = listLines entries) := by
  obtain ⟨i, s₁, pool', call, taken, back⟩ := spare.borrow
  have ended : Ends (n + 5) pool' (ReadsFirst env fs dir)
      (readFile (sealedDriver h env) fs dir 0#32 blockSize ⟨s₁, fun _ => 0, []⟩) :=
    readFile_first fs dir taken
  -- the buffer is a page, and from offset 0 no hole makes the copies run past it
  have off : OffTable h (h.runAddr i) blockSize :=
    .inr (h.table_le_allocStart.trans (Nat.le_add_right _ _))
  have fits : CopiesFit (diskZone env.disk fs.dev) dir (0#32).toNat (want dir 0#32 blockSize)
      blockSize := .inr fun _ _ _ _ _ early => absurd early (Nat.not_lt_zero _)
  unfold listDir
  rw [call]
  dsimp only
  rw [readFile_driver off (InBounds.nil _) fits]
  generalize readFile (sealedDriver h env) fs dir 0#32 blockSize ⟨s₁, fun _ => 0, []⟩ = result
    at ended ⊢
  obtain ⟨w, e⟩ := result
  obtain ⟨frames, freed, after⟩ := back w.sys ended.spare
  have dropped : dropBuffer (h.runAddr i) w.sys = some { w.sys with frames := frames } := by
    rw [dropBuffer, freed]
  cases e with
  | overflow => exact absurd rfl ended.returns.1
  | dropPanic => exact absurd rfl ended.returns.2
  | failed error =>
      dsimp only
      rw [giveBack, dropped]
      exact ⟨_, _, rfl, after, fun steady => absurd steady ended.post⟩
  | returned read =>
      dsimp only
      rw [giveBack, dropped]
      exact ⟨_, _, rfl, after, fun _ entries stored => stored.lines ended.post⟩

def rootLines {σ : Type} (p : Platform σ) (fs : Fs) : List Char :=
  superBlockLine p fs.dev ++ inodeLine (modeAt p fs rootInode) (inodeAt p fs rootInode)

theorem testRoot_ends (fs : Fs) (lines : List Char) {s : Pages h}
    (spare : Spare (n + 6) pool s) :
    ∃ shown s', testRoot env fs lines s = .ok (shown, s') ∧ Spare (n + 6) pool s' ∧
      (Steady env → rootInode ≤ fs.sb.ninodes →
        isDir (modeAt (driver h env) fs rootInode) = true →
        ∀ entries, Stored env fs (inodeAt (driver h env) fs rootInode) entries →
          shown = lines ++ rootLines (driver h env) fs ++ listLines entries) := by
  unfold testRoot
  dsimp only
  by_cases missing : rootInode = 0 ∨ fs.sb.ninodes < rootInode
  · rw [readInode, if_pos missing]
    refine ⟨_, _, rfl, spare, fun _ valid => ?_⟩
    rcases missing with zero | outside
    · cases zero
    · omega
  · rw [readInode_eq_fetch _ missing]
    have ended : Ends (n + 6) pool (fun _ e => e = .returned (inodeAt (driver h env) fs rootInode) ∨
        e = .failed .blockReadFailed ∧ ¬ Steady env) (fetch (driver h env) fs.dev
          (fs.inodeOffset rootInode / blockSize * blockSize)
          (.returned (inodeAt (driver h env) fs rootInode)) ⟨s, fun _ => 0, []⟩) :=
      fetch_ends fs.dev _ (by simp) spare
    generalize fetch (driver h env) fs.dev _ _ _ = result at ended ⊢
    obtain ⟨w, e⟩ := result
    obtain ⟨after, rfl | ⟨rfl, unsteady⟩, -⟩ := ended
    · dsimp only
      split_ifs with other
      · refine ⟨_, _, rfl, after, fun _ _ dir => ?_⟩
        rw [dir] at other
        cases other
      · obtain ⟨listed, s', call, last, shows⟩ :=
          listDir_ends fs (inodeAt (driver h env) fs rootInode) after
        rw [call]
        refine ⟨_, _, rfl, last, fun steady _ _ entries stored => ?_⟩
        rw [shows steady entries stored, rootLines]
        simp
    · exact ⟨_, _, rfl, after, fun steady => absurd steady unsteady⟩

theorem Carries.stored {dev : Nat} {v : Volume} (carries : Carries (driver h env) dev v)
    (present : rootInode ≤ v.inodes) {entries : List Dirent}
    (root : v.content rootInode = encodeAll entries) :
    Stored env (handle (driver h env) dev)
      (inodeAt (driver h env) (handle (driver h env) dev) rootInode) entries := by
  have size := carries.size rootInode Nat.one_pos present
  rw [root] at size
  have mapped : 0 < (encodeAll entries).length →
      (inodeAt (driver h env) (handle (driver h env) dev) rootInode).zone 0 ≠ 0 := by
    intro some_ hole
    have first := carries.complete rootInode Nat.one_pos present 0 (by omega)
    rw [blockMap, if_pos (by omega), through, if_pos hole] at first
    cases first
  refine ⟨size, ?_, ?_⟩
  · intro nonempty
    apply mapped
    rw [encodeAll_length]
    exact Nat.mul_pos (List.length_pos_iff.mpr nonempty) (by decide)
  · intro k first inside
    have byte := carries.byte rootInode Nat.one_pos present k (by rw [root]; exact inside)
    rw [fileByte, Nat.div_eq_of_lt first, Nat.mod_eq_of_lt first, blockMap, if_pos (by omega),
      through, if_neg (mapped (by omega))] at byte
    rw [List.getElem?_eq_getElem inside, Option.some.injEq]
    simp only [root] at byte
    exact byte.symm

theorem testMinix3_ends (device : Option Nat) {s : Pages h} (spare : Spare (n + 6) pool s) :
    ∃ lines s', testMinix3 env device s = .ok (lines, s') ∧ Spare (n + 6) pool s' ∧
      (Steady env → ∀ dev v entries, device = some dev → Carries (driver h env) dev v →
        rootInode ≤ v.inodes → v.content rootInode = encodeAll entries →
        isDir (modeAt (driver h env) (handle (driver h env) dev) rootInode) = true →
        lines = probeLines dev ++ rootLines (driver h env) (handle (driver h env) dev) ++
          listLines entries) := by
  cases device with
  | none => exact ⟨_, _, rfl, spare, fun _ _ _ _ none => by cases none⟩
  | some dev =>
      have ended : Ends (n + 6) pool (fun _ e => e = mounted (driver h env) dev ∨
          e = .failed .blockReadFailed ∧ ¬ Steady env) (mount (driver h env) dev
            ⟨s, fun _ => 0, []⟩) := by
        rw [mount_eq_fetch]
        refine fetch_ends dev blockSize ?_ spare
        rw [mounted]
        split_ifs <;> simp
      unfold testMinix3
      dsimp only
      generalize mount (driver h env) dev ⟨s, fun _ => 0, []⟩ = result at ended ⊢
      obtain ⟨w, e⟩ := result
      obtain ⟨after, rfl | ⟨rfl, unsteady⟩, -⟩ := ended
      · by_cases foreign : (handle (driver h env) dev).sb.magic ≠ magic
        · rw [mounted, if_pos foreign]
          refine ⟨_, _, rfl, after, fun _ dev' v entries same carries => ?_⟩
          cases same
          exact absurd carries.magic foreign
        · rw [mounted, if_neg foreign]
          obtain ⟨shown, s', call, last, shows⟩ :=
            testRoot_ends (handle (driver h env) dev) (probeLines dev) after
          refine ⟨shown, s', call, last, fun steady dev' v entries same carries => ?_⟩
          cases same
          intro present root dir
          refine shows steady ?_ dir entries (carries.stored present root)
          rw [carries.inodes]
          exact present
      · exact ⟨_, _, rfl, after, fun steady => absurd steady unsteady⟩

end Room

def rootEntries : List Dirent :=
  [⟨1, ".", by decide +kernel, by decide +kernel⟩,
    ⟨0, "old", by decide +kernel, by decide +kernel⟩,
    ⟨12, "é", by decide +kernel, by decide +kernel⟩]

/-- One inode, the root, of mode `0o040755`, with its entries in zone 3. -/
def rootDisk (offset : Nat) : BitVec 8 :=
  if offset = 1024 then 1
  else if offset = 1048 then 0x5a
  else if offset = 1049 then 0x4d
  else if offset = 2048 then 0xed
  else if offset = 2049 then 0x41
  else if offset = 2056 then 192
  else if offset = 2072 then 3
  else if 3072 ≤ offset then (encodeAll rootEntries).getD (offset - 3072) 0
  else 0

def rootEnvironment : Environment :=
  { quietEnvironment with disk := fun _ => rootDisk }

def rootVolume : Volume := ⟨1, fun _ => encodeAll rootEntries⟩

theorem rootVolume_carries : Carries (driver sixPageHeap rootEnvironment) 0 rootVolume := by
  have only : ∀ num, 0 < num → num ≤ rootVolume.inodes → num = 1 := by
    intro num low high
    exact Nat.le_antisymm high low
  have size : (inodeAt (driver sixPageHeap rootEnvironment)
      (handle (driver sixPageHeap rootEnvironment) 0) 1).size.toNat = 192 := by
    decide +kernel
  have length : (encodeAll rootEntries).length = 192 := encodeAll_length rootEntries
  refine ⟨by decide +kernel, by decide +kernel, ?_, ?_, ?_⟩
  · intro num low high
    rw [only num low high, size]
    exact length.symm
  · intro num low high b inside
    rw [only num low high] at inside ⊢
    rw [size, blockSize] at inside
    obtain rfl : b = 0 := by omega
    decide +kernel
  · intro num low high k inside
    have bytes : ∀ k : Fin 192, fileByte ((driver sixPageHeap rootEnvironment).zoneBlock
        (handle (driver sixPageHeap rootEnvironment) 0))
        (inodeAt (driver sixPageHeap rootEnvironment)
          (handle (driver sixPageHeap rootEnvironment) 0) 1) k =
        (encodeAll rootEntries).getD k 0 := by
      decide +kernel
    rw [only num low high, bytes ⟨k, length ▸ inside⟩]
    exact (List.getElem_eq_getD 0).symm

end Vesper.Minix3
