import Mathlib.Tactic
import Vesper.Lib.EarlyExit

/-!
# The Minix 3 reader

Model of `fs/minix3/fs.rs`, `blocks.rs` and of the `read` system call that drives them.
The block driver and the page allocator are a `Platform`: a read that reports success
has filled the scratch buffer with the 1024 disk bytes at the requested offset, and any
call may fail.  `usize` subtractions panic or wrap modulo `2 ^ 64` according to
`overflowChecks`, and a copy whose source leaves the block buffer reads `stray` bytes.
The output slice lies at the address `buffer`.  `World.out` is the memory from there on,
unbounded, so that a copy past the end of the slice is visible; `store` says what a byte
stored at an address does to memory that the platform keeps itself.  `World.log` records
the calls of the platform and of `copy_zone` and the copies; nothing reads it back.
-/

set_option autoImplicit false

namespace Vesper.Minix3

open Vesper.Lib.EarlyExit

def blockSize : Nat := 1024

def magic : Nat := 0x4d5a

def numDirectZones : Nat := 7

def indirectPtrsPerBlock : Nat := blockSize / 4

inductive FsError where
  | badMagic
  | blockReadFailed
  | outOfMemory
  | inodeOutOfRange
  | bufferTooSmall
  deriving DecidableEq, Repr

abbrev Block := Nat → BitVec 8

def readU16 (block : Block) (at_ : Nat) : Nat :=
  (block at_).toNat + 2 ^ 8 * (block (at_ + 1)).toNat

def readU32 (block : Block) (at_ : Nat) : Nat :=
  readU16 block at_ + 2 ^ 16 * readU16 block (at_ + 2)

structure SuperBlock where
  ninodes : Nat
  imapBlocks : Nat
  zmapBlocks : Nat
  magic : Nat
  deriving DecidableEq, Repr

def SuperBlock.decode (block : Block) : SuperBlock where
  ninodes := readU32 block 0
  imapBlocks := readU16 block 6
  zmapBlocks := readU16 block 8
  magic := readU16 block 24

structure Inode where
  size : BitVec 32
  zones : Fin 10 → BitVec 32

def Inode.decode (block : Block) (within : Nat) : Inode where
  size := BitVec.ofNat 32 (readU32 block (within + 8))
  zones := fun i => BitVec.ofNat 32 (readU32 block (within + 24 + 4 * i.val))

def Inode.zone (inode : Inode) (i : Nat) : Nat :=
  if h : i < 10 then (inode.zones ⟨i, h⟩).toNat else 0

structure Fs where
  dev : Nat
  sb : SuperBlock

/-- Where a data pointer stands in the block map. -/
inductive Pos where
  | direct (i : Nat)
  | single (i : Nat)
  | double (i j : Nat)
  | triple (i j k : Nat)
  deriving DecidableEq, Repr

/-- One `copy_nonoverlapping`: `src` counts from the block buffer, `dst` from the output
slice. -/
structure Copy where
  logical : Nat
  cur : Nat
  src : Nat
  dst : Nat
  len : Nat
  deriving DecidableEq, Repr

inductive Event where
  | bufferNew (ok : Bool)
  | bufferDrop (ok : Bool)
  | read (offset : Nat) (ok : Bool)
  | call (pos : Pos) (zone logical : Nat)
  | copy (c : Copy)
  deriving DecidableEq, Repr

/-- How a call ends.  `overflow` is a checked subtraction, `dropPanic` an assertion of
`deallocate`; both abort the kernel. -/
inductive Exit (α : Type) where
  | returned (value : α)
  | failed (e : FsError)
  | overflow
  | dropPanic
  deriving DecidableEq, Repr

structure Platform (σ : Type) where
  disk : Nat → Nat → BitVec 8
  blockRead : Nat → Nat → σ → Bool × σ
  bufferNew : σ → Option (Nat × σ)
  bufferDrop : Nat → σ → Option σ
  stale : Block
  stray : Nat → BitVec 8
  overflowChecks : Bool
  buffer : Nat
  store : Nat → BitVec 8 → σ → σ

structure World (σ : Type) where
  sys : σ
  out : Nat → BitVec 8
  log : List Event

variable {σ α : Type}

/-- The platform with the output slice at `buffer`. -/
def Platform.into (p : Platform σ) (buffer : Nat) : Platform σ := { p with buffer := buffer }

def World.note (w : World σ) (event : Event) : World σ :=
  { w with log := w.log ++ [event] }

def Platform.block (p : Platform σ) (dev offset : Nat) : Block :=
  fun k => p.disk dev (offset + k)

/-- `block_read(dev, buf, BLOCK_SIZE, offset)`. -/
def blockRead (p : Platform σ) (dev offset : Nat) (w : World σ) : Bool × World σ :=
  let (ok, sys) := p.blockRead dev offset w.sys
  (ok, { w with sys := sys }.note (.read offset ok))

/-- `Buffer::new(..).ok_or(OutOfMemory)?`, the rest of the scope, and the buffer's `Drop`
when the scope is left without a panic. -/
def withBuffer (p : Platform σ) (body : World σ → World σ × Exit α) (w : World σ) :
    World σ × Exit α :=
  match p.bufferNew w.sys with
  | none => (w.note (.bufferNew false), .failed .outOfMemory)
  | some (ptr, sys) =>
      match body ({ w with sys := sys }.note (.bufferNew true)) with
      | (w', .overflow) => (w', .overflow)
      | (w', .dropPanic) => (w', .dropPanic)
      | (w', e) =>
          match p.bufferDrop ptr w'.sys with
          | none => (w'.note (.bufferDrop false), .dropPanic)
          | some sys' => ({ w' with sys := sys' }.note (.bufferDrop true), e)

def mount (p : Platform σ) (dev : Nat) : World σ → World σ × Exit Fs :=
  withBuffer p fun w =>
    match blockRead p dev blockSize w with
    | (false, w') => (w', .failed .blockReadFailed)
    | (true, w') =>
        let sb := SuperBlock.decode (p.block dev blockSize)
        if sb.magic ≠ magic then (w', .failed .badMagic) else (w', .returned ⟨dev, sb⟩)

def Fs.inodeTableOffset (fs : Fs) : Nat :=
  (2 + fs.sb.imapBlocks + fs.sb.zmapBlocks) * blockSize

def Fs.inodeOffset (fs : Fs) (num : Nat) : Nat :=
  fs.inodeTableOffset + (num - 1) * 64

def readInode (p : Platform σ) (fs : Fs) (num : Nat) (w : World σ) :
    World σ × Exit Inode :=
  if num = 0 ∨ fs.sb.ninodes < num then (w, .failed .inodeOutOfRange)
  else
    let blockOff := fs.inodeOffset num / blockSize * blockSize
    let within := fs.inodeOffset num - blockOff
    withBuffer p (fun w =>
      match blockRead p fs.dev blockOff w with
      | (false, w') => (w', .failed .blockReadFailed)
      | (true, w') => (w', .returned (Inode.decode (p.block fs.dev blockOff) within))) w

structure Vars (σ : Type) where
  world : World σ
  curOffset : Nat
  written : Nat
  blockBuf : Block

/-- `a - b` on `usize`. -/
def usizeSub (p : Platform σ) (a b : Nat) : Option Nat :=
  if b ≤ a then some (a - b)
  else if p.overflowChecks then none
  else some (a + 2 ^ 64 - b)

def sourceByte (p : Platform σ) (block : Block) (src : Nat) : BitVec 8 :=
  if src % 2 ^ 64 < blockSize then block (src % 2 ^ 64) else p.stray (src % 2 ^ 64)

def copyNonoverlapping (p : Platform σ) (block : Block) (c : Copy)
    (out : Nat → BitVec 8) : Nat → BitVec 8 :=
  fun k => if c.dst ≤ k ∧ k < c.dst + c.len then sourceByte p block (c.src + (k - c.dst))
    else out k

/-- The bytes of a copy where they land, in order. -/
def Platform.storeCopy (p : Platform σ) (block : Block) (c : Copy) (sys : σ) : σ :=
  (List.range c.len).foldl (fun sys j =>
    p.store (p.buffer + (c.dst + j)) (sourceByte p block (c.src + j)) sys) sys

/-- The raw copy and the two counters behind it. -/
def Vars.copy (p : Platform σ) (c : Copy) (v : Vars σ) : Vars σ :=
  { v with
    world :=
      { v.world with
        sys := p.storeCopy v.blockBuf c v.world.sys
        out := copyNonoverlapping p v.blockBuf c v.world.out } |>.note (.copy c)
    written := v.written + c.len
    curOffset := v.curOffset + c.len }

/-- The copy of `copy_zone`, once the block has been read. -/
def copyChunk (p : Platform σ) (stop logical : Nat) (v : Vars σ) :
    Vars σ × Except (Exit Nat) Bool :=
  match usizeSub p v.curOffset logical with
  | none => (v, .error .overflow)
  | some inBlock =>
      match usizeSub p blockSize inBlock, usizeSub p stop v.curOffset with
      | some room, some left =>
          let v := v.copy p ⟨logical, v.curOffset, inBlock, v.written, min room left⟩
          (v, .ok (decide (v.curOffset < stop)))
      | _, _ => (v, .error .overflow)

def copyZone (p : Platform σ) (fs : Fs) (stop : Nat) (pos : Pos) (zone logical : Nat)
    (v : Vars σ) : Vars σ × Except (Exit Nat) Bool :=
  let v := { v with world := v.world.note (.call pos zone logical) }
  if zone = 0 then
    ({ v with curOffset := logical + blockSize }, .ok (decide (logical + blockSize < stop)))
  else if logical + blockSize ≤ v.curOffset then (v, .ok true)
  else
    match blockRead p fs.dev (zone * blockSize) v.world with
    | (false, w) => ({ v with world := w }, .error (.failed .blockReadFailed))
    | (true, w) =>
        copyChunk p stop logical
          { v with world := w, blockBuf := p.block fs.dev (zone * blockSize) }

/-- The test, call and early return around each `copy_zone` of `read_file`. -/
def visitZone (p : Platform σ) (fs : Fs) (stop : Nat) (pos : Pos) (zone logical : Nat)
    (v : Vars σ) : Vars σ × Option (Exit Nat) :=
  if stop ≤ v.curOffset then (v, some (.returned v.written))
  else
    match copyZone p fs stop pos zone logical v with
    | (v', .error e) => (v', some e)
    | (v', .ok false) => (v', some (.returned v'.written))
    | (v', .ok true) => (v', none)

/-- `read_indirect_zone(zone, ..)?`. -/
def readIndirectZone (p : Platform σ) (fs : Fs) (zone : Nat) (v : Vars σ) :
    Vars σ × Option (Exit Nat) :=
  match blockRead p fs.dev (zone * blockSize) v.world with
  | (false, w) => ({ v with world := w }, some (.failed .blockReadFailed))
  | (true, w) => ({ v with world := w }, none)

structure Locals (σ : Type) where
  vars : Vars σ
  logical : Nat
  indBuf : Block
  dindBuf : Block
  tindBuf : Block

inductive Scratch where
  | ind
  | dind
  | tind

def Locals.fill (st : Locals σ) (block : Block) : Scratch → Locals σ
  | .ind => { st with indBuf := block }
  | .dind => { st with dindBuf := block }
  | .tind => { st with tindBuf := block }

def Locals.skip (st : Locals σ) (blocks : Nat) : Locals σ :=
  { st with logical := st.logical + blocks * blockSize }

def ptr (block : Block) (i : Nat) : Nat := readU32 block (4 * i)

def zoneStep (p : Platform σ) (fs : Fs) (stop : Nat) (pos : Pos) (zone : Nat)
    (st : Locals σ) : Step (Locals σ) (Exit Nat) :=
  match visitZone p fs stop pos zone st.logical st.vars with
  | (v, some e) => .exit { st with vars := v } e
  | (v, none) => .next ({ st with vars := v }.skip 1)

def loadStep (p : Platform σ) (fs : Fs) (into : Scratch) (zone : Nat) (st : Locals σ) :
    Step (Locals σ) (Exit Nat) :=
  match readIndirectZone p fs zone st.vars with
  | (v, some e) => .exit { st with vars := v } e
  | (v, none) =>
      .next ({ st with vars := v }.fill (p.block fs.dev (zone * blockSize)) into)

def directZones (p : Platform σ) (fs : Fs) (inode : Inode) (stop : Nat) :
    Locals σ → Step (Locals σ) (Exit Nat) :=
  forRange (fun zi => zoneStep p fs stop (.direct zi) (inode.zone zi)) 0 numDirectZones

/-- The loop over the pointers in `ind_buf`. -/
def indirectPtrs (p : Platform σ) (fs : Fs) (stop : Nat) (pos : Nat → Pos) :
    Locals σ → Step (Locals σ) (Exit Nat) :=
  forRange (fun i st => zoneStep p fs stop (pos i) (ptr st.indBuf i) st) 0
    indirectPtrsPerBlock

def singleIndirect (p : Platform σ) (fs : Fs) (inode : Inode) (stop : Nat)
    (st : Locals σ) : Step (Locals σ) (Exit Nat) :=
  let zone := inode.zone numDirectZones
  if st.vars.curOffset < stop ∧ zone ≠ 0 then
    (loadStep p fs .ind zone st).andThen (indirectPtrs p fs stop .single)
  else .next (st.skip indirectPtrsPerBlock)

def doubleIndirect (p : Platform σ) (fs : Fs) (inode : Inode) (stop : Nat)
    (st : Locals σ) : Step (Locals σ) (Exit Nat) :=
  let zone := inode.zone (numDirectZones + 1)
  if st.vars.curOffset < stop ∧ zone ≠ 0 then
    (loadStep p fs .dind zone st).andThen <|
      forRange (fun i st =>
        let dz := ptr st.dindBuf i
        if dz = 0 then
          let st := st.skip indirectPtrsPerBlock
          if stop ≤ st.vars.curOffset then .brk st else .next st
        else (loadStep p fs .ind dz st).andThen (indirectPtrs p fs stop (.double i)))
        0 indirectPtrsPerBlock
  -- A missing double indirect block does not advance `logical`.
  else .next st

def tripleIndirect (p : Platform σ) (fs : Fs) (inode : Inode) (stop : Nat)
    (st : Locals σ) : Step (Locals σ) (Exit Nat) :=
  let zone := inode.zone (numDirectZones + 2)
  if st.vars.curOffset < stop ∧ zone ≠ 0 then
    (loadStep p fs .tind zone st).andThen <|
      forRange (fun i st =>
        let tz := ptr st.tindBuf i
        if tz = 0 then
          let st := st.skip (indirectPtrsPerBlock * indirectPtrsPerBlock)
          if stop ≤ st.vars.curOffset then .brk st else .next st
        else
          (loadStep p fs .dind tz st).andThen <|
            forRange (fun j st =>
              let dz := ptr st.dindBuf j
              if dz = 0 then .next (st.skip indirectPtrsPerBlock)
              else
                (loadStep p fs .ind dz st).andThen (indirectPtrs p fs stop (.triple i j)))
              0 indirectPtrsPerBlock)
        0 indirectPtrsPerBlock
  else .next st

def allZones (p : Platform σ) (fs : Fs) (inode : Inode) (stop : Nat) (st : Locals σ) :
    Step (Locals σ) (Exit Nat) :=
  (((directZones p fs inode stop st).andThen (singleIndirect p fs inode stop)).andThen
    (doubleIndirect p fs inode stop)).andThen (tripleIndirect p fs inode stop)

def walkZones (p : Platform σ) (fs : Fs) (inode : Inode) (offset stop : Nat)
    (w : World σ) : World σ × Exit Nat :=
  match allZones p fs inode stop
      ⟨⟨w, offset, 0, p.stale⟩, 0, p.stale, p.stale, p.stale⟩ with
  | .next st | .brk st => (st.vars.world, .returned st.vars.written)
  | .exit st e => (st.vars.world, e)

/-- The byte count `read_file` sets out to copy. -/
def want (inode : Inode) (offset : BitVec 32) (outLen : Nat) : Nat :=
  min (outLen % 2 ^ 32) (inode.size.toNat - offset.toNat)

def readFile (p : Platform σ) (fs : Fs) (inode : Inode) (offset : BitVec 32)
    (outLen : Nat) (w : World σ) : World σ × Exit Nat :=
  if inode.size ≤ offset then (w, .returned 0)
  else if want inode offset outLen = 0 then (w, .returned 0)
  else
    let stop := offset.toNat + want inode offset outLen
    withBuffer p (withBuffer p (withBuffer p (withBuffer p
      (walkZones p fs inode offset.toNat stop)))) w

/-- The file read of system call 63, which returns 0 where one of its calls fails. -/
def readCall (p : Platform σ) (dev num : Nat) (offset : BitVec 32) (size : Nat) (w : World σ) :
    World σ × Exit Nat :=
  match mount p dev w with
  | (w, .returned fs) =>
      match readInode p fs num w with
      | (w, .returned node) =>
          match readFile p fs node offset size w with
          | (w, .failed _) => (w, .returned 0)
          | done => done
      | (w, .failed _) => (w, .returned 0)
      | (w, .overflow) => (w, .overflow)
      | (w, .dropPanic) => (w, .dropPanic)
  | (w, .failed _) => (w, .returned 0)
  | (w, .overflow) => (w, .overflow)
  | (w, .dropPanic) => (w, .dropPanic)

/-- System call 63 on the argument registers `a1` to `a5`. -/
def sysRead (p : Platform σ) (regs : Fin 32 → BitVec 64) (w : World σ) :
    World σ × Exit Nat :=
  let dev := (regs 11).toNat
  let inode := (regs 12).setWidth 32
  let buffer := (regs 13).toNat
  let size := (regs 14).setWidth 32
  let offset := (regs 15).setWidth 32
  readCall (p.into buffer) dev inode.toNat offset size.toNat w

end Vesper.Minix3
