import Mathlib.Tactic
import Vesper.Fs.PageBalance
import Vesper.Fs.ReadBounds

/-!
# The descriptor table and the output slice in one memory

The raw copies of `read_file` may run past the slice they are given, and the page
descriptors are bytes at the start of the heap like any others.  A copy that stays off the
table leaves the allocator alone, so a read whose copies do is the read on `sealedDriver`,
which gives back every page.  If the copies of a file run past the slice, a slice that ends
in front of the heap has a descriptor overwritten.
-/

set_option autoImplicit false

namespace Vesper.Minix3

open Vesper.Lib.EarlyExit
open Vesper.Lib.FirstFit
open Vesper.Mm.PageFrame

/-! ## Copies the platform does not notice -/

section Sealed
variable {σ : Type} {p : Platform σ} {fs : Fs} {stop : Nat}

def Platform.sealed (p : Platform σ) : Platform σ :=
  { p with buffer := 0, store := fun _ _ sys => sys }

def Platform.Deaf (p : Platform σ) (c : Copy) : Prop :=
  ∀ block sys, p.storeCopy block c sys = sys

theorem sealed_deaf (p : Platform σ) (c : Copy) : p.sealed.Deaf c := by
  intro block sys
  exact List.foldlRecOn (motive := fun sys' => sys' = sys) _ _ rfl fun _ same _ _ => same

theorem copy_sealed {c : Copy} (deaf : p.Deaf c) (v : Vars σ) :
    v.copy p c = v.copy p.sealed c := by
  unfold Vars.copy
  rw [deaf, sealed_deaf]
  rfl

def Unnoticed (p : Platform σ) (log : List Event) : Prop := ∀ c, Event.copy c ∈ log → p.Deaf c

theorem copyChunk_sealed {logical : Nat} {v : Vars σ}
    (unnoticed : Unnoticed p (copyChunk p.sealed stop logical v).1.world.log) :
    copyChunk p stop logical v = copyChunk p.sealed stop logical v := by
  have same (a b : Nat) : usizeSub p.sealed a b = usizeSub p a b := rfl
  unfold copyChunk at unnoticed ⊢
  simp only [same] at unnoticed ⊢
  cases first : usizeSub p v.curOffset logical with
  | none => rfl
  | some inBlock =>
      simp only [first] at unnoticed ⊢
      cases second : usizeSub p blockSize inBlock with
      | none => rfl
      | some room =>
          cases third : usizeSub p stop v.curOffset with
          | none => rfl
          | some left =>
              simp only [second, third] at unnoticed ⊢
              rw [copy_sealed (unnoticed _ (List.mem_append_right _ List.mem_cons_self))]

theorem copyZone_sealed {pos : Pos} {zone logical : Nat} {v : Vars σ}
    (unnoticed : Unnoticed p (copyZone p.sealed fs stop pos zone logical v).1.world.log) :
    copyZone p fs stop pos zone logical v = copyZone p.sealed fs stop pos zone logical v := by
  have same (w : World σ) : blockRead p.sealed fs.dev (zone * blockSize) w =
      blockRead p fs.dev (zone * blockSize) w := rfl
  unfold copyZone at unnoticed ⊢
  simp only [same] at unnoticed ⊢
  split_ifs with hole early
  · rfl
  · rfl
  · rw [if_neg hole, if_neg early] at unnoticed
    cases answer : blockRead p fs.dev (zone * blockSize)
        (v.world.note (.call pos zone logical)) with
    | mk ok w =>
        rw [answer] at unnoticed
        cases ok with
        | false => rfl
        | true => exact copyChunk_sealed unnoticed

theorem act_sealed {item : Item} {v : Vars σ}
    (unnoticed : Unnoticed p (act p.sealed fs stop item v).1.world.log) :
    act p fs stop item v = act p.sealed fs stop item v := by
  cases item with
  | load zone => rfl
  | slot pos zone block =>
      unfold act visitZone at unnoticed ⊢
      dsimp only at unnoticed ⊢
      split_ifs with full
      · rfl
      · rw [if_neg full] at unnoticed
        rw [copyZone_sealed]
        cases result : copyZone p.sealed fs stop pos zone (block * blockSize) v with
        | mk v' answer =>
            rw [result] at unnoticed
            cases answer with
            | error e => exact unnoticed
            | ok more => cases more <;> exact unnoticed

theorem blockRead_grows (p : Platform σ) (dev offset : Nat) {w : World σ} {event : Event}
    (member : event ∈ w.log) : event ∈ (blockRead p dev offset w).2.log :=
  List.mem_append_left _ member

theorem copyZone_grows (p : Platform σ) (fs : Fs) (stop : Nat) (pos : Pos) (zone logical : Nat)
    {v : Vars σ} {event : Event} (member : event ∈ v.world.log) :
    event ∈ (copyZone p fs stop pos zone logical v).1.world.log := by
  have called : event ∈ (v.world.note (.call pos zone logical)).log :=
    List.mem_append_left _ member
  unfold copyZone
  dsimp only
  split_ifs
  · exact called
  · exact called
  · have read := blockRead_grows p fs.dev (zone * blockSize) called
    cases answer : blockRead p fs.dev (zone * blockSize)
        (v.world.note (.call pos zone logical)) with
    | mk ok w =>
        rw [answer] at read
        cases ok with
        | false => exact read
        | true =>
            dsimp only
            unfold copyChunk
            split
            · exact read
            · split
              · exact List.mem_append_left _ read
              · exact read

theorem act_grows (p : Platform σ) (fs : Fs) (stop : Nat) (item : Item) {v : Vars σ}
    {event : Event} (member : event ∈ v.world.log) :
    event ∈ (act p fs stop item v).1.world.log := by
  cases item with
  | load zone =>
      have read := blockRead_grows p fs.dev (zone * blockSize) member
      change event ∈ (readIndirectZone p fs zone v).1.world.log
      unfold readIndirectZone
      cases answer : blockRead p fs.dev (zone * blockSize) v.world with
      | mk ok w =>
          rw [answer] at read
          cases ok <;> exact read
  | slot pos zone block =>
      have copied := copyZone_grows p fs stop pos zone (block * blockSize) member
      change event ∈ (visitZone p fs stop pos zone (block * blockSize) v).1.world.log
      unfold visitZone
      split_ifs
      · exact member
      · cases result : copyZone p fs stop pos zone (block * blockSize) v with
        | mk v' answer =>
            rw [result] at copied
            cases answer with
            | error e => exact copied
            | ok more => cases more <;> exact copied

theorem runAll_grows {items : List Item} {v : Vars σ} {event : Event}
    (member : event ∈ v.world.log) : event ∈ (runAll (act p fs stop) items v).1.world.log := by
  induction items generalizing v with
  | nil => exact member
  | cons item rest ih =>
      have kept := act_grows p fs stop item member
      rw [runAll]
      cases result : act p fs stop item v with
      | mk v' out =>
          rw [result] at kept
          cases out with
          | none => exact ih kept
          | some e => exact kept

theorem runAll_sealed {items : List Item} {v : Vars σ}
    (unnoticed : Unnoticed p (runAll (act p.sealed fs stop) items v).1.world.log) :
    runAll (act p fs stop) items v = runAll (act p.sealed fs stop) items v := by
  induction items generalizing v with
  | nil => rfl
  | cons item rest ih =>
      have first : act p fs stop item v = act p.sealed fs stop item v := by
        apply act_sealed
        intro c member
        apply unnoticed
        rw [runAll]
        cases result : act p.sealed fs stop item v with
        | mk v' out =>
            rw [result] at member
            cases out with
            | none => exact runAll_grows member
            | some e => exact member
      simp only [runAll, first] at unnoticed ⊢
      cases result : act p.sealed fs stop item v with
      | mk v' out =>
          rw [result] at unnoticed
          cases out with
          | none => exact ih unnoticed
          | some e => rfl

theorem withBuffer_sealed {body body' : World σ → World σ × Exit Nat} {w : World σ}
    (inner : ∀ w', Unnoticed p (body' w').1.log → body w' = body' w')
    (unnoticed : Unnoticed p (withBuffer p.sealed body' w).1.log) :
    withBuffer p body w = withBuffer p.sealed body' w := by
  have new : p.sealed.bufferNew = p.bufferNew := rfl
  have drop : p.sealed.bufferDrop = p.bufferDrop := rfl
  unfold withBuffer at unnoticed ⊢
  rw [new, drop] at unnoticed
  rw [new, drop]
  cases allocated : p.bufferNew w.sys with
  | none => rfl
  | some buffer =>
      obtain ⟨ptr, sys⟩ := buffer
      dsimp only
      rw [inner]
      rw [allocated] at unnoticed
      dsimp only at unnoticed
      generalize body' ({ w with sys := sys }.note (.bufferNew true)) = result at unnoticed ⊢
      obtain ⟨w', e⟩ := result
      cases e with
      | overflow => exact unnoticed
      | dropPanic => exact unnoticed
      | returned value =>
          intro c member
          apply unnoticed
          dsimp only
          cases p.bufferDrop ptr w'.sys with
          | none => exact List.mem_append_left _ member
          | some sys' => exact List.mem_append_left _ member
      | failed error =>
          intro c member
          apply unnoticed
          dsimp only
          cases p.bufferDrop ptr w'.sys with
          | none => exact List.mem_append_left _ member
          | some sys' => exact List.mem_append_left _ member

/-- A read whose copies go unnoticed is the read on the sealed platform. -/
theorem readFile_sealed {inode : Inode} {offset : BitVec 32} {outLen : Nat} {w : World σ}
    (unnoticed : Unnoticed p (readFile p.sealed fs inode offset outLen w).1.log) :
    readFile p fs inode offset outLen w = readFile p.sealed fs inode offset outLen w := by
  unfold readFile at unnoticed ⊢
  split_ifs with past empty
  · rfl
  · rfl
  · rw [if_neg past, if_neg empty] at unnoticed
    have room : offset.toNat < offset.toNat + want inode offset outLen :=
      Nat.lt_add_of_pos_right (Nat.pos_of_ne_zero empty)
    refine withBuffer_sealed (fun w₁ => ?_) unnoticed
    refine withBuffer_sealed fun w₂ => ?_
    refine withBuffer_sealed fun w₃ => ?_
    refine withBuffer_sealed fun w₄ unnoticed => ?_
    rw [walkZones_eq inode room, settle_world] at unnoticed
    rw [walkZones_eq inode room, walkZones_eq inode room]
    exact congrArg settle (runAll_sealed unnoticed)

end Sealed

/-! ## Copies that stay off the table -/

section Table
variable {h : Heap} {env : Environment} {buffer : Nat} {fs : Fs} {inode : Inode}
  {offset : BitVec 32} {outLen : Nat} {w : World (Pages h)}

def OffTable (h : Heap) (start len : Nat) : Prop :=
  start + len ≤ h.heapStart ∨ h.heapStart + h.pages ≤ start

theorem storeByte_off {addr : Nat} (off : OffTable h addr 1) (byte : BitVec 8) (s : Pages h) :
    storeByte addr byte s = s := by
  unfold OffTable at off
  exact if_neg (by omega)

theorem driver_deaf {c : Copy} (off : OffTable h (buffer + c.dst) c.len) :
    ((driver h env).into buffer).Deaf c := by
  intro block sys
  refine List.foldlRecOn (motive := fun sys' => sys' = sys) _ _ rfl fun sys' same j member => ?_
  have small := List.mem_range.mp member
  have byte : OffTable h (buffer + (c.dst + j)) 1 := by
    unfold OffTable at off ⊢
    omega
  exact (storeByte_off byte _ sys').trans same

theorem readFile_driver (off : OffTable h buffer outLen) (start : InBounds outLen w.log)
    (fits : CopiesFit (diskZone env.disk fs.dev) inode offset.toNat (want inode offset outLen)
      outLen) :
    readFile ((driver h env).into buffer) fs inode offset outLen w =
      readFile (sealedDriver h env) fs inode offset outLen w := by
  apply readFile_sealed
  have bounded : Bounded outLen (readFile (sealedDriver h env) fs inode offset outLen w) :=
    readFile_bounded (want_le _ _ _) start fits
  intro c member
  have inside := bounded.1 c member
  refine driver_deaf ?_
  unfold OffTable at off ⊢
  omega

theorem readFile_restores {live : Finset Run} {s : Pages h} {out : Nat → BitVec 8}
    (reached : Reached s live) (off : OffTable h buffer outLen)
    (fits : CopiesFit (diskZone env.disk fs.dev) inode offset.toNat (want inode offset outLen)
      outLen) :
    Restored ⟨s, out, []⟩
      (readFile ((driver h env).into buffer) fs inode offset outLen ⟨s, out, []⟩) := by
  obtain ⟨pool, -, holding⟩ := reached.holding
  rw [readFile_driver off (InBounds.nil outLen) fits]
  have holds : Holding pool (⟨s, out, []⟩ : World (Pages h)).sys := holding
  exact (readFile_leaves env holds fs inode offset outLen).restored holds

end Table

/-! ## A pass that nothing stops -/

section Sustained
variable {σ : Type} {p : Platform σ} {fs : Fs} {stop total : Nat}
  {J : Nat → (Nat → BitVec 8) → σ → Prop}

def Platform.shadow (p : Platform σ) : Platform Unit :=
  { willingPlatform p.disk with stale := p.stale, stray := p.stray }

theorem shadow_willing (p : Platform σ) : p.shadow.Willing := by
  have willing := willingPlatform_willing p.disk
  exact { reads := willing.reads, news := willing.news, drops := willing.drops, wraps := rfl }

/-- `J`, of the bytes written so far and the slice, is kept by block reads, which succeed, and
by the copies of a pass of `total` bytes. -/
structure Sustained (p : Platform σ) (total : Nat) (J : Nat → (Nat → BitVec 8) → σ → Prop) :
    Prop where
  wraps : p.overflowChecks = false
  reads : ∀ n out sys dev offset, J n out sys →
    (p.blockRead dev offset sys).1 = true ∧ J n out (p.blockRead dev offset sys).2
  copies : ∀ block c out sys, J c.dst out sys → 0 < c.len → c.dst + c.len ≤ total →
    J (c.dst + c.len) (copyNonoverlapping p block c out) (p.storeCopy block c sys)

def chunk (stop logical cur written : Nat) : Copy where
  logical := logical
  cur := cur
  src := if logical ≤ cur then cur - logical else cur + 2 ^ 64 - logical
  dst := written
  len := min (logical + blockSize) stop - cur

theorem visitZone_chunk (wraps : p.overflowChecks = false) (pos : Pos) {zone logical : Nat}
    {v : Vars σ} (small : logical < 2 ^ 63) (room : v.curOffset < stop) (present : zone ≠ 0)
    (reached : v.curOffset < logical + blockSize) {w : World σ}
    (answer : Minix3.blockRead p fs.dev (zone * blockSize)
      (v.world.note (.call pos zone logical)) = (true, w)) :
    let v' := Vars.copy p (chunk stop logical v.curOffset v.written)
      { v with world := w, blockBuf := p.zoneBlock fs zone }
    visitZone p fs stop pos zone logical v = (v', exitAt stop v') := by
  rcases visitZone_copies pos small room present reached answer with
    ⟨checks, -, -⟩ | ⟨c, ⟨rfl, cur⟩, src, dst, len, visit⟩
  · rw [wraps] at checks
    cases checks
  · have same : chunk stop c.logical v.curOffset v.written = c := by
      have source : some (if c.logical ≤ v.curOffset then v.curOffset - c.logical
          else v.curOffset + 2 ^ 64 - c.logical) = some c.src := by
        rw [← src]
        simp only [usizeSub, wraps, Bool.false_eq_true, if_false]
        split_ifs <;> rfl
      rw [chunk, Option.some.inj source, ← cur, ← dst]
      rw [show min (c.logical + blockSize) stop - c.cur = c.len by omega]
    rw [same]
    exact visit

structure Like {σ τ : Type} (v : Vars σ) (u : Vars τ) : Prop where
  cur : v.curOffset = u.curOffset
  written : v.written = u.written
  out : v.world.out = u.world.out

theorem Sustained.blockRead (sustained : Sustained p total J) {n : Nat} {w : World σ}
    (holds : J n w.out w.sys) (dev offset : Nat) :
    ∃ w', Minix3.blockRead p dev offset w = (true, w') ∧ w'.out = w.out ∧ J n w'.out w'.sys := by
  obtain ⟨ok, kept⟩ := sustained.reads n w.out w.sys dev offset holds
  refine ⟨(Minix3.blockRead p dev offset w).2, ?_, rfl, kept⟩
  exact Prod.ext ok rfl

theorem Like.copy {v : Vars σ} {u : Vars Unit} (like : Like v u) (c : Copy)
    {w : World σ} {w' : World Unit} (mem : w.out = v.world.out) (mem' : w'.out = u.world.out)
    (fs : Fs) (zone : Nat) :
    Like (Vars.copy p c { v with world := w, blockBuf := p.zoneBlock fs zone })
      (Vars.copy p.shadow c { u with world := w', blockBuf := p.shadow.zoneBlock fs zone }) := by
  refine ⟨congrArg (· + c.len) like.cur, congrArg (· + c.len) like.written, ?_⟩
  change copyNonoverlapping p _ c w.out = copyNonoverlapping p.shadow _ c w'.out
  rw [mem, mem', like.out]
  rfl

structure Delivered (J : Nat → (Nat → BitVec 8) → σ → Prop) (r : World σ × Exit Nat)
    (r' : World Unit × Exit Nat) (n : Nat) : Prop where
  returned : r.2 = .returned n
  same : r'.2 = .returned n
  out : r.1.out = r'.1.out
  holds : J n r.1.out r.1.sys

/-- Both passes make the same copy of a block that is there. -/
theorem Sustained.copies_block (sustained : Sustained p total J) (fs : Fs) (pos : Pos)
    {zone block : Nat} {v : Vars σ} {u : Vars Unit} (small : block * blockSize < 2 ^ 63)
    (room : v.curOffset < stop) (present : zone ≠ 0)
    (reached : v.curOffset < block * blockSize + blockSize) (like : Like v u)
    (holds : J v.written v.world.out v.world.sys)
    (fits : v.written + (min (block * blockSize + blockSize) stop - v.curOffset) ≤ total) :
    ∃ v' u', visitZone p fs stop pos zone (block * blockSize) v = (v', exitAt stop v') ∧
      visitZone p.shadow fs stop pos zone (block * blockSize) u = (u', exitAt stop u') ∧
      Like v' u' ∧ J v'.written v'.world.out v'.world.sys ∧
      v'.curOffset = min (block * blockSize + blockSize) stop ∧
      v'.written = v.written + (min (block * blockSize + blockSize) stop - v.curOffset) := by
  obtain ⟨w, answer, mem, kept⟩ := sustained.blockRead
    (w := v.world.note (.call pos zone (block * blockSize))) holds fs.dev (zone * blockSize)
  have visit := visitZone_chunk sustained.wraps pos small room present reached answer
  have answer' : Minix3.blockRead p.shadow fs.dev (zone * blockSize)
      (u.world.note (.call pos zone (block * blockSize))) = (true, _) := rfl
  have visit' := visitZone_chunk rfl pos small (like.cur ▸ room) present (like.cur ▸ reached)
    answer'
  have same : chunk stop (block * blockSize) u.curOffset u.written =
      chunk stop (block * blockSize) v.curOffset v.written := by rw [like.cur, like.written]
  rw [same] at visit'
  have begun : v.curOffset ≤ min (block * blockSize + blockSize) stop := by omega
  refine ⟨_, _, visit, visit', like.copy _ mem ?_ fs zone, ?_, ?_, rfl⟩
  · rfl
  · exact sustained.copies (p.zoneBlock fs zone)
      (chunk stop (block * blockSize) v.curOffset v.written) w.out w.sys kept
      (Nat.sub_pos_of_lt (by omega)) fits
  · exact Nat.add_sub_of_le begun

theorem run_sustained (sustained : Sustained p total J) (fs : Fs) {items : List Item}
    {a b : Nat} {v : Vars σ} {u : Vars Unit} (ordered : Ordered items a b)
    (small : b * blockSize < 2 ^ 63) (room : v.curOffset < stop) (like : Like v u)
    (holds : J v.written v.world.out v.world.sys)
    (fits : v.written + transferred stop v.curOffset items ≤ total) :
    ∃ n, Delivered J (settle (runAll (act p fs stop) items v))
      (settle (runAll (act p.shadow fs stop) items u)) n := by
  induction items generalizing a v u with
  | nil => exact ⟨v.written, rfl, congrArg Exit.returned like.written.symm, like.out, holds⟩
  | cons item rest ih =>
      obtain ⟨c, step, tail⟩ := ordered
      have room' : u.curOffset < stop := like.cur ▸ room
      cases item with
      | load zone =>
          obtain ⟨w, answer, mem, kept⟩ := sustained.blockRead holds fs.dev (zone * blockSize)
          simp only [runAll, act, readIndirectZone, answer]
          exact ih tail room ⟨like.cur, like.written, mem.trans like.out⟩ kept fits
      | slot pos zone block =>
          obtain ⟨low, rfl⟩ := step
          obtain ⟨logical, -⟩ := slot_visit p fs pos zone tail small room
          have reach : (block + 1) * blockSize ≤ b * blockSize :=
            Nat.mul_le_mul_right _ (Ordered.le tail)
          simp only [transferred] at fits
          simp only [runAll, act]
          by_cases absent : zone = 0
          · rw [if_pos absent] at fits
            rw [visitZone_hole pos room absent, visitZone_hole pos room' absent]
            unfold exitAt
            simp only [logical]
            split_ifs with more
            · exact ih tail more ⟨rfl, like.written, like.out⟩ holds fits
            · exact ⟨v.written, rfl, congrArg Exit.returned like.written.symm, like.out, holds⟩
          rw [if_neg absent] at fits
          by_cases early : block * blockSize + blockSize ≤ v.curOffset
          · rw [if_pos (logical ▸ early)] at fits
            rw [visitZone_skip pos room absent early,
              visitZone_skip pos room' absent (like.cur ▸ early)]
            exact ih tail room ⟨like.cur, like.written, like.out⟩ holds fits
          rw [if_neg (logical ▸ early)] at fits
          have reached := not_le.mp early
          obtain ⟨v', u', visit, visit', like', holds', cur, written⟩ :=
            sustained.copies_block fs pos (by omega) room absent reached like holds (by omega)
          rw [visit, visit']
          unfold exitAt
          rw [← like'.cur]
          split_ifs with more
          · refine ih tail more like' holds' ?_
            rw [show v'.curOffset = (block + 1) * blockSize by omega]
            omega
          · exact ⟨_, rfl, congrArg Exit.returned like'.written.symm, like'.out, holds'⟩

end Sustained

/-! ## A slice in front of the heap

Two pages are taken, the four scratch buffers take the next ones and every request the last.
The slice ends in front of the table so that the last byte of the pass, and no other, lands
on descriptor 0. -/

section Spill

def spillHeap : Heap := ⟨2 ^ 40, 7 * pageSize + 4095⟩

def spillTable (p : PageDesc) (k : Nat) : List PageDesc :=
  p :: .final :: (List.replicate k .final ++ List.replicate (5 - k) .free)

structure Spilled (p : PageDesc) (k : Nat) (s : Pages spillHeap) : Prop where
  table : s.frames.table = spillTable p k
  started : s.frames.allocStart = spillHeap.allocStart
  calm : s.tripped = false

variable {p : PageDesc} {k : Nat} {s : Pages spillHeap}

theorem spillTable_found (small : k < 5) (taken : p.isTaken = true) :
    position (spillTable p k) 1 = some (2 + k) ∧
      markRun (spillTable p k) (2 + k) 1 = spillTable p (k + 1) := by
  interval_cases k <;>
    simp [position, windows, spillTable, markRun, List.range_succ, List.findIdx?_cons, taken]

theorem spillTable_released (small : k < 5) :
    releaseFrom ((spillTable p (k + 1)).drop (2 + k)) = .ok (List.replicate (5 - k) .free) ∧
      (spillTable p (k + 1)).take (2 + k) ++ List.replicate (5 - k) .free = spillTable p k := by
  interval_cases k <;> exact ⟨rfl, rfl⟩

theorem spillTable_front (free : p.isTaken = false) :
    position (spillTable p k) 1 = some 0 ∧
      releaseFrom (markRun (spillTable p k) 0 1) = .ok (spillTable .free k) := by
  constructor
  · simp [position, windows, spillTable, List.range_succ_eq_map, List.findIdx?_cons, free]
  · have marked : p.markTaken.markLast.isTaken = true ∧ p.markTaken.markLast.isLast = true := by
      obtain ⟨bits⟩ := p
      revert bits
      decide +kernel
    have run : markRun (spillTable p k) 0 1 = spillTable p.markTaken.markLast k := rfl
    rw [run, spillTable, releaseFrom]
    simp [marked, spillTable]

theorem spillHeap_below (small : k < 7) : spillHeap.runAddr k < spillHeap.heapEnd :=
  runAddr_lt_heapEnd (by decide +kernel) small

theorem Spilled.allocate_at {i : Nat} (spilled : Spilled p k s) (small : i < 7)
    (found : position (spillTable p k) 1 = some i) :
    ∃ s', allocateFrames 1 s = some (spillHeap.runAddr i, s') ∧
      s'.frames.table = markRun (spillTable p k) i 1 ∧
      s'.frames.allocStart = spillHeap.allocStart ∧ s'.tripped = false := by
  rw [← spilled.table] at found
  obtain ⟨frames, call, table, started⟩ := allocate_of_found Nat.one_pos found
  have address : nonNull (spillHeap.allocStart + i * pageSize) = some (spillHeap.runAddr i) :=
    if_neg (spillHeap.runAddr_ne_zero small)
  rw [spilled.started, address] at call
  refine ⟨{ s with frames := frames }, ?_, spilled.table ▸ table,
    started.trans spilled.started, spilled.calm⟩
  rw [allocateFrames, call]

theorem Spilled.allocate (spilled : Spilled p k s) (small : k < 5) (taken : p.isTaken = true) :
    ∃ s', allocateFrames 1 s = some (spillHeap.runAddr (2 + k), s') ∧ Spilled p (k + 1) s' := by
  obtain ⟨found, marked⟩ := spillTable_found small taken
  obtain ⟨s', call, table, started, calm⟩ := spilled.allocate_at (by omega) found
  exact ⟨s', call, table.trans marked, started, calm⟩

theorem Spilled.deallocate (spilled : Spilled p (k + 1) s) (small : k < 5) :
    ∃ frames, Mm.PageFrame.deallocate s.frames (spillHeap.runAddr (2 + k)) = .ok frames ∧
      Spilled p k { s with frames := frames } := by
  obtain ⟨released, joined⟩ := spillTable_released (p := p) small
  rw [← spilled.table] at released joined
  obtain ⟨frames, freed, table, started⟩ :=
    deallocate_of_released spilled.started (spillHeap_below (by omega)) released
  exact ⟨frames, freed, table.trans joined, started.trans spilled.started, spilled.calm⟩

/-- A block read takes a page and frees it, and so clears a first descriptor that looks free. -/
theorem Spilled.blockOp (spilled : Spilled p 4 s) :
    ∃ s', Minix3.blockOp .success s = (true, s') ∧
      Spilled (if p.isTaken = true then p else .free) 4 s' := by
  rw [Minix3.blockOp, if_neg (by decide)]
  split_ifs with taken
  · obtain ⟨s', call, after⟩ := spilled.allocate (by omega) taken
    obtain ⟨frames, freed, back⟩ := after.deallocate (by omega)
    rw [call]
    refine ⟨_, rfl, ?_⟩
    rw [freeRequest, freed]
    exact back
  · obtain ⟨found, released⟩ := spillTable_front (k := 4) (Bool.eq_false_iff.mpr taken)
    obtain ⟨s', call, table, started, calm⟩ := spilled.allocate_at (by omega) found
    rw [← table] at released
    obtain ⟨frames, freed, table', started'⟩ :=
      deallocate_of_released (i := 0) started (spillHeap_below (by omega)) released
    rw [call]
    refine ⟨_, rfl, ?_⟩
    rw [freeRequest, freed]
    exact ⟨table', started'.trans started, calm⟩

/-- Descriptor 0 is `p` until the last of `total` bytes lands on it. -/
def Spilling (p : PageDesc) (total n : Nat) (out : Nat → BitVec 8) (s : Pages spillHeap) :
    Prop :=
  ∃ q, Spilled q 4 s ∧ (n < total → q = p) ∧
    (total ≤ n → q = ⟨out (total - 1)⟩ ∨ q = .free)

def spillEnvironment (disk : Nat → Nat → BitVec 8) : Environment :=
  ⟨fun _ => .success, disk, fun _ => 0, fun _ => 0, false⟩

def spillDriver (disk : Nat → Nat → BitVec 8) (total : Nat) : Platform (Pages spillHeap) :=
  (driver spillHeap (spillEnvironment disk)).into (2 ^ 40 + 1 - total)

variable {disk : Nat → Nat → BitVec 8} {total : Nat}

theorem storeByte_first {byte : BitVec 8} (spilled : Spilled p k s) :
    Spilled ⟨byte⟩ k (storeByte (2 ^ 40) byte s) := by
  rw [storeByte, if_pos (by decide +kernel)]
  refine ⟨?_, spilled.started, spilled.calm⟩
  change s.frames.table.set (2 ^ 40 - 2 ^ 40) ⟨byte⟩ = _
  rw [spilled.table]
  rfl

/-- A copy that ends the pass overwrites descriptor 0 with its last byte. -/
theorem storeCopy_last {block : Block} {c : Copy} (low : total ≤ 2 ^ 40) (pos : 0 < c.len)
    (last : c.dst + c.len = total) (spilled : Spilled p k s) :
    Spilled ⟨sourceByte (spillDriver disk total) block (c.src + (c.len - 1))⟩ k
      ((spillDriver disk total).storeCopy block c s) := by
  obtain ⟨n, len⟩ := Nat.exists_eq_succ_of_ne_zero pos.ne'
  have before : (spillDriver disk total).storeCopy block { c with len := n } s = s := by
    refine driver_deaf (Or.inl ?_) block s
    change 2 ^ 40 + 1 - total + c.dst + n ≤ 2 ^ 40
    omega
  have split : (spillDriver disk total).storeCopy block c s =
      storeByte (2 ^ 40 + 1 - total + (c.dst + n))
        (sourceByte (spillDriver disk total) block (c.src + n))
        ((spillDriver disk total).storeCopy block { c with len := n } s) := by
    rw [Platform.storeCopy, len, List.range_succ, List.foldl_append]
    rfl
  rw [split, before, show 2 ^ 40 + 1 - total + (c.dst + n) = 2 ^ 40 by omega, len]
  exact storeByte_first spilled

theorem spillDriver_sustained (low : total ≤ 2 ^ 40) (taken : p.isTaken = true) :
    Sustained (spillDriver disk total) total (Spilling p total) where
  wraps := rfl
  reads n out s dev offset holds := by
    obtain ⟨q, spilled, early, late⟩ := holds
    have counted : Spilled q 4 { s with requests := s.requests + 1 } :=
      ⟨spilled.table, spilled.started, spilled.calm⟩
    obtain ⟨s', result, after⟩ := counted.blockOp
    have read : (spillDriver disk total).blockRead dev offset s = (true, s') := result
    rw [read]
    refine ⟨rfl, _, after, fun pending => ?_, fun done => ?_⟩
    · rw [early pending, if_pos taken]
    · split_ifs
      · exact late done
      · exact .inr rfl
  copies block c out s holds pos fits := by
    obtain ⟨q, spilled, early, -⟩ := holds
    rcases Nat.lt_or_eq_of_le fits with pending | last
    · have same : (spillDriver disk total).storeCopy block c s = s := by
        refine driver_deaf (Or.inl ?_) block s
        change 2 ^ 40 + 1 - total + c.dst + c.len ≤ 2 ^ 40
        omega
      rw [same]
      exact ⟨q, spilled, fun _ => early (by omega), fun done => absurd pending (by omega)⟩
    · refine ⟨_, storeCopy_last low pos last spilled, fun pending => absurd pending (by omega),
        fun _ => .inl ?_⟩
      rw [copyNonoverlapping, if_pos (by omega), show total - 1 - c.dst = c.len - 1 by omega]

def Spoiled (p : PageDesc) (k : Nat) (r : World (Pages spillHeap) × Exit Nat) : Prop :=
  (∃ n, r.2 = .returned n) ∧ ∃ q, q ≠ p ∧ Spilled q k r.1.sys

theorem withBuffer_spoiled {body : World (Pages spillHeap) → World (Pages spillHeap) × Exit Nat}
    {w : World (Pages spillHeap)} (small : k < 5) (taken : p.isTaken = true)
    (start : Spilled p k w.sys)
    (inner : ∀ w', w'.out = w.out → Spilled p (k + 1) w'.sys → Spoiled p (k + 1) (body w')) :
    Spoiled p k (withBuffer (spillDriver disk total) body w) := by
  obtain ⟨s', call, after⟩ := start.allocate small taken
  have granted : (spillDriver disk total).bufferNew w.sys =
      some (spillHeap.runAddr (2 + k), s') := call
  have spoiled := inner ({ w with sys := s' }.note (.bufferNew true)) rfl after
  rw [withBuffer, granted]
  dsimp only
  generalize body ({ w with sys := s' }.note (.bufferNew true)) = result at spoiled ⊢
  obtain ⟨w', exit⟩ := result
  obtain ⟨⟨n, rfl⟩, q, differs, spilled⟩ := spoiled
  obtain ⟨frames, freed, back⟩ := spilled.deallocate small
  have dropped : (spillDriver disk total).bufferDrop (spillHeap.runAddr (2 + k)) w'.sys =
      some { w'.sys with frames := frames } := by
    change dropBuffer _ _ = _
    rw [dropBuffer, freed]
  dsimp only
  rw [dropped]
  exact ⟨⟨n, rfl⟩, q, differs, back⟩

variable {fs : Fs} {inode : Inode} {offset : BitVec 32} {outLen : Nat} {out : Nat → BitVec 8}

def shadowPass (disk : Nat → Nat → BitVec 8) (fs : Fs) (inode : Inode) (offset want total : Nat)
    (out : Nat → BitVec 8) : World Unit × Exit Nat :=
  settle (runAll (act (spillDriver disk total).shadow fs (offset + want))
    (stream (diskZone disk fs.dev) inode) ⟨⟨(), out, []⟩, offset, 0, fun _ => 0⟩)

theorem pass_spoiled {want : Nat} {w : World (Pages spillHeap)} (low : total ≤ 2 ^ 40)
    (positive : 0 < want) (moved : 0 < total)
    (count : transferred (offset.toNat + want) offset.toNat (stream (diskZone disk fs.dev) inode) =
      total)
    (taken : p.isTaken = true)
    (differs : ⟨(shadowPass disk fs inode offset.toNat want total w.out).1.out (total - 1)⟩ ≠ p)
    (start : Spilled p 4 w.sys) :
    Spoiled p 4 (settle (runAll (act (spillDriver disk total) fs (offset.toNat + want))
      (stream (diskZone disk fs.dev) inode) ⟨w, offset.toNat, 0, fun _ => 0⟩)) := by
  have room : offset.toNat < offset.toNat + want := Nat.lt_add_of_pos_right positive
  have ordered := stream_ordered (diskZone disk fs.dev) inode
  obtain ⟨n, delivered⟩ := run_sustained (spillDriver_sustained low taken) fs
    (v := ⟨w, offset.toNat, 0, fun _ => 0⟩) (u := ⟨⟨(), w.out, []⟩, offset.toNat, 0, fun _ => 0⟩)
    ordered (stream_small inode) room ⟨rfl, rfl, rfl⟩
    ⟨p, start, fun _ => rfl, fun done => absurd moved (Nat.not_lt.mpr done)⟩ (by simp [count])
  have whole := run_total (shadow_willing (spillDriver disk total)) fs
    (v := ⟨⟨(), w.out, []⟩, offset.toNat, 0, fun _ => 0⟩) ordered (stream_small inode) room
  obtain rfl : n = total := by
    have := Exit.returned.inj (delivered.same.symm.trans whole)
    simpa [count] using this
  obtain ⟨q, spilled, -, late⟩ := delivered.holds
  refine ⟨⟨n, delivered.returned⟩, q, ?_, spilled⟩
  rcases late (le_refl n) with rfl | rfl
  · rw [delivered.out]
    exact differs
  · rintro rfl
    cases taken

theorem readFile_spoiled {w : World (Pages spillHeap)} (low : total ≤ 2 ^ 40)
    (positive : 0 < want inode offset outLen) (moved : 0 < total)
    (count : transferred (offset.toNat + want inode offset outLen) offset.toNat
      (stream (diskZone disk fs.dev) inode) = total)
    (taken : p.isTaken = true)
    (differs : ⟨(shadowPass disk fs inode offset.toNat (want inode offset outLen) total
      w.out).1.out (total - 1)⟩ ≠ p)
    (start : Spilled p 0 w.sys) :
    Spoiled p 0 (readFile (spillDriver disk total) fs inode offset outLen w) := by
  rw [readFile, if_neg (not_past_of_want positive), if_neg positive.ne']
  refine withBuffer_spoiled (by omega) taken start fun w₁ same₁ start₁ => ?_
  refine withBuffer_spoiled (by omega) taken start₁ fun w₂ same₂ start₂ => ?_
  refine withBuffer_spoiled (by omega) taken start₂ fun w₃ same₃ start₃ => ?_
  refine withBuffer_spoiled (by omega) taken start₃ fun w₄ same₄ start₄ => ?_
  rw [walkZones_eq inode (Nat.lt_add_of_pos_right positive)]
  refine pass_spoiled low positive moved count taken ?_ start₄
  rw [same₄, same₃, same₂, same₁]
  exact differs

theorem Spoiled.not_restored {w : World (Pages spillHeap)} {r : World (Pages spillHeap) × Exit Nat}
    (spoiled : Spoiled p 0 r) (start : Spilled p 0 w.sys) : ¬ Restored w r := by
  intro restored
  obtain ⟨⟨n, returned⟩, q, differs, after⟩ := spoiled
  have same := restored.table (by rw [returned]; intro stopped; cases stopped)
  rw [after.table, start.table] at same
  exact differs (List.cons.inj same).1

def spillBlank : State spillHeap := ⟨List.replicate 7 .free, 0, rfl⟩

def SpillTrace (table : List PageDesc) : Prop :=
  ∃ s live, Trace spillHeap s live ∧ s.table = table ∧ s.allocStart = spillHeap.allocStart

theorem SpillTrace.allocate {table : List PageDesc} {pages i : Nat} (trace : SpillTrace table)
    (pos : 0 < pages) (found : position table pages = some i) :
    SpillTrace (markRun table i pages) := by
  obtain ⟨s, live, reached, rfl, started⟩ := trace
  obtain ⟨s', success, table, started'⟩ := allocate_of_found pos found
  exact ⟨s', _, .call (.allocate pages) reached pos success, table, started'.trans started⟩

theorem SpillTrace.reached (trace : SpillTrace (spillTable p 0)) :
    ∃ s live, Reached s live ∧ Spilled p 0 s := by
  obtain ⟨s, live, reached, table, started⟩ := trace
  refine ⟨⟨s, 0, false⟩, live, ⟨reached, rfl, fun i q entry _ => ?_⟩, table, started, rfl⟩
  have bound := (List.getElem?_eq_some_iff.mp entry).1
  rw [table] at bound
  exact spillHeap_below bound

/-- Whatever byte lands on descriptor 0, a reachable state had another one there. -/
theorem spill_choice (byte : BitVec 8) :
    ∃ p s live, Reached s live ∧ Spilled p 0 s ∧ p.isTaken = true ∧ ⟨byte⟩ ≠ p := by
  have booted : SpillTrace (List.replicate 7 .free) :=
    ⟨init spillBlank, ∅, .boot spillBlank, rfl, rfl⟩
  by_cases same : (⟨byte⟩ : PageDesc) = .inner
  · have first := booted.allocate (i := 0) Nat.one_pos rfl
    obtain ⟨s, live, reached, spilled⟩ :=
      SpillTrace.reached (p := .final) (first.allocate (i := 1) Nat.one_pos rfl)
    refine ⟨.final, s, live, reached, spilled, rfl, ?_⟩
    rw [same]
    decide
  · obtain ⟨s, live, reached, spilled⟩ :=
      SpillTrace.reached (p := .inner) (booted.allocate (i := 0) Nat.two_pos rfl)
    exact ⟨.inner, s, live, reached, spilled, rfl, same⟩

end Spill

/-- The slice of a caller: it is not null, does not wrap around and overlaps neither the table
nor a free page. -/
structure Placed {h : Heap} (s : Pages h) (buffer len : Nat) : Prop where
  inside : 0 < buffer ∧ buffer + len ≤ 2 ^ 64
  table : OffTable h buffer len
  pages : ∀ i p, s.frames.table[i]? = some p → p.isTaken = false →
    buffer + len ≤ h.runAddr i ∨ h.runAddr i + pageSize ≤ buffer

/-- What the copies write behind the slice is none of the heap's pages. -/
def SparesPages (h : Heap) (buffer len : Nat) (log : List Event) : Prop :=
  ∀ c, Event.copy c ∈ log → ∀ addr, buffer + len ≤ addr → addr < buffer + (c.dst + c.len) →
    addr < h.allocStart ∨ h.runAddr h.pages ≤ addr

theorem Placed.of_front {h : Heap} {s : Pages h} {buffer len : Nat}
    (nonNull : 0 < buffer) (front : buffer + len ≤ h.heapStart) (low : h.heapStart ≤ 2 ^ 64) :
    Placed s buffer len := by
  refine ⟨⟨nonNull, front.trans low⟩, .inl front, fun i _ _ _ => .inl ?_⟩
  calc buffer + len ≤ h.heapStart + h.pages := front.trans (Nat.le_add_right _ _)
    _ ≤ h.runAddr i := h.table_le_allocStart.trans (Nat.le_add_right _ _)

theorem spill_spares {disk : Nat → Nat → BitVec 8} {fs : Fs} {inode : Inode}
    {offset : BitVec 32} {total outLen : Nat} {w : World (Pages spillHeap)}
    (start : InBounds total w.log) (low : total ≤ 2 ^ 40) (beyond : outLen < total)
    (count : transferred (offset.toNat + want inode offset outLen) offset.toNat
      (stream (diskZone disk fs.dev) inode) = total) :
    SparesPages spillHeap (2 ^ 40 + 1 - total) outLen
      (readFile (spillDriver disk total) fs inode offset outLen w).1.log := by
  have enough : want inode offset outLen ≤ total := (want_le _ _ _).trans beyond.le
  have bounded : Bounded total (readFile (spillDriver disk total) fs inode offset outLen w) := by
    refine readFile_bounded enough start (.inr ?_)
    exact (transferred_le_iff (stream_ordered _ inode) enough).mp count.le
  intro c member addr _ inside
  have reach := bounded.1 c member
  have start : spillHeap.allocStart = 2 ^ 40 + 4096 := by decide +kernel
  rw [start]
  omega

/-- If the copies do not fit, a slice that ends in front of the heap spoils the table. -/
theorem exists_spoiled {disk : Nat → Nat → BitVec 8} {fs : Fs} {inode : Inode}
    {offset : BitVec 32} {outLen : Nat} (out : Nat → BitVec 8)
    (beyond : ¬ CopiesFit (diskZone disk fs.dev) inode offset.toNat (want inode offset outLen)
      outLen) :
    ∃ (total : Nat) (s : Pages spillHeap) (live : Finset Run),
      Reached s live ∧ Placed s (2 ^ 40 + 1 - total) outLen ∧
      SparesPages spillHeap (2 ^ 40 + 1 - total) outLen
        (readFile (spillDriver disk total) fs inode offset outLen ⟨s, out, []⟩).1.log ∧
      ¬ Restored ⟨s, out, []⟩
        (readFile (spillDriver disk total) fs inode offset outLen ⟨s, out, []⟩) := by
  obtain ⟨nonempty, holes⟩ := not_or.mp beyond
  have positive := Nat.pos_of_ne_zero nonempty
  have ordered := stream_ordered (diskZone disk fs.dev) inode
  rw [← transferred_le_iff ordered (want_le inode offset outLen), not_le] at holes
  have stop := @transferred_le_stop offset.toNat _ _ _ (want inode offset outLen) ordered
  generalize count : transferred (offset.toNat + want inode offset outLen) offset.toNat
    (stream (diskZone disk fs.dev) inode) = total at holes stop
  have low : total ≤ 2 ^ 40 := by
    have := offset.isLt
    have := want_lt inode offset outLen
    omega
  obtain ⟨p, s, live, reached, spilled, taken, differs⟩ := spill_choice
    ((shadowPass disk fs inode offset.toNat (want inode offset outLen) total out).1.out (total - 1))
  refine ⟨total, s, live, reached, .of_front (by omega) ?_ (by decide),
    spill_spares (InBounds.nil total) low holes count, ?_⟩
  · change 2 ^ 40 + 1 - total + outLen ≤ 2 ^ 40
    omega
  have spoiled : Spoiled p 0 (readFile (spillDriver disk total) fs inode offset outLen
      ⟨s, out, []⟩) :=
    readFile_spoiled low positive (Nat.zero_lt_of_lt holes) count taken differs spilled
  exact spoiled.not_restored spilled

/-- `mount` and `read_inode` give back every page, and `read_file` does for every placement of
its slice exactly if the copies stay inside the slice. -/
theorem reader_restores_pages_iff (disk : Nat → Nat → BitVec 8) (fs : Fs) (inode : Inode)
    (offset : BitVec 32) (outLen : Nat) :
    (∀ (h : Heap) (env : Environment) (s : Pages h) (live : Finset Run) (out : Nat → BitVec 8)
        (buffer : Nat), Reached s live →
      (∀ dev, Restored ⟨s, out, []⟩
        (mount ((driver h env).into buffer) dev ⟨s, out, []⟩)) ∧
      ∀ num, Restored ⟨s, out, []⟩
        (readInode ((driver h env).into buffer) fs num ⟨s, out, []⟩)) ∧
    ((∀ (h : Heap) (env : Environment) (s : Pages h) (live : Finset Run) (out : Nat → BitVec 8)
        (buffer : Nat), env.disk = disk → Reached s live → Placed s buffer outLen →
      SparesPages h buffer outLen
        (readFile ((driver h env).into buffer) fs inode offset outLen ⟨s, out, []⟩).1.log →
      Restored ⟨s, out, []⟩
        (readFile ((driver h env).into buffer) fs inode offset outLen ⟨s, out, []⟩)) ↔
    CopiesFit (diskZone disk fs.dev) inode offset.toNat (want inode offset outLen) outLen) := by
  refine ⟨fun h env s live out buffer reached => ?_, ?_⟩
  · obtain ⟨pool, -, holding⟩ := reached.holding
    have holds : Holding pool (⟨s, out, []⟩ : World (Pages h)).sys := holding
    exact ⟨fun dev => (mount_leaves env holds dev).restored holds,
      fun num => (readInode_leaves env holds fs num).restored holds⟩
  · constructor
    · intro restores
      by_contra beyond
      obtain ⟨total, s, live, reached, placed, spares, spoiled⟩ :=
        exists_spoiled (fun _ => 0) beyond
      exact spoiled
        (restores spillHeap (spillEnvironment disk) s live _ _ rfl reached placed spares)
    · rintro fits h env s live out buffer rfl reached placed -
      exact readFile_restores reached placed.table fits

def unevenHeap : Heap := ⟨0x80000000, 3 * pageSize + 4095⟩

theorem unevenBlank_length : (List.replicate 3 (⟨0xff⟩ : PageDesc)).length = unevenHeap.pages := rfl

def unevenBlank : State unevenHeap := ⟨List.replicate 3 ⟨0xff⟩, 0, unevenBlank_length⟩

def unevenPages : Pages unevenHeap := ⟨init unevenBlank, 0, false⟩

def unevenRead : World (Pages unevenHeap) × Exit Nat :=
  readFile ((driver unevenHeap quietEnvironment).into 0x70000000) ⟨0, ⟨1, 0, 0, magic⟩⟩
    ⟨1, fun _ => 1⟩ 0#32 1 ⟨unevenPages, fun _ => 0, []⟩

theorem unevenRead_spares : SparesPages unevenHeap 0x70000000 1 unevenRead.1.log := by
  have log : unevenRead.1.log = [.bufferNew true, .bufferNew true, .bufferNew true,
      .bufferNew false, .bufferDrop true, .bufferDrop true, .bufferDrop true] := by
    decide +kernel
  intro c member
  rw [log] at member
  simp at member

theorem reader_restores_pages_out_of_memory :
    unevenRead.2 = .failed .outOfMemory ∧
      Restored ⟨unevenPages, fun _ => 0, []⟩ unevenRead := by
  refine ⟨by decide +kernel, ?_⟩
  refine (reader_restores_pages_iff _ _ _ _ _).2.mpr (.inr ?_) unevenHeap quietEnvironment
    unevenPages ∅ _ _ rfl (.boot unevenBlank (by decide +kernel))
    (.of_front (by decide) (by decide) (by decide)) unevenRead_spares
  exact fun _ _ _ _ _ early => absurd early (Nat.not_lt_zero _)

/-- Seven pages at the end of RAM. -/
def topHeap : Heap := ⟨0x87ff8001, 0x7fff⟩

theorem topBlank_length : (List.replicate 7 PageDesc.free).length = topHeap.pages := rfl

def topBlank : State topHeap := ⟨List.replicate 7 .free, 0, topBlank_length⟩

/-- The slice ends where the heap starts.  The second copy behind the hole fills the table with
ones, runs without an end, and the first buffer that is dropped trips the assertion. -/
theorem read_overwrites_descriptors :
    let w : World (Pages topHeap) := ⟨⟨init topBlank, 0, false⟩, fun _ => 0, []⟩
    Reached w.sys ∅ ∧ Placed w.sys (topHeap.heapStart - 1024) 1024 ∧
      (readFile ((driver topHeap { quietEnvironment with disk := fun _ _ => 1 }).into
        (topHeap.heapStart - 1024)) ⟨0, ⟨1, 1, 1, magic⟩⟩ holeInode 2048#32 1024 w).2 =
          .dropPanic :=
  ⟨.boot topBlank (by decide +kernel), .of_front (by decide) (by decide) (by decide),
    by decide +kernel⟩

end Vesper.Minix3
