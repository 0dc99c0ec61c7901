import Mathlib.Tactic
import Vesper.Fs.HoleSpan
import Vesper.Fs.Visit

/-!
# Where `read_file` writes

Every copy goes to the slice at `written`, and nothing but the lock-step of `written`
and `cur_offset` keeps it inside.  A hole that ends before the offset breaks the
lock-step: the cursor falls back and the blocks behind the hole are copied as well.  The
copies stay inside the window on every platform exactly if the holes of the file fit.
-/

set_option autoImplicit false

namespace Vesper.Minix3

open Vesper.Lib Vesper.Lib.EarlyExit

variable {σ : Type} {p : Platform σ} {fs : Fs} {stop limit : Nat}

def InBounds (limit : Nat) (log : List Event) : Prop :=
  ∀ c, Event.copy c ∈ log → c.dst + c.len ≤ limit

def Bounded (limit : Nat) (r : World σ × Exit Nat) : Prop :=
  InBounds limit r.1.log ∧ ∀ n, r.2 = .returned n → n ≤ limit

theorem InBounds.nil (limit : Nat) : InBounds limit [] := fun _ member => by cases member

theorem InBounds.quiet {w w' : World σ} (inside : InBounds limit w.log) (quiet : Quiet w w') :
    InBounds limit w'.log :=
  fun c member => inside c (quiet.copies c member)

theorem InBounds.copy {v : Vars σ} {c : Copy} (inside : InBounds limit v.world.log)
    (fits : c.dst + c.len ≤ limit) : InBounds limit (v.copy p c).world.log := by
  intro c' member
  rcases List.mem_append.mp member with old | new
  · exact inside c' old
  · cases List.mem_singleton.mp new
    exact fits

theorem slot_visit (p : Platform σ) (fs : Fs) (pos : Pos) (zone : Nat) {rest : List Item}
    {block b : Nat} {v : Vars σ} (tail : Ordered rest (block + 1) b)
    (small : b * blockSize < 2 ^ 63) (room : v.curOffset < stop) :
    block * blockSize + blockSize = (block + 1) * blockSize ∧
      Visit p fs stop zone (block * blockSize) v
        (visitZone p fs stop pos zone (block * blockSize) v) := by
  have logical : block * blockSize + blockSize = (block + 1) * blockSize :=
    (Nat.succ_mul block blockSize).symm
  have reach : (block + 1) * blockSize ≤ b * blockSize :=
    Nat.mul_le_mul_right _ (Ordered.le tail)
  exact ⟨logical, visitZone_visit pos (by omega) room⟩

theorem run_bounded {items : List Item} {a b : Nat} {v : Vars σ} (ordered : Ordered items a b)
    (small : b * blockSize < 2 ^ 63) (room : v.curOffset < stop)
    (inside : InBounds limit v.world.log)
    (fits : v.written + transferred stop v.curOffset items ≤ limit) :
    Bounded limit (settle (runAll (act p fs stop) items v)) := by
  induction items generalizing a v with
  | nil =>
      refine ⟨inside, ?_⟩
      intro n returned
      cases returned
      exact fits
  | cons item rest ih =>
      obtain ⟨c, step, tail⟩ := ordered
      cases item with
      | load zone =>
          obtain ⟨w, quiet, loaded | ⟨_, _, refused⟩⟩ := readIndirectZone_cases p fs zone v
          · simp only [runAll, act, loaded]
            exact ih tail room (inside.quiet quiet) fits
          · simp only [runAll, act, refused]
            exact ⟨inside.quiet quiet, fun n returned => by cases returned⟩
      | slot pos zone block =>
          obtain ⟨low, rfl⟩ := step
          obtain ⟨logical, visit⟩ := slot_visit p fs pos zone tail small room
          simp only [runAll, act]
          generalize visitZone p fs stop pos zone (block * blockSize) v = outcome at visit
          simp only [transferred] at fits
          cases visit with
          | hole w quiet absent =>
              rw [if_pos absent] at fits
              unfold exitAt
              simp only [logical]
              split_ifs with more
              · exact ih tail more (inside.quiet quiet) fits
              · refine ⟨inside.quiet quiet, fun n returned => ?_⟩
                cases returned
                exact (Nat.le_add_right _ _).trans fits
          | skip w quiet present early =>
              rw [if_neg present, if_pos (logical ▸ early)] at fits
              exact ih tail room (inside.quiet quiet) fits
          | refused w quiet _ _ =>
              exact ⟨inside.quiet quiet, fun n returned => by cases returned⟩
          | underflow u quiet _ _ =>
              exact ⟨inside.quiet quiet, fun n returned => by cases returned⟩
          | copy w c quiet present reached start src dst len =>
              rw [if_neg present, if_neg (by omega)] at fits
              have stays : InBounds limit (Vars.copy p c
                  { v with world := w, blockBuf := p.zoneBlock fs zone }).world.log :=
                InBounds.copy (inside.quiet quiet) (by omega)
              unfold exitAt
              split_ifs with more
              · apply ih tail more stays
                simp only [Vars.copy] at more ⊢
                rw [show v.curOffset + c.len = (block + 1) * blockSize by omega]
                omega
              · refine ⟨stays, fun n returned => ?_⟩
                cases returned
                simp only [Vars.copy]
                omega

structure Platform.Serves (p : Platform σ) : Prop where
  reads : ∀ dev offset, ¬ p.Refuses dev offset
  news : ∀ sys, p.bufferNew sys ≠ none
  drops : ∀ ptr sys, p.bufferDrop ptr sys ≠ none

structure Platform.Willing (p : Platform σ) : Prop extends p.Serves where
  wraps : p.overflowChecks = false

theorem run_total (willing : p.Willing) (fs : Fs) {items : List Item} {a b : Nat} {v : Vars σ}
    (ordered : Ordered items a b) (small : b * blockSize < 2 ^ 63) (room : v.curOffset < stop) :
    (settle (runAll (act p fs stop) items v)).2 =
      .returned (v.written + transferred stop v.curOffset items) := by
  induction items generalizing a v with
  | nil => rfl
  | cons item rest ih =>
      obtain ⟨c, step, tail⟩ := ordered
      cases item with
      | load zone =>
          obtain ⟨w, quiet, loaded | ⟨refuses, _⟩⟩ := readIndirectZone_cases p fs zone v
          · simp only [runAll, act, loaded]
            exact ih tail room
          · exact absurd refuses (willing.reads _ _)
      | slot pos zone block =>
          obtain ⟨low, rfl⟩ := step
          obtain ⟨logical, visit⟩ := slot_visit p fs pos zone tail small room
          simp only [runAll, act]
          generalize visitZone p fs stop pos zone (block * blockSize) v = outcome at visit
          simp only [transferred]
          cases visit with
          | hole w quiet absent =>
              rw [if_pos absent]
              unfold exitAt
              simp only [logical]
              split_ifs with more
              · exact ih tail more
              · rw [transferred_past tail (le_refl _) (not_lt.mp more)]
                rfl
          | skip w quiet present early =>
              rw [if_neg present, if_pos (logical ▸ early)]
              exact ih tail room
          | refused w quiet refuses _ => exact absurd refuses (willing.reads _ _)
          | underflow u quiet checks _ =>
              rw [willing.wraps] at checks
              cases checks
          | copy w c quiet present reached start src dst len =>
              rw [if_neg present, if_neg (by omega)]
              unfold exitAt
              split_ifs with more
              · have rest_run := ih (v := Vars.copy p c
                  { v with world := w, blockBuf := p.zoneBlock fs zone }) tail more
                simp only [Vars.copy] at more rest_run ⊢
                rw [rest_run, show v.curOffset + c.len = (block + 1) * blockSize by omega]
                congr 1
                omega
              · simp only [Vars.copy] at more ⊢
                rw [transferred_past tail (le_refl _) (by omega)]
                simp only [settle]
                congr 1
                omega

theorem withBuffer_bounded {body : World σ → World σ × Exit Nat} {w : World σ}
    (inside : InBounds limit w.log)
    (inner : ∀ w', InBounds limit w'.log → Bounded limit (body w')) :
    Bounded limit (withBuffer p body w) :=
  withBuffer_copies (E := fun e => ∀ n, e = .returned n → n ≤ limit) (fun n ends => by cases ends)
    (fun n ends => by cases ends) inside inner

theorem withBuffer_total (serves : p.Serves) {body : World σ → World σ × Exit Nat}
    {w : World σ} {e : Exit Nat} (inner : ∀ w', (body w').2 = e) :
    (withBuffer p body w).2 = e := by
  rcases withBuffer_cases p body w with
    ⟨w', _, _, ⟨sys, empty⟩, _⟩ | ⟨w₀, w', _, _, result | ⟨_, ⟨ptr, sys, trips⟩, _⟩⟩
  · exact absurd empty (serves.news sys)
  · rw [result]
    exact inner w₀
  · exact absurd trips (serves.drops ptr sys)

theorem stream_small (inode : Inode) :
    (tripleBase inode + 256 * 65536) * blockSize < 2 ^ 63 := by
  have low : tripleBase inode ≤ 65799 := by
    unfold tripleBase
    split <;> omega
  unfold blockSize
  omega

/-- The holes of the file do not make a read at `offset` copy more than `want` bytes. -/
def ReadFits (read : Nat → Block) (inode : Inode) (offset want : Nat) : Prop :=
  want = 0 ∨ HolesFit offset want (stream read inode)

/-- The holes of the file do not make a read of `want` bytes at `offset` copy past a slice of
`len` bytes. -/
def CopiesFit (read : Nat → Block) (inode : Inode) (offset want len : Nat) : Prop :=
  want = 0 ∨ HolesWithin len offset want (stream read inode)

theorem readFile_bounded {inode : Inode} {offset : BitVec 32} {outLen : Nat} {w : World σ}
    (enough : want inode offset outLen ≤ limit) (inside : InBounds limit w.log)
    (fits : CopiesFit (p.zoneBlock fs) inode offset.toNat (want inode offset outLen) limit) :
    Bounded limit (readFile p fs inode offset outLen w) := by
  by_cases empty : want inode offset outLen = 0
  · rw [readFile_empty empty]
    refine ⟨inside, fun n returned => ?_⟩
    cases returned
    exact Nat.zero_le _
  · have total := (transferred_le_iff (stream_ordered (p.zoneBlock fs) inode) enough).mpr
      (fits.resolve_left empty)
    have positive := Nat.pos_of_ne_zero empty
    refine readFile_meets (P := fun w => InBounds limit w.log)
      (fun _ _ => withBuffer_bounded) positive inside fun w' inside' => ?_
    exact run_bounded (stream_ordered _ inode) (stream_small inode)
      (Nat.lt_add_of_pos_right positive) inside' (by rw [Nat.zero_add]; exact total)

theorem readFile_total (willing : p.Willing) (fs : Fs) {inode : Inode} {offset : BitVec 32}
    {outLen : Nat} (w : World σ) (positive : 0 < want inode offset outLen) :
    (readFile p fs inode offset outLen w).2 =
      .returned (transferred (offset.toNat + want inode offset outLen) offset.toNat
        (stream (p.zoneBlock fs) inode)) := by
  refine readFile_meets (P := fun _ => True) (Q := fun r => r.2 = _) (fun _ _ _ inner => ?_)
    positive trivial fun w' _ => ?_
  · exact withBuffer_total willing.toServes fun w' => inner w' trivial
  · have run := run_total (v := ⟨w', offset.toNat, 0, p.stale⟩) willing fs
      (stream_ordered (p.zoneBlock fs) inode) (stream_small inode)
      (Nat.lt_add_of_pos_right positive)
    exact run.trans (congrArg Exit.returned (Nat.zero_add _))

def willingPlatform (disk : Nat → Nat → BitVec 8) : Platform Unit where
  disk := disk
  blockRead := fun _ _ _ => (true, ())
  bufferNew := fun _ => some (0, ())
  bufferDrop := fun _ _ => some ()
  stale := fun _ => 0
  stray := fun _ => 0
  overflowChecks := false
  buffer := 0
  store := fun _ _ sys => sys

theorem willingPlatform_willing (disk : Nat → Nat → BitVec 8) : (willingPlatform disk).Willing where
  reads := by
    intro dev offset refuses
    obtain ⟨sys, refused⟩ := refuses
    cases refused
  news := fun sys empty => by cases empty
  drops := fun ptr sys trips => by cases trips
  wraps := rfl

theorem withBuffer_quiet {α : Type} {body : World σ → World σ × Exit α} {w : World σ}
    (inner : ∀ w', Quiet w' (body w').1) : Quiet w (withBuffer p body w).1 := by
  rcases withBuffer_cases p body w with
    ⟨w', quiet, _, _, result⟩ | ⟨w₀, w', entry, after, result | ⟨_, _, result⟩⟩
  · rw [result]
    exact quiet
  · rw [result]
    exact (entry.trans (inner w₀)).trans after
  · rw [result]
    exact (entry.trans (inner w₀)).trans after

theorem withBuffer_returned {α : Type} {body : World σ → World σ × Exit α} {w : World σ}
    {value : α} (returned : (withBuffer p body w).2 = .returned value) :
    ∃ w', (body w').2 = .returned value := by
  rcases withBuffer_cases p body w with
    ⟨w', _, _, _, result⟩ | ⟨w₀, w', _, _, result | ⟨_, _, result⟩⟩
  · rw [result] at returned
    cases returned
  · rw [result] at returned
    exact ⟨w₀, returned⟩
  · rw [result] at returned
    cases returned

def handle (p : Platform σ) (dev : Nat) : Fs :=
  ⟨dev, SuperBlock.decode (p.block dev blockSize)⟩

def inodeAt (p : Platform σ) (fs : Fs) (num : Nat) : Inode :=
  Inode.decode (p.block fs.dev (fs.inodeOffset num / blockSize * blockSize))
    (fs.inodeOffset num - fs.inodeOffset num / blockSize * blockSize)

theorem mount_quiet (dev : Nat) (w : World σ) : Quiet w (mount p dev w).1 := by
  apply withBuffer_quiet
  intro w'
  have quiet := blockRead_quiet p dev blockSize w'
  cases answer : blockRead p dev blockSize w' with
  | mk ok w'' =>
      rw [answer] at quiet
      cases ok with
      | false => exact quiet
      | true =>
          dsimp only
          split_ifs <;> exact quiet

theorem mount_returned {dev : Nat} {w : World σ} {fs : Fs}
    (returned : (mount p dev w).2 = .returned fs) :
    fs = handle p dev ∧ (handle p dev).sb.magic = magic := by
  obtain ⟨w', body⟩ := withBuffer_returned returned
  cases answer : blockRead p dev blockSize w' with
  | mk ok w'' =>
      rw [answer] at body
      cases ok with
      | false => cases body
      | true =>
          dsimp only at body
          split_ifs at body with other
          cases body
          exact ⟨rfl, not_not.mp other⟩

theorem readInode_quiet (fs : Fs) (num : Nat) (w : World σ) :
    Quiet w (readInode p fs num w).1 := by
  unfold readInode
  split_ifs
  · exact Quiet.sys w w.sys
  · apply withBuffer_quiet
    intro w'
    have quiet := blockRead_quiet p fs.dev (fs.inodeOffset num / blockSize * blockSize) w'
    cases answer : blockRead p fs.dev (fs.inodeOffset num / blockSize * blockSize) w' with
    | mk ok w'' =>
        rw [answer] at quiet
        cases ok <;> exact quiet

theorem readInode_returned {num : Nat} {w : World σ} {node : Inode}
    (returned : (readInode p fs num w).2 = .returned node) :
    node = inodeAt p fs num ∧ ¬(num = 0 ∨ fs.sb.ninodes < num) := by
  unfold readInode at returned
  split_ifs at returned with invalid
  obtain ⟨w', body⟩ := withBuffer_returned returned
  cases answer : blockRead p fs.dev (fs.inodeOffset num / blockSize * blockSize) w' with
  | mk ok w'' =>
      rw [answer] at body
      cases ok with
      | false => cases body
      | true =>
          cases body
          exact ⟨rfl, invalid⟩

/-- The read of system call 63 writes inside the user's buffer if the holes of the file fit. -/
theorem readCall_inBounds {dev num size : Nat} {offset : BitVec 32} {w : World σ}
    (quiet : w.log = [])
    (fits : ReadFits (p.zoneBlock (handle p dev)) (inodeAt p (handle p dev) num) offset.toNat
      (want (inodeAt p (handle p dev) num) offset size)) :
    InBounds size (readCall p dev num offset size w).1.log := by
  have start (limit : Nat) : InBounds limit w.log := quiet ▸ InBounds.nil limit
  have mounted (limit : Nat) := (start limit).quiet (mount_quiet (p := p) dev w)
  unfold readCall
  cases first : mount p dev w with
  | mk w₁ e₁ =>
      rw [first] at mounted
      cases e₁ with
      | returned fs =>
          obtain ⟨rfl, -⟩ : fs = handle p dev ∧ _ := mount_returned (by rw [first])
          have found (limit : Nat) := (mounted limit).quiet
            (readInode_quiet (p := p) (handle p dev) num w₁)
          dsimp only
          cases second : readInode p (handle p dev) num w₁ with
          | mk w₂ e₂ =>
              rw [second] at found
              cases e₂ with
              | returned node =>
                  obtain ⟨rfl, -⟩ := readInode_returned (by rw [second])
                  have bounded := readFile_bounded (le_refl _) (found _) fits
                  dsimp only
                  cases third : readFile p (handle p dev) _ offset size w₂ with
                  | mk w₃ e₃ =>
                      rw [third] at bounded
                      have copies : InBounds size w₃.log :=
                        fun c member => (bounded.1 c member).trans (want_le _ _ _)
                      cases e₃ <;> exact copies
              | failed error => exact found _
              | overflow => exact found _
              | dropPanic => exact found _
      | failed error => exact mounted _
      | overflow => exact mounted _
      | dropPanic => exact mounted _

/-- The block that zone number `zone` names on device `dev` of `disk`. -/
def diskZone (disk : Nat → Nat → BitVec 8) (dev zone : Nat) : Block :=
  fun k => disk dev (zone * blockSize + k)

/-- On every platform over a given disk `read_file` writes inside the caller's buffer, and
returns no more than the window holds, exactly if the holes of the file fit; and then
the `read` system call writes at most `size` bytes. -/
theorem readFile_in_bounds_iff (disk : Nat → Nat → BitVec 8) :
    (∀ (fs : Fs) (inode : Inode) (offset : BitVec 32) (outLen : Nat), outLen < 2 ^ 32 →
      let n := min outLen (inode.size.toNat - offset.toNat)
      ((∀ (σ : Type) (p : Platform σ) (w : World σ), p.disk = disk → w.log = [] →
          (∀ c, Event.copy c ∈ (readFile p fs inode offset outLen w).1.log →
            c.dst + c.len ≤ n) ∧
          ∀ m, (readFile p fs inode offset outLen w).2 = .returned m → m ≤ n) ↔
        ReadFits (diskZone disk fs.dev) inode offset.toNat n)) ∧
    ∀ (σ : Type) (p : Platform σ) (w : World σ) (regs : Fin 32 → BitVec 64),
      p.disk = disk → w.log = [] →
      (let fs := handle p (regs 11).toNat
       let node := inodeAt p fs ((regs 12).setWidth 32).toNat
       let offset := (regs 15).setWidth 32
       ReadFits (diskZone disk fs.dev) node offset.toNat
         (min ((regs 14).setWidth 32).toNat (node.size.toNat - offset.toNat))) →
      ∀ c, Event.copy c ∈ (sysRead p regs w).1.log →
        c.dst + c.len ≤ ((regs 14).setWidth 32).toNat := by
  have window (inode : Inode) (offset : BitVec 32) (outLen : Nat) (short : outLen < 2 ^ 32) :
      want inode offset outLen = min outLen (inode.size.toNat - offset.toNat) := by
    rw [want, Nat.mod_eq_of_lt short]
  constructor
  · intro fs inode offset outLen short
    dsimp only
    rw [← window inode offset outLen short]
    constructor
    · intro safe
      by_cases empty : want inode offset outLen = 0
      · exact Or.inl empty
      · have total := readFile_total (willingPlatform_willing disk) fs
          ⟨(), fun _ => 0, []⟩ (Nat.pos_of_ne_zero empty)
        have count := (safe Unit (willingPlatform disk) ⟨(), fun _ => 0, []⟩ rfl rfl).2 _ total
        exact Or.inr ((transferred_le_iff (stream_ordered _ inode) (le_refl _)).mp count)
    · intro fits σ p w same quiet
      subst same
      apply readFile_bounded (le_refl _) _ fits
      intro c member
      rw [quiet] at member
      cases member
  · intro σ p w regs same quiet fits
    subst same
    apply readCall_inBounds quiet
    rw [window _ _ _ (BitVec.isLt _)]
    exact fits

theorem readFile_in_bounds_from_start :
    ∀ m, (readFile (willingPlatform fun _ _ => 0) ⟨0, ⟨1, 1, 1, magic⟩⟩ ⟨4096, fun _ => 0⟩ 0#32
      1024 ⟨(), fun _ => 0, []⟩).2 = .returned m → m ≤ 1024 :=
  ((((readFile_in_bounds_iff fun _ _ => 0).1 ⟨0, ⟨1, 1, 1, magic⟩⟩ ⟨4096, fun _ => 0⟩ 0#32 1024
    (by decide)).mpr (Or.inr fun _ _ block _ _ early => absurd early (Nat.not_lt_zero _))) Unit
      (willingPlatform fun _ _ => 0) ⟨(), fun _ => 0, []⟩ rfl rfl).2

def holeInode : Inode where
  size := 4096
  zones := fun i => if i.val = 1 ∨ i.val = 2 ∨ i.val = 3 then 5 else 0

/-- Reading 1024 bytes at offset 2048 behind a hole at block 0: the cursor falls back to
1024, and the second copy starts at the end of the slice. -/
theorem readFile_copies_past_slice :
    (readFile (willingPlatform fun _ _ => 1) ⟨0, ⟨1, 1, 1, magic⟩⟩ holeInode 2048#32 1024
        ⟨(), fun _ => 0, []⟩).2 = .returned 2048 ∧
      Event.copy ⟨2048, 2048, 0, 1024, 1024⟩ ∈
        (readFile (willingPlatform fun _ _ => 1) ⟨0, ⟨1, 1, 1, magic⟩⟩ holeInode 2048#32 1024
          ⟨(), fun _ => 0, []⟩).1.log := by
  decide +kernel

end Vesper.Minix3
