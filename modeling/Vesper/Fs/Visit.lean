import Mathlib.Tactic
import Vesper.Fs.ZoneStream

/-!
# What one step of the reader can do

`visitZone` tests the window, calls `copy_zone` and returns early.  `Visit` lists its
outcomes once, as `withBuffer_cases` does for a scratch buffer: a hole moves the cursor to
the end of its block, a block before the window is skipped, and otherwise the device refuses
the read, the offset arithmetic underflows or one copy is made.  The later proofs about runs
split these cases only.
-/

set_option autoImplicit false

namespace Vesper.Minix3

open Vesper.Lib.EarlyExit

variable {σ : Type} {p : Platform σ} {fs : Fs} {stop : Nat}

def Event.ok : Event → Bool
  | .bufferNew ok => ok
  | .bufferDrop ok => ok
  | .read _ ok => ok
  | .call _ _ _ => true
  | .copy _ => true

def Served (log : List Event) : Prop := ∀ event ∈ log, event.ok = true

instance (log : List Event) : Decidable (Served log) :=
  inferInstanceAs (Decidable (∀ event ∈ log, event.ok = true))

theorem not_served_note {w : World σ} {event : Event} (failed : event.ok = false) :
    ¬ Served (w.note event).log := by
  intro served
  have ok := served event (by simp [World.note])
  rw [failed] at ok
  cases ok

/-- `w'` follows `w` without a copy. -/
structure Quiet (w w' : World σ) : Prop where
  out : w'.out = w.out
  served : Served w'.log → Served w.log
  copies : ∀ c, Event.copy c ∈ w'.log → Event.copy c ∈ w.log

theorem Quiet.trans {w₁ w₂ w₃ : World σ} (first : Quiet w₁ w₂) (second : Quiet w₂ w₃) :
    Quiet w₁ w₃ :=
  ⟨second.out.trans first.out, first.served ∘ second.served,
    fun c member => first.copies c (second.copies c member)⟩

theorem Quiet.sys (w : World σ) (sys : σ) : Quiet w { w with sys := sys } :=
  ⟨rfl, id, fun _ => id⟩

theorem Quiet.note (w : World σ) {event : Event} (quiet : ∀ c, event ≠ .copy c) :
    Quiet w (w.note event) := by
  refine ⟨rfl, fun served e member => served e (List.mem_append_left _ member), ?_⟩
  intro c member
  rcases List.mem_append.mp member with old | new
  · exact old
  · exact absurd (List.mem_singleton.mp new).symm (quiet c)

theorem blockRead_quiet (p : Platform σ) (dev offset : Nat) (w : World σ) :
    Quiet w (blockRead p dev offset w).2 :=
  (Quiet.sys w _).trans (Quiet.note _ (by simp))

def Platform.Refuses (p : Platform σ) (dev offset : Nat) : Prop :=
  ∃ sys, (p.blockRead dev offset sys).1 = false

theorem blockRead_refused {dev offset : Nat} {w w' : World σ}
    (refused : blockRead p dev offset w = (false, w')) :
    p.Refuses dev offset ∧ ¬ Served w'.log := by
  simp only [blockRead, Prod.mk.injEq] at refused
  obtain ⟨answered, rfl⟩ := refused
  refine ⟨⟨w.sys, answered⟩, not_served_note ?_⟩
  rw [answered]
  rfl

theorem readIndirectZone_cases (p : Platform σ) (fs : Fs) (zone : Nat) (v : Vars σ) :
    ∃ w, Quiet v.world w ∧
      (readIndirectZone p fs zone v = ({ v with world := w }, none) ∨
        p.Refuses fs.dev (zone * blockSize) ∧ ¬ Served w.log ∧
          readIndirectZone p fs zone v =
            ({ v with world := w }, some (.failed .blockReadFailed))) := by
  have quiet := blockRead_quiet p fs.dev (zone * blockSize) v.world
  unfold readIndirectZone
  cases answer : blockRead p fs.dev (zone * blockSize) v.world with
  | mk ok w =>
      rw [answer] at quiet
      refine ⟨w, quiet, ?_⟩
      cases ok with
      | false =>
          obtain ⟨refuses, unserved⟩ := blockRead_refused answer
          exact Or.inr ⟨refuses, unserved, rfl⟩
      | true => exact Or.inl rfl

/-- What a scope with a scratch buffer adds to its body: quiet bookkeeping around it, or
a failed allocation or release. -/
theorem withBuffer_cases {α : Type} (p : Platform σ) (body : World σ → World σ × Exit α)
    (w : World σ) :
    (∃ w', Quiet w w' ∧ ¬ Served w'.log ∧ (∃ sys, p.bufferNew sys = none) ∧
        withBuffer p body w = (w', .failed .outOfMemory)) ∨
      ∃ w₀ w', Quiet w w₀ ∧ Quiet (body w₀).1 w' ∧
        (withBuffer p body w = (w', (body w₀).2) ∨
          ¬ Served w'.log ∧ (∃ ptr sys, p.bufferDrop ptr sys = none) ∧
            withBuffer p body w = (w', .dropPanic)) := by
  have quiet (ok : Bool) (w : World σ) : Quiet w (w.note (.bufferDrop ok)) :=
    Quiet.note w (by simp)
  unfold withBuffer
  cases allocated : p.bufferNew w.sys with
  | none =>
      left
      exact ⟨w.note (.bufferNew false), Quiet.note w (by simp), not_served_note rfl,
        ⟨w.sys, allocated⟩, rfl⟩
  | some buffer =>
      obtain ⟨ptr, sys⟩ := buffer
      right
      refine ⟨{ w with sys := sys }.note (.bufferNew true), ?_⟩
      dsimp only
      generalize body ({ w with sys := sys }.note (.bufferNew true)) = result
      obtain ⟨w', e⟩ := result
      have entry : Quiet w ({ w with sys := sys }.note (.bufferNew true)) :=
        (Quiet.sys w sys).trans (Quiet.note _ (by simp))
      cases e with
      | overflow => exact ⟨w', entry, Quiet.sys w' w'.sys, Or.inl rfl⟩
      | dropPanic => exact ⟨w', entry, Quiet.sys w' w'.sys, Or.inl rfl⟩
      | returned value =>
          dsimp only
          cases dropped : p.bufferDrop ptr w'.sys with
          | none =>
              exact ⟨_, entry, quiet false w', Or.inr ⟨not_served_note rfl, ⟨ptr, w'.sys, dropped⟩,
                rfl⟩⟩
          | some sys' => exact ⟨_, entry, (Quiet.sys w' sys').trans (quiet true _), Or.inl rfl⟩
      | failed error =>
          dsimp only
          cases dropped : p.bufferDrop ptr w'.sys with
          | none =>
              exact ⟨_, entry, quiet false w', Or.inr ⟨not_served_note rfl, ⟨ptr, w'.sys, dropped⟩,
                rfl⟩⟩
          | some sys' => exact ⟨_, entry, (Quiet.sys w' sys').trans (quiet true _), Or.inl rfl⟩

theorem withBuffer_copies {α : Type} {P : Copy → Prop} {E : Exit α → Prop}
    (refused : E (.failed .outOfMemory)) (panics : E .dropPanic)
    {body : World σ → World σ × Exit α} {w : World σ}
    (before : ∀ c, Event.copy c ∈ w.log → P c)
    (inner : ∀ w', (∀ c, Event.copy c ∈ w'.log → P c) →
      (∀ c, Event.copy c ∈ (body w').1.log → P c) ∧ E (body w').2) :
    (∀ c, Event.copy c ∈ (withBuffer p body w).1.log → P c) ∧ E (withBuffer p body w).2 := by
  rcases withBuffer_cases p body w with
    ⟨w', quiet, _, _, result⟩ | ⟨w₀, w', entry, after, result | ⟨_, _, result⟩⟩
  · rw [result]
    exact ⟨fun c member => before c (quiet.copies c member), refused⟩
  · obtain ⟨copies, ends⟩ := inner w₀ fun c member => before c (entry.copies c member)
    rw [result]
    exact ⟨fun c member => copies c (after.copies c member), ends⟩
  · obtain ⟨copies, _⟩ := inner w₀ fun c member => before c (entry.copies c member)
    rw [result]
    exact ⟨fun c member => copies c (after.copies c member), panics⟩

def exitAt (stop : Nat) (v : Vars σ) : Option (Exit Nat) :=
  if v.curOffset < stop then none else some (.returned v.written)

inductive Visit (p : Platform σ) (fs : Fs) (stop zone logical : Nat) (v : Vars σ) :
    Vars σ × Option (Exit Nat) → Prop where
  | hole (w : World σ) (quiet : Quiet v.world w) (absent : zone = 0) :
      Visit p fs stop zone logical v
        ({ v with world := w, curOffset := logical + blockSize },
          exitAt stop { v with world := w, curOffset := logical + blockSize })
  | skip (w : World σ) (quiet : Quiet v.world w) (present : zone ≠ 0)
      (early : logical + blockSize ≤ v.curOffset) :
      Visit p fs stop zone logical v ({ v with world := w }, none)
  | refused (w : World σ) (quiet : Quiet v.world w)
      (refuses : p.Refuses fs.dev (zone * blockSize)) (unserved : ¬ Served w.log) :
      Visit p fs stop zone logical v
        ({ v with world := w }, some (.failed .blockReadFailed))
  | underflow (u : Vars σ) (quiet : Quiet v.world u.world) (checks : p.overflowChecks = true)
      (behind : v.curOffset < logical) :
      Visit p fs stop zone logical v (u, some .overflow)
  | copy (w : World σ) (c : Copy) (quiet : Quiet v.world w) (present : zone ≠ 0)
      (reached : v.curOffset < logical + blockSize)
      (start : c.logical = logical ∧ c.cur = v.curOffset)
      (src : usizeSub p v.curOffset logical = some c.src) (dst : c.dst = v.written)
      (len : v.curOffset + c.len = min (logical + blockSize) stop) :
      Visit p fs stop zone logical v
        (Vars.copy p c { v with world := w, blockBuf := p.zoneBlock fs zone },
          exitAt stop (Vars.copy p c { v with world := w, blockBuf := p.zoneBlock fs zone }))

theorem usizeSub_exact {a b : Nat} (low : b ≤ a) : usizeSub p a b = some (a - b) := by
  rw [usizeSub, if_pos low]

theorem usizeSub_wraps {a b : Nat} (behind : a < b) (unchecked : p.overflowChecks = false) :
    usizeSub p a b = some (a + 2 ^ 64 - b) := by
  rw [usizeSub, if_neg (not_le.mpr behind), unchecked]
  rfl

theorem usizeSub_panics {a b : Nat} (behind : a < b) (checks : p.overflowChecks = true) :
    usizeSub p a b = none := by
  rw [usizeSub, if_neg (not_le.mpr behind), if_pos checks]

theorem copyChunk_of_sub {logical inBlock room left : Nat} {v : Vars σ}
    (first : usizeSub p v.curOffset logical = some inBlock)
    (second : usizeSub p blockSize inBlock = some room)
    (third : usizeSub p stop v.curOffset = some left) :
    let v' := v.copy p ⟨logical, v.curOffset, inBlock, v.written, min room left⟩
    copyChunk p stop logical v = (v', .ok (decide (v'.curOffset < stop))) := by
  simp only [copyChunk, first, second, third]

/-- Subtractions of `copy_zone` at its copy: exact if the cursor has reached the block,
otherwise a panic or a wrap-around whose length comes out the same. -/
theorem copyChunk_cases {logical : Nat} {v : Vars σ} (small : logical < 2 ^ 63)
    (reached : v.curOffset < logical + blockSize) (room : v.curOffset < stop) :
    (p.overflowChecks = true ∧ v.curOffset < logical ∧
        copyChunk p stop logical v = (v, .error .overflow)) ∨
      ∃ c : Copy, (c.logical = logical ∧ c.cur = v.curOffset) ∧
        usizeSub p v.curOffset logical = some c.src ∧ c.dst = v.written ∧
        v.curOffset + c.len = min (logical + blockSize) stop ∧
        copyChunk p stop logical v =
          (v.copy p c, .ok (decide ((v.copy p c).curOffset < stop))) := by
  have left := usizeSub_exact (p := p) room.le
  by_cases low : logical ≤ v.curOffset
  · have first := usizeSub_exact (p := p) low
    have second : usizeSub p blockSize (v.curOffset - logical) =
        some (blockSize - (v.curOffset - logical)) := usizeSub_exact (by omega)
    exact Or.inr ⟨_, ⟨rfl, rfl⟩, first, rfl, by dsimp only; omega,
      copyChunk_of_sub first second left⟩
  · have behind := not_le.mp low
    cases checks : p.overflowChecks with
    | true => exact Or.inl ⟨rfl, behind, by simp only [copyChunk, usizeSub_panics behind checks]⟩
    | false =>
        have first := usizeSub_wraps behind checks
        have past : blockSize < v.curOffset + 2 ^ 64 - logical := by
          unfold blockSize
          omega
        have second := usizeSub_wraps past checks
        have length : v.curOffset + min (blockSize + 2 ^ 64 - (v.curOffset + 2 ^ 64 - logical))
            (stop - v.curOffset) = min (logical + blockSize) stop := by omega
        exact Or.inr ⟨_, ⟨rfl, rfl⟩, first, rfl, length, copyChunk_of_sub first second left⟩

section Branches
variable {zone logical : Nat} {v : Vars σ}

theorem visitZone_hole (pos : Pos) (room : v.curOffset < stop) (absent : zone = 0) :
    visitZone p fs stop pos zone logical v =
      ({ v with world := v.world.note (.call pos zone logical), curOffset := logical + blockSize },
        exitAt stop { v with curOffset := logical + blockSize }) := by
  unfold visitZone exitAt
  rw [if_neg (not_le.mpr room)]
  simp only [copyZone, if_pos absent]
  split_ifs with more
  · rw [decide_eq_true more]
  · rw [decide_eq_false more]

theorem visitZone_skip (pos : Pos) (room : v.curOffset < stop) (present : zone ≠ 0)
    (early : logical + blockSize ≤ v.curOffset) :
    visitZone p fs stop pos zone logical v =
      ({ v with world := v.world.note (.call pos zone logical) }, none) := by
  unfold visitZone
  rw [if_neg (not_le.mpr room)]
  simp only [copyZone, if_neg present, if_pos early]

theorem visitZone_refused (pos : Pos) (room : v.curOffset < stop) (present : zone ≠ 0)
    (reached : v.curOffset < logical + blockSize) {w : World σ}
    (answer : blockRead p fs.dev (zone * blockSize) (v.world.note (.call pos zone logical)) =
      (false, w)) :
    visitZone p fs stop pos zone logical v =
      ({ v with world := w }, some (.failed .blockReadFailed)) := by
  unfold visitZone
  rw [if_neg (not_le.mpr room)]
  simp only [copyZone, if_neg present, if_neg (not_le.mpr reached), answer]

theorem visitZone_copies (pos : Pos) (small : logical < 2 ^ 63) (room : v.curOffset < stop)
    (present : zone ≠ 0) (reached : v.curOffset < logical + blockSize) {w : World σ}
    (answer : blockRead p fs.dev (zone * blockSize) (v.world.note (.call pos zone logical)) =
      (true, w)) :
    (p.overflowChecks = true ∧ v.curOffset < logical ∧
        visitZone p fs stop pos zone logical v =
          ({ v with world := w, blockBuf := p.zoneBlock fs zone }, some .overflow)) ∨
      ∃ c : Copy, (c.logical = logical ∧ c.cur = v.curOffset) ∧
        usizeSub p v.curOffset logical = some c.src ∧ c.dst = v.written ∧
        v.curOffset + c.len = min (logical + blockSize) stop ∧
        visitZone p fs stop pos zone logical v =
          (Vars.copy p c { v with world := w, blockBuf := p.zoneBlock fs zone },
            exitAt stop
              (Vars.copy p c { v with world := w, blockBuf := p.zoneBlock fs zone })) := by
  have called : copyZone p fs stop pos zone logical v =
      copyChunk p stop logical { v with world := w, blockBuf := p.zoneBlock fs zone } := by
    simp only [copyZone, if_neg present, if_neg (not_le.mpr reached), answer]
    rfl
  rcases copyChunk_cases (p := p)
    (v := { v with world := w, blockBuf := p.zoneBlock fs zone }) small reached room with
    ⟨checks, behind, result⟩ | ⟨c, start, src, dst, len, result⟩
  · refine Or.inl ⟨checks, behind, ?_⟩
    rw [visitZone, if_neg (not_le.mpr room), called, result]
  · refine Or.inr ⟨c, start, src, dst, len, ?_⟩
    rw [visitZone, if_neg (not_le.mpr room), called, result]
    unfold exitAt
    split_ifs with more
    · rw [decide_eq_true more]
    · rw [decide_eq_false more]

end Branches

theorem visitZone_visit {zone logical : Nat} (pos : Pos) {v : Vars σ}
    (small : logical < 2 ^ 63) (room : v.curOffset < stop) :
    Visit p fs stop zone logical v (visitZone p fs stop pos zone logical v) := by
  have called : Quiet v.world (v.world.note (.call pos zone logical)) :=
    Quiet.note _ (by simp)
  by_cases absent : zone = 0
  · rw [visitZone_hole pos room absent]
    exact .hole _ called absent
  by_cases early : logical + blockSize ≤ v.curOffset
  · rw [visitZone_skip pos room absent early]
    exact .skip _ called absent early
  have quiet := called.trans (blockRead_quiet p fs.dev (zone * blockSize) _)
  cases answer : blockRead p fs.dev (zone * blockSize)
      (v.world.note (.call pos zone logical)) with
  | mk ok w =>
      rw [answer] at quiet
      cases ok with
      | false =>
          obtain ⟨refuses, unserved⟩ := blockRead_refused answer
          rw [visitZone_refused pos room absent (not_le.mp early) answer]
          exact .refused w quiet refuses unserved
      | true =>
          rcases visitZone_copies pos small room absent (not_le.mp early) answer with
            ⟨checks, behind, result⟩ | ⟨c, start, src, dst, len, result⟩
          · rw [result]
            exact .underflow _ quiet checks behind
          · rw [result]
            exact .copy w c quiet absent (not_le.mp early) start src dst len

/-! ## The whole call -/

theorem want_le (inode : Inode) (offset : BitVec 32) (outLen : Nat) :
    want inode offset outLen ≤ outLen :=
  (Nat.min_le_left _ _).trans (Nat.mod_le _ _)

theorem want_lt (inode : Inode) (offset : BitVec 32) (outLen : Nat) :
    want inode offset outLen < 2 ^ 32 :=
  (Nat.min_le_left _ _).trans_lt (Nat.mod_lt _ (Nat.two_pow_pos 32))

theorem readFile_empty {inode : Inode} {offset : BitVec 32} {outLen : Nat}
    (empty : want inode offset outLen = 0) (w : World σ) :
    readFile p fs inode offset outLen w = (w, .returned 0) := by
  unfold readFile
  split_ifs <;> rfl

theorem not_past_of_want {inode : Inode} {offset : BitVec 32} {outLen : Nat}
    (positive : 0 < want inode offset outLen) : ¬ inode.size ≤ offset := by
  intro past
  have := BitVec.le_def.mp past
  unfold want at positive
  omega

/-- `read_file` is one pass over the stream inside four scratch buffers: what a scope keeps,
the call keeps. -/
theorem readFile_meets {P : World σ → Prop} {Q : World σ × Exit Nat → Prop} {inode : Inode}
    {offset : BitVec 32} {outLen : Nat} {w : World σ}
    (scope : ∀ (body : World σ → World σ × Exit Nat) (w : World σ), P w →
      (∀ w', P w' → Q (body w')) → Q (withBuffer p body w))
    (positive : 0 < want inode offset outLen) (start : P w)
    (pass : ∀ w', P w' →
      Q (settle (runAll (act p fs (offset.toNat + want inode offset outLen))
        (stream (p.zoneBlock fs) inode) ⟨w', offset.toNat, 0, p.stale⟩))) :
    Q (readFile p fs inode offset outLen w) := by
  rw [readFile, if_neg (not_past_of_want positive), if_neg positive.ne']
  refine scope _ w start fun w₁ first => ?_
  refine scope _ w₁ first fun w₂ second => ?_
  refine scope _ w₂ second fun w₃ third => ?_
  refine scope _ w₃ third fun w₄ fourth => ?_
  rw [walkZones_eq inode (Nat.lt_add_of_pos_right positive)]
  exact pass w₄ fourth

end Vesper.Minix3
