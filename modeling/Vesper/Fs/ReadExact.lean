import Mathlib.Tactic
import Vesper.Fs.BlockMap
import Vesper.Fs.Visit

/-!
# Reading a file without holes

On a file all of whose blocks are mapped, `read_file` copies exactly the requested
window.  The pass over the stream keeps one invariant: the cursor is the offset plus the
bytes written, those bytes are the file's, and the walk has not passed the cursor.  A
run in which a call of the platform fails is recognised by its log.
-/

set_option autoImplicit false

namespace Vesper.Minix3

open Vesper.Lib.EarlyExit

variable {σ : Type} {p : Platform σ} {fs : Fs} {stop : Nat}

/-- The bytes written so far are those of the window that starts at `offset`, and the
rest of the memory is still `before`. -/
structure Copied (byte : Nat → BitVec 8) (before : Nat → BitVec 8) (offset : Nat)
    (v : Vars σ) : Prop where
  cursor : v.curOffset = offset + v.written
  done : ∀ k, k < v.written → v.world.out k = byte (offset + k)
  rest : ∀ k, v.written ≤ k → v.world.out k = before k

theorem sourceByte_inside {block : Block} {src : Nat} (inside : src < blockSize) :
    sourceByte p block src = block src := by
  have small : src % 2 ^ 64 = src := Nat.mod_eq_of_lt (by unfold blockSize at inside; omega)
  rw [sourceByte, small, if_pos inside]

theorem Copied.quiet {byte before : Nat → BitVec 8} {offset : Nat} {v : Vars σ} {w : World σ}
    (copied : Copied byte before offset v) (quiet : Quiet v.world w) :
    Copied byte before offset { v with world := w } :=
  ⟨copied.cursor, fun k bound => (congrFun quiet.out k).trans (copied.done k bound),
    fun k bound => (congrFun quiet.out k).trans (copied.rest k bound)⟩

theorem Copied.copy {byte before : Nat → BitVec 8} {offset b : Nat} {v : Vars σ} {c : Copy}
    (copied : Copied byte before offset v) (low : b * blockSize ≤ v.curOffset)
    (holds : ∀ k, k < blockSize → v.blockBuf k = byte (b * blockSize + k))
    (src : c.src = v.curOffset - b * blockSize) (dst : c.dst = v.written)
    (len : v.curOffset + c.len ≤ b * blockSize + blockSize) :
    Copied byte before offset (v.copy p c) := by
  have cursor := copied.cursor
  refine ⟨?_, ?_, ?_⟩
  · simp only [Vars.copy]
    omega
  · intro k bound
    simp only [Vars.copy, World.note, copyNonoverlapping] at bound ⊢
    split_ifs with fresh
    · have inside : c.src + (k - c.dst) < blockSize := by omega
      rw [sourceByte_inside inside, holds _ inside]
      congr 1
      omega
    · exact copied.done k (by omega)
  · intro k bound
    simp only [Vars.copy, World.note, copyNonoverlapping] at bound ⊢
    rw [if_neg (by omega)]
    exact copied.rest k (by omega)

/-- What a visit of a mapped block leads to: the walk goes on behind the block, the
window is full, or the device failed. -/
inductive Visited (byte before : Nat → BitVec 8) (offset stop b : Nat) :
    Vars σ × Option (Exit Nat) → Prop where
  | goOn (v : Vars σ) (copied : Copied byte before offset v)
      (low : (b + 1) * blockSize ≤ v.curOffset) (room : v.curOffset < stop) :
      Visited byte before offset stop b (v, none)
  | full (v : Vars σ) (copied : Copied byte before offset v) (atStop : v.curOffset = stop) :
      Visited byte before offset stop b (v, some (.returned v.written))
  | refused (v : Vars σ) (e : Exit Nat) (unserved : ¬ Served v.world.log) :
      Visited byte before offset stop b (v, some e)

theorem visitZone_mapped {byte before : Nat → BitVec 8} {offset b zone : Nat} (pos : Pos)
    {v : Vars σ} (small : b * blockSize < 2 ^ 63) (copied : Copied byte before offset v)
    (low : b * blockSize ≤ v.curOffset) (room : v.curOffset < stop) (present : zone ≠ 0)
    (holds : ∀ k, k < blockSize → p.zoneBlock fs zone k = byte (b * blockSize + k)) :
    Visited byte before offset stop b (visitZone p fs stop pos zone (b * blockSize) v) := by
  have visit : Visit p fs stop zone (b * blockSize) v _ := visitZone_visit pos small room
  generalize visitZone p fs stop pos zone (b * blockSize) v = outcome at visit
  cases visit with
  | hole w quiet absent => exact absurd absent present
  | skip w quiet _ early =>
      exact .goOn _ (copied.quiet quiet) (by rw [Nat.succ_mul]; exact early) room
  | refused w quiet _ unserved => exact .refused _ _ unserved
  | underflow u quiet checks behind => exact absurd low (not_le.mpr behind)
  | copy w c quiet _ reached start src dst len =>
      rw [usizeSub_exact low, Option.some.injEq] at src
      have next : Copied byte before offset
          (Vars.copy p c { v with world := w, blockBuf := p.zoneBlock fs zone }) := by
        have same := copied.quiet quiet
        exact Copied.copy (b := b) ⟨same.cursor, same.done, same.rest⟩ low holds src.symm dst
          (len.le.trans (Nat.min_le_left _ _))
      have cursor : (Vars.copy p c { v with world := w, blockBuf := p.zoneBlock fs zone }
          ).curOffset = min (b * blockSize + blockSize) stop := len
      unfold exitAt
      split_ifs with more
      · exact .goOn _ next (by rw [Nat.succ_mul]; omega) more
      · exact .full _ next (by omega)

/-- If the platform served every call, the call returned `n` and left `P` in memory. -/
def Good (n : Nat) (P : (Nat → BitVec 8) → Prop) (r : World σ × Exit Nat) : Prop :=
  Served r.1.log → r.2 = .returned n ∧ P r.1.out

def Window (byte before : Nat → BitVec 8) (offset n : Nat) (out : Nat → BitVec 8) : Prop :=
  (∀ k, k < n → out k = byte (offset + k)) ∧ ∀ k, n ≤ k → out k = before k

theorem run_dense {map : Nat → Option Nat} {byte before : Nat → BitVec 8}
    {size offset n b c : Nat} {items : List Item} {v : Vars σ} (length : stop = offset + n)
    (holds : ∀ b zone, map b = some zone → zone ≠ 0 ∧
      ∀ k, k < blockSize → p.zoneBlock fs zone k = byte (b * blockSize + k))
    (within : stop ≤ size) (limit : size < 2 ^ 63) (covers : size ≤ c * blockSize)
    (dense : Dense map size items b c) (copied : Copied byte before offset v)
    (low : b * blockSize ≤ v.curOffset) (room : v.curOffset < stop) :
    Good n (Window byte before offset n)
      (settle (runAll (act p fs stop) items v)) := by
  induction items generalizing b v with
  | nil =>
      cases dense with
      | inl past => omega
      | inr same => subst same; omega
  | cons item rest ih =>
      cases item with
      | load zone =>
          obtain ⟨d, step, tail⟩ := dense
          have same : d = b := by
            cases step with
            | inl past => exact past.2
            | inr same => exact same
          subst same
          obtain ⟨w, quiet, loaded | ⟨_, unserved, refused⟩⟩ := readIndirectZone_cases p fs zone v
          · simp only [runAll, act, loaded]
            exact ih tail (copied.quiet quiet) low room
          · simp only [runAll, act, refused]
            exact fun served => absurd served unserved
      | slot pos zone block =>
          obtain ⟨d, step, tail⟩ := dense
          cases step with
          | inl past => omega
          | inr here =>
              obtain ⟨rfl, mapped, rfl⟩ := here
              obtain ⟨present, bytes⟩ := holds block zone mapped
              have small : block * blockSize < 2 ^ 63 := by omega
              have visited := visitZone_mapped (p := p) pos small copied low room present bytes
              simp only [runAll, act]
              generalize visitZone p fs stop pos zone (block * blockSize) v = visit at visited
              cases visited with
              | goOn v' next low' room' => exact ih tail next low' room'
              | full v' next atStop =>
                  intro served
                  have count : v'.written = n := by
                    have := next.cursor
                    omega
                  exact ⟨by rw [← count]; rfl, by rw [← count]; exact ⟨next.done, next.rest⟩⟩
              | refused v' e unserved =>
                  intro served
                  exact absurd served unserved

theorem withBuffer_good {n : Nat} {P : (Nat → BitVec 8) → Prop}
    {body : World σ → World σ × Exit Nat} {w : World σ}
    (inner : ∀ w', w'.out = w.out → Good n P (body w')) :
    Good n P (withBuffer p body w) := by
  rcases withBuffer_cases p body w with
    ⟨w', _, unserved, _, result⟩ | ⟨w₀, w', entry, after, result | ⟨unserved, _, result⟩⟩
  · rw [result]
    exact fun served => absurd served unserved
  · rw [result]
    intro served
    obtain ⟨returned, memory⟩ := inner w₀ entry.out (after.served served)
    exact ⟨returned, after.out ▸ memory⟩
  · rw [result]
    exact fun served => absurd served unserved

theorem fileByte_mapped {read : Nat → Block} {inode : Inode} {b zone : Nat}
    (mapped : blockMap read inode b = some zone) {k : Nat} (inside : k < blockSize) :
    read zone k = fileByte read inode (b * blockSize + k) := by
  have quotient : (b * blockSize + k) / blockSize = b := by
    unfold blockSize at inside ⊢
    omega
  have remainder : (b * blockSize + k) % blockSize = k := by
    unfold blockSize at inside ⊢
    omega
  rw [fileByte, quotient, remainder, mapped]

theorem through_ne_zero {read : Nat → Block} {zone z : Nat} {path : List Nat}
    (mapped : through read zone path = some z) : z ≠ 0 := by
  rw [through_of_linked (linked_of_through (Option.isSome_of_mem mapped))] at mapped
  split_ifs at mapped with absent
  cases mapped
  exact absent

theorem blockMap_ne_zero {read : Nat → Block} {inode : Inode} {b zone : Nat}
    (mapped : blockMap read inode b = some zone) : zone ≠ 0 := by
  unfold blockMap at mapped
  split_ifs at mapped
  all_goals exact through_ne_zero mapped

/-- `read_file` is exact on every file without holes: if the platform serves the calls of
the run, it returns the length of the window, the window's bytes are those of the file
and no other byte changes. -/
theorem readFile_exact (p : Platform σ) (fs : Fs) (inode : Inode) (offset : BitVec 32)
    (outLen : Nat) (sys : σ) (out : Nat → BitVec 8) (short : outLen < 2 ^ 32)
    (complete : Complete (p.zoneBlock fs) inode)
    (served : Served (readFile p fs inode offset outLen ⟨sys, out, []⟩).1.log) :
    let n := min outLen (inode.size.toNat - offset.toNat)
    let final := readFile p fs inode offset outLen ⟨sys, out, []⟩
    final.2 = .returned n ∧
      (∀ k, k < n → final.1.out k = fileByte (p.zoneBlock fs) inode (offset.toNat + k)) ∧
      ∀ k, n ≤ k → final.1.out k = out k := by
  have goal : Good (want inode offset outLen) (Window (fileByte (p.zoneBlock fs) inode) out
      offset.toNat (want inode offset outLen))
      (readFile p fs inode offset outLen ⟨sys, out, []⟩) := by
    by_cases empty : want inode offset outLen = 0
    · rw [readFile_empty empty, empty]
      exact fun _ =>
        ⟨rfl, fun k bound => absurd bound (Nat.not_lt_zero k), fun _ _ => rfl⟩
    · have positive : 0 < want inode offset outLen := Nat.pos_of_ne_zero empty
      have fits : offset.toNat + want inode offset outLen ≤ inode.size.toNat := by
        unfold want at positive ⊢
        omega
      refine readFile_meets (P := fun w => w.out = out) (fun body w same inner => ?_) positive rfl
        fun w memory => ?_
      · exact withBuffer_good fun w' same' => inner w' (same'.trans same)
      refine run_dense rfl ?_ fits (by omega) ?_ (stream_dense complete)
        ⟨rfl, fun k bound => absurd bound (Nat.not_lt_zero k),
          fun k _ => congrFun memory k⟩ ?_ ?_
      · exact fun b zone mapped =>
          ⟨blockMap_ne_zero mapped, fun k bound => fileByte_mapped mapped bound⟩
      · have := inode.size.isLt
        unfold blockSize
        omega
      · rw [Nat.zero_mul]
        exact Nat.zero_le _
      · exact Nat.lt_add_of_pos_right positive
  have length : want inode offset outLen = min outLen (inode.size.toNat - offset.toNat) := by
    rw [want, Nat.mod_eq_of_lt short]
  rw [length] at goal
  exact goal served

def spanPlatform : Platform Unit where
  disk := fun _ offset => if offset = 9 * 1024 then 10 else BitVec.ofNat 8 (offset / 2048)
  blockRead := fun _ _ _ => (true, ())
  bufferNew := fun _ => some (0, ())
  bufferDrop := fun _ _ => some ()
  stale := fun _ => 0
  stray := fun _ => 0
  overflowChecks := true
  buffer := 0
  store := fun _ _ sys => sys

def spanInode : Inode where
  size := 8000
  zones := fun i => if i.val < 7 then BitVec.ofNat 32 (i.val + 1) else
    if i.val = 7 then 9 else 0

def spanFs : Fs := ⟨0, ⟨32, 1, 1, magic⟩⟩

theorem spanInode_complete : Complete (spanPlatform.zoneBlock spanFs) spanInode := by
  intro b inside
  have bound : b < 8 := by
    have size : spanInode.size.toNat = 8000 := rfl
    rw [size] at inside
    unfold blockSize at inside
    omega
  interval_cases b <;> rfl

theorem readFile_exact_span :
    Complete (spanPlatform.zoneBlock spanFs) spanInode ∧
      (readFile spanPlatform spanFs spanInode 7000#32 900 ⟨(), fun _ => 0, []⟩).2 =
        .returned 900 :=
  ⟨spanInode_complete, (readFile_exact spanPlatform spanFs spanInode 7000#32 900 ()
    (fun _ => 0) (by decide) spanInode_complete (by decide +kernel)).1⟩

end Vesper.Minix3
