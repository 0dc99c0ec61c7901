import Mathlib.Tactic
import Vesper.Fs.Arrivals
import Vesper.Fs.ReadBounds

/-!
# The file position each zone pointer is given

`read_file` keeps the position of the next pointer in a running sum.  Every absent
indirect block adds the span below it, but for the double indirect block of the inode: if
it is missing, all pointers below the triple indirect block are taken for blocks 64 MiB
earlier in the file.  The calls of `copy_zone` are an initial part of the arrivals, all of
them if nothing fails, so the sum is wrong exactly if the walk gets to such a pointer.
-/

set_option autoImplicit false

namespace Vesper.Minix3

open Vesper.Lib Vesper.Lib.EarlyExit

variable {σ : Type} {p : Platform σ} {fs : Fs} {stop : Nat}

/-- The file block the Minix block map assigns to a pointer's position. -/
def Pos.index : Pos → Nat
  | .direct i => i
  | .single i => 7 + i
  | .double i j => 7 + 256 + 256 * i + j
  | .triple i j k => 7 + 256 + 65536 + 65536 * i + 256 * j + k

/-! ## The calls of a run -/

structure Call where
  pos : Pos
  zone : Nat
  logical : Nat

def Event.asCall : Event → Option Call
  | .call pos zone logical => some ⟨pos, zone, logical⟩
  | _ => none

def calls (log : List Event) : List Call := log.filterMap Event.asCall

theorem mem_calls {log : List Event} {pos : Pos} {zone logical : Nat} :
    ⟨pos, zone, logical⟩ ∈ calls log ↔ Event.call pos zone logical ∈ log := by
  rw [calls, List.mem_filterMap]
  constructor
  · intro found
    obtain ⟨event, member, same⟩ := found
    cases event <;> cases same
    exact member
  · intro member
    exact ⟨_, member, rfl⟩

theorem calls_note (w : World σ) (event : Event) :
    calls (w.note event).log = calls w.log ++ event.asCall.toList := by
  rw [World.note, calls, List.filterMap_append]
  cases event <;> rfl

theorem calls_blockRead (p : Platform σ) (dev offset : Nat) (w : World σ) :
    calls (blockRead p dev offset w).2.log = calls w.log :=
  (calls_note _ _).trans (List.append_nil _)

theorem calls_readIndirectZone (p : Platform σ) (fs : Fs) (zone : Nat) (v : Vars σ) :
    calls (readIndirectZone p fs zone v).1.world.log = calls v.world.log := by
  have read := calls_blockRead p fs.dev (zone * blockSize) v.world
  unfold readIndirectZone
  cases answer : blockRead p fs.dev (zone * blockSize) v.world with
  | mk ok w =>
      rw [answer] at read
      cases ok <;> exact read

theorem calls_copyChunk (p : Platform σ) (stop logical : Nat) (v : Vars σ) :
    calls (copyChunk p stop logical v).1.world.log = calls v.world.log := by
  unfold copyChunk
  split
  · rfl
  · split
    · exact (calls_note _ _).trans (List.append_nil _)
    · rfl

theorem calls_copyZone (p : Platform σ) (fs : Fs) (stop : Nat) (pos : Pos) (zone logical : Nat)
    (v : Vars σ) :
    calls (copyZone p fs stop pos zone logical v).1.world.log =
      calls v.world.log ++ [⟨pos, zone, logical⟩] := by
  have noted := calls_note v.world (.call pos zone logical)
  have read := calls_blockRead p fs.dev (zone * blockSize)
    (v.world.note (.call pos zone logical))
  unfold copyZone
  dsimp only
  split_ifs
  · exact noted
  · exact noted
  · cases answer : blockRead p fs.dev (zone * blockSize)
        (v.world.note (.call pos zone logical)) with
    | mk ok w =>
        rw [answer] at read
        cases ok with
        | false => exact read.trans noted
        | true => exact (calls_copyChunk p stop logical _).trans (read.trans noted)

theorem calls_visitZone (p : Platform σ) (fs : Fs) (pos : Pos) (zone logical : Nat) {v : Vars σ}
    (room : v.curOffset < stop) :
    calls (visitZone p fs stop pos zone logical v).1.world.log =
      calls v.world.log ++ [⟨pos, zone, logical⟩] := by
  have called := calls_copyZone p fs stop pos zone logical v
  unfold visitZone
  rw [if_neg (not_le.mpr room)]
  cases result : copyZone p fs stop pos zone logical v with
  | mk v' out =>
      rw [result] at called
      cases out with
      | error e => exact called
      | ok more => cases more <;> exact called

/-! ## Calls and arrivals -/

def Arrival.call (x : Arrival) : Call := ⟨x.pos, x.zone, x.block * blockSize⟩

/-- The calls behind those in `before` are an initial part of `all`, and `all` of them if
nothing fails. -/
def Traced (p : Platform σ) (before all : List Call) (w : World σ) : Prop :=
  ∃ done rest, all = done ++ rest ∧ calls w.log = before ++ done ∧ (p.Willing → rest = [])

theorem Traced.none {before all : List Call} {w : World σ} (same : calls w.log = before)
    (unwilling : ¬ p.Willing) : Traced p before all w :=
  ⟨[], all, rfl, by rw [same, List.append_nil], fun willing => absurd willing unwilling⟩

theorem run_traced {items : List Item} {a b : Nat} {v : Vars σ} (ordered : Ordered items a b)
    (small : b * blockSize < 2 ^ 63) (room : v.curOffset < stop) :
    Traced p (calls v.world.log) ((arrivals stop v.curOffset items).map Arrival.call)
      (settle (runAll (act p fs stop) items v)).1 := by
  induction items generalizing a v with
  | nil => exact ⟨[], [], rfl, (List.append_nil _).symm, fun _ => rfl⟩
  | cons item rest ih =>
      obtain ⟨c, step, tail⟩ := ordered
      cases item with
      | load zone =>
          have same := calls_readIndirectZone p fs zone v
          obtain ⟨w, quiet, loaded | ⟨refuses, _, refused⟩⟩ := readIndirectZone_cases p fs zone v
          · rw [loaded] at same
            simp only [runAll, act, loaded]
            have run := ih (v := { v with world := w }) tail room
            rw [same] at run
            exact run
          · rw [refused] at same
            simp only [runAll, act, refused]
            exact Traced.none same fun willing => willing.reads _ _ refuses
      | slot pos zone block =>
          obtain ⟨_, rfl⟩ := step
          have called := calls_visitZone p fs pos zone (block * blockSize) room
          obtain ⟨_, visit⟩ := slot_visit p fs pos zone tail small room
          simp only [runAll, act, arrivals, List.map_cons]
          generalize visitZone p fs stop pos zone (block * blockSize) v = outcome at visit called
          obtain ⟨v', out⟩ := outcome
          cases out with
          | none =>
              obtain ⟨cursor, more⟩ := visit.onward room
              have run := ih (v := v') tail more
              rw [called, cursor] at run
              rw [cursor] at more
              rw [if_pos more]
              obtain ⟨done, rest, split, log, willing⟩ := run
              refine ⟨_ :: done, rest, by rw [split]; rfl, ?_, willing⟩
              rw [log, List.append_assoc]
              rfl
          | some e =>
              refine ⟨[_], _, rfl, called, ?_⟩
              intro willing
              rcases visit.ended with closed | ⟨refuses, _⟩ | ⟨checks, _⟩
              · rw [if_neg (not_lt.mpr closed)]
                rfl
              · exact absurd refuses (willing.reads _ _)
              · rw [willing.wraps] at checks
                cases checks

theorem withBuffer_traced {body : World σ → World σ × Exit Nat} {w : World σ} {all : List Call}
    (inner : ∀ w', calls w'.log = calls w.log → Traced p (calls w.log) all (body w').1) :
    Traced p (calls w.log) all (withBuffer p body w).1 := by
  have noted (w : World σ) (event : Event) (other : event.asCall = none) :
      calls (w.note event).log = calls w.log := by
    rw [calls_note, other, Option.toList_none, List.append_nil]
  have moved {w' w'' : World σ} (traced : Traced p (calls w.log) all w')
      (same : calls w''.log = calls w'.log) : Traced p (calls w.log) all w'' := by
    obtain ⟨done, rest, split, log, willing⟩ := traced
    exact ⟨done, rest, split, same.trans log, willing⟩
  unfold withBuffer
  cases allocated : p.bufferNew w.sys with
  | none => exact Traced.none (noted w _ rfl) fun willing => willing.news _ allocated
  | some buffer =>
      obtain ⟨ptr, sys⟩ := buffer
      have run := inner ({ w with sys := sys }.note (.bufferNew true)) (noted _ _ rfl)
      dsimp only
      generalize body ({ w with sys := sys }.note (.bufferNew true)) = result at run
      obtain ⟨w', e⟩ := result
      cases e with
      | overflow => exact run
      | dropPanic => exact run
      | returned value =>
          dsimp only
          cases p.bufferDrop ptr w'.sys with
          | none => exact moved run (noted w' _ rfl)
          | some sys' => exact moved run (noted _ _ rfl)
      | failed error =>
          dsimp only
          cases p.bufferDrop ptr w'.sys with
          | none => exact moved run (noted w' _ rfl)
          | some sys' => exact moved run (noted _ _ rfl)

theorem readFile_traced (p : Platform σ) (fs : Fs) (inode : Inode) (offset : BitVec 32)
    {outLen : Nat} {w : World σ} (fresh : calls w.log = [])
    (positive : 0 < want inode offset outLen) :
    Traced p [] ((arrivals (offset.toNat + want inode offset outLen) offset.toNat
      (stream (p.zoneBlock fs) inode)).map Arrival.call)
      (readFile p fs inode offset outLen w).1 := by
  refine readFile_meets (P := fun w => calls w.log = []) (Q := fun r => Traced p [] _ r.1)
    (fun body w same inner => ?_) positive fresh fun w' same => ?_
  · rw [← same]
    refine withBuffer_traced fun w' same' => ?_
    rw [same]
    exact inner w' (same'.trans same)
  · rw [← same]
    exact run_traced (v := ⟨w', offset.toNat, 0, p.stale⟩) (stream_ordered _ inode)
      (stream_small inode) (Nat.lt_add_of_pos_right positive)

/-! ## Positions in the stream -/

theorem mem_subtree {read : Nat → Block} {zone : Nat} {items : Nat → Nat → List Item}
    {pos : Pos} {z block : Nat} :
    Item.slot pos z block ∈ subtree read zone items ↔
      zone ≠ 0 ∧ ∃ i < 256, Item.slot pos z block ∈ items i (ptr (read zone) i) := by
  unfold subtree
  split_ifs with absent
  · refine iff_of_false ?_ fun present => present.1 absent
    exact List.not_mem_nil
  · have range (i : Nat) : i ∈ List.range' 0 indirectPtrsPerBlock ↔ i < 256 := by
      rw [List.mem_range'_1, Nat.zero_add]
      exact and_iff_right (Nat.zero_le i)
    rw [List.mem_cons, List.mem_flatMap]
    constructor
    · intro member
      rcases member with load | ⟨i, bound, inside⟩
      · cases load
      · exact ⟨absent, i, (range i).mp bound, inside⟩
    · intro found
      obtain ⟨_, i, bound, inside⟩ := found
      exact Or.inr ⟨i, (range i).mpr bound, inside⟩

variable {read : Nat → Block} {inode : Inode}

def frontItems (read : Nat → Block) (inode : Inode) : List Item :=
  directItems inode ++ singleItems read inode ++ doubleItems read inode

theorem frontItems_index {pos : Pos} {zone block : Nat}
    (member : Item.slot pos zone block ∈ frontItems read inode) : block = pos.index := by
  rcases List.mem_append.mp member with front | double
  · rcases List.mem_append.mp front with direct | single
    · obtain ⟨i, _, here⟩ := List.mem_flatMap.mp direct
      cases List.mem_singleton.mp here
      rfl
    · obtain ⟨_, i, _, here⟩ := mem_subtree.mp single
      cases List.mem_singleton.mp here
      rfl
  · obtain ⟨_, i, _, inner⟩ := mem_subtree.mp double
    obtain ⟨_, j, _, here⟩ := mem_subtree.mp inner
    cases List.mem_singleton.mp here
    simp only [Pos.index]
    omega

theorem tripleItems_index {pos : Pos} {zone block : Nat}
    (member : Item.slot pos zone block ∈ tripleItems read inode) :
    block + 65799 = pos.index + tripleBase inode := by
  obtain ⟨_, i, _, middle⟩ := mem_subtree.mp member
  obtain ⟨_, j, _, inner⟩ := mem_subtree.mp middle
  obtain ⟨_, k, _, here⟩ := mem_subtree.mp inner
  cases List.mem_singleton.mp here
  simp only [Pos.index]
  omega

def NoTripleData (read : Nat → Block) (inode : Inode) : Prop :=
  inode.zone 9 = 0 ∨ ∀ i < 256, ptr (read (inode.zone 9)) i = 0 ∨
    ∀ j < 256, ptr (read (ptr (read (inode.zone 9)) i)) j = 0

theorem noTripleData_iff :
    NoTripleData read inode ↔
      ∀ pos zone block, Item.slot pos zone block ∉ tripleItems read inode := by
  constructor
  · intro empty pos zone block member
    obtain ⟨present, i, outer, middle⟩ := mem_subtree.mp member
    obtain ⟨entry, j, bound, inner⟩ := mem_subtree.mp middle
    obtain ⟨leaf, _⟩ := mem_subtree.mp inner
    rcases empty with absent | entries
    · exact present absent
    · rcases entries i outer with absent | leaves
      · exact entry absent
      · exact leaf (leaves j bound)
  · intro empty
    by_contra data
    simp only [NoTripleData, not_or, not_forall] at data
    obtain ⟨present, i, outer, entry, j, bound, leaf⟩ := data
    refine empty (.triple i j 0) _ _ (mem_subtree.mpr ⟨present, i, outer, mem_subtree.mpr
      ⟨entry, j, bound, mem_subtree.mpr ⟨leaf, 0, by decide, List.mem_singleton.mpr rfl⟩⟩⟩)

theorem lastEnd_slots (e : Nat) (pos : Nat → Pos) (zone : Nat → Nat) (base start count : Nat) :
    lastEnd e ((List.range' start (count + 1)).flatMap fun i =>
      [.slot (pos i) (zone i) (base + i)]) = (base + start + count + 1) * blockSize := by
  induction count generalizing e start with
  | zero => rfl
  | succ count ih =>
      rw [List.range'_succ, List.flatMap_cons, lastEnd_append, ih]
      congr 1
      omega

/-- Where the file blocks before the triple indirect pointers end for the walk, if the
double indirect block is missing. -/
def frontEnd (inode : Inode) : Nat := if inode.zone 7 = 0 then 7 * blockSize else 263 * blockSize

theorem lastEnd_frontItems (read : Nat → Block) (missing : inode.zone 8 = 0) :
    lastEnd 0 (frontItems read inode) = frontEnd inode := by
  have double : doubleItems read inode = [] := if_pos missing
  have direct : lastEnd 0 (directItems inode) = 7 * blockSize := rfl
  have single : lastEnd (7 * blockSize) (singleItems read inode) = frontEnd inode := by
    rw [singleItems, subtree, frontEnd, numDirectZones]
    by_cases absent : inode.zone 7 = 0
    · rw [if_pos absent, if_pos absent]
      rfl
    · rw [if_neg absent, if_neg absent, lastEnd]
      exact lastEnd_slots _ .single _ 7 0 255
  rw [frontItems, double, List.append_nil, lastEnd_append, direct, single]

theorem frontItems_ordered : Ordered (frontItems read inode) 0 (tripleBase inode) :=
  (directItems_ordered.append singleItems_ordered).append doubleItems_ordered

theorem slot_of_mem_arrivals {items : List Item} {cur : Nat} {x : Arrival}
    (member : x ∈ arrivals stop cur items) : Item.slot x.pos x.zone x.block ∈ items := by
  induction items generalizing cur with
  | nil => cases member
  | cons item rest ih =>
      cases item with
      | load zone => exact List.mem_cons_of_mem _ (ih member)
      | slot pos zone block =>
          cases member with
          | head => exact List.mem_cons_self
          | tail _ later =>
              split_ifs at later with more
              · exact List.mem_cons_of_mem _ (ih later)
              · cases later

theorem exists_arrival {items : List Item} {pos : Pos} {zone block : Nat}
    (member : Item.slot pos zone block ∈ items) (stop cur : Nat) :
    ∃ x, x ∈ arrivals stop cur items := by
  induction items with
  | nil => cases member
  | cons item rest ih =>
      cases item with
      | load zone' =>
          cases member with
          | tail _ later => exact ih later
      | slot pos' zone' block' => exact ⟨_, List.mem_cons_self⟩

/-- The arrivals are at the positions of the block map unless the walk gets behind a missing
double indirect block to a data pointer. -/
theorem arrivals_index_iff {offset : Nat} (room : offset < stop) :
    (∀ x ∈ arrivals stop offset (stream read inode), x.block = x.pos.index) ↔
      inode.zone 8 ≠ 0 ∨ stop ≤ frontEnd inode ∨ NoTripleData read inode := by
  have split : arrivals stop offset (stream read inode) =
      arrivals stop offset (frontItems read inode) ++
        if lastEnd 0 (frontItems read inode) < stop then
          arrivals stop (track offset (frontItems read inode)) (tripleItems read inode)
        else [] :=
    arrivals_append frontItems_ordered (Nat.zero_le _) (by omega) room
  rw [split]
  constructor
  · intro right
    by_contra wrong
    simp only [not_or, not_not, not_le] at wrong
    obtain ⟨missing, reached, data⟩ := wrong
    rw [← lastEnd_frontItems read missing] at reached
    rw [noTripleData_iff] at data
    push Not at data
    obtain ⟨pos, zone, block, member⟩ := data
    obtain ⟨x, arrives⟩ := exists_arrival member stop (track offset (frontItems read inode))
    have same := right x (by rw [if_pos reached]; exact List.mem_append_right _ arrives)
    have shifted := tripleItems_index (slot_of_mem_arrivals arrives)
    have base : tripleBase inode = 263 := if_pos missing
    omega
  · intro fits x member
    rcases List.mem_append.mp member with front | triple
    · exact frontItems_index (slot_of_mem_arrivals front)
    · split_ifs at triple with reached
      · have data := slot_of_mem_arrivals triple
        by_cases missing : inode.zone 8 = 0
        · rw [lastEnd_frontItems read missing] at reached
          rcases fits with present | closed | empty
          · exact absurd missing present
          · exact absurd reached (not_lt.mpr closed)
          · exact absurd data (noTripleData_iff.mp empty _ _ _)
        · have base : tripleBase inode = 65799 := if_neg missing
          have shifted := tripleItems_index data
          omega
      · cases triple

/-- Every call of `copy_zone` gets the file position of its pointer, on every platform over
the disk, exactly if the double indirect block is there, or the window ends before the
blocks behind it, or the triple indirect block leads to no data pointer. -/
theorem copyZone_logical_iff (disk : Nat → Nat → BitVec 8) (fs : Fs) (inode : Inode)
    (offset : BitVec 32) (outLen : Nat) :
    (∀ (σ : Type) (p : Platform σ) (w : World σ), p.disk = disk → w.log = [] →
      ∀ pos zone logical,
        Event.call pos zone logical ∈ (readFile p fs inode offset outLen w).1.log →
          logical = blockSize * pos.index) ↔
      want inode offset outLen = 0 ∨ inode.zone 8 ≠ 0 ∨
        offset.toNat + want inode offset outLen ≤ frontEnd inode ∨
        NoTripleData (diskZone disk fs.dev) inode := by
  by_cases empty : want inode offset outLen = 0
  · refine iff_of_true ?_ (Or.inl empty)
    intro σ p w _ fresh pos zone logical member
    rw [readFile_empty empty, fresh] at member
    cases member
  · have positive := Nat.pos_of_ne_zero empty
    rw [or_iff_right empty, ← arrivals_index_iff (Nat.lt_add_of_pos_right positive)]
    constructor
    · intro right x member
      obtain ⟨done, rest, split, log, all⟩ := readFile_traced (willingPlatform disk) fs inode
        offset (w := ⟨(), fun _ => 0, []⟩) rfl positive
      rw [all (willingPlatform_willing disk), List.append_nil] at split
      have listed : x.call ∈ done := split ▸ List.mem_map_of_mem member
      have called := right Unit (willingPlatform disk) ⟨(), fun _ => 0, []⟩ rfl rfl x.pos x.zone
        (x.block * blockSize) (mem_calls.mp (by rw [log]; exact listed))
      unfold blockSize at called
      omega
    · intro right σ p w same fresh pos zone logical member
      subst same
      obtain ⟨done, rest, split, log, _⟩ := readFile_traced p fs inode offset (w := w)
        (by rw [fresh]; rfl) positive
      have listed : ⟨pos, zone, logical⟩ ∈ done := by
        rw [List.nil_append] at log
        exact log ▸ mem_calls.mpr member
      have arrived := split ▸ List.mem_append_left rest listed
      obtain ⟨x, arrives, same⟩ := List.mem_map.mp arrived
      cases same
      rw [← right x arrives, Nat.mul_comm]

def sparseInode : Inode where
  size := 8192
  zones := fun i => if i.val = 9 then 6 else 0

/-- The first pointer below the triple indirect block is block 65799 of the file, but is
handed to `copy_zone` as block 263. -/
theorem copyZone_called_short :
    Event.call (.triple 0 0 0) 0x01010101 (blockSize * 263) ∈
        (readFile (willingPlatform fun _ _ => 1) ⟨0, ⟨1, 1, 1, magic⟩⟩ sparseInode 0#32 8192
          ⟨(), fun _ => 0, []⟩).1.log ∧
      (Pos.triple 0 0 0).index = 65799 := by
  decide +kernel

end Vesper.Minix3
