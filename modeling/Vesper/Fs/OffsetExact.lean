import Mathlib.Tactic
import Vesper.Fs.BlockIndex

/-!
# The offset arithmetic of `copy_zone`

At its copy `copy_zone` subtracts the block's position from the cursor.  The position runs
ahead of the cursor where the walk skips the span of an absent indirect block, and a zero
pointer before it has taken the cursor back from the offset.  The subtractions are exact
on every platform exactly if no data block inside the window stands behind such a gap.
-/

set_option autoImplicit false

namespace Vesper.Minix3

open Vesper.Lib Vesper.Lib.EarlyExit

variable {σ : Type} {p : Platform σ} {fs : Fs} {offset stop : Nat}

structure Copy.Exact (stop : Nat) (c : Copy) : Prop where
  low : c.logical ≤ c.cur
  high : c.cur < c.logical + blockSize
  room : c.cur < stop
  src : c.src = c.cur - c.logical
  len : c.len = min (blockSize - c.src) (stop - c.cur)
  inside : c.src + c.len ≤ blockSize

/-- Every copy was exact, and no checked subtraction failed. -/
def OffsetsExact (stop : Nat) (r : World σ × Exit Nat) : Prop :=
  (∀ c, Event.copy c ∈ r.1.log → c.Exact stop) ∧ r.2 ≠ .overflow

theorem visitZone_zero (pos : Pos) (logical : Nat) (v : Vars σ) :
    (visitZone p fs stop pos 0 logical v).2 ≠ some .overflow := by
  unfold visitZone
  split_ifs
  · intro same
    cases same
  · simp only [copyZone, if_true]
    cases decide (logical + blockSize < stop) with
    | false => exact fun same => by cases same
    | true => exact fun same => by cases same

theorem Visit.exact {zone logical : Nat} {v : Vars σ} {outcome : Vars σ × Option (Exit Nat)}
    (visit : Visit p fs stop zone logical v outcome) (room : v.curOffset < stop)
    (low : zone ≠ 0 → logical ≤ v.curOffset) (zero : zone = 0 → outcome.2 ≠ some .overflow) :
    (∀ c, Event.copy c ∈ outcome.1.world.log → Event.copy c ∈ v.world.log ∨ c.Exact stop) ∧
      outcome.2 ≠ some .overflow := by
  cases visit with
  | hole w quiet absent => exact ⟨fun c member => Or.inl (quiet.copies c member), zero absent⟩
  | skip w quiet present early =>
      exact ⟨fun c member => Or.inl (quiet.copies c member), fun same => by cases same⟩
  | refused w quiet refuses unserved =>
      exact ⟨fun c member => Or.inl (quiet.copies c member), fun same => by cases same⟩
  | underflow u quiet checks behind =>
      by_cases absent : zone = 0
      · exact absurd rfl (zero absent)
      · exact absurd (low absent) (not_le.mpr behind)
  | copy w c quiet present reached start src dst len =>
      obtain ⟨logical_eq, cur_eq⟩ := start
      have reach := low present
      rw [usizeSub_exact reach, Option.some.injEq] at src
      constructor
      · intro c' member
        rcases List.mem_append.mp member with old | new
        · exact Or.inl (quiet.copies c' old)
        · cases List.mem_singleton.mp new
          right
          constructor <;> omega
      · unfold exitAt
        split_ifs
        · exact fun same => by cases same
        · exact fun same => by cases same

/-- The cursor has reached every block the pass arrives at. -/
def Reaches (arrived : List Arrival) : Prop :=
  ∀ x ∈ arrived, x.zone ≠ 0 → x.block * blockSize ≤ x.cur

theorem run_offsetsExact {items : List Item} {a b : Nat} {v : Vars σ} (ordered : Ordered items a b)
    (small : b * blockSize < 2 ^ 63) (room : v.curOffset < stop)
    (before : ∀ c, Event.copy c ∈ v.world.log → c.Exact stop)
    (reaches : Reaches (arrivals stop v.curOffset items)) :
    OffsetsExact stop (settle (runAll (act p fs stop) items v)) := by
  induction items generalizing a v with
  | nil => exact ⟨before, fun same => by cases same⟩
  | cons item rest ih =>
      obtain ⟨c, step, tail⟩ := ordered
      cases item with
      | load zone =>
          obtain ⟨w, quiet, loaded | ⟨_, _, refused⟩⟩ := readIndirectZone_cases p fs zone v
          · simp only [runAll, act, loaded]
            exact ih tail room (fun c member => before c (quiet.copies c member)) reaches
          · simp only [runAll, act, refused]
            exact ⟨fun c member => before c (quiet.copies c member), fun same => by cases same⟩
      | slot pos zone block =>
          obtain ⟨_, rfl⟩ := step
          obtain ⟨_, visit⟩ := slot_visit p fs pos zone tail small room
          have zero : zone = 0 →
              (visitZone p fs stop pos zone (block * blockSize) v).2 ≠ some .overflow := by
            rintro rfl
            exact visitZone_zero pos _ v
          simp only [runAll, act]
          generalize visitZone p fs stop pos zone (block * blockSize) v = outcome at visit zero
          obtain ⟨copies, no_overflow⟩ := visit.exact room (reaches _ List.mem_cons_self) zero
          obtain ⟨v', out⟩ := outcome
          have after : ∀ c, Event.copy c ∈ v'.world.log → c.Exact stop :=
            fun c member => (copies c member).elim (before c) id
          cases out with
          | none =>
              obtain ⟨cursor, more⟩ := visit.onward room
              refine ih tail more after fun x member => reaches x (List.mem_cons_of_mem _ ?_)
              rw [cursor] at more member
              rw [if_pos more]
              exact member
          | some e => exact ⟨after, fun same => no_overflow (congrArg some same)⟩

theorem Visit.overflows {zone logical : Nat} {v : Vars σ} {outcome : Vars σ × Option (Exit Nat)}
    (visit : Visit p fs stop zone logical v outcome) (serves : p.Serves)
    (checks : p.overflowChecks = true) (present : zone ≠ 0) (behind : v.curOffset < logical) :
    outcome.2 = some .overflow := by
  cases visit with
  | hole w quiet absent => exact absurd absent present
  | skip w quiet _ early => omega
  | refused w quiet refuses unserved => exact absurd refuses (serves.reads _ _)
  | underflow u quiet _ _ => rfl
  | copy w c quiet _ reached start src dst len =>
      rw [usizeSub_panics behind checks] at src
      cases src

theorem run_overflows (serves : p.Serves) (checks : p.overflowChecks = true) (fs : Fs)
    {items : List Item} {a b : Nat} {v : Vars σ} (ordered : Ordered items a b)
    (small : b * blockSize < 2 ^ 63) (room : v.curOffset < stop)
    (ahead : ¬ Reaches (arrivals stop v.curOffset items)) :
    (settle (runAll (act p fs stop) items v)).2 = .overflow := by
  induction items generalizing a v with
  | nil => exact absurd (fun x member => by cases member) ahead
  | cons item rest ih =>
      obtain ⟨c, step, tail⟩ := ordered
      cases item with
      | load zone =>
          obtain ⟨w, quiet, loaded | ⟨refuses, _⟩⟩ := readIndirectZone_cases p fs zone v
          · simp only [runAll, act, loaded]
            exact ih tail room ahead
          · exact absurd refuses (serves.reads _ _)
      | slot pos zone block =>
          obtain ⟨_, rfl⟩ := step
          obtain ⟨_, visit⟩ := slot_visit p fs pos zone tail small room
          simp only [runAll, act]
          generalize visitZone p fs stop pos zone (block * blockSize) v = outcome at visit
          obtain ⟨v', out⟩ := outcome
          by_cases here : zone ≠ 0 → block * blockSize ≤ v.curOffset
          · -- The first block is reached, so a later one is not, and the pass goes on to it.
            have later : ¬ Reaches (if cursorAfter v.curOffset zone block < stop then
                arrivals stop (cursorAfter v.curOffset zone block) rest else []) :=
              fun reaches => ahead (List.forall_mem_cons.mpr ⟨here, reaches⟩)
            cases out with
            | none =>
                obtain ⟨cursor, more⟩ := visit.onward room
                refine ih tail more ?_
                rw [cursor] at more ⊢
                rwa [if_pos more] at later
            | some e =>
                rcases visit.ended with closed | ⟨refuses, _⟩ | ⟨_, rfl⟩
                · rw [if_neg (not_lt.mpr closed)] at later
                  exact absurd (fun x member => by cases member) later
                · exact absurd refuses (serves.reads _ _)
                · rfl
          · push Not at here
            have panics := visit.overflows serves checks here.1 here.2
            cases panics
            rfl

/-- Each data pointer inside the window continues the block before it or the offset; the
offset only counts as long as no zero pointer has been passed. -/
def NoGap (offset stop : Nat) (items : List Item) : Prop :=
  ∀ before pos zone block behind, items = before ++ .slot pos zone block :: behind → zone ≠ 0 →
    lastEnd 0 before < stop →
    block * blockSize ≤ lastEnd 0 before ∨ block * blockSize ≤ offset ∧ ¬ HasHole before

theorem reaches_iff {items : List Item} {b : Nat} (ordered : Ordered items 0 b)
    (room : offset < stop) : Reaches (arrivals stop offset items) ↔ NoGap offset stop items := by
  have cursor {before behind : List Item} {item : Item}
      (split : items = before ++ item :: behind) (at_ : Nat) :
      at_ ≤ track offset before ↔
        at_ ≤ lastEnd 0 before ∨ at_ ≤ offset ∧ ¬ HasHole before := by
    rw [split] at ordered
    obtain ⟨c, front⟩ := Ordered.left ordered
    by_cases hole : HasHole before
    · rw [track_of_hole (e := 0) front hole]
      exact ⟨Or.inl, fun either => either.elim id fun clear => absurd hole clear.2⟩
    · rw [track_of_no_hole (e := 0) front (Nat.zero_le _) (Nat.zero_le _) hole, le_max_iff, or_comm,
        and_iff_left hole]
  have arrives {x : Arrival} := mem_arrivals_iff (x := x) (e := 0) ordered (Nat.zero_le _)
    (Nat.zero_lt_of_lt room) room
  constructor
  · intro reaches before pos zone block behind split present inside
    rw [← cursor split]
    exact reaches ⟨pos, zone, block, _⟩ (arrives.mpr ⟨before, behind, split, rfl, inside⟩) present
  · intro gapless x member present
    obtain ⟨before, behind, split, at_, inside⟩ := arrives.mp member
    rw [at_, cursor split]
    exact gapless before _ _ _ behind split present inside

theorem withBuffer_offsetsExact {body : World σ → World σ × Exit Nat} {w : World σ}
    (before : ∀ c, Event.copy c ∈ w.log → c.Exact stop)
    (inner : ∀ w', (∀ c, Event.copy c ∈ w'.log → c.Exact stop) → OffsetsExact stop (body w')) :
    OffsetsExact stop (withBuffer p body w) :=
  withBuffer_copies (E := fun e => e ≠ .overflow) (fun same => by cases same)
    (fun same => by cases same) before inner

def checkedPlatform (disk : Nat → Nat → BitVec 8) : Platform Unit :=
  { willingPlatform disk with overflowChecks := true }

theorem checkedPlatform_serves (disk : Nat → Nat → BitVec 8) : (checkedPlatform disk).Serves where
  reads := (willingPlatform_willing disk).reads
  news := (willingPlatform_willing disk).news
  drops := (willingPlatform_willing disk).drops

/-- The subtractions of `copy_zone` are exact and its source range lies inside the block
buffer, on every platform over the disk, exactly if no data pointer inside the window
stands behind a gap. -/
theorem readFile_offsets_exact_iff (disk : Nat → Nat → BitVec 8) (fs : Fs) (inode : Inode)
    (offset : BitVec 32) (outLen : Nat) :
    let stop := offset.toNat + want inode offset outLen
    (∀ (σ : Type) (p : Platform σ) (w : World σ), p.disk = disk → w.log = [] →
      OffsetsExact stop (readFile p fs inode offset outLen w)) ↔
      want inode offset outLen = 0 ∨
        NoGap offset.toNat stop (stream (diskZone disk fs.dev) inode) := by
  intro stop
  by_cases empty : want inode offset outLen = 0
  · refine iff_of_true ?_ (Or.inl empty)
    intro σ p w _ fresh
    rw [readFile_empty empty]
    refine ⟨fun c member => ?_, fun same => by cases same⟩
    rw [fresh] at member
    cases member
  · have room : offset.toNat < stop := Nat.lt_add_of_pos_right (Nat.pos_of_ne_zero empty)
    rw [or_iff_right empty, ← reaches_iff (stream_ordered _ inode) room]
    constructor
    · intro exact_
      by_contra ahead
      refine (exact_ Unit (checkedPlatform disk) ⟨(), fun _ => 0, []⟩ rfl rfl).2 ?_
      refine readFile_meets (P := fun _ => True) (Q := fun r => r.2 = _) (fun _ _ _ inner => ?_)
        (Nat.pos_of_ne_zero empty) trivial fun w' _ => ?_
      · exact withBuffer_total (checkedPlatform_serves disk) fun w' => inner w' trivial
      · exact run_overflows (checkedPlatform_serves disk) rfl fs (stream_ordered _ inode)
          (stream_small inode) room ahead
    · intro reaches σ p w same fresh
      subst same
      refine readFile_meets (P := fun w => ∀ c, Event.copy c ∈ w.log → c.Exact stop)
        (fun _ _ => withBuffer_offsetsExact) (Nat.pos_of_ne_zero empty) ?_ fun w' before => ?_
      · intro c member
        rw [fresh] at member
        cases member
      · exact run_offsetsExact (stream_ordered _ inode) (stream_small inode) room before reaches

def gapInode : Inode where
  size := 8192
  zones := fun i => if i.val < 7 ∨ i.val = 8 then 5 else 0

/-- Reading at offset 7168: the walk skips 256 KiB for the missing single indirect block, and
the cursor has not reached the next data block.  A checked build panics, an unchecked one
copies from far outside the block buffer. -/
theorem readFile_offset_underflows :
    (readFile (checkedPlatform fun _ _ => 1) ⟨0, ⟨1, 1, 1, magic⟩⟩ gapInode 7168#32 1024
        ⟨(), fun _ => 0, []⟩).2 = .overflow ∧
      Event.copy ⟨269312, 7168, 2 ^ 64 - 262144, 0, 1024⟩ ∈
        (readFile (willingPlatform fun _ _ => 1) ⟨0, ⟨1, 1, 1, magic⟩⟩ gapInode 7168#32 1024
          ⟨(), fun _ => 0, []⟩).1.log := by
  decide +kernel

end Vesper.Minix3
