import Mathlib.Tactic
import Vesper.Fs.HoleSpan
import Vesper.Fs.Visit

/-!
# Where the cursor stands when the walk arrives at a pointer

`arrivals` lists the data pointers a pass visits if nothing fails, each with the cursor at
that moment: a zero pointer sets the cursor to the end of its block, a block moves it there
if it lies before, and the pass ends once the cursor has reached the end of the window.  A
pointer is visited exactly if the pointer before it ends inside the window; the cursor is
then at the end of that pointer's block or at the offset, whichever is later, and never at
the offset once a zero pointer has been passed.
-/

set_option autoImplicit false

namespace Vesper.Minix3

open Vesper.Lib

structure Arrival where
  pos : Pos
  zone : Nat
  block : Nat
  cur : Nat
  deriving DecidableEq, Repr

def cursorAfter (cur zone block : Nat) : Nat :=
  if zone = 0 then (block + 1) * blockSize else max cur ((block + 1) * blockSize)

def arrivals (stop : Nat) : Nat → List Item → List Arrival
  | _, [] => []
  | cur, .load _ :: rest => arrivals stop cur rest
  | cur, .slot pos zone block :: rest =>
      ⟨pos, zone, block, cur⟩ ::
        if cursorAfter cur zone block < stop then arrivals stop (cursorAfter cur zone block) rest
        else []

def track : Nat → List Item → Nat
  | cur, [] => cur
  | cur, .load _ :: rest => track cur rest
  | cur, .slot _ zone block :: rest => track (cursorAfter cur zone block) rest

/-- The end of the last block the items name, or `e` if they name none. -/
def lastEnd : Nat → List Item → Nat
  | e, [] => e
  | e, .load _ :: rest => lastEnd e rest
  | _, .slot _ _ block :: rest => lastEnd ((block + 1) * blockSize) rest

variable {σ : Type} {p : Platform σ} {fs : Fs} {stop : Nat}

theorem lastEnd_append (e : Nat) (left right : List Item) :
    lastEnd e (left ++ right) = lastEnd (lastEnd e left) right := by
  induction left generalizing e with
  | nil => rfl
  | cons item rest ih =>
      cases item with
      | load zone => exact ih e
      | slot pos zone block => exact ih _

theorem cursorAfter_lt_iff {cur : Nat} (room : cur < stop) (zone block : Nat) :
    cursorAfter cur zone block < stop ↔ (block + 1) * blockSize < stop := by
  unfold cursorAfter
  split_ifs
  · exact Iff.rfl
  · exact max_lt_iff.trans (and_iff_right room)

theorem Visit.onward {zone block : Nat} {v v' : Vars σ} (room : v.curOffset < stop)
    (visit : Visit p fs stop zone (block * blockSize) v (v', none)) :
    v'.curOffset = cursorAfter v.curOffset zone block ∧ v'.curOffset < stop := by
  have logical : (block + 1) * blockSize = block * blockSize + blockSize := Nat.succ_mul _ _
  generalize ended : (none : Option (Exit Nat)) = out at visit
  unfold cursorAfter
  rw [logical]
  cases visit with
  | hole w quiet absent =>
      unfold exitAt at ended
      split_ifs at ended with more
      exact ⟨(if_pos absent).symm, more⟩
  | skip w quiet present early =>
      rw [if_neg present, max_eq_left early]
      exact ⟨rfl, room⟩
  | refused w quiet refuses unserved => cases ended
  | underflow u quiet checks behind => cases ended
  | copy w c quiet present reached start src dst len =>
      unfold exitAt at ended
      split_ifs at ended with more
      rw [if_neg present, max_eq_right reached.le]
      simp only [Vars.copy] at more ⊢
      exact ⟨by omega, more⟩

theorem Visit.ended {zone block : Nat} {v v' : Vars σ} {e : Exit Nat}
    (visit : Visit p fs stop zone (block * blockSize) v (v', some e)) :
    stop ≤ cursorAfter v.curOffset zone block ∨
      p.Refuses fs.dev (zone * blockSize) ∧ e = .failed .blockReadFailed ∨
      p.overflowChecks = true ∧ e = .overflow := by
  have logical : (block + 1) * blockSize = block * blockSize + blockSize := Nat.succ_mul _ _
  generalize ended : some e = out at visit
  unfold cursorAfter
  rw [logical]
  cases visit with
  | hole w quiet absent =>
      unfold exitAt at ended
      split_ifs at ended with more
      rw [if_pos absent]
      exact Or.inl (not_lt.mp more)
  | skip w quiet present early => cases ended
  | refused w quiet refuses unserved =>
      cases ended
      exact Or.inr (Or.inl ⟨refuses, rfl⟩)
  | underflow u quiet checks behind =>
      cases ended
      exact Or.inr (Or.inr ⟨checks, rfl⟩)
  | copy w c quiet present reached start src dst len =>
      unfold exitAt at ended
      split_ifs at ended with more
      rw [if_neg present, max_eq_right reached.le]
      simp only [Vars.copy] at more
      exact Or.inl (by omega)

theorem le_lastEnd {items : List Item} {a b e : Nat} (ordered : Ordered items a b)
    (low : e ≤ a * blockSize) : e ≤ lastEnd e items := by
  induction items generalizing a e with
  | nil => exact le_refl e
  | cons item rest ih =>
      obtain ⟨c, step, tail⟩ := ordered
      cases item with
      | load zone =>
          change c = a at step
          subst step
          exact ih tail low
      | slot pos zone block =>
          obtain ⟨from_, rfl⟩ := step
          have grows : e ≤ (block + 1) * blockSize :=
            low.trans (Nat.mul_le_mul_right _ (from_.trans (Nat.le_succ block)))
          exact grows.trans (ih tail (le_refl _))

theorem Ordered.left {left right : List Item} {a b : Nat} (ordered : Ordered (left ++ right) a b) :
    ∃ c, Ordered left a c := by
  induction left generalizing a with
  | nil => exact ⟨a, le_refl a⟩
  | cons item rest ih =>
      obtain ⟨c, step, tail⟩ := ordered
      obtain ⟨d, front⟩ := ih tail
      exact ⟨d, c, step, front⟩

/-- The pass gets behind `left` exactly if the last block there ends inside the window. -/
theorem arrivals_append {left right : List Item} {a b cur e : Nat} (ordered : Ordered left a b)
    (low : e ≤ a * blockSize) (inside : e < stop) (room : cur < stop) :
    arrivals stop cur (left ++ right) = arrivals stop cur left ++
      if lastEnd e left < stop then arrivals stop (track cur left) right else [] := by
  induction left generalizing a cur e with
  | nil =>
      rw [lastEnd, if_pos inside]
      rfl
  | cons item rest ih =>
      obtain ⟨c, step, tail⟩ := ordered
      cases item with
      | load zone =>
          change c = a at step
          subst step
          exact ih tail low inside room
      | slot pos zone block =>
          obtain ⟨_, rfl⟩ := step
          have opens := cursorAfter_lt_iff room zone block
          rw [List.cons_append, arrivals, arrivals, track, lastEnd]
          by_cases more : cursorAfter cur zone block < stop
          · rw [if_pos more, if_pos more, ih tail (le_refl _) (opens.mp more) more]
            rfl
          · have closed : ¬ lastEnd ((block + 1) * blockSize) rest < stop := by
              intro reached
              exact more (opens.mpr (lt_of_le_of_lt (le_lastEnd tail (le_refl _)) reached))
            rw [if_neg more, if_neg more, if_neg closed]
            rfl

theorem mem_arrivals_iff {items : List Item} {a b cur e : Nat} (ordered : Ordered items a b)
    (low : e ≤ a * blockSize) (inside : e < stop) (room : cur < stop) {x : Arrival} :
    x ∈ arrivals stop cur items ↔ ∃ before behind,
      items = before ++ .slot x.pos x.zone x.block :: behind ∧ x.cur = track cur before ∧
        lastEnd e before < stop := by
  constructor
  · intro member
    induction items generalizing a cur e with
    | nil => cases member
    | cons item rest ih =>
        obtain ⟨c, step, tail⟩ := ordered
        cases item with
        | load zone =>
            change c = a at step
            subst step
            obtain ⟨before, behind, rfl, at_, reached⟩ := ih tail low inside room member
            exact ⟨.load zone :: before, behind, rfl, at_, reached⟩
        | slot pos zone block =>
            obtain ⟨_, rfl⟩ := step
            cases member with
            | head => exact ⟨[], rest, rfl, rfl, inside⟩
            | tail _ later =>
                split_ifs at later with more
                · have opens := (cursorAfter_lt_iff room zone block).mp more
                  obtain ⟨before, behind, rfl, at_, reached⟩ := ih tail (le_refl _) opens more later
                  exact ⟨.slot pos zone block :: before, behind, rfl, at_, reached⟩
                · cases later
  · intro split
    obtain ⟨before, behind, rfl, at_, reached⟩ := split
    obtain ⟨c, front⟩ := Ordered.left ordered
    rw [arrivals_append front low inside room, if_pos reached]
    refine List.mem_append_right _ ?_
    rw [arrivals, ← at_]
    exact List.mem_cons_self

def HasHole (items : List Item) : Prop := ∃ pos block, Item.slot pos 0 block ∈ items

theorem HasHole.cons {item : Item} {items : List Item} (hole : HasHole items) :
    HasHole (item :: items) := by
  obtain ⟨pos, block, member⟩ := hole
  exact ⟨pos, block, List.mem_cons_of_mem _ member⟩

/-- Without a zero pointer the cursor only moves forward. -/
theorem track_of_no_hole {items : List Item} {a b cur e : Nat} (ordered : Ordered items a b)
    (low : e ≤ a * blockSize) (reached : e ≤ cur) (full : ¬ HasHole items) :
    track cur items = max cur (lastEnd e items) := by
  induction items generalizing a cur e with
  | nil => exact (max_eq_left reached).symm
  | cons item rest ih =>
      obtain ⟨c, step, tail⟩ := ordered
      have rest_full : ¬ HasHole rest := fun hole => full hole.cons
      cases item with
      | load zone =>
          change c = a at step
          subst step
          exact ih tail low reached rest_full
      | slot pos zone block =>
          obtain ⟨_, rfl⟩ := step
          have present : zone ≠ 0 := by
            rintro rfl
            exact full ⟨pos, block, List.mem_cons_self⟩
          have grows := le_lastEnd tail (le_refl _)
          have next : cursorAfter cur zone block = max cur ((block + 1) * blockSize) :=
            if_neg present
          rw [track, lastEnd, next, ih tail (le_refl _) (le_max_right _ _) rest_full, max_assoc,
            max_eq_right grows]

/-- Behind a zero pointer the cursor is at the end of the last block. -/
theorem track_of_hole {items : List Item} {a b cur e : Nat} (ordered : Ordered items a b)
    (hole : HasHole items) : track cur items = lastEnd e items := by
  induction items generalizing a cur e with
  | nil =>
      obtain ⟨pos, block, member⟩ := hole
      cases member
  | cons item rest ih =>
      obtain ⟨c, step, tail⟩ := ordered
      by_cases later : HasHole rest
      · cases item with
        | load zone => exact ih tail later
        | slot pos zone block => exact ih tail later
      · obtain ⟨pos, block, member⟩ := hole
        cases member with
        | head =>
            obtain ⟨_, rfl⟩ := step
            have grows := le_lastEnd tail (le_refl _)
            have next : cursorAfter cur 0 block = (block + 1) * blockSize := if_pos rfl
            rw [track, lastEnd, next, track_of_no_hole tail (le_refl _) (le_refl _) later,
              max_eq_right grows]
        | tail _ inside => exact absurd ⟨pos, block, inside⟩ later

end Vesper.Minix3
