import Mathlib.Tactic
import Vesper.Lib.FirstFit

/-!
# The page-frame allocator

Functional model of `mm/alloc/page_frame.rs`.  A one-byte descriptor per page of
the whole heap sits at the start of the heap; data pages start behind it.  The
linker symbols are a parameter.  `assert!`, slice indexing and `expect` become
`Except Panic`.  Addresses are natural numbers: `runAddr_lt_two_pow` shows that no
address computed for a heap that ends below `2 ^ 63` reaches `2 ^ 64`.
-/

set_option autoImplicit false

namespace Vesper.Mm.PageFrame

def pageOrder : Nat := 12

def pageSize : Nat := 1 <<< pageOrder

theorem pageSize_eq : pageSize = 4096 := rfl

theorem pageSize_pos : 0 < pageSize := Nat.succ_pos 4095

/-- The places where the allocator aborts the kernel. -/
inductive Panic where
  /-- `assert!(pages > 0)` -/
  | zeroPages
  /-- `assert!(addr >= start && addr < heap_end)` -/
  | outOfRange
  /-- a `table[i]` past the descriptor table -/
  | indexOutOfBounds
  /-- "deallocate: not the start of a run (possible double free)" -/
  | notRunStart
  deriving DecidableEq, Repr

structure PageDesc where
  bits : BitVec 8
  deriving DecidableEq, Repr

namespace PageDesc

def TAKEN : BitVec 8 := 1 <<< 0
def LAST : BitVec 8 := 1 <<< 1

def isTaken (p : PageDesc) : Bool := p.bits &&& TAKEN != 0
def isLast (p : PageDesc) : Bool := p.bits &&& LAST != 0
def clear (_ : PageDesc) : PageDesc := ⟨0⟩
def markTaken (p : PageDesc) : PageDesc := ⟨p.bits ||| TAKEN⟩
def markLast (p : PageDesc) : PageDesc := ⟨p.bits ||| LAST⟩

/-- The three descriptor values a run of calls leaves in the table. -/
def free : PageDesc := ⟨0⟩
def inner : PageDesc := ⟨TAKEN⟩
def final : PageDesc := ⟨TAKEN ||| LAST⟩

@[simp] theorem free_isTaken : free.isTaken = false := rfl
@[simp] theorem inner_isTaken : inner.isTaken = true := rfl
@[simp] theorem inner_isLast : inner.isLast = false := rfl
@[simp] theorem final_isTaken : final.isTaken = true := rfl
@[simp] theorem final_isLast : final.isLast = true := rfl
@[simp] theorem clear_eq (p : PageDesc) : p.clear = free := rfl
@[simp] theorem free_markTaken : free.markTaken = inner := rfl
@[simp] theorem inner_markLast : inner.markLast = final := rfl

end PageDesc

def nextMultipleOf (value multiple : Nat) : Nat :=
  if value % multiple = 0 then value else value + (multiple - value % multiple)

theorem le_nextMultipleOf (value multiple : Nat) :
    value ≤ nextMultipleOf value multiple := by
  unfold nextMultipleOf
  split <;> omega

theorem nextMultipleOf_lt (value multiple : Nat) (pos : 0 < multiple) :
    nextMultipleOf value multiple < value + multiple := by
  unfold nextMultipleOf
  have small := Nat.mod_lt value pos
  split <;> omega

theorem nextMultipleOf_mod (value multiple : Nat) (pos : 0 < multiple) :
    nextMultipleOf value multiple % multiple = 0 := by
  unfold nextMultipleOf
  split
  · assumption
  · have small := Nat.mod_lt value pos
    have split := Nat.div_add_mod value multiple
    have sum : value + (multiple - value % multiple) =
        multiple * (value / multiple + 1) := by
      rw [Nat.mul_add]
      omega
    rw [sum, Nat.mul_mod_right]

/-- The linker symbols `_heap_start` and `_heap_size`. -/
structure Heap where
  heapStart : Nat
  heapSize : Nat
  deriving DecidableEq, Repr

namespace Heap

def pages (h : Heap) : Nat := h.heapSize / pageSize

def heapEnd (h : Heap) : Nat := h.heapStart + h.heapSize

/-- The value `init` stores in `ALLOC_START`. -/
def allocStart (h : Heap) : Nat := nextMultipleOf (h.heapStart + h.pages) pageSize

def runAddr (h : Heap) (i : Nat) : Nat := h.allocStart + i * pageSize

theorem table_le_allocStart (h : Heap) : h.heapStart + h.pages ≤ h.allocStart :=
  le_nextMultipleOf _ _

theorem allocStart_mod (h : Heap) : h.allocStart % pageSize = 0 :=
  nextMultipleOf_mod _ _ pageSize_pos

theorem runAddr_injective (h : Heap) {i j : Nat} (same : h.runAddr i = h.runAddr j) :
    i = j := by
  simp only [runAddr, pageSize_eq] at same
  omega

theorem runAddr_ne_zero (h : Heap) {i : Nat} (bound : i < h.pages) :
    h.runAddr i ≠ 0 := by
  have := h.table_le_allocStart
  unfold runAddr
  omega

/-- The `usize` sums of `init` and `allocate` do not wrap. -/
theorem runAddr_lt_two_pow (h : Heap) {i : Nat} (bound : i ≤ h.pages)
    (low : h.heapEnd ≤ 2 ^ 63) : h.runAddr i < 2 ^ 64 := by
  have start := nextMultipleOf_lt (h.heapStart + h.pages) pageSize pageSize_pos
  simp only [runAddr, allocStart, heapEnd, pages, pageSize_eq] at *
  omega

end Heap

structure State (h : Heap) where
  table : List PageDesc
  allocStart : Nat
  table_length : table.length = h.pages

variable {h : Heap}

def init (s : State h) : State h where
  table := s.table.map PageDesc.clear
  allocStart := nextMultipleOf (h.heapStart + s.table.length) pageSize
  table_length := by simp [s.table_length]

def windows (size : Nat) (table : List PageDesc) : List (List PageDesc) :=
  (List.range (table.length + 1 - size)).map fun i => (table.drop i).take size

/-- The index `allocate` finds, `None` when no window is free. -/
def position (table : List PageDesc) (pages : Nat) : Option Nat :=
  (windows pages table).findIdx? fun w => w.all fun p => !p.isTaken

def markRun (table : List PageDesc) (startIdx pages : Nat) : List PageDesc :=
  let run := ((table.drop startIdx).take pages).map PageDesc.markTaken
  table.take startIdx ++ run.modify (pages - 1) PageDesc.markLast ++
    table.drop (startIdx + pages)

def nonNull (ptr : Nat) : Option Nat := if ptr = 0 then none else some ptr

def FreeWindow (table : List PageDesc) (pages i : Nat) : Prop :=
  i + pages ≤ table.length ∧ ((table.drop i).take pages).all (fun p => !p.isTaken) = true

theorem windows_length (size : Nat) (table : List PageDesc) :
    (windows size table).length = table.length + 1 - size := by
  simp [windows]

theorem windows_getElem {size i : Nat} {table : List PageDesc}
    (bound : i < (windows size table).length) :
    (windows size table)[i] = (table.drop i).take size := by
  simp [windows]

theorem freeWindow_iff {table : List PageDesc} {pages i : Nat} :
    FreeWindow table pages i ↔ i + pages ≤ table.length ∧
      ∀ j p, i ≤ j → j < i + pages → table[j]? = some p → p.isTaken = false := by
  unfold FreeWindow
  refine and_congr_right fun bound => ?_
  rw [List.all_eq_true]
  constructor
  · intro free j p low high entry
    have inWindow : p ∈ (table.drop i).take pages := by
      rw [List.mem_iff_getElem?]
      refine ⟨j - i, ?_⟩
      rw [List.getElem?_take_of_lt (by omega), List.getElem?_drop, ← entry]
      congr 1
      omega
    simpa using free p inWindow
  · intro free p member
    obtain ⟨j, entry⟩ := List.mem_iff_getElem?.mp member
    rw [List.getElem?_take] at entry
    split at entry
    · rename_i small
      rw [List.getElem?_drop] at entry
      simp [free (i + j) p (by omega) (by omega) entry]
    · exact absurd entry (by simp)

theorem position_eq_some_iff {table : List PageDesc} {pages i : Nat} :
    position table pages = some i ↔ IsLeast {j | FreeWindow table pages j} i := by
  rw [position, List.findIdx?_eq_some_iff_getElem]
  constructor
  · rintro ⟨bound, free, lower⟩
    have small : i < table.length + 1 - pages := by rwa [windows_length] at bound
    rw [windows_getElem] at free
    refine ⟨⟨by omega, free⟩, fun j window => ?_⟩
    by_contra below
    have taken := lower j (by omega)
    rw [windows_getElem] at taken
    exact taken window.2
  · rintro ⟨window, least⟩
    have small := window.1
    have bound : i < (windows pages table).length := by
      rw [windows_length]
      omega
    refine ⟨bound, ?_, fun j below => ?_⟩
    · rw [windows_getElem]
      exact window.2
    · rw [windows_getElem]
      intro lower
      exact absurd (least ⟨by omega, lower⟩) (by omega)

theorem position_eq_none_iff {table : List PageDesc} {pages : Nat} :
    position table pages = none ↔ ∀ i, ¬ FreeWindow table pages i := by
  rw [position, List.findIdx?_eq_none_iff]
  constructor
  · intro none i window
    have small := window.1
    have bound : i < (windows pages table).length := by
      rw [windows_length]
      omega
    have taken := none _ (List.getElem_mem bound)
    rw [windows_getElem, window.2] at taken
    exact absurd taken (by decide)
  · intro none w member
    obtain ⟨i, bound, rfl⟩ := List.mem_iff_getElem.mp member
    have small : i < table.length + 1 - pages := by rwa [windows_length] at bound
    rw [windows_getElem, Bool.eq_false_iff]
    exact fun free => none i ⟨by omega, free⟩

theorem position_bound {table : List PageDesc} {pages startIdx : Nat}
    (found : position table pages = some startIdx) :
    startIdx + pages ≤ table.length :=
  (position_eq_some_iff.mp found).1.1

theorem markRun_length {table : List PageDesc} {pages startIdx : Nat}
    (bound : startIdx + pages ≤ table.length) :
    (markRun table startIdx pages).length = table.length := by
  simp only [markRun, List.length_append, List.length_take, List.length_modify,
    List.length_map, List.length_drop]
  omega

def allocate (s : State h) (pages : Nat) : Except Panic (Option Nat × State h) :=
  if pages = 0 then .error .zeroPages
  else
    match found : position s.table pages with
    | none => .ok (none, s)
    | some startIdx =>
        .ok (nonNull (s.allocStart + startIdx * pageSize),
          { s with
            table := markRun s.table startIdx pages
            table_length := by
              rw [markRun_length (position_bound found), s.table_length] })

theorem allocate_of_found {s : State h} {pages startIdx : Nat} (pos : 0 < pages)
    (found : position s.table pages = some startIdx) :
    ∃ s', allocate s pages =
        .ok (nonNull (s.allocStart + startIdx * pageSize), s') ∧
      s'.table = markRun s.table startIdx pages ∧ s'.allocStart = s.allocStart := by
  refine ⟨⟨markRun s.table startIdx pages, s.allocStart, ?_⟩, ?_, rfl, rfl⟩
  · rw [markRun_length (position_bound found), s.table_length]
  · unfold allocate
    rw [if_neg (by omega)]
    split
    · rename_i missing
      rw [found] at missing
      exact absurd missing (by simp)
    · rename_i j other
      obtain rfl : startIdx = j := Option.some.inj (found.symm.trans other)
      rfl

theorem allocate_of_missing {s : State h} {pages : Nat} (pos : 0 < pages)
    (missing : position s.table pages = none) : allocate s pages = .ok (none, s) := by
  unfold allocate
  rw [if_neg (by omega)]
  split
  · rfl
  · rename_i j other
    rw [missing] at other
    exact absurd other (by simp)

/-- The run that `zallocate` takes; a model that has a memory clears it.  The callers ask for a
positive number of pages, for which `allocate` does not panic (`zallocate_cases`). -/
def zallocate (pages : Nat) (s : State h) : Option (Nat × State h) :=
  match allocate s pages with
  | .ok (some addr, s') => some (addr, s')
  | _ => none

theorem allocate_of_zallocate {s s' : State h} {pages addr : Nat}
    (call : zallocate pages s = some (addr, s')) : allocate s pages = .ok (some addr, s') := by
  unfold zallocate at call
  split at call
  · next answer =>
      cases call
      exact answer
  · cases call

/-- The loop of `deallocate` on the descriptors from index `i` on: clear while
taken and not last, then check and clear the last one. -/
def releaseFrom : List PageDesc → Except Panic (List PageDesc)
  | [] => .error .indexOutOfBounds
  | p :: rest =>
      if p.isTaken && !p.isLast then do
        let rest' ← releaseFrom rest
        pure (p.clear :: rest')
      else if p.isTaken && p.isLast then .ok (p.clear :: rest)
      else .error .notRunStart

theorem releaseFrom_length {suffix released : List PageDesc}
    (success : releaseFrom suffix = .ok released) :
    released.length = suffix.length := by
  induction suffix generalizing released with
  | nil => simp [releaseFrom] at success
  | cons p rest ih =>
      rw [releaseFrom] at success
      split at success
      · cases tail : releaseFrom rest with
        | error panic => simp [tail, bind, Except.bind] at success
        | ok rest' =>
            simp only [tail, bind, Except.bind, pure, Except.pure, Except.ok.injEq]
              at success
            subst success
            simp [ih tail]
      · split at success
        · simp only [Except.ok.injEq] at success
          subst success
          simp
        · simp at success

def deallocate (s : State h) (addr : Nat) : Except Panic (State h) :=
  if addr < s.allocStart ∨ h.heapEnd ≤ addr then .error .outOfRange
  else
    let i := (addr - s.allocStart) / pageSize
    match released : releaseFrom (s.table.drop i) with
    | .error panic => .error panic
    | .ok suffix =>
        .ok
          { s with
            table := s.table.take i ++ suffix
            table_length := by
              have same := releaseFrom_length released
              rw [List.length_append, same, ← List.length_append,
                List.take_append_drop, s.table_length] }

theorem deallocate_of_released {s : State h} {i : Nat} {suffix : List PageDesc}
    (started : s.allocStart = h.allocStart) (below : h.runAddr i < h.heapEnd)
    (released : releaseFrom (s.table.drop i) = .ok suffix) :
    ∃ s', deallocate s (h.runAddr i) = .ok s' ∧ s'.table = s.table.take i ++ suffix ∧
      s'.allocStart = s.allocStart := by
  have index : (h.runAddr i - s.allocStart) / pageSize = i := by
    rw [started, Heap.runAddr, Nat.add_sub_cancel_left]
    exact Nat.mul_div_cancel _ pageSize_pos
  have inRange : ¬ (h.runAddr i < s.allocStart ∨ h.heapEnd ≤ h.runAddr i) := by
    rw [started, Heap.runAddr]
    unfold Heap.runAddr at below
    omega
  refine ⟨⟨s.table.take i ++ suffix, s.allocStart, ?_⟩, ?_, rfl, rfl⟩
  · rw [List.length_append, releaseFrom_length released, ← List.length_append,
      List.take_append_drop, s.table_length]
  · unfold deallocate
    rw [if_neg inRange]
    dsimp only
    split
    · rename_i panic failed
      rw [index, released] at failed
      cases failed
    · rename_i found success
      rw [index, released] at success
      cases success
      simp only [index]

end Vesper.Mm.PageFrame
