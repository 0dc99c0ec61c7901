import Vesper.Mm.PageFrameRefinement

/-!
# Which pages lie in the heap

The descriptor table has one entry per page of the whole heap, but the data pages
start only behind the table.  The last entries therefore describe pages past the
heap end.  A call of `allocate` answers with a run inside the heap exactly when some
free window ends below the heap end, or when no window is free; every call does so
exactly when the whole table fits below the end.
-/

set_option autoImplicit false

namespace Vesper.Mm.PageFrame

open Vesper.Lib.FirstFit

/-- The states after a first `init` and any calls that did not panic, with any
arguments. -/
inductive Reachable (h : Heap) : State h → Prop where
  | boot (s : State h) : Reachable h (init s)
  | call {s s' : State h} (c : Call) {result : Option Nat} :
      Reachable h s → call s c = .ok (result, s') → Reachable h s'

theorem allocate_allocStart {h : Heap} {s s' : State h} {pages : Nat}
    {result : Option Nat} (success : allocate s pages = .ok (result, s')) :
    s'.allocStart = s.allocStart := by
  by_cases pos : 0 < pages
  · cases found : position s.table pages with
    | none =>
        rw [allocate_of_missing pos found] at success
        rw [← (Prod.mk.inj (Except.ok.inj success)).2]
    | some i =>
        obtain ⟨s'', answer, _, kept⟩ := allocate_of_found pos found
        rw [answer] at success
        rw [← (Prod.mk.inj (Except.ok.inj success)).2, kept]
  · obtain rfl : pages = 0 := by omega
    simp [allocate] at success

theorem allocate_table_ne {h : Heap} {s s' : State h} {pool : Pool h.pages}
    (refines : Refines s pool) {k p : Nat} (pos : 0 < k)
    (success : allocate s k = .ok (some p, s')) : s'.table ≠ s.table := by
  rcases allocate_cases refines pos with ⟨full, _⟩ | ⟨i, s'', fit, answer, refines'⟩
  · rw [full] at success
    cases success
  · rw [answer] at success
    cases success
    intro same
    have live := refines'.table.live_unique (same ▸ refines.table)
    have member : (⟨i, k⟩ : Run) ∈ pool.live := by
      rw [← live]
      exact Finset.mem_insert_self _ _
    have cell : i ∈ (⟨i, k⟩ : Run).cells := Run.start_mem pos
    exact Finset.disjoint_left.mp (fit.1.2 _ member) cell cell

theorem deallocate_allocStart {h : Heap} {s s' : State h} {addr : Nat}
    (success : deallocate s addr = .ok s') : s'.allocStart = s.allocStart := by
  unfold deallocate at success
  split at success
  · simp at success
  · simp only at success
    split at success
    · simp at success
    · rw [← Except.ok.inj success]

theorem Reachable.invariant {h : Heap} {P : State h → Prop} (started : ∀ s, P (init s))
    (allocates : ∀ {s s' k result}, allocate s k = .ok (result, s') → P s → P s')
    (deallocates : ∀ {s s' addr}, deallocate s addr = .ok s' → P s → P s') {s : State h}
    (reachable : Reachable h s) : P s := by
  induction reachable with
  | boot s => exact started s
  | @call s s' c result _ success ih =>
      cases c with
      | init =>
          obtain ⟨_, rfl⟩ := Prod.mk.inj (Except.ok.inj success)
          exact started s
      | allocate pages => exact allocates success ih
      | deallocate addr =>
          simp only [PageFrame.call] at success
          cases freed : deallocate s addr with
          | error panic => simp [freed, Except.map] at success
          | ok s'' =>
              simp only [freed, Except.map, Except.ok.injEq, Prod.mk.injEq] at success
              rw [← success.2]
              exact deallocates freed ih

theorem Reachable.started {h : Heap} {s : State h} (reachable : Reachable h s) :
    s.allocStart = h.allocStart := by
  refine Reachable.invariant (P := fun s => s.allocStart = h.allocStart) init_allocStart ?_ ?_
    reachable
  · intro s s' k result success ih
    rw [allocate_allocStart success, ih]
  · intro s s' addr success ih
    rw [deallocate_allocStart success, ih]

/-- Whatever `allocate(k)` returns lies in the heap, misses the descriptor table and
passes the range assertion of `deallocate`. -/
def InHeap {h : Heap} (s : State h) (k : Nat) : Prop :=
  ∀ p s', allocate s k = .ok (some p, s') →
    (∀ byte, p ≤ byte → byte < p + k * pageSize →
      h.heapStart ≤ byte ∧ byte < h.heapEnd ∧ h.heapStart + h.pages ≤ byte) ∧
    s'.allocStart ≤ p ∧ p < h.heapEnd

/-- Either no window of `k` descriptors is free, or one whose pages end below the heap
end is. -/
def RoomBelowEnd {h : Heap} (s : State h) (k : Nat) : Prop :=
  (∃ i, FreeWindow s.table k i) →
    ∃ i, FreeWindow s.table k i ∧ h.runAddr (i + k) ≤ h.heapEnd

section Call
variable {h : Heap} {s : State h} {k : Nat}

theorem allocate_eq_some (started : s.allocStart = h.allocStart) (pos : 0 < k) {p : Nat}
    {s' : State h} (success : allocate s k = .ok (some p, s')) :
    ∃ i, IsLeast {j | FreeWindow s.table k j} i ∧ p = h.runAddr i := by
  cases found : position s.table k with
  | none =>
      rw [allocate_of_missing pos found] at success
      simp at success
  | some i =>
      obtain ⟨s'', answer, _⟩ := allocate_of_found pos found
      rw [answer, started] at success
      have address := (Prod.mk.inj (Except.ok.inj success)).1
      refine ⟨i, position_eq_some_iff.mp found, ?_⟩
      unfold nonNull at address
      split at address
      · simp at address
      · exact (Option.some.inj address).symm

theorem allocate_of_isLeast (started : s.allocStart = h.allocStart) (pos : 0 < k)
    {i : Nat} (least : IsLeast {j | FreeWindow s.table k j} i) :
    ∃ s', allocate s k = .ok (some (h.runAddr i), s') := by
  obtain ⟨s', success, _⟩ :=
    allocate_of_found pos (position_eq_some_iff.mpr least)
  have bound := least.1.1
  rw [s.table_length] at bound
  refine ⟨s', ?_⟩
  rw [success, started]
  change Except.ok (nonNull (h.runAddr i), s') = _
  rw [nonNull, if_neg (h.runAddr_ne_zero (by omega))]

theorem runAddr_add (h : Heap) (i k : Nat) :
    h.runAddr (i + k) = h.runAddr i + k * pageSize := by
  simp only [Heap.runAddr]
  ring

theorem inHeap_iff_roomBelowEnd (started : s.allocStart = h.allocStart) (pos : 0 < k) :
    InHeap s k ↔ RoomBelowEnd s k := by
  constructor
  · rintro inside ⟨j, window⟩
    classical
    have some : ∃ i, FreeWindow s.table k i := ⟨j, window⟩
    have least : IsLeast {j | FreeWindow s.table k j} (Nat.find some) :=
      ⟨Nat.find_spec some, fun i other => Nat.find_min' some other⟩
    obtain ⟨s', success⟩ := allocate_of_isLeast started pos least
    obtain ⟨bytes, _⟩ := inside _ _ success
    refine ⟨_, least.1, ?_⟩
    have wide : 0 < k * pageSize := Nat.mul_pos pos pageSize_pos
    have lastByte := bytes (h.runAddr (Nat.find some) + k * pageSize - 1)
      (by omega) (by omega)
    rw [runAddr_add]
    omega
  · intro room p s' success
    obtain ⟨i, least, rfl⟩ := allocate_eq_some started pos success
    obtain ⟨j, window, below⟩ := room ⟨i, least.1⟩
    -- first fit: the run found ends no later than the window below the end
    have lower : i ≤ j := least.2 window
    have fits : h.runAddr i + k * pageSize ≤ h.heapEnd := by
      rw [runAddr_add] at below
      have monotone : h.runAddr i ≤ h.runAddr j := by
        simp only [Heap.runAddr, pageSize_eq]
        omega
      omega
    have table := h.table_le_allocStart
    have wide : 0 < k * pageSize := Nat.mul_pos pos pageSize_pos
    have first : h.allocStart ≤ h.runAddr i := by
      simp only [Heap.runAddr]
      omega
    rw [allocate_allocStart success, started]
    refine ⟨fun byte low high => ⟨by omega, by omega, by omega⟩, first, by omega⟩

end Call

theorem freeWindow_init {h : Heap} (s : State h) {k i : Nat} :
    FreeWindow (init s).table k i ↔ i + k ≤ h.pages := by
  rw [(init_represents s).freeWindow_iff_window]
  simp [Pool.Window, Pool.empty]

/-- The first call after `init` may ask for every page of the table. -/
theorem inHeap_init_iff {h : Heap} (s : State h) (some : 0 < h.pages) :
    InHeap (init s) h.pages ↔ h.runAddr h.pages ≤ h.heapEnd := by
  rw [inHeap_iff_roomBelowEnd (init_allocStart s) some]
  constructor
  · intro room
    obtain ⟨i, window, below⟩ := room ⟨0, (freeWindow_init s).mpr (by omega)⟩
    have only : i + h.pages ≤ h.pages := (freeWindow_init s).mp window
    obtain rfl : i = 0 := by omega
    simpa using below
  · intro below _
    exact ⟨0, (freeWindow_init s).mpr (by omega), by simpa using below⟩

theorem inHeap_of_table_fits {h : Heap} {s : State h} {k : Nat}
    (started : s.allocStart = h.allocStart) (pos : 0 < k)
    (fits : h.pages = 0 ∨ h.runAddr h.pages ≤ h.heapEnd) : InHeap s k := by
  rw [inHeap_iff_roomBelowEnd started pos]
  rintro ⟨i, window⟩
  have bound := window.1
  rw [s.table_length] at bound
  refine ⟨i, window, ?_⟩
  rcases fits with none | below
  · omega
  · have monotone : h.runAddr (i + k) ≤ h.runAddr h.pages := by
      simp only [Heap.runAddr, pageSize_eq]
      omega
    omega

/-- `allocate(k)` answers inside the heap exactly when a free window ends below the heap
end or none is free; all calls after `init` do exactly when the table is empty or its
last page still ends inside the heap. -/
theorem allocate_inside_heap_iff (h : Heap) :
    (∀ s : State h, Reachable h s → ∀ k, 0 < k → (InHeap s k ↔ RoomBelowEnd s k)) ∧
    ((∀ s : State h, Reachable h s → ∀ k, 0 < k → InHeap s k) ↔
      (h.pages = 0 ∨ h.runAddr h.pages ≤ h.heapEnd)) := by
  refine ⟨fun s reachable k pos => inHeap_iff_roomBelowEnd reachable.started pos,
    ?_, fun fits s reachable k pos => inHeap_of_table_fits reachable.started pos fits⟩
  intro inside
  by_cases none : h.pages = 0
  · exact .inl none
  · let raw : State h := ⟨List.replicate h.pages PageDesc.free, 0, by simp⟩
    exact .inr ((inHeap_init_iff raw (by omega)).mp
      (inside _ (.boot raw) h.pages (by omega)))

def virtHeap : Heap := ⟨0x80100000, 0x88000000 - 0x80100000⟩

/-- Behind that image the first request for all pages of the table is answered with a
run that ends past the heap end. -/
theorem allocate_past_heap_end :
    ∃ s : State virtHeap, Reachable virtHeap s ∧ 0 < virtHeap.pages ∧
      ¬ InHeap s virtHeap.pages := by
  let raw : State virtHeap := ⟨List.replicate virtHeap.pages PageDesc.free, 0, by simp⟩
  refine ⟨init raw, .boot raw, by decide, ?_⟩
  rw [inHeap_init_iff raw (by decide)]
  decide

end Vesper.Mm.PageFrame
