import Vesper.Mm.HeapBounds

/-!
# What `deallocate` does with a wrong pointer

`deallocate` rounds the address down to a page and then looks at the descriptors from
that page on.  It cannot tell the start of a run from the middle: every address inside a
live run is accepted and frees the rest of the run.  What keeps the loop inside the table
under any misuse is the table's end: its last descriptor is never taken without being
marked last.  The loop still starts behind the table where the heap end lies beyond the
last described page.
-/

set_option autoImplicit false

namespace Vesper.Mm.PageFrame

open Vesper.Lib.FirstFit

variable {h : Heap} {s : State h}

def pageIndex (h : Heap) (addr : Nat) : Nat := (addr - h.allocStart) / pageSize

theorem pageIndex_lt_iff {addr n : Nat} (low : h.allocStart ≤ addr) :
    pageIndex h addr < n ↔ addr < h.runAddr n := by
  rw [pageIndex, Nat.div_lt_iff_lt_mul pageSize_pos, Heap.runAddr]
  omega

theorem le_pageIndex_iff {addr n : Nat} (low : h.allocStart ≤ addr) :
    n ≤ pageIndex h addr ↔ h.runAddr n ≤ addr := by
  have negated := not_congr (pageIndex_lt_iff (n := n) low)
  rwa [not_lt, not_lt] at negated

theorem pageIndex_mem_cells {addr : Nat} (low : h.allocStart ≤ addr) (r : Run) :
    pageIndex h addr ∈ r.cells ↔
      h.runAddr r.start ≤ addr ∧ addr < h.runAddr (r.start + r.len) := by
  rw [Run.mem_cells, le_pageIndex_iff low, pageIndex_lt_iff low]

theorem deallocate_error_iff (started : s.allocStart = h.allocStart) {addr : Nat}
    (low : h.allocStart ≤ addr) (high : addr < h.heapEnd) {panic : Panic} :
    deallocate s addr = .error panic ↔
      releaseFrom (s.table.drop (pageIndex h addr)) = .error panic := by
  have inRange : ¬ (addr < s.allocStart ∨ h.heapEnd ≤ addr) := by
    rw [started]
    omega
  unfold deallocate pageIndex
  rw [if_neg inRange, ← started]
  dsimp only
  split
  · next failed => rw [failed, Except.error.injEq, Except.error.injEq]
  · next released => simp [released]

theorem deallocate_ok_iff (started : s.allocStart = h.allocStart) {addr : Nat}
    (low : h.allocStart ≤ addr) (high : addr < h.heapEnd) :
    (∃ s', deallocate s addr = .ok s') ↔
      ∃ suffix, releaseFrom (s.table.drop (pageIndex h addr)) = .ok suffix := by
  have failures (panic : Panic) : deallocate s addr = .error panic ↔
      releaseFrom (s.table.drop (pageIndex h addr)) = .error panic :=
    deallocate_error_iff started low high
  constructor
  · intro ⟨s', freed⟩
    cases scanned : releaseFrom (s.table.drop (pageIndex h addr)) with
    | error panic =>
        rw [(failures panic).mpr scanned] at freed
        cases freed
    | ok suffix => exact ⟨suffix, rfl⟩
  · intro ⟨suffix, scanned⟩
    cases freed : deallocate s addr with
    | error panic =>
        rw [(failures panic).mp freed] at scanned
        cases scanned
    | ok s' => exact ⟨s', rfl⟩

/-! ## Wrong pointers into a table of live runs -/

theorem releaseFrom_outside {n : Nat} {table : List PageDesc} {pool : Pool n}
    (rep : Represents table pool) {i : Nat} (outside : ∀ r ∈ pool.live, i ∉ r.cells) :
    ∃ panic, releaseFrom (table.drop i) = .error panic := by
  by_cases inTable : i < n
  · obtain ⟨bound, entry⟩ := List.getElem?_eq_some_iff.mp (rep.free_desc i inTable outside)
    refine ⟨.notRunStart, ?_⟩
    rw [List.drop_eq_getElem_cons bound, entry]
    rfl
  · refine ⟨.indexOutOfBounds, ?_⟩
    rw [List.drop_eq_nil_of_le (by rw [rep.length]; omega)]
    rfl

theorem Refines.deallocate_ok_iff {pool : Pool h.pages} (refines : Refines s pool) {addr : Nat}
    (low : h.allocStart ≤ addr) (high : addr < h.heapEnd) :
    (∃ s', deallocate s addr = .ok s') ↔ ∃ r ∈ pool.live, pageIndex h addr ∈ r.cells := by
  rw [PageFrame.deallocate_ok_iff refines.started low high]
  constructor
  · intro ⟨suffix, scanned⟩
    by_contra none
    obtain ⟨panic, failed⟩ := releaseFrom_outside refines.table fun r member inside =>
      none ⟨r, member, inside⟩
    rw [failed] at scanned
    cases scanned
  · intro ⟨r, member, inside⟩
    exact ⟨_, releaseFrom_inside refines.table member inside⟩

/-- The assertions of `deallocate` pick out the starts of live runs exactly for the
addresses that do not lie inside a live run behind its start. -/
theorem deallocate_accepts_only_starts_iff (h : Heap) (s : State h) (live : Finset Run)
    (trace : Trace h s live) (ptr : Nat) (low : h.allocStart ≤ ptr) (high : ptr < h.heapEnd) :
    ((∃ s', deallocate s ptr = .ok s') ↔ ∃ r ∈ live, ptr = h.runAddr r.start) ↔
      ∀ r ∈ live, h.runAddr r.start ≤ ptr → ptr < h.runAddr (r.start + r.len) →
        ptr = h.runAddr r.start := by
  obtain ⟨pool, rfl, refines⟩ := trace_refines trace
  rw [refines.deallocate_ok_iff low high]
  simp only [pageIndex_mem_cells low]
  constructor
  · intro exact_ r member first last
    obtain ⟨q, qMember, start⟩ := exact_.mp ⟨r, member, first, last⟩
    have inR := (pageIndex_mem_cells low r).mpr ⟨first, last⟩
    have inQ : pageIndex h ptr ∈ q.cells := by
      rw [pageIndex, start, Heap.runAddr, Nat.add_sub_cancel_left,
        Nat.mul_div_cancel _ pageSize_pos]
      exact Run.start_mem (pool.nonempty q qMember)
    rw [pool.run_unique member qMember inR inQ]
    exact start
  · intro onlyStarts
    constructor
    · intro found
      obtain ⟨r, member, first, last⟩ := found
      exact ⟨r, member, onlyStarts r member first last⟩
    · intro found
      obtain ⟨r, member, start⟩ := found
      have inside := (pageIndex_mem_cells low r).mp (by
        rw [pageIndex, start, Heap.runAddr, Nat.add_sub_cancel_left,
          Nat.mul_div_cancel _ pageSize_pos]
        exact Run.start_mem (pool.nonempty r member))
      exact ⟨r, member, inside⟩

theorem deallocate_rejects_second_free :
    ∃ s, Trace smallHeap s {⟨1, 1⟩} ∧ ¬ ∃ s', deallocate s 0x80001000 = .ok s' := by
  obtain ⟨s, trace⟩ := smallHeap_trace
  have only := (deallocate_accepts_only_starts_iff smallHeap s _ trace 0x80001000 (by decide)
    (by decide)).mpr (by decide)
  exact ⟨s, trace, fun freed => absurd (only.mp freed) (by decide)⟩

/-- One run of two pages at `0x80001000`: its second page and an address off the page
grid are both accepted. -/
theorem deallocate_accepts_inside_run :
    ∃ s, Trace smallHeap s {⟨0, 2⟩} ∧ (∃ s', deallocate s 0x80002000 = .ok s') ∧
      (∃ s', deallocate s 0x80001001 = .ok s') ∧
      ¬ (∃ r ∈ ({⟨0, 2⟩} : Finset Run), 0x80002000 = smallHeap.runAddr r.start) ∧
      ¬ ∃ r ∈ ({⟨0, 2⟩} : Finset Run), 0x80001001 = smallHeap.runAddr r.start := by
  have held := Trace.call (.allocate 2) (Trace.boot rawState) (by decide) rfl
  obtain ⟨s, live, trace, rfl⟩ :
      ∃ s live, Trace smallHeap s live ∧ live = {⟨0, 2⟩} := ⟨_, _, held, by decide +kernel⟩
  obtain ⟨pool, same, refines⟩ := trace_refines trace
  refine ⟨s, trace, ?_, ?_, by decide, by decide⟩
  · rw [refines.deallocate_ok_iff (by decide) (by decide), same]
    decide
  · rw [refines.deallocate_ok_iff (by decide) (by decide), same]
    decide

/-! ## The end of the table under any misuse -/

/-- The last descriptor of the table is not taken without being marked last. -/
def EndMarked (table : List PageDesc) : Prop :=
  ∀ p, table[table.length - 1]? = some p → p.isTaken = true → p.isLast = true

theorem isLast_markLast (p : PageDesc) : p.markLast.isLast = true := by
  have absorbed : (p.bits ||| PageDesc.LAST) &&& PageDesc.LAST = PageDesc.LAST := by
    ext i
    rw [BitVec.getElem_and, BitVec.getElem_or]
    cases p.bits[i] <;> cases PageDesc.LAST[i] <;> rfl
  rw [PageDesc.isLast, PageDesc.markLast, absorbed]
  rfl

theorem markRun_endMarked {table : List PageDesc} {i k : Nat} (bound : i + k ≤ table.length)
    (marked : EndMarked table) : EndMarked (markRun table i k) := by
  intro p entry taken
  rw [markRun_length bound, markRun_getElem? bound] at entry
  split_ifs at entry with inRun atEnd
  · obtain ⟨q, _, rfl⟩ := Option.map_eq_some_iff.mp entry
    exact isLast_markLast _
  · omega
  · exact marked p entry taken

theorem releaseFrom_getElem? {suffix released : List PageDesc}
    (scanned : releaseFrom suffix = .ok released) {j : Nat} {p : PageDesc}
    (entry : released[j]? = some p) : p = PageDesc.free ∨ suffix[j]? = some p := by
  induction suffix generalizing released j with
  | nil => cases scanned
  | cons q rest ih =>
      rw [releaseFrom] at scanned
      split_ifs at scanned with inner last
      · cases tail : releaseFrom rest with
        | error panic => simp [tail, bind, Except.bind] at scanned
        | ok rest' =>
            simp only [tail, bind, Except.bind, pure, Except.pure, Except.ok.injEq] at scanned
            subst scanned
            cases j with
            | zero => exact Or.inl (Option.some.inj entry).symm
            | succ j => exact ih tail entry
      · cases scanned
        cases j with
        | zero => exact Or.inl (Option.some.inj entry).symm
        | succ j => exact Or.inr entry

theorem releaseFrom_endMarked {table suffix : List PageDesc} {i : Nat}
    (scanned : releaseFrom (table.drop i) = .ok suffix) (marked : EndMarked table) :
    EndMarked (table.take i ++ suffix) := by
  have sameLength : (table.take i ++ suffix).length = table.length := by
    rw [List.length_append, releaseFrom_length scanned, ← List.length_append,
      List.take_append_drop]
  intro p entry taken
  rw [sameLength, List.getElem?_append] at entry
  split_ifs at entry with front
  · rw [List.length_take] at front
    rw [List.getElem?_take_of_lt (by omega)] at entry
    exact marked p entry taken
  · cases releaseFrom_getElem? scanned entry with
    | inl cleared =>
        rw [cleared] at taken
        cases taken
    | inr kept =>
        rw [List.getElem?_drop] at kept
        have inTable := (List.getElem?_eq_some_iff.mp kept).1
        rw [List.length_take] at kept front inTable
        have last : i + (table.length - 1 - min i table.length) = table.length - 1 := by omega
        rw [last] at kept
        exact marked p kept taken

theorem deallocate_endMarked {addr : Nat} {s' : State h} (freed : deallocate s addr = .ok s')
    (marked : EndMarked s.table) : EndMarked s'.table := by
  unfold deallocate at freed
  split_ifs at freed with outside
  dsimp only at freed
  split at freed
  · cases freed
  · next suffix scanned =>
      cases freed
      exact releaseFrom_endMarked scanned marked

theorem init_endMarked (s : State h) : EndMarked (init s).table := by
  intro p entry taken
  have cleared : p = PageDesc.free := by
    obtain ⟨q, _, same⟩ := Option.map_eq_some_iff.mp (List.getElem?_map.symm.trans entry)
    exact same.symm
  rw [cleared] at taken
  cases taken

theorem allocate_endMarked {k : Nat} {result : Option Nat} {s' : State h}
    (success : allocate s k = .ok (result, s')) (marked : EndMarked s.table) :
    EndMarked s'.table := by
  by_cases pos : 0 < k
  · cases found : position s.table k with
    | none =>
        rw [allocate_of_missing pos found] at success
        rw [← (Prod.mk.inj (Except.ok.inj success)).2]
        exact marked
    | some i =>
        obtain ⟨s'', answer, table, _⟩ := allocate_of_found pos found
        rw [answer] at success
        rw [← (Prod.mk.inj (Except.ok.inj success)).2, table]
        exact markRun_endMarked (position_bound found) marked
  · obtain rfl : k = 0 := by omega
    cases success

/-- Whatever pointers were freed, the end of the table stays marked. -/
theorem Reachable.endMarked (reachable : Reachable h s) : EndMarked s.table :=
  Reachable.invariant (P := fun s => EndMarked s.table) init_endMarked allocate_endMarked
    deallocate_endMarked reachable

theorem releaseFrom_stays {suffix : List PageDesc} (marked : EndMarked suffix)
    (nonempty : suffix ≠ []) : releaseFrom suffix ≠ .error .indexOutOfBounds := by
  induction suffix with
  | nil => exact absurd rfl nonempty
  | cons p rest ih =>
      rw [releaseFrom]
      split_ifs with inner last
      · have more : rest ≠ [] := by
          intro ended
          subst ended
          have isLast := marked p rfl (Bool.and_eq_true_iff.mp inner).1
          simp [isLast] at inner
        have tail : EndMarked rest := by
          intro q entry
          refine marked q ?_
          have long := List.length_pos_iff.mpr more
          rw [← entry, List.length_cons, Nat.add_sub_cancel,
            show rest.length = rest.length - 1 + 1 by omega, List.getElem?_cons_succ]
          rfl
        intro failed
        cases scanned : releaseFrom rest with
        | error panic =>
            simp only [scanned, bind, Except.bind, Except.error.injEq] at failed
            exact ih tail more (by rw [scanned, failed])
        | ok rest' => simp [scanned, bind, Except.bind, pure, Except.pure] at failed
      · intro failed
        cases failed
      · intro failed
        cases failed

theorem EndMarked.drop {table : List PageDesc} (marked : EndMarked table) {i : Nat}
    (inTable : i < table.length) : EndMarked (table.drop i) := by
  intro p entry
  refine marked p ?_
  rw [List.getElem?_drop, List.length_drop] at entry
  rw [← entry]
  congr 1
  omega

theorem Reachable.scan_leaves_iff (reachable : Reachable h s) (i : Nat) :
    releaseFrom (s.table.drop i) = .error .indexOutOfBounds ↔ h.pages ≤ i := by
  constructor
  · intro failed
    by_contra inside
    have inTable : i < s.table.length := by
      rw [s.table_length]
      omega
    refine releaseFrom_stays (reachable.endMarked.drop inTable) ?_ failed
    rw [ne_eq, List.drop_eq_nil_iff]
    omega
  · intro past
    rw [List.drop_eq_nil_of_le (by rw [s.table_length]; exact past)]
    rfl

/-- After any calls, with any pointers, `deallocate` leaves the descriptor table exactly
for the addresses past the last described page; such addresses pass the range assertion
exactly if the heap ends behind that page. -/
theorem deallocate_scan_stays_iff (h : Heap) (s : State h) (reachable : Reachable h s) :
    (∀ ptr, s.allocStart ≤ ptr → ptr < h.heapEnd →
      (deallocate s ptr ≠ .error .indexOutOfBounds ↔ ptr < h.runAddr h.pages)) ∧
    ((∀ ptr, s.allocStart ≤ ptr → ptr < h.heapEnd →
        deallocate s ptr ≠ .error .indexOutOfBounds) ↔
      h.heapEnd ≤ h.runAddr h.pages) := by
  have started := reachable.started
  rw [started]
  have perCall (ptr : Nat) (low : h.allocStart ≤ ptr) (high : ptr < h.heapEnd) :
      deallocate s ptr ≠ .error .indexOutOfBounds ↔ ptr < h.runAddr h.pages := by
    rw [ne_eq, deallocate_error_iff started low high, reachable.scan_leaves_iff, not_le,
      pageIndex_lt_iff low]
  refine ⟨perCall, ?_, ?_⟩
  · intro stays
    by_contra beyond
    have low : h.allocStart ≤ h.runAddr h.pages := Nat.le_add_right _ _
    have high := not_le.mp beyond
    exact absurd ((perCall _ low high).mp (stays _ low high)) (lt_irrefl _)
  · intro fits ptr low high
    exact (perCall ptr low high).mpr (high.trans_le fits)

theorem deallocate_scan_stays_small_heap :
    ∃ s, Reachable smallHeap s ∧ ∀ ptr, s.allocStart ≤ ptr → ptr < smallHeap.heapEnd →
      deallocate s ptr ≠ .error .indexOutOfBounds :=
  ⟨_, .boot rawState,
    (deallocate_scan_stays_iff smallHeap _ (.boot rawState)).2.mpr (by decide)⟩

/-- One page described, from `0x80001000`, in a heap that ends at `0x80002ffe`. -/
def oddHeap : Heap := ⟨0x80000fff, 8191⟩

theorem deallocate_scan_leaves_table :
    ∃ s : State oddHeap, Reachable oddHeap s ∧ 0 < oddHeap.pages ∧
      s.allocStart ≤ 0x80002000 ∧ 0x80002000 < oddHeap.heapEnd ∧
      deallocate s 0x80002000 = .error .indexOutOfBounds :=
  let raw : State oddHeap := ⟨[⟨0xff⟩], 0, rfl⟩
  ⟨init raw, .boot raw, by decide, by decide, by decide,
    (deallocate_error_iff (init_allocStart raw) (by decide) (by decide)).mpr rfl⟩

end Vesper.Mm.PageFrame
