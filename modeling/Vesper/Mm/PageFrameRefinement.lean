import Vesper.Mm.PageFrame

/-!
# The descriptor table refines first-fit allocation

`Represents table pool` ties a descriptor table to a pool of live runs.  Each
operation of the allocator is matched with the operation of the pool: `init` with
the empty pool, `allocate` with the lowest free window, `deallocate` with the
release of the run that starts at the address.  `Trace` is any sequence of calls
after a first `init`; the live runs it carries are read off the calls and their
return values alone.
-/

set_option autoImplicit false

namespace Vesper.Mm.PageFrame

open Vesper.Lib.FirstFit

structure Represents {n : Nat} (table : List PageDesc) (pool : Pool n) : Prop where
  length : table.length = n
  live_desc : ∀ r ∈ pool.live, ∀ i ∈ r.cells,
    table[i]? = some (if i = r.final then PageDesc.final else PageDesc.inner)
  free_desc : ∀ i < n, (∀ r ∈ pool.live, i ∉ r.cells) → table[i]? = some PageDesc.free

variable {n : Nat} {table : List PageDesc} {pool : Pool n}

theorem Represents.isTaken_iff (rep : Represents table pool) {i : Nat} {p : PageDesc}
    (entry : table[i]? = some p) :
    p.isTaken = true ↔ ∃ r ∈ pool.live, i ∈ r.cells := by
  constructor
  · intro taken
    by_contra outside
    have bound : i < n := by
      rw [← rep.length]
      exact (List.getElem?_eq_some_iff.mp entry).1
    have isFree := rep.free_desc i bound fun r member inside =>
      outside ⟨r, member, inside⟩
    rw [entry, Option.some.injEq] at isFree
    simp [isFree] at taken
  · rintro ⟨r, member, inside⟩
    have isLive := rep.live_desc r member i inside
    rw [entry, Option.some.injEq] at isLive
    rw [isLive]
    split <;> rfl

/-! ## The search -/

theorem Represents.freeWindow_iff_window (rep : Represents table pool) {k i : Nat} :
    FreeWindow table k i ↔ pool.Window k i := by
  rw [freeWindow_iff, Pool.window_iff, rep.length]
  refine and_congr_right fun bound => ?_
  constructor
  · intro free j low high r member inside
    have inTable : j < table.length := by
      rw [rep.length]
      omega
    have entry : table[j]? = some table[j] := List.getElem?_eq_getElem inTable
    have taken := (rep.isTaken_iff entry).mpr ⟨r, member, inside⟩
    rw [free j _ low high entry] at taken
    exact absurd taken (by decide)
  · intro apart j p low high entry
    rw [Bool.eq_false_iff]
    intro taken
    obtain ⟨r, member, inside⟩ := (rep.isTaken_iff entry).mp taken
    exact apart j low high r member inside

theorem Represents.position_some (rep : Represents table pool) {k i : Nat}
    (fit : pool.IsFirstFit k i) : position table k = some i := by
  rw [position_eq_some_iff]
  simpa only [rep.freeWindow_iff_window, Pool.IsFirstFit] using fit

theorem Represents.position_none (rep : Represents table pool) {k : Nat}
    (full : ∀ i, ¬ pool.Window k i) : position table k = none := by
  rw [position_eq_none_iff]
  simpa only [rep.freeWindow_iff_window] using full

/-! ## Marking a run -/

theorem markRun_getElem? {k i : Nat} (bound : i + k ≤ table.length) (j : Nat) :
    (markRun table i k)[j]? =
      if i ≤ j ∧ j < i + k then
        if j = i + k - 1 then table[j]?.map fun p => p.markTaken.markLast
        else table[j]?.map PageDesc.markTaken
      else table[j]? := by
  have frontLength : (table.take i).length = i := by
    rw [List.length_take]
    omega
  have runLength : (((table.drop i).take k).map PageDesc.markTaken).length = k := by
    rw [List.length_map, List.length_take, List.length_drop]
    omega
  rw [markRun, List.append_assoc]
  by_cases front : j < i
  · rw [List.getElem?_append_left (by omega), List.getElem?_take_of_lt front,
      if_neg (by omega)]
  · rw [List.getElem?_append_right (by omega), frontLength]
    by_cases middle : j < i + k
    · rw [List.getElem?_append_left (by rw [List.length_modify]; omega),
        List.getElem?_modify, List.getElem?_map, List.getElem?_take_of_lt (by omega),
        List.getElem?_drop, show i + (j - i) = j by omega, if_pos (by omega)]
      by_cases atEnd : j = i + k - 1
      · have inRun : k - 1 = j - i := by omega
        simp only [inRun, if_pos atEnd, if_true, Option.map_eq_map, Option.map_map]
        rfl
      · have inRun : k - 1 ≠ j - i := by omega
        simp only [inRun, if_neg atEnd, if_false, Option.map_eq_map, Option.map_id']
    · rw [List.getElem?_append_right (by rw [List.length_modify]; omega),
        List.length_modify, runLength, List.getElem?_drop, if_neg (by omega)]
      congr 1
      omega

theorem markRun_represents (rep : Represents table pool) {k i : Nat} (pos : 0 < k)
    (window : pool.Window k i) :
    Represents (markRun table i k) (pool.take k i pos window) := by
  have bound : i + k ≤ table.length := by
    rw [rep.length]
    exact window.1
  obtain ⟨_, apart⟩ := Pool.window_iff.mp window
  refine ⟨?_, ?_, ?_⟩
  · rw [markRun_length bound, rep.length]
  · intro r member j inside
    rw [markRun_getElem? bound]
    rcases Finset.mem_insert.mp member with rfl | member
    · obtain ⟨low, high⟩ : i ≤ j ∧ j < i + k := Run.mem_cells.mp inside
      have wasFree := rep.free_desc j (by have := window.1; omega) (apart j low high)
      rw [if_pos ⟨low, high⟩, wasFree]
      have finalCell : (Run.mk i k).final = i + k - 1 := rfl
      rw [finalCell]
      by_cases atEnd : j = i + k - 1
      · rw [if_pos atEnd, if_pos atEnd]
        rfl
      · rw [if_neg atEnd, if_neg atEnd]
        rfl
    · have outside : ¬ (i ≤ j ∧ j < i + k) := fun inRun =>
        apart j inRun.1 inRun.2 r member inside
      rw [if_neg outside]
      exact rep.live_desc r member j inside
  · intro j small outside
    have notNew : j ∉ (Run.mk i k).cells := outside _ (Finset.mem_insert_self _ _)
    rw [markRun_getElem? bound, if_neg fun inRun => notNew (Run.mem_cells.mpr inRun)]
    exact rep.free_desc j small fun r member =>
      outside r (Finset.mem_insert_of_mem member)

/-! ## Releasing a run -/

theorem releaseFrom_run (middle rest : List PageDesc) (last : PageDesc)
    (inner : ∀ p ∈ middle, p.isTaken = true ∧ p.isLast = false)
    (taken : last.isTaken = true) (isLast : last.isLast = true) :
    releaseFrom (middle ++ last :: rest) =
      .ok (List.replicate (middle.length + 1) PageDesc.free ++ rest) := by
  induction middle with
  | nil => simp [releaseFrom, taken, isLast]
  | cons p middle ih =>
      obtain ⟨pTaken, pLast⟩ := inner p (List.mem_cons_self ..)
      have tail := ih fun q member => inner q (List.mem_cons_of_mem _ member)
      simp only [List.cons_append, releaseFrom, pTaken, pLast, Bool.not_false,
        Bool.and_self, if_true, tail, List.length_cons]
      rfl

theorem drop_run (rep : Represents table pool) {r : Run} (member : r ∈ pool.live) {i : Nat}
    (inside : i ∈ r.cells) :
    table.drop i =
      (table.drop i).take (r.final - i) ++ PageDesc.final :: table.drop (r.start + r.len) := by
  have pos := pool.nonempty r member
  obtain ⟨low, high⟩ := Run.mem_cells.mp inside
  have last := rep.live_desc r member r.final (Run.final_mem pos)
  rw [if_pos rfl] at last
  obtain ⟨bound, entry⟩ := List.getElem?_eq_some_iff.mp last
  have tail : (table.drop i).drop (r.final - i) =
      PageDesc.final :: table.drop (r.start + r.len) := by
    rw [List.drop_drop, show i + (r.final - i) = r.final by simp only [Run.final]; omega,
      List.drop_eq_getElem_cons bound, entry]
    congr 2
    simp only [Run.final]
    omega
  rw [← tail, List.take_append_drop]

theorem releaseFrom_inside (rep : Represents table pool) {r : Run} (member : r ∈ pool.live)
    {i : Nat} (inside : i ∈ r.cells) :
    releaseFrom (table.drop i) =
      .ok (List.replicate (r.start + r.len - i) PageDesc.free ++
        table.drop (r.start + r.len)) := by
  have bound := pool.bounded r member
  obtain ⟨low, high⟩ := Run.mem_cells.mp inside
  have middleLength : ((table.drop i).take (r.final - i)).length = r.final - i := by
    rw [List.length_take, List.length_drop, rep.length]
    simp only [Run.final]
    omega
  rw [drop_run rep member inside, releaseFrom_run _ _ _ ?_ rfl rfl, middleLength,
    show r.final - i + 1 = r.start + r.len - i by simp only [Run.final]; omega]
  intro p inMiddle
  obtain ⟨j, entry⟩ := List.mem_iff_getElem?.mp inMiddle
  rw [List.getElem?_take] at entry
  split at entry
  · rename_i small
    simp only [Run.final] at small
    rw [List.getElem?_drop, rep.live_desc r member (i + j)
      (Run.mem_cells.mpr (by omega)), if_neg (by simp only [Run.final]; omega),
      Option.some.injEq] at entry
    subst entry
    exact ⟨rfl, rfl⟩
  · exact absurd entry (by simp)

theorem releaseFrom_drop (rep : Represents table pool) {r : Run}
    (member : r ∈ pool.live) :
    releaseFrom (table.drop r.start) =
      .ok (List.replicate r.len PageDesc.free ++ table.drop (r.start + r.len)) := by
  have whole := releaseFrom_inside rep member (Run.start_mem (pool.nonempty r member))
  rwa [Nat.add_sub_cancel_left] at whole

theorem release_represents (rep : Represents table pool) {r : Run}
    (member : r ∈ pool.live) :
    Represents (table.take r.start ++
        (List.replicate r.len PageDesc.free ++ table.drop (r.start + r.len)))
      (pool.release r) := by
  have bound := pool.bounded r member
  have frontLength : (table.take r.start).length = r.start := by
    rw [List.length_take, rep.length]
    omega
  have entryAt : ∀ j, (table.take r.start ++
      (List.replicate r.len PageDesc.free ++ table.drop (r.start + r.len)))[j]? =
      if j ∈ r.cells then some PageDesc.free else table[j]? := by
    intro j
    by_cases front : j < r.start
    · rw [List.getElem?_append_left (by omega), List.getElem?_take_of_lt front,
        if_neg (by rw [Run.mem_cells]; omega)]
    · rw [List.getElem?_append_right (by omega), frontLength]
      by_cases middle : j < r.start + r.len
      · rw [List.getElem?_append_left (by rw [List.length_replicate]; omega),
          List.getElem?_replicate_of_lt (by omega),
          if_pos (Run.mem_cells.mpr (by omega))]
      · rw [List.getElem?_append_right (by rw [List.length_replicate]; omega),
          List.length_replicate, List.getElem?_drop,
          if_neg (by rw [Run.mem_cells]; omega)]
        congr 1
        omega
  refine ⟨?_, ?_, ?_⟩
  · simp only [List.length_append, frontLength, List.length_replicate,
      List.length_drop, rep.length]
    omega
  · intro s sMember j inside
    obtain ⟨different, sMember⟩ := Finset.mem_erase.mp sMember
    have outside : j ∉ r.cells := fun inR =>
      different (pool.run_unique sMember member inside inR)
    rw [entryAt, if_neg outside]
    exact rep.live_desc s sMember j inside
  · intro j small outside
    rw [entryAt]
    split
    · rfl
    · rename_i notInR
      refine rep.free_desc j small fun s sMember => ?_
      by_cases same : s = r
      · rwa [same]
      · exact outside s (Finset.mem_erase.mpr ⟨same, sMember⟩)

/-! ## The operations -/

section Operations
variable {h : Heap} {s : State h} {pool : Pool h.pages}

theorem init_represents (s : State h) :
    Represents (init s).table (Pool.empty : Pool h.pages) := by
  refine ⟨(init s).table_length, by simp [Pool.empty], ?_⟩
  intro i small _
  have inTable : i < s.table.length := by rwa [s.table_length]
  simp [init, List.getElem?_eq_getElem inTable]

theorem init_allocStart (s : State h) : (init s).allocStart = h.allocStart := by
  simp [init, Heap.allocStart, s.table_length]

theorem allocate_fits (rep : Represents s.table pool)
    (started : s.allocStart = h.allocStart) {k i : Nat} (pos : 0 < k)
    (fit : pool.IsFirstFit k i) :
    ∃ s', allocate s k = .ok (some (h.runAddr i), s') ∧
      s'.allocStart = h.allocStart ∧
      Represents s'.table (pool.take k i pos fit.1) := by
  have bound : i + k ≤ h.pages := fit.1.1
  obtain ⟨s', success, table, kept⟩ := allocate_of_found pos (rep.position_some fit)
  refine ⟨s', ?_, kept.trans started, ?_⟩
  · rw [success, started]
    change Except.ok (nonNull (h.runAddr i), s') = _
    rw [nonNull, if_neg (h.runAddr_ne_zero (by omega))]
  · rw [table]
    exact markRun_represents rep pos fit.1

theorem allocate_full (rep : Represents s.table pool) {k : Nat} (pos : 0 < k)
    (full : ∀ i, ¬ pool.Window k i) : allocate s k = .ok (none, s) :=
  allocate_of_missing pos (rep.position_none full)

theorem exists_firstFit {k i : Nat} (window : pool.Window k i) :
    ∃ j, pool.IsFirstFit k j := by
  classical
  have some : ∃ j, pool.Window k j := ⟨i, window⟩
  exact ⟨Nat.find some, Nat.find_spec some, fun j other => Nat.find_min' some other⟩

theorem deallocate_run (rep : Represents s.table pool)
    (started : s.allocStart = h.allocStart) {r : Run} (member : r ∈ pool.live)
    (below : h.runAddr r.start < h.heapEnd) :
    ∃ s', deallocate s (h.runAddr r.start) = .ok s' ∧
      s'.allocStart = h.allocStart ∧ Represents s'.table (pool.release r) := by
  obtain ⟨s', success, table, start⟩ :=
    deallocate_of_released started below (releaseFrom_drop rep member)
  refine ⟨s', success, start.trans started, ?_⟩
  rw [table]
  exact release_represents rep member

end Operations

/-! ## Sequences of calls -/

inductive Call where
  | init
  | allocate (pages : Nat)
  | deallocate (addr : Nat)
  deriving DecidableEq, Repr

/-- One call of the allocator; `init` and `deallocate` return nothing. -/
def call {h : Heap} (s : State h) : Call → Except Panic (Option Nat × State h)
  | .init => .ok (none, init s)
  | .allocate pages => allocate s pages
  | .deallocate addr => (deallocate s addr).map fun s' => (none, s')

/-- The runs live after a call, from the call and its return value. -/
def liveAfter (h : Heap) (live : Finset Run) : Call → Option Nat → Finset Run
  | .init, _ => ∅
  | .allocate pages, some addr =>
      insert ⟨(addr - h.allocStart) / pageSize, pages⟩ live
  | .allocate _, none => live
  | .deallocate addr, _ => live.filter fun r => h.runAddr r.start ≠ addr

/-- The calls the callers may make: a positive page count, the start of a live
run that passes the range assertion. -/
def Legal (h : Heap) (live : Finset Run) : Call → Prop
  | .init => True
  | .allocate pages => 0 < pages
  | .deallocate addr => addr < h.heapEnd ∧ ∃ r ∈ live, addr = h.runAddr r.start

instance legalDecidable (h : Heap) (live : Finset Run) :
    (c : Call) → Decidable (Legal h live c)
  | .init => inferInstanceAs (Decidable True)
  | .allocate pages => inferInstanceAs (Decidable (0 < pages))
  | .deallocate addr => inferInstanceAs
      (Decidable (addr < h.heapEnd ∧ ∃ r ∈ live, addr = h.runAddr r.start))

/-- The states and live runs a sequence of calls reaches. The first call is `init`,
on whatever bytes the heap holds. -/
inductive Trace (h : Heap) : State h → Finset Run → Prop where
  | boot (s : State h) : Trace h (init s) ∅
  | call {s s' : State h} {live : Finset Run} (c : Call) {result : Option Nat} :
      Trace h s live → Legal h live c → call s c = .ok (result, s') →
      Trace h s' (liveAfter h live c result)

/-- What every state of a trace satisfies. -/
structure Refines {h : Heap} (s : State h) (pool : Pool h.pages) : Prop where
  started : s.allocStart = h.allocStart
  table : Represents s.table pool

theorem allocate_cases {h : Heap} {s : State h} {pool : Pool h.pages}
    (refines : Refines s pool) {k : Nat} (pos : 0 < k) :
    (allocate s k = .ok (none, s) ∧ ∀ i, ¬ pool.Window k i) ∨
      ∃ i s', ∃ fit : pool.IsFirstFit k i,
        allocate s k = .ok (some (h.runAddr i), s') ∧ Refines s' (pool.take k i pos fit.1) := by
  by_cases room : ∃ i, pool.Window k i
  · obtain ⟨_, window⟩ := room
    obtain ⟨i, fit⟩ := exists_firstFit window
    obtain ⟨s', success, started, rep⟩ :=
      allocate_fits refines.table refines.started pos fit
    exact .inr ⟨i, s', fit, success, started, rep⟩
  · have full := not_exists.mp room
    exact .inl ⟨allocate_full refines.table pos full, full⟩

theorem zallocate_cases {h : Heap} {s : State h} {pool : Pool h.pages}
    (refines : Refines s pool) {k : Nat} (pos : 0 < k) :
    (zallocate k s = none ∧ ∀ i, ¬ pool.Window k i) ∨
      ∃ i s', ∃ fit : pool.IsFirstFit k i,
        zallocate k s = some (h.runAddr i, s') ∧ Refines s' (pool.take k i pos fit.1) := by
  rcases allocate_cases refines pos with ⟨full, none⟩ | ⟨i, s', fit, success, refines'⟩
  · exact .inl ⟨by rw [zallocate, full], none⟩
  · exact .inr ⟨i, s', fit, by rw [zallocate, success], refines'⟩


theorem deallocate_refines {h : Heap} {s : State h} {pool : Pool h.pages}
    (refines : Refines s pool) {r : Run} (member : r ∈ pool.live)
    (below : h.runAddr r.start < h.heapEnd) :
    ∃ s', deallocate s (h.runAddr r.start) = .ok s' ∧ Refines s' (pool.release r) := by
  obtain ⟨s', success, started, rep⟩ :=
    deallocate_run refines.table refines.started member below
  exact ⟨s', success, started, rep⟩

theorem deallocate_below {h : Heap} {s s' : State h} {addr : Nat}
    (success : deallocate s addr = .ok s') : addr < h.heapEnd := by
  unfold deallocate at success
  split at success
  · cases success
  · omega

theorem Represents.release_getElem? {n : Nat} {table table' : List PageDesc} {pool : Pool n}
    (rep : Represents table pool) {r : Run} (member : r ∈ pool.live)
    (rep' : Represents table' (pool.release r)) (j : Nat) :
    table'[j]? = if j ∈ r.cells then some PageDesc.free else table[j]? := by
  have free : ∀ i, i < n → (∀ q ∈ pool.live, q ≠ r → i ∉ q.cells) →
      table'[i]? = some PageDesc.free := by
    intro i small apart
    refine rep'.free_desc i small fun q inPool => ?_
    obtain ⟨different, live⟩ := Finset.mem_erase.mp inPool
    exact apart q live different
  by_cases small : j < n
  · by_cases inRun : j ∈ r.cells
    · rw [if_pos inRun]
      exact free j small fun q live different inside =>
        different (pool.run_unique live member inside inRun)
    · rw [if_neg inRun]
      by_cases taken : ∃ q ∈ pool.live, j ∈ q.cells
      · obtain ⟨q, live, inside⟩ := taken
        have different : q ≠ r := fun same => inRun (same ▸ inside)
        rw [rep.live_desc q live j inside,
          rep'.live_desc q (Finset.mem_erase.mpr ⟨different, live⟩) j inside]
      · rw [free j small fun q live _ inside => taken ⟨q, live, inside⟩,
          rep.free_desc j small fun q live inside => taken ⟨q, live, inside⟩]
  · have outside : j ∉ r.cells := by
      have bound := pool.bounded r member
      rw [Run.mem_cells]
      omega
    rw [if_neg outside, List.getElem?_eq_none (by rw [rep'.length]; omega),
      List.getElem?_eq_none (by rw [rep.length]; omega)]

/-- A taken page right in front of a live run carries the last-page bit. -/
theorem Represents.final_of_edge {n : Nat} {table : List PageDesc} {pool : Pool n}
    (rep : Represents table pool) {r : Run} (member : r ∈ pool.live) {i : Nat}
    (edge : i + 1 = r.start) {p : PageDesc} (entry : table[i]? = some p)
    (taken : p.isTaken = true) : p = PageDesc.final := by
  obtain ⟨q, live, inside⟩ := (rep.isTaken_iff entry).mp taken
  have outside : r.start ∉ q.cells := by
    intro inQ
    have same := pool.run_unique live member inQ (Run.start_mem (pool.nonempty r member))
    rw [same, Run.mem_cells] at inside
    omega
  have isFinal : i = q.final := by
    rw [Run.mem_cells] at inside outside
    rw [Run.final]
    omega
  have desc := rep.live_desc q live i inside
  rw [if_pos isFinal, entry] at desc
  exact Option.some.inj desc

theorem Represents.live_subset {n : Nat} {table : List PageDesc} {pool pool' : Pool n}
    (rep : Represents table pool) (rep' : Represents table pool') :
    pool.live ⊆ pool'.live := by
  have inner : PageDesc.inner ≠ PageDesc.final := by decide
  intro r member
  have pos := pool.nonempty r member
  have atStart := rep.live_desc r member r.start (Run.start_mem pos)
  have taken : (if r.start = r.final then PageDesc.final else PageDesc.inner).isTaken = true := by
    split <;> rfl
  obtain ⟨r', member', inside⟩ := (rep'.isTaken_iff atStart).mp taken
  have pos' := pool'.nonempty r' member'
  have bounds := Run.mem_cells.mp inside
  -- a run of the second pool that reaches over the start would hide the end of another run
  have sameStart : r'.start = r.start := by
    by_contra different
    have before : r.start - 1 ∈ r'.cells := Run.mem_cells.mpr (by omega)
    have desc := rep'.live_desc r' member' (r.start - 1) before
    rw [if_neg (by rw [Run.final]; omega)] at desc
    exact inner (rep.final_of_edge member (by omega) desc rfl)
  have sameFinal : r'.final = r.final := by
    rcases Nat.lt_trichotomy r'.final r.final with shorter | same | longer
    · have cell : r'.final ∈ r.cells := by
        rw [Run.mem_cells]
        simp only [Run.final] at shorter ⊢
        omega
      have here := rep.live_desc r member _ cell
      have there := rep'.live_desc r' member' _ (Run.final_mem pos')
      rw [if_neg (by omega)] at here
      rw [if_pos rfl, here, Option.some.injEq] at there
      exact absurd there inner
    · exact same
    · have cell : r.final ∈ r'.cells := by
        rw [Run.mem_cells]
        simp only [Run.final] at longer ⊢
        omega
      have here := rep.live_desc r member _ (Run.final_mem pos)
      have there := rep'.live_desc r' member' _ cell
      rw [if_pos rfl] at here
      rw [if_neg (by omega), here, Option.some.injEq] at there
      exact absurd there.symm inner
  have same : r' = r := by
    cases r with
    | mk start len =>
        cases r' with
        | mk start' len' =>
            simp only [Run.final] at sameFinal sameStart pos pos'
            rw [Run.mk.injEq]
            omega
  exact same ▸ member'

theorem Represents.live_unique {n : Nat} {table : List PageDesc} {pool pool' : Pool n}
    (rep : Represents table pool) (rep' : Represents table pool') : pool.live = pool'.live :=
  (rep.live_subset rep').antisymm (rep'.live_subset rep)

theorem Represents.table_unique {n : Nat} {table table' : List PageDesc} {pool pool' : Pool n}
    (rep : Represents table pool) (rep' : Represents table' pool')
    (same : pool.live = pool'.live) : table = table' := by
  apply List.ext_getElem?
  intro i
  by_cases small : i < n
  · by_cases taken : ∃ r ∈ pool.live, i ∈ r.cells
    · obtain ⟨r, live, inside⟩ := taken
      rw [rep.live_desc r live i inside, rep'.live_desc r (same ▸ live) i inside]
    · have free := not_exists.mp taken
      rw [rep.free_desc i small fun r live inside => free r ⟨live, inside⟩,
        rep'.free_desc i small fun r live inside => free r ⟨same ▸ live, inside⟩]
  · rw [List.getElem?_eq_none (by rw [rep.length]; omega),
      List.getElem?_eq_none (by rw [rep'.length]; omega)]

theorem filter_start_eq_erase {h : Heap} (pool : Pool h.pages) {r : Run}
    (member : r ∈ pool.live) :
    (pool.live.filter fun q => h.runAddr q.start ≠ h.runAddr r.start) =
      pool.live.erase r := by
  ext q
  rw [Finset.mem_filter, Finset.mem_erase]
  constructor
  · rintro ⟨inPool, apart⟩
    exact ⟨fun same => apart (by rw [same]), inPool⟩
  · rintro ⟨different, inPool⟩
    refine ⟨inPool, fun same => different ?_⟩
    exact pool.run_eq_of_start inPool member (h.runAddr_injective same)

theorem call_refines {h : Heap} {s : State h} {pool : Pool h.pages}
    (refines : Refines s pool) (c : Call) (legal : Legal h pool.live c) :
    ∃ result s', call s c = .ok (result, s') ∧
      ∃ pool' : Pool h.pages, pool'.live = liveAfter h pool.live c result ∧
        Refines s' pool' := by
  cases c with
  | init =>
      exact ⟨none, init s, rfl, Pool.empty, rfl, init_allocStart s, init_represents s⟩
  | allocate pages =>
      rcases allocate_cases refines legal with ⟨full, _⟩ | ⟨i, s', fit, success, refines'⟩
      · exact ⟨none, s, full, pool, rfl, refines⟩
      · refine ⟨_, s', success, pool.take pages i legal fit.1, ?_, refines'⟩
        simp only [liveAfter, Heap.runAddr, Nat.add_sub_cancel_left]
        rw [Nat.mul_div_cancel _ pageSize_pos]
        rfl
  | deallocate addr =>
      obtain ⟨below, r, member, rfl⟩ := legal
      obtain ⟨s', success, refines'⟩ := deallocate_refines refines member below
      refine ⟨none, s', ?_, pool.release r, ?_, refines'⟩
      · simp [call, success, Except.map]
      · simp only [liveAfter, Pool.release_live]
        rw [filter_start_eq_erase pool member]

theorem trace_refines {h : Heap} {s : State h} {live : Finset Run}
    (trace : Trace h s live) :
    ∃ pool : Pool h.pages, pool.live = live ∧ Refines s pool := by
  induction trace with
  | boot s => exact ⟨Pool.empty, rfl, init_allocStart s, init_represents s⟩
  | call c _ legal success ih =>
      obtain ⟨pool, rfl, refines⟩ := ih
      obtain ⟨result, s', answer, pool', live, refines'⟩ :=
        call_refines refines c legal
      obtain ⟨rfl, rfl⟩ := Prod.mk.inj (Except.ok.inj (success.symm.trans answer))
      exact ⟨pool', live, refines'⟩

/-- Along every sequence of calls the descriptor table holds exactly the live runs;
`allocate` answers with the lowest free window or, exactly when there is none, with
`None` and an unchanged table; `deallocate` of a live start below the heap end
trips no assertion and drops exactly that run. -/
theorem allocator_refines_first_fit (h : Heap) (s : State h) (live : Finset Run)
    (trace : Trace h s live) :
    ∃ pool : Pool h.pages, pool.live = live ∧ Represents s.table pool ∧
      (∀ (k : Nat) (pos : 0 < k),
        (∀ i (fit : pool.IsFirstFit k i), ∃ s',
          allocate s k = .ok (some (h.runAddr i), s') ∧
            Represents s'.table (pool.take k i pos fit.1)) ∧
        ((∃ i, pool.Window k i) → ∃ i, pool.IsFirstFit k i) ∧
        ((∃ s', allocate s k = .ok (none, s')) ↔ ∀ i, ¬ pool.Window k i) ∧
        (∀ s', allocate s k = .ok (none, s') → s' = s)) ∧
      ∀ r ∈ live, h.runAddr r.start < h.heapEnd → ∃ s',
        deallocate s (h.runAddr r.start) = .ok s' ∧
          Represents s'.table (pool.release r) := by
  obtain ⟨pool, rfl, refines⟩ := trace_refines trace
  refine ⟨pool, rfl, refines.table, fun k pos => ⟨?_, ?_, ?_, ?_⟩, ?_⟩
  · intro i fit
    obtain ⟨s', success, _, rep⟩ := allocate_fits refines.table refines.started pos fit
    exact ⟨s', success, rep⟩
  · rintro ⟨_, window⟩
    exact exists_firstFit window
  · constructor
    · rintro ⟨s', failed⟩ i window
      obtain ⟨j, fit⟩ := exists_firstFit window
      obtain ⟨s'', success, _⟩ := allocate_fits refines.table refines.started pos fit
      rw [success] at failed
      simp at failed
    · intro full
      exact ⟨s, allocate_full refines.table pos full⟩
  · intro s' failed
    rcases allocate_cases refines pos with ⟨full, _⟩ | ⟨i, s'', _, success, _⟩
    · rw [full] at failed
      exact (Prod.mk.inj (Except.ok.inj failed)).2.symm
    · rw [success] at failed
      simp at failed
  · intro r member below
    obtain ⟨s', success, refines'⟩ := deallocate_refines refines member below
    exact ⟨s', success, refines'.table⟩

def smallHeap : Heap := ⟨0x80000000, 3 * pageSize⟩

def rawState : State smallHeap := ⟨List.replicate 3 ⟨0xff⟩, 0, rfl⟩

theorem smallHeap_trace : ∃ s, Trace smallHeap s {⟨1, 1⟩} := by
  have first := Trace.call (.allocate 1) (Trace.boot rawState) (by decide) rfl
  have second := Trace.call (.allocate 1) first (by decide) rfl
  have third := Trace.call (.deallocate 0x80001000) second (by decide +kernel) rfl
  obtain ⟨s, live, trace, rfl⟩ :
      ∃ s live, Trace smallHeap s live ∧ live = {⟨1, 1⟩} :=
    ⟨_, _, third, by decide +kernel⟩
  exact ⟨s, trace⟩

theorem allocator_refines_first_fit_small_heap :
    ∃ s, Trace smallHeap s {⟨1, 1⟩} ∧
      ∃ pool : Pool smallHeap.pages, pool.live = {⟨1, 1⟩} ∧ Represents s.table pool := by
  obtain ⟨s, trace⟩ := smallHeap_trace
  obtain ⟨pool, live, rep, _⟩ := allocator_refines_first_fit smallHeap s _ trace
  exact ⟨s, trace, pool, live, rep⟩

end Vesper.Mm.PageFrame
