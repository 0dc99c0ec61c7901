import Vesper.Lib.Transition
import Vesper.Mm.PageFrameRefinement

/-!
# The heap as memory

The descriptor table of the page-frame allocator and the pages it hands out lie in one
memory.  Here the table is what the bytes at `_heap_start` say, `zallocate` clears a run word
by word, and the holders of live runs write to their own bytes in any order between the
calls.  Over it stands what the allocator is for: a byte of a live run reads as its holder
last wrote it, or as zero if the run was zeroed and not written since, and no call or write
of another holder changes that.
-/

set_option autoImplicit false

namespace Vesper.Mm.HeapMemory

open Vesper.Lib (System)
open Vesper.Lib.FirstFit
open Vesper.Mm.PageFrame

abbrev Bytes := Nat → BitVec 8

variable {h : Heap}

/-! ## The table in memory -/

def tableOf (h : Heap) (mem : Bytes) : List PageDesc :=
  (List.range h.pages).map fun i => ⟨mem (h.heapStart + i)⟩

theorem tableOf_length (h : Heap) (mem : Bytes) : (tableOf h mem).length = h.pages := by
  rw [tableOf, List.length_map, List.length_range]

def view (h : Heap) (mem : Bytes) (allocStart : Nat) : State h :=
  ⟨tableOf h mem, allocStart, tableOf_length h mem⟩

def storeTable (h : Heap) (table : List PageDesc) (mem : Bytes) : Bytes := fun a =>
  if h.heapStart ≤ a ∧ a < h.heapStart + h.pages then
    (table[a - h.heapStart]?.getD PageDesc.free).bits
  else mem a

def fillWords (mem : Bytes) (p : Nat) : Nat → Bytes
  | 0 => mem
  | k + 1 => fun a => if p + 8 * k ≤ a ∧ a < p + 8 * k + 8 then 0 else fillWords mem p k a

theorem tableOf_congr {mem mem' : Bytes} (same : ∀ a < h.heapStart + h.pages, mem' a = mem a) :
    tableOf h mem' = tableOf h mem := by
  refine List.map_congr_left fun i member => ?_
  rw [same _ (Nat.add_lt_add_left (List.mem_range.mp member) _)]

theorem view_congr {mem mem' : Bytes} (same : ∀ a < h.heapStart + h.pages, mem' a = mem a)
    (allocStart : Nat) : view h mem' allocStart = view h mem allocStart := by
  simp only [view, tableOf_congr same]

theorem tableOf_storeTable {table : List PageDesc} (length : table.length = h.pages)
    (mem : Bytes) : tableOf h (storeTable h table mem) = table := by
  refine List.ext_getElem ((tableOf_length h _).trans length.symm) fun i bound bound' => ?_
  rw [tableOf_length] at bound
  simp only [tableOf, List.getElem_map, List.getElem_range, storeTable]
  rw [if_pos ⟨Nat.le_add_right _ _, Nat.add_lt_add_left bound _⟩, Nat.add_sub_cancel_left,
    List.getElem?_eq_getElem bound', Option.getD_some]

theorem view_storeTable (st : State h) (mem : Bytes) :
    view h (storeTable h st.table mem) st.allocStart = st := by
  obtain ⟨table, allocStart, length⟩ := st
  simp only [view, tableOf_storeTable length]

theorem storeTable_data (table : List PageDesc) (mem : Bytes) {a : Nat}
    (data : h.heapStart + h.pages ≤ a) : storeTable h table mem a = mem a :=
  if_neg fun inside => absurd inside.2 (not_lt.mpr data)

theorem fillWords_apply (mem : Bytes) (p words a : Nat) :
    fillWords mem p words a = if p ≤ a ∧ a < p + 8 * words then 0 else mem a := by
  induction words with
  | zero =>
      rw [if_neg (by omega)]
      rfl
  | succ k ih =>
      rw [fillWords]
      dsimp only
      rw [ih]
      split_ifs with word before all all
      · rfl
      · omega
      · rfl
      · omega
      · omega
      · rfl

/-! ## The holders -/

def Owns (h : Heap) (r : Run) (a : Nat) : Prop :=
  h.allocStart ≤ a ∧ (a - h.allocStart) / pageSize ∈ r.cells

instance ownsDecidable (h : Heap) (r : Run) (a : Nat) : Decidable (Owns h r a) :=
  inferInstanceAs (Decidable (h.allocStart ≤ a ∧ (a - h.allocStart) / pageSize ∈ r.cells))

theorem Owns.data {r : Run} {a : Nat} (owns : Owns h r a) : h.heapStart + h.pages ≤ a :=
  h.table_le_allocStart.trans owns.1

theorem owns_iff {i k a : Nat} :
    Owns h ⟨i, k⟩ a ↔ h.runAddr i ≤ a ∧ a < h.runAddr i + pageSize * k := by
  have pos := pageSize_pos
  rw [Owns, Run.mem_cells, Nat.le_div_iff_mul_le pos, Nat.div_lt_iff_lt_mul pos, Heap.runAddr,
    Nat.add_mul, Nat.mul_comm k]
  dsimp only
  omega

/-- `expected` is what the holders rely on: the value of each byte of a live run that was
written or zeroed since the run was handed out. -/
structure Sys (h : Heap) where
  mem : Bytes
  allocStart : Nat
  live : Finset Run
  expected : Nat → Option (BitVec 8)

inductive Action where
  | call (c : Call)
  | zallocate (pages : Nat)
  /-- the holder of a run writes a byte of it -/
  | write (a : Nat) (v : BitVec 8)

def kept (h : Heap) (live live' : Finset Run) (expected : Nat → Option (BitVec 8)) :
    Nat → Option (BitVec 8) := fun a =>
  if ∃ r ∈ live ∩ live', Owns h r a then expected a else none

def Sys.after (s : Sys h) (st : State h) (c : Call) (result : Option Nat) : Sys h where
  mem := storeTable h st.table s.mem
  allocStart := st.allocStart
  live := liveAfter h s.live c result
  expected := kept h s.live (liveAfter h s.live c result) s.expected

def Sys.zeroed (s : Sys h) (p pages : Nat) : Sys h :=
  { s with
    mem := fillWords s.mem p (pageSize * pages / 8)
    expected := fun a => if p ≤ a ∧ a < p + pageSize * pages then some 0 else s.expected a }

def Sys.written (s : Sys h) (a : Nat) (v : BitVec 8) : Sys h :=
  { s with
    mem := Function.update s.mem a v
    expected := Function.update s.expected a (some v) }

/-- What the holders may do: legal calls, and writes to bytes of a live run. -/
def Permitted (s : Sys h) : Action → Prop
  | .call c => Legal h s.live c
  | .zallocate pages => 0 < pages
  | .write a _ => ∃ r ∈ s.live, Owns h r a

instance permittedDecidable (s : Sys h) : (a : Action) → Decidable (Permitted s a)
  | .call c => inferInstanceAs (Decidable (Legal h s.live c))
  | .zallocate pages => inferInstanceAs (Decidable (0 < pages))
  | .write a _ => inferInstanceAs (Decidable (∃ r ∈ s.live, Owns h r a))

/-- A panic of the allocator has no result. -/
def Sys.perform (s : Sys h) : Action → Option (Sys h)
  | .call c =>
      match call (view h s.mem s.allocStart) c with
      | .ok (result, st) => some (s.after st c result)
      | .error _ => none
  | .zallocate pages =>
      match allocate (view h s.mem s.allocStart) pages with
      | .ok (some p, st) => some ((s.after st (.allocate pages) (some p)).zeroed p pages)
      | .ok (none, st) => some (s.after st (.allocate pages) none)
      | .error _ => none
  | .write a v => some (s.written a v)

def Sys.step (s : Sys h) (a : Action) : Option (Sys h) :=
  if Permitted s a then s.perform a else none

def boot (h : Heap) (mem : Bytes) : Sys h :=
  let st := PageFrame.init (view h mem 0)
  ⟨storeTable h st.table mem, st.allocStart, ∅, fun _ => none⟩

def heapMemory (h : Heap) : System where
  State := Sys h
  Action := Action
  init s := ∃ mem, s = boot h mem
  step := Sys.step

/-! ## The invariant -/

/-- The bytes of the table stand for the live runs and the other bytes keep their promises. -/
structure Inv (s : Sys h) : Prop where
  table : ∃ pool : Pool h.pages, pool.live = s.live ∧ Refines (view h s.mem s.allocStart) pool
  held : ∀ a v, s.expected a = some v → (∃ r ∈ s.live, Owns h r a) ∧ s.mem a = v

theorem inv_boot (mem : Bytes) : Inv (boot h mem) := by
  constructor
  · refine ⟨Pool.empty, rfl, ?_⟩
    change Refines (view h (storeTable h (PageFrame.init (view h mem 0)).table mem)
      (PageFrame.init (view h mem 0)).allocStart) Pool.empty
    rw [view_storeTable]
    exact ⟨init_allocStart _, init_represents _⟩
  · intro a v none
    cases none

variable {s : Sys h}

/-- After a call: the table is the one the call left, and a byte still expected lies in a run
that stayed. -/
theorem Inv.after (inv : Inv s) {st : State h} {c : Call} {result : Option Nat}
    {pool : Pool h.pages} (live : pool.live = liveAfter h s.live c result)
    (refines : Refines st pool) : Inv (s.after st c result) := by
  constructor
  · refine ⟨pool, live, ?_⟩
    change Refines (view h (storeTable h st.table s.mem) st.allocStart) pool
    rw [view_storeTable]
    exact refines
  · intro a v expects
    have split : (∃ r ∈ s.live ∩ liveAfter h s.live c result, Owns h r a) ∧
        s.expected a = some v := by
      change (if _ then _ else _) = _ at expects
      split_ifs at expects with stays
      exact ⟨stays, expects⟩
    obtain ⟨⟨r, member, owns⟩, before⟩ := split
    refine ⟨⟨r, (Finset.mem_inter.mp member).2, owns⟩, ?_⟩
    change storeTable h st.table s.mem a = v
    rw [storeTable_data _ _ owns.data]
    exact (inv.held a v before).2

theorem Inv.zeroed (inv : Inv s) {i pages : Nat} (member : ⟨i, pages⟩ ∈ s.live) :
    Inv (s.zeroed (h.runAddr i) pages) := by
  have whole : 8 * (pageSize * pages / 8) = pageSize * pages := by
    rw [pageSize_eq]
    omega
  obtain ⟨pool, live, refines⟩ := inv.table
  constructor
  · refine ⟨pool, live, ?_⟩
    have same : ∀ a < h.heapStart + h.pages,
        fillWords s.mem (h.runAddr i) (pageSize * pages / 8) a = s.mem a := by
      intro a low
      have data := h.table_le_allocStart
      rw [fillWords_apply, if_neg]
      rw [Heap.runAddr]
      omega
    change Refines (view h (fillWords s.mem _ _) s.allocStart) pool
    rw [view_congr same]
    exact refines
  · intro a v expects
    change (if _ then _ else _) = _ at expects
    change (∃ r ∈ s.live, Owns h r a) ∧ fillWords s.mem _ _ a = v
    rw [fillWords_apply, whole]
    split_ifs at expects with inside
    · rw [if_pos inside]
      exact ⟨⟨_, member, owns_iff.mpr inside⟩, Option.some.inj expects⟩
    · rw [if_neg inside]
      exact inv.held a v expects

theorem Inv.written (inv : Inv s) {a : Nat} (v : BitVec 8) (own : ∃ r ∈ s.live, Owns h r a) :
    Inv (s.written a v) := by
  obtain ⟨r, member, owns⟩ := own
  obtain ⟨pool, live, refines⟩ := inv.table
  constructor
  · refine ⟨pool, live, ?_⟩
    have same : ∀ b < h.heapStart + h.pages, Function.update s.mem a v b = s.mem b := by
      intro b low
      have data := owns.data
      exact Function.update_of_ne (by omega) _ _
    change Refines (view h (Function.update s.mem a v) s.allocStart) pool
    rw [view_congr same]
    exact refines
  · intro b w expects
    change Function.update s.expected a (some v) b = some w at expects
    change _ ∧ Function.update s.mem a v b = w
    by_cases same : b = a
    · subst same
      rw [Function.update_self] at expects ⊢
      exact ⟨⟨r, member, owns⟩, Option.some.inj expects⟩
    · rw [Function.update_of_ne same] at expects ⊢
      exact inv.held b w expects

theorem Inv.perform (inv : Inv s) {a : Action} (permitted : Permitted s a) :
    ∃ s', s.perform a = some s' ∧ Inv s' := by
  obtain ⟨pool, live, refines⟩ := inv.table
  cases a with
  | call c =>
      have legal : Legal h pool.live c := live ▸ permitted
      obtain ⟨result, st, answered, pool', live', refines'⟩ := call_refines refines c legal
      refine ⟨s.after st c result, by rw [Sys.perform, answered], inv.after ?_ refines'⟩
      rw [live', live]
  | zallocate pages =>
      have pos : 0 < pages := permitted
      rcases allocate_cases refines pos with ⟨full, _⟩ | ⟨i, st, fit, found, refines'⟩
      · exact ⟨_, by rw [Sys.perform, full], inv.after live refines⟩
      · have live' : (pool.take pages i pos fit.1).live =
            liveAfter h s.live (.allocate pages) (some (h.runAddr i)) := by
          rw [Pool.take_live, liveAfter, live, Heap.runAddr, Nat.add_sub_cancel_left,
            Nat.mul_div_cancel _ pageSize_pos]
        refine ⟨_, by rw [Sys.perform, found], (inv.after live' refines').zeroed ?_⟩
        change ⟨i, pages⟩ ∈ liveAfter h s.live (.allocate pages) (some (h.runAddr i))
        rw [← live', Pool.take_live]
        exact Finset.mem_insert_self _ _
  | write a v => exact ⟨_, rfl, inv.written v permitted⟩

theorem Inv.step (inv : Inv s) {a : Action} {s' : Sys h} (taken : s.step a = some s') :
    Inv s' := by
  rw [Sys.step] at taken
  split_ifs at taken with permitted
  obtain ⟨next, performed, kept⟩ := inv.perform permitted
  rw [performed] at taken
  cases taken
  exact kept

theorem reach_inv (reached : (heapMemory h).Reach s) : Inv s := by
  refine reached.invariant ?_ ?_
  · intro s initial
    obtain ⟨mem, rfl⟩ := initial
    exact inv_boot mem
  · intro s a s' inv taken
    exact inv.step taken

/-- Along any sequence of calls and of writes by the holders of live runs, on any initial
memory: the bytes of the table stand for exactly the live runs, every byte of a live run has
the value its holder last gave it, and nothing permitted panics. -/
theorem heap_memory_isolated (h : Heap) (s : Sys h) (reached : (heapMemory h).Reach s) :
    (∃ pool : Pool h.pages, pool.live = s.live ∧ Represents (tableOf h s.mem) pool) ∧
      (∀ a v, s.expected a = some v → (∃ r ∈ s.live, Owns h r a) ∧ s.mem a = v) ∧
      ∀ a, Permitted s a → ∃ s', s.step a = some s' := by
  have inv := reach_inv reached
  obtain ⟨pool, live, refines⟩ := inv.table
  refine ⟨⟨pool, live, refines.table⟩, inv.held, fun a permitted => ?_⟩
  obtain ⟨s', performed, _⟩ := inv.perform permitted
  exact ⟨s', (if_pos permitted).trans performed⟩

def smallRun : Option (Sys smallHeap) :=
  (heapMemory smallHeap).run (boot smallHeap fun _ => 0xff)
    [.zallocate 1, .call (.allocate 1), .write (smallHeap.runAddr 1) 7]

theorem heap_memory_isolated_small :
    ∃ s, (heapMemory smallHeap).Reach s ∧
      s.mem (smallHeap.runAddr 0) = 0 ∧ s.mem (smallHeap.runAddr 1) = 7 := by
  have start : (heapMemory smallHeap).Reach (boot smallHeap fun _ => 0xff) := .start ⟨_, rfl⟩
  have known : smallRun.map (fun s => (s.expected (smallHeap.runAddr 0),
      s.expected (smallHeap.runAddr 1))) = some (some 0, some 7) := by
    decide +kernel
  obtain ⟨s, ends, expects⟩ := Option.map_eq_some_iff.mp known
  have reached := start.run ends
  have held := (heap_memory_isolated smallHeap s reached).2.1
  obtain ⟨first, second⟩ := Prod.mk.inj expects
  exact ⟨s, reached, (held _ _ first).2, (held _ _ second).2⟩

end Vesper.Mm.HeapMemory
