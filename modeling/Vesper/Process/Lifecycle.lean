import Vesper.Lib.Transition
import Vesper.Mm.PageFrameRefinement
import Vesper.Process.Table

/-!
# Processes over their lifetime

The process table and the page-frame allocator as one system: `spawn_kernel`, the timer's
`schedule` and the exit syscall (`exit_current`, then `schedule`; without a process left
the hart parks for good).  Every stack a spawn draws stays allocated, so a run draws at most
half as many stacks as the heap has pages.  The PID counter advances with each of them:
PIDs repeat exactly on heaps that hold `2 ^ 16` stacks, and the stacks allocated are those
of the processes in the table exactly as long as none was dropped.
-/

set_option autoImplicit false

namespace Vesper.Lifecycle

open Vesper.Lib
open Vesper.Lib.FirstFit
open Vesper.Mm.PageFrame (Heap Refines Represents)
open Vesper.Scheduler

variable {h : Heap}

/-! ## The system -/

def zallocate (pages : Mm.PageFrame.State h) : Option (Nat × Mm.PageFrame.State h) :=
  Mm.PageFrame.zallocate stackPages pages

/-- No step reads the last two fields: `drawn` counts the stacks allocated so far, `exited`
the processes dropped. -/
structure Sys (h : Heap) where
  kernel : Kernel
  pages : Mm.PageFrame.State h
  parked : Bool
  drawn : Nat
  exited : Nat

def Sys.table (s : Sys h) : Table := s.kernel.table

inductive Action where
  | spawn (entry : BitVec 64)
  | tick (epc : BitVec 64)
  | exit (epc : BitVec 64)
  deriving DecidableEq, Repr

def step (s : Sys h) (a : Action) : Option (Sys h) :=
  if s.parked then none
  else
    match a with
    | .spawn entry =>
        let (_, kernel, pages) := spawnKernel zallocate entry s.kernel s.pages
        some { s with
          kernel := kernel
          pages := pages
          drawn := s.drawn + if (zallocate s.pages).isSome then 1 else 0 }
    | .tick epc =>
        some { s with kernel := { s.kernel with table := (schedule epc s.table).2 } }
    | .exit epc =>
        let (pid, table) := exitCurrent s.table
        let (next, table') := schedule epc table
        some { s with
          kernel := { s.kernel with table := table' }
          parked := next.isNone
          exited := s.exited + if pid.isSome then 1 else 0 }

def booted (start : Mm.PageFrame.State h) : Sys h := ⟨⟨Table.empty, 1⟩, start, false, 0, 0⟩

def lifecycle (start : Mm.PageFrame.State h) : System where
  State := Sys h
  Action := Action
  init s := s = booted start
  step := step

theorem reach_step {start : Mm.PageFrame.State h} {s s' : Sys h}
    (reached : (lifecycle start).Reach s) (a : Action) (taken : step s a = some s') :
    (lifecycle start).Reach s' :=
  System.Reach.next a reached taken

/-! ## What the operations do to the table -/

section Tables
variable {t t' : Table}

/-- Every process of `t'` is in `t`, in the same slot and with the same stack and PID. -/
def Keeps (t t' : Table) : Prop :=
  ∀ i p', t'.slots i = some p' → ∃ p, t.slots i = some p ∧ p'.stack = p.stack ∧ p'.pid = p.pid

theorem Keeps.trans {t'' : Table} (first : Keeps t t') (second : Keeps t' t'') :
    Keeps t t'' := by
  intro i p'' occupied
  obtain ⟨p', occupied', stack', pid'⟩ := second i p'' occupied
  obtain ⟨p, occupied, stack, pid⟩ := first i p' occupied'
  exact ⟨p, occupied, stack'.trans stack, pid'.trans pid⟩

theorem stash_slots (wf : t.WellFormed) (epc : BitVec 64) (i : Slot) :
    (t.stash epc).slots i = t.slots i ∨
      ∃ p, t.slots i = some p ∧ (t.stash epc).slots i = some { p with pc := epc } := by
  cases chosen : t.current with
  | none => exact .inl (by rw [Table.stash_of_idle epc chosen])
  | some c =>
      obtain ⟨p, occupied⟩ := Option.isSome_iff_exists.mp (wf.current c chosen)
      by_cases same : i = c
      · subst same
        refine .inr ⟨p, occupied, ?_⟩
        rw [Table.stash_of_current wf epc chosen occupied, Table.setSlot_same]
      · refine .inl (Table.stash_other epc ?_)
        rw [chosen]
        exact fun here => same (Option.some.inj here).symm

theorem schedule_slots (wf : t.WellFormed) (epc : BitVec 64) (i : Slot) :
    (schedule epc t).2.slots i = (t.stash epc).slots i := by
  rcases schedule_cases wf epc with ⟨_, _, _, result⟩ | ⟨vacant, result⟩
  · rw [result]
  · rw [result]
    rcases stash_slots wf epc i with same | ⟨p, occupied, _⟩
    · exact same.symm
    · rw [vacant i] at occupied
      cases occupied

theorem schedule_keeps (wf : t.WellFormed) (epc : BitVec 64) :
    Keeps t (schedule epc t).2 := by
  intro i p' occupied
  rw [schedule_slots wf] at occupied
  rcases stash_slots wf epc i with same | ⟨p, before, after⟩
  · exact ⟨p', same ▸ occupied, rfl, rfl⟩
  · rw [after, Option.some.injEq] at occupied
    exact ⟨p, before, by rw [← occupied], by rw [← occupied]⟩

theorem schedule_isSome (wf : t.WellFormed) (epc : BitVec 64) (i : Slot) :
    ((schedule epc t).2.slots i).isSome = (t.slots i).isSome := by
  rw [schedule_slots wf]
  rcases stash_slots wf epc i with same | ⟨p, before, after⟩
  · rw [same]
  · rw [before, after]
    rfl

theorem exitCurrent_keeps (t : Table) : Keeps t (exitCurrent t).2 := by
  intro i p' occupied
  rcases exitCurrent_slots t i with same | vacant
  · exact ⟨p', same ▸ occupied, rfl, rfl⟩
  · rw [vacant] at occupied
    cases occupied

def occupied (t : Table) : Finset Slot := Finset.univ.filter fun i => (t.slots i).isSome

theorem mem_occupied {i : Slot} : i ∈ occupied t ↔ (t.slots i).isSome = true := by
  simp [occupied]

theorem occupied_schedule (wf : t.WellFormed) (epc : BitVec 64) :
    occupied (schedule epc t).2 = occupied t := by
  ext i
  rw [mem_occupied, mem_occupied, schedule_isSome wf]

theorem occupied_exitCurrent (wf : t.WellFormed) :
    (occupied (exitCurrent t).2).card + (if (exitCurrent t).1.isSome then 1 else 0) =
      (occupied t).card := by
  cases chosen : t.current with
  | none => simp [exitCurrent, chosen]
  | some c =>
      obtain ⟨p, present⟩ := Option.isSome_iff_exists.mp (wf.current c chosen)
      have member : c ∈ occupied t := by
        rw [mem_occupied, present]
        rfl
      have rest : occupied (exitCurrent t).2 = (occupied t).erase c := by
        rw [exitCurrent_of_current chosen present]
        ext i
        rw [Finset.mem_erase, mem_occupied, mem_occupied]
        by_cases same : i = c
        · subst same
          simp
        · simp [Table.setSlot_other t none same, same]
      rw [rest, exitCurrent_of_current chosen present]
      exact Finset.card_erase_add_one member

theorem freeSlot_vacant {i : Slot} (found : t.freeSlot = some i) : t.slots i = none := by
  have vacant := List.find?_some found
  simpa using vacant

theorem occupied_setSlot {i : Slot} (vacant : t.slots i = none) (p : Process) :
    (occupied (t.setSlot i (some p))).card = (occupied t).card + 1 := by
  have grown : occupied (t.setSlot i (some p)) = insert i (occupied t) := by
    ext j
    rw [Finset.mem_insert, mem_occupied, mem_occupied]
    by_cases same : j = i
    · subst same
      simp
    · simp [Table.setSlot_other t (some p) same, same]
  have fresh : i ∉ occupied t := by
    rw [mem_occupied, vacant]
    simp
  rw [grown, Finset.card_insert_of_notMem fresh]

end Tables

theorem step_cases {s s' : Sys h} {a : Action} (taken : step s a = some s') :
    (∃ entry, a = .spawn entry ∧ zallocate s.pages = none ∧ s' = s) ∨
    (∃ entry stack pages, a = .spawn entry ∧ zallocate s.pages = some (stack, pages) ∧
      s.table.freeSlot = none ∧
      s' = { s with
        kernel := { s.kernel with nextPid := s.kernel.nextPid + 1 }
        pages := pages
        drawn := s.drawn + 1 }) ∨
    (∃ entry stack pages i, a = .spawn entry ∧ zallocate s.pages = some (stack, pages) ∧
      s.table.freeSlot = some i ∧
      s' = { s with
        kernel := ⟨s.table.setSlot i (some ⟨stack, entry, s.kernel.nextPid, .running⟩),
          s.kernel.nextPid + 1⟩
        pages := pages
        drawn := s.drawn + 1 }) ∨
    (∃ epc, a = .tick epc ∧
      s' = { s with kernel := { s.kernel with table := (schedule epc s.table).2 } }) ∨
    ∃ epc, a = .exit epc ∧
      s' = { s with
        kernel := { s.kernel with table := (schedule epc (exitCurrent s.table).2).2 }
        parked := (schedule epc (exitCurrent s.table).2).1.isNone
        exited := s.exited + if (exitCurrent s.table).1.isSome then 1 else 0 } := by
  unfold step at taken
  split at taken
  · cases taken
  · cases a with
    | spawn entry =>
        simp only [spawnKernel] at taken
        cases call : zallocate s.pages with
        | none =>
            rw [call] at taken
            cases taken
            exact .inl ⟨entry, rfl, rfl, rfl⟩
        | some answer =>
            obtain ⟨stack, pages⟩ := answer
            rw [call] at taken
            cases found : s.table.freeSlot with
            | none =>
                rw [Sys.table] at found
                simp only [found] at taken
                cases taken
                exact .inr (.inl ⟨entry, stack, pages, rfl, rfl, rfl, rfl⟩)
            | some i =>
                rw [Sys.table] at found
                simp only [found] at taken
                cases taken
                exact .inr (.inr (.inl ⟨entry, stack, pages, i, rfl, rfl, rfl, rfl⟩))
    | tick epc =>
        cases taken
        exact .inr (.inr (.inr (.inl ⟨epc, rfl, rfl⟩)))
    | exit epc =>
        cases taken
        exact .inr (.inr (.inr (.inr ⟨epc, rfl, rfl⟩)))

theorem step_wellFormed {s s' : Sys h} (wf : s.table.WellFormed) {a : Action}
    (taken : step s a = some s') : s'.table.WellFormed := by
  rcases step_cases taken with ⟨entry, _, _, rfl⟩ | ⟨entry, stack, pages, _, _, _, rfl⟩ |
      ⟨entry, stack, pages, i, _, _, _, rfl⟩ | ⟨epc, _, rfl⟩ | ⟨epc, _, rfl⟩
  · exact wf
  · exact wf
  · exact Table.setSlot_wellFormed wf i rfl
  · exact schedule_wellFormed wf epc
  · exact schedule_wellFormed (exitCurrent_wellFormed wf) epc

/-! ## The stacks -/

/-- The allocator holds the runs `base` of other owners and the stacks drawn so far; each
process has one of the stacks to itself. -/
structure Stacks (base : Finset Run) (s : Sys h) (pool : Pool h.pages) (runs : Finset Run) :
    Prop where
  refines : Refines s.pages pool
  live : pool.live = base ∪ runs
  apart : Disjoint base runs
  length : ∀ r ∈ runs, r.len = stackPages
  drawn : runs.card = s.drawn
  nextPid : s.kernel.nextPid = BitVec.ofNat 16 (1 + s.drawn)
  owned : ∀ i p, s.table.slots i = some p → ∃ r ∈ runs, p.stack = h.runAddr r.start
  unshared : ∀ i j p q, s.table.slots i = some p → s.table.slots j = some q →
    p.stack = q.stack → i = j

structure Inv (base : Finset Run) (s : Sys h) : Prop where
  wellFormed : s.table.WellFormed
  accounts : ∃ pool runs, Stacks base s pool runs

section Invariant
variable {base : Finset Run} {s s' : Sys h}

theorem Stacks.of_keeps {pool : Pool h.pages} {runs : Finset Run}
    (held : Stacks base s pool runs) (keeps : Keeps s.table s'.table)
    (pages : s'.pages = s.pages) (pid : s'.kernel.nextPid = s.kernel.nextPid)
    (drawn : s'.drawn = s.drawn) : Stacks base s' pool runs where
  refines := pages ▸ held.refines
  live := held.live
  apart := held.apart
  length := held.length
  drawn := held.drawn.trans drawn.symm
  nextPid := by rw [pid, drawn, held.nextPid]
  owned := by
    intro i p' present
    obtain ⟨p, before, stack, _⟩ := keeps i p' present
    obtain ⟨r, member, same⟩ := held.owned i p before
    exact ⟨r, member, stack.trans same⟩
  unshared := by
    intro i j p' q' left right same
    obtain ⟨p, leftBefore, leftStack, _⟩ := keeps i p' left
    obtain ⟨q, rightBefore, rightStack, _⟩ := keeps j q' right
    exact held.unshared i j p q leftBefore rightBefore
      (leftStack.symm.trans (same.trans rightStack))

theorem zallocate_spec {pool : Pool h.pages} {pages pages' : Mm.PageFrame.State h} {stack : Nat}
    (refines : Refines pages pool) (call : zallocate pages = some (stack, pages')) :
    ∃ i, ∃ fit : pool.IsFirstFit stackPages i, stack = h.runAddr i ∧
      Refines pages' (pool.take stackPages i (by decide) fit.1) ∧
      (⟨i, stackPages⟩ : Run) ∉ pool.live := by
  unfold zallocate at call
  rcases Mm.PageFrame.zallocate_cases refines (show 0 < stackPages by decide) with
    ⟨full, _⟩ | ⟨i, mid, fit, success, refines'⟩
  · rw [full] at call
    cases call
  · rw [success] at call
    cases call
    refine ⟨i, fit, rfl, refines', fun member => ?_⟩
    have cell := Run.start_mem (show 0 < (Run.mk i stackPages).len from Nat.two_pos)
    exact Finset.disjoint_left.mp (fit.1.2 _ member) cell cell

/-- Both outcomes of a spawn that gets a stack: it is added, the PID drawn, and the process
put into a slot or not. -/
theorem Stacks.draw {pool : Pool h.pages} {runs : Finset Run}
    (held : Stacks base s pool runs) {stack : Nat} {pages : Mm.PageFrame.State h}
    (call : zallocate s.pages = some (stack, pages))
    (pages' : s'.pages = pages) (pid : s'.kernel.nextPid = s.kernel.nextPid + 1)
    (drawn : s'.drawn = s.drawn + 1) (slot : Slot)
    (slots : ∀ i p, s'.table.slots i = some p →
      s.table.slots i = some p ∨ (i = slot ∧ p.stack = stack)) :
    ∃ pool' runs', Stacks base s' pool' runs' := by
  obtain ⟨index, fit, address, refines', fresh⟩ := zallocate_spec held.refines call
  have notStack : (⟨index, stackPages⟩ : Run) ∉ runs := fun member =>
    fresh (held.live ▸ Finset.mem_union_right _ member)
  have notBase : (⟨index, stackPages⟩ : Run) ∉ base := fun member =>
    fresh (held.live ▸ Finset.mem_union_left _ member)
  have newAddress : ∀ i p, s.table.slots i = some p → p.stack ≠ stack := by
    intro i p present same
    obtain ⟨r, member, owner⟩ := held.owned i p present
    rw [owner, address] at same
    have inPool : r ∈ (pool.take stackPages index (by decide) fit.1).live :=
      Finset.mem_insert_of_mem (held.live ▸ Finset.mem_union_right _ member)
    have sameRun := Pool.run_eq_of_start _ inPool (Finset.mem_insert_self _ _)
      (h.runAddr_injective same)
    exact notStack (sameRun ▸ member)
  refine ⟨_, insert ⟨index, stackPages⟩ runs, pages' ▸ refines', ?_, ?_, ?_, ?_, ?_, ?_, ?_⟩
  · rw [Pool.take_live, held.live, Finset.union_insert]
  · rw [Finset.disjoint_insert_right]
    exact ⟨notBase, held.apart⟩
  · intro r member
    rcases Finset.mem_insert.mp member with rfl | member
    · rfl
    · exact held.length r member
  · rw [Finset.card_insert_of_notMem notStack, held.drawn, drawn]
  · rw [pid, drawn, held.nextPid, ← Nat.add_assoc, BitVec.ofNat_add (1 + s.drawn) 1]
    rfl
  · intro i p present
    rcases slots i p present with old | ⟨_, here⟩
    · obtain ⟨r, member, same⟩ := held.owned i p old
      exact ⟨r, Finset.mem_insert_of_mem member, same⟩
    · exact ⟨_, Finset.mem_insert_self _ _, here.trans address⟩
  · intro i j p q left right same
    rcases slots i p left with oldLeft | ⟨rfl, here⟩
    · rcases slots j q right with oldRight | ⟨_, there⟩
      · exact held.unshared i j p q oldLeft oldRight same
      · exact absurd (same.trans there) (newAddress i p oldLeft)
    · rcases slots j q right with oldRight | ⟨rfl, _⟩
      · exact absurd (same.symm.trans here) (newAddress j q oldRight)
      · rfl

theorem inv_step (inv : Inv base s) {a : Action} (taken : step s a = some s') : Inv base s' := by
  refine ⟨step_wellFormed inv.wellFormed taken, ?_⟩
  obtain ⟨pool, runs, held⟩ := inv.accounts
  rcases step_cases taken with ⟨entry, _, _, rfl⟩ | ⟨entry, stack, pages, _, call, _, rfl⟩ |
      ⟨entry, stack, pages, i, _, call, found, rfl⟩ | ⟨epc, _, rfl⟩ | ⟨epc, _, rfl⟩
  · exact inv.accounts
  · exact held.draw call rfl rfl rfl firstSlot fun i p present => .inl present
  · refine held.draw call rfl rfl rfl i fun j p present => ?_
    change (s.table.setSlot i _).slots j = some p at present
    by_cases same : j = i
    · subst same
      rw [Table.setSlot_same, Option.some.injEq] at present
      exact .inr ⟨rfl, by rw [← present]⟩
    · rw [Table.setSlot_other _ _ same] at present
      exact .inl present
  · exact ⟨pool, runs, held.of_keeps (schedule_keeps inv.wellFormed epc) rfl rfl rfl⟩
  · have after := exitCurrent_wellFormed inv.wellFormed
    exact ⟨pool, runs,
      held.of_keeps ((exitCurrent_keeps _).trans (schedule_keeps after epc)) rfl rfl rfl⟩

theorem booted_inv {start : Mm.PageFrame.State h} {pool : Pool h.pages}
    (refines : Refines start pool) : Inv pool.live (booted start) := by
  refine ⟨Table.empty_wellFormed, pool, ∅, refines, (Finset.union_empty _).symm,
    Finset.disjoint_empty_right _, ?_, rfl, rfl, ?_, ?_⟩
  · intro r member
    cases member
  · intro i p present
    cases present
  · intro i j p q present
    cases present

theorem drawn_le (inv : Inv base s) : s.drawn * stackPages ≤ h.pages := by
  obtain ⟨pool, runs, held⟩ := inv.accounts
  rw [← held.drawn]
  exact pool.card_mul_le (held.live ▸ Finset.subset_union_right) held.length

end Invariant

/-! ## PIDs -/

structure Identified (s : Sys h) : Prop where
  nonzero : ∀ i p, s.table.slots i = some p → p.pid ≠ 0
  distinct : ∀ i j p q, s.table.slots i = some p → s.table.slots j = some q →
    p.pid = q.pid → i = j

structure Numbered (base : Finset Run) (s : Sys h) : Prop where
  inv : Inv base s
  range : ∀ i p, s.table.slots i = some p → 1 ≤ p.pid.toNat ∧ p.pid.toNat ≤ s.drawn
  distinct : ∀ i j p q, s.table.slots i = some p → s.table.slots j = some q →
    p.pid = q.pid → i = j

section Pids
variable {base : Finset Run} {s s' : Sys h}

theorem Numbered.of_keeps (numbered : Numbered base s) (inv : Inv base s')
    (keeps : Keeps s.table s'.table) (drawn : s.drawn ≤ s'.drawn) : Numbered base s' where
  inv := inv
  range := by
    intro i p' present
    obtain ⟨p, before, _, pid⟩ := keeps i p' present
    have range := numbered.range i p before
    rw [pid]
    omega
  distinct := by
    intro i j p' q' left right same
    obtain ⟨p, leftBefore, _, leftPid⟩ := keeps i p' left
    obtain ⟨q, rightBefore, _, rightPid⟩ := keeps j q' right
    exact numbered.distinct i j p q leftBefore rightBefore
      (leftPid.symm.trans (same.trans rightPid))

/-- While fewer than `2 ^ 16` stacks fit the heap, a new PID exceeds all before it. -/
theorem numbered_step (small : h.pages < 131072) (numbered : Numbered base s) {a : Action}
    (taken : step s a = some s') : Numbered base s' := by
  have inv' := inv_step numbered.inv taken
  have bound := drawn_le inv'
  obtain ⟨pool, runs, held⟩ := numbered.inv.accounts
  rcases step_cases taken with ⟨entry, _, _, rfl⟩ | ⟨entry, stack, pages, _, call, _, rfl⟩ |
      ⟨entry, stack, pages, i, _, call, found, rfl⟩ | ⟨epc, _, rfl⟩ | ⟨epc, _, rfl⟩
  · exact numbered
  · exact numbered.of_keeps inv' (fun i p present => ⟨p, present, rfl, rfl⟩) (by simp)
  · have bound' : (s.drawn + 1) * 2 ≤ h.pages := bound
    have pid : s.kernel.nextPid.toNat = 1 + s.drawn := by
      rw [held.nextPid, BitVec.toNat_ofNat, Nat.mod_eq_of_lt (by omega)]
    have cases : ∀ j q,
        (s.table.setSlot i (some ⟨stack, entry, s.kernel.nextPid, .running⟩)).slots j = some q →
        (j = i ∧ q.pid = s.kernel.nextPid) ∨ s.table.slots j = some q := by
      intro j q present
      by_cases same : j = i
      · subst same
        rw [Table.setSlot_same, Option.some.injEq] at present
        exact .inl ⟨rfl, by rw [← present]⟩
      · rw [Table.setSlot_other _ _ same] at present
        exact .inr present
    have newer : ∀ j q, s.table.slots j = some q → q.pid ≠ s.kernel.nextPid := by
      intro j q present same
      have range := numbered.range j q present
      rw [same, pid] at range
      omega
    refine ⟨inv', ?_, ?_⟩
    · intro j q present
      rcases cases j q present with ⟨_, same⟩ | old
      · rw [same, pid]
        change _ ∧ _ ≤ s.drawn + 1
        omega
      · have range := numbered.range j q old
        change _ ∧ _ ≤ s.drawn + 1
        omega
    · intro j k q r left right same
      rcases cases j q left with ⟨rfl, here⟩ | oldLeft
      · rcases cases k r right with ⟨rfl, _⟩ | oldRight
        · rfl
        · exact absurd (same.symm.trans here) (newer k r oldRight)
      · rcases cases k r right with ⟨rfl, there⟩ | oldRight
        · exact absurd (same.trans there) (newer j q oldLeft)
        · exact numbered.distinct j k q r oldLeft oldRight same
  · exact numbered.of_keeps inv' (schedule_keeps numbered.inv.wellFormed epc) (le_refl _)
  · have after := exitCurrent_wellFormed numbered.inv.wellFormed
    exact numbered.of_keeps inv' ((exitCurrent_keeps _).trans (schedule_keeps after epc))
      (le_refl _)

theorem identified_of_small (small : h.pages < 131072) {start : Mm.PageFrame.State h}
    {live : Finset Run} (trace : Mm.PageFrame.Trace h start live)
    (reached : (lifecycle start).Reach s) : Identified s := by
  obtain ⟨pool, rfl, refines⟩ := Mm.PageFrame.trace_refines trace
  have numbered : Numbered pool.live s := by
    refine reached.invariant ?_ fun (s : Sys h) a (s' : Sys h) inv taken =>
      numbered_step small inv taken
    rintro s rfl
    refine ⟨booted_inv refines, ?_, ?_⟩
    · intro i p present
      cases present
    · intro i j p q present
      cases present
  refine ⟨fun i p present zero => ?_, numbered.distinct⟩
  have range := numbered.range i p present
  rw [zero] at range
  exact absurd range.1 (by decide)

end Pids

/-! ## A process that stays while others come and go -/

def soloTable (stack : Nat) (pc : BitVec 64) : Table where
  slots := fun i => if i = firstSlot then some ⟨stack, pc, 1, .running⟩ else none
  current := some firstSlot

theorem soloTable_freeSlot (stack : Nat) (pc : BitVec 64) :
    (soloTable stack pc).freeSlot = some secondSlot := rfl

/-- A second process is picked by the next tick; when it exits, the first one runs again. -/
theorem soloTable_cycle (stack : Nat) (pc epc epc' : BitVec 64) (stack' : Nat)
    (entry : BitVec 64) (pid : BitVec 16) :
    schedule epc' (exitCurrent (schedule epc ((soloTable stack pc).setSlot secondSlot
      (some ⟨stack', entry, pid, .running⟩))).2).2 =
        (some (firstSlot, epc), soloTable stack epc) := by
  refine Prod.ext rfl ?_
  change Table.mk _ (some firstSlot) = Table.mk _ (some firstSlot)
  congr 1
  funext i
  fin_cases i <;> rfl

def Packed (pool : Pool h.pages) (n : Nat) : Prop :=
  ∀ r ∈ pool.live, r.start + r.len ≤ n * stackPages

/-- First fit keeps the stacks packed, so the next one fits as long as the heap has room. -/
theorem zallocate_packed {pages : Mm.PageFrame.State h} {pool : Pool h.pages}
    (refines : Refines pages pool) {n : Nat} (packed : Packed pool n)
    (room : (n + 1) * stackPages ≤ h.pages) :
    ∃ stack pages', ∃ pool' : Pool h.pages, zallocate pages = some (stack, pages') ∧
      Refines pages' pool' ∧ Packed pool' (n + 1) := by
  have window : pool.Window stackPages (n * stackPages) := by
    rw [Pool.window_iff]
    refine ⟨by rw [Nat.add_mul] at room; omega, fun j low _ r member inside => ?_⟩
    have bound := packed r member
    rw [Run.mem_cells] at inside
    omega
  rcases Mm.PageFrame.zallocate_cases refines (show 0 < stackPages by decide) with
    ⟨_, full⟩ | ⟨i, pages', fit, success, refines'⟩
  · exact absurd window (full _)
  · refine ⟨h.runAddr i, pages', _, ?_, refines', ?_⟩
    · exact success
    · have least : i ≤ n * stackPages := fit.2 window
      intro r member
      rw [Nat.add_mul]
      rcases Finset.mem_insert.mp member with rfl | member
      · change i + stackPages ≤ _
        omega
      · have bound := packed r member
        omega

theorem step_spawn {s : Sys h} (running : s.parked = false) {stack : Nat}
    {pages : Mm.PageFrame.State h} (call : zallocate s.pages = some (stack, pages)) {i : Slot}
    (found : s.kernel.table.freeSlot = some i) (entry : BitVec 64) :
    step s (.spawn entry) = some ⟨⟨s.kernel.table.setSlot i
      (some ⟨stack, entry, s.kernel.nextPid, .running⟩), s.kernel.nextPid + 1⟩, pages, false,
      s.drawn + 1, s.exited⟩ := by
  rw [step, running]
  simp only [spawnKernel, call, found, Option.isSome_some, if_true, Bool.false_eq_true, if_false]

/-- After `m` processes have come and gone next to the first one. -/
structure Solo (m : Nat) (s : Sys h) : Prop where
  running : s.parked = false
  table : ∃ stack pc, s.kernel.table = soloTable stack pc
  nextPid : s.kernel.nextPid = BitVec.ofNat 16 (m + 2)
  packed : ∃ pool : Pool h.pages, Refines s.pages pool ∧ Packed pool (m + 1)

theorem Solo.spawn {m : Nat} {s : Sys h} (solo : Solo m s)
    (room : (m + 2) * stackPages ≤ h.pages) (entry : BitVec 64) :
    ∃ stack pc stack' pages' drawn, ∃ pool' : Pool h.pages,
      step s (.spawn entry) = some ⟨⟨(soloTable stack pc).setSlot secondSlot
        (some ⟨stack', entry, BitVec.ofNat 16 (m + 2), .running⟩), BitVec.ofNat 16 (m + 3)⟩,
        pages', false, drawn, s.exited⟩ ∧
      Refines pages' pool' ∧ Packed pool' (m + 2) := by
  obtain ⟨stack, pc, table⟩ := solo.table
  obtain ⟨pool, refines, packed⟩ := solo.packed
  obtain ⟨stack', pages', pool', call, refines', packed'⟩ :=
    zallocate_packed refines packed room
  refine ⟨stack, pc, stack', pages', s.drawn + 1, pool', ?_, refines', packed'⟩
  have found : s.kernel.table.freeSlot = some secondSlot := by
    rw [table, soloTable_freeSlot]
  rw [step_spawn solo.running call found, table, solo.nextPid, show m + 3 = (m + 2) + 1 from rfl,
    BitVec.ofNat_add (m + 2) 1]
  rfl

theorem Solo.cycle {m : Nat} {s : Sys h} (solo : Solo m s)
    (room : (m + 2) * stackPages ≤ h.pages) {start : Mm.PageFrame.State h}
    (reached : (lifecycle start).Reach s) :
    ∃ s' : Sys h, (lifecycle start).Reach s' ∧ Solo (m + 1) s' := by
  obtain ⟨stack, pc, stack', pages', drawn, pool', spawned, refines', packed'⟩ :=
    solo.spawn room 0
  have ended := soloTable_cycle stack pc 0 0 stack' 0 (BitVec.ofNat 16 (m + 2))
  have picked := reach_step (reach_step reached (.spawn 0) spawned) (.tick 0) rfl
  have left := reach_step picked (.exit 0) rfl
  refine ⟨_, left, ?_, ⟨stack, 0, ?_⟩, rfl, pool', refines', packed'⟩
  · exact congrArg (fun result => result.1.isNone) ended
  · exact congrArg Prod.snd ended

def freshPages (h : Heap) : Mm.PageFrame.State h :=
  Mm.PageFrame.init ⟨List.replicate h.pages ⟨0⟩, 0, List.length_replicate⟩

theorem freshPages_trace (h : Heap) : Mm.PageFrame.Trace h (freshPages h) ∅ :=
  Mm.PageFrame.Trace.boot _

theorem exists_solo (m : Nat) (room : (m + 1) * stackPages ≤ h.pages) :
    ∃ s : Sys h, (lifecycle (freshPages h)).Reach s ∧ Solo m s := by
  induction m with
  | zero =>
      obtain ⟨pool, live, refines⟩ := Mm.PageFrame.trace_refines (freshPages_trace h)
      have packed : Packed pool 0 := by
        intro r member
        rw [live] at member
        cases member
      obtain ⟨stack, pages', pool', call, refines', packed'⟩ :=
        zallocate_packed refines packed room
      have spawned := step_spawn (s := booted (freshPages h)) rfl call
        (show Table.empty.freeSlot = some firstSlot from rfl) 0
      have picked := reach_step (reach_step (System.Reach.start rfl) (.spawn 0) spawned)
        (.tick 0) rfl
      refine ⟨_, picked, rfl, ⟨stack, 0, ?_⟩, rfl, pool', refines', packed'⟩
      change Table.mk _ (some firstSlot) = Table.mk _ (some firstSlot)
      congr 1
      funext i
      fin_cases i <;> rfl
  | succ m ih =>
      obtain ⟨s, reached, solo⟩ :=
        ih ((Nat.mul_le_mul_right _ (Nat.le_succ (m + 1))).trans room)
      exact solo.cycle room reached

/-- On a heap for `2 ^ 16` stacks the counter comes round to 0 while the first process is
still in the table. -/
theorem pid_zero_reached (room : 131072 ≤ h.pages) :
    ∃ s : Sys h, (lifecycle (freshPages h)).Reach s ∧ ¬ Identified s := by
  obtain ⟨s, reached, solo⟩ := exists_solo (h := h) 65534 (by rw [stackPages]; omega)
  obtain ⟨stack, pc, stack', pages', drawn, _, spawned, _⟩ :=
    solo.spawn (by rw [stackPages]; omega) 0
  refine ⟨_, reach_step reached (.spawn 0) spawned, fun identified => ?_⟩
  exact identified.nonzero secondSlot _ rfl rfl

/-- PIDs identify the processes of every run exactly when the heap has fewer than `2 ^ 17`
pages, too few for `2 ^ 16` stacks. -/
theorem pids_identify_iff (h : Heap) :
    (∀ start live, Mm.PageFrame.Trace h start live →
      ∀ s : Sys h, (lifecycle start).Reach s → Identified s) ↔ h.pages < 131072 := by
  constructor
  · intro always
    by_contra large
    obtain ⟨s, reached, failed⟩ := pid_zero_reached (h := h) (by omega)
    exact failed (always _ _ (freshPages_trace h) s reached)
  · intro small start live trace s reached
    exact identified_of_small small trace reached

theorem pid_zero_on_large_heap :
    ∃ s : Sys ⟨0x80000000, 0x20000000⟩,
      (lifecycle (freshPages ⟨0x80000000, 0x20000000⟩)).Reach s ∧ ¬ Identified s :=
  pid_zero_reached (by decide)

/-! ## Conservation of stacks -/

def slotRun (h : Heap) (t : Table) (i : Slot) : Run :=
  match t.slots i with
  | some p => ⟨(p.stack - h.allocStart) / Mm.PageFrame.pageSize, stackPages⟩
  | none => ⟨0, 0⟩

def tableRuns (h : Heap) (t : Table) : Finset Run := (occupied t).image (slotRun h t)

/-- Besides the runs `base` live before the first spawn, exactly the stacks of the processes
in the table are allocated, each to one process; without processes the descriptor table is
the one of `start`. -/
structure Conserved (start : Mm.PageFrame.State h) (base : Finset Run) (s : Sys h) : Prop where
  allocated : ∃ pool : Pool h.pages, Refines s.pages pool ∧
    pool.live = base ∪ tableRuns h s.table ∧ Disjoint base (tableRuns h s.table)
  disjoint : ∀ i ∈ occupied s.table, ∀ j ∈ occupied s.table, i ≠ j →
    Disjoint (slotRun h s.table i).cells (slotRun h s.table j).cells
  restored : (∀ i, s.table.slots i = none) → s.pages.table = start.table

def successful (s : Sys h) : Action → Bool
  | .spawn entry => (spawnKernel zallocate entry s.kernel s.pages).1.isOk
  | _ => true

def keepsProcesses (s : Sys h) : Action → Bool
  | .exit _ => s.table.current.isNone
  | _ => true

section Conservation
variable {base : Finset Run} {s s' : Sys h} {start : Mm.PageFrame.State h}

structure Counted (base : Finset Run) (s : Sys h) : Prop where
  inv : Inv base s
  count : (occupied s.table).card + s.exited = s.drawn

theorem drawn_step (wf : s.table.WellFormed)
    (count : (occupied s.table).card + s.exited = s.drawn) {a : Action}
    (success : successful s a = true) (taken : step s a = some s') :
    (occupied s'.table).card + s'.exited = s'.drawn := by
  rcases step_cases taken with ⟨entry, rfl, failed, rfl⟩ |
      ⟨entry, stack, pages, rfl, call, full, rfl⟩ |
      ⟨entry, stack, pages, i, rfl, call, found, rfl⟩ | ⟨epc, rfl, rfl⟩ | ⟨epc, rfl, rfl⟩
  · exact count
  · rw [Sys.table] at full
    simp [successful, spawnKernel, call, full, Except.isOk, Except.toBool] at success
  · have grown := occupied_setSlot (freeSlot_vacant found)
      ⟨stack, entry, s.kernel.nextPid, .running⟩
    change (occupied (s.table.setSlot i _)).card + s.exited = s.drawn + 1
    rw [grown]
    omega
  · change (occupied (schedule epc s.table).2).card + s.exited = s.drawn
    rw [occupied_schedule wf]
    exact count
  · have dropped := occupied_exitCurrent wf
    change (occupied (schedule epc (exitCurrent s.table).2).2).card +
      (s.exited + if (exitCurrent s.table).1.isSome then 1 else 0) = s.drawn
    rw [occupied_schedule (exitCurrent_wellFormed wf)]
    omega

theorem reach_counted {pool : Pool h.pages} (refines : Refines start pool)
    (reached : ((lifecycle start).restrict successful).Reach s) : Counted pool.live s := by
  refine reached.invariant ?_ fun (s : Sys h) a (s' : Sys h) counted taken => ?_
  · rintro s rfl
    exact ⟨booted_inv refines, rfl⟩
  · obtain ⟨success, taken⟩ := System.restrict_step taken
    exact ⟨inv_step counted.inv taken,
      drawn_step counted.inv.wellFormed counted.count success taken⟩

theorem Stacks.tableRuns {pool : Pool h.pages} {runs : Finset Run}
    (held : Stacks base s pool runs) :
    tableRuns h s.table ⊆ runs ∧ (tableRuns h s.table).card = (occupied s.table).card := by
  have present : ∀ i ∈ occupied s.table, ∃ p, s.table.slots i = some p := fun i member =>
    Option.isSome_iff_exists.mp (mem_occupied.mp member)
  have isRun : ∀ i p, s.table.slots i = some p →
      slotRun h s.table i ∈ runs ∧ p.stack = h.runAddr (slotRun h s.table i).start := by
    intro i p occupied
    obtain ⟨r, member, address⟩ := held.owned i p occupied
    have same : slotRun h s.table i = r := by
      cases r with
      | mk first len =>
          have length : len = stackPages := held.length _ member
          rw [slotRun, occupied, Run.mk.injEq]
          refine ⟨?_, length.symm⟩
          rw [address, Heap.runAddr, Nat.add_sub_cancel_left,
            Nat.mul_div_cancel _ Mm.PageFrame.pageSize_pos]
    rw [same]
    exact ⟨member, address⟩
  refine ⟨?_, ?_⟩
  · intro r member
    obtain ⟨i, inTable, rfl⟩ := Finset.mem_image.mp member
    obtain ⟨p, occupied⟩ := present i inTable
    exact (isRun i p occupied).1
  · apply Finset.card_image_of_injOn
    intro i iMember j jMember same
    obtain ⟨p, left⟩ := present i iMember
    obtain ⟨q, right⟩ := present j jMember
    apply held.unshared i j p q left right
    rw [(isRun i p left).2, (isRun j q right).2, same]

theorem conserved_iff_drawn {pool₀ : Pool h.pages} (refines₀ : Refines start pool₀)
    (inv : Inv pool₀.live s) :
    Conserved start pool₀.live s ↔ (occupied s.table).card = s.drawn := by
  obtain ⟨pool, runs, held⟩ := inv.accounts
  obtain ⟨subset, card⟩ := held.tableRuns
  constructor
  · intro conserved
    obtain ⟨pool', refines', live', apart'⟩ := conserved.allocated
    have same : pool₀.live ∪ runs = pool₀.live ∪ tableRuns h s.table := by
      rw [← held.live, ← live']
      exact held.refines.table.live_unique refines'.table
    have inTable : runs ⊆ tableRuns h s.table := by
      intro r member
      have either : r ∈ pool₀.live ∪ tableRuns h s.table :=
        same ▸ Finset.mem_union_right _ member
      rcases Finset.mem_union.mp either with inBase | inTable
      · exact absurd member (Finset.disjoint_left.mp held.apart inBase)
      · exact inTable
    rw [← card, ← held.drawn, subset.antisymm inTable]
  · intro count
    have same : tableRuns h s.table = runs :=
      Finset.eq_of_subset_of_card_le subset (by rw [card, held.drawn, count])
    refine ⟨⟨pool, held.refines, by rw [same, held.live], by rw [same]; exact held.apart⟩, ?_, ?_⟩
    · intro i iMember j jMember different
      have inPool : ∀ k ∈ occupied s.table, slotRun h s.table k ∈ pool.live := by
        intro k member
        rw [held.live, ← same]
        exact Finset.mem_union_right _ (Finset.mem_image_of_mem _ member)
      apply pool.disjoint _ (inPool i iMember) _ (inPool j jMember)
      intro sameRun
      have injective := Finset.card_image_iff.mp card
      exact different (injective iMember jMember sameRun)
    · intro vacant
      have none : tableRuns h s.table = ∅ := by
        rw [tableRuns, Finset.image_eq_empty, Finset.eq_empty_iff_forall_notMem]
        intro i member
        rw [mem_occupied, vacant i] at member
        cases member
      apply held.refines.table.table_unique refines₀.table
      rw [held.live, ← same, none, Finset.union_empty]

def Undropped (s : Sys h) : Prop := s.exited = 0

theorem undropped_of_keeps
    (reached : (((lifecycle start).restrict successful).restrict keepsProcesses).Reach s) :
    Undropped s := by
  refine reached.invariant ?_ fun (s : Sys h) a (s' : Sys h) undropped taken => ?_
  · rintro s rfl
    rfl
  · obtain ⟨keeps, taken⟩ := System.restrict_step taken
    rcases step_cases (System.restrict_step taken).2 with ⟨entry, _, _, rfl⟩ |
        ⟨entry, stack, pages, _, _, _, rfl⟩ | ⟨entry, stack, pages, i, _, _, _, rfl⟩ |
        ⟨epc, _, rfl⟩ | ⟨epc, rfl, rfl⟩
    · exact undropped
    · exact undropped
    · exact undropped
    · exact undropped
    · have idle : s.table.current = none := Option.isNone_iff_eq_none.mp keeps
      change s.exited + (if (exitCurrent s.table).1.isSome then 1 else 0) = 0
      rw [exitCurrent, idle]
      exact undropped

/-- Over runs of successful spawns, ticks and exits: while no exit finds a current process,
the stacks allocated are those of the table; in general they are so exactly as long as no
process has exited. -/
theorem stacks_conserved_iff (h : Heap) (start : Mm.PageFrame.State h) (live : Finset Run)
    (trace : Mm.PageFrame.Trace h start live) :
    (∀ s : Sys h, (((lifecycle start).restrict successful).restrict keepsProcesses).Reach s →
      Conserved start live s) ∧
    ∀ s : Sys h, ((lifecycle start).restrict successful).Reach s →
      (Conserved start live s ↔ s.exited = 0) := by
  obtain ⟨pool, rfl, refines⟩ := Mm.PageFrame.trace_refines trace
  have general : ∀ s : Sys h, ((lifecycle start).restrict successful).Reach s →
      (Conserved start pool.live s ↔ s.exited = 0) := by
    intro s reached
    have counted := reach_counted refines reached
    rw [conserved_iff_drawn refines counted.inv, ← counted.count]
    omega
  refine ⟨fun s reached => ?_, general⟩
  exact (general s reached.of_restrict).mpr (undropped_of_keeps reached)

end Conservation

def fourPages : Heap := ⟨0x80000000, 4 * Mm.PageFrame.pageSize⟩

theorem stacks_conserved_iff_two :
    ∃ s : Sys fourPages, (occupied s.table).card = 2 ∧
      Conserved (freshPages fourPages) ∅ s := by
  have ran : (((((lifecycle (freshPages fourPages)).restrict successful).restrict
      keepsProcesses).run (booted (freshPages fourPages))
        [Action.spawn 0, Action.spawn 0, Action.tick 0]).map fun s => (occupied s.table).card) =
      some 2 := by
    decide +kernel
  obtain ⟨s, ends, two⟩ := Option.map_eq_some_iff.mp ran
  exact ⟨s, two, (stacks_conserved_iff fourPages _ _ (freshPages_trace fourPages)).1 s
    ((System.Reach.start rfl).run ends)⟩

/-- The only process exits, and its stack is still allocated. -/
theorem stack_leaked_by_exit :
    ∃ s : Sys fourPages, ((lifecycle (freshPages fourPages)).restrict successful).Reach s ∧
      (∀ i, s.table.slots i = none) ∧ s.pages.table ≠ (freshPages fourPages).table ∧
      ¬ Conserved (freshPages fourPages) ∅ s := by
  have ran : ((((lifecycle (freshPages fourPages)).restrict successful).run
      (booted (freshPages fourPages))
        [Action.spawn 0, Action.tick 0, Action.exit 0]).map fun s =>
          (decide (∀ i, s.table.slots i = none), s.pages.table)) =
      some (true, [Mm.PageFrame.PageDesc.inner, Mm.PageFrame.PageDesc.final,
        Mm.PageFrame.PageDesc.free, Mm.PageFrame.PageDesc.free]) := by
    decide +kernel
  obtain ⟨s, ends, facts⟩ := Option.map_eq_some_iff.mp ran
  obtain ⟨vacant, table⟩ := Prod.mk.inj facts
  rw [decide_eq_true_eq] at vacant
  have changed : s.pages.table ≠ (freshPages fourPages).table := by
    rw [table]
    decide +kernel
  exact ⟨s, (System.Reach.start rfl).run ends, vacant, changed, fun conserved =>
    changed (conserved.restored vacant)⟩

/-! ## Spawns that fail -/

theorem zallocate_eq_none_iff {pages : Mm.PageFrame.State h} {pool : Pool h.pages}
    (refines : Refines pages pool) :
    zallocate pages = none ↔ ∀ i, ¬ Mm.PageFrame.FreeWindow pages.table stackPages i := by
  simp only [refines.table.freeWindow_iff_window]
  unfold zallocate
  rcases Mm.PageFrame.zallocate_cases refines (show 0 < stackPages by decide) with
    ⟨full, none⟩ | ⟨i, pages', fit, success, _⟩
  · rw [full]
    exact ⟨fun _ => none, fun _ => rfl⟩
  · rw [success]
    constructor
    · intro failed
      cases failed
    · intro none
      exact absurd fit.1 (none i)

theorem freeSlot_eq_none_iff {t : Table} :
    t.freeSlot = none ↔ ∀ i, t.slots i ≠ none := by
  simp [Table.freeSlot, List.find?_eq_none]

/-- If the spawn fails, the slots, `current`, the PID counter and the descriptor table are
as before. -/
def UnchangedOnError (entry : BitVec 64) (k : Kernel) (pages : Mm.PageFrame.State h) : Prop :=
  ∀ e k' pages', spawnKernel zallocate entry k pages = (.error e, k', pages') →
    k'.table.slots = k.table.slots ∧ k'.table.current = k.table.current ∧
      k'.nextPid = k.nextPid ∧ pages'.table = pages.table

/-- A failed spawn changes nothing exactly if the table has a free slot or no two free pages
follow each other; otherwise the stack is drawn and the PID spent before the search for a
slot fails. -/
theorem failed_spawn_unchanged_iff (h : Heap) (k : Kernel) (pages : Mm.PageFrame.State h)
    (live : Finset Run) (trace : Mm.PageFrame.Trace h pages live) (entry : BitVec 64) :
    UnchangedOnError entry k pages ↔
      (∃ i, k.table.slots i = none) ∨
        ∀ i, ¬ Mm.PageFrame.FreeWindow pages.table stackPages i := by
  obtain ⟨pool, rfl, refines⟩ := Mm.PageFrame.trace_refines trace
  rw [← zallocate_eq_none_iff refines]
  unfold UnchangedOnError spawnKernel
  cases call : zallocate pages with
  | none =>
      refine ⟨fun _ => .inr rfl, fun _ e k' pages' failed => ?_⟩
      cases failed
      exact ⟨rfl, rfl, rfl, rfl⟩
  | some answer =>
      obtain ⟨stack, pages'⟩ := answer
      dsimp only
      cases found : k.table.freeSlot with
      | none =>
          constructor
          · intro unchanged
            obtain ⟨_, _, pid, _⟩ := unchanged _ _ _ rfl
            change k.nextPid + 1 = k.nextPid at pid
            bv_omega
          · intro condition
            cases condition with
            | inl vacant =>
                obtain ⟨i, empty⟩ := vacant
                exact absurd empty (freeSlot_eq_none_iff.mp found i)
            | inr failed => cases failed
      | some i =>
          refine ⟨fun _ => .inl ⟨i, freeSlot_vacant found⟩, fun _ e k' pages'' failed => ?_⟩
          cases failed

theorem failed_spawn_unchanged_iff_out_of_memory :
    ∃ pages : Mm.PageFrame.State fourPages,
      (spawnKernel zallocate 0 ⟨Table.empty, 1⟩ pages).1 = .error .outOfMemory ∧
        UnchangedOnError 0 ⟨Table.empty, 1⟩ pages := by
  have first := Mm.PageFrame.Trace.call (.allocate 2) (freshPages_trace fourPages) (by decide) rfl
  have second := Mm.PageFrame.Trace.call (.allocate 2) first (by decide) rfl
  exact ⟨_, by decide +kernel,
    (failed_spawn_unchanged_iff fourPages ⟨Table.empty, 1⟩ _ _ second 0).mpr
      (.inl ⟨firstSlot, rfl⟩)⟩

/-- Thirty-four pages, room for one stack more than the table has slots. -/
def seventeenStacks : Heap := ⟨0x80000000, 34 * Mm.PageFrame.pageSize⟩

/-- With all sixteen slots taken the next spawn fails, keeps its two stack pages and skips a
PID. -/
theorem failed_spawn_leaks :
    ∃ s : Sys seventeenStacks, (lifecycle (freshPages seventeenStacks)).Reach s ∧
      (spawnKernel zallocate 0 s.kernel s.pages).1 = .error .tableFull ∧
      s.kernel.nextPid = 17 ∧ (spawnKernel zallocate 0 s.kernel s.pages).2.1.nextPid = 18 ∧
      s.pages.table[32]? = some Mm.PageFrame.PageDesc.free ∧
      (spawnKernel zallocate 0 s.kernel s.pages).2.2.table[32]? =
        some Mm.PageFrame.PageDesc.inner ∧
      ¬ UnchangedOnError 0 s.kernel s.pages := by
  have ran : ((lifecycle (freshPages seventeenStacks)).run (booted (freshPages seventeenStacks))
      (List.replicate 16 (Action.spawn 0))).map (fun s =>
        ((spawnKernel zallocate 0 s.kernel s.pages).1, s.kernel.nextPid,
          (spawnKernel zallocate 0 s.kernel s.pages).2.1.nextPid, s.pages.table[32]?,
          (spawnKernel zallocate 0 s.kernel s.pages).2.2.table[32]?)) =
      some (.error .tableFull, 17, 18, some Mm.PageFrame.PageDesc.free,
        some Mm.PageFrame.PageDesc.inner) := by
    decide +kernel
  obtain ⟨s, ends, facts⟩ := Option.map_eq_some_iff.mp ran
  simp only [Prod.mk.injEq] at facts
  obtain ⟨failed, pid, nextPid, page, nextPage⟩ := facts
  refine ⟨s, (System.Reach.start rfl).run ends, failed, pid, nextPid, page, nextPage, ?_⟩
  intro unchanged
  obtain ⟨_, _, same, _⟩ := unchanged _ _ _ (Prod.ext failed rfl)
  rw [nextPid, pid] at same
  cases same

end Vesper.Lifecycle
