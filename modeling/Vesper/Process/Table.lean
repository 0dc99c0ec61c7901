import Mathlib.Tactic

/-!
# The process table

Model of `process/table.rs` and `process/process.rs`.  A process is its stack, resume PC,
pid and state; the register frame of slot `i` lies in memory and belongs to the trap
model.  The allocator that `spawn_kernel` asks for a stack is a parameter.
-/

set_option autoImplicit false

namespace Vesper.Scheduler

inductive ProcessState where
  | running
  | dead
  deriving DecidableEq, Repr

structure Process where
  stack : Nat
  pc : BitVec 64
  pid : BitVec 16
  state : ProcessState
  deriving DecidableEq, Repr

def maxProcesses : Nat := 16

theorem maxProcesses_pos : 0 < maxProcesses := Nat.succ_pos 15

def stackPages : Nat := 2

abbrev Slot := Fin maxProcesses

theorem one_lt_maxProcesses : 1 < maxProcesses := by decide

def firstSlot : Slot := ⟨0, maxProcesses_pos⟩
def secondSlot : Slot := ⟨1, one_lt_maxProcesses⟩

structure Table where
  slots : Slot → Option Process
  current : Option Slot

def Table.empty : Table where
  slots := fun _ => none
  current := none

def Table.setSlot (t : Table) (i : Slot) (entry : Option Process) : Table :=
  { t with slots := Function.update t.slots i entry }

@[simp] theorem Table.setSlot_same (t : Table) (i : Slot) (entry : Option Process) :
    (t.setSlot i entry).slots i = entry := by
  simp only [Table.setSlot, Function.update_self]

theorem Table.setSlot_other (t : Table) {i j : Slot} (entry : Option Process) (apart : j ≠ i) :
    (t.setSlot i entry).slots j = t.slots j := by
  simp only [Table.setSlot, Function.update_of_ne apart]

@[simp] theorem Table.setSlot_current (t : Table) (i : Slot) (entry : Option Process) :
    (t.setSlot i entry).current = t.current := rfl

inductive SpawnError where
  | tableFull
  | outOfMemory
  deriving DecidableEq, Repr

structure Kernel where
  table : Table
  nextPid : BitVec 16

/-- The slot the loop of `spawn_kernel` stops at. -/
def Table.freeSlot (t : Table) : Option Slot :=
  (List.finRange maxProcesses).find? fun i => (t.slots i).isNone

variable {σ : Type}

/-- The pid is drawn before the search for a slot, and a full table keeps both it and the
stack. -/
def spawnKernel (zallocate : σ → Option (Nat × σ)) (entry : BitVec 64) (k : Kernel)
    (pages : σ) : Except SpawnError (BitVec 16) × Kernel × σ :=
  match zallocate pages with
  | none => (.error .outOfMemory, k, pages)
  | some (stack, pages') =>
      let proc : Process := ⟨stack, entry, k.nextPid, .running⟩
      let k' := { k with nextPid := k.nextPid + 1 }
      match k.table.freeSlot with
      | some i => (.ok k.nextPid, { k' with table := k.table.setSlot i (some proc) }, pages')
      | none => (.error .tableFull, k', pages')

def Table.stash (t : Table) (epc : BitVec 64) : Table :=
  match t.current with
  | none => t
  | some idx =>
      match t.slots idx with
      | none => t
      | some proc =>
          if proc.state = .running then t.setSlot idx (some { proc with pc := epc }) else t

/-- The slots in the order the round-robin loop looks at them. -/
def candidates (start : Nat) : List Slot :=
  (List.range maxProcesses).map fun offset =>
    ⟨(start + offset) % maxProcesses, Nat.mod_lt _ (by decide)⟩

def Table.pick (t : Table) (i : Slot) : Option (Slot × BitVec 64) :=
  match t.slots i with
  | none => none
  | some proc => if proc.state = .running then some (i, proc.pc) else none

def Table.startIndex (t : Table) : Nat :=
  match t.current with
  | none => 0
  | some i => (i.val + 1) % maxProcesses

/-- The slot stands for the pointer to its frame. -/
def schedule (epc : BitVec 64) (t : Table) : Option (Slot × BitVec 64) × Table :=
  let t := t.stash epc
  match (candidates t.startIndex).findSome? t.pick with
  | some (i, pc) => (some (i, pc), { t with current := some i })
  | none => (none, { t with current := none })

def exitCurrent (t : Table) : Option (BitVec 16) × Table :=
  match t.current with
  | none => (none, t)
  | some idx =>
      match t.slots idx with
      | none => (none, t)
      | some proc => (some proc.pid, { t.setSlot idx none with current := none })

/-- No slot is ever marked dead, and the current slot is occupied. -/
structure Table.WellFormed (t : Table) : Prop where
  running : ∀ i proc, t.slots i = some proc → proc.state = .running
  current : ∀ i, t.current = some i → (t.slots i).isSome

theorem Table.empty_wellFormed : Table.empty.WellFormed where
  running := by
    intro i proc occupied
    cases occupied
  current := by
    intro i chosen
    cases chosen

theorem mem_candidates (start : Nat) (i : Slot) : i ∈ candidates start := by
  have bound : i.val < 16 := i.isLt
  refine List.mem_map.mpr ⟨(i.val + 16 - start % 16) % 16, List.mem_range.mpr ?_, ?_⟩
  · exact Nat.mod_lt _ maxProcesses_pos
  · apply Fin.ext
    simp only [maxProcesses]
    omega

theorem Table.pick_eq_some {t : Table} {i j : Slot} {pc : BitVec 64}
    (picked : t.pick i = some (j, pc)) :
    j = i ∧ ∃ proc, t.slots i = some proc ∧ proc.state = .running ∧ proc.pc = pc := by
  unfold Table.pick at picked
  split at picked
  · cases picked
  · next proc occupied =>
      split_ifs at picked with running
      cases picked
      exact ⟨rfl, proc, occupied, running, rfl⟩

theorem Table.pick_of_running {t : Table} {i : Slot} {proc : Process}
    (occupied : t.slots i = some proc) (running : proc.state = .running) :
    t.pick i = some (i, proc.pc) := by
  simp only [Table.pick, occupied, running, if_true]

theorem Table.stash_of_current {t : Table} (wf : t.WellFormed) {c : Slot} {proc : Process}
    (epc : BitVec 64) (chosen : t.current = some c) (occupied : t.slots c = some proc) :
    t.stash epc = t.setSlot c (some { proc with pc := epc }) := by
  simp only [Table.stash, chosen, occupied, wf.running c proc occupied, if_true]

theorem Table.stash_of_idle {t : Table} (epc : BitVec 64) (idle : t.current = none) :
    t.stash epc = t := by
  simp only [Table.stash, idle]

theorem Table.stash_current (t : Table) (epc : BitVec 64) :
    (t.stash epc).current = t.current := by
  unfold Table.stash
  split
  · rfl
  · split
    · rfl
    · split <;> rfl

theorem Table.stash_other {t : Table} (epc : BitVec 64) {i : Slot} (other : t.current ≠ some i) :
    (t.stash epc).slots i = t.slots i := by
  unfold Table.stash
  split
  · rfl
  · next idx chosen =>
      have apart : i ≠ idx := fun same => other (same ▸ chosen)
      split
      · rfl
      · split
        · exact Table.setSlot_other t _ apart
        · rfl

theorem Table.setSlot_wellFormed {t : Table} (wf : t.WellFormed) (i : Slot) {proc : Process}
    (running : proc.state = .running) : (t.setSlot i (some proc)).WellFormed where
  running := by
    intro j p occupied
    by_cases same : j = i
    · subst same
      rw [Table.setSlot_same, Option.some.injEq] at occupied
      rw [← occupied]
      exact running
    · rw [Table.setSlot_other t _ same] at occupied
      exact wf.running j p occupied
  current := by
    intro j chosen
    by_cases same : j = i
    · subst same
      rw [Table.setSlot_same]
      rfl
    · rw [Table.setSlot_other t _ same]
      exact wf.current j chosen

theorem Table.stash_wellFormed {t : Table} (wf : t.WellFormed) (epc : BitVec 64) :
    (t.stash epc).WellFormed := by
  cases chosen : t.current with
  | none =>
      rw [Table.stash_of_idle epc chosen]
      exact wf
  | some c =>
      obtain ⟨proc, occupied⟩ := Option.isSome_iff_exists.mp (wf.current c chosen)
      rw [Table.stash_of_current wf epc chosen occupied]
      exact Table.setSlot_wellFormed wf c (wf.running c proc occupied)

theorem schedule_cases {t : Table} (wf : t.WellFormed) (epc : BitVec 64) :
    (∃ i proc, (t.stash epc).slots i = some proc ∧
        schedule epc t = (some (i, proc.pc), { t.stash epc with current := some i })) ∨
      ((∀ i, t.slots i = none) ∧ schedule epc t = (none, { t with current := none })) := by
  have stashed := Table.stash_wellFormed wf epc
  unfold schedule
  dsimp only
  cases found : (candidates (t.stash epc).startIndex).findSome? (t.stash epc).pick with
  | some result =>
      obtain ⟨i, pc⟩ := result
      obtain ⟨j, _, picked⟩ := List.exists_of_findSome?_eq_some found
      obtain ⟨rfl, proc, occupied, _, rfl⟩ := Table.pick_eq_some picked
      exact Or.inl ⟨i, proc, occupied, rfl⟩
  | none =>
      right
      have vacant (i : Slot) : (t.stash epc).slots i = none := by
        have missed := List.findSome?_eq_none_iff.mp found i (mem_candidates _ i)
        cases occupied : (t.stash epc).slots i with
        | none => rfl
        | some proc =>
            rw [Table.pick_of_running occupied (stashed.running i proc occupied)] at missed
            cases missed
      have idle : t.current = none := by
        cases chosen : t.current with
        | none => rfl
        | some c =>
            have kept := stashed.current c ((Table.stash_current t epc).trans chosen)
            rw [vacant c] at kept
            cases kept
      rw [Table.stash_of_idle epc idle] at vacant ⊢
      exact ⟨vacant, rfl⟩

theorem schedule_wellFormed {t : Table} (wf : t.WellFormed) (epc : BitVec 64) :
    (schedule epc t).2.WellFormed := by
  have stashed := Table.stash_wellFormed wf epc
  rcases schedule_cases wf epc with ⟨i, proc, occupied, result⟩ | ⟨vacant, result⟩
  · rw [result]
    refine ⟨stashed.running, fun j chosen => ?_⟩
    cases chosen
    rw [occupied]
    rfl
  · rw [result]
    exact ⟨wf.running, fun j chosen => by cases chosen⟩

theorem exitCurrent_of_current {t : Table} {c : Slot} {proc : Process}
    (chosen : t.current = some c) (occupied : t.slots c = some proc) :
    exitCurrent t = (some proc.pid, { t.setSlot c none with current := none }) := by
  simp only [exitCurrent, chosen, occupied]

theorem exitCurrent_slots (t : Table) (i : Slot) :
    (exitCurrent t).2.slots i = t.slots i ∨ (exitCurrent t).2.slots i = none := by
  unfold exitCurrent
  split
  · exact Or.inl rfl
  · next idx chosen =>
      split
      · exact Or.inl rfl
      · by_cases same : i = idx
        · subst same
          exact Or.inr (Table.setSlot_same t i none)
        · exact Or.inl (Table.setSlot_other t none same)

theorem exitCurrent_current {t : Table} (wf : t.WellFormed) :
    (exitCurrent t).2.current = none := by
  unfold exitCurrent
  split
  · next idle => exact idle
  · next idx chosen =>
      split
      · next vacant =>
          have kept := wf.current idx chosen
          rw [vacant] at kept
          cases kept
      · rfl

theorem exitCurrent_wellFormed {t : Table} (wf : t.WellFormed) :
    (exitCurrent t).2.WellFormed where
  running := by
    intro i proc occupied
    rcases exitCurrent_slots t i with same | vacant
    · exact wf.running i proc (same ▸ occupied)
    · rw [vacant] at occupied
      cases occupied
  current := by
    intro i chosen
    rw [exitCurrent_current wf] at chosen
    cases chosen

end Vesper.Scheduler
