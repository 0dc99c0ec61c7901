import Mathlib.Tactic
import Vesper.Fs.ReadBounds
import Vesper.Lib.Transition
import Vesper.Process.TrapVector

/-!
# Context switches

The hart as a transition system: steps of whatever runs on it, traps through the vector,
and `spawn_kernel`.  The state carries a history next to the machine: for each slot the
context its process had when the timer last preempted it, or the one it was spawned
with.  The invariant ties `mscratch` to the scheduler's `current` and every waiting
process's frame to its history.

Code outside the handler may write any memory but the frames; the table itself is only
written by the modelled functions.  Nothing keeps the copies of a `read` off the frames, so
the invariant is that of the runs in which they stay off them.
-/

set_option autoImplicit false

namespace Vesper.Trap

open Vesper.Scheduler Vesper.Lib

structure Context where
  x : Nat → BitVec 64
  pc : BitVec 64

structure Sys where
  machine : Machine
  last : Slot → Context

def Sys.table (s : Sys) : Table := s.machine.core.kernel.table

def Sys.context (s : Sys) : Context := ⟨s.machine.x, s.machine.pc⟩

def Clear (L : Layout) (writes : Nat → Option (BitVec 64)) : Prop :=
  ∀ f : Option Slot, ∀ k, k < frameWords → writes (wordAt (L.frame f) k) = none

instance (L : Layout) (writes : Nat → Option (BitVec 64)) : Decidable (Clear L writes) :=
  inferInstanceAs (Decidable
    (∀ f : Option Slot, ∀ k, k < frameWords → writes (wordAt (L.frame f) k) = none))

def stackTop (base : Nat) : BitVec 64 := BitVec.ofNat 64 (base + stackPages * 4096)

def freshX (base : Nat) : Nat → BitVec 64 := fun r => if r = 2 then stackTop base else 0

def freshFrame (base : Nat) (trapStack : BitVec 64) : Nat → BitVec 64 :=
  fun k => if k = trapStackWord then trapStack else freshX base k

inductive Action (σ : Type) where
  | user (x : Nat → BitVec 64) (pc : BitVec 64) (writes : Nat → Option (BitVec 64))
  | trap (cause : BitVec 64) (env : TrapEnv σ)
  | spawn (entry : BitVec 64) (stack : Option Nat)

variable {σ : Type}

/-- `spawn_kernel` with the allocator's answer for the stack. -/
def spawn (L : Layout) (entry : BitVec 64) (stack : Option Nat) (c : Core) : Core :=
  let spawned := spawnKernel (fun _ : Unit => stack.map fun base => (base, ())) entry c.kernel ()
  match stack, c.kernel.table.freeSlot with
  | some base, some i =>
      { c with
        kernel := spawned.2.1
        mem := storeWords (L.frame (some i)) (freshFrame base c.trapStackTop)
          (List.range frameWords) c.mem }
  | _, _ => { c with kernel := spawned.2.1 }

def Interrupt (cause : BitVec 64) (n : Nat) : Prop := isAsync cause = true ∧ causeNum cause = n

instance (cause : BitVec 64) (n : Nat) : Decidable (Interrupt cause n) :=
  inferInstanceAs (Decidable (_ ∧ _))

def Ecall (cause : BitVec 64) : Prop :=
  isAsync cause = false ∧ (causeNum cause = 8 ∨ causeNum cause = 9)

instance (cause : BitVec 64) : Decidable (Ecall cause) := inferInstanceAs (Decidable (_ ∧ _))

/-- The history after an action: the timer records the context it preempts, and a spawned
process starts with its fresh one. -/
def record (s : Sys) : Action σ → Slot → Context
  | .user _ _ _ => s.last
  | .trap cause _ =>
      match s.table.current with
      | some i => if Interrupt cause 7 then Function.update s.last i s.context else s.last
      | none => s.last
  | .spawn entry stack =>
      match stack, s.table.freeSlot with
      | some base, some i => Function.update s.last i ⟨freshX base, entry⟩
      | _, _ => s.last

def stepMachine (L : Layout) (m : Machine) : Action σ → Option Machine
  | .user x pc writes =>
      if Clear L writes then
        some { m with x := x, pc := pc, core := { m.core with mem := overlay writes m.core.mem } }
      else none
  | .trap cause env => takeTrap L env cause m
  | .spawn entry stack => some { m with core := spawn L entry stack m.core }

/-- After `install`: no process, and `mscratch` points at the static frame. -/
def system (L : Layout) (σ : Type) : System where
  State := Sys
  Action := Action σ
  init s := s.table = Table.empty ∧ s.machine.core.mscratch = L.frame none
  step s a := (stepMachine L s.machine a).map fun m => ⟨m, record s a⟩

/-- The bytes of a copy stay off the kernel's other memory. -/
def spares (L : Layout) (buffer : BitVec 64) : Minix3.Event → Bool
  | .copy c =>
      (List.range c.len).all fun j => !L.kernel (buffer + BitVec.ofNat 64 (c.dst + j))
  | _ => true

/-- No byte that the `read` copies lands on a frame or on other memory of the kernel. -/
def ReadClear (L : Layout) (env : TrapEnv σ) (x : Nat → BitVec 64) : Prop :=
  (∀ f : Option Slot, ∀ k, k < frameWords → ∀ b, b < 8 →
    hits (x 13) (readOf env x).1 (wordAt (L.frame f) k + b) = false) ∧
  (readOf env x).1.log.all (spares L (x 13)) = true

instance (L : Layout) (env : TrapEnv σ) (x : Nat → BitVec 64) : Decidable (ReadClear L env x) :=
  inferInstanceAs (Decidable ((∀ f : Option Slot, ∀ k, k < frameWords → ∀ b, b < 8 →
    hits (x 13) (readOf env x).1 (wordAt (L.frame f) k + b) = false) ∧ _))

/-- The trap stores nothing on a frame but what the modelled code stores there. -/
def framesSpared (L : Layout) (s : Sys) : Action σ → Bool
  | .trap cause env =>
      decide (Clear L env.stir ∧
        (Ecall cause → s.machine.x 10 = 63 → ReadClear L env s.machine.x))
  | _ => true

/-- The registers stored for slot `i` and the resume PC `pc` are those of `ctx`. -/
structure Holds (L : Layout) (mem : Memory) (i : Slot) (pc : BitVec 64) (ctx : Context) :
    Prop where
  pc : pc = ctx.pc
  x : ∀ r, 1 ≤ r → r ≤ 31 → mem (wordAt (L.frame (some i)) r) = ctx.x r

structure OnCpu (m : Machine) (ctx : Context) : Prop where
  pc : m.pc = ctx.pc
  x : ∀ r, 1 ≤ r → r ≤ 31 → m.x r = ctx.x r

structure Inv (L : Layout) (s : Sys) : Prop where
  table : s.table.WellFormed
  scratch : s.machine.core.mscratch = L.frame s.table.current
  saved : ∀ i proc, s.table.slots i = some proc → s.table.current ≠ some i →
    Holds L s.machine.core.mem i proc.pc (s.last i)

inductive Handled (L : Layout) (env : TrapEnv σ) (epc cause frame : BitVec 64) (c : Core) :
    BitVec 64 → Core → Prop where
  | interrupt (kind : Interrupt cause 3 ∨ Interrupt cause 11) :
      Handled L env epc cause frame c epc c
  | tick (i : Slot) (pc : BitVec 64) (t : Table) (timer : Interrupt cause 7)
      (chosen : schedule epc c.kernel.table = (some (i, pc), t)) :
      Handled L env epc cause frame c pc { c.setTable t with mscratch := L.frame (some i) }
  | lull (t : Table) (timer : Interrupt cause 7)
      (nothing : schedule epc c.kernel.table = (none, t)) :
      Handled L env epc cause frame c epc (c.setTable t)
  | fault (seen : Bool) (exception : isAsync cause = false) (other : ¬ Ecall cause) :
      Handled L env epc cause frame c (epc + 4) { c with accessFaultSeen := seen }
  | ecall (kind : Ecall cause) (plain : c.mem (wordAt frame 10) ≠ 93) :
      Handled L env epc cause frame c (epc + 4) c
  | read (n : Nat) (kind : Ecall cause) (number : c.mem (wordAt frame 10) = 63) :
      Handled L env epc cause frame c (epc + 4) { c with
        mem := Function.update
          (paste (c.mem (wordAt frame 13)) (readOf env fun r => c.mem (wordAt frame r)).1 c.mem)
          (wordAt frame 10) (BitVec.ofNat 64 n) }
  | exit (i : Slot) (pc : BitVec 64) (t : Table) (kind : Ecall cause)
      (number : c.mem (wordAt frame 10) = 93)
      (chosen : schedule epc (exitCurrent c.kernel.table).2 = (some (i, pc), t)) :
      Handled L env epc cause frame c pc { c.setTable t with mscratch := L.frame (some i) }

variable {L : Layout}

theorem doSyscall_handled {env : TrapEnv σ} {epc cause frame pc : BitVec 64} {c c' : Core}
    (kind : Ecall cause) (returns : doSyscall L env epc frame c = some (pc, c')) :
    Handled L env epc cause frame c pc c' := by
  unfold doSyscall at returns
  dsimp only at returns
  split_ifs at returns with ping read exit
  · cases returns
    exact .ecall kind (by rw [ping]; decide)
  · split at returns
    · next w n result =>
        cases returns
        have reads : Handled L env epc cause frame c (epc + 4) _ := .read n kind read
        rw [result] at reads
        exact reads
    · cases returns
  · split at returns
    · next chosen =>
        cases returns
        exact .exit _ _ _ kind exit chosen
    · cases returns
  · cases returns
    exact .ecall kind exit

theorem mTrap_handled {env : TrapEnv σ} {epc cause frame pc : BitVec 64} {c c' : Core}
    (returns : mTrap L env epc cause frame c = some (pc, c')) :
    Handled L env epc cause frame c pc c' := by
  unfold mTrap at returns
  split_ifs at returns with async
  · split at returns
    · next number =>
        cases returns
        exact .interrupt (Or.inl ⟨async, number⟩)
    · next number =>
        unfold timerTrap at returns
        split at returns
        · next chosen =>
            cases returns
            exact .tick _ _ _ ⟨async, number⟩ chosen
        · next nothing =>
            cases returns
            exact .lull _ ⟨async, number⟩ nothing
    · next number =>
        cases returns
        exact .interrupt (Or.inr ⟨async, number⟩)
    · cases returns
  · have sync : isAsync cause = false := Bool.eq_false_of_not_eq_true async
    split at returns
    · cases returns
    · next number => exact doSyscall_handled ⟨sync, Or.inl number⟩ returns
    · next number => exact doSyscall_handled ⟨sync, Or.inr number⟩ returns
    · cases returns
    all_goals first
      | cases returns
        done
      | next number =>
          cases returns
          exact .fault _ sync fun ecall => by
            rcases ecall.2 with eight | nine <;> omega

theorem saved_other {m : Machine} {f g : Option Slot} (scratch : m.core.mscratch = L.frame g)
    (apart : f ≠ g) {k : Nat} (bound : k < frameWords) :
    m.saved.mem (wordAt (L.frame f) k) = m.core.mem (wordAt (L.frame f) k) := by
  apply storeWords_miss
  intro j member
  rw [scratch]
  refine L.apart f g apart k j bound ?_
  have := (List.mem_range'_1.mp member).2
  unfold frameWords
  omega

theorem saved_own (m : Machine) {r : Nat} (low : 1 ≤ r) (high : r ≤ 31) :
    m.saved.mem (wordAt m.core.mscratch r) = m.x r := by
  apply storeWords_hit
  · intro j member
    have := (List.mem_range'_1.mp member).2
    unfold frameWords
    omega
  · exact List.mem_range'_1.mpr ⟨low, by omega⟩

theorem overlay_clear {writes : Nat → Option (BitVec 64)} (clear : Clear L writes)
    (mem : Memory) (f : Option Slot) {k : Nat} (bound : k < frameWords) :
    overlay writes mem (wordAt (L.frame f) k) = mem (wordAt (L.frame f) k) := by
  rw [overlay, clear f k bound, Option.getD_none]

theorem resumed_x {env : TrapEnv σ} (clear : Clear L env.stir) (m : Machine)
    (cause pc : BitVec 64) {core : Core} {f : Option Slot} (scratch : core.mscratch = L.frame f)
    {r : Nat} (low : 1 ≤ r) (high : r ≤ 31) :
    (m.resumed env cause pc core).x r = core.mem (wordAt (L.frame f) r) := by
  have listed : r ∈ List.range' 1 31 := List.mem_range'_1.mpr ⟨low, by omega⟩
  have loaded : (m.resumed env cause pc core).x r =
      overlay env.stir core.mem (wordAt core.mscratch r) := by
    simp only [Machine.resumed, loadWords_apply, if_pos listed]
  rw [loaded, scratch]
  exact overlay_clear clear core.mem f (by unfold frameWords; omega)

theorem Holds.of_mem {mem mem' : Memory} {i : Slot} {pc : BitVec 64} {ctx : Context}
    (holds : Holds L mem i pc ctx)
    (same : ∀ r, r ≤ 31 → mem' (wordAt (L.frame (some i)) r) = mem (wordAt (L.frame (some i)) r)) :
    Holds L mem' i pc ctx :=
  ⟨holds.pc, fun r low high => (same r high).trans (holds.x r low high)⟩

theorem Holds.overlay {writes : Nat → Option (BitVec 64)} {mem : Memory} {i : Slot}
    {pc : BitVec 64} {ctx : Context} (holds : Holds L mem i pc ctx) (clear : Clear L writes) :
    Holds L (overlay writes mem) i pc ctx :=
  holds.of_mem fun _ high => overlay_clear clear mem _ (by unfold frameWords; omega)

theorem readOf_saved (env : TrapEnv σ) (m : Machine) :
    readOf env (fun r => m.saved.mem (wordAt m.core.mscratch r)) = readOf env m.x := by
  have same {r : Nat} (low : 1 ≤ r) (high : r ≤ 31) := saved_own m low high
  unfold readOf Minix3.sysRead
  simp only [Fin.coe_ofNat_eq_mod, Nat.reduceMod]
  rw [same (by decide) (by decide), same (by decide) (by decide), same (by decide) (by decide),
    same (by decide) (by decide), same (by decide) (by decide)]

theorem paste_miss {buffer : BitVec 64} {w : Minix3.World σ} {a : Nat}
    (miss : ∀ b, b < 8 → hits buffer w (a + b) = false) (mem : Memory) :
    paste buffer w mem a = mem a :=
  if_pos miss

theorem Holds.onCpu {env : TrapEnv σ} (clear : Clear L env.stir) {m : Machine}
    {cause pc : BitVec 64} {core : Core} {i : Slot} {ctx : Context}
    (holds : Holds L core.mem i pc ctx) (scratch : core.mscratch = L.frame (some i)) :
    OnCpu (m.resumed env cause pc core) ctx :=
  ⟨holds.pc, fun r low high => (resumed_x clear m cause pc scratch low high).trans
    (holds.x r low high)⟩

def Sys.entering (s : Sys) (i : Slot) : Context :=
  if s.table.current = some i then s.context else s.last i

theorem record_timer (s : Sys) {cause : BitVec 64} (env : TrapEnv σ)
    (timer : Interrupt cause 7) : record s (.trap cause env) = s.entering := by
  funext i
  unfold record Sys.entering
  cases current : s.table.current with
  | none => rfl
  | some c =>
      by_cases same : i = c
      · subst same
        simp only [if_pos timer, Function.update_self, if_true]
      · rw [if_neg fun equal => same (Option.some.inj equal).symm]
        simp only [if_pos timer, Function.update_of_ne same]

theorem record_other (s : Sys) {cause : BitVec 64} (env : TrapEnv σ)
    (other : ¬ Interrupt cause 7) : record s (.trap cause env) = s.last := by
  simp only [record]
  cases s.table.current with
  | none => rfl
  | some c => exact if_neg other

theorem Inv.waiting {s : Sys} (inv : Inv L s) {i : Slot} {proc : Process}
    (occupied : s.table.slots i = some proc) (away : s.table.current ≠ some i) :
    Holds L s.machine.saved.mem i proc.pc (s.last i) := by
  apply (inv.saved i proc occupied away).of_mem
  intro r high
  exact saved_other inv.scratch away.symm (by unfold frameWords; omega)

/-- Once the scheduler has stashed the PC, every frame holds its context. -/
theorem Inv.stashed {s : Sys} (inv : Inv L s) {i : Slot} {proc : Process}
    (occupied : (s.table.stash s.machine.pc).slots i = some proc) :
    Holds L s.machine.saved.mem i proc.pc (s.entering i) := by
  by_cases here : s.table.current = some i
  · obtain ⟨old, was⟩ := Option.isSome_iff_exists.mp (inv.table.current i here)
    rw [Table.stash_of_current inv.table _ here was, Table.setSlot_same,
      Option.some.injEq] at occupied
    rw [Sys.entering, if_pos here, ← occupied]
    refine ⟨rfl, fun r low high => ?_⟩
    rw [← here, ← inv.scratch]
    exact saved_own s.machine low high
  · rw [Table.stash_other _ here] at occupied
    rw [Sys.entering, if_neg here]
    exact inv.waiting occupied here

theorem Interrupt.unique {cause : BitVec 64} {m n : Nat} (first : Interrupt cause m)
    (second : Interrupt cause n) : m = n :=
  first.2.symm.trans second.2

theorem Interrupt.not_ecall {cause : BitVec 64} {n : Nat} (interrupt : Interrupt cause n) :
    ¬ Ecall cause := by
  intro ecall
  have clash := interrupt.1.symm.trans ecall.1
  cases clash

theorem Interrupt.timer_only {cause : BitVec 64} (timer : Interrupt cause 7) :
    ¬ (Interrupt cause 3 ∨ Interrupt cause 11) := by
  intro kind
  rcases kind with soft | external
  · exact absurd (timer.unique soft) (by decide)
  · exact absurd (timer.unique external) (by decide)

/-- What a trap does to the context on the hart and to the history. -/
structure TrapSpec (s : Sys) (cause : BitVec 64) (s' : Sys) : Prop where
  dispatched : Interrupt cause 7 ∨ Ecall cause ∧ s.machine.x 10 = 93 →
    ∀ j, s'.table.current = some j → OnCpu s'.machine (s'.last j)
  kept : ∀ j, s.table.current ≠ some j → s'.last j = s.last j
  preempted : Interrupt cause 7 → ∀ i, s.table.current = some i → s'.last i = s.context
  lull : Interrupt cause 7 → s'.table.current = none → OnCpu s'.machine s.context
  interrupt : Interrupt cause 3 ∨ Interrupt cause 11 →
    s'.table.current = s.table.current ∧ OnCpu s'.machine s.context
  ecall : Ecall cause → s.machine.x 10 ≠ 93 →
    s'.table.current = s.table.current ∧ s'.machine.pc = s.machine.pc + 4 ∧
      ∀ r, 1 ≤ r → r ≤ 31 → ¬ (r = 10 ∧ s.machine.x 10 = 63) →
        s'.machine.x r = s.machine.x r

theorem resumed_same {env : TrapEnv σ} (clear : Clear L env.stir) {s : Sys} (inv : Inv L s)
    (cause pc : BitVec 64) {core : Core} (scratch : core.mscratch = s.machine.core.mscratch)
    {r : Nat} (low : 1 ≤ r) (high : r ≤ 31)
    (word : core.mem (wordAt s.machine.core.mscratch r) =
      s.machine.saved.mem (wordAt s.machine.core.mscratch r)) :
    (s.machine.resumed env cause pc core).x r = s.machine.x r := by
  rw [resumed_x clear s.machine cause pc (scratch.trans inv.scratch) low high,
    ← inv.scratch, word]
  exact saved_own s.machine low high

/-- A trap that neither the timer nor an exit caused keeps the invariant. -/
theorem Inv.stay {env : TrapEnv σ} (clear : Clear L env.stir) {s : Sys} (inv : Inv L s)
    (cause pc : BitVec 64) {core : Core} (kernel : core.kernel = s.machine.core.kernel)
    (scratch : core.mscratch = s.machine.core.mscratch)
    (mem : ∀ f k, f ≠ s.table.current → k < frameWords →
      core.mem (wordAt (L.frame f) k) = s.machine.saved.mem (wordAt (L.frame f) k)) :
    Inv L ⟨s.machine.resumed env cause pc core, s.last⟩ := by
  have table : (⟨s.machine.resumed env cause pc core, s.last⟩ : Sys).table = s.table := by
    rw [Sys.table, Sys.table, ← kernel]
    rfl
  refine ⟨table ▸ inv.table, table ▸ scratch.trans inv.scratch, ?_⟩
  rw [table]
  intro i proc occupied away
  have same : Holds L core.mem i proc.pc (s.last i) :=
    (inv.waiting occupied away).of_mem fun r high =>
      mem (some i) r away.symm (by unfold frameWords; omega)
  exact same.overlay clear

theorem Inv.dispatch {env : TrapEnv σ} (clear : Clear L env.stir) (s : Sys) (cause : BitVec 64)
    {t : Table} {i : Slot} {proc : Process} {ctx : Slot → Context} (wf : t.WellFormed)
    (chosen : t.current = some i) (occupied : t.slots i = some proc)
    (holds : ∀ j p, t.slots j = some p → Holds L s.machine.saved.mem j p.pc (ctx j)) :
    let core := { s.machine.saved.setTable t with mscratch := L.frame (some i) }
    let m := s.machine.resumed env cause proc.pc core
    Inv L ⟨m, ctx⟩ ∧ OnCpu m (ctx i) := by
  refine ⟨⟨wf, ?_, ?_⟩, ?_⟩
  · change L.frame (some i) = L.frame t.current
    rw [chosen]
  · intro j p held away
    exact (holds j p held).overlay clear
  · exact Holds.onCpu clear (holds i proc occupied) rfl

theorem Inv.exited {s : Sys} (inv : Inv L s) {epc : BitVec 64} {j : Slot} {p : Process}
    (occupied : ((exitCurrent s.table).2.stash epc).slots j = some p) :
    Holds L s.machine.saved.mem j p.pc (s.last j) := by
  rw [Table.stash_of_idle epc (exitCurrent_current inv.table)] at occupied
  cases current : s.table.current with
  | none =>
      have same : exitCurrent s.table = (none, s.table) := by
        simp only [exitCurrent, current]
      rw [same] at occupied
      exact inv.waiting occupied (by rw [current]; exact fun equal => by cases equal)
  | some c =>
      obtain ⟨proc, held⟩ := Option.isSome_iff_exists.mp (inv.table.current c current)
      rw [exitCurrent_of_current current held] at occupied
      by_cases same : j = c
      · subst same
        change (s.table.setSlot j none).slots j = some p at occupied
        rw [Table.setSlot_same] at occupied
        cases occupied
      · change (s.table.setSlot c none).slots j = some p at occupied
        rw [Table.setSlot_other _ _ same] at occupied
        refine inv.waiting occupied fun equal => same ?_
        rw [current] at equal
        exact (Option.some.inj equal).symm

/-- Traps that do not reschedule: the dispatcher leaves the table and `mscratch` alone and
writes at most `a0` of the trapped frame. -/
theorem trap_stay {env : TrapEnv σ} (clear : Clear L env.stir) {s : Sys} (inv : Inv L s)
    {cause pc : BitVec 64} {core : Core} (kernel : core.kernel = s.machine.core.kernel)
    (scratch : core.mscratch = s.machine.core.mscratch)
    (others : ∀ f k, f ≠ s.table.current → k < frameWords →
      core.mem (wordAt (L.frame f) k) = s.machine.saved.mem (wordAt (L.frame f) k))
    (own : ∀ r, 1 ≤ r → r ≤ 31 → ¬ (r = 10 ∧ s.machine.x 10 = 63 ∧ Ecall cause) →
      core.mem (wordAt s.machine.core.mscratch r) =
        s.machine.saved.mem (wordAt s.machine.core.mscratch r))
    (timer : ¬ Interrupt cause 7) (alive : ¬ (Ecall cause ∧ s.machine.x 10 = 93))
    (resumes : isAsync cause = true → pc = s.machine.pc)
    (skips : Ecall cause → pc = s.machine.pc + 4) :
    Inv L ⟨s.machine.resumed env cause pc core, s.last⟩ ∧
      TrapSpec s cause ⟨s.machine.resumed env cause pc core, s.last⟩ := by
  have current : (⟨s.machine.resumed env cause pc core, s.last⟩ : Sys).table.current =
      s.table.current := by
    rw [Sys.table, Sys.table, ← kernel]
    rfl
  refine ⟨inv.stay clear cause pc kernel scratch others, ?_⟩
  constructor
  case dispatched => exact fun either => absurd either (not_or.mpr ⟨timer, alive⟩)
  case kept => exact fun _ _ => rfl
  case preempted => exact fun tick => absurd tick timer
  case lull => exact fun tick => absurd tick timer
  case interrupt =>
    intro kind
    have async : isAsync cause = true := kind.elim And.left And.left
    have calls : ¬ Ecall cause := kind.elim Interrupt.not_ecall Interrupt.not_ecall
    refine ⟨current, resumes async, fun r low high => ?_⟩
    exact resumed_same clear inv cause pc scratch low high
      (own r low high fun special => calls special.2.2)
  case ecall =>
    intro kind _
    refine ⟨current, skips kind, fun r low high ordinary => ?_⟩
    exact resumed_same clear inv cause pc scratch low high
      (own r low high fun special => ordinary ⟨special.1, special.2.1⟩)

theorem trap_tick {env : TrapEnv σ} (clear : Clear L env.stir) {s : Sys} (inv : Inv L s)
    {cause pc : BitVec 64} {i : Slot} {t : Table} (timer : Interrupt cause 7)
    (chosen : schedule s.machine.pc s.table = (some (i, pc), t)) :
    let core := { s.machine.saved.setTable t with mscratch := L.frame (some i) }
    Inv L ⟨s.machine.resumed env cause pc core, s.entering⟩ ∧
      TrapSpec s cause ⟨s.machine.resumed env cause pc core, s.entering⟩ := by
  rcases schedule_cases inv.table s.machine.pc with ⟨j, proc, occupied, result⟩ | ⟨_, result⟩
  · have wf := schedule_wellFormed inv.table s.machine.pc
    rw [result] at chosen wf
    cases chosen
    obtain ⟨kept, onCpu⟩ := Inv.dispatch clear s cause wf rfl occupied
      fun _ _ held => inv.stashed held
    refine ⟨kept, ?_⟩
    constructor
    case dispatched =>
      intro _ j current
      cases current
      exact onCpu
    case kept => exact fun j away => if_neg away
    case preempted => exact fun _ i here => if_pos here
    case lull => exact fun _ gone => by cases gone
    case interrupt => exact fun kind => absurd kind timer.timer_only
    case ecall => exact fun ecall => absurd ecall timer.not_ecall
  · rw [result] at chosen
    cases chosen

theorem trap_lull {env : TrapEnv σ} (clear : Clear L env.stir) {s : Sys} (inv : Inv L s)
    {cause : BitVec 64} {t : Table} (timer : Interrupt cause 7)
    (nothing : schedule s.machine.pc s.table = (none, t)) :
    let core := s.machine.saved.setTable t
    Inv L ⟨s.machine.resumed env cause s.machine.pc core, s.entering⟩ ∧
      TrapSpec s cause ⟨s.machine.resumed env cause s.machine.pc core, s.entering⟩ := by
  rcases schedule_cases inv.table s.machine.pc with ⟨j, proc, _, result⟩ | ⟨vacant, result⟩
  · rw [result] at nothing
    cases nothing
  · have wf := schedule_wellFormed inv.table s.machine.pc
    rw [result] at nothing wf
    cases nothing
    have idle : s.table.current = none := by
      cases current : s.table.current with
      | none => rfl
      | some c =>
          have held := inv.table.current c current
          rw [vacant c] at held
          cases held
    have scratch : s.machine.core.mscratch = L.frame none := idle ▸ inv.scratch
    refine ⟨⟨wf, scratch, fun i proc occupied => ?_⟩, ?_⟩
    · have gone := (vacant i).symm.trans occupied
      cases gone
    constructor
    case dispatched => exact fun _ j current => by cases current
    case kept => exact fun j away => if_neg away
    case preempted => exact fun _ i here => if_pos here
    case lull =>
      intro _ _
      refine ⟨rfl, fun r low high => ?_⟩
      apply resumed_same clear inv cause s.machine.pc _ low high
      · rfl
      · rfl
    case interrupt => exact fun kind => absurd kind timer.timer_only
    case ecall => exact fun ecall => absurd ecall timer.not_ecall

theorem trap_exit {env : TrapEnv σ} (clear : Clear L env.stir) {s : Sys} (inv : Inv L s)
    {cause pc : BitVec 64} {i : Slot} {t : Table} (kind : Ecall cause)
    (number : s.machine.x 10 = 93)
    (chosen : schedule s.machine.pc (exitCurrent s.table).2 = (some (i, pc), t)) :
    let core := { s.machine.saved.setTable t with mscratch := L.frame (some i) }
    Inv L ⟨s.machine.resumed env cause pc core, s.last⟩ ∧
      TrapSpec s cause ⟨s.machine.resumed env cause pc core, s.last⟩ := by
  have left := exitCurrent_wellFormed inv.table
  rcases schedule_cases left s.machine.pc with ⟨j, proc, occupied, result⟩ | ⟨_, result⟩
  · have wf := schedule_wellFormed left s.machine.pc
    rw [result] at chosen wf
    cases chosen
    obtain ⟨kept, onCpu⟩ := Inv.dispatch clear s cause wf rfl occupied
      fun _ _ held => inv.exited held
    refine ⟨kept, ?_⟩
    constructor
    case dispatched =>
      intro _ j current
      cases current
      exact onCpu
    case kept => exact fun _ _ => rfl
    case preempted => exact fun timer => absurd kind timer.not_ecall
    case lull => exact fun timer => absurd kind timer.not_ecall
    case interrupt =>
      intro interrupt
      exact absurd kind (interrupt.elim Interrupt.not_ecall Interrupt.not_ecall)
    case ecall => exact fun _ alive => absurd number alive
  · rw [result] at chosen
    cases chosen

theorem trap_read {env : TrapEnv σ} (clear : Clear L env.stir) {s : Sys} (inv : Inv L s)
    {cause : BitVec 64} (kind : Ecall cause) (number : s.machine.x 10 = 63)
    (spares : ReadClear L env s.machine.x) (n : Nat) :
    let core := { s.machine.saved with
      mem := Function.update
        (paste (s.machine.x 13) (readOf env s.machine.x).1 s.machine.saved.mem)
        (wordAt s.machine.core.mscratch 10) (BitVec.ofNat 64 n) }
    Inv L ⟨s.machine.resumed env cause (s.machine.pc + 4) core, s.last⟩ ∧
      TrapSpec s cause ⟨s.machine.resumed env cause (s.machine.pc + 4) core, s.last⟩ := by
  -- The copies leave every frame as the vector saved it.
  have pasted (f : Option Slot) (k : Nat) (bound : k < frameWords) :
      paste (s.machine.x 13) (readOf env s.machine.x).1 s.machine.saved.mem
        (wordAt (L.frame f) k) = s.machine.saved.mem (wordAt (L.frame f) k) :=
    paste_miss (spares.1 f k bound) _
  refine trap_stay clear inv rfl rfl ?_ ?_ (fun timer => timer.not_ecall kind) ?_
    (fun async => ?_) fun _ => rfl
  · intro f k away bound
    refine (Function.update_of_ne ?_ _ _).trans (pasted f k bound)
    rw [inv.scratch]
    exact L.apart f s.table.current away k 10 bound (by decide)
  · intro r low high ordinary
    have kept := pasted s.table.current r (by unfold frameWords; omega)
    rw [← inv.scratch] at kept
    refine (Function.update_of_ne ?_ _ _).trans kept
    intro same
    exact ordinary ⟨wordAt_inj (by omega) (by omega) same, number, kind⟩
  · intro both
    rw [number] at both
    exact absurd both.2 (by decide)
  · cases async.symm.trans kind.1

theorem trap_step {s s' : Sys} {cause : BitVec 64} {env : TrapEnv σ} (inv : Inv L s)
    (spared : framesSpared L s (.trap cause env) = true)
    (taken : (system L σ).step s (.trap cause env) = some s') :
    Inv L s' ∧ TrapSpec s cause s' := by
  obtain ⟨m', moved, rfl⟩ := Option.map_eq_some_iff.mp taken
  obtain ⟨clear, reads⟩ := of_decide_eq_true spared
  simp only [stepMachine] at moved
  rw [takeTrap_eq] at moved
  obtain ⟨⟨pc, core⟩, handled, rfl⟩ := Option.map_eq_some_iff.mp moved
  have a0 : s.machine.saved.mem (wordAt s.machine.core.mscratch 10) = s.machine.x 10 :=
    saved_own s.machine (by omega) (by omega)
  cases mTrap_handled handled with
  | interrupt kind =>
      have other : ¬ Interrupt cause 7 := fun timer => timer.timer_only kind
      have calls : ¬ Ecall cause := kind.elim Interrupt.not_ecall Interrupt.not_ecall
      rw [record_other s env other]
      exact trap_stay clear inv rfl rfl (fun _ _ _ _ => rfl) (fun _ _ _ _ => rfl) other
        (fun both => calls both.1) (fun _ => rfl) fun ecall => absurd ecall calls
  | tick i pc t timer chosen =>
      rw [record_timer s env timer]
      exact trap_tick clear inv timer chosen
  | lull t timer nothing =>
      rw [record_timer s env timer]
      exact trap_lull clear inv timer nothing
  | fault seen exception calls =>
      have sync {n : Nat} (interrupt : Interrupt cause n) : False := by
        have clash := interrupt.1.symm.trans exception
        cases clash
      rw [record_other s env sync]
      refine trap_stay clear inv rfl rfl (fun _ _ _ _ => rfl) (fun _ _ _ _ => rfl) sync
        (fun both => calls both.1) (fun async => ?_) fun ecall => absurd ecall calls
      cases async.symm.trans exception
  | ecall kind plain =>
      have sync {n : Nat} (interrupt : Interrupt cause n) : False := interrupt.not_ecall kind
      rw [record_other s env sync]
      refine trap_stay clear inv rfl rfl (fun _ _ _ _ => rfl) (fun _ _ _ _ => rfl) sync
        (fun both => plain (a0.trans both.2)) (fun async => ?_) fun _ => rfl
      cases async.symm.trans kind.1
  | read n kind number =>
      have a3 : s.machine.saved.mem (wordAt s.machine.core.mscratch 13) = s.machine.x 13 :=
        saved_own s.machine (by omega) (by omega)
      have call : s.machine.x 10 = 63 := a0.symm.trans number
      rw [record_other s env fun timer => timer.not_ecall kind, readOf_saved, a3]
      exact trap_read clear inv kind call (reads kind call) n
  | exit i pc t kind number chosen =>
      rw [record_other s env fun timer => timer.not_ecall kind]
      exact trap_exit clear inv kind (a0.symm.trans number) chosen

theorem user_inv {s : Sys} {x : Nat → BitVec 64} {pc : BitVec 64}
    {writes : Nat → Option (BitVec 64)} (inv : Inv L s) (clear : Clear L writes) :
    Inv L ⟨{ s.machine with
      x := x
      pc := pc
      core := { s.machine.core with mem := overlay writes s.machine.core.mem } }, s.last⟩ :=
  ⟨inv.table, inv.scratch, fun i proc occupied away =>
    (inv.saved i proc occupied away).overlay clear⟩

theorem spawn_cases (entry : BitVec 64) (stack : Option Nat) (c : Core) :
    (∃ base i pid, stack = some base ∧ c.kernel.table.freeSlot = some i ∧
        (spawn L entry stack c).kernel.table =
          c.kernel.table.setSlot i (some ⟨base, entry, pid, .running⟩) ∧
        (spawn L entry stack c).mem = storeWords (L.frame (some i))
          (freshFrame base c.trapStackTop) (List.range frameWords) c.mem) ∨
      ((stack = none ∨ c.kernel.table.freeSlot = none) ∧
        (spawn L entry stack c).kernel.table = c.kernel.table ∧
        (spawn L entry stack c).mem = c.mem) := by
  unfold spawn spawnKernel
  cases stack with
  | none => exact Or.inr ⟨Or.inl rfl, rfl, rfl⟩
  | some base =>
      cases free : c.kernel.table.freeSlot with
      | none =>
          refine Or.inr ⟨Or.inr rfl, ?_, rfl⟩
          simp only [Option.map_some]
      | some i =>
          refine Or.inl ⟨base, i, c.kernel.nextPid, rfl, rfl, ?_, rfl⟩
          simp only [Option.map_some]

theorem spawn_scratch (entry : BitVec 64) (stack : Option Nat) (c : Core) :
    (spawn L entry stack c).mscratch = c.mscratch := by
  unfold spawn
  split <;> rfl

theorem spawn_inv {s : Sys} (inv : Inv L s) (entry : BitVec 64) (stack : Option Nat) :
    Inv L ⟨{ s.machine with core := spawn L entry stack s.machine.core },
      record s (.spawn entry stack : Action σ)⟩ := by
  have scratch : (spawn L entry stack s.machine.core).mscratch = L.frame s.table.current :=
    (spawn_scratch entry stack s.machine.core).trans inv.scratch
  rcases spawn_cases (L := L) entry stack s.machine.core with
    ⟨base, i, pid, rfl, free, table, mem⟩ | ⟨failed, table, mem⟩
  · have history : record s (.spawn entry (some base) : Action σ) =
        Function.update s.last i ⟨freshX base, entry⟩ := by
      have here : s.table.freeSlot = some i := free
      simp only [record, here]
    refine ⟨?_, ?_, ?_⟩
    · rw [Sys.table, table]
      exact Table.setSlot_wellFormed inv.table i rfl
    · rw [Sys.table, table]
      exact scratch
    · intro j proc occupied away
      rw [Sys.table, table] at occupied away
      change Holds L (spawn L entry (some base) s.machine.core).mem j proc.pc
        (record s (.spawn entry (some base) : Action σ) j)
      rw [history, mem]
      by_cases same : j = i
      · subst same
        rw [Table.setSlot_same, Option.some.injEq] at occupied
        rw [Function.update_self, ← occupied]
        refine ⟨rfl, fun r low high => ?_⟩
        rw [storeWords_hit (fun k member => List.mem_range.mp member)
          (List.mem_range.mpr (by unfold frameWords; omega))]
        exact if_neg (by unfold trapStackWord; omega)
      · rw [Table.setSlot_other _ _ same] at occupied
        rw [Function.update_of_ne same]
        apply (inv.saved j proc occupied away).of_mem
        intro r high
        apply storeWords_miss
        intro k member
        refine L.apart (some j) (some i) (fun equal => same (Option.some.inj equal)) r k ?_
          (List.mem_range.mp member)
        unfold frameWords
        omega
  · have history : record s (.spawn entry stack : Action σ) = s.last := by
      rcases failed with absent | full
      · simp only [record, absent]
      · have here : s.table.freeSlot = none := full
        simp only [record, here]
    refine ⟨?_, ?_, ?_⟩
    · rw [Sys.table, table]
      exact inv.table
    · rw [Sys.table, table]
      exact scratch
    · intro j proc occupied away
      rw [Sys.table, table] at occupied away
      change Holds L (spawn L entry stack s.machine.core).mem j proc.pc
        (record s (.spawn entry stack : Action σ) j)
      rw [history, mem]
      exact inv.saved j proc occupied away

theorem reach_inv {s : Sys} (reached : ((system L σ).restrict (framesSpared L)).Reach s) :
    Inv L s := by
  apply System.Reach.invariant _ _ reached
  · intro s initial
    obtain ⟨empty, scratch⟩ := initial
    refine ⟨?_, ?_, ?_⟩
    · rw [empty]
      exact Table.empty_wellFormed
    · rw [empty]
      exact scratch
    · intro i proc occupied
      rw [empty] at occupied
      cases occupied
  · intro s a s' inv allowed
    obtain ⟨spared, taken⟩ := System.restrict_step allowed
    cases a with
    | user x pc writes =>
        obtain ⟨m', moved, rfl⟩ := Option.map_eq_some_iff.mp taken
        simp only [stepMachine] at moved
        split_ifs at moved with clear
        cases moved
        exact user_inv inv clear
    | trap cause env => exact (trap_step inv spared taken).1
    | spawn entry stack =>
        cases taken
        exact spawn_inv inv entry stack

/-- Context switches preserve every process's context in the runs in which no `read` copies
onto a frame.  In every state of such a run `mscratch` points at the frame of the current
process, and each waiting process's frame and PC are those recorded when the timer last
preempted it (or its fresh ones); and every trap of such a run dispatches exactly a recorded
context, or returns to the trapped one with at most `a0` changed by `read`. -/
theorem context_preserved (L : Layout) {s : Sys}
    (reached : ((system L σ).restrict (framesSpared L)).Reach s) :
    (∀ i, s.table.current = some i → s.machine.core.mscratch = L.frame (some i)) ∧
    (∀ i proc, s.table.slots i = some proc → s.table.current ≠ some i →
      Holds L s.machine.core.mem i proc.pc (s.last i)) ∧
    ∀ cause (env : TrapEnv σ) s',
      ((system L σ).restrict (framesSpared L)).step s (.trap cause env) = some s' →
      TrapSpec s cause s' := by
  have inv := reach_inv reached
  refine ⟨fun i current => ?_, inv.saved, fun cause env s' allowed => ?_⟩
  · rw [← current]
    exact inv.scratch
  · obtain ⟨spared, taken⟩ := System.restrict_step allowed
    exact (trap_step inv spared taken).2

def boardAddress : Option Slot → Nat
  | none => 0x80010000
  | some i => 0x80020000 + 640 * i.val

def boardLayout : Layout where
  frame f := BitVec.ofNat 64 (boardAddress f)
  apart := by
    intro f g apart j k left right same
    have bound (f : Option Slot) : boardAddress f < 2 ^ 32 := by
      cases f with
      | none => decide
      | some i =>
          have := i.isLt
          simp only [boardAddress, maxProcesses] at this ⊢
          omega
    have first := bound f
    have second := bound g
    simp only [wordAt, BitVec.toNat_add, BitVec.toNat_ofNat, frameWords] at same left right
    have equal : boardAddress f + 8 * j = boardAddress g + 8 * k := by omega
    cases f with
    | none =>
        cases g with
        | none => exact apart rfl
        | some i =>
            simp only [boardAddress] at equal
            omega
    | some i =>
        cases g with
        | none =>
            simp only [boardAddress] at equal
            omega
        | some i' =>
            simp only [boardAddress] at equal
            exact apart (congrArg some (Fin.ext (by omega)))
  kernel a := 0x80000000 ≤ a && a < 0x80100000

def bootMachine : Machine where
  x := fun _ => 0
  pc := 0x80000000
  mepc := 0
  mtval := 0
  mcause := 0
  mhartid := 0
  mstatus := 0
  core := ⟨boardLayout.frame none, fun _ => 0, ⟨Table.empty, 1⟩, 0x80200000, false⟩

def bootSys : Sys := ⟨bootMachine, fun _ => ⟨fun _ => 0, 0⟩⟩

def spawnedSys : Sys :=
  ⟨{ bootMachine with
      core := spawn boardLayout 0x80001000 (some 0x80100000) bootMachine.core },
    record (σ := Unit) bootSys (.spawn 0x80001000 (some 0x80100000))⟩

/-- A trap whose handler stores nothing of its own, on a disk full of ones. -/
def quietEnv : TrapEnv Unit where
  tval := 0
  clobber := fun _ => 7
  stir := fun _ => none
  platform := Minix3.willingPlatform fun _ offset =>
    if offset = 1048 then 0x5a else if offset = 1049 then 0x4d else 1
  world := ⟨(), fun _ => 0, []⟩

theorem spawnedSys_reach :
    ((system boardLayout Unit).restrict (framesSpared boardLayout)).Reach spawnedSys := by
  have boot : ((system boardLayout Unit).restrict (framesSpared boardLayout)).Reach bootSys :=
    .start ⟨rfl, rfl⟩
  exact boot.next (.spawn 0x80001000 (some 0x80100000)) rfl

theorem context_preserved_first_tick :
    ∃ s', ((system boardLayout Unit).restrict (framesSpared boardLayout)).step spawnedSys
        (.trap 0x8000000000000007 quietEnv) = some s' ∧
      OnCpu s'.machine ⟨freshX 0x80100000, 0x80001000⟩ := by
  have chosen : (((system boardLayout Unit).restrict (framesSpared boardLayout)).step spawnedSys
      (.trap 0x8000000000000007 quietEnv)).map (fun s => s.table.current) =
      some (some firstSlot) := by
    decide +kernel
  obtain ⟨s', taken, current⟩ := Option.map_eq_some_iff.mp chosen
  have spec := (context_preserved boardLayout spawnedSys_reach).2.2 _ quietEnv s' taken
  have fresh : s'.last firstSlot = ⟨freshX 0x80100000, 0x80001000⟩ :=
    (spec.kept firstSlot (by decide)).trans rfl
  exact ⟨s', taken, fresh ▸ spec.dispatched (Or.inl (by decide)) firstSlot current⟩

/-- The registers of a `read` of eight bytes from inode 1 into word 5 of the second slot's
frame. -/
def readOntoFrame : Nat → BitVec 64 := fun r =>
  if r = 10 then 63 else if r = 12 then 1 else if r = 13 then 0x80020000 + 640 + 40
  else if r = 14 then 8 else 0

def overwriting : List (Action Unit) :=
  [.spawn 0x80002000 (some 0x80102000), .trap 0x8000000000000007 quietEnv,
    .user readOntoFrame 0x80001010 fun _ => none, .trap 8 quietEnv]

/-- The waiting second process finds another `x5` in its frame than it was spawned with. -/
theorem read_overwrites_saved_frame :
    ∃ s : Sys, (system boardLayout Unit).Reach s ∧
      ∃ proc, s.table.slots secondSlot = some proc ∧ s.table.current ≠ some secondSlot ∧
        (s.last secondSlot).x 5 = 0 ∧
        s.machine.core.mem (wordAt (boardLayout.frame (some secondSlot)) 5) =
          0x0101010101010101 ∧
        ¬ Holds boardLayout s.machine.core.mem secondSlot proc.pc (s.last secondSlot) := by
  have ran : ((system boardLayout Unit).run spawnedSys overwriting).map (fun s : Sys =>
      (s.table.slots secondSlot, s.table.current, (s.last secondSlot).x 5,
        s.machine.core.mem (wordAt (boardLayout.frame (some secondSlot)) 5))) =
      some (some ⟨0x80102000, 0x80002000, 2, .running⟩, some firstSlot, 0,
        0x0101010101010101) := by
    decide +kernel
  obtain ⟨s, ends, facts⟩ := Option.map_eq_some_iff.mp ran
  simp only [Prod.mk.injEq] at facts
  obtain ⟨waiting, current, fresh, overwritten⟩ := facts
  refine ⟨s, spawnedSys_reach.of_restrict.run ends, _, waiting, ?_, fresh, overwritten, ?_⟩
  · rw [current]
    decide
  · intro holds
    have same := holds.x 5 (by decide) (by decide)
    rw [overwritten, fresh] at same
    exact absurd same (by decide)

end Vesper.Trap
