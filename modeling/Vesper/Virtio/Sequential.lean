import Mathlib.Tactic
import Vesper.Virtio.Completion

/-!
# Calls one after another

`block_op` as system call 63 uses it: one call at a time, with interrupts off, so that the
used ring is read only by the polling loop of the call itself, against a device that works
through the available ring in order and reports success.

The loop runs `pending` first and tests the status byte second.  A call can therefore return
with its own chain still open, and also with the chain of the call before it, if the device
publishes that one between the two.  With two chains open the next call finds two free
descriptors and fails.
-/

set_option autoImplicit false

namespace Vesper.Virtio

open Vesper.Lib (System)

inductive Pc where
  | idle
  | draining
  | testing
  | leaving
  deriving DecidableEq

/-- `backlog` has, for each call made, the number of chains open when it began. -/
structure Sequence where
  sys : Sys
  pc : Pc
  results : List Bool
  backlog : List Nat

def openStatus (m : Machine) : BitVec 8 :=
  match m.calls with
  | c :: _ => m.mem.byte (statusAddr c.page)
  | [] => statusPending

inductive Turn where
  | call (page : Nat) (op : Op)
  | driver
  | device (data : Nat → BitVec 8) (len : BitVec 32)

/-- The next thing an in-order device does that reports every request as done. -/
def deviceAction (m : Machine) (data : Nat → BitVec 8) (len : BitVec 32) : Action :=
  match m.jobs with
  | [] => .take
  | job :: _ =>
    match job.phase with
    | .taken => .move 0 data
    | .moved => .state 0 0
    | .stated => .publish 0 len

def Sequence.begin (s : Sequence) (sys : Sys) : Sequence :=
  let opened := !sys.machine.calls.isEmpty
  { sys := sys
    pc := if opened then .draining else .idle
    results := if opened then s.results else s.results ++ [false]
    backlog := s.backlog ++ [s.sys.history.chains.length] }

def Sequence.drive (s : Sequence) : Option Sequence :=
  match s.pc with
  | .idle => none
  | .draining =>
    if s.sys.machine.bd.ackUsedIdx = s.sys.machine.bd.queue.used.idx then
      some { s with pc := .testing }
    else (s.sys.step .drain).map fun sys => { s with sys := sys }
  | .testing =>
    let done := openStatus s.sys.machine ≠ statusPending
    (s.sys.step (.test 0)).map fun sys =>
      { s with sys := sys, pc := if done then .leaving else .draining }
  | .leaving =>
    (s.sys.step (.conclude 0)).map fun sys =>
      { s with sys := sys, pc := .idle, results := s.results ++ [openStatus s.sys.machine == 0] }

def Sequence.step (s : Sequence) : Turn → Option Sequence
  | .call page op =>
    if s.pc = .idle then (s.sys.step (.submit (some page) op)).map s.begin else none
  | .driver => s.drive
  | .device data len =>
    (s.sys.step (deviceAction s.sys.machine data len)).map fun sys => { s with sys := sys }

def Sequence.Initial (s : Sequence) : Prop :=
  Virtio.Initial s.sys ∧ s.sys.machine.bd.dev ≠ none ∧ s.sys.machine.bd.readOnly = false ∧
    s.pc = .idle ∧ s.results = [] ∧ s.backlog = []

def sequential : System where
  State := Sequence
  Action := Turn
  init := Sequence.Initial
  step := Sequence.step

/-! ## A run that fails -/

def readySequence : Sequence :=
  ⟨readySys, .idle, [], []⟩

theorem readySequence_initial : readySequence.Initial :=
  ⟨readySys_initial, by decide, rfl, rfl, rfl, rfl⟩

def serve : Turn :=
  .device (fun _ => 0) 1025

/-- The device writes each status right after the driver has looked at the used ring, and
publishes the first completion only then. -/
def latePublication : List Turn :=
  [.call 0x80200000 (blockRead 0x80300000), .driver, serve, serve, serve, .driver, .driver,
    .call 0x80200000 (blockRead 0x80300000), .driver, serve, serve, serve, serve, .driver, .driver,
    .call 0x80200000 (blockRead 0x80300000)]

theorem sequential_call_fails :
    ∃ s, sequential.Reach s ∧ s.results = [true, true, false] ∧ s.backlog = [0, 1, 2] := by
  have ran : (sequential.run readySequence latePublication).map (fun s : Sequence =>
      (s.results, s.backlog)) = some ([true, true, false], [0, 1, 2]) := by decide +kernel
  obtain ⟨s, ends, facts⟩ := Option.map_eq_some_iff.mp ran
  simp only [Prod.mk.injEq] at facts
  have start : sequential.Reach readySequence := System.Reach.start readySequence_initial
  exact ⟨s, start.run ends, facts⟩

/-! ## What single steps leave alone -/

theorem pendingStep_kept {bd bd' : BlockDevice} (result : pendingStep bd = some bd') :
    bd'.dev = bd.dev ∧ bd'.readOnly = bd.readOnly := by
  simp only [pendingStep] at result
  split at result
  · split at result <;> cases result
    exact ⟨rfl, rfl⟩
  · cases result
    exact ⟨rfl, rfl⟩

section Kept

variable {s s' : Sys} {a : Action}

theorem Stepped.device_kept (stepped : Stepped s a s') :
    s'.machine.bd.dev = s.machine.bd.dev ∧
      s'.machine.bd.readOnly = s.machine.bd.readOnly := by
  cases stepped with
  | drained m h bd elem behind read result => exact pendingStep_kept result
  | _ => exact ⟨rfl, rfl⟩

theorem Stepped.calls_kept (stepped : Stepped s a s')
    (background : a.byDevice = true ∨ a = .drain) : s'.machine.calls = s.machine.calls := by
  cases stepped with
  | submitted => simp [Action.byDevice] at background
  | left => simp [Action.byDevice] at background
  | concluded => simp [Action.byDevice] at background
  | _ => rfl

theorem Stepped.chains_kept (stepped : Stepped s a s') (other : a ≠ .drain)
    (failed : ∀ page op, a = .submit page op → s'.machine.calls = []) :
    s'.history.chains = s.history.chains := by
  cases stepped with
  | submitted m h page op => simpa using failed (some page) op rfl
  | drained => exact absurd rfl other
  | _ => rfl

theorem Stepped.test_length {i : Nat} (stepped : Stepped s (.test i) s') :
    s'.machine.calls.length = s.machine.calls.length := by
  cases stepped with
  | polled => rfl
  | left m h _ c before after calls done => simp [calls]

theorem Stepped.outcome_source (stepped : Stepped s a s') {i : Nat} {v : BitVec 8}
    (recorded : (i, v) ∈ s'.history.outcomes) :
    (i, v) ∈ s.history.outcomes ∨ ∃ j, a = .state j v := by
  cases stepped with
  | stated m h j value head before after jobs =>
      rcases List.mem_append.mp recorded with old | new
      · exact Or.inl old
      · obtain ⟨id, -, same⟩ := List.mem_map.mp new
        cases same
        exact Or.inr ⟨j, rfl⟩
  | _ => exact Or.inl recorded

end Kept

theorem deviceAction_cases (m : Machine) (data : Nat → BitVec 8) (len : BitVec 32) :
    (deviceAction m data len).byDevice = true ∧
      ∀ j v, deviceAction m data len = .state j v → v = 0 := by
  cases jobs : m.jobs with
  | nil => simp [deviceAction, jobs, Action.byDevice]
  | cons job rest =>
      cases phase : job.phase with
      | taken => simp [deviceAction, jobs, phase, Action.byDevice]
      | moved =>
          simp only [deviceAction, jobs, phase, Action.byDevice, true_and]
          intro j v same
          cases same
          rfl
      | stated => simp [deviceAction, jobs, phase, Action.byDevice]

/-! ## The invariant of sequential runs -/

structure Sequence.Inv (s : Sequence) : Prop where
  sound : Coherent s.sys
  present : s.sys.machine.bd.dev ≠ none
  writable : s.sys.machine.bd.readOnly = false
  single : s.sys.machine.calls.length ≤ 1
  idle : s.pc = .idle → s.sys.machine.calls = []
  zero : ∀ i v, (i, v) ∈ s.sys.history.outcomes → v = 0
  exact : (∀ r ∈ s.results, r = true) ↔ ∀ n ∈ s.backlog, n ≤ 1

namespace Sequence.Inv

variable {s : Sequence} {sys : Sys} {a : Action}

theorem follow (inv : s.Inv) (stepped : Stepped s.sys a sys) (pc : Pc)
    (single : sys.machine.calls.length ≤ 1) (idle : pc = .idle → sys.machine.calls = [])
    (zero : ∀ j v, a = .state j v → v = 0) : Sequence.Inv { s with sys := sys, pc := pc } where
  sound := inv.sound.step stepped
  present := stepped.device_kept.1 ▸ inv.present
  writable := stepped.device_kept.2 ▸ inv.writable
  single := single
  idle := idle
  zero := by
    intro i v recorded
    rcases stepped.outcome_source recorded with old | ⟨j, same⟩
    · exact inv.zero i v old
    · exact zero j v same
  exact := inv.exact

theorem follow_background (inv : s.Inv) (stepped : Stepped s.sys a sys)
    (background : a.byDevice = true ∨ a = .drain) (zero : ∀ j v, a = .state j v → v = 0) :
    Sequence.Inv { s with sys := sys } := by
  have kept := stepped.calls_kept background
  refine inv.follow stepped s.pc ?_ ?_ zero
  · rw [kept]
    exact inv.single
  · rw [kept]
    exact inv.idle

end Sequence.Inv

/-- With at most one chain open a submission goes through, with two it does not. -/
theorem allocDescChain_isSome_iff {q : QueueState} {chains : List Chain} (owned : Owned q chains) :
    (allocDescChain q).1.isSome ↔ chains.length ≤ 1 := by
  rcases allocDescChain_cases q with ⟨sl, found, distinct, free⟩ | ⟨full, got, short, all⟩
  · have grown := (owned.claim distinct free 0 0 ⟨0, 0, 0, false⟩).length_le
    simp only [List.length_append, List.length_singleton] at grown
    simp only [found, Option.isSome_some, true_iff]
    omega
  · simp only [full, Option.isSome_none, Bool.false_eq_true, false_iff]
    intro room
    have := owned.finds_free room all
    omega

theorem Sequence.begin_opened (s : Sequence) {sys : Sys} (opened : sys.machine.calls ≠ []) :
    s.begin sys = ⟨sys, .draining, s.results, s.backlog ++ [s.sys.history.chains.length]⟩ := by
  simp [Sequence.begin, opened]

theorem Sequence.begin_failed (s : Sequence) {sys : Sys} (failed : sys.machine.calls = []) :
    s.begin sys =
      ⟨sys, .idle, s.results ++ [false], s.backlog ++ [s.sys.history.chains.length]⟩ := by
  simp [Sequence.begin, failed]

theorem Sequence.Inv.begin {s : Sequence} (inv : s.Inv) (idle : s.pc = .idle) {page : Nat}
    {op : Op} {sys : Sys} (taken : s.sys.step (.submit (some page) op) = some sys) :
    (s.begin sys).Inv := by
  have stepped := Sys.step_stepped taken
  have none' := inv.idle idle
  have room := allocDescChain_isSome_iff inv.sound.inv.owned
  have exact' := inv.exact
  obtain ⟨old, pc, results, backlog⟩ := s
  simp only at none' room exact'
  cases stepped with
  | refused _ _ _ refuses =>
      have present := inv.present
      have writable := inv.writable
      simp only at present writable
      simp [present, writable] at refuses
  | exhausted m h _ _ fresh full =>
      have short : ¬h.chains.length ≤ 1 := by
        rw [← room, full]
        simp
      have next := inv.follow (Stepped.exhausted m h page op fresh full) .idle
        inv.single (fun _ => none') (by simp)
      rw [Sequence.begin_failed _ (by exact none')]
      refine ⟨next.sound, next.present, next.writable, next.single, next.idle, next.zero, ?_⟩
      constructor
      · intro all
        cases all false (by simp)
      · intro all
        exact absurd (all _ (by simp)) short
  | submitted m h _ _ sl fresh distinct free =>
      simp only at none'
      have next := inv.follow (Stepped.submitted m h page op sl fresh distinct free) .draining
        (by simp [none']) (by simp) (by simp)
      have grown := next.sound.inv.owned.length_le
      have fits : h.chains.length ≤ 1 := by
        simp only [List.length_append, List.length_singleton] at grown
        omega
      rw [Sequence.begin_opened _ (by simp)]
      refine ⟨next.sound, next.present, next.writable, next.single, next.idle, next.zero, ?_⟩
      simp only [exact', List.mem_append, List.mem_singleton]
      constructor
      · rintro all n (old | rfl)
        · exact all n old
        · exact fits
      · intro all n member
        exact all n (Or.inl member)

/-- The open call returns what the device wrote, and that is 0. -/
theorem Sequence.Inv.conclude {s : Sequence} (inv : s.Inv) {sys : Sys}
    (taken : s.sys.step (.conclude 0) = some sys) :
    sys.machine.calls = [] ∧ openStatus s.sys.machine = 0 := by
  have stepped := Sys.step_stepped taken
  obtain ⟨old, pc, results, backlog⟩ := s
  have single := inv.single
  have zero := inv.zero
  have sound := inv.sound
  simp only at single zero sound
  cases stepped with
  | concluded m h _ c before after calls out =>
      obtain ⟨v, recorded, byte, -⟩ := sound.serves.outcome (by simp [calls]) out
      have written := zero _ _ recorded
      simp only [calls, List.length_append, List.length_cons] at single
      have front : before = [] := List.length_eq_zero_iff.mp (by omega)
      have back : after = [] := List.length_eq_zero_iff.mp (by omega)
      refine ⟨by simp [front, back], ?_⟩
      simp [openStatus, calls, front, byte, written]

theorem Sequence.Inv.drive {s s' : Sequence} (inv : s.Inv) (taken : s.drive = some s') :
    s'.Inv := by
  cases pc : s.pc with
  | idle => simp [Sequence.drive, pc] at taken
  | draining =>
      simp only [Sequence.drive, pc] at taken
      split_ifs at taken with level
      · cases taken
        exact ⟨inv.sound, inv.present, inv.writable, inv.single, by simp, inv.zero, inv.exact⟩
      · obtain ⟨sys, step, rfl⟩ := Option.map_eq_some_iff.mp taken
        simpa only [pc] using
          inv.follow_background (Sys.step_stepped step) (Or.inr rfl) (by simp)
  | testing =>
      simp only [Sequence.drive, pc] at taken
      obtain ⟨sys, step, rfl⟩ := Option.map_eq_some_iff.mp taken
      have stepped := Sys.step_stepped step
      refine inv.follow stepped _ ?_ ?_ (by simp)
      · rw [stepped.test_length]
        exact inv.single
      · split_ifs <;> simp
  | leaving =>
      simp only [Sequence.drive, pc] at taken
      obtain ⟨sys, step, rfl⟩ := Option.map_eq_some_iff.mp taken
      obtain ⟨closed, written⟩ := inv.conclude step
      have next := inv.follow (Sys.step_stepped step) .idle (by simp [closed]) (fun _ => closed)
        (by simp)
      refine ⟨next.sound, next.present, next.writable, next.single, next.idle, next.zero, ?_⟩
      simpa [written, or_imp, forall_and] using inv.exact

theorem Sequence.Inv.step {s s' : Sequence} {turn : Turn} (inv : s.Inv)
    (taken : s.step turn = some s') : s'.Inv := by
  cases turn with
  | call page op =>
      simp only [Sequence.step] at taken
      split_ifs at taken with idle
      obtain ⟨sys, step, rfl⟩ := Option.map_eq_some_iff.mp taken
      exact inv.begin idle step
  | driver => exact inv.drive taken
  | device data len =>
      obtain ⟨sys, step, rfl⟩ := Option.map_eq_some_iff.mp taken
      obtain ⟨device, zero⟩ := deviceAction_cases s.sys.machine data len
      exact inv.follow_background (Sys.step_stepped step) (Or.inl device) zero

theorem Sequence.Initial.inv {s : Sequence} (initial : s.Initial) : s.Inv := by
  obtain ⟨ready, present, writable, pc, results, backlog⟩ := initial
  have sound := Initial.coherent ready
  obtain ⟨-, -, -, -, -, -, -, calls, history⟩ := ready
  exact ⟨sound, present, writable, by simp [calls], fun _ => calls, by simp [history],
    by simp [results, backlog]⟩

theorem reach_sequence {s : Sequence} (reached : sequential.Reach s) : s.Inv := by
  refine reached.invariant ?_ ?_
  · intro s initial
    exact Sequence.Initial.inv initial
  · intro s turn s' inv taken
    exact inv.step taken

/-! ## When calls succeed -/

/-- A call returns only once the chains of the calls before it are reclaimed: in the state it
returns from, at most one chain is open. -/
def reclaimed (s : Sequence) : Turn → Bool
  | .driver => s.pc ≠ .leaving || s.sys.history.chains.length ≤ 1
  | .call _ _ => true
  | .device _ _ => true

structure CaughtUp (s : Sequence) : Prop where
  idle : s.pc = .idle → s.sys.history.chains.length ≤ 1
  backlog : ∀ n ∈ s.backlog, n ≤ 1

theorem CaughtUp.begin {s : Sequence} (caught : CaughtUp s) (idle : s.pc = .idle) {page : Nat}
    {op : Op} {sys : Sys} (taken : s.sys.step (.submit (some page) op) = some sys) :
    CaughtUp (s.begin sys) := by
  have logged : ∀ n ∈ s.backlog ++ [s.sys.history.chains.length], n ≤ 1 := by
    intro n member
    rcases List.mem_append.mp member with old | new
    · exact caught.backlog n old
    · rw [List.mem_singleton.mp new]
      exact caught.idle idle
  by_cases failed : sys.machine.calls = []
  · have kept := (Sys.step_stepped taken).chains_kept (by simp) (fun _ _ _ => failed)
    rw [Sequence.begin_failed s failed]
    refine ⟨fun _ => ?_, logged⟩
    rw [kept]
    exact caught.idle idle
  · rw [Sequence.begin_opened s failed]
    exact ⟨by simp, logged⟩

theorem CaughtUp.step {s s' : Sequence} {turn : Turn} (caught : CaughtUp s)
    (prompt : reclaimed s turn = true) (taken : s.step turn = some s') : CaughtUp s' := by
  cases turn with
  | call page op =>
      simp only [Sequence.step] at taken
      split_ifs at taken with idle
      obtain ⟨sys, step, rfl⟩ := Option.map_eq_some_iff.mp taken
      exact caught.begin idle step
  | device data len =>
      obtain ⟨sys, step, rfl⟩ := Option.map_eq_some_iff.mp taken
      obtain ⟨device, -⟩ := deviceAction_cases s.sys.machine data len
      have kept := (Sys.step_stepped step).chains_kept
        (fun same => by simp [same, Action.byDevice] at device)
        (fun _ _ same => by simp [same, Action.byDevice] at device)
      refine ⟨fun idle => ?_, caught.backlog⟩
      rw [kept]
      exact caught.idle idle
  | driver =>
      simp only [Sequence.step] at taken
      cases pc : s.pc with
      | idle => simp [Sequence.drive, pc] at taken
      | draining =>
          simp only [Sequence.drive, pc] at taken
          split_ifs at taken with level
          · cases taken
            exact ⟨by simp, caught.backlog⟩
          · obtain ⟨sys, step, rfl⟩ := Option.map_eq_some_iff.mp taken
            exact ⟨by simp, caught.backlog⟩
      | testing =>
          simp only [Sequence.drive, pc] at taken
          obtain ⟨sys, step, rfl⟩ := Option.map_eq_some_iff.mp taken
          refine ⟨?_, caught.backlog⟩
          split_ifs <;> simp
      | leaving =>
          simp only [Sequence.drive, pc] at taken
          obtain ⟨sys, step, rfl⟩ := Option.map_eq_some_iff.mp taken
          have kept := (Sys.step_stepped step).chains_kept (by simp) (by simp)
          refine ⟨fun _ => ?_, caught.backlog⟩
          rw [kept]
          simpa [reclaimed, pc] using prompt

theorem reach_caughtUp {s : Sequence} (reached : (sequential.restrict reclaimed).Reach s) :
    CaughtUp s := by
  refine System.Reach.invariant (M := sequential.restrict reclaimed) ?_ ?_ reached
  · rintro s ⟨ready, -, -, -, -, backlog⟩
    obtain ⟨-, -, -, -, -, -, -, -, history⟩ := ready
    exact ⟨fun _ => by simp [history], by simp [backlog]⟩
  · intro s turn s' caught taken
    obtain ⟨prompt, step⟩ := System.restrict_step taken
    exact caught.step prompt step

/-- In runs in which every call returns with the chains of the calls before it reclaimed, no
call fails and three descriptors are always free for the next.  In every run the calls
succeed exactly if each of them began with at most one chain open. -/
theorem sequential_calls_succeed (s : Sequence) :
    ((sequential.restrict reclaimed).Reach s →
      (∀ r ∈ s.results, r = true) ∧
      (s.pc = .idle → (allocDescChain s.sys.machine.bd.queue).1.isSome)) ∧
    (sequential.Reach s → ((∀ r ∈ s.results, r = true) ↔ ∀ n ∈ s.backlog, n ≤ 1)) := by
  refine ⟨?_, fun reached => (reach_sequence reached).exact⟩
  intro reached
  have inv := reach_sequence reached.of_restrict
  have caught := reach_caughtUp reached
  refine ⟨inv.exact.mpr caught.backlog, fun idle => ?_⟩
  exact (allocDescChain_isSome_iff inv.sound.inv.owned).mpr (caught.idle idle)

def promptPublication : List Turn :=
  [.call 0x80200000 (blockRead 0x80300000), .driver, serve, serve, serve, serve, .driver, .driver,
    .call 0x80200000 (blockRead 0x80300000), .driver, .driver, serve, serve, serve, serve,
    .driver, .driver]

theorem sequential_calls_succeed_prompt :
    ∃ s : Sequence, (sequential.restrict reclaimed).run readySequence promptPublication = some s ∧
      s.results.length = 2 ∧ (∀ r ∈ s.results, r = true) ∧ s.sys.history.chains.length = 1 ∧
      (allocDescChain s.sys.machine.bd.queue).1.isSome := by
  have ran : ((sequential.restrict reclaimed).run readySequence promptPublication).map
      (fun s : Sequence => (s.results.length, s.pc, s.sys.history.chains.length)) =
        some (2, .idle, 1) := by decide +kernel
  obtain ⟨s, ends, facts⟩ := Option.map_eq_some_iff.mp ran
  simp only [Prod.mk.injEq] at facts
  obtain ⟨two, idle, one⟩ := facts
  have start : (sequential.restrict reclaimed).Reach readySequence :=
    System.Reach.start readySequence_initial
  obtain ⟨all, free⟩ := (sequential_calls_succeed s).1 (start.run ends)
  exact ⟨s, ends, two, all, one, free idle⟩

end Vesper.Virtio
