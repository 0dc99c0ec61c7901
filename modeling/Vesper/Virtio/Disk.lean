import Mathlib.Tactic
import Vesper.Lib.Linearization
import Vesper.Virtio.Completion

/-!
# The disk behind the queue

The exchange of driver and device with a disk attached.  For each request the device either
moves the sectors the header names, between the disk and the caller's buffer, and reports
success, or it fails: then it may have left anything in the buffer of a read or in the
sectors of a write.  Several calls may be out at once, the device works on them in any order,
and the processor writes to memory that belongs to no open call.

`atomicDisk` is what the callers of `block_read` and `block_write` should see of it.
-/

set_option autoImplicit false

namespace Vesper.Virtio.Disk

open Vesper.Lib (System)
open Vesper.Lib.Linearization

/-! ## The atomic disk -/

abbrev Image := Nat → BitVec 8

def window (bytes : Nat → BitVec 8) (start len : Nat) : List (BitVec 8) :=
  (List.range len).map fun k => bytes (start + k)

def overwrite (disk : Image) (start : Nat) (bytes : List (BitVec 8)) : Image := fun a =>
  if start ≤ a then bytes.getD (a - start) (disk a) else disk a

/-- What a request does to the disk, with the bytes it moved.  A write that failed may have
left anything in its sectors. -/
inductive Effect where
  | read (start : Nat) (bytes : List (BitVec 8))
  | write (start : Nat) (bytes : List (BitVec 8))
  | failedRead
  | failedWrite (start : Nat) (bytes : List (BitVec 8))
  deriving DecidableEq

def Effect.ok : Effect → Bool
  | .read _ _ => true
  | .write _ _ => true
  | .failedRead => false
  | .failedWrite _ _ => false

def Effect.onDisk (disk : Image) : Effect → Option Image
  | .read start bytes => if window disk start bytes.length = bytes then some disk else none
  | .write start bytes => some (overwrite disk start bytes)
  | .failedRead => some disk
  | .failedWrite start bytes => some (overwrite disk start bytes)

def atomicDisk (image : Image) : System where
  State := Image
  Action := Effect
  init disk := disk = image
  step disk effect := effect.onDisk disk

/-! ## The device with its disk -/

/-- A call that has returned, with what its buffer held when it was made and when it
returned. -/
structure Result where
  id : Nat
  op : Op
  ok : Bool
  before : List (BitVec 8)
  after : List (BitVec 8)
  deriving DecidableEq

/-- `verdict` is what the device knows about the requests it has moved.  `log`, `given` and
`results` are a record; no step depends on them. -/
structure Attached where
  sys : Sys
  disk : Image
  verdict : BitVec 16 → Bool
  log : List (Entry Effect)
  given : Nat → List (BitVec 8)
  results : List Result

def bufferOf (byte : Nat → BitVec 8) (op : Op) : List (BitVec 8) :=
  window byte op.buffer op.size.toNat

def Apart (op other : Op) : Prop :=
  op.buffer + op.size.toNat ≤ other.buffer ∨ other.buffer + other.size.toNat ≤ op.buffer

instance (op other : Op) : Decidable (Apart op other) := inferInstanceAs (Decidable (_ ∨ _))

def Foreign (calls : List Call) (addr : Nat) : Prop :=
  ∀ c ∈ calls, ¬inBuffer c.op addr ∧ addr ≠ statusAddr c.page

instance (calls : List Call) (addr : Nat) : Decidable (Foreign calls addr) :=
  inferInstanceAs (Decidable (∀ c ∈ calls, _))

inductive Turn where
  | submit (page : Option Nat) (op : Op)
  | drain
  | test (call : Nat)
  | conclude (call : Nat)
  | store (addr : Nat) (value : BitVec 8)
  | take
  | serve (job : Nat)
  | fail (job : Nat) (data : Nat → BitVec 8)
  | state (job : Nat) (value : BitVec 8)
  | publish (job : Nat) (len : BitVec 32)

def Transfer.start (t : Transfer) : Nat := t.header.sector.toNat * 512

/-- The device moves the data of a request and makes up its mind about the status. -/
def Attached.move (s : Attached) (j : Nat) (job : Job) (data : Nat → BitVec 8)
    (effect : Effect) : Option Attached :=
  (effect.onDisk s.disk).bind fun disk =>
    (s.sys.step (.move j data)).map fun sys =>
      { s with
        sys := sys
        disk := disk
        verdict := Function.update s.verdict job.head effect.ok
        log := s.log ++ (owner s.sys.history.chains job.head).map fun id => ⟨id, effect⟩ }

def Attached.serve (s : Attached) (j : Nat) : Option Attached :=
  match s.sys.machine.jobs[j]? with
  | none => none
  | some job =>
    let t := transferAt s.sys.machine job.head
    let start := Transfer.start t
    if t.header.blktype = blkIn then
      s.move j job (fun addr => s.disk (start + (addr - t.buffer)))
        (.read start (window s.disk start t.size.toNat))
    else if t.header.blktype = blkOut then
      s.move j job s.sys.machine.mem.byte
        (.write start (window s.sys.machine.mem.byte t.buffer t.size.toNat))
    else none

def Attached.fail (s : Attached) (j : Nat) (data : Nat → BitVec 8) : Option Attached :=
  match s.sys.machine.jobs[j]? with
  | none => none
  | some job =>
    let t := transferAt s.sys.machine job.head
    if t.header.blktype = blkOut then
      s.move j job s.sys.machine.mem.byte
        (.failedWrite (Transfer.start t) (window data t.buffer t.size.toNat))
    else s.move j job data .failedRead

def Attached.step (s : Attached) : Turn → Option Attached
  | .submit page op =>
    if ∀ c ∈ s.sys.machine.calls, Apart op c.op then
      (s.sys.step (.submit page op)).map fun sys =>
        { s with
          sys := sys
          given := Function.update s.given s.sys.machine.nextId
            (bufferOf s.sys.machine.mem.byte op) }
    else none
  | .drain => (s.sys.step .drain).map fun sys => { s with sys := sys }
  | .test i => (s.sys.step (.test i)).map fun sys => { s with sys := sys }
  | .conclude i =>
    match s.sys.machine.calls[i]? with
    | none => none
    | some c =>
      (s.sys.step (.conclude i)).map fun sys =>
        { s with
          sys := sys
          results := s.results ++ [⟨c.id, c.op, s.sys.machine.mem.byte (statusAddr c.page) == 0,
            s.given c.id, bufferOf s.sys.machine.mem.byte c.op⟩] }
  | .store addr value =>
    if Foreign s.sys.machine.calls addr then
      some { s with sys := { s.sys with machine := { s.sys.machine with mem :=
        { s.sys.machine.mem with
          byte := Function.update s.sys.machine.mem.byte addr value } } } }
    else none
  | .take => (s.sys.step .take).map fun sys => { s with sys := sys }
  | .serve j => s.serve j
  | .fail j data => s.fail j data
  | .state j value =>
    match s.sys.machine.jobs[j]? with
    | none => none
    | some job =>
      if (value == 0) = s.verdict job.head then
        (s.sys.step (.state j value)).map fun sys => { s with sys := sys }
      else none
  | .publish j len => (s.sys.step (.publish j len)).map fun sys => { s with sys := sys }

def Attached.Initial (image : Image) (s : Attached) : Prop :=
  Virtio.Initial s.sys ∧ s.disk = image ∧ s.log = [] ∧ s.results = []

def attached (image : Image) : System where
  State := Attached
  Action := Turn
  init := Attached.Initial image
  step := Attached.step

/-! ## What a turn does -/

inductive Attempt (s : Attached) (head : BitVec 16) : (Nat → BitVec 8) → Effect → Prop where
  | read (kind : (transferAt s.sys.machine head).header.blktype = blkIn) :
      Attempt s head
        (fun addr => s.disk (Transfer.start (transferAt s.sys.machine head) +
          (addr - (transferAt s.sys.machine head).buffer)))
        (.read (Transfer.start (transferAt s.sys.machine head))
          (window s.disk (Transfer.start (transferAt s.sys.machine head))
            (transferAt s.sys.machine head).size.toNat))
  | write (kind : (transferAt s.sys.machine head).header.blktype = blkOut) :
      Attempt s head s.sys.machine.mem.byte
        (.write (Transfer.start (transferAt s.sys.machine head))
          (window s.sys.machine.mem.byte (transferAt s.sys.machine head).buffer
            (transferAt s.sys.machine head).size.toNat))
  | scrambled (kind : (transferAt s.sys.machine head).header.blktype ≠ blkOut)
      (data : Nat → BitVec 8) : Attempt s head data .failedRead
  | torn (kind : (transferAt s.sys.machine head).header.blktype = blkOut)
      (data : Nat → BitVec 8) :
      Attempt s head s.sys.machine.mem.byte
        (.failedWrite (Transfer.start (transferAt s.sys.machine head))
          (window data (transferAt s.sys.machine head).buffer
            (transferAt s.sys.machine head).size.toNat))

/-- The steps of the exchange that neither make a call nor move data nor decide a request. -/
def Background (a : Action) : Prop :=
  a = .drain ∨ a = .take ∨ (∃ i, a = .test i) ∨ (∃ i, a = .conclude i) ∨
    ∃ j len, a = .publish j len

inductive Turned (s : Attached) : Turn → Attached → Prop where
  | submits (page : Option Nat) (op : Op) (sys : Sys)
      (apart : ∀ c ∈ s.sys.machine.calls, Apart op c.op)
      (taken : s.sys.step (.submit page op) = some sys) :
      Turned s (.submit page op)
        { s with
          sys := sys
          given := Function.update s.given s.sys.machine.nextId
            (bufferOf s.sys.machine.mem.byte op) }
  | follows (turn : Turn) (a : Action) (sys : Sys) (background : Background a)
      (taken : s.sys.step a = some sys) : Turned s turn { s with sys := sys }
  | concludes (i : Nat) (c : Call) (sys : Sys) (found : s.sys.machine.calls[i]? = some c)
      (taken : s.sys.step (.conclude i) = some sys) :
      Turned s (.conclude i)
        { s with
          sys := sys
          results := s.results ++ [⟨c.id, c.op, s.sys.machine.mem.byte (statusAddr c.page) == 0,
            s.given c.id, bufferOf s.sys.machine.mem.byte c.op⟩] }
  | stores (addr : Nat) (value : BitVec 8) (foreign : Foreign s.sys.machine.calls addr) :
      Turned s (.store addr value)
        { s with sys := { s.sys with machine := { s.sys.machine with mem :=
          { s.sys.machine.mem with
            byte := Function.update s.sys.machine.mem.byte addr value } } } }
  | moves (turn : Turn) (j : Nat) (job : Job) (data : Nat → BitVec 8) (effect : Effect)
      (s' : Attached) (found : s.sys.machine.jobs[j]? = some job)
      (attempt : Attempt s job.head data effect) (taken : s.move j job data effect = some s') :
      Turned s turn s'
  | states (j : Nat) (value : BitVec 8) (job : Job) (sys : Sys)
      (found : s.sys.machine.jobs[j]? = some job) (agrees : (value == 0) = s.verdict job.head)
      (taken : s.sys.step (.state j value) = some sys) :
      Turned s (.state j value) { s with sys := sys }

theorem step_turned {s s' : Attached} {turn : Turn} (taken : s.step turn = some s') :
    Turned s turn s' := by
  cases turn with
  | submit page op =>
      simp only [Attached.step] at taken
      split_ifs at taken with apart
      obtain ⟨sys, stepped, rfl⟩ := Option.map_eq_some_iff.mp taken
      exact .submits page op sys apart stepped
  | drain =>
      obtain ⟨sys, stepped, rfl⟩ := Option.map_eq_some_iff.mp taken
      exact .follows _ .drain sys (by simp [Background]) stepped
  | test i =>
      obtain ⟨sys, stepped, rfl⟩ := Option.map_eq_some_iff.mp taken
      exact .follows _ (.test i) sys (by simp [Background]) stepped
  | conclude i =>
      simp only [Attached.step] at taken
      split at taken
      · cases taken
      · next c found =>
          obtain ⟨sys, stepped, rfl⟩ := Option.map_eq_some_iff.mp taken
          exact .concludes i c sys found stepped
  | store addr value =>
      simp only [Attached.step] at taken
      split_ifs at taken with foreign
      cases taken
      exact .stores addr value foreign
  | take =>
      obtain ⟨sys, stepped, rfl⟩ := Option.map_eq_some_iff.mp taken
      exact .follows _ .take sys (by simp [Background]) stepped
  | serve j =>
      simp only [Attached.step, Attached.serve] at taken
      split at taken
      · cases taken
      · next job found =>
          split_ifs at taken with reads writes
          · exact .moves _ j job _ _ s' found (.read reads) taken
          · exact .moves _ j job _ _ s' found (.write writes) taken
  | fail j data =>
      simp only [Attached.step, Attached.fail] at taken
      split at taken
      · cases taken
      · next job found =>
          split_ifs at taken with writes
          · exact .moves _ j job _ _ s' found (.torn writes data) taken
          · exact .moves _ j job _ _ s' found (.scrambled writes data) taken
  | state j value =>
      simp only [Attached.step] at taken
      split at taken
      · cases taken
      · next job found =>
          split_ifs at taken with agrees
          obtain ⟨sys, stepped, rfl⟩ := Option.map_eq_some_iff.mp taken
          exact .states j value job sys found agrees stepped
  | publish j len =>
      obtain ⟨sys, stepped, rfl⟩ := Option.map_eq_some_iff.mp taken
      exact .follows _ (.publish j len) sys (by simp [Background]) stepped

theorem step_move {sys sys' : Sys} {j : Nat} {job : Job} {data : Nat → BitVec 8}
    (found : sys.machine.jobs[j]? = some job) (taken : sys.step (.move j data) = some sys') :
    ∃ before after, sys.machine.jobs = before ++ ⟨job.head, .taken⟩ :: after ∧
      sys'.machine = { sys.machine with
        mem := { sys.machine.mem with
          byte := transferInto sys.machine.mem.byte (dataAt sys.machine job.head) data }
        jobs := before ++ ⟨job.head, .moved⟩ :: after } ∧
      sys'.history.chains = sys.history.chains ∧
      waiting sys'.history = waiting sys.history ∧
      sys'.history.outcomes = sys.history.outcomes := by
  obtain ⟨m', stepped, rfl⟩ := Option.map_eq_some_iff.mp taken
  obtain ⟨head, phase⟩ := job
  obtain ⟨before, after, split, set, -⟩ := split_at found
  cases phase with
  | taken =>
      simp only [Machine.step, found, Option.some.injEq] at stepped
      refine ⟨before, after, split, ?_, ?_, ?_, ?_⟩
      · rw [← stepped, set]
      · simp only [record, found]
      · simp only [record, found, waiting]
      · simp only [record, found]
  | moved => simp [Machine.step, found] at stepped
  | stated => simp [Machine.step, found] at stepped

end Vesper.Virtio.Disk
