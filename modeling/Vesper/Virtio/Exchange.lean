import Mathlib.Tactic
import Vesper.Lib.Transition
import Vesper.Virtio.Queue

/-!
# Driver and device

The block queue as two parties see it.  The driver submits requests, takes completions off
the used ring one round of `pending` at a time, tests the status byte of a request and ends
the call.  The device takes heads from the available ring with a 16-bit counter of its own
and carries each one through the transfer, the status byte and the used element, with any
number of requests in progress and in any order between them.

A submission is one step.  Up to the write of `avail.idx` it changes a fresh request page,
free descriptors, an unread ring slot and tables only the driver reads, so nothing the device
does can be told apart from doing it before or after.  That no other context of the driver
runs within a submission or within a round of `pending` is an assumption.

`History` records what the rings and tables forget.  No step depends on it.
-/

set_option autoImplicit false

namespace Vesper.Virtio

open Vesper.Lib (System)
open Vesper.Lib.WrapRing (slot)

/-! ## The machine -/

inductive Phase where
  | taken
  | moved
  | stated
  deriving DecidableEq

structure Job where
  head : BitVec 16
  phase : Phase
  deriving DecidableEq

/-- A `block_op` call between the notification and its return; `left` once the status test
has ended the polling loop. -/
structure Call where
  id : Nat
  page : Nat
  op : Op
  left : Bool
  deriving DecidableEq

structure Machine where
  bd : BlockDevice
  mem : Memory
  seen : BitVec 16
  jobs : List Job
  calls : List Call
  nextId : Nat

def inBuffer (op : Op) (addr : Nat) : Prop :=
  op.buffer ≤ addr ∧ addr < op.buffer + op.size.toNat

instance (op : Op) (addr : Nat) : Decidable (inBuffer op addr) :=
  inferInstanceAs (Decidable (_ ∧ _))

/-- What the page allocator and the callers promise: a request page is no other open
request's, and no open call's buffer holds an open request's status byte. -/
def Fresh (calls : List Call) (page : Nat) (op : Op) : Prop :=
  ¬inBuffer op (statusAddr page) ∧ ∀ c ∈ calls, c.page ≠ page ∧
    ¬inBuffer c.op (statusAddr page) ∧ ¬inBuffer op (statusAddr c.page)

instance (calls : List Call) (page : Nat) (op : Op) : Decidable (Fresh calls page op) :=
  inferInstanceAs (Decidable (_ ∧ _))

inductive Action where
  | submit (page : Option Nat) (op : Op)
  | take
  | move (job : Nat) (data : Nat → BitVec 8)
  | state (job : Nat) (value : BitVec 8)
  | publish (job : Nat) (len : BitVec 32)
  | drain
  | test (call : Nat)
  | conclude (call : Nat)

/-! What the device reads of a chain, following the links as they stand in memory. -/

def descAt (m : Machine) (index : BitVec 16) : Descriptor :=
  m.bd.queue.desc (slot 8 index)

def dataAt (m : Machine) (head : BitVec 16) : Descriptor :=
  descAt m (descAt m head).next

def statAt (m : Machine) (head : BitVec 16) : Descriptor :=
  descAt m (dataAt m head).next

def transferInto (byte : Nat → BitVec 8) (d : Descriptor) (data : Nat → BitVec 8) :
    Nat → BitVec 8 := fun addr =>
  if d.flags &&& descWrite ≠ 0 ∧ d.addr ≤ addr ∧ addr < d.addr + d.len.toNat then data addr
  else byte addr

def publishUsed (bd : BlockDevice) (elem : UsedElem) : BlockDevice :=
  { bd with queue := { bd.queue with
      used :=
        { ring := Function.update bd.queue.used.ring (slot 8 bd.queue.used.idx) elem
          idx := bd.queue.used.idx + 1 } } }

def publishElem (m : Machine) (elem : UsedElem) : Machine :=
  { m with bd := publishUsed m.bd elem }

def Machine.step (m : Machine) : Action → Option Machine
  | .submit page op =>
    if ∀ p ∈ page, Fresh m.calls p op then
      match Virtio.submit m.bd m.mem page op with
      | .refused => some m
      | .noDescriptors bd mem => some { m with bd := bd, mem := mem }
      | .submitted bd mem p _ =>
        some { m with bd := bd, mem := mem, calls := m.calls ++ [⟨m.nextId, p, op, false⟩],
                      nextId := m.nextId + 1 }
    else none
  | .take =>
    if m.seen = m.bd.queue.avail.idx then none
    else some { m with seen := m.seen + 1,
                       jobs := m.jobs ++ [⟨m.bd.queue.avail.ring (slot 8 m.seen), .taken⟩] }
  | .move j data =>
    match m.jobs[j]? with
    | some ⟨head, .taken⟩ =>
      some { m with mem := { m.mem with byte := transferInto m.mem.byte (dataAt m head) data },
                    jobs := m.jobs.set j ⟨head, .moved⟩ }
    | _ => none
  | .state j value =>
    match m.jobs[j]? with
    | some ⟨head, .moved⟩ =>
      some { m with mem := { m.mem with
                      byte := Function.update m.mem.byte (statAt m head).addr value },
                    jobs := m.jobs.set j ⟨head, .stated⟩ }
    | _ => none
  | .publish j len =>
    match m.jobs[j]? with
    | some ⟨head, .stated⟩ =>
      some { publishElem m ⟨head.setWidth 32, len⟩ with jobs := m.jobs.eraseIdx j }
    | _ => none
  | .drain =>
    if m.bd.ackUsedIdx = m.bd.queue.used.idx then none
    else (pendingStep m.bd).map fun bd => { m with bd := bd }
  | .test i =>
    match m.calls[i]? with
    | some c =>
      if m.mem.byte (statusAddr c.page) = statusPending then some m
      else some { m with calls := m.calls.set i { c with left := true } }
    | none => none
  | .conclude i =>
    match m.calls[i]? with
    | some c => if c.left then some { m with calls := m.calls.eraseIdx i } else none
    | none => none

/-! ## History -/

structure Chain where
  slots : Slots
  id : Nat
  page : Nat
  op : Op
  deriving DecidableEq

def Chain.members (c : Chain) : List Index :=
  c.slots.members

/-- The transfer a device makes: the header it reads and the buffer it moves data to or
from. -/
structure Transfer where
  header : Header
  buffer : Nat
  size : BitVec 32
  intoMemory : Bool
  deriving DecidableEq

structure History where
  chains : List Chain
  submitted : List (BitVec 16)
  seen : List (BitVec 16)
  published : List UsedElem
  consumed : List UsedElem
  transfers : List (Nat × Transfer)
  outcomes : List (Nat × BitVec 8)
  returned : List (Nat × Bool)

structure Sys where
  machine : Machine
  history : History

def owner (chains : List Chain) (head : BitVec 16) : List Nat :=
  (chains.filter fun c => c.slots.head.val = head.toNat).map Chain.id

def transferAt (m : Machine) (head : BitVec 16) : Transfer :=
  { header := (m.mem.request (descAt m head).addr).header
    buffer := (dataAt m head).addr
    size := (dataAt m head).len
    intoMemory := (dataAt m head).flags &&& descWrite ≠ 0 }

def record (m : Machine) (h : History) : Action → History
  | .submit page op =>
    match Virtio.submit m.bd m.mem page op with
    | .submitted _ _ p sl =>
      { h with chains := h.chains ++ [⟨sl, m.nextId, p, op⟩],
               submitted := h.submitted ++ [BitVec.ofNat 16 sl.head] }
    | _ => h
  | .take => { h with seen := h.seen ++ [m.bd.queue.avail.ring (slot 8 m.seen)] }
  | .move j _ =>
    match m.jobs[j]? with
    | some job =>
      { h with transfers := h.transfers ++
          (owner h.chains job.head).map fun id => (id, transferAt m job.head) }
    | none => h
  | .state j value =>
    match m.jobs[j]? with
    | some job =>
      { h with outcomes := h.outcomes ++ (owner h.chains job.head).map fun id => (id, value) }
    | none => h
  | .publish j len =>
    match m.jobs[j]? with
    | some job => { h with published := h.published ++ [⟨job.head.setWidth 32, len⟩] }
    | none => h
  | .drain =>
    let elem := m.bd.queue.used.ring (slot 8 m.bd.ackUsedIdx)
    { h with consumed := h.consumed ++ [elem],
             chains := h.chains.filter fun c => c.slots.head.val ≠ elem.id.toNat }
  | .test _ => h
  | .conclude i =>
    match m.calls[i]? with
    | some c =>
      { h with returned := h.returned ++ [(c.id, m.mem.byte (statusAddr c.page) == 0)] }
    | none => h

def Sys.step (s : Sys) (a : Action) : Option Sys :=
  (s.machine.step a).map fun m => ⟨m, record s.machine s.history a⟩

/-- After `setup_block_device`: rings and indices at zero, every descriptor free. -/
def Initial (s : Sys) : Prop :=
  s.machine.bd.queue.avail.idx = 0 ∧ s.machine.bd.queue.used.idx = 0 ∧
  s.machine.bd.ackUsedIdx = 0 ∧ s.machine.seen = 0 ∧
  (∀ i, s.machine.bd.queue.free i = true) ∧ (∀ i, s.machine.bd.queue.reqHead i = none) ∧
  s.machine.jobs = [] ∧ s.machine.calls = [] ∧ s.history = ⟨[], [], [], [], [], [], [], []⟩

def exchange : System where
  State := Sys
  Action := Action
  init := Initial
  step := Sys.step

/-! ## What a step does -/

def claimed (q : QueueState) (sl : Slots) (page : Nat) (op : Op) : QueueState :=
  expose (writeChain { q with free := setAll q.free sl.members false } sl page op) sl.head

inductive Stepped : Sys → Action → Sys → Prop where
  | refused (s : Sys) (page : Option Nat) (op : Op)
      (refuses : s.machine.bd.dev = none ∨ (s.machine.bd.readOnly && op.write) = true ∨
        page = none) : Stepped s (.submit page op) s
  | exhausted (m : Machine) (h : History) (page : Nat) (op : Op)
      (fresh : Fresh m.calls page op)
      (full : allocDescChain m.bd.queue = (none, m.bd.queue)) :
      Stepped ⟨m, h⟩ (.submit (some page) op) ⟨{ m with mem := initRequest m.mem page op }, h⟩
  | submitted (m : Machine) (h : History) (page : Nat) (op : Op) (sl : Slots)
      (fresh : Fresh m.calls page op) (distinct : sl.members.Nodup)
      (free : ∀ i ∈ sl.members, m.bd.queue.free i = true) :
      Stepped ⟨m, h⟩ (.submit (some page) op)
        ⟨{ m with bd := { m.bd with queue := claimed m.bd.queue sl page op },
                  mem := initRequest m.mem page op,
                  calls := m.calls ++ [⟨m.nextId, page, op, false⟩], nextId := m.nextId + 1 },
          { h with chains := h.chains ++ [⟨sl, m.nextId, page, op⟩],
                   submitted := h.submitted ++ [BitVec.ofNat 16 sl.head] }⟩
  | took (m : Machine) (h : History) (head : BitVec 16)
      (behind : m.seen ≠ m.bd.queue.avail.idx)
      (read : m.bd.queue.avail.ring (slot 8 m.seen) = head) :
      Stepped ⟨m, h⟩ .take
        ⟨{ m with seen := m.seen + 1, jobs := m.jobs ++ [⟨head, .taken⟩] },
          { h with seen := h.seen ++ [head] }⟩
  | moved (m : Machine) (h : History) (j : Nat) (data : Nat → BitVec 8) (head : BitVec 16)
      (before after : List Job) (jobs : m.jobs = before ++ ⟨head, .taken⟩ :: after) :
      Stepped ⟨m, h⟩ (.move j data)
        ⟨{ m with mem := { m.mem with byte := transferInto m.mem.byte (dataAt m head) data },
                  jobs := before ++ ⟨head, .moved⟩ :: after },
          { h with transfers := h.transfers ++
              (owner h.chains head).map fun id => (id, transferAt m head) }⟩
  | stated (m : Machine) (h : History) (j : Nat) (value : BitVec 8) (head : BitVec 16)
      (before after : List Job) (jobs : m.jobs = before ++ ⟨head, .moved⟩ :: after) :
      Stepped ⟨m, h⟩ (.state j value)
        ⟨{ m with mem := { m.mem with
                    byte := Function.update m.mem.byte (statAt m head).addr value },
                  jobs := before ++ ⟨head, .stated⟩ :: after },
          { h with outcomes := h.outcomes ++ (owner h.chains head).map fun id => (id, value) }⟩
  | published (m : Machine) (h : History) (j : Nat) (len : BitVec 32) (head : BitVec 16)
      (before after : List Job) (jobs : m.jobs = before ++ ⟨head, .stated⟩ :: after) :
      Stepped ⟨m, h⟩ (.publish j len)
        ⟨{ publishElem m ⟨head.setWidth 32, len⟩ with jobs := before ++ after },
          { h with published := h.published ++ [⟨head.setWidth 32, len⟩] }⟩
  | drained (m : Machine) (h : History) (bd : BlockDevice) (elem : UsedElem)
      (behind : m.bd.ackUsedIdx ≠ m.bd.queue.used.idx)
      (read : m.bd.queue.used.ring (slot 8 m.bd.ackUsedIdx) = elem)
      (result : pendingStep m.bd = some bd) :
      Stepped ⟨m, h⟩ .drain
        ⟨{ m with bd := bd },
          { h with consumed := h.consumed ++ [elem],
                   chains := h.chains.filter fun c => c.slots.head.val ≠ elem.id.toNat }⟩
  | polled (s : Sys) (i : Nat) : Stepped s (.test i) s
  | left (m : Machine) (h : History) (i : Nat) (c : Call) (before after : List Call)
      (calls : m.calls = before ++ c :: after)
      (done : m.mem.byte (statusAddr c.page) ≠ statusPending) :
      Stepped ⟨m, h⟩ (.test i)
        ⟨{ m with calls := before ++ { c with left := true } :: after }, h⟩
  | concluded (m : Machine) (h : History) (i : Nat) (c : Call) (before after : List Call)
      (calls : m.calls = before ++ c :: after) (out : c.left = true) :
      Stepped ⟨m, h⟩ (.conclude i)
        ⟨{ m with calls := before ++ after },
          { h with returned := h.returned ++ [(c.id, m.mem.byte (statusAddr c.page) == 0)] }⟩

theorem split_at {α : Type} {l : List α} {j : Nat} {x : α} (found : l[j]? = some x) :
    ∃ before after, l = before ++ x :: after ∧ (∀ y, l.set j y = before ++ y :: after) ∧
      l.eraseIdx j = before ++ after := by
  obtain ⟨inside, rfl⟩ := List.getElem?_eq_some_iff.mp found
  refine ⟨l.take j, l.drop (j + 1), ?_, ?_, ?_⟩
  · rw [List.getElem_cons_drop, List.take_append_drop]
  · intro y
    rw [List.set_eq_take_append_cons_drop, if_pos inside]
  · rw [List.eraseIdx_eq_take_drop_succ]

theorem mem_of_rest {α : Type} {before after : List α} {x y : α}
    (member : y ∈ before ++ after) : y ∈ before ++ x :: after :=
  ((List.sublist_cons_self x after).append_left before).subset member

theorem submit_stepped {m m' : Machine} {h : History} {page : Option Nat} {op : Op}
    (taken : m.step (.submit page op) = some m') :
    Stepped ⟨m, h⟩ (.submit page op) ⟨m', record m h (.submit page op)⟩ := by
  simp only [Machine.step] at taken
  split_ifs at taken with fresh
  by_cases refuses : m.bd.dev = none ∨ (m.bd.readOnly && op.write) = true
  · have outcome : Virtio.submit m.bd m.mem page op = .refused := by
      rcases refuses with null | readOnly
      · simp [Virtio.submit, null]
      · simp only [Virtio.submit, readOnly, if_true, ite_self]
    simp only [outcome, Option.some.injEq] at taken
    subst taken
    simpa [record, outcome] using
      Stepped.refused ⟨m, h⟩ page op (refuses.imp_right Or.inl)
  · obtain ⟨present, writable⟩ := not_or.mp refuses
    cases page with
    | none =>
        have outcome : Virtio.submit m.bd m.mem none op = .refused := by
          simp [Virtio.submit]
        simp only [outcome, Option.some.injEq] at taken
        subst taken
        simpa [record, outcome] using
          Stepped.refused ⟨m, h⟩ none op (Or.inr (Or.inr rfl))
    | some page =>
        have free := fresh page rfl
        rcases allocDescChain_cases m.bd.queue with ⟨sl, result, distinct, were⟩ | ⟨result, -⟩
        · have outcome : Virtio.submit m.bd m.mem (some page) op =
              .submitted { m.bd with queue := claimed m.bd.queue sl page op }
                (initRequest m.mem page op) page sl := by
            simp only [Virtio.submit, present, writable, if_false, result]
            rfl
          simp only [outcome, Option.some.injEq] at taken
          subst taken
          simpa [record, outcome] using Stepped.submitted m h page op sl free distinct were
        · have outcome : Virtio.submit m.bd m.mem (some page) op =
              .noDescriptors m.bd (initRequest m.mem page op) := by
            simp only [Virtio.submit, present, writable, if_false, result]
            rfl
          simp only [outcome, Option.some.injEq] at taken
          subst taken
          simpa [record, outcome] using Stepped.exhausted m h page op free result

theorem job_stepped {m m' : Machine} {h : History} {a : Action} {j : Nat}
    (own : (∃ data, a = .move j data) ∨ (∃ value, a = .state j value) ∨ ∃ len, a = .publish j len)
    (taken : m.step a = some m') : Stepped ⟨m, h⟩ a ⟨m', record m h a⟩ := by
  cases found : m.jobs[j]? with
  | none => rcases own with ⟨_, rfl⟩ | ⟨_, rfl⟩ | ⟨_, rfl⟩ <;> simp [Machine.step, found] at taken
  | some job =>
      obtain ⟨before, after, split, set, erase⟩ := split_at found
      obtain ⟨head, phase⟩ := job
      rcases own with ⟨data, rfl⟩ | ⟨value, rfl⟩ | ⟨len, rfl⟩
      · cases phase <;> simp only [Machine.step, found, reduceCtorEq, Option.some.injEq] at taken
        subst taken
        simpa [record, found, set] using Stepped.moved m h j data head before after split
      · cases phase <;> simp only [Machine.step, found, reduceCtorEq, Option.some.injEq] at taken
        subst taken
        simpa [record, found, set] using Stepped.stated m h j value head before after split
      · cases phase <;> simp only [Machine.step, found, reduceCtorEq, Option.some.injEq] at taken
        subst taken
        simpa [record, found, erase] using Stepped.published m h j len head before after split

theorem call_stepped {m m' : Machine} {h : History} {a : Action} {i : Nat}
    (own : a = .test i ∨ a = .conclude i) (taken : m.step a = some m') :
    Stepped ⟨m, h⟩ a ⟨m', record m h a⟩ := by
  cases found : m.calls[i]? with
  | none => rcases own with rfl | rfl <;> simp [Machine.step, found] at taken
  | some c =>
      obtain ⟨before, after, split, set, erase⟩ := split_at found
      rcases own with rfl | rfl
      · simp only [Machine.step, found] at taken
        split_ifs at taken with waiting
        · cases taken
          exact Stepped.polled ⟨m, h⟩ i
        · cases taken
          simpa [record, set] using Stepped.left m h i c before after split waiting
      · simp only [Machine.step, found] at taken
        split_ifs at taken with out
        cases taken
        simpa [record, found, erase] using Stepped.concluded m h i c before after split out

theorem Sys.step_stepped {s s' : Sys} {a : Action} (taken : s.step a = some s') :
    Stepped s a s' := by
  obtain ⟨m, h⟩ := s
  obtain ⟨m', moved, rfl⟩ := Option.map_eq_some_iff.mp taken
  cases a with
  | submit page op => exact submit_stepped moved
  | take =>
      simp only [Machine.step] at moved
      split_ifs at moved with level
      cases moved
      exact Stepped.took m h _ level rfl
  | move j data => exact job_stepped (Or.inl ⟨data, rfl⟩) moved
  | state j value => exact job_stepped (Or.inr (Or.inl ⟨value, rfl⟩)) moved
  | publish j len => exact job_stepped (Or.inr (Or.inr ⟨len, rfl⟩)) moved
  | drain =>
      simp only [Machine.step] at moved
      split_ifs at moved with level
      obtain ⟨bd, result, rfl⟩ := Option.map_eq_some_iff.mp moved
      exact Stepped.drained m h bd _ level rfl result
  | test i => exact call_stepped (Or.inl rfl) moved
  | conclude i => exact call_stepped (Or.inr rfl) moved

end Vesper.Virtio
