import Mathlib.Tactic
import Vesper.Virtio.Rings

/-!
# Completion of a request

`block_op` decides completion from the status byte and never from the used ring, so a call
may return, and its request page be handed out again, while its chain and its `req_head`
entry still point there.  The invariant follows each request from its submission to the
status byte: as long as the device has not written the status of a chain, the call that
submitted it is still open, with its page and buffer.
-/

set_option autoImplicit false

namespace Vesper.Virtio

open Vesper.Lib.WrapRing (slot)
open Vesper.Lib (System)

def transferOf (op : Op) : Transfer where
  header := (requestOf op).header
  buffer := op.buffer
  size := op.size
  intoMemory := !op.write

def Matches (c : Call) (ch : Chain) : Prop :=
  c.id = ch.id ∧ c.page = ch.page ∧ c.op = ch.op

def Unserved (s : Sys) (ch : Chain) : Prop :=
  ch.slots.head.val ∈ waiting s.history ∨
    ∃ job ∈ s.machine.jobs, job.head.toNat = ch.slots.head.val ∧ job.phase ≠ .stated

/-- Calls, chains and results carry distinct numbers below the next one. -/
structure Numbered (s : Sys) : Prop where
  calls : ∀ c ∈ s.machine.calls, c.id < s.machine.nextId
  chains : ∀ ch ∈ s.history.chains, ch.id < s.machine.nextId
  outcomes : ∀ i v, (i, v) ∈ s.history.outcomes → i < s.machine.nextId
  returned : ∀ i ok, (i, ok) ∈ s.history.returned →
    i < s.machine.nextId ∧ ∀ c ∈ s.machine.calls, c.id ≠ i
  calls_nodup : (s.machine.calls.map Call.id).Nodup
  chains_nodup : (s.history.chains.map Chain.id).Nodup

/-- Open calls have their request pages to themselves, with the request still in them. -/
structure Placed (s : Sys) : Prop where
  pages : ∀ c ∈ s.machine.calls, ∀ d ∈ s.machine.calls, c.id ≠ d.id → c.page ≠ d.page
  buffers : ∀ c ∈ s.machine.calls, ∀ d ∈ s.machine.calls, ¬inBuffer c.op (statusAddr d.page)
  request : ∀ c ∈ s.machine.calls, s.machine.mem.request c.page = requestOf c.op

structure Serves (s : Sys) : Prop where
  open_call : ∀ ch ∈ s.history.chains, Unserved s ch →
    (∃ c ∈ s.machine.calls, Matches c ch) ∧ ∀ v, (ch.id, v) ∉ s.history.outcomes
  moved : ∀ job ∈ s.machine.jobs, job.phase = .moved →
    ∀ ch ∈ s.history.chains, ch.slots.head.val = job.head.toNat →
      (ch.id, transferOf ch.op) ∈ s.history.transfers
  status : ∀ c ∈ s.machine.calls,
    (∃ v, (c.id, v) ∈ s.history.outcomes ∧ s.machine.mem.byte (statusAddr c.page) = v ∧
      (c.id, transferOf c.op) ∈ s.history.transfers) ∨
    (s.machine.mem.byte (statusAddr c.page) = statusPending ∧ c.left = false ∧
      ∀ v, (c.id, v) ∉ s.history.outcomes)
  unique : ∀ i v w, (i, v) ∈ s.history.outcomes → (i, w) ∈ s.history.outcomes → v = w

/-! ## What the device reads -/

theorem slot_head {head : BitVec 16} {i : Index} (named : head.toNat = i.val) :
    slot 8 head = i := by
  apply Fin.ext
  simp only [slot, Fin.ofNat, named]
  omega

section Reads

variable {m : Machine} {head : BitVec 16} {ch : Chain}

theorem descAt_head (stored : Stored m.bd.queue.desc ch.slots ch.page ch.op)
    (named : head.toNat = ch.slots.head.val) : descAt m head = headDesc ch.slots ch.page := by
  rw [descAt, slot_head named, stored.head]

theorem dataAt_head (stored : Stored m.bd.queue.desc ch.slots ch.page ch.op)
    (named : head.toNat = ch.slots.head.val) : dataAt m head = dataDesc ch.slots ch.op := by
  rw [dataAt, descAt_head stored named, descAt, slot_head (headDesc_next ch.slots ch.page),
    stored.data]

theorem statAt_head (stored : Stored m.bd.queue.desc ch.slots ch.page ch.op)
    (named : head.toNat = ch.slots.head.val) : statAt m head = statusDesc ch.page := by
  rw [statAt, dataAt_head stored named, descAt, slot_head (dataDesc_next ch.slots ch.op),
    stored.stat]

theorem dataDesc_write (sl : Slots) (op : Op) :
    ((dataDesc sl op).flags &&& descWrite ≠ 0) ↔ op.write = false := by
  cases chosen : op.write <;> simp [dataDesc, chosen, descNext, descWrite]

theorem transferAt_head (stored : Stored m.bd.queue.desc ch.slots ch.page ch.op)
    (named : head.toNat = ch.slots.head.val)
    (request : m.mem.request ch.page = requestOf ch.op) :
    transferAt m head = transferOf ch.op := by
  have way : decide ((dataDesc ch.slots ch.op).flags &&& descWrite ≠ 0) = !ch.op.write := by
    rw [Bool.eq_iff_iff, decide_eq_true_iff, dataDesc_write]
    simp
  simp only [transferAt, transferOf, descAt_head stored named, dataAt_head stored named, way]
  simp [headDesc, dataDesc, request]

end Reads

/-! ## The chain a job works on -/

theorem Inv.heads_nodup {s : Sys} (inv : Inv s) : (heads s.history.chains).Nodup := by
  have pairwise := (List.nodup_flatMap.mp inv.owned.disjoint).2
  refine List.pairwise_map.mpr (pairwise.imp ?_)
  intro c d disjoint same
  apply disjoint c.head_mem
  rw [Fin.ext same]
  exact d.head_mem

theorem owner_eq {chains : List Chain} (distinct : (heads chains).Nodup) {ch : Chain}
    (member : ch ∈ chains) {head : BitVec 16} (named : head.toNat = ch.slots.head.val) :
    owner chains head = [ch.id] := by
  obtain ⟨before, after, rfl⟩ := List.append_of_mem member
  simp only [heads, List.map_append, List.map_cons] at distinct
  obtain ⟨-, back, front⟩ := List.nodup_append'.mp distinct
  have first : before.filter (fun c => c.slots.head.val = ch.slots.head.val) = [] := by
    rw [List.filter_eq_nil_iff]
    intro c inside same
    exact front (List.mem_map.mpr ⟨c, inside, rfl⟩) (by simp [of_decide_eq_true same])
  have last : after.filter (fun c => c.slots.head.val = ch.slots.head.val) = [] := by
    rw [List.filter_eq_nil_iff]
    intro c inside same
    exact (List.nodup_cons.mp back).1 (List.mem_map.mpr ⟨c, inside, of_decide_eq_true same⟩)
  simp [owner, named, List.filter_append, first, last]

theorem Inv.job_chain {m : Machine} {h : History} (inv : Inv ⟨m, h⟩) {job : Job}
    {before after : List Job} (jobs : m.jobs = before ++ job :: after) :
    ∃ ch ∈ h.chains, job.head.toNat = ch.slots.head.val ∧ owner h.chains job.head = [ch.id] ∧
      ch.slots.head.val ∉ waiting h ∧
      ∀ other ∈ before ++ after, other.head.toNat ≠ ch.slots.head.val := by
  have distinct := inv.flow.nodup_iff.mp inv.heads_nodup
  have among : job.head.toNat ∈ heads h.chains := by
    rw [inv.flow.mem_iff]
    simp [working, jobs]
  obtain ⟨ch, member, named⟩ := List.mem_map.mp among
  obtain ⟨-, rest, ahead⟩ := List.nodup_append'.mp distinct
  obtain ⟨own, -, -⟩ := List.nodup_append'.mp rest
  simp only [working, jobs, List.map_append, List.map_cons] at own ahead
  refine ⟨ch, member, named.symm, owner_eq inv.heads_nodup member named.symm, ?_, ?_⟩
  · intro waits
    exact ahead waits (by simp [named])
  · intro other inside same
    rw [named] at same
    obtain ⟨-, back, front⟩ := List.nodup_append'.mp own
    rcases List.mem_append.mp inside with first | last
    · exact front (List.mem_map.mpr ⟨other, first, rfl⟩) (by simp [same])
    · exact (List.nodup_cons.mp back).1 (List.mem_map.mpr ⟨other, last, same⟩)

/-! ## Numbers -/

theorem Initial.numbered {s : Sys} (initial : Initial s) : Numbered s := by
  obtain ⟨-, -, -, -, -, -, -, calls, history⟩ := initial
  constructor <;> simp [calls, history]

theorem Numbered.submitted {m : Machine} {h : History} (numbered : Numbered ⟨m, h⟩)
    (bd : BlockDevice) (mem : Memory) (page : Nat) (op : Op) (sl : Slots)
    (submitted : List (BitVec 16)) :
    Numbered ⟨{ m with bd := bd, mem := mem,
                       calls := m.calls ++ [⟨m.nextId, page, op, false⟩],
                       nextId := m.nextId + 1 },
      { h with chains := h.chains ++ [⟨sl, m.nextId, page, op⟩], submitted := submitted }⟩ where
  calls := by
    intro c member
    rcases List.mem_append.mp member with old | new
    · exact Nat.lt_succ_of_lt (numbered.calls c old)
    · rw [List.mem_singleton.mp new]
      exact Nat.lt_succ_self _
  chains := by
    intro ch member
    rcases List.mem_append.mp member with old | new
    · exact Nat.lt_succ_of_lt (numbered.chains ch old)
    · rw [List.mem_singleton.mp new]
      exact Nat.lt_succ_self _
  outcomes := fun i v member => Nat.lt_succ_of_lt (numbered.outcomes i v member)
  returned := by
    intro i ok member
    obtain ⟨below, closed⟩ := numbered.returned i ok member
    refine ⟨Nat.lt_succ_of_lt below, ?_⟩
    intro c inside
    rcases List.mem_append.mp inside with old | new
    · exact closed c old
    · rw [List.mem_singleton.mp new]
      exact (Nat.ne_of_lt below).symm
  calls_nodup := by
    simp only [List.map_append, List.map_singleton, List.nodup_append', List.nodup_singleton,
      List.disjoint_singleton, true_and]
    refine ⟨numbered.calls_nodup, fun member => ?_⟩
    obtain ⟨c, inside, same⟩ := List.mem_map.mp member
    exact Nat.ne_of_lt (numbered.calls c inside) same
  chains_nodup := by
    simp only [List.map_append, List.map_singleton, List.nodup_append', List.nodup_singleton,
      List.disjoint_singleton, true_and]
    refine ⟨numbered.chains_nodup, fun member => ?_⟩
    obtain ⟨ch, inside, same⟩ := List.mem_map.mp member
    exact Nat.ne_of_lt (numbered.chains ch inside) same

theorem Numbered.concluded {m : Machine} {h : History} (numbered : Numbered ⟨m, h⟩) {c : Call}
    {before after : List Call} (calls : m.calls = before ++ c :: after) (ok : Bool) :
    Numbered ⟨{ m with calls := before ++ after },
      { h with returned := h.returned ++ [(c.id, ok)] }⟩ := by
  have distinct := numbered.calls_nodup
  have bounds := numbered.calls
  have closed := numbered.returned
  simp only [calls] at distinct bounds closed
  have smaller : (before ++ after).Sublist (before ++ c :: after) :=
    (List.sublist_cons_self c after).append_left before
  refine ⟨fun d member => bounds d (smaller.subset member), numbered.chains,
    numbered.outcomes, ?_, distinct.sublist (smaller.map Call.id), numbered.chains_nodup⟩
  intro i ok' member
  rcases List.mem_append.mp member with old | new
  · obtain ⟨below, others⟩ := closed i ok' old
    exact ⟨below, fun d inside => others d (smaller.subset inside)⟩
  · cases List.mem_singleton.mp new
    refine ⟨bounds c (by simp), ?_⟩
    intro d inside same
    rw [List.map_append, List.map_cons, List.nodup_middle, List.nodup_cons, ← List.map_append]
      at distinct
    exact distinct.1 (List.mem_map.mpr ⟨d, inside, same⟩)

theorem left_same {calls before after : List Call} {c d : Call}
    (split : calls = before ++ c :: after)
    (member : d ∈ before ++ { c with left := true } :: after) :
    ∃ e ∈ calls, e.id = d.id ∧ e.page = d.page ∧ e.op = d.op := by
  subst split
  simp only [List.mem_append, List.mem_cons] at member
  rcases member with first | rfl | last
  · exact ⟨d, by simp [first], rfl, rfl, rfl⟩
  · exact ⟨c, by simp, rfl, rfl, rfl⟩
  · exact ⟨d, by simp [last], rfl, rfl, rfl⟩

theorem Numbered.step {s s' : Sys} {a : Action} (inv : Inv s) (numbered : Numbered s)
    (stepped : Stepped s a s') : Numbered s' := by
  cases stepped with
  | refused => exact numbered
  | submitted m h page op sl fresh distinct free => exact numbered.submitted _ _ page op sl _
  | stated m h j value head before after jobs =>
      obtain ⟨ch, member, -, own, -⟩ := inv.job_chain jobs
      refine ⟨numbered.calls, numbered.chains, ?_, numbered.returned, numbered.calls_nodup,
        numbered.chains_nodup⟩
      intro i v recorded
      rcases List.mem_append.mp recorded with old | new
      · exact numbered.outcomes i v old
      · rw [own, List.map_singleton, List.mem_singleton, Prod.mk.injEq] at new
        rw [new.1]
        exact numbered.chains ch member
  | drained m h bd elem behind read result =>
      refine ⟨numbered.calls, ?_, numbered.outcomes, numbered.returned, numbered.calls_nodup, ?_⟩
      · intro ch member
        exact numbered.chains ch (List.mem_of_mem_filter member)
      · exact numbered.chains_nodup.sublist (List.filter_sublist.map Chain.id)
  | polled => exact numbered
  | left m h i c before after calls done =>
      have ids : (before ++ { c with left := true } :: after).map Call.id =
          m.calls.map Call.id := by
        simp [calls]
      refine ⟨?_, numbered.chains, numbered.outcomes, ?_, ids ▸ numbered.calls_nodup,
        numbered.chains_nodup⟩
      · intro d member
        obtain ⟨e, inside, named, -⟩ := left_same calls member
        exact named ▸ numbered.calls e inside
      · intro k ok recorded
        obtain ⟨below, closed⟩ := numbered.returned k ok recorded
        refine ⟨below, fun d member => ?_⟩
        obtain ⟨e, inside, named, -⟩ := left_same calls member
        exact named ▸ closed e inside
  | concluded m h i c before after calls out => exact numbered.concluded calls _
  | _ =>
      exact ⟨numbered.calls, numbered.chains, numbered.outcomes, numbered.returned,
        numbered.calls_nodup, numbered.chains_nodup⟩

/-! ## Request pages -/

theorem Initial.placed {s : Sys} (initial : Initial s) : Placed s := by
  obtain ⟨-, -, -, -, -, -, -, calls, -⟩ := initial
  constructor <;> simp [calls]

theorem statusAddr_ne {page other : Nat} (apart : page ≠ other) :
    statusAddr page ≠ statusAddr other := by
  simpa [statusAddr] using apart

theorem initRequest_request {mem : Memory} {page other : Nat} (apart : other ≠ page) (op : Op) :
    (initRequest mem page op).request other = mem.request other :=
  Function.update_of_ne apart _ _

theorem initRequest_status {mem : Memory} {page other : Nat} (apart : other ≠ page) (op : Op) :
    (initRequest mem page op).byte (statusAddr other) = mem.byte (statusAddr other) :=
  Function.update_of_ne (statusAddr_ne apart) _ _

theorem Placed.step {s s' : Sys} {a : Action} (placed : Placed s) (stepped : Stepped s a s') :
    Placed s' := by
  cases stepped with
  | refused => exact placed
  | exhausted m h page op fresh full =>
      refine ⟨placed.pages, placed.buffers, fun c member => ?_⟩
      exact (initRequest_request (fresh.2 c member).1 op).trans (placed.request c member)
  | submitted m h page op sl fresh distinct free =>
      refine ⟨?_, ?_, ?_⟩
      · intro c first d second apart
        rcases List.mem_append.mp first with old | new <;>
          rcases List.mem_append.mp second with old' | new'
        · exact placed.pages c old d old' apart
        · rw [List.mem_singleton.mp new']
          exact (fresh.2 c old).1
        · rw [List.mem_singleton.mp new]
          exact (fresh.2 d old').1.symm
        · rw [List.mem_singleton.mp new, List.mem_singleton.mp new'] at apart
          exact absurd rfl apart
      · intro c first d second
        rcases List.mem_append.mp first with old | new <;>
          rcases List.mem_append.mp second with old' | new'
        · exact placed.buffers c old d old'
        · rw [List.mem_singleton.mp new']
          exact (fresh.2 c old).2.1
        · rw [List.mem_singleton.mp new]
          exact (fresh.2 d old').2.2
        · rw [List.mem_singleton.mp new, List.mem_singleton.mp new']
          exact fresh.1
      · intro c member
        rcases List.mem_append.mp member with old | new
        · exact (initRequest_request (fresh.2 c old).1 op).trans (placed.request c old)
        · rw [List.mem_singleton.mp new]
          exact Function.update_self _ _ _
  | polled => exact placed
  | left m h i c before after calls done =>
      refine ⟨?_, ?_, ?_⟩
      · intro d first e second apart
        obtain ⟨d', inside, ids, pages, -⟩ := left_same calls first
        obtain ⟨e', inside', ids', pages', -⟩ := left_same calls second
        rw [← ids, ← ids'] at apart
        rw [← pages, ← pages']
        exact placed.pages d' inside e' inside' apart
      · intro d first e second
        obtain ⟨d', inside, -, -, ops⟩ := left_same calls first
        obtain ⟨e', inside', -, pages', -⟩ := left_same calls second
        rw [← ops, ← pages']
        exact placed.buffers d' inside e' inside'
      · intro d member
        obtain ⟨d', inside, -, pages, ops⟩ := left_same calls member
        rw [← ops, ← pages]
        exact placed.request d' inside
  | concluded m h i c before after calls out =>
      have smaller : ∀ d ∈ before ++ after, d ∈ m.calls :=
        fun d member => calls ▸ mem_of_rest member
      exact ⟨fun d first e second => placed.pages d (smaller d first) e (smaller e second),
        fun d first e second => placed.buffers d (smaller d first) e (smaller e second),
        fun d member => placed.request d (smaller d member)⟩
  | _ => exact ⟨placed.pages, placed.buffers, placed.request⟩

/-! ## Requests in service -/

theorem Initial.serves {s : Sys} (initial : Initial s) : Serves s := by
  obtain ⟨-, -, -, -, -, -, jobs, calls, history⟩ := initial
  constructor <;> simp [jobs, calls, history]

theorem Serves.job_call {m : Machine} {h : History} (serves : Serves ⟨m, h⟩) {job : Job}
    {before after : List Job} (jobs : m.jobs = before ++ job :: after)
    (early : job.phase ≠ .stated) {ch : Chain} (member : ch ∈ h.chains)
    (named : job.head.toNat = ch.slots.head.val) :
    (∃ c ∈ m.calls, Matches c ch) ∧ ∀ v, (ch.id, v) ∉ h.outcomes :=
  serves.open_call ch member (Or.inr ⟨job, by simp [jobs], named, early⟩)

theorem Serves.exhausted {m : Machine} {h : History} (serves : Serves ⟨m, h⟩) {page : Nat}
    {op : Op} (fresh : Fresh m.calls page op) :
    Serves ⟨{ m with mem := initRequest m.mem page op }, h⟩ where
  open_call := serves.open_call
  moved := serves.moved
  status := by
    intro c member
    rw [initRequest_status (fresh.2 c member).1]
    exact serves.status c member
  unique := serves.unique

theorem Serves.submitted {m : Machine} {h : History} (inv : Inv ⟨m, h⟩)
    (numbered : Numbered ⟨m, h⟩) (serves : Serves ⟨m, h⟩) {page : Nat} {op : Op} {sl : Slots}
    (fresh : Fresh m.calls page op) (free : ∀ i ∈ sl.members, m.bd.queue.free i = true) :
    Serves ⟨{ m with bd := { m.bd with queue := claimed m.bd.queue sl page op },
                     mem := initRequest m.mem page op,
                     calls := m.calls ++ [⟨m.nextId, page, op, false⟩],
                     nextId := m.nextId + 1 },
      { h with chains := h.chains ++ [⟨sl, m.nextId, page, op⟩],
               submitted := h.submitted ++ [BitVec.ofNat 16 sl.head] }⟩ := by
  have grown := unread_push BitVec.toNat inv.avail.behind (BitVec.ofNat 16 sl.head)
  have unused : ∀ ch ∈ h.chains, ch.slots.head ≠ sl.head := by
    intro ch member same
    apply inv.owned.not_free member ch.head_mem
    rw [same]
    exact free _ (by simp [Slots.members])
  have unheard : ∀ v, (m.nextId, v) ∉ h.outcomes := by
    intro v recorded
    exact Nat.lt_irrefl _ (numbered.outcomes _ _ recorded)
  refine ⟨?_, ?_, ?_, serves.unique⟩
  · intro ch member unserved
    rcases List.mem_append.mp member with old | new
    · have before : Unserved ⟨m, h⟩ ch := by
        refine unserved.imp_left fun waits => ?_
        simp only [waiting, grown, ofNat_index, List.mem_append, List.mem_singleton] at waits
        exact waits.resolve_right fun same => unused ch old (Fin.ext same)
      obtain ⟨⟨c, inside, same⟩, silent⟩ := serves.open_call ch old before
      exact ⟨⟨c, List.mem_append_left _ inside, same⟩, silent⟩
    · rw [List.mem_singleton.mp new]
      exact ⟨⟨_, List.mem_append_right _ List.mem_cons_self, rfl, rfl, rfl⟩, unheard⟩
  · intro job working' phase ch member named
    rcases List.mem_append.mp member with old | new
    · exact serves.moved job working' phase ch old named
    · obtain ⟨before, after, jobs⟩ := List.append_of_mem working'
      obtain ⟨owner', inside, head, -⟩ := inv.job_chain jobs
      rw [List.mem_singleton.mp new] at named
      exact absurd (Fin.ext (head.symm.trans named.symm)) (unused owner' inside)
  · intro c member
    rcases List.mem_append.mp member with old | new
    · simp only [initRequest_status (fresh.2 c old).1]
      exact serves.status c old
    · rw [List.mem_singleton.mp new]
      exact Or.inr ⟨Function.update_self _ _ _, rfl, unheard⟩

theorem Serves.took {m : Machine} {h : History} (inv : Inv ⟨m, h⟩) (serves : Serves ⟨m, h⟩)
    {head : BitVec 16} (behind : m.seen ≠ m.bd.queue.avail.idx)
    (read : m.bd.queue.avail.ring (slot 8 m.seen) = head) :
    Serves ⟨{ m with seen := m.seen + 1, jobs := m.jobs ++ [⟨head, .taken⟩] },
      { h with seen := h.seen ++ [head] }⟩ := by
  obtain ⟨waits, next⟩ := inv.next_seen behind
  have shrunk := unread_pop BitVec.toNat waits head
  have named : head = h.submitted[h.seen.length] := read.symm.trans next
  rw [← named] at shrunk
  refine ⟨?_, ?_, serves.status, serves.unique⟩
  · intro ch member unserved
    apply serves.open_call ch member
    simp only [Unserved, waiting, shrunk, List.mem_cons] at unserved ⊢
    rcases unserved with still | ⟨job, inside, same, early⟩
    · exact Or.inl (Or.inr still)
    · rcases List.mem_append.mp inside with old | new
      · exact Or.inr ⟨job, old, same, early⟩
      · rw [List.mem_singleton.mp new] at same
        exact Or.inl (Or.inl same.symm)
  · intro job inside phase
    rcases List.mem_append.mp inside with old | new
    · exact serves.moved job old phase
    · rw [List.mem_singleton.mp new] at phase
      cases phase

theorem transferInto_outside {byte data : Nat → BitVec 8} {sl : Slots} {op : Op} {addr : Nat}
    (outside : ¬inBuffer op addr) :
    transferInto byte (dataDesc sl op) data addr = byte addr := by
  rw [transferInto, if_neg]
  rintro ⟨-, inside⟩
  exact outside inside

theorem unserved_of_job {m : Machine} {h h' : History} {job job' : Job} {before after : List Job}
    {mem : Memory} {ch : Chain} (jobs : m.jobs = before ++ job :: after)
    (same : job'.head = job.head) (early : job.phase ≠ .stated)
    (waits : waiting h' = waiting h)
    (unserved : Unserved ⟨{ m with mem := mem, jobs := before ++ job' :: after }, h'⟩ ch) :
    Unserved ⟨m, h⟩ ch := by
  rcases unserved with still | ⟨found, inside, named, phase⟩
  · exact Or.inl (waits ▸ still)
  · refine Or.inr ?_
    simp only [List.mem_append, List.mem_cons] at inside
    rcases inside with first | rfl | last
    · exact ⟨found, by simp [jobs, first], named, phase⟩
    · exact ⟨job, by simp [jobs], same ▸ named, early⟩
    · exact ⟨found, by simp [jobs, last], named, phase⟩

theorem Serves.moves {m : Machine} {h : History} (inv : Inv ⟨m, h⟩) (placed : Placed ⟨m, h⟩)
    (serves : Serves ⟨m, h⟩) {head : BitVec 16} {before after : List Job}
    (jobs : m.jobs = before ++ ⟨head, .taken⟩ :: after) (data : Nat → BitVec 8) :
    Serves ⟨{ m with mem := { m.mem with byte := transferInto m.mem.byte (dataAt m head) data },
                     jobs := before ++ ⟨head, .moved⟩ :: after },
      { h with transfers := h.transfers ++
          (owner h.chains head).map fun id => (id, transferAt m head) }⟩ := by
  obtain ⟨ch, member, named, own, -, others⟩ := inv.job_chain jobs
  obtain ⟨⟨c, active, ids, pages, ops⟩, -⟩ :=
    serves.job_call jobs (by simp) member named
  have stored := inv.owned.stored ch member
  have request : m.mem.request ch.page = requestOf ch.op := by
    rw [← pages, ← ops]
    exact placed.request c active
  rw [dataAt_head stored named, own, transferAt_head stored named request, List.map_singleton]
  refine ⟨?_, ?_, ?_, serves.unique⟩
  · intro other inside unserved
    exact serves.open_call other inside
      (unserved_of_job jobs (by rfl) (by simp) (by rfl) unserved)
  · intro job inside phase other listed same
    simp only [List.mem_append, List.mem_cons] at inside
    rcases inside with first | rfl | last
    · exact List.mem_append_left _
        (serves.moved job (by simp [jobs, first]) phase other listed same)
    · rw [inv.owned.head_inj listed member (Fin.ext (same.trans named))]
      exact List.mem_append_right _ List.mem_cons_self
    · exact List.mem_append_left _
        (serves.moved job (by simp [jobs, last]) phase other listed same)
  · intro d inside
    have outside : ¬inBuffer ch.op (statusAddr d.page) := by
      rw [← ops]
      exact placed.buffers c active d inside
    simp only [transferInto_outside outside]
    refine (serves.status d inside).imp_left ?_
    rintro ⟨v, recorded, byte, transferred⟩
    exact ⟨v, recorded, byte, List.mem_append_left _ transferred⟩

/-- The step that decides a call: the status byte is its own, and written once. -/
theorem Serves.states {m : Machine} {h : History} (inv : Inv ⟨m, h⟩)
    (numbered : Numbered ⟨m, h⟩) (placed : Placed ⟨m, h⟩) (serves : Serves ⟨m, h⟩)
    {head : BitVec 16} {before after : List Job}
    (jobs : m.jobs = before ++ ⟨head, .moved⟩ :: after) (value : BitVec 8) :
    Serves ⟨{ m with mem := { m.mem with
                       byte := Function.update m.mem.byte (statAt m head).addr value },
                     jobs := before ++ ⟨head, .stated⟩ :: after },
      { h with outcomes := h.outcomes ++ (owner h.chains head).map fun id => (id, value) }⟩ := by
  obtain ⟨ch, member, named, own, settled, others⟩ := inv.job_chain jobs
  obtain ⟨⟨c, active, ids, pages, ops⟩, silent⟩ :=
    serves.job_call jobs (by simp) member named
  have transferred := serves.moved ⟨head, .moved⟩ (by simp [jobs]) rfl ch member named.symm
  have stored := inv.owned.stored ch member
  have target : (statAt m head).addr = statusAddr c.page := by
    rw [statAt_head stored named, pages]
    rfl
  rw [target, own, List.map_singleton]
  have fresh : ∀ i v, i ≠ ch.id →
      ((i, v) ∈ h.outcomes ++ [(ch.id, value)] ↔ (i, v) ∈ h.outcomes) := by
    intro i v apart
    simp [apart]
  refine ⟨?_, ?_, ?_, ?_⟩
  · intro other inside unserved
    -- No ring slot and no other job has this head, so from now on the chain is served.
    have apart : other ≠ ch := by
      rintro rfl
      rcases unserved with waits | ⟨job, listed, same, early⟩
      · exact settled waits
      · simp only [List.mem_append, List.mem_cons] at listed
        rcases listed with first | rfl | last
        · exact others job (List.mem_append_left _ first) same
        · exact early rfl
        · exact others job (List.mem_append_right _ last) same
    have ids' : other.id ≠ ch.id := fun same =>
      apart (List.inj_on_of_nodup_map numbered.chains_nodup inside member same)
    obtain ⟨found, quiet⟩ := serves.open_call other inside
      (unserved_of_job jobs (by rfl) (by simp) (by rfl) unserved)
    exact ⟨found, fun v recorded => quiet v ((fresh _ v ids').mp recorded)⟩
  · intro job inside phase
    simp only [List.mem_append, List.mem_cons] at inside
    rcases inside with first | rfl | last
    · exact serves.moved job (by simp [jobs, first]) phase
    · cases phase
    · exact serves.moved job (by simp [jobs, last]) phase
  · intro d inside
    by_cases same : d.id = c.id
    · have own' : d = c := List.inj_on_of_nodup_map numbered.calls_nodup inside active same
      refine Or.inl ⟨value, ?_, ?_, ?_⟩
      · simp [own', ids]
      · simp [own']
      · rw [own', ids, ops]
        exact transferred
    · have apart : statusAddr d.page ≠ statusAddr c.page :=
        statusAddr_ne (placed.pages d inside c active same)
      have ids' : d.id ≠ ch.id := ids ▸ same
      simp only [Function.update_of_ne apart, fresh _ _ ids']
      exact serves.status d inside
  · intro i v w first second
    by_cases same : i = ch.id
    · subst same
      have written : ∀ u, (ch.id, u) ∈ h.outcomes ++ [(ch.id, value)] → u = value := by
        intro u recorded
        rcases List.mem_append.mp recorded with old | new
        · exact absurd old (silent u)
        · simpa using new
      rw [written v first, written w second]
    · exact serves.unique i v w ((fresh i v same).mp first) ((fresh i w same).mp second)

theorem Serves.published {m : Machine} {h : History} (serves : Serves ⟨m, h⟩) {job : Job}
    {before after : List Job} (jobs : m.jobs = before ++ job :: after) (elem : UsedElem) :
    Serves ⟨{ publishElem m elem with jobs := before ++ after },
      { h with published := h.published ++ [elem] }⟩ := by
  have smaller : ∀ other ∈ before ++ after, other ∈ m.jobs :=
    fun other inside => jobs ▸ mem_of_rest inside
  refine ⟨?_, fun other inside => serves.moved other (smaller other inside), serves.status,
    serves.unique⟩
  intro ch member unserved
  refine serves.open_call ch member (unserved.imp_right ?_)
  rintro ⟨other, inside, rest⟩
  exact ⟨other, smaller other inside, rest⟩

theorem Serves.left {m : Machine} {h : History} (serves : Serves ⟨m, h⟩) {c : Call}
    {before after : List Call} (calls : m.calls = before ++ c :: after)
    (done : m.mem.byte (statusAddr c.page) ≠ statusPending) :
    Serves ⟨{ m with calls := before ++ { c with left := true } :: after }, h⟩ := by
  refine ⟨?_, serves.moved, ?_, serves.unique⟩
  · intro ch member unserved
    obtain ⟨⟨d, inside, same⟩, silent⟩ := serves.open_call ch member unserved
    refine ⟨?_, silent⟩
    simp only [calls, List.mem_append, List.mem_cons] at inside
    rcases inside with first | rfl | last
    · exact ⟨d, by simp [first], same⟩
    · exact ⟨{ d with left := true }, by simp, same⟩
    · exact ⟨d, by simp [last], same⟩
  · intro d inside
    simp only [List.mem_append, List.mem_cons] at inside
    rcases inside with first | rfl | last
    · exact serves.status d (by simp [calls, first])
    · exact Or.inl ((serves.status c (by simp [calls])).resolve_right fun waits => done waits.1)
    · exact serves.status d (by simp [calls, last])

theorem Serves.outcome {m : Machine} {h : History} (serves : Serves ⟨m, h⟩) {c : Call}
    (member : c ∈ m.calls) (out : c.left = true) :
    ∃ v, (c.id, v) ∈ h.outcomes ∧ m.mem.byte (statusAddr c.page) = v ∧
      (c.id, transferOf c.op) ∈ h.transfers := by
  refine (serves.status c member).resolve_right ?_
  rintro ⟨-, inside, -⟩
  simp [out] at inside

theorem Serves.concluded {m : Machine} {h : History} (serves : Serves ⟨m, h⟩) {c : Call}
    {before after : List Call} (calls : m.calls = before ++ c :: after) (out : c.left = true)
    (returned : List (Nat × Bool)) :
    Serves ⟨{ m with calls := before ++ after }, { h with returned := returned }⟩ := by
  obtain ⟨v, recorded, -, -⟩ := serves.outcome (by simp [calls]) out
  refine ⟨?_, serves.moved, ?_, serves.unique⟩
  · intro ch member unserved
    obtain ⟨⟨d, inside, same⟩, silent⟩ := serves.open_call ch member unserved
    refine ⟨⟨d, ?_, same⟩, silent⟩
    -- The returning call has its outcome, so it is not the one this chain waits for.
    simp only [calls, List.mem_append, List.mem_cons] at inside ⊢
    rcases inside with first | rfl | last
    · exact Or.inl first
    · exact absurd (same.1 ▸ recorded) (silent v)
    · exact Or.inr last
  · intro d inside
    exact serves.status d (calls ▸ mem_of_rest inside)

theorem Serves.step {s s' : Sys} {a : Action} (inv : Inv s) (numbered : Numbered s)
    (placed : Placed s) (serves : Serves s) (stepped : Stepped s a s') : Serves s' := by
  cases stepped with
  | refused => exact serves
  | exhausted m h page op fresh full => exact serves.exhausted fresh
  | submitted m h page op sl fresh distinct free =>
      exact serves.submitted inv numbered fresh free
  | took m h head behind read => exact serves.took inv behind read
  | moved m h j data head before after jobs => exact serves.moves inv placed jobs data
  | stated m h j value head before after jobs =>
      exact serves.states inv numbered placed jobs value
  | published m h j len head before after jobs => exact serves.published jobs _
  | drained m h bd elem behind read result =>
      refine ⟨?_, ?_, serves.status, serves.unique⟩
      · intro ch member
        exact serves.open_call ch (List.mem_of_mem_filter member)
      · intro job inside phase ch member
        exact serves.moved job inside phase ch (List.mem_of_mem_filter member)
  | polled => exact serves
  | left m h i c before after calls done => exact serves.left calls done
  | concluded m h i c before after calls out => exact serves.concluded calls out _

structure Coherent (s : Sys) : Prop where
  inv : Inv s
  numbered : Numbered s
  placed : Placed s
  serves : Serves s

theorem Initial.coherent {s : Sys} (initial : Initial s) : Coherent s :=
  ⟨initial.inv, initial.numbered, initial.placed, initial.serves⟩

theorem Coherent.step {s s' : Sys} {a : Action} (sound : Coherent s) (stepped : Stepped s a s') :
    Coherent s' where
  inv := sound.inv.step stepped
  numbered := sound.numbered.step sound.inv stepped
  placed := sound.placed.step stepped
  serves := sound.serves.step sound.inv sound.numbered sound.placed stepped

theorem reach_coherent {s : Sys} (reached : exchange.Reach s) : Coherent s := by
  refine reached.invariant ?_ ?_
  · intro s initial
    exact Initial.coherent initial
  · intro s a s' sound taken
    exact sound.step (Sys.step_stepped taken)

/-! ## Results and memory -/

structure Touch where
  head : BitVec 16
  addr : Nat
  len : Nat

def touch (head : BitVec 16) (d : Descriptor) : Touch :=
  ⟨head, d.addr, d.len.toNat⟩

def touches (m : Machine) : Action → List Touch
  | .move j _ =>
    match m.jobs[j]? with
    | some job => [touch job.head (descAt m job.head), touch job.head (dataAt m job.head)]
    | none => []
  | .state j _ =>
    match m.jobs[j]? with
    | some job => [touch job.head (statAt m job.head)]
    | none => []
  | _ => []

def Action.byDevice : Action → Bool
  | .take | .move _ _ | .state _ _ | .publish _ _ => true
  | .submit _ _ | .drain | .test _ | .conclude _ => false

/-- The header, the buffer or the status byte of a call. -/
def Call.Owns (c : Call) (t : Touch) : Prop :=
  (t.addr = c.page ∧ t.len = 16) ∨ (t.addr = c.op.buffer ∧ t.len = c.op.size.toNat) ∨
    (t.addr = statusAddr c.page ∧ t.len = 1)

theorem Machine.move_job {m m' : Machine} {j : Nat} {data : Nat → BitVec 8}
    (taken : m.step (.move j data) = some m') :
    ∃ head, m.jobs[j]? = some ⟨head, .taken⟩ ∧
      m'.mem.byte = transferInto m.mem.byte (dataAt m head) data := by
  simp only [Machine.step] at taken
  split at taken
  · next head found =>
      cases taken
      exact ⟨head, found, rfl⟩
  · cases taken

theorem Machine.state_job {m m' : Machine} {j : Nat} {value : BitVec 8}
    (taken : m.step (.state j value) = some m') :
    ∃ head, m.jobs[j]? = some ⟨head, .moved⟩ ∧
      m'.mem.byte = Function.update m.mem.byte (statAt m head).addr value := by
  simp only [Machine.step] at taken
  split at taken
  · next head found =>
      cases taken
      exact ⟨head, found, rfl⟩
  · cases taken

theorem Coherent.job_call {m : Machine} {h : History} (sound : Coherent ⟨m, h⟩) {j : Nat}
    {job : Job} (found : m.jobs[j]? = some job) (early : job.phase ≠ .stated) :
    ∃ ch ∈ h.chains, job.head.toNat = ch.slots.head.val ∧ (∀ ok, (ch.id, ok) ∉ h.returned) ∧
      ∃ c ∈ m.calls, Matches c ch := by
  obtain ⟨before, after, jobs, -⟩ := split_at found
  obtain ⟨ch, member, named, -⟩ := sound.inv.job_chain jobs
  obtain ⟨⟨c, active, same⟩, -⟩ := sound.serves.job_call jobs early member named
  refine ⟨ch, member, named, ?_, c, active, same⟩
  intro ok recorded
  exact (sound.numbered.returned _ _ recorded).2 c active same.1

/-- Every access of the device is for a call that has not returned, to its own memory. -/
theorem Coherent.touches_own {s s' : Sys} {a : Action} (sound : Coherent s)
    (taken : s.step a = some s') {t : Touch} (touched : t ∈ touches s.machine a) :
    ∃ ch ∈ s.history.chains, t.head.toNat = ch.slots.head.val ∧
      (∀ ok, (ch.id, ok) ∉ s.history.returned) ∧
      ∃ c ∈ s.machine.calls, c.id = ch.id ∧ c.Owns t := by
  obtain ⟨m, h⟩ := s
  obtain ⟨m', ran, rfl⟩ := Option.map_eq_some_iff.mp taken
  cases a with
  | move j data =>
      obtain ⟨head, found, -⟩ := Machine.move_job ran
      obtain ⟨ch, member, named, quiet, c, active, ids, pages, ops⟩ :=
        sound.job_call found (by simp)
      have stored := sound.inv.owned.stored ch member
      simp only [touches, found, descAt_head stored named, dataAt_head stored named,
        List.mem_cons, List.not_mem_nil, or_false] at touched
      rcases touched with rfl | rfl
      · refine ⟨ch, member, named, quiet, c, active, ids, Or.inl ?_⟩
        simp [touch, headDesc, pages]
      · refine ⟨ch, member, named, quiet, c, active, ids, Or.inr (Or.inl ?_)⟩
        simp [touch, dataDesc, ops]
  | state j value =>
      obtain ⟨head, found, -⟩ := Machine.state_job ran
      obtain ⟨ch, member, named, quiet, c, active, ids, pages, ops⟩ :=
        sound.job_call found (by simp)
      have stored := sound.inv.owned.stored ch member
      simp only [touches, found, statAt_head stored named, List.mem_singleton] at touched
      subst touched
      refine ⟨ch, member, named, quiet, c, active, ids, Or.inr (Or.inr ?_)⟩
      simp [touch, statusDesc, pages]
  | submit page op => cases touched
  | take => cases touched
  | publish j len => cases touched
  | drain => cases touched
  | test i => cases touched
  | conclude i => cases touched

theorem Coherent.writes_touched {s s' : Sys} {a : Action} (sound : Coherent s)
    (taken : s.step a = some s') (device : a.byDevice = true) {addr : Nat}
    (changed : s'.machine.mem.byte addr ≠ s.machine.mem.byte addr) :
    ∃ t ∈ touches s.machine a, t.addr ≤ addr ∧ addr < t.addr + t.len := by
  obtain ⟨m, h⟩ := s
  obtain ⟨m', ran, rfl⟩ := Option.map_eq_some_iff.mp taken
  cases a with
  | move j data =>
      obtain ⟨head, found, bytes⟩ := Machine.move_job ran
      simp only [bytes, transferInto] at changed
      split_ifs at changed with inside
      · exact ⟨touch head (dataAt m head), by simp [touches, found], inside.2⟩
      · exact absurd rfl changed
  | state j value =>
      obtain ⟨head, found, bytes⟩ := Machine.state_job ran
      obtain ⟨ch, member, named, -⟩ := sound.job_call found (by simp)
      have stored := sound.inv.owned.stored ch member
      have here : addr = (statAt m head).addr := by
        by_contra apart
        simp only [bytes, Function.update_of_ne apart] at changed
        exact changed rfl
      refine ⟨touch head (statAt m head), by simp [touches, found], ?_⟩
      simp [here, touch, statAt_head stored named, statusDesc]
  | take =>
      simp only [Machine.step] at ran
      split_ifs at ran
      cases ran
      exact absurd rfl changed
  | publish j len =>
      simp only [Machine.step] at ran
      split at ran
      · cases ran
        exact absurd rfl changed
      · cases ran
  | submit page op => cases device
  | drain => cases device
  | test i => cases device
  | conclude i => cases device

/-- When a call returns, the device has made its transfer and written its status, once, and
the result is that status.  The device reads and writes request pages and buffers only for
calls that have not returned, each time the call's own; this holds whatever has become of the
pages of calls that have. -/
theorem blockOp_completion {s : Sys} (reached : exchange.Reach s) :
    (∀ i c s', s.machine.calls[i]? = some c → s.step (.conclude i) = some s' →
      ∃ v, (∀ w, (c.id, w) ∈ s.history.outcomes ↔ w = v) ∧
        (c.id, transferOf c.op) ∈ s.history.transfers ∧
        s'.history.returned = s.history.returned ++ [(c.id, v == 0)]) ∧
    (∀ a s', s.step a = some s' →
      (∀ t ∈ touches s.machine a, ∃ ch ∈ s.history.chains, t.head.toNat = ch.slots.head.val ∧
        (∀ ok, (ch.id, ok) ∉ s.history.returned) ∧
        ∃ c ∈ s.machine.calls, c.id = ch.id ∧ c.Owns t) ∧
      (a.byDevice = true → ∀ addr, s'.machine.mem.byte addr ≠ s.machine.mem.byte addr →
        ∃ t ∈ touches s.machine a, t.addr ≤ addr ∧ addr < t.addr + t.len)) := by
  have sound := reach_coherent reached
  refine ⟨?_, ?_⟩
  · intro i c s' found taken
    obtain ⟨m, h⟩ := s
    obtain ⟨m', ran, rfl⟩ := Option.map_eq_some_iff.mp taken
    have out : c.left = true := by
      by_contra stays
      simp only [Machine.step, found, stays] at ran
      cases ran
    obtain ⟨v, recorded, byte, transferred⟩ :=
      sound.serves.outcome (List.mem_of_getElem? found) out
    refine ⟨v, ?_, transferred, ?_⟩
    · intro w
      exact ⟨fun also => sound.serves.unique _ _ _ also recorded, fun same => same ▸ recorded⟩
    · simp only at found
      simp [record, found, byte]
  · intro a s' taken
    exact ⟨fun t touched => sound.touches_own taken touched,
      fun device addr changed => sound.writes_touched taken device changed⟩

/-- The first call returns before its completion is published, and the second call gets the
same request page. -/
def pageReuse : List Action :=
  [.submit (some 0x80200000) (blockRead 0x80300000), .take, .move 0 (fun _ => 7), .state 0 0,
    .test 0, .conclude 0, .submit (some 0x80200000) (blockRead 0x80301000), .take,
    .move 1 (fun _ => 9), .state 1 1, .test 0]

theorem blockOp_completion_page_reuse :
    ∃ s s', exchange.run readySys pageReuse = some s ∧ s.step (.conclude 0) = some s' ∧
      s'.history.returned = [(0, true), (1, false)] ∧
      (1, transferOf (blockRead 0x80301000)) ∈ s.history.transfers ∧
      s.history.chains.length = 2 := by
  have ran : (exchange.run readySys pageReuse).map (fun s : Sys =>
      (s.machine.calls, s.history.outcomes)) =
      some ([⟨1, 0x80200000, blockRead 0x80301000, true⟩], [(0, 0), (1, 1)]) := by
    decide +kernel
  have also : (exchange.run readySys pageReuse).map (fun s : Sys =>
      (s.history.returned, s.history.chains.length, (s.step (.conclude 0)).isSome)) =
      some ([(0, true)], 2, true) := by
    decide +kernel
  obtain ⟨s, ends, facts⟩ := Option.map_eq_some_iff.mp ran
  rw [ends] at also
  simp only [Option.map_some, Option.some.injEq, Prod.mk.injEq] at facts also
  obtain ⟨calls, outcomes⟩ := facts
  obtain ⟨returned, open', enabled⟩ := also
  have reached : exchange.Reach s := (System.Reach.start readySys_initial).run ends
  obtain ⟨s', step⟩ := Option.isSome_iff_exists.mp enabled
  obtain ⟨v, written, transferred, result⟩ := (blockOp_completion reached).1 0
    ⟨1, 0x80200000, blockRead 0x80301000, true⟩ s' (by rw [calls]; rfl) step
  have value : 1 = v := (written 1).mp (by simp [outcomes])
  refine ⟨s, s', ends, step, ?_, transferred, open'⟩
  rw [result, returned, ← value]
  rfl

end Vesper.Virtio
