import Mathlib.Tactic
import Vesper.Virtio.Disk

/-!
# The disk is atomic to its callers

Calls take effect one after another, each between its submission and its return.  The log
records them in the order in which the device moves their data.  The invariant keeps, for
every open call, its buffer as it was until its own data is moved, then the log entry that
fits it; the status byte and the result are the verdict of that entry.
-/

set_option autoImplicit false

namespace Vesper.Virtio.Disk

open Vesper.Lib (System)
open Vesper.Lib.Linearization
open Vesper.Lib.WrapRing (slot)

/-! ## What the record says -/

def startOf (op : Op) : Nat := (op.offset / 512).toNat * 512

/-- An effect that fits a call: a success moves the bytes the buffer held when the call was
made, or those it holds at the end, and a failure stays within the sectors of the call. -/
def Fits (op : Op) (before after : List (BitVec 8)) : Effect → Prop
  | .read start bytes => op.write = false ∧ start = startOf op ∧ bytes = after
  | .write start bytes => op.write = true ∧ start = startOf op ∧ bytes = before
  | .failedRead => op.write = false
  | .failedWrite start bytes =>
    op.write = true ∧ start = startOf op ∧ bytes.length = op.size.toNat

def Untaken (s : Sys) (ch : Chain) : Prop :=
  ch.slots.head.val ∈ waiting s.history ∨
    ∃ job ∈ s.machine.jobs, job.head.toNat = ch.slots.head.val ∧ job.phase = .taken

structure Ledger (image : Image) (s : Attached) : Prop where
  coherent : Coherent s.sys
  explains : Explains (atomicDisk image) s.log image s.disk s.sys.machine.nextId
  apart : ∀ c ∈ s.sys.machine.calls, ∀ d ∈ s.sys.machine.calls, c.id ≠ d.id → Apart c.op d.op
  quiet : ∀ ch ∈ s.sys.history.chains, Untaken s.sys ch → ∀ e ∈ s.log, e.id ≠ ch.id
  untouched : ∀ c ∈ s.sys.machine.calls, (∀ e ∈ s.log, e.id ≠ c.id) →
    bufferOf s.sys.machine.mem.byte c.op = s.given c.id
  fits : ∀ c ∈ s.sys.machine.calls, ∀ e ∈ s.log, e.id = c.id →
    Fits c.op (s.given c.id) (bufferOf s.sys.machine.mem.byte c.op) e.effect
  decided : ∀ job ∈ s.sys.machine.jobs, job.phase = .moved → ∀ ch ∈ s.sys.history.chains,
    ch.slots.head.val = job.head.toNat →
    ∃ e ∈ s.log, e.id = ch.id ∧ e.effect.ok = s.verdict job.head
  stated : ∀ i v, (i, v) ∈ s.sys.history.outcomes →
    ∃ e ∈ s.log, e.id = i ∧ e.effect.ok = (v == 0)
  results : ∀ r ∈ s.results, r.after.length = r.op.size.toNat ∧
    ∃ e ∈ s.log, e.id = r.id ∧ e.effect.ok = r.ok ∧ Fits r.op r.before r.after e.effect

/-! ## Buffers -/

theorem window_length (bytes : Nat → BitVec 8) (start len : Nat) :
    (window bytes start len).length = len := by
  rw [window, List.length_map, List.length_range]

theorem window_congr {f g : Nat → BitVec 8} {start start' len : Nat}
    (same : ∀ k, k < len → f (start + k) = g (start' + k)) :
    window f start len = window g start' len := by
  refine List.map_congr_left fun k member => ?_
  exact same k (List.mem_range.mp member)

theorem bufferOf_congr {f g : Nat → BitVec 8} {op : Op}
    (same : ∀ addr, inBuffer op addr → f addr = g addr) : bufferOf f op = bufferOf g op :=
  window_congr fun _ small => same _ ⟨Nat.le_add_right _ _, Nat.add_lt_add_left small _⟩

theorem Apart.outside {op other : Op} (apart : Apart op other) {addr : Nat}
    (inside : inBuffer op addr) : ¬inBuffer other addr := by
  rintro ⟨low, high⟩
  obtain ⟨low', high'⟩ := inside
  rcases apart with before | behind
  · omega
  · omega

theorem Apart.symm {op other : Op} (apart : Apart op other) : Apart other op := Or.symm apart

/-! ## Chains on their way to the device -/

theorem untaken_back {s s' : Sys} {a : Action} (inv : Inv s) (stepped : Stepped s a s')
    {ch : Chain} (member : ch ∈ s'.history.chains) (untaken : Untaken s' ch) :
    (ch ∈ s.history.chains ∧ Untaken s ch) ∨ ch.id = s.machine.nextId := by
  cases stepped with
  | refused => exact Or.inl ⟨member, untaken⟩
  | exhausted => exact Or.inl ⟨member, untaken⟩
  | submitted m h page op sl fresh distinct free =>
      rcases List.mem_append.mp member with old | new
      · left
        refine ⟨old, untaken.imp_left fun waits => ?_⟩
        have grown := unread_push BitVec.toNat inv.avail.behind (BitVec.ofNat 16 sl.head)
        simp only [waiting, grown, ofNat_index, List.mem_append, List.mem_singleton] at waits
        refine waits.resolve_right fun same => ?_
        apply inv.owned.not_free old ch.head_mem
        rw [Fin.ext same]
        exact free _ List.mem_cons_self
      · right
        rw [List.mem_singleton.mp new]
  | took m h head behind read =>
      left
      refine ⟨member, ?_⟩
      obtain ⟨waits, next⟩ := inv.next_seen behind
      have shrunk := unread_pop BitVec.toNat waits head
      rw [← next, read] at shrunk
      simp only [Untaken, waiting, shrunk, List.mem_cons] at untaken ⊢
      rcases untaken with still | ⟨job, inside, same, early⟩
      · exact Or.inl (Or.inr still)
      · rcases List.mem_append.mp inside with old | new
        · exact Or.inr ⟨job, old, same, early⟩
        · rw [List.mem_singleton.mp new] at same
          exact Or.inl (Or.inl same.symm)
  | moved m h j data head before after jobs =>
      left
      refine ⟨member, untaken.imp_right ?_⟩
      rintro ⟨job, inside, same, early⟩
      refine ⟨job, ?_, same, early⟩
      simp only [List.mem_append, List.mem_cons] at inside
      rcases inside with first | rfl | last
      · simp [jobs, first]
      · cases early
      · simp [jobs, last]
  | stated m h j value head before after jobs =>
      left
      refine ⟨member, untaken.imp_right ?_⟩
      rintro ⟨job, inside, same, early⟩
      refine ⟨job, ?_, same, early⟩
      simp only [List.mem_append, List.mem_cons] at inside
      rcases inside with first | rfl | last
      · simp [jobs, first]
      · cases early
      · simp [jobs, last]
  | published m h j len head before after jobs =>
      left
      refine ⟨member, untaken.imp_right ?_⟩
      rintro ⟨job, inside, same, early⟩
      exact ⟨job, jobs ▸ mem_of_rest inside, same, early⟩
  | drained => exact Or.inl ⟨List.mem_of_mem_filter member, untaken⟩
  | polled => exact Or.inl ⟨member, untaken⟩
  | left => exact Or.inl ⟨member, untaken⟩
  | concluded => exact Or.inl ⟨member, untaken⟩

/-! ## Steps that move no data -/

section Steps
variable {image : Image} {s : Attached}

/-- The record stays true as long as open calls keep their buffers and no request gets any
further with the device. -/
theorem Ledger.transport (ledger : Ledger image s) {sys : Sys} (coherent : Coherent sys)
    (next : s.sys.machine.nextId ≤ sys.machine.nextId)
    (calls : ∀ c ∈ sys.machine.calls, ∃ d ∈ s.sys.machine.calls, d.id = c.id ∧ d.op = c.op)
    (bytes : ∀ c ∈ s.sys.machine.calls, ∀ addr, inBuffer c.op addr →
      sys.machine.mem.byte addr = s.sys.machine.mem.byte addr)
    (chains : ∀ ch ∈ sys.history.chains, ch ∈ s.sys.history.chains)
    (untaken : ∀ ch ∈ sys.history.chains, Untaken sys ch → Untaken s.sys ch)
    (moved : ∀ job ∈ sys.machine.jobs, job.phase = .moved → job ∈ s.sys.machine.jobs)
    (stated : ∀ i v, (i, v) ∈ sys.history.outcomes →
      ∃ e ∈ s.log, e.id = i ∧ e.effect.ok = (v == 0)) :
    Ledger image { s with sys := sys } where
  coherent := coherent
  explains := ledger.explains.invoke next
  apart := by
    intro c member d member' differ
    obtain ⟨c', old, id, op⟩ := calls c member
    obtain ⟨d', old', id', op'⟩ := calls d member'
    rw [← op, ← op']
    exact ledger.apart c' old d' old' (by rw [id, id']; exact differ)
  quiet ch member early := ledger.quiet ch (chains ch member) (untaken ch member early)
  untouched := by
    intro c member silent
    obtain ⟨d, old, id, op⟩ := calls c member
    have kept := ledger.untouched d old (by rw [id]; exact silent)
    rw [id] at kept
    rw [← op, ← kept]
    exact bufferOf_congr (bytes d old)
  fits := by
    intro c member e listed own
    obtain ⟨d, old, id, op⟩ := calls c member
    have kept := ledger.fits d old e listed (own.trans id.symm)
    rw [← bufferOf_congr (bytes d old), id, op] at kept
    exact kept
  decided job member phase ch listed named :=
    ledger.decided job (moved job member phase) phase ch (chains ch listed) named
  stated := stated
  results := ledger.results

theorem Ledger.background (ledger : Ledger image s) {a : Action} {sys : Sys}
    (stepped : Stepped s.sys a sys) (background : Background a) :
    Ledger image { s with sys := sys } := by
  have coherent := ledger.coherent.step stepped
  have back : ∀ ch ∈ sys.history.chains, ch.id ≠ s.sys.machine.nextId →
      Untaken sys ch → Untaken s.sys ch := by
    intro ch member old early
    exact ((untaken_back ledger.coherent.inv stepped member early).resolve_right old).2
  have known : ∀ ch ∈ s.sys.history.chains, ch.id ≠ s.sys.machine.nextId := fun ch member =>
    (ledger.coherent.numbered.chains ch member).ne
  obtain ⟨sys₀, disk, verdict, log, given, results⟩ := s
  cases stepped with
  | refused page op refuses => simp [Background] at background
  | exhausted m h page op fresh full => simp [Background] at background
  | submitted m h page op sl fresh distinct free => simp [Background] at background
  | took m h head behind read =>
      refine ledger.transport coherent le_rfl (fun c member => ⟨c, member, rfl, rfl⟩)
        (fun _ _ _ _ => rfl) (fun _ member => member)
        (fun ch member => back ch member (known ch member)) ?_ ledger.stated
      intro job member phase
      rcases List.mem_append.mp member with old | new
      · exact old
      · rw [List.mem_singleton.mp new] at phase
        cases phase
  | moved m h j data head before after jobs => simp [Background] at background
  | stated m h j value head before after jobs => simp [Background] at background
  | published m h j len head before after jobs =>
      refine ledger.transport coherent le_rfl (fun c member => ⟨c, member, rfl, rfl⟩)
        (fun _ _ _ _ => rfl) (fun _ member => member)
        (fun ch member => back ch member (known ch member)) ?_ ledger.stated
      intro job member _
      exact jobs ▸ mem_of_rest member
  | drained m h bd elem behind read result =>
      refine ledger.transport coherent le_rfl (fun c member => ⟨c, member, rfl, rfl⟩)
        (fun _ _ _ _ => rfl) (fun _ member => List.mem_of_mem_filter member)
        (fun ch member => back ch member (known ch (List.mem_of_mem_filter member)))
        (fun _ member _ => member) ledger.stated
  | polled i => exact ledger
  | left m h i c before after calls done =>
      refine ledger.transport coherent le_rfl ?_ (fun _ _ _ _ => rfl) (fun _ member => member)
        (fun ch member => back ch member (known ch member)) (fun _ member _ => member)
        ledger.stated
      intro d member
      obtain ⟨e, old, id, -, op⟩ := left_same calls member
      exact ⟨e, old, id, op⟩
  | concluded m h i c before after calls out =>
      refine ledger.transport coherent le_rfl ?_ (fun _ _ _ _ => rfl) (fun _ member => member)
        (fun ch member => back ch member (known ch member)) (fun _ member _ => member)
        ledger.stated
      intro d member
      exact ⟨d, calls ▸ mem_of_rest member, rfl, rfl⟩

theorem Ledger.regive (ledger : Ledger image s) (bytes : List (BitVec 8)) :
    Ledger image { s with given := Function.update s.given s.sys.machine.nextId bytes } := by
  have same : ∀ c ∈ s.sys.machine.calls,
      Function.update s.given s.sys.machine.nextId bytes c.id = s.given c.id := fun c member =>
    Function.update_of_ne (ledger.coherent.numbered.calls c member).ne _ _
  refine ⟨ledger.coherent, ledger.explains, ledger.apart, ledger.quiet, ?_, ?_, ledger.decided,
    ledger.stated, ledger.results⟩
  · intro c member silent
    exact (ledger.untouched c member silent).trans (same c member).symm
  · intro c member e listed own
    dsimp only
    rw [same c member]
    exact ledger.fits c member e listed own

theorem initRequest_outside {mem : Memory} {page addr : Nat} {op : Op}
    (apart : addr ≠ statusAddr page) : (initRequest mem page op).byte addr = mem.byte addr :=
  Function.update_of_ne apart _ _

theorem Ledger.submit (ledger : Ledger image s) {page : Option Nat} {op : Op} {sys : Sys}
    (apart : ∀ c ∈ s.sys.machine.calls, Apart op c.op)
    (stepped : Stepped s.sys (.submit page op) sys) :
    Ledger image { s with
      sys := sys
      given := Function.update s.given s.sys.machine.nextId
        (bufferOf s.sys.machine.mem.byte op) } := by
  have coherent := ledger.coherent.step stepped
  have again := ledger.regive (bufferOf s.sys.machine.mem.byte op)
  have back := @untaken_back s.sys sys _ ledger.coherent.inv stepped
  obtain ⟨sys₀, disk, verdict, log, given, results⟩ := s
  cases stepped with
  | refused refuses => exact again
  | exhausted m h page _ fresh full =>
      refine again.transport coherent le_rfl (fun c member => ⟨c, member, rfl, rfl⟩) ?_
        (fun _ member => member) (fun _ _ early => early) (fun _ member _ => member)
        again.stated
      intro c member addr inside
      refine initRequest_outside fun same => ?_
      exact (fresh.2 c member).2.1 (same ▸ inside)
  | submitted m h page _ sl fresh distinct free =>
      have keeps : ∀ c ∈ m.calls, bufferOf (initRequest m.mem page op).byte c.op =
          bufferOf m.mem.byte c.op := by
        intro c member
        refine bufferOf_congr fun addr inside => initRequest_outside fun same => ?_
        exact (fresh.2 c member).2.1 (same ▸ inside)
      have unheard : ∀ e ∈ log, e.id ≠ m.nextId := fun e listed =>
        (ledger.explains.invoked e listed).ne
      refine ⟨coherent, ledger.explains.invoke (Nat.le_succ _), ?_, ?_, ?_, ?_, ?_, ledger.stated,
        ledger.results⟩
      · intro c member d member' differ
        simp only [List.mem_append, List.mem_singleton] at member member'
        rcases member with old | rfl
        · rcases member' with old' | rfl
          · exact ledger.apart c old d old' differ
          · exact (apart c old).symm
        · rcases member' with old' | rfl
          · exact apart d old'
          · exact absurd rfl differ
      · intro ch member early
        rcases back member early with ⟨old, early'⟩ | new
        · exact ledger.quiet ch old early'
        · rw [new]
          exact unheard
      · intro c member silent
        simp only [List.mem_append, List.mem_singleton] at member
        rcases member with old | rfl
        · exact (keeps c old).trans (again.untouched c old silent)
        · dsimp only
          rw [Function.update_self]
          refine bufferOf_congr fun addr inside => initRequest_outside fun same => ?_
          exact fresh.1 (same ▸ inside)
      · intro c member e listed own
        simp only [List.mem_append, List.mem_singleton] at member
        rcases member with old | rfl
        · have kept := again.fits c old e listed own
          rw [← keeps c old] at kept
          exact kept
        · exact absurd own (unheard e listed)
      · intro job member phase ch listed named
        rcases List.mem_append.mp listed with old | new
        · exact ledger.decided job member phase ch old named
        · obtain ⟨before, after, jobs⟩ := List.append_of_mem member
          obtain ⟨owner', inside, head, -⟩ := ledger.coherent.inv.job_chain jobs
          rw [List.mem_singleton.mp new] at named
          refine absurd ?_ (ledger.coherent.inv.owned.not_free inside owner'.head_mem)
          rw [← Fin.ext (named.trans head)]
          exact free _ List.mem_cons_self

theorem Ledger.store (ledger : Ledger image s) {addr : Nat} (value : BitVec 8)
    (foreign : Foreign s.sys.machine.calls addr) :
    Ledger image { s with sys := { s.sys with machine := { s.sys.machine with mem :=
      { s.sys.machine.mem with
        byte := Function.update s.sys.machine.mem.byte addr value } } } } := by
  have coherent := ledger.coherent
  refine ledger.transport ⟨?_, ?_, ?_, ?_⟩ le_rfl (fun c member => ⟨c, member, rfl, rfl⟩) ?_
    (fun _ member => member) (fun _ _ early => early) (fun _ member _ => member) ledger.stated
  · exact ⟨coherent.inv.owned, coherent.inv.avail, coherent.inv.used, coherent.inv.seen,
      coherent.inv.ack, coherent.inv.seen_prefix, coherent.inv.consumed_prefix, coherent.inv.flow⟩
  · exact ⟨coherent.numbered.calls, coherent.numbered.chains, coherent.numbered.outcomes,
      coherent.numbered.returned, coherent.numbered.calls_nodup, coherent.numbered.chains_nodup⟩
  · exact ⟨coherent.placed.pages, coherent.placed.buffers, coherent.placed.request⟩
  · refine ⟨coherent.serves.open_call, coherent.serves.moved, ?_, coherent.serves.unique⟩
    intro c member
    have away : statusAddr c.page ≠ addr := (foreign c member).2.symm
    simp only [Function.update_of_ne away]
    exact coherent.serves.status c member
  · intro c member other inside
    have away : other ≠ addr := fun same => (foreign c member).1 (same ▸ inside)
    exact Function.update_of_ne away _ _

/-- The status a call returns with is the verdict on its own request. -/
theorem Ledger.conclude (ledger : Ledger image s) {i : Nat} {c : Call} {sys : Sys}
    (found : s.sys.machine.calls[i]? = some c) (taken : s.sys.step (.conclude i) = some sys) :
    Ledger image { s with
      sys := sys
      results := s.results ++ [⟨c.id, c.op, s.sys.machine.mem.byte (statusAddr c.page) == 0,
        s.given c.id, bufferOf s.sys.machine.mem.byte c.op⟩] } := by
  have stepped := Sys.step_stepped taken
  have after := ledger.background stepped (by simp [Background])
  have member : c ∈ s.sys.machine.calls := List.mem_of_getElem? found
  have out : c.left = true := by
    by_contra inside
    simp [Sys.step, Machine.step, found, inside] at taken
  obtain ⟨v, recorded, byte, -⟩ := ledger.coherent.serves.outcome member out
  obtain ⟨e, listed, own, verdict⟩ := ledger.stated c.id v recorded
  refine ⟨after.coherent, after.explains, after.apart, after.quiet, after.untouched, after.fits,
    after.decided, after.stated, ?_⟩
  intro r member'
  rcases List.mem_append.mp member' with old | new
  · exact ledger.results r old
  · rw [List.mem_singleton.mp new]
    refine ⟨window_length _ _ _, e, listed, own, ?_, ledger.fits c member e listed own⟩
    rw [verdict, ← byte]

/-! ## Moving data -/

structure Moving (s : Attached) (head : BitVec 16) (before after : List Job) (ch : Chain)
    (c : Call) : Prop where
  chain : ch ∈ s.sys.history.chains
  named : head.toNat = ch.slots.head.val
  owner : owner s.sys.history.chains head = [ch.id]
  settled : ch.slots.head.val ∉ waiting s.sys.history
  others : ∀ job ∈ before ++ after, job.head.toNat ≠ ch.slots.head.val
  call : c ∈ s.sys.machine.calls
  id : c.id = ch.id
  transfer : transferAt s.sys.machine head = transferOf c.op
  data : dataAt s.sys.machine head = dataDesc ch.slots c.op
  silent : ∀ e ∈ s.log, e.id ≠ c.id

theorem Ledger.moving (ledger : Ledger image s) {head : BitVec 16} {before after : List Job}
    (jobs : s.sys.machine.jobs = before ++ ⟨head, .taken⟩ :: after) :
    ∃ ch c, Moving s head before after ch c := by
  obtain ⟨ch, member, named, own, settled, others⟩ := ledger.coherent.inv.job_chain jobs
  obtain ⟨⟨c, active, ids, pages, ops⟩, -⟩ :=
    ledger.coherent.serves.job_call jobs (by simp) member named
  have stored := ledger.coherent.inv.owned.stored ch member
  have request : s.sys.machine.mem.request ch.page = requestOf ch.op := by
    rw [← pages, ← ops]
    exact ledger.coherent.placed.request c active
  have early : Untaken s.sys ch := Or.inr ⟨⟨head, .taken⟩, by simp [jobs], named, rfl⟩
  refine ⟨ch, c, member, named, own, settled, others, active, ids, ?_, ?_, ?_⟩
  · rw [ops]
    exact transferAt_head stored named request
  · rw [ops]
    exact dataAt_head stored named
  · rw [ids]
    exact ledger.quiet ch member early

theorem Moving.not_untaken {head : BitVec 16} {before after : List Job} {ch : Chain} {c : Call}
    (moving : Moving s head before after ch c) {sys : Sys}
    (jobs : sys.machine.jobs = before ++ ⟨head, .moved⟩ :: after)
    (waits : waiting sys.history = waiting s.sys.history) : ¬Untaken sys ch := by
  rintro (still | ⟨job, inside, same, early⟩)
  · exact moving.settled (waits ▸ still)
  · rw [jobs] at inside
    simp only [List.mem_append, List.mem_cons] at inside
    rcases inside with first | rfl | last
    · exact moving.others job (List.mem_append_left _ first) same
    · cases early
    · exact moving.others job (List.mem_append_right _ last) same

theorem Ledger.moves (ledger : Ledger image s) {j : Nat} {head : BitVec 16}
    {before after : List Job} (jobs : s.sys.machine.jobs = before ++ ⟨head, .taken⟩ :: after)
    {data : Nat → BitVec 8} {effect : Effect} {disk : Image} {sys : Sys}
    (taken : s.sys.step (.move j data) = some sys) {ch : Chain} {c : Call}
    (moving : Moving s head before after ch c)
    (machine : sys.machine = { s.sys.machine with
      mem := { s.sys.machine.mem with
        byte := transferInto s.sys.machine.mem.byte (dataDesc ch.slots c.op) data }
      jobs := before ++ ⟨head, .moved⟩ :: after })
    (chains : sys.history.chains = s.sys.history.chains)
    (waits : waiting sys.history = waiting s.sys.history)
    (outcomes : sys.history.outcomes = s.sys.history.outcomes)
    (onDisk : effect.onDisk s.disk = some disk)
    (fits : Fits c.op (s.given c.id) (bufferOf sys.machine.mem.byte c.op) effect) :
    Ledger image { s with
      sys := sys
      disk := disk
      verdict := Function.update s.verdict head effect.ok
      log := s.log ++ (owner s.sys.history.chains head).map fun id => ⟨id, effect⟩ } := by
  have stepped := Sys.step_stepped taken
  have coherent := ledger.coherent.step stepped
  have known := ledger.coherent.numbered.calls c moving.call
  have keeps : ∀ d ∈ s.sys.machine.calls, d.id ≠ c.id →
      bufferOf sys.machine.mem.byte d.op = bufferOf s.sys.machine.mem.byte d.op := by
    intro d member differ
    rw [machine]
    refine bufferOf_congr fun addr inside => transferInto_outside ?_
    exact (ledger.apart d member c moving.call differ).outside inside
  have calls : sys.machine.calls = s.sys.machine.calls := by rw [machine]
  rw [moving.owner, List.map_singleton, ← moving.id]
  refine ⟨coherent, ?_, ?_, ?_, ?_, ?_, ?_, ?_, ?_⟩
  · have next : sys.machine.nextId = s.sys.machine.nextId := by rw [machine]
    dsimp only
    rw [next]
    exact ledger.explains.commit onDisk known moving.silent
  · dsimp only
    rw [calls]
    exact ledger.apart
  · intro other member early e listed
    dsimp only at member early listed
    rcases List.mem_append.mp listed with old | new
    · rcases untaken_back ledger.coherent.inv stepped member early with ⟨known', early'⟩ | next
      · exact ledger.quiet other known' early' e old
      · rw [next]
        exact (ledger.explains.invoked e old).ne
    · rw [List.mem_singleton.mp new]
      intro same
      rw [chains] at member
      have equal : other = ch := List.inj_on_of_nodup_map
        ledger.coherent.numbered.chains_nodup member moving.chain (same.symm.trans moving.id)
      rw [equal] at early
      exact moving.not_untaken (by rw [machine]) waits early
  · intro d member missing
    dsimp only at member missing ⊢
    rw [calls] at member
    have differ : d.id ≠ c.id := fun same =>
      missing ⟨c.id, effect⟩ (List.mem_append_right _ List.mem_cons_self) same.symm
    rw [keeps d member differ]
    exact ledger.untouched d member fun e listed => missing e (List.mem_append_left _ listed)
  · intro d member e listed own
    dsimp only at member listed ⊢
    rw [calls] at member
    rcases List.mem_append.mp listed with old | new
    · have differ : d.id ≠ c.id := fun same => moving.silent e old (own.trans same)
      rw [keeps d member differ]
      exact ledger.fits d member e old own
    · rw [List.mem_singleton.mp new] at own ⊢
      rw [List.inj_on_of_nodup_map ledger.coherent.numbered.calls_nodup member moving.call
        own.symm]
      exact fits
  · intro job member phase other listed same
    dsimp only at member listed ⊢
    rw [machine] at member
    rw [chains] at listed
    simp only [List.mem_append, List.mem_cons] at member
    have older : job ∈ before ++ after → ∃ e ∈ s.log ++ [⟨c.id, effect⟩],
        e.id = other.id ∧ e.effect.ok = Function.update s.verdict head effect.ok job.head := by
      intro rest
      have differ : job.head ≠ head := fun equal =>
        moving.others job rest (equal ▸ moving.named)
      obtain ⟨e, found, own, verdict⟩ :=
        ledger.decided job (jobs ▸ mem_of_rest rest) phase other listed same
      rw [Function.update_of_ne differ]
      exact ⟨e, List.mem_append_left _ found, own, verdict⟩
    rcases member with first | rfl | last
    · exact older (List.mem_append_left _ first)
    · refine ⟨⟨c.id, effect⟩, List.mem_append_right _ List.mem_cons_self, ?_, ?_⟩
      · rw [ledger.coherent.inv.owned.head_inj listed moving.chain
          (Fin.ext (same.trans moving.named))]
        exact moving.id
      · rw [Function.update_self]
    · exact older (List.mem_append_right _ last)
  · intro i v recorded
    dsimp only at recorded ⊢
    rw [outcomes] at recorded
    obtain ⟨e, listed, own⟩ := ledger.stated i v recorded
    exact ⟨e, List.mem_append_left _ listed, own⟩
  · intro r member
    obtain ⟨length, e, listed, own⟩ := ledger.results r member
    exact ⟨length, e, List.mem_append_left _ listed, own⟩

theorem Ledger.move (ledger : Ledger image s) {j : Nat} {job : Job} {data : Nat → BitVec 8}
    {effect : Effect} {s' : Attached} (found : s.sys.machine.jobs[j]? = some job)
    (taken : s.move j job data effect = some s')
    (fits : ∀ before after ch c, Moving s job.head before after ch c →
      Fits c.op (s.given c.id)
        (bufferOf (transferInto s.sys.machine.mem.byte (dataDesc ch.slots c.op) data) c.op)
        effect) : Ledger image s' := by
  obtain ⟨disk, onDisk, rest⟩ := Option.bind_eq_some_iff.mp taken
  obtain ⟨sys, stepped, rfl⟩ := Option.map_eq_some_iff.mp rest
  obtain ⟨before, after, jobs, machine, chains, waits, outcomes⟩ := step_move found stepped
  obtain ⟨ch, c, moving⟩ := ledger.moving jobs
  rw [moving.data] at machine
  refine ledger.moves jobs stepped moving machine chains waits outcomes onDisk ?_
  rw [machine]
  exact fits before after ch c moving

section Reads
variable {head : BitVec 16} {before after : List Job} {ch : Chain} {c : Call}

theorem Moving.write_iff (moving : Moving s head before after ch c) :
    (transferAt s.sys.machine head).header.blktype = blkOut ↔ c.op.write = true := by
  rw [moving.transfer]
  simp only [transferOf, requestOf]
  split_ifs with write
  · exact iff_of_true rfl write
  · exact iff_of_false (by decide) write

theorem Moving.read_iff (moving : Moving s head before after ch c) :
    (transferAt s.sys.machine head).header.blktype = blkIn ↔ c.op.write = false := by
  rw [moving.transfer]
  simp only [transferOf, requestOf]
  split_ifs with write
  · exact iff_of_false (by decide) (by simp [write])
  · exact iff_of_true rfl (by simpa using write)

theorem Moving.start_eq (moving : Moving s head before after ch c) :
    Transfer.start (transferAt s.sys.machine head) = startOf c.op := by
  rw [moving.transfer]
  rfl

end Reads

theorem Ledger.attempt (ledger : Ledger image s) {head : BitVec 16} {before after : List Job}
    {ch : Chain} {c : Call} (moving : Moving s head before after ch c) {data : Nat → BitVec 8}
    {effect : Effect} (attempt : Attempt s head data effect) :
    Fits c.op (s.given c.id)
      (bufferOf (transferInto s.sys.machine.mem.byte (dataDesc ch.slots c.op) data) c.op)
      effect := by
  cases attempt with
  | read kind =>
      have read := moving.read_iff.mp kind
      refine ⟨read, moving.start_eq, ?_⟩
      rw [moving.start_eq, moving.transfer]
      refine window_congr fun k small => ?_
      have inside : c.op.buffer ≤ c.op.buffer + k ∧
          c.op.buffer + k < c.op.buffer + c.op.size.toNat :=
        ⟨Nat.le_add_right _ _, Nat.add_lt_add_left small _⟩
      rw [transferInto, if_pos ⟨(dataDesc_write ch.slots c.op).mpr read, inside⟩]
      congr 2
      exact (Nat.add_sub_cancel_left _ _).symm
  | write kind =>
      refine ⟨moving.write_iff.mp kind, moving.start_eq, ?_⟩
      rw [moving.transfer]
      exact ledger.untouched c moving.call moving.silent
  | scrambled kind data =>
      exact Bool.eq_false_iff.mpr fun write => kind (moving.write_iff.mpr write)
  | torn kind data =>
      refine ⟨moving.write_iff.mp kind, moving.start_eq, ?_⟩
      rw [window_length, moving.transfer]
      rfl

theorem Ledger.state (ledger : Ledger image s) {j : Nat} {value : BitVec 8} {job : Job}
    {sys : Sys} (found : s.sys.machine.jobs[j]? = some job)
    (agrees : (value == 0) = s.verdict job.head)
    (taken : s.sys.step (.state j value) = some sys) : Ledger image { s with sys := sys } := by
  have stepped := Sys.step_stepped taken
  have coherent := ledger.coherent.step stepped
  obtain ⟨m', moved, rfl⟩ := Option.map_eq_some_iff.mp taken
  obtain ⟨head, phase⟩ := job
  obtain ⟨before, after, split, set, -⟩ := split_at found
  cases phase with
  | taken => simp [Machine.step, found] at moved
  | stated => simp [Machine.step, found] at moved
  | moved =>
      simp only [Machine.step, found, Option.some.injEq] at moved
      obtain ⟨ch, member, named, own, -, -⟩ := ledger.coherent.inv.job_chain split
      obtain ⟨⟨c, active, -, pages, -⟩, -⟩ :=
        ledger.coherent.serves.job_call split (by simp) member named
      have target : (statAt s.sys.machine head).addr = statusAddr c.page := by
        rw [statAt_head (ledger.coherent.inv.owned.stored ch member) named, pages]
        rfl
      rw [target, set] at moved
      subst moved
      refine ledger.transport coherent le_rfl (fun d listed => ⟨d, listed, rfl, rfl⟩) ?_ ?_ ?_ ?_ ?_
      · intro d listed addr inside
        refine Function.update_of_ne (fun same => ?_) _ _
        exact ledger.coherent.placed.buffers d listed c active (same ▸ inside)
      · intro other listed
        simpa only [record, found] using listed
      · intro other listed early
        have old : other ∈ s.sys.history.chains := by
          simpa only [record, found] using listed
        refine ((untaken_back ledger.coherent.inv stepped listed early).resolve_right ?_).2
        exact (ledger.coherent.numbered.chains other old).ne
      · intro job listed phase
        simp only [List.mem_append, List.mem_cons] at listed
        rcases listed with first | rfl | last
        · simp [split, first]
        · cases phase
        · simp [split, last]
      · intro i v recorded
        simp only [record, found, own, List.map_singleton, List.mem_append,
          List.mem_singleton, Prod.mk.injEq] at recorded
        rcases recorded with old | ⟨rfl, rfl⟩
        · exact ledger.stated i v old
        · obtain ⟨e, listed, same, verdict⟩ :=
            ledger.decided ⟨head, .moved⟩ (by simp [split]) rfl ch member named.symm
          exact ⟨e, listed, same, verdict.trans agrees.symm⟩

/-! ## Whole runs -/

theorem Ledger.step {s' : Attached} {turn : Turn} (ledger : Ledger image s)
    (taken : s.step turn = some s') : Ledger image s' := by
  cases step_turned taken with
  | submits page op sys apart stepped => exact ledger.submit apart (Sys.step_stepped stepped)
  | follows _ a sys background stepped =>
      exact ledger.background (Sys.step_stepped stepped) background
  | concludes i c sys found stepped => exact ledger.conclude found stepped
  | stores addr value foreign => exact ledger.store value foreign
  | moves _ j job data effect _ found attempt moved =>
      exact ledger.move found moved fun _ _ _ _ moving => ledger.attempt moving attempt
  | states j value job sys found agrees stepped => exact ledger.state found agrees stepped

theorem Attached.Initial.ledger (initial : s.Initial image) : Ledger image s := by
  obtain ⟨start, disk, log, results⟩ := initial
  have coherent := start.coherent
  obtain ⟨-, -, -, -, -, -, jobs, calls, history⟩ := start
  refine ⟨coherent, ?_, ?_, ?_, ?_, ?_, ?_, ?_, ?_⟩
  · rw [disk, log]
    exact Explains.empty (M := atomicDisk image) image _
  · simp [calls]
  · simp [log]
  · simp [calls]
  · simp [calls]
  · simp [jobs]
  · simp [history]
  · simp [results]

theorem reach_ledger (reached : (attached image).Reach s) : Ledger image s := by
  apply reached.invariant
  · intro s initial
    exact Attached.Initial.ledger initial
  · intro s turn s' ledger taken
    exact Ledger.step ledger taken

/-- The log grows at its end only, by the effect of one open call. -/
theorem Ledger.log_step {s' : Attached} {turn : Turn} (ledger : Ledger image s)
    (taken : s.step turn = some s') :
    s'.log = s.log ∨ ∃ c ∈ s'.sys.machine.calls, ∃ effect, s'.log = s.log ++ [⟨c.id, effect⟩] := by
  cases step_turned taken with
  | submits => exact Or.inl rfl
  | follows => exact Or.inl rfl
  | concludes => exact Or.inl rfl
  | stores => exact Or.inl rfl
  | moves _ j job data effect _ found attempt moved =>
      right
      obtain ⟨disk, -, rest⟩ := Option.bind_eq_some_iff.mp moved
      obtain ⟨sys, stepped, rfl⟩ := Option.map_eq_some_iff.mp rest
      obtain ⟨before, after, jobs, machine, -⟩ := step_move found stepped
      obtain ⟨ch, c, moving⟩ := ledger.moving jobs
      refine ⟨c, ?_, effect, ?_⟩
      · dsimp only
        rw [machine]
        exact moving.call
      · dsimp only
        rw [moving.owner, List.map_singleton, moving.id]
  | states => exact Or.inl rfl

theorem log_grows {s' : Attached} {turns : List Turn} (reached : (attached image).Reach s)
    (ran : (attached image).run s turns = some s') : s.log <+: s'.log := by
  induction turns generalizing s with
  | nil =>
      cases ran
      exact List.prefix_rfl
  | cons turn rest ih =>
      obtain ⟨mid, taken, tail⟩ := Option.bind_eq_some_iff.mp ran
      refine List.IsPrefix.trans ?_ (ih (reached.next turn taken) tail)
      rcases (reach_ledger reached).log_step taken with same | ⟨c, -, effect, grown⟩
      · rw [same]
      · rw [grown]
        exact List.prefix_append _ _

end Steps

/-- Every call that has returned took effect exactly once, with the result it returned, and
the effects in their order lead an atomic disk from the first image to the present one.  A
call made after another had returned takes effect behind it. -/
theorem block_ops_linearizable (image : Image) (s : Attached)
    (reached : (attached image).Reach s) :
    (atomicDisk image).run image (effects s.log) = some s.disk ∧ (ids s.log).Nodup ∧
    (∀ r ∈ s.results, ∃ e ∈ s.log, e.id = r.id ∧ e.effect.ok = r.ok ∧
      Fits r.op r.before r.after e.effect) ∧
    ∀ turns s', (attached image).run s turns = some s' →
      ∀ r ∈ s.results, ∀ r' ∈ s'.results, s.sys.machine.nextId ≤ r'.id →
        ∃ e e', [e, e'].Sublist s'.log ∧ e.id = r.id ∧ e'.id = r'.id := by
  have ledger := reach_ledger reached
  refine ⟨ledger.explains.leads, ledger.explains.once, fun r member => (ledger.results r member).2,
    ?_⟩
  intro turns s' ran r member r' member' later
  obtain ⟨-, e, listed, own, -⟩ := ledger.results r member
  obtain ⟨-, e', listed', own', -⟩ := (reach_ledger (reached.run ran)).results r' member'
  refine ⟨e, e', ?_, own, own'⟩
  exact precedes (log_grows reached ran) ledger.explains.invoked listed listed' (own' ▸ later)

def readyDisk : Attached := ⟨readySys, fun _ => 0, fun _ => false, [], fun _ => [], []⟩

/-- A read overtakes the write that was submitted before it, and a later read sees it. -/
def overtakenWrite : List Turn :=
  [.store 0x80300000 7, .submit (some 0x80200000) ⟨0x80300000, 2, 512, true⟩,
    .submit (some 0x80201000) ⟨0x80301000, 2, 512, false⟩, .take, .take, .serve 1, .state 1 0,
    .test 1, .conclude 1, .publish 1 3, .serve 0, .state 0 0, .test 0, .conclude 0, .drain,
    .submit (some 0x80200000) ⟨0x80302000, 2, 512, false⟩, .take, .serve 1, .state 1 0, .test 0,
    .conclude 0]

theorem block_ops_linearizable_overtaken :
    ∃ s, (attached fun _ => 0).Reach s ∧ (ids s.log).Nodup ∧
      s.log = [⟨1, .read 512 [0, 0]⟩, ⟨0, .write 512 [7, 0]⟩, ⟨2, .read 512 [7, 0]⟩] ∧
      s.results.map (fun r => (r.id, r.ok, r.after)) =
        [(1, true, [0, 0]), (0, true, [7, 0]), (2, true, [7, 0])] := by
  have start : (attached fun _ => 0).Reach readyDisk := .start ⟨readySys_initial, rfl, rfl, rfl⟩
  have known : ((attached fun _ => 0).run readyDisk overtakenWrite).map
      (fun s => (s.log, s.results.map fun r => (r.id, r.ok, r.after))) =
      some ([⟨1, .read 512 [0, 0]⟩, ⟨0, .write 512 [7, 0]⟩, ⟨2, .read 512 [7, 0]⟩],
        [(1, true, [0, 0]), (0, true, [7, 0]), (2, true, [7, 0])]) := by
    decide +kernel
  obtain ⟨s, ends, facts⟩ := Option.map_eq_some_iff.mp known
  obtain ⟨log, results⟩ := Prod.mk.inj facts
  have reached := start.run ends
  exact ⟨s, reached, (block_ops_linearizable _ s reached).2.1, log, results⟩

/-! ## Reading only

The file system reads blocks and writes none.  What it gets from `block_read` is then the
image itself, which is what its model takes for granted. -/

def readsOnly (_ : Attached) : Turn → Bool
  | .submit _ op => !op.write
  | _ => true

def Effect.onlyReads : Effect → Bool
  | .read _ _ => true
  | .write _ _ => false
  | .failedRead => true
  | .failedWrite _ _ => false

theorem run_onlyReads {image : Image} (actions : List Effect)
    (reads : ∀ effect ∈ actions, effect.onlyReads = true) {disk disk' : Image}
    (ran : (atomicDisk image).run disk actions = some disk') :
    disk' = disk ∧ ∀ start bytes, Effect.read start bytes ∈ actions →
      window disk start bytes.length = bytes := by
  induction actions with
  | nil =>
      cases ran
      exact ⟨rfl, fun start bytes member => absurd member List.not_mem_nil⟩
  | cons effect rest ih =>
      obtain ⟨mid, taken, tail⟩ := Option.bind_eq_some_iff.mp ran
      have first := reads effect List.mem_cons_self
      have same : mid = disk ∧ ∀ start bytes, effect = .read start bytes →
          window disk start bytes.length = bytes := by
        change effect.onDisk disk = some mid at taken
        cases effect with
        | read start bytes =>
            simp only [Effect.onDisk] at taken
            split_ifs at taken with matches_
            cases taken
            refine ⟨rfl, ?_⟩
            intro start' bytes' equal
            cases equal
            exact matches_
        | write start bytes => cases first
        | failedRead =>
            cases taken
            exact ⟨rfl, fun start bytes equal => by cases equal⟩
        | failedWrite start bytes => cases first
      obtain ⟨rfl, here⟩ := same
      obtain ⟨final, there⟩ := ih (fun e member => reads e (List.mem_cons_of_mem _ member)) tail
      refine ⟨final, fun start bytes member => ?_⟩
      rcases List.mem_cons.mp member with equal | later
      · exact here start bytes equal.symm
      · exact there start bytes later

section ReadsOnly
variable {image : Image} {s s' : Attached}

structure Unwritten (s : Attached) : Prop where
  calls : ∀ c ∈ s.sys.machine.calls, c.op.write = false
  log : ∀ e ∈ s.log, e.effect.onlyReads = true

theorem Fits.onlyReads {op : Op} {before after : List (BitVec 8)} {effect : Effect}
    (fits : Fits op before after effect) (read : op.write = false) :
    effect.onlyReads = true := by
  cases effect with
  | read start bytes => rfl
  | write start bytes => exact absurd (read.symm.trans fits.1) Bool.false_ne_true
  | failedRead => rfl
  | failedWrite start bytes => exact absurd (read.symm.trans fits.1) Bool.false_ne_true

theorem calls_op {sys sys' : Sys} {a : Action} (stepped : Stepped sys a sys') {c : Call}
    (member : c ∈ sys'.machine.calls) :
    (∃ d ∈ sys.machine.calls, d.op = c.op) ∨ ∃ page, a = .submit page c.op := by
  cases stepped with
  | refused => exact Or.inl ⟨c, member, rfl⟩
  | exhausted => exact Or.inl ⟨c, member, rfl⟩
  | submitted m h page op sl fresh distinct free =>
      rcases List.mem_append.mp member with old | new
      · exact Or.inl ⟨c, old, rfl⟩
      · rw [List.mem_singleton.mp new]
        exact Or.inr ⟨some page, rfl⟩
  | took => exact Or.inl ⟨c, member, rfl⟩
  | moved => exact Or.inl ⟨c, member, rfl⟩
  | stated => exact Or.inl ⟨c, member, rfl⟩
  | published => exact Or.inl ⟨c, member, rfl⟩
  | drained => exact Or.inl ⟨c, member, rfl⟩
  | polled => exact Or.inl ⟨c, member, rfl⟩
  | left m h i d before after calls done =>
      obtain ⟨e, old, -, -, op⟩ := left_same calls member
      exact Or.inl ⟨e, old, op⟩
  | concluded m h i d before after calls out =>
      exact Or.inl ⟨c, calls ▸ mem_of_rest member, rfl⟩

theorem Unwritten.step {turn : Turn} (unwritten : Unwritten s) (ledger : Ledger image s)
    (reads : readsOnly s turn = true) (taken : s.step turn = some s') : Unwritten s' := by
  have after := ledger.step taken
  have calls : ∀ c ∈ s'.sys.machine.calls, c.op.write = false := by
    have old : ∀ {a sys}, s.sys.step a = some sys → (∀ page op, a ≠ .submit page op) →
        ∀ c ∈ sys.machine.calls, c.op.write = false := by
      intro a sys stepped other c member
      rcases calls_op (Sys.step_stepped stepped) member with ⟨d, known, op⟩ | ⟨page, made⟩
      · rw [← op]
        exact unwritten.calls d known
      · exact absurd made (other page c.op)
    cases step_turned taken with
    | submits page op sys apart stepped =>
        intro c member
        rcases calls_op (Sys.step_stepped stepped) member with ⟨d, known, same⟩ | ⟨page', made⟩
        · rw [← same]
          exact unwritten.calls d known
        · cases made
          simpa [readsOnly] using reads
    | follows _ a sys background stepped =>
        refine old stepped ?_
        rintro page op rfl
        simp [Background] at background
    | concludes i c sys found stepped => exact old stepped (by simp)
    | stores addr value foreign => exact unwritten.calls
    | moves _ j job data effect _ found attempt moved =>
        obtain ⟨disk, -, rest⟩ := Option.bind_eq_some_iff.mp moved
        obtain ⟨sys, stepped, rfl⟩ := Option.map_eq_some_iff.mp rest
        exact old stepped (by simp)
    | states j value job sys found agrees stepped => exact old stepped (by simp)
  refine ⟨calls, fun e member => ?_⟩
  rcases ledger.log_step taken with same | ⟨c, active, effect, grown⟩
  · exact unwritten.log e (same ▸ member)
  · rw [grown] at member
    rcases List.mem_append.mp member with old | new
    · exact unwritten.log e old
    · have listed : e ∈ s'.log := grown ▸ List.mem_append_right _ new
      rw [List.mem_singleton.mp new] at listed ⊢
      exact (after.fits c active _ listed rfl).onlyReads (calls c active)

theorem reach_unwritten (reached : ((attached image).restrict readsOnly).Reach s) :
    Ledger image s ∧ Unwritten s := by
  apply reached.invariant
  · intro s initial
    have log : s.log = [] := initial.2.2.1
    have calls : s.sys.machine.calls = [] := initial.1.2.2.2.2.2.2.2.1
    refine ⟨Attached.Initial.ledger initial, ?_, ?_⟩
    · simp [calls]
    · simp [log]
  · intro s turn s' known taken
    obtain ⟨reads, stepped⟩ := System.restrict_step taken
    exact ⟨Ledger.step known.1 stepped, known.2.step known.1 reads stepped⟩

end ReadsOnly

theorem startOf_eq {op : Op} (aligned : op.offset.toNat % 512 = 0) :
    startOf op = op.offset.toNat := by
  rw [startOf, BitVec.toNat_udiv]
  exact Nat.div_mul_cancel (Nat.dvd_of_mod_eq_zero aligned)

/-- As long as nobody writes, a `block_read` that returns true has filled its buffer with the
bytes of the image at its offset, whatever else is going on in the queue. -/
theorem block_reads_deliver (image : Image) (s : Attached)
    (reached : ((attached image).restrict readsOnly).Reach s) :
    s.disk = image ∧ ∀ r ∈ s.results, r.op.offset.toNat % 512 = 0 → r.ok = true →
      r.after = window image r.op.offset.toNat r.op.size.toNat := by
  obtain ⟨ledger, unwritten⟩ := reach_unwritten reached
  have reads : ∀ effect ∈ effects s.log, effect.onlyReads = true := by
    intro effect member
    obtain ⟨e, listed, rfl⟩ := List.mem_map.mp member
    exact unwritten.log e listed
  obtain ⟨same, delivered⟩ := run_onlyReads _ reads ledger.explains.leads
  refine ⟨same, fun r member aligned success => ?_⟩
  obtain ⟨length, e, listed, -, verdict, fits⟩ := ledger.results r member
  have only := unwritten.log e listed
  have logged : e.effect ∈ effects s.log := List.mem_map.mpr ⟨e, listed, rfl⟩
  cases shape : e.effect with
  | read start bytes =>
      rw [shape] at fits logged
      obtain ⟨-, begins, rfl⟩ := fits
      have equal := delivered start r.after logged
      rw [length, begins, startOf_eq aligned] at equal
      exact equal.symm
  | write start bytes =>
      rw [shape] at only
      cases only
  | failedRead =>
      rw [shape, success] at verdict
      cases verdict
  | failedWrite start bytes =>
      rw [shape] at only
      cases only

def countedImage : Image := fun a => BitVec.ofNat 8 a

/-- One request is refused by the device before the next one is served. -/
def readAfterFailure : List Turn :=
  [.submit (some 0x80200000) ⟨0x80300000, 3, 512, false⟩, .take, .fail 0 (fun _ => 9),
    .state 0 1, .test 0, .conclude 0, .submit (some 0x80200000) ⟨0x80300000, 3, 512, false⟩,
    .take, .serve 1, .state 1 0, .test 0, .conclude 0]

theorem block_reads_deliver_after_failure :
    ∃ s, ((attached countedImage).restrict readsOnly).Reach s ∧ s.disk = countedImage ∧
      s.results.map (fun r => (r.ok, r.after)) = [(false, [9, 9, 9]), (true, [0, 1, 2])] := by
  have start : ((attached countedImage).restrict readsOnly).Reach
      { readyDisk with disk := countedImage } :=
    .start ⟨readySys_initial, rfl, rfl, rfl⟩
  have known : (((attached countedImage).restrict readsOnly).run
      { readyDisk with disk := countedImage } readAfterFailure).map
      (fun s => Attached.results s |>.map fun r => (r.ok, r.after)) =
      some [(false, [9, 9, 9]), (true, [0, 1, 2])] := by
    decide +kernel
  obtain ⟨s, ends, results⟩ := Option.map_eq_some_iff.mp known
  have reached := start.run ends
  exact ⟨s, reached, (block_reads_deliver _ s reached).1, results⟩

end Vesper.Virtio.Disk
