import Mathlib.Tactic
import Vesper.Virtio.Stores

/-!
# Every interleaving of stores is a run of the exchange

The other steps of `shared` against those of the exchange, and from them whole runs.  A store
of a submission is no step of the exchange; every other step is the step of the same name.
-/

set_option autoImplicit false

namespace Vesper.Virtio

open Vesper.Lib (System)
open Vesper.Lib.ByteMemory
open Vesper.Lib.WrapRing (slot slot_ofNat ofNat_ne_of_near)

/-! ## The device takes a head -/

section Take
variable {s s' : Shared} {t : Sys} {c : Call} {sl : Slots} {idx : BitVec 16} {front : List Store}

theorem Opens.settled_idx (opens : Opens s t c sl idx front) :
    (readAvail s.settled s.rings).idx = idx + 1 := by
  rw [Shared.settled, opens.todo, applyAll_append]
  exact ofNat_load_mem (idx + 1) rfl (List.pairwise_singleton _ _) (List.mem_singleton_self _) _

theorem Opens.behind (opens : Opens s t c sl idx front) (inv : Inv t) (stands : Stands s t)
    (ahead : s.seen ≠ idx) :
    ∃ earlier, t.history.submitted = earlier ++ [BitVec.ofNat 16 sl.head] ∧
      t.history.seen.length < earlier.length ∧ slot 8 s.seen ≠ slot 8 idx := by
  obtain ⟨earlier, all, behind⟩ := opens.last
  have level : idx = BitVec.ofNat 16 earlier.length := by
    have total := inv.avail.index
    rw [stands.bd, all, List.length_append] at total
    have same : idx + 1 = BitVec.ofNat 16 earlier.length + 1 :=
      opens.settled_idx.symm.trans (total.trans (BitVec.ofNat_add ..))
    exact (BitVec.add_left_inj 1).mp same
  have count : s.seen = BitVec.ofNat 16 t.history.seen.length := stands.seen.symm.trans inv.seen
  have less : t.history.seen.length < earlier.length := by
    refine lt_of_le_of_ne behind fun same => ahead ?_
    rw [count, level, same]
  have few : earlier.length - t.history.seen.length < 8 := by
    have sum := inv.outstanding
    have two := inv.owned.length_le
    rw [all, List.length_append] at sum
    simp only [List.length_singleton] at sum
    omega
  refine ⟨earlier, all, less, ?_⟩
  rw [count, level, slot_ofNat eight_dvd, slot_ofNat eight_dvd]
  exact ofNat_ne_of_near less few

theorem Opens.ring_settled (opens : Opens s t c sl idx front) {k : Index} (other : k ≠ slot 8 idx) :
    (readAvail s.settled s.rings).ring k = (readAvail s.mem s.rings).ring k := by
  have clear : Clear s.todo (s.rings.avail + 4 + 2 * k) 2 :=
    (submitStores_clear_ring other).mono fun st member => opens.mem_todo member
  exact congrArg (BitVec.ofNat 16) (load_applyAll_clear clear s.mem)

/-- The exchange can take a head whenever the device can, and takes the same. -/
theorem Stands.next_head (sound : Coherent t) (stands : Stands s t)
    (ahead : s.seen ≠ (readAvail s.mem s.rings).idx) :
    t.machine.seen ≠ t.machine.bd.queue.avail.idx ∧
      t.machine.bd.queue.avail.ring (slot 8 t.machine.seen) =
        (readAvail s.mem s.rings).ring (slot 8 s.seen) := by
  rcases stands.opening with ⟨idle, -⟩ | ⟨c, sl, idx, front, opens⟩
  · rw [stands.bd, stands.seen, Shared.settled, idle]
    exact ⟨ahead, rfl⟩
  · rw [opens.index] at ahead
    obtain ⟨earlier, all, less, other⟩ := opens.behind sound.inv stands ahead
    constructor
    · rw [Ne, sound.inv.seen_level_iff, all, List.length_append]
      omega
    · rw [stands.seen, stands.bd]
      exact opens.ring_settled other

theorem Stands.take (sound : Coherent t) (stands : Stands s t)
    (taken : s.step (.act .take) = some s') : ∃ t', t.step .take = some t' ∧ Stands s' t' := by
  rw [Shared.step, stands.device] at taken
  split_ifs at taken with level
  cases taken
  obtain ⟨behind, head⟩ := stands.next_head sound level
  refine ⟨_, by rw [Sys.step, Machine.step, if_neg behind]; rfl, ?_⟩
  refine ⟨stands.device, stands.bd, stands.calls, stands.nextId, ?_, ?_, stands.kept,
    stands.transfers, stands.placement, ?_⟩
  · exact congrArg (· + 1) stands.seen
  · dsimp only
    rw [stands.jobs, head]
  · refine stands.opening.imp_right ?_
    rintro ⟨c, sl, idx, front, opens⟩
    refine ⟨c, sl, idx, front, opens.call, opens.chain, opens.todo, opens.front, opens.index, ?_⟩
    rw [opens.index] at level
    obtain ⟨earlier, all, less, -⟩ := opens.behind sound.inv stands level
    refine ⟨earlier, all, ?_⟩
    rw [record, List.length_append]
    exact less

end Take

/-! ## The device works on a request -/

section Work
variable {s s' : Shared} {t : Sys}

theorem Stands.submitted_call (sound : Coherent t) (stands : Stands s t) {c : Call} {ch : Chain}
    (opened : c ∈ t.machine.calls) (number : c.id = ch.id) (member : ch ∈ t.history.chains)
    (taken : ch.slots.head.val ∉ waiting t.history) : c ∈ s.calls := by
  rw [stands.calls] at opened
  rcases List.mem_append.mp opened with polling | storing
  · exact polling
  · rcases stands.opening with ⟨-, none⟩ | ⟨d, sl, idx, front, opens⟩
    · rw [none] at storing
      exact absurd storing List.not_mem_nil
    · rw [opens.call] at storing
      have same : c = d := List.mem_singleton.mp storing
      subst same
      have whole : ch = ⟨sl, c.id, c.page, c.op⟩ :=
        List.inj_on_of_nodup_map sound.numbered.chains_nodup member opens.chain number.symm
      subst whole
      exact absurd opens.waits taken

/-- What the device finds behind a head: the request of one call, in full. -/
structure Reads (m : Machine) (head : BitVec 16) (sl : Slots) (c : Call) : Prop where
  data : dataAt m head = dataDesc sl c.op
  stat : statAt m head = statusDesc c.page
  transfer : transferAt m head = transferOf c.op

theorem Stored.reads {m : Machine} {head : BitVec 16} {sl : Slots} {c : Call}
    (stored : Stored m.bd.queue.desc sl c.page c.op) (named : head.toNat = sl.head.val)
    (request : m.mem.request c.page = requestOf c.op) : Reads m head sl c := by
  let ch : Chain := ⟨sl, c.id, c.page, c.op⟩
  have chain : Stored m.bd.queue.desc ch.slots ch.page ch.op := stored
  exact ⟨dataAt_head chain named, statAt_head chain named, transferAt_head chain named request⟩

theorem Stands.polling (stands : Stands s t) {c : Call} (member : c ∈ s.calls) :
    c ∈ t.machine.calls := by
  rw [stands.calls]
  exact List.mem_append_left _ member

/-- The call behind a job: the device reads its request, whatever submission is under way. -/
theorem Stands.job_call (sound : Coherent t) (stands : Stands s t) {j : Nat} {job : Job}
    (found : s.jobs[j]? = some job) (early : job.phase ≠ .stated) :
    ∃ c ∈ s.calls, c.id < t.machine.nextId ∧ owner t.history.chains job.head = [c.id] ∧
      ∃ sl, Reads (s.view s.rings) job.head sl c ∧ Reads t.machine job.head sl c := by
  rw [← stands.jobs] at found
  obtain ⟨before, after, split, -, -⟩ := split_at found
  obtain ⟨ch, member, named, owns, taken, -⟩ := sound.inv.job_chain split
  obtain ⟨⟨c, opened, number, page, op⟩, -⟩ := sound.serves.job_call split early member named
  have polls := stands.submitted_call sound opened number member taken
  have stored := stands.stored sound.inv.owned member taken
  have typed := sound.inv.owned.stored ch member
  rw [← page, ← op] at stored typed
  rw [← number] at owns
  refine ⟨c, polls, sound.numbered.calls c opened, owns, ch.slots, ?_, ?_⟩
  · have inMemory : Stored (s.view s.rings).bd.queue.desc ch.slots c.page c.op := stored
    exact inMemory.reads named (stands.kept.request c opened)
  · exact typed.reads named (sound.placed.request c opened)

theorem Stands.works (stands : Stands s t) {m : Mem} (mem : Memory) (jobs : List Job)
    {transfers : List (Nat × Transfer)} (outcomes : List (Nat × BitVec 8))
    (inside : ∀ a, s.rings.Inside a → m a = s.mem a)
    (kept : Kept m t.machine.calls mem.byte transfers)
    (numbered : ∀ i transfer, (i, transfer) ∈ transfers → i < t.machine.nextId) :
    Stands { s with mem := m, jobs := jobs }
      ⟨{ t.machine with mem := mem, jobs := jobs },
        { t.history with transfers := transfers, outcomes := outcomes }⟩ := by
  obtain ⟨-, avail, used⟩ := reads_of_inside inside
  have settles : ∀ a, s.rings.Inside a → applyAll s.todo m a = s.settled a := fun a within =>
    applyAll_congr (inside a within)
  obtain ⟨desc, rest, -⟩ := reads_of_inside settles
  refine ⟨stands.device, ?_, stands.calls, stands.nextId, stands.seen, rfl, kept, numbered,
    stands.placement, stands.opening.imp_right ?_⟩
  · rw [stands.bd, ← desc, ← rest, ← used]
    rfl
  · rintro ⟨c, sl, idx, front, opens⟩
    refine ⟨c, sl, idx, front, opens.call, opens.chain, opens.todo, opens.front, ?_, opens.last⟩
    exact (congrArg AvailRing.idx avail).trans opens.index

theorem Placement.outside {q : Pointers} {calls : List Call} (placement : Placement q calls)
    {c : Call} (member : c ∈ calls) {a : Nat} (inside : q.Inside a) : ¬c.Holds a := by
  intro holds
  have off := placement.off member holds
  unfold Pointers.Off RangeApart at off
  unfold Pointers.Inside at inside
  omega

theorem Kept.transfer {m byte data : Mem} {calls : List Call} {transfers : List (Nat × Transfer)}
    {q : Pointers} (kept : Kept m calls byte transfers) (placement : Placement q calls)
    (distinct : (calls.map Call.id).Nodup) {c : Call} (member : c ∈ calls) (sl : Slots) :
    Kept (transferInto m (dataDesc sl c.op) data) calls (transferInto byte (dataDesc sl c.op) data)
      (transfers ++ [(c.id, transferOf c.op)]) := by
  have outside : ∀ d ∈ calls, ∀ a, d.page ≤ a → a < d.page + requestBytes → ¬inBuffer c.op a := by
    intro d other a low high within
    have apart := placement.mixed d other c member
    unfold RangeApart at apart
    unfold inBuffer at within
    omega
  have status : ∀ d ∈ calls, ¬inBuffer c.op (statusAddr d.page) := fun d other =>
    outside d other _ (Nat.le_add_right _ _) (by unfold requestBytes statusAddr; omega)
  constructor
  · intro d other
    rw [← kept.request d other]
    refine readRequest_congr fun a low high => transferInto_outside (outside d other a low ?_)
    unfold requestBytes
    omega
  · intro d other
    rw [transferInto_outside (status d other), transferInto_outside (status d other)]
    exact kept.status d other
  · intro d other transfer moved into a within
    unfold transferInto
    split_ifs with filled
    · rfl
    · rcases List.mem_append.mp moved with old | new
      · exact kept.delivered d other transfer old into a within
      · obtain ⟨same, rfl⟩ := Prod.mk.inj (List.mem_singleton.mp new)
        have equal : d = c := List.inj_on_of_nodup_map distinct other member same
        subst equal
        have read : d.op.write = false := by simpa [transferOf] using into
        exact absurd ⟨(dataDesc_write sl d.op).mpr read, within.1, within.2⟩ filled

theorem Stands.move (sound : Coherent t) (stands : Stands s t) {j : Nat} {data : Mem}
    (taken : s.step (.act (.move j data)) = some s') :
    ∃ t', t.step (.move j data) = some t' ∧ Stands s' t' := by
  rw [Shared.step, stands.device] at taken
  split at taken
  case h_2 => cases taken
  case h_1 head found =>
  cases taken
  obtain ⟨c, polls, number, owns, sl, raw, typed⟩ := stands.job_call sound found (by simp)
  have member := stands.polling polls
  rw [raw.data]
  refine ⟨_, ?_, stands.works { t.machine.mem with
      byte := transferInto t.machine.mem.byte (dataDesc sl c.op) data } _ t.history.outcomes
    (fun a within => ?_) (stands.kept.transfer stands.placement
      sound.numbered.calls_nodup member sl) fun i transfer moved => ?_⟩
  · simp only [Sys.step, Machine.step, record, stands.jobs, found, Option.map_some, owns,
      typed.data, typed.transfer, List.map_singleton]
  · refine transferInto_outside fun holds => ?_
    exact stands.placement.outside member within (Or.inr holds)
  · rcases List.mem_append.mp moved with old | new
    · exact stands.transfers i transfer old
    · rw [(Prod.mk.inj (List.mem_singleton.mp new)).1]
      exact number

theorem Kept.state {m byte : Mem} {calls : List Call} {transfers : List (Nat × Transfer)}
    {q : Pointers} (kept : Kept m calls byte transfers) (placement : Placement q calls)
    (distinct : (calls.map Call.id).Nodup) {c : Call} (member : c ∈ calls) (value : BitVec 8) :
    Kept (Function.update m (statusAddr c.page) value) calls
      (Function.update byte (statusAddr c.page) value) transfers := by
  constructor
  · intro d other
    rw [← kept.request d other]
    refine readRequest_congr fun a low high => Function.update_of_ne ?_ _ _
    rintro rfl
    by_cases same : d.id = c.id
    · rw [List.inj_on_of_nodup_map distinct other member same] at high
      exact absurd high (Nat.lt_irrefl _)
    · have apart := placement.pages d other c member same
      unfold RangeApart requestBytes at apart
      unfold statusAddr at low high
      omega
  · intro d other
    by_cases same : statusAddr d.page = statusAddr c.page
    · rw [same, Function.update_self, Function.update_self]
    · rw [Function.update_of_ne same, Function.update_of_ne same]
      exact kept.status d other
  · intro d other transfer moved into a within
    have apart : a ≠ statusAddr c.page := by
      rintro rfl
      have own := placement.mixed c member d other
      unfold RangeApart requestBytes at own
      unfold inBuffer statusAddr at within
      omega
    rw [Function.update_of_ne apart, Function.update_of_ne apart]
    exact kept.delivered d other transfer moved into a within

theorem Stands.state (sound : Coherent t) (stands : Stands s t) {j : Nat} {value : BitVec 8}
    (taken : s.step (.act (.state j value)) = some s') :
    ∃ t', t.step (.state j value) = some t' ∧ Stands s' t' := by
  rw [Shared.step, stands.device] at taken
  split at taken
  case h_2 => cases taken
  case h_1 head found =>
  cases taken
  obtain ⟨c, polls, -, owns, sl, raw, typed⟩ := stands.job_call sound found (by simp)
  have member := stands.polling polls
  rw [raw.stat]
  refine ⟨_, ?_, stands.works { t.machine.mem with
      byte := Function.update t.machine.mem.byte (statusAddr c.page) value } _
    (t.history.outcomes ++ [(c.id, value)]) (fun a within => Function.update_of_ne ?_ _ _)
    (stands.kept.state stands.placement sound.numbered.calls_nodup member value)
    stands.transfers⟩
  · simp only [Sys.step, Machine.step, record, stands.jobs, found, Option.map_some, owns,
      typed.stat, List.map_singleton]
    rfl
  · rintro rfl
    refine stands.placement.outside member within (Or.inl ⟨Nat.le_add_right _ _, ?_⟩)
    unfold requestBytes
    exact Nat.lt_succ_self _

theorem reads_of_below {m m' : Mem} {q : Pointers}
    (same : ∀ a, q.desc ≤ a → a < q.used → m' a = m a) :
    readDesc m' q = readDesc m q ∧ readAvail m' q = readAvail m q := by
  have first := q.descAvail
  have second := q.availUsed
  refine ⟨funext fun i => ?_, ?_⟩
  · have small := i.isLt
    exact readDesc_congr fun a low high => same a (by omega) (by omega)
  · exact readAvail_congr fun a low high => same a (by omega) (by omega)

theorem Stands.publishes (stands : Stands s t) (elem : UsedElem) (jobs : List Job) :
    Stands
      { s with
        mem := applyAll (usedStores s.rings (slot 8 (readUsed s.mem s.rings).idx) elem
          ((readUsed s.mem s.rings).idx + 1)) s.mem
        jobs := jobs }
      ⟨{ publishElem t.machine elem with jobs := jobs },
        { t.history with published := t.history.published ++ [elem] }⟩ := by
  have below : ∀ i idx a, a < s.rings.used →
      applyAll (usedStores s.rings i elem idx) s.mem a = s.mem a := by
    intro i idx a high
    have clear : Clear (usedStores s.rings i elem idx) a 1 :=
      (usedStores_within i elem idx).clear (Or.inl high)
    exact applyAll_outside (clear.outside le_rfl (Nat.lt_succ_self a))
  refine ⟨stands.device, ?_, stands.calls, stands.nextId, stands.seen, rfl,
    stands.kept_of_queue fun a off => (usedStores_within _ _ _).clear off.2.2, stands.transfers,
    stands.placement, stands.opening.imp_right ?_⟩
  · have settles : ∀ a, s.rings.desc ≤ a → a < s.rings.used →
        applyAll s.todo (applyAll (usedStores s.rings (slot 8 (readUsed s.mem s.rings).idx) elem
          ((readUsed s.mem s.rings).idx + 1)) s.mem) a = s.settled a := fun a low high =>
      applyAll_congr (below _ _ a high)
    obtain ⟨desc, avail⟩ := reads_of_below settles
    rw [publishElem, stands.bd]
    dsimp only [Shared.settled]
    rw [readUsed_usedStores, desc, avail]
    rfl
  · rintro ⟨c, sl, idx, front, opens⟩
    refine ⟨c, sl, idx, front, opens.call, opens.chain, opens.todo, opens.front, ?_, opens.last⟩
    rw [(reads_of_below fun a low high => below _ _ a high).2]
    exact opens.index

/-- Completions are published next to whatever is being submitted. -/
theorem Stands.publish (stands : Stands s t) {j : Nat} {len : BitVec 32}
    (taken : s.step (.act (.publish j len)) = some s') :
    ∃ t', t.step (.publish j len) = some t' ∧ Stands s' t' := by
  rw [Shared.step, stands.device] at taken
  split at taken
  case h_2 => cases taken
  case h_1 head found =>
  cases taken
  refine ⟨_, ?_, stands.publishes ⟨head.setWidth 32, len⟩ (s.jobs.eraseIdx j)⟩
  simp only [Sys.step, Machine.step, record, stands.jobs, found, Option.map_some]

end Work

/-! ## Draining and polling -/

section Drain
variable {s s' : Shared} {t : Sys}

theorem next_finished (inv : Inv t)
    (behind : t.machine.bd.ackUsedIdx ≠ t.machine.bd.queue.used.idx) {head : Nat}
    (named : (t.machine.bd.queue.used.ring (slot 8 t.machine.bd.ackUsedIdx)).id.toNat = head) :
    head ∉ waiting t.history := by
  obtain ⟨waits, next⟩ := inv.next_used behind
  have done : head ∈ finished t.history := by
    rw [finished, unread_pop _ waits ⟨0, 0⟩, ← next, named]
    exact List.mem_cons_self
  have distinct := inv.flow.nodup_iff.mp inv.heads_nodup
  intro member
  exact List.disjoint_of_nodup_append distinct member (List.mem_append_right _ done)

theorem Stands.drain (sound : Coherent t) (stands : Stands s t)
    (taken : s.step (.act .drain) = some s') : ∃ t', t.step .drain = some t' ∧ Stands s' t' := by
  rw [Shared.step] at taken
  split_ifs at taken with level
  have behind : t.machine.bd.ackUsedIdx ≠ t.machine.bd.queue.used.idx := by
    rw [stands.bd]
    exact level
  obtain ⟨ch, before, after, split, named⟩ := sound.inv.next_chain behind
  have member : ch ∈ t.history.chains := by
    rw [split]
    exact List.mem_append_right _ List.mem_cons_self
  have seen := next_finished sound.inv behind named
  have result := pendingStep_stored (sound.inv.owned.stored ch member) named
  have same : (readUsed s.mem s.rings).ring (slot 8 s.ackUsedIdx) =
      t.machine.bd.queue.used.ring (slot 8 t.machine.bd.ackUsedIdx) := by
    rw [stands.bd]
  have stored : Stored (s.view s.rings).bd.queue.desc ch.slots ch.page ch.op :=
    stands.stored sound.inv.owned member seen
  have raw := pendingStep_stored stored ((congrArg (·.id.toNat) same).trans named)
  rw [raw] at taken
  cases taken
  refine ⟨_, by rw [Sys.step, Machine.step, if_neg behind, result]; rfl, ?_⟩
  refine ⟨stands.device, ?_, stands.calls, stands.nextId, stands.seen, stands.jobs, stands.kept,
    stands.transfers, stands.placement, stands.opening.imp_right ?_⟩
  · dsimp only
    rw [stands.bd]
    rfl
  · rintro ⟨c, sl, idx, front, opens⟩
    refine ⟨c, sl, idx, front, opens.call, ?_, opens.todo, opens.front, opens.index, opens.last⟩
    refine List.mem_filter.mpr ⟨opens.chain, decide_eq_true ?_⟩
    rw [named]
    intro equal
    exact seen (equal ▸ opens.waits)

section Calls
variable {calls calls' : List Call}
  (known : ∀ d ∈ calls', ∃ e ∈ calls, e.id = d.id ∧ e.page = d.page ∧ e.op = d.op)
include known

theorem Kept.of_calls {m byte : Mem} {transfers : List (Nat × Transfer)}
    (kept : Kept m calls byte transfers) : Kept m calls' byte transfers where
  request d member := by
    obtain ⟨e, old, -, page, op⟩ := known d member
    rw [← page, ← op]
    exact kept.request e old
  status d member := by
    obtain ⟨e, old, -, page, -⟩ := known d member
    rw [← page]
    exact kept.status e old
  delivered d member := by
    obtain ⟨e, old, number, -, op⟩ := known d member
    rw [← number, ← op]
    exact kept.delivered e old

theorem Placement.of_calls {q : Pointers} (placement : Placement q calls) :
    Placement q calls' where
  page d member := by
    obtain ⟨e, old, -, page, -⟩ := known d member
    rw [← page]
    exact placement.page e old
  buffer d member := by
    obtain ⟨e, old, -, -, op⟩ := known d member
    rw [← op]
    exact placement.buffer e old
  pages d member d' member' := by
    obtain ⟨e, old, number, page, -⟩ := known d member
    obtain ⟨e', old', number', page', -⟩ := known d' member'
    rw [← number, ← number', ← page, ← page']
    exact placement.pages e old e' old'
  mixed d member d' member' := by
    obtain ⟨e, old, -, page, -⟩ := known d member
    obtain ⟨e', old', -, -, op⟩ := known d' member'
    rw [← page, ← op]
    exact placement.mixed e old e' old'

theorem Stands.polls (stands : Stands s t) (same : t.machine.calls = calls) {polling : List Call}
    (now : calls' = polling ++ s.opening.toList) (returned : List (Nat × Bool)) :
    Stands { s with calls := polling }
      ⟨{ t.machine with calls := calls' }, { t.history with returned := returned }⟩ := by
  subst same
  refine ⟨stands.device, stands.bd, now, stands.nextId, stands.seen, stands.jobs,
    stands.kept.of_calls known, stands.transfers, stands.placement.of_calls known,
    stands.opening.imp_right ?_⟩
  rintro ⟨c, sl, idx, front, opens⟩
  exact ⟨c, sl, idx, front, opens.call, opens.chain, opens.todo, opens.front, opens.index,
    opens.last⟩

end Calls

theorem Stands.call_at (stands : Stands s t) {i : Nat} {c : Call} (found : s.calls[i]? = some c) :
    i < s.calls.length ∧ t.machine.calls[i]? = some c := by
  obtain ⟨inside, -⟩ := List.getElem?_eq_some_iff.mp found
  rw [stands.calls, List.getElem?_append_left inside]
  exact ⟨inside, found⟩

theorem Stands.test (stands : Stands s t) {i : Nat} (taken : s.step (.act (.test i)) = some s') :
    ∃ t', t.step (.test i) = some t' ∧ Stands s' t' := by
  rw [Shared.step] at taken
  split at taken
  case h_2 => cases taken
  case h_1 c found =>
  obtain ⟨inside, typed⟩ := stands.call_at found
  have status := stands.kept.status c (stands.polling (List.mem_of_getElem? found))
  split_ifs at taken with pending
  all_goals
    rw [status] at pending
    cases taken
  · refine ⟨t, ?_, stands⟩
    simp only [Sys.step, Machine.step, typed, if_pos pending, Option.map_some, record]
  · obtain ⟨before, after, split, set, -⟩ := split_at typed
    have known : ∀ d ∈ t.machine.calls.set i { c with left := true },
        ∃ e ∈ t.machine.calls, e.id = d.id ∧ e.page = d.page ∧ e.op = d.op := by
      intro d member
      rw [set] at member
      exact left_same split member
    have now : t.machine.calls.set i { c with left := true } =
        s.calls.set i { c with left := true } ++ s.opening.toList := by
      rw [stands.calls]
      exact List.set_append_left i _ inside
    refine ⟨_, ?_, stands.polls known rfl now t.history.returned⟩
    simp only [Sys.step, Machine.step, typed, if_neg pending, Option.map_some, record]

theorem Stands.conclude (stands : Stands s t) {i : Nat}
    (taken : s.step (.act (.conclude i)) = some s') :
    ∃ t', t.step (.conclude i) = some t' ∧ Stands s' t' := by
  rw [Shared.step] at taken
  split at taken
  case h_2 => cases taken
  case h_1 c found =>
  obtain ⟨inside, typed⟩ := stands.call_at found
  split_ifs at taken with out
  cases taken
  have known : ∀ d ∈ t.machine.calls.eraseIdx i,
      ∃ e ∈ t.machine.calls, e.id = d.id ∧ e.page = d.page ∧ e.op = d.op := fun d member =>
    ⟨d, List.mem_of_mem_eraseIdx member, rfl, rfl, rfl⟩
  have now : t.machine.calls.eraseIdx i = s.calls.eraseIdx i ++ s.opening.toList := by
    rw [stands.calls]
    exact List.eraseIdx_append_of_lt_length inside _
  refine ⟨_, ?_, stands.polls known rfl now
    (t.history.returned ++ [(c.id, t.machine.mem.byte (statusAddr c.page) == 0)])⟩
  simp only [Sys.step, Machine.step, typed, if_pos out, Option.map_some, record]

end Drain

/-! ## Whole runs -/

/-- The step of the exchange a move stands for. -/
def Move.visible : Move → Option Action
  | .act a => some a
  | .write => none

def Shared.start (s : Shared) : Sys where
  machine := s.view s.rings
  history := ⟨[], [], [], [], [], [], [], []⟩

section Runs
variable {s s' : Shared} {t : Sys}

theorem Stands.act (sound : Coherent t) (stands : Stands s t) {a : Action}
    (taken : s.step (.act a) = some s') : ∃ t', t.step a = some t' ∧ Stands s' t' := by
  cases a with
  | submit page op => exact stands.submit sound taken
  | take => exact stands.take sound taken
  | move j data => exact stands.move sound taken
  | state j value => exact stands.state sound taken
  | publish j len => exact stands.publish taken
  | drain => exact stands.drain sound taken
  | test i => exact stands.test taken
  | conclude i => exact stands.conclude taken

theorem Stands.step (sound : Coherent t) (stands : Stands s t) {move : Move}
    (taken : s.step move = some s') :
    ∃ t', exchange.run t move.visible.toList = some t' ∧ Coherent t' ∧ Stands s' t' := by
  cases move with
  | write => exact ⟨t, rfl, sound, stands.write taken⟩
  | act a =>
      obtain ⟨t', step, after⟩ := stands.act sound taken
      refine ⟨t', ?_, sound.step (Sys.step_stepped step), after⟩
      exact Option.bind_eq_some_iff.mpr ⟨t', step, rfl⟩

theorem Shared.Ready.indices (ready : s.Ready) :
    (readAvail s.mem s.rings).idx = 0 ∧ (readUsed s.mem s.rings).idx = 0 := by
  obtain ⟨base, -, -, rings, -, zero⟩ := ready.queue
  have avail : s.rings.avail = base + 128 := by
    rw [rings]
    exact congrArg (base + ·) descBytes_toNat
  have used : s.rings.used = base + 4096 := by
    rw [rings]
    exact congrArg (base + ·) usedOffset_toNat
  constructor
  · refine congrArg (BitVec.ofNat 16) (load_zero fun a low high => zero a ?_ ?_)
    all_goals omega
  · refine congrArg (BitVec.ofNat 16) (load_zero fun a low high => zero a ?_ ?_)
    all_goals omega

theorem Shared.Ready.initial (ready : s.Ready) : Initial s.start := by
  obtain ⟨avail, used⟩ := ready.indices
  exact ⟨avail, used, ready.ack, ready.seen, ready.free, ready.heads, ready.idle.2.2.2,
    ready.idle.2.2.1, rfl⟩

theorem Shared.Ready.stands (ready : s.Ready) : Stands s s.start := by
  obtain ⟨todo, opening, calls, jobs⟩ := ready.idle
  refine ⟨?_, ?_, ?_, rfl, rfl, rfl, ?_, ?_, ?_, Or.inl ⟨todo, opening⟩⟩
  · obtain ⟨base, aligned, low, rings, pfn, -⟩ := ready.queue
    rw [Shared.deviceRings, pfn, rings]
    exact (ofPfn_eq_iff aligned).mpr low
  · rw [Shared.settled, todo]
    rfl
  · rw [opening]
    exact (List.append_nil _).symm
  · change Kept s.mem s.calls s.mem []
    rw [calls]
    exact Kept.nil ..
  · exact fun i transfer moved => absurd moved List.not_mem_nil
  · change Placement s.rings s.calls
    rw [calls]
    exact Placement.nil _

theorem Stands.reads_request (sound : Coherent t) (stands : Stands s t) {job : Job}
    (member : job ∈ s.jobs) (early : job.phase ≠ .stated) :
    ∃ c ∈ s.calls, transferAt (s.view s.deviceRings) job.head = transferOf c.op ∧
      (statAt (s.view s.deviceRings) job.head).addr = statusAddr c.page := by
  obtain ⟨j, found⟩ := List.mem_iff_getElem?.mp member
  obtain ⟨c, polls, -, -, sl, raw, -⟩ := stands.job_call sound found early
  rw [stands.device]
  exact ⟨c, polls, raw.transfer, congrArg Descriptor.addr raw.stat⟩

theorem Stands.read_delivered (sound : Coherent t) (stands : Stands s t) {c : Call}
    (polls : c ∈ s.calls) (out : c.left = true) (read : c.op.write = false) {a : Nat}
    (inside : inBuffer c.op a) : s.mem a = t.machine.mem.byte a := by
  have member := stands.polling polls
  obtain ⟨-, -, -, moved⟩ := sound.serves.outcome member out
  exact stands.kept.delivered c member _ moved (by simp [transferOf, read]) a inside

end Runs

/-- With all data in one memory of bytes, the device finding the rings through `QueuePfn` and
running between any two stores of a submission, every run is one of the exchange, in which a
submission is one step: with the same calls, the same status bytes and, once a read has left
its loop, the same data.  The device works for calls that have made all their stores, and
reads each request in full. -/
theorem stores_refine_exchange {s s' : Shared} (ready : s.Ready) {moves : List Move}
    (ends : shared.run s moves = some s') :
    ∃ t, exchange.Reach t ∧ exchange.run s.start (moves.filterMap Move.visible) = some t ∧
      t.machine.calls = s'.calls ++ s'.opening.toList ∧ t.machine.jobs = s'.jobs ∧
      (∀ c ∈ s'.calls, s'.mem (statusAddr c.page) = t.machine.mem.byte (statusAddr c.page)) ∧
      (∀ c ∈ s'.calls, c.left = true → c.op.write = false →
        ∀ a, inBuffer c.op a → s'.mem a = t.machine.mem.byte a) ∧
      ∀ job ∈ s'.jobs, job.phase ≠ .stated →
        ∃ c ∈ s'.calls, transferAt (s'.view s'.deviceRings) job.head = transferOf c.op ∧
          (statAt (s'.view s'.deviceRings) job.head).addr = statusAddr c.page := by
  have initial := ready.initial
  obtain ⟨t, run, sound, stands⟩ := System.run_simulates (M := shared) (N := exchange)
    (R := fun s t => Coherent t ∧ Stands s t)
    (fun _ _ _ _ related taken => related.2.step related.1 taken)
    ⟨initial.coherent, ready.stands⟩ ends
  refine ⟨t, System.Reach.run (System.Reach.start initial) run, run, stands.calls, stands.jobs,
    ?_, ?_, ?_⟩
  · intro c polls
    exact stands.kept.status c (stands.polling polls)
  · intro c polls out read a inside
    exact stands.read_delivered sound polls out read inside
  · intro job member early
    exact stands.reads_request sound member early

def readyShared : Shared where
  mem := fun _ => 0
  rings := .ofQueue 0x80100000
  dev := some 0x10008000
  free := fun _ => true
  reqHead := fun _ => none
  ackUsedIdx := 0
  readOnly := false
  todo := []
  opening := none
  calls := []
  nextId := 0
  pfn := queuePfn 0x80100000
  seen := 0
  jobs := []

theorem readyShared_ready : readyShared.Ready where
  queue := ⟨0x80100000, rfl, by decide, rfl, rfl, fun _ _ _ => rfl⟩
  free _ := rfl
  heads _ := rfl
  ack := rfl
  seen := rfl
  idle := ⟨rfl, rfl, rfl, rfl⟩

/-- The device serves the first request while the second has written its first descriptor and
a part of the next. -/
def overlapped : List Move :=
  .act (.submit (some 0x80200000) (blockRead 0x80300000)) :: List.replicate 14 .write ++
    .act (.submit (some 0x80201000) (blockRead 0x80301000)) :: List.replicate 6 .write ++
    [.act .take, .act (.move 0 fun _ => 7), .act (.state 0 0), .act (.test 0)]

theorem stores_refine_exchange_overlapped :
    ∃ s t, shared.run readyShared overlapped = some s ∧ s.todo.length = 8 ∧
      exchange.run readyShared.start (overlapped.filterMap Move.visible) = some t ∧
      t.machine.calls = [⟨0, 0x80200000, blockRead 0x80300000, true⟩,
        ⟨1, 0x80201000, blockRead 0x80301000, false⟩] ∧
      s.mem 0x80300000 = t.machine.mem.byte 0x80300000 := by
  have shown : (shared.run readyShared overlapped).map (fun s : Shared =>
      (s.calls, s.opening, s.todo.length)) =
      some ([⟨0, 0x80200000, blockRead 0x80300000, true⟩],
        some ⟨1, 0x80201000, blockRead 0x80301000, false⟩, 8) := by
    decide +kernel
  obtain ⟨s, ends, fields⟩ := Option.map_eq_some_iff.mp shown
  obtain ⟨calls, opening, todo⟩ : s.calls = [⟨0, 0x80200000, blockRead 0x80300000, true⟩] ∧
      s.opening = some ⟨1, 0x80201000, blockRead 0x80301000, false⟩ ∧ s.todo.length = 8 := by
    simpa using fields
  obtain ⟨t, -, run, all, -, -, delivered, -⟩ := stores_refine_exchange readyShared_ready ends
  refine ⟨s, t, ends, todo, run, ?_, ?_⟩
  · rw [all, calls, opening]
    rfl
  · refine delivered ⟨0, 0x80200000, blockRead 0x80300000, true⟩ ?_ rfl rfl _ (by decide)
    rw [calls]
    exact List.mem_singleton_self _

end Vesper.Virtio
