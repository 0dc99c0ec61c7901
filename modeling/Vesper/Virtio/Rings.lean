import Mathlib.Tactic
import Vesper.Virtio.Ownership

/-!
# The rings

Both rings are `WrapRing` rings of eight slots with 16-bit indices.  Every open chain is in
exactly one place on its way round: its head waits in the available ring, is being worked on
by the device, or waits in the used ring.  Since at most two chains are open, neither ring
ever overwrites a slot that was not read.
-/

set_option autoImplicit false

namespace Vesper.Virtio

open Vesper.Lib.WrapRing (slot Tracks)
open Vesper.Lib (System)

def heads (chains : List Chain) : List Nat :=
  chains.map fun c => c.slots.head.val

def unread {α : Type} (key : α → Nat) (all read : List α) : List Nat :=
  (all.drop read.length).map key

def waiting (h : History) : List Nat :=
  unread BitVec.toNat h.submitted h.seen

def working (m : Machine) : List Nat :=
  m.jobs.map fun job => job.head.toNat

def finished (h : History) : List Nat :=
  unread (fun elem => elem.id.toNat) h.published h.consumed

section Unread

variable {α : Type} (key : α → Nat) {all read : List α}

theorem unread_push (behind : read.length ≤ all.length) (x : α) :
    unread key (all ++ [x]) read = unread key all read ++ [key x] := by
  simp [unread, List.drop_append_of_le_length behind]

theorem unread_pop (waits : read.length < all.length) (x : α) :
    unread key all read = key all[read.length] :: unread key all (read ++ [x]) := by
  rw [unread, List.drop_eq_getElem_cons waits, List.map_cons, unread, List.length_append,
    List.length_singleton]

end Unread

structure Inv (s : Sys) : Prop where
  owned : Owned s.machine.bd.queue s.history.chains
  avail : Tracks s.machine.bd.queue.avail.ring s.machine.bd.queue.avail.idx s.history.submitted
    s.history.seen.length
  used : Tracks s.machine.bd.queue.used.ring s.machine.bd.queue.used.idx s.history.published
    s.history.consumed.length
  seen : s.machine.seen = BitVec.ofNat 16 s.history.seen.length
  ack : s.machine.bd.ackUsedIdx = BitVec.ofNat 16 s.history.consumed.length
  seen_prefix : s.history.seen <+: s.history.submitted
  consumed_prefix : s.history.consumed <+: s.history.published
  flow : (heads s.history.chains).Perm
    (waiting s.history ++ (working s.machine ++ finished s.history))

theorem eight_dvd : 8 ∣ 2 ^ 16 := ⟨8192, rfl⟩

theorem eight_lt : 8 < 2 ^ 16 := by norm_num

namespace Inv

variable {s : Sys}

theorem outstanding (inv : Inv s) :
    (s.history.submitted.length - s.history.seen.length) + s.machine.jobs.length +
      (s.history.published.length - s.history.consumed.length) = s.history.chains.length := by
  have count := inv.flow.length_eq
  simp only [heads, waiting, working, finished, unread, List.length_map, List.length_append,
    List.length_drop] at count
  omega

theorem seen_level_iff (inv : Inv s) :
    s.machine.seen = s.machine.bd.queue.avail.idx ↔
      s.history.seen.length = s.history.submitted.length := by
  rw [inv.seen]
  exact inv.avail.drained_iff eight_lt

theorem ack_level_iff (inv : Inv s) :
    s.machine.bd.ackUsedIdx = s.machine.bd.queue.used.idx ↔
      s.history.consumed.length = s.history.published.length := by
  rw [inv.ack]
  exact inv.used.drained_iff eight_lt

theorem next_seen (inv : Inv s) (behind : s.machine.seen ≠ s.machine.bd.queue.avail.idx) :
    ∃ waits : s.history.seen.length < s.history.submitted.length,
      s.machine.bd.queue.avail.ring (slot 8 s.machine.seen) =
        s.history.submitted[s.history.seen.length] := by
  have waits : s.history.seen.length < s.history.submitted.length :=
    lt_of_le_of_ne inv.avail.behind (mt inv.seen_level_iff.mpr behind)
  refine ⟨waits, ?_⟩
  rw [inv.seen]
  exact inv.avail.read eight_dvd waits

theorem next_used (inv : Inv s)
    (behind : s.machine.bd.ackUsedIdx ≠ s.machine.bd.queue.used.idx) :
    ∃ waits : s.history.consumed.length < s.history.published.length,
      s.machine.bd.queue.used.ring (slot 8 s.machine.bd.ackUsedIdx) =
        s.history.published[s.history.consumed.length] := by
  have waits : s.history.consumed.length < s.history.published.length :=
    lt_of_le_of_ne inv.used.behind (mt inv.ack_level_iff.mpr behind)
  refine ⟨waits, ?_⟩
  rw [inv.ack]
  exact inv.used.read eight_dvd waits

theorem next_chain (inv : Inv s)
    (behind : s.machine.bd.ackUsedIdx ≠ s.machine.bd.queue.used.idx) :
    ∃ c before after, s.history.chains = before ++ c :: after ∧
      (s.machine.bd.queue.used.ring (slot 8 s.machine.bd.ackUsedIdx)).id.toNat =
        c.slots.head.val := by
  obtain ⟨waits, read⟩ := inv.next_used behind
  have member : (s.history.published[s.history.consumed.length]).id.toNat ∈
      heads s.history.chains := by
    rw [inv.flow.mem_iff]
    refine List.mem_append_right _ (List.mem_append_right _ ?_)
    rw [finished, unread_pop _ waits s.history.published[s.history.consumed.length]]
    exact List.mem_cons_self
  obtain ⟨c, open', named⟩ := List.mem_map.mp member
  obtain ⟨before, after, split⟩ := List.append_of_mem open'
  exact ⟨c, before, after, split, by rw [read, named]⟩

end Inv

theorem pendingStep_stored {bd : BlockDevice} {c : Chain}
    (stored : Stored bd.queue.desc c.slots c.page c.op)
    (named : (bd.queue.used.ring (slot 8 bd.ackUsedIdx)).id.toNat = c.slots.head.val) :
    pendingStep bd = some { bd with
      queue := { bd.queue with reqHead := Function.update bd.queue.reqHead c.slots.head none,
                               free := setAll bd.queue.free c.members true },
      ackUsedIdx := bd.ackUsedIdx + 1 } := by
  have freed := freeDescChain_stored stored 5 bd.queue.free
  simp only [pendingStep, named, c.slots.head.isLt, dif_pos, freed]
  rfl

theorem filter_heads {q : QueueState} {before after : List Chain} {c : Chain} {head : Nat}
    (owned : Owned q (before ++ c :: after)) (named : head = c.slots.head.val) :
    ((before ++ c :: after).filter fun d => d.slots.head.val ≠ head) = before ++ after := by
  have others : ∀ d ∈ before ++ after, d.slots.head.val ≠ head := by
    intro d member same
    apply owned.rest_apart c.head_mem
    have heads : d.slots.head = c.slots.head := Fin.ext (same.trans named)
    rw [← heads]
    exact List.mem_flatMap.mpr ⟨d, member, d.head_mem⟩
  have kept := List.filter_eq_self.mpr fun d member => decide_eq_true (others d member)
  simpa [List.filter_append, List.filter_cons, named] using kept

/-! ## Every step keeps the invariant -/

theorem Initial.inv {s : Sys} (initial : Initial s) : Inv s := by
  obtain ⟨availIdx, usedIdx, ack, seen, free, heads', jobs, -, history⟩ := initial
  have owned := Owned.empty free heads'
  refine ⟨?_, ?_, ?_, ?_, ?_, ?_, ?_, ?_⟩
  · rwa [history]
  · rw [history, availIdx]
    exact Tracks.empty _
  · rw [history, usedIdx]
    exact Tracks.empty _
  · simp [history, seen]
  · simp [history, ack]
  · simp [history]
  · simp [history]
  · simp [history, heads, waiting, working, finished, unread, jobs]

theorem Inv.submitted {m : Machine} {h : History} (inv : Inv ⟨m, h⟩) {sl : Slots}
    (distinct : sl.members.Nodup) (free : ∀ i ∈ sl.members, m.bd.queue.free i = true)
    (page : Nat) (op : Op) :
    Inv ⟨{ m with bd := { m.bd with queue := claimed m.bd.queue sl page op },
                  mem := initRequest m.mem page op,
                  calls := m.calls ++ [⟨m.nextId, page, op, false⟩], nextId := m.nextId + 1 },
          { h with chains := h.chains ++ [⟨sl, m.nextId, page, op⟩],
                   submitted := h.submitted ++ [BitVec.ofNat 16 sl.head] }⟩ where
  owned := inv.owned.claim distinct free m.nextId page op
  avail := by
    have count := inv.outstanding
    have bound := inv.owned.length_le
    exact inv.avail.push eight_dvd (by simp only at count bound ⊢; omega) _
  used := inv.used
  seen := inv.seen
  ack := inv.ack
  seen_prefix := inv.seen_prefix.trans (List.prefix_append _ _)
  consumed_prefix := inv.consumed_prefix
  flow := by
    have grown := unread_push BitVec.toNat inv.avail.behind (BitVec.ofNat 16 sl.head)
    have flow := inv.flow
    rw [List.perm_iff_count] at flow ⊢
    intro k
    have had := flow k
    simp only [heads, waiting, working, finished, grown, ofNat_index, List.map_append,
      List.map_singleton, List.count_append] at had ⊢
    omega

theorem Inv.took {m : Machine} {h : History} (inv : Inv ⟨m, h⟩) {head : BitVec 16}
    (behind : m.seen ≠ m.bd.queue.avail.idx)
    (read : m.bd.queue.avail.ring (slot 8 m.seen) = head) :
    Inv ⟨{ m with seen := m.seen + 1, jobs := m.jobs ++ [⟨head, .taken⟩] },
          { h with seen := h.seen ++ [head] }⟩ := by
  obtain ⟨waits, next⟩ := inv.next_seen behind
  have named : head = h.submitted[h.seen.length] := read.symm.trans next
  refine ⟨inv.owned, ?_, inv.used, ?_, inv.ack, ?_, inv.consumed_prefix, ?_⟩
  · simpa using inv.avail.pop waits
  · simpa [BitVec.ofNat_add] using inv.seen
  · rw [named]
    exact List.concat_get_prefix inv.seen_prefix waits
  · have shrunk := unread_pop BitVec.toNat waits head
    rw [← named] at shrunk
    have flow := inv.flow
    rw [List.perm_iff_count] at flow ⊢
    intro k
    have had := flow k
    simp only [waiting, working, finished, shrunk, List.map_append, List.map_singleton,
      List.count_append, List.count_cons, List.count_nil] at had ⊢
    omega

/-- The device may move a job on, and change memory, as long as its head stays. -/
theorem Inv.worked {m : Machine} {h : History} (inv : Inv ⟨m, h⟩) (mem : Memory)
    (transfers : List (Nat × Transfer)) (outcomes : List (Nat × BitVec 8)) {job job' : Job}
    {before after : List Job} (jobs : m.jobs = before ++ job :: after)
    (same : job'.head = job.head) :
    Inv ⟨{ m with mem := mem, jobs := before ++ job' :: after },
          { h with transfers := transfers, outcomes := outcomes }⟩ where
  owned := inv.owned
  avail := inv.avail
  used := inv.used
  seen := inv.seen
  ack := inv.ack
  seen_prefix := inv.seen_prefix
  consumed_prefix := inv.consumed_prefix
  flow := by
    have kept : working { m with mem := mem, jobs := before ++ job' :: after } = working m := by
      simp [working, jobs, same]
    rw [kept]
    exact inv.flow

theorem Inv.published {m : Machine} {h : History} (inv : Inv ⟨m, h⟩) {job : Job}
    {before after : List Job} (jobs : m.jobs = before ++ job :: after) (len : BitVec 32) :
    Inv ⟨{ publishElem m ⟨job.head.setWidth 32, len⟩ with jobs := before ++ after },
          { h with published := h.published ++ [⟨job.head.setWidth 32, len⟩] }⟩ := by
  have count := inv.outstanding
  have bound := inv.owned.length_le
  have room : h.published.length - h.consumed.length < 8 := by
    simp only at count bound
    omega
  have wide : (job.head.setWidth 32).toNat = job.head.toNat := by
    simp only [BitVec.toNat_setWidth]
    omega
  refine ⟨⟨inv.owned.disjoint, inv.owned.free_iff, inv.owned.stored, inv.owned.reqHead⟩,
    inv.avail, ?_, inv.seen, inv.ack, inv.seen_prefix,
    inv.consumed_prefix.trans (List.prefix_append _ _), ?_⟩
  · exact inv.used.push eight_dvd room _
  · have grown := unread_push (fun elem : UsedElem => elem.id.toNat) inv.used.behind
      ⟨job.head.setWidth 32, len⟩
    have flow := inv.flow
    rw [List.perm_iff_count] at flow ⊢
    intro k
    have had := flow k
    simp only [waiting, working, finished, grown, wide, jobs, List.map_append, List.map_cons,
      List.count_append, List.count_cons, List.count_nil] at had ⊢
    omega

theorem Inv.drained {m : Machine} {h : History} (inv : Inv ⟨m, h⟩) {bd : BlockDevice}
    {elem : UsedElem} (behind : m.bd.ackUsedIdx ≠ m.bd.queue.used.idx)
    (read : m.bd.queue.used.ring (slot 8 m.bd.ackUsedIdx) = elem)
    (result : pendingStep m.bd = some bd) :
    Inv ⟨{ m with bd := bd },
          { h with consumed := h.consumed ++ [elem],
                   chains := h.chains.filter fun c => c.slots.head.val ≠ elem.id.toNat }⟩ := by
  obtain ⟨waits, next⟩ := inv.next_used behind
  obtain ⟨c, before, after, split, named⟩ := inv.next_chain behind
  simp only at waits next split named
  have owned : Owned m.bd.queue (before ++ c :: after) := split ▸ inv.owned
  have this : elem = h.published[h.consumed.length] := read.symm.trans next
  rw [read] at named
  have released := pendingStep_stored (owned.stored c (by simp)) (by rw [read, named])
  rw [result, Option.some.injEq] at released
  subst released
  have kept := filter_heads owned named
  refine ⟨?_, inv.avail, ?_, inv.seen, ?_, inv.seen_prefix, ?_, ?_⟩
  · simp only [split, kept]
    exact owned.release
  · simpa using inv.used.pop waits
  · simpa [BitVec.ofNat_add] using inv.ack
  · rw [this]
    exact List.concat_get_prefix inv.consumed_prefix waits
  · have shrunk := unread_pop (fun elem : UsedElem => elem.id.toNat) waits elem
    rw [← this, named] at shrunk
    have flow := inv.flow
    rw [List.perm_iff_count] at flow ⊢
    intro k
    have had := flow k
    simp only [split, kept]
    simp only [split, heads, waiting, working, finished, shrunk, List.map_append, List.map_cons,
      List.count_append, List.count_cons] at had ⊢
    omega

theorem Inv.step {s s' : Sys} {a : Action} (inv : Inv s) (stepped : Stepped s a s') : Inv s' := by
  cases stepped with
  | refused => exact inv
  | exhausted m h page op fresh full =>
      exact ⟨inv.owned, inv.avail, inv.used, inv.seen, inv.ack, inv.seen_prefix,
        inv.consumed_prefix, inv.flow⟩
  | submitted m h page op sl fresh distinct free => exact inv.submitted distinct free page op
  | took m h head behind read => exact inv.took behind read
  | moved m h j data head before after jobs =>
      exact inv.worked _ _ _ jobs rfl
  | stated m h j value head before after jobs =>
      exact inv.worked _ _ _ jobs rfl
  | published m h j len head before after jobs => exact inv.published jobs len
  | drained m h bd elem behind read result => exact inv.drained behind read result
  | polled => exact inv
  | left m h i c before after calls done =>
      exact ⟨inv.owned, inv.avail, inv.used, inv.seen, inv.ack, inv.seen_prefix,
        inv.consumed_prefix, inv.flow⟩
  | concluded m h i c before after calls out =>
      exact ⟨inv.owned, inv.avail, inv.used, inv.seen, inv.ack, inv.seen_prefix,
        inv.consumed_prefix, inv.flow⟩

theorem reach_inv {s : Sys} (reached : exchange.Reach s) : Inv s := by
  refine reached.invariant ?_ ?_
  · intro s initial
    exact Initial.inv initial
  · intro s a s' inv taken
    exact inv.step (Sys.step_stepped taken)

/-! ## Consuming a completion -/

theorem Inv.drain {s : Sys} (inv : Inv s)
    (behind : s.machine.bd.ackUsedIdx ≠ s.machine.bd.queue.used.idx) :
    ∃ s' c before after, s.step .drain = some s' ∧
      pendingStep s.machine.bd = some s'.machine.bd ∧
      (s.machine.bd.queue.used.ring (slot 8 s.machine.bd.ackUsedIdx)).id.toNat =
        c.slots.head.val ∧
      s.history.chains = before ++ c :: after ∧ s'.history.chains = before ++ after ∧
      s'.machine.bd.queue.free = setAll s.machine.bd.queue.free c.members true ∧
      s'.history.published = s.history.published ∧
      s'.history.consumed.length = s.history.consumed.length + 1 := by
  obtain ⟨c, before, after, split, named⟩ := inv.next_chain behind
  have owned : Owned s.machine.bd.queue (before ++ c :: after) := split ▸ inv.owned
  obtain ⟨bd, released, free⟩ : ∃ bd, pendingStep s.machine.bd = some bd ∧
      bd.queue.free = setAll s.machine.bd.queue.free c.members true :=
    ⟨_, pendingStep_stored (owned.stored c (by simp)) named, rfl⟩
  have kept := filter_heads owned named
  refine ⟨⟨{ s.machine with bd := bd }, record s.machine s.history .drain⟩, c, before, after,
    ?_, released, named, split, ?_, free, rfl, ?_⟩
  · simp only [Sys.step, Machine.step, behind, if_false, released, Option.map_some]
  · simpa only [record, split] using kept
  · simp [record]

theorem pending_drains {rounds : Nat} {s : Sys} (inv : Inv s)
    (enough : s.history.published.length - s.history.consumed.length < rounds) :
    ∃ s' n, exchange.run s (List.replicate n Action.drain) = some s' ∧
      pending rounds s.machine.bd = some s'.machine.bd ∧
      s'.history.consumed = s.history.published ∧
      s'.machine.bd.ackUsedIdx = s'.machine.bd.queue.used.idx := by
  induction rounds generalizing s with
  | zero => omega
  | succ rounds ih =>
      by_cases level : s.machine.bd.ackUsedIdx = s.machine.bd.queue.used.idx
      · refine ⟨s, 0, rfl, by simp [pending, level], ?_, level⟩
        exact inv.consumed_prefix.eq_of_length (inv.ack_level_iff.mp level)
      · obtain ⟨mid, c, before, after, step, round, -, -, -, -, same, count⟩ := inv.drain level
        have more := inv.used.behind
        have strict := mt inv.ack_level_iff.mpr level
        obtain ⟨s', n, run, rest, all, ends⟩ := ih (inv.step (Sys.step_stepped step)) (by
          rw [same, count]
          omega)
        refine ⟨s', n + 1, ?_, ?_, same ▸ all, ends⟩
        · exact Option.bind_eq_some_iff.mpr ⟨mid, step, run⟩
        · rw [pending, if_neg level, round]
          exact rest

/-! ## Ownership and order over whole runs -/

/-- At all times the descriptors are the free ones and the chains of the requests on their
way round, each stored in full under its own head; consuming a completion frees its chain,
and a submission that finds no three descriptors changes nothing of the queue. -/
theorem descriptor_ownership {s : Sys} (reached : exchange.Reach s) :
    Owned s.machine.bd.queue s.history.chains ∧
    (heads s.history.chains).Perm
      (waiting s.history ++ (working s.machine ++ finished s.history)) ∧
    (∀ i, (s.machine.bd.queue.reqHead i).isSome ↔ ∃ c ∈ s.history.chains, c.slots.head = i) ∧
    (s.machine.bd.ackUsedIdx ≠ s.machine.bd.queue.used.idx →
      ∃ s' c before after, s.step .drain = some s' ∧
        (s.machine.bd.queue.used.ring (slot 8 s.machine.bd.ackUsedIdx)).id.toNat =
          c.slots.head.val ∧
        s.history.chains = before ++ c :: after ∧ s'.history.chains = before ++ after ∧
        ∀ i, s'.machine.bd.queue.free i = true ↔
          s.machine.bd.queue.free i = true ∨ i ∈ c.members) ∧
    (∀ page op s', s.step (.submit (some page) op) = some s' →
      (allocDescChain s.machine.bd.queue).1 = none → s'.machine.bd = s.machine.bd) := by
  have inv := reach_inv reached
  refine ⟨inv.owned, inv.flow, ?_, ?_, ?_⟩
  · intro i
    simp [Option.isSome_iff_exists, inv.owned.reqHead]
  · intro behind
    obtain ⟨s', c, before, after, step, -, named, split, rest, free, -, -⟩ := inv.drain behind
    refine ⟨s', c, before, after, step, named, split, rest, ?_⟩
    intro i
    rw [free, setAll_apply]
    by_cases own : i ∈ c.members
    · simp [own]
    · simp [own]
  · intro page op s' taken none'
    cases Sys.step_stepped taken with
    | refused => rfl
    | exhausted => rfl
    | submitted m h _ _ sl _ distinct free =>
        rcases allocDescChain_cases m.bd.queue with ⟨sl', found, -⟩ | ⟨-, got, short, all⟩
        · rw [found] at none'
          cases none'
        · have sub : sl.members ⊆ got := fun i member => all i (free i member)
          have three := (distinct.subperm sub).length_le
          have : sl.members.length = 3 := rfl
          omega

def readySys : Sys where
  machine :=
    { bd :=
        { dev := some 0x10008000
          queue :=
            { desc := fun _ => ⟨0, 0, 0, 0⟩
              avail := ⟨0, fun _ => 0⟩
              used := ⟨0, fun _ => ⟨0, 0⟩⟩
              free := fun _ => true
              reqHead := fun _ => none }
          ackUsedIdx := 0
          readOnly := false }
      mem := ⟨fun _ => ⟨⟨0, 0, 0⟩, 0⟩, fun _ => 0⟩
      seen := 0
      jobs := []
      calls := []
      nextId := 0 }
  history := ⟨[], [], [], [], [], [], [], []⟩

theorem readySys_initial : Initial readySys := by
  simp [Initial, readySys]

def blockRead (buffer : Nat) : Op where
  buffer := buffer
  size := 1024
  offset := 2048
  write := false

/-- Two requests are out and the second has come back first. -/
def overtaking : List Action :=
  [.submit (some 0x80200000) (blockRead 0x80300000),
    .submit (some 0x80201000) (blockRead 0x80301000),
    .take, .take, .move 1 (fun _ => 0), .state 1 0, .publish 1 1025]

theorem descriptor_ownership_overtaking :
    ∃ s, exchange.run readySys overtaking = some s ∧ s.history.chains.length = 2 ∧
      s.machine.bd.ackUsedIdx ≠ s.machine.bd.queue.used.idx ∧
      Owned s.machine.bd.queue s.history.chains ∧
      ∃ s', s.step .drain = some s' ∧ s'.history.chains.length = 1 := by
  have ran : (exchange.run readySys overtaking).map (fun s : Sys =>
      (s.history.chains.length, s.machine.bd.ackUsedIdx, s.machine.bd.queue.used.idx)) =
        some (2, 0, 1) := by decide +kernel
  obtain ⟨s, ends, facts⟩ := Option.map_eq_some_iff.mp ran
  simp only [Prod.mk.injEq] at facts
  obtain ⟨two, ack, used⟩ := facts
  have reached : exchange.Reach s := (System.Reach.start readySys_initial).run ends
  have behind : s.machine.bd.ackUsedIdx ≠ s.machine.bd.queue.used.idx := by
    rw [ack, used]
    decide
  obtain ⟨owned, -, -, drain, -⟩ := descriptor_ownership reached
  obtain ⟨s', c, before, after, step, -, split, rest, -⟩ := drain behind
  refine ⟨s, ends, two, behind, owned, s', step, ?_⟩
  rw [split] at two
  rw [rest]
  simp only [List.length_append, List.length_cons] at two ⊢
  omega

/-- The device sees the submitted heads, and `pending` the published elements, each once and
in order, for runs of any length; a call of `pending` the device does not run into ends with
everything published consumed. -/
theorem rings_lossless {s : Sys} (reached : exchange.Reach s) :
    (s.machine.bd.queue.avail.idx = BitVec.ofNat 16 s.history.submitted.length ∧
      s.machine.seen = BitVec.ofNat 16 s.history.seen.length ∧
      s.machine.bd.queue.used.idx = BitVec.ofNat 16 s.history.published.length ∧
      s.machine.bd.ackUsedIdx = BitVec.ofNat 16 s.history.consumed.length) ∧
    (s.history.seen <+: s.history.submitted ∧
      (s.machine.seen = s.machine.bd.queue.avail.idx ↔ s.history.seen = s.history.submitted) ∧
      ∀ k (stored : k < s.history.submitted.length), s.history.seen.length ≤ k →
        s.machine.bd.queue.avail.ring (Fin.ofNat 8 k) = s.history.submitted[k]) ∧
    (s.history.consumed <+: s.history.published ∧
      (s.machine.bd.ackUsedIdx = s.machine.bd.queue.used.idx ↔
        s.history.consumed = s.history.published) ∧
      ∀ k (stored : k < s.history.published.length), s.history.consumed.length ≤ k →
        s.machine.bd.queue.used.ring (Fin.ofNat 8 k) = s.history.published[k]) ∧
    ∃ s' n, exchange.run s (List.replicate n Action.drain) = some s' ∧
      pending 3 s.machine.bd = some s'.machine.bd ∧
      s'.history.consumed = s.history.published ∧
      s'.machine.bd.ackUsedIdx = s'.machine.bd.queue.used.idx := by
  have inv := reach_inv reached
  have few : s.history.published.length - s.history.consumed.length < 3 := by
    have := inv.outstanding
    have := inv.owned.length_le
    omega
  refine ⟨⟨inv.avail.index, inv.seen, inv.used.index, inv.ack⟩,
    ⟨inv.seen_prefix, ?_, inv.avail.unread⟩, ⟨inv.consumed_prefix, ?_, inv.used.unread⟩,
    pending_drains inv few⟩
  · rw [inv.seen_level_iff]
    exact ⟨inv.seen_prefix.eq_of_length, congrArg List.length⟩
  · rw [inv.ack_level_iff]
    exact ⟨inv.consumed_prefix.eq_of_length, congrArg List.length⟩

theorem rings_lossless_overtaking :
    ∃ s, exchange.run readySys overtaking = some s ∧
      s.history.submitted = [0, 3] ∧ s.history.seen = [0, 3] ∧
      s.machine.seen = s.machine.bd.queue.avail.idx ∧
      ∃ s', pending 3 s.machine.bd = some s' ∧ s'.ackUsedIdx = s'.queue.used.idx := by
  have ran : (exchange.run readySys overtaking).map (fun s : Sys =>
      (s.history.submitted, s.history.seen)) = some ([0, 3], [0, 3]) := by decide +kernel
  obtain ⟨s, ends, facts⟩ := Option.map_eq_some_iff.mp ran
  simp only [Prod.mk.injEq] at facts
  obtain ⟨submitted, seen⟩ := facts
  have reached : exchange.Reach s := (System.Reach.start readySys_initial).run ends
  obtain ⟨-, ⟨-, level, -⟩, -, s', n, -, drained, -, empty⟩ := rings_lossless reached
  exact ⟨s, ends, submitted, seen, level.mpr (seen.trans submitted.symm), s'.machine.bd, drained,
    empty⟩

end Vesper.Virtio
