import Mathlib.Tactic
import Vesper.Virtio.Completion
import Vesper.Virtio.QueueMemory

/-!
# A submission, store by store

The exchange between driver and device on one memory of bytes.  `block_op` writes its three
descriptors field by field, then the ring slot and at last `avail.idx`, and the device may run
between any two of these stores; it reads and writes the rings where its own registers say they
are.  Interrupts may drain the used ring meanwhile, and other calls poll.  Stores reach memory
in program order.

Every such run is matched by a run of the exchange in which the submission is one step, made
when its descriptors are taken: what the stores still to come will change is read by nobody
before the last of them.
-/

set_option autoImplicit false

namespace Vesper.Virtio

open Vesper.Lib (System)
open Vesper.Lib.ByteMemory
open Vesper.Lib.WrapRing (slot)

/-! ## Ranges of memory -/

def Pointers.Off (q : Pointers) (a n : Nat) : Prop :=
  RangeApart a n q.desc 128 ∧ RangeApart a n q.avail 22 ∧ RangeApart a n q.used 72

instance (q : Pointers) (a n : Nat) : Decidable (q.Off a n) := inferInstanceAs (Decidable (_ ∧ _))

def requestBytes : Nat := 25

/-! ## The machine -/

structure Shared where
  mem : Mem
  rings : Pointers
  dev : Option Nat
  free : Index → Bool
  reqHead : Index → Option Nat
  ackUsedIdx : BitVec 16
  readOnly : Bool
  /-- The stores a submission has yet to make, and its call. -/
  todo : List Store
  opening : Option Call
  calls : List Call
  nextId : Nat
  /-- The registers and counters of the device. -/
  pfn : BitVec 32
  seen : BitVec 16
  jobs : List Job

/-- What a party with the pointers `q` reads. -/
def Shared.view (s : Shared) (q : Pointers) : Machine where
  bd :=
    { dev := s.dev
      queue :=
        { desc := readDesc s.mem q
          avail := readAvail s.mem q
          used := readUsed s.mem q
          free := s.free
          reqHead := s.reqHead }
      ackUsedIdx := s.ackUsedIdx
      readOnly := s.readOnly }
  mem := ⟨readRequest s.mem, s.mem⟩
  seen := s.seen
  jobs := s.jobs
  calls := s.calls
  nextId := s.nextId

def Shared.deviceRings (s : Shared) : Pointers := .ofPfn s.pfn

/-- What the page allocator and the callers promise: request pages and buffers are memory of
their own. -/
def Separate (s : Shared) (page : Nat) (op : Op) : Prop :=
  page + requestBytes ≤ 2 ^ 64 ∧ op.buffer < 2 ^ 64 ∧ s.rings.Off page requestBytes ∧
  s.rings.Off op.buffer op.size.toNat ∧
  RangeApart page requestBytes op.buffer op.size.toNat ∧
  ∀ c ∈ s.calls, RangeApart page requestBytes c.page requestBytes ∧
    RangeApart page requestBytes c.op.buffer c.op.size.toNat ∧
    RangeApart c.page requestBytes op.buffer op.size.toNat

instance (s : Shared) (page : Nat) (op : Op) : Decidable (Separate s page op) :=
  inferInstanceAs (Decidable (_ ∧ _))

def frontStores (q : Pointers) (sl : Slots) (page : Nat) (op : Op) (idx : BitVec 16) :
    List Store :=
  descStores q sl.head (headDesc sl page) ++ descStores q sl.data (dataDesc sl op) ++
    descStores q sl.stat (statusDesc page) ++ [ringStore q (slot 8 idx) (BitVec.ofNat 16 sl.head)]

/-- The request page is written and the descriptors are taken; the stores to the queue are
still to come. -/
def Shared.claim (s : Shared) (page : Nat) (op : Op) : Shared :=
  let s := { s with mem := applyAll (requestStores page op) s.mem }
  match allocDescChain (s.view s.rings).bd.queue with
  | (none, q) => { s with free := q.free }
  | (some sl, q) =>
    let idx := (readAvail s.mem s.rings).idx
    { s with
      free := q.free
      reqHead := Function.update s.reqHead sl.head (some page)
      todo := frontStores s.rings sl page op idx ++ [availIdxStore s.rings (idx + 1)]
      opening := some ⟨s.nextId, page, op, false⟩
      nextId := s.nextId + 1 }

/-- `block_op` up to `alloc_desc_chain`. -/
def Shared.submit (s : Shared) (page : Option Nat) (op : Op) : Option Shared :=
  if s.todo ≠ [] then none
  else if ∀ p ∈ page, Separate s p op then
    if s.dev = none then some s
    else if s.readOnly && op.write then some s
    else
      match page with
      | none => some s
      | some page => some (s.claim page op)
  else none

/-- The next store of the submission; after the last one the call polls. -/
def Shared.write (s : Shared) : Option Shared :=
  match s.todo with
  | [] => none
  | [last] =>
    some { s with
      mem := last.apply s.mem
      todo := []
      opening := none
      calls := s.calls ++ s.opening.toList }
  | next :: rest => some { s with mem := next.apply s.mem, todo := rest }

inductive Move where
  | act (a : Action)
  | write

def Shared.step (s : Shared) : Move → Option Shared
  | .write => s.write
  | .act (.submit page op) => s.submit page op
  | .act .take =>
    let avail := readAvail s.mem s.deviceRings
    if s.seen = avail.idx then none
    else some { s with seen := s.seen + 1,
                       jobs := s.jobs ++ [⟨avail.ring (slot 8 s.seen), .taken⟩] }
  | .act (.move j data) =>
    match s.jobs[j]? with
    | some ⟨head, .taken⟩ =>
      some { s with mem := transferInto s.mem (dataAt (s.view s.deviceRings) head) data,
                    jobs := s.jobs.set j ⟨head, .moved⟩ }
    | _ => none
  | .act (.state j value) =>
    match s.jobs[j]? with
    | some ⟨head, .moved⟩ =>
      some { s with
        mem := Function.update s.mem (statAt (s.view s.deviceRings) head).addr value,
        jobs := s.jobs.set j ⟨head, .stated⟩ }
    | _ => none
  | .act (.publish j len) =>
    match s.jobs[j]? with
    | some ⟨head, .stated⟩ =>
      let idx := (readUsed s.mem s.deviceRings).idx
      some { s with
        mem := applyAll (usedStores s.deviceRings (slot 8 idx) ⟨head.setWidth 32, len⟩ (idx + 1))
          s.mem,
        jobs := s.jobs.eraseIdx j }
    | _ => none
  | .act .drain =>
    if s.ackUsedIdx = (readUsed s.mem s.rings).idx then none
    else (pendingStep (s.view s.rings).bd).map fun bd =>
      { s with free := bd.queue.free, reqHead := bd.queue.reqHead, ackUsedIdx := bd.ackUsedIdx }
  | .act (.test i) =>
    match s.calls[i]? with
    | some c =>
      if s.mem (statusAddr c.page) = statusPending then some s
      else some { s with calls := s.calls.set i { c with left := true } }
    | none => none
  | .act (.conclude i) =>
    match s.calls[i]? with
    | some c => if c.left then some { s with calls := s.calls.eraseIdx i } else none
    | none => none

/-- After `setup_block_device`: the two pages of the queue are zero. -/
structure Shared.Ready (s : Shared) : Prop where
  queue : ∃ base, base % 4096 = 0 ∧ base < 2 ^ 32 ∧ s.rings = .ofQueue base ∧
    s.pfn = queuePfn base ∧ ∀ a, base ≤ a → a < base + 2 * 4096 → s.mem a = 0
  free : ∀ i, s.free i = true
  heads : ∀ i, s.reqHead i = none
  ack : s.ackUsedIdx = 0
  seen : s.seen = 0
  idle : s.todo = [] ∧ s.opening = none ∧ s.calls = [] ∧ s.jobs = []

def shared : System where
  State := Shared
  Action := Move
  init := Shared.Ready
  step := Shared.step

/-! ## Where the stores go -/

section Places
variable {q : Pointers} {sl : Slots} {page : Nat} {op : Op} {idx : BitVec 16}

theorem descStores_within (i : Index) (d : Descriptor) : Within (descStores q i d) q.desc 128 := by
  have small := i.isLt
  simp [Within, descStores]
  omega

theorem exposeStores_within (i : Index) (head idx : BitVec 16) :
    Within (exposeStores q i head idx) q.avail 22 := by
  have small := i.isLt
  simp [Within, exposeStores, ringStore, availIdxStore]
  omega

theorem usedStores_within (i : Index) (elem : UsedElem) (idx : BitVec 16) :
    Within (usedStores q i elem idx) q.used 72 := by
  have small := i.isLt
  simp [Within, usedStores]
  omega

theorem requestStores_within (page : Nat) (op : Op) :
    Within (requestStores page op) page requestBytes := by
  simp [Within, requestStores, statusAddr, requestBytes]

theorem submitStores_eq :
    frontStores q sl page op idx ++ [availIdxStore q (idx + 1)] =
      (descStores q sl.head (headDesc sl page) ++ descStores q sl.data (dataDesc sl op) ++
        descStores q sl.stat (statusDesc page)) ++
      exposeStores q (slot 8 idx) (BitVec.ofNat 16 sl.head) (idx + 1) := by
  simp [frontStores, exposeStores]

theorem submitStores_clear {a n : Nat} (desc : RangeApart a n q.desc 128)
    (avail : RangeApart a n q.avail 22) :
    Clear (frontStores q sl page op idx ++ [availIdxStore q (idx + 1)]) a n := by
  rw [submitStores_eq]
  exact Clear.append (Clear.append (Clear.append ((descStores_within _ _).clear desc)
    ((descStores_within _ _).clear desc)) ((descStores_within _ _).clear desc))
    ((exposeStores_within _ _ _).clear avail)

theorem submitStores_clear_desc {i : Index} (other : i ∉ sl.members) :
    Clear (frontStores q sl page op idx ++ [availIdxStore q (idx + 1)]) (q.desc + 16 * i) 16 := by
  have members : i ≠ sl.head ∧ i ≠ sl.data ∧ i ≠ sl.stat := by
    simpa [Slots.members] using other
  have small := i.isLt
  have order := q.descAvail
  rw [submitStores_eq]
  refine Clear.append (Clear.append (Clear.append (descStores_clear members.1 _)
    (descStores_clear members.2.1 _)) (descStores_clear members.2.2 _)) ?_
  exact (exposeStores_within _ _ _).clear (by unfold RangeApart; omega)

theorem descs_clear_avail (sl : Slots) (page : Nat) (op : Op) :
    Clear (descStores q sl.head (headDesc sl page) ++ descStores q sl.data (dataDesc sl op) ++
      descStores q sl.stat (statusDesc page)) q.avail 22 := by
  have apart : RangeApart q.avail 22 q.desc 128 := Or.inr q.descAvail
  exact Clear.append (Clear.append ((descStores_within _ _).clear apart)
    ((descStores_within _ _).clear apart)) ((descStores_within _ _).clear apart)

theorem frontStores_clear_idx : Clear (frontStores q sl page op idx) (q.avail + 2) 2 := by
  refine Clear.append ((descs_clear_avail sl page op).narrow (by omega) (by omega)) ?_
  simp [Clear, ringStore]

theorem submitStores_clear_ring {k : Index} (other : k ≠ slot 8 idx) :
    Clear (frontStores q sl page op idx ++ [availIdxStore q (idx + 1)])
      (q.avail + 4 + 2 * k) 2 := by
  have small := k.isLt
  have apart : k.val ≠ (slot 8 idx).val := fun same => other (Fin.ext same)
  rw [submitStores_eq]
  refine Clear.append ((descs_clear_avail sl page op).narrow (by omega) (by omega)) ?_
  simp [Clear, exposeStores, ringStore, availIdxStore]
  omega

theorem readDesc_submitStores (low : page + requestBytes ≤ 2 ^ 64) (buffer : op.buffer < 2 ^ 64)
    (m : Mem) :
    readDesc (applyAll (frontStores q sl page op idx ++ [availIdxStore q (idx + 1)]) m) q =
      Function.update (Function.update (Function.update (readDesc m q) sl.head (headDesc sl page))
        sl.data (dataDesc sl op)) sl.stat (statusDesc page) := by
  change page + 25 ≤ 2 ^ 64 at low
  have head : (headDesc sl page).addr < 2 ^ 64 := by
    change page < 2 ^ 64
    omega
  have stat : (statusDesc page).addr < 2 ^ 64 := by
    change page + 24 < 2 ^ 64
    omega
  have order := q.descAvail
  rw [submitStores_eq, applyAll_append, applyAll_append, applyAll_append,
    ← readDesc_descStores _ head, ← readDesc_descStores sl.data (d := dataDesc sl op) buffer,
    ← readDesc_descStores _ stat]
  funext i
  have small := i.isLt
  exact readDesc_clear ((exposeStores_within _ _ _).clear (by unfold RangeApart; omega))

theorem readAvail_submitStores (m : Mem) :
    readAvail (applyAll (frontStores q sl page op idx ++ [availIdxStore q (idx + 1)]) m) q =
      ⟨idx + 1, Function.update (readAvail m q).ring (slot 8 idx) (BitVec.ofNat 16 sl.head)⟩ := by
  rw [submitStores_eq, applyAll_append, readAvail_exposeStores,
    readAvail_clear (descs_clear_avail sl page op)]

end Places

/-! ## What the bytes stand for -/

def Shared.settled (s : Shared) : Mem := applyAll s.todo s.mem

/-- Request pages and buffers keep apart from the queue and from other request pages. -/
structure Placement (q : Pointers) (calls : List Call) : Prop where
  page : ∀ c ∈ calls, q.Off c.page requestBytes
  buffer : ∀ c ∈ calls, q.Off c.op.buffer c.op.size.toNat
  pages : ∀ c ∈ calls, ∀ d ∈ calls, c.id ≠ d.id →
    RangeApart c.page requestBytes d.page requestBytes
  mixed : ∀ c ∈ calls, ∀ d ∈ calls, RangeApart c.page requestBytes d.op.buffer d.op.size.toNat

/-- A submission is under way: of its stores those in `front` and the last are still to come,
and the device has not seen its head. -/
structure Opens (s : Shared) (t : Sys) (c : Call) (sl : Slots) (idx : BitVec 16)
    (front : List Store) : Prop where
  call : s.opening = some c
  chain : ⟨sl, c.id, c.page, c.op⟩ ∈ t.history.chains
  todo : s.todo = front ++ [availIdxStore s.rings (idx + 1)]
  front : ∀ st ∈ front, st ∈ frontStores s.rings sl c.page c.op idx
  index : (readAvail s.mem s.rings).idx = idx
  last : ∃ earlier, t.history.submitted = earlier ++ [BitVec.ofNat 16 sl.head] ∧
    t.history.seen.length ≤ earlier.length

/-- The bytes of the open calls: their requests, their status bytes and the buffers the device
has filled, next to those of the exchange. -/
structure Kept (m : Mem) (calls : List Call) (byte : Mem) (transfers : List (Nat × Transfer)) :
    Prop where
  request : ∀ c ∈ calls, readRequest m c.page = requestOf c.op
  status : ∀ c ∈ calls, m (statusAddr c.page) = byte (statusAddr c.page)
  delivered : ∀ c ∈ calls, ∀ transfer, (c.id, transfer) ∈ transfers →
    transfer.intoMemory = true → ∀ a, inBuffer c.op a → m a = byte a

theorem Kept.nil (m byte : Mem) (transfers : List (Nat × Transfer)) : Kept m [] byte transfers :=
  ⟨by simp, by simp, by simp⟩

theorem Placement.nil (q : Pointers) : Placement q [] :=
  ⟨by simp, by simp, by simp, by simp⟩

/-- The bytes stand for a state of the exchange. -/
structure Stands (s : Shared) (t : Sys) : Prop where
  device : s.deviceRings = s.rings
  bd : t.machine.bd =
    ⟨s.dev, ⟨readDesc s.settled s.rings, readAvail s.settled s.rings, readUsed s.mem s.rings,
      s.free, s.reqHead⟩, s.ackUsedIdx, s.readOnly⟩
  calls : t.machine.calls = s.calls ++ s.opening.toList
  nextId : t.machine.nextId = s.nextId
  seen : t.machine.seen = s.seen
  jobs : t.machine.jobs = s.jobs
  kept : Kept s.mem t.machine.calls t.machine.mem.byte t.history.transfers
  transfers : ∀ i transfer, (i, transfer) ∈ t.history.transfers → i < t.machine.nextId
  placement : Placement s.rings t.machine.calls
  opening : (s.todo = [] ∧ s.opening = none) ∨ ∃ c sl idx front, Opens s t c sl idx front

/-! ## What is still to be stored -/

section Todo
variable {s s' : Shared} {t t' : Sys} {c : Call} {sl : Slots} {idx : BitVec 16}
  {front : List Store} {a n : Nat}

theorem Opens.mem_todo (opens : Opens s t c sl idx front) {st : Store} (member : st ∈ s.todo) :
    st ∈ frontStores s.rings sl c.page c.op idx ++ [availIdxStore s.rings (idx + 1)] := by
  rw [opens.todo] at member
  rcases List.mem_append.mp member with early | last
  · exact List.mem_append_left _ (opens.front st early)
  · exact List.mem_append_right _ last

theorem Stands.todo_clear (stands : Stands s t) (desc : RangeApart a n s.rings.desc 128)
    (avail : RangeApart a n s.rings.avail 22) : Clear s.todo a n := by
  rcases stands.opening with ⟨idle, -⟩ | ⟨c, sl, idx, front, opens⟩
  · rw [idle]
    exact fun st member => absurd member List.not_mem_nil
  · exact (submitStores_clear desc avail).mono fun st member => opens.mem_todo member

theorem Stands.todo_clear_used (stands : Stands s t) : Clear s.todo s.rings.used 72 := by
  have first := s.rings.descAvail
  have second := s.rings.availUsed
  exact stands.todo_clear (Or.inr (by omega)) (Or.inr (by omega))

theorem Opens.waits (opens : Opens s t c sl idx front) : sl.head.val ∈ waiting t.history := by
  obtain ⟨earlier, all, behind⟩ := opens.last
  rw [waiting, unread, all, List.drop_append_of_le_length behind, List.map_append]
  refine List.mem_append_right _ ?_
  rw [List.map_singleton, ofNat_index]
  exact List.mem_singleton_self _

/-- A chain the device has seen is in memory as it will be. -/
theorem Stands.stored (stands : Stands s t) (owned : Owned t.machine.bd.queue t.history.chains)
    {ch : Chain} (member : ch ∈ t.history.chains) (taken : ch.slots.head.val ∉ waiting t.history) :
    Stored (readDesc s.mem s.rings) ch.slots ch.page ch.op := by
  have settled : Stored (readDesc s.settled s.rings) ch.slots ch.page ch.op := by
    have stored := owned.stored ch member
    rw [stands.bd] at stored
    exact stored
  have same : ∀ i ∈ ch.members, readDesc s.settled s.rings i = readDesc s.mem s.rings i := by
    intro i own
    rcases stands.opening with ⟨idle, -⟩ | ⟨c, sl, idx, front, opens⟩
    · rw [Shared.settled, idle, applyAll_nil]
    · have other : ch ≠ ⟨sl, c.id, c.page, c.op⟩ := by
        rintro rfl
        exact taken opens.waits
      have apart : i ∉ sl.members := owned.member_apart member opens.chain other own
      exact readDesc_clear ((submitStores_clear_desc apart).mono fun st inTodo =>
        opens.mem_todo inTodo)
  constructor
  · rw [← same _ (by simp [Chain.members, Slots.members])]
    exact settled.head
  · rw [← same _ (by simp [Chain.members, Slots.members])]
    exact settled.data
  · rw [← same _ (by simp [Chain.members, Slots.members])]
    exact settled.stat

def Pointers.Inside (q : Pointers) (a : Nat) : Prop :=
  (q.desc ≤ a ∧ a < q.desc + 128) ∨ (q.avail ≤ a ∧ a < q.avail + 22) ∨
    (q.used ≤ a ∧ a < q.used + 72)

theorem reads_of_inside {m m' : Mem} {q : Pointers} (same : ∀ a, q.Inside a → m' a = m a) :
    readDesc m' q = readDesc m q ∧ readAvail m' q = readAvail m q ∧
      readUsed m' q = readUsed m q := by
  refine ⟨funext fun i => ?_, ?_, ?_⟩
  · have small := i.isLt
    exact readDesc_congr fun a low high => same a (Or.inl ⟨by omega, by omega⟩)
  · exact readAvail_congr fun a low high => same a (Or.inr (Or.inl ⟨low, high⟩))
  · exact readUsed_congr fun a low high => same a (Or.inr (Or.inr ⟨low, high⟩))

def Call.Holds (c : Call) (a : Nat) : Prop :=
  (c.page ≤ a ∧ a < c.page + requestBytes) ∨ inBuffer c.op a

section Kept
variable {m m' byte byte' : Mem} {calls : List Call} {transfers : List (Nat × Transfer)}

theorem Kept.congr (kept : Kept m calls byte transfers)
    (bytes : ∀ c ∈ calls, ∀ a, c.Holds a → m' a = m a)
    (status : ∀ c ∈ calls, byte' (statusAddr c.page) = byte (statusAddr c.page))
    (buffer : ∀ c ∈ calls, ∀ a, inBuffer c.op a → byte' a = byte a) :
    Kept m' calls byte' transfers where
  request c member := by
    rw [← kept.request c member]
    exact readRequest_congr fun a low high =>
      bytes c member a (Or.inl ⟨low, by unfold requestBytes; omega⟩)
  status c member := by
    rw [status c member, ← kept.status c member]
    exact bytes c member _ (Or.inl ⟨Nat.le_add_right _ _, by unfold requestBytes statusAddr; omega⟩)
  delivered c member transfer moved into a inside := by
    rw [buffer c member a inside, ← kept.delivered c member transfer moved into a inside]
    exact bytes c member a (Or.inr inside)

end Kept

theorem Placement.off {q : Pointers} {calls : List Call} (placement : Placement q calls)
    (member : c ∈ calls) (holds : c.Holds a) : q.Off a 1 := by
  have page := placement.page c member
  have buffer := placement.buffer c member
  unfold Call.Holds inBuffer at holds
  unfold Pointers.Off RangeApart at page buffer ⊢
  omega

theorem Stands.kept_of_queue (stands : Stands s t) {stores : List Store}
    (clear : ∀ a, s.rings.Off a 1 → Clear stores a 1) :
    Kept (applyAll stores s.mem) t.machine.calls t.machine.mem.byte t.history.transfers := by
  refine stands.kept.congr (fun c member a holds => ?_) (fun _ _ => rfl) fun _ _ _ _ => rfl
  have off := stands.placement.off member holds
  exact applyAll_outside ((clear a off).outside le_rfl (Nat.lt_succ_self a))

theorem Stands.kept_todo (stands : Stands s t) {st : Store} (member : st ∈ s.todo) :
    Kept (st.apply s.mem) t.machine.calls t.machine.mem.byte t.history.transfers := by
  have clear : ∀ a, s.rings.Off a 1 → Clear [st] a 1 := fun a off =>
    (stands.todo_clear off.1 off.2.1).single member
  exact stands.kept_of_queue clear

/-! ## The stores of a submission -/

theorem Stands.used_todo (stands : Stands s t) {st : Store} (member : st ∈ s.todo) :
    readUsed (st.apply s.mem) s.rings = readUsed s.mem s.rings := by
  have clear : Clear [st] s.rings.used 72 := stands.todo_clear_used.single member
  exact readUsed_clear clear

/-- With the last store the call is one of those that poll. -/
theorem Stands.write_last (stands : Stands s t) (opens : Opens s t c sl idx []) :
    Stands
      { s with
        mem := (availIdxStore s.rings (idx + 1)).apply s.mem
        todo := []
        opening := none
        calls := s.calls ++ s.opening.toList } t := by
  have todo : s.todo = [availIdxStore s.rings (idx + 1)] := opens.todo
  have member : availIdxStore s.rings (idx + 1) ∈ s.todo := by
    rw [todo]
    exact List.mem_singleton_self _
  refine ⟨stands.device, ?_, ?_, stands.nextId, stands.seen, stands.jobs,
    stands.kept_todo member, stands.transfers, stands.placement, Or.inl ⟨rfl, rfl⟩⟩
  · rw [stands.bd, Shared.settled, todo]
    dsimp only [Shared.settled]
    rw [stands.used_todo member]
    rfl
  · rw [stands.calls]
    exact (List.append_nil _).symm

/-- The stores before it leave `avail.idx` alone. -/
theorem Stands.write_next (stands : Stands s t) {st : Store} {rest : List Store}
    (opens : Opens s t c sl idx (st :: rest)) :
    Stands
      { s with
        mem := st.apply s.mem
        todo := rest ++ [availIdxStore s.rings (idx + 1)] } t := by
  have todo : s.todo = st :: (rest ++ [availIdxStore s.rings (idx + 1)]) := opens.todo
  have member : st ∈ s.todo := by
    rw [todo]
    exact List.mem_cons_self
  have untouched : (readAvail (st.apply s.mem) s.rings).idx = (readAvail s.mem s.rings).idx := by
    have clear : Clear [st] (s.rings.avail + 2) 2 :=
      frontStores_clear_idx.single (opens.front st List.mem_cons_self)
    exact congrArg (BitVec.ofNat 16) (load_applyAll_clear clear s.mem)
  refine ⟨stands.device, ?_, stands.calls, stands.nextId, stands.seen, stands.jobs,
    stands.kept_todo member, stands.transfers, stands.placement, Or.inr ⟨c, sl, idx, rest, ?_⟩⟩
  · rw [stands.bd, Shared.settled, todo]
    dsimp only [Shared.settled]
    rw [stands.used_todo member]
    rfl
  · exact ⟨opens.call, opens.chain, rfl,
      fun st' later => opens.front st' (List.mem_cons_of_mem _ later),
      untouched.trans opens.index, opens.last⟩

theorem Stands.write (stands : Stands s t) (taken : s.write = some s') : Stands s' t := by
  rcases stands.opening with ⟨idle, -⟩ | ⟨c, sl, idx, front, opens⟩
  · rw [Shared.write, idle] at taken
    cases taken
  · have todo := opens.todo
    cases front with
    | nil =>
        rw [Shared.write, todo] at taken
        cases taken
        exact stands.write_last opens
    | cons st rest =>
        rw [Shared.write, todo] at taken
        cases rest with
        | nil =>
            cases taken
            exact stands.write_next opens
        | cons _ _ =>
            cases taken
            exact stands.write_next opens

end Todo

/-! ## Submitting -/

section Submit
variable {s s' : Shared} {t : Sys} {page : Nat} {op : Op}

theorem Separate.fresh (separate : Separate s page op) : Fresh s.calls page op := by
  obtain ⟨-, -, -, -, own, others⟩ := separate
  unfold RangeApart requestBytes at own
  refine ⟨?_, fun c member => ?_⟩
  · unfold inBuffer statusAddr
    omega
  · obtain ⟨pages, mine, theirs⟩ := others c member
    unfold RangeApart requestBytes at pages mine theirs
    unfold inBuffer statusAddr
    omega

theorem requestStores_inside (separate : Separate s page op) (m : Mem) {a : Nat}
    (inside : s.rings.Inside a) : applyAll (requestStores page op) m a = m a := by
  obtain ⟨-, -, off, -⟩ := separate
  have clear : Clear (requestStores page op) a 1 := by
    refine (requestStores_within page op).clear ?_
    unfold Pointers.Off RangeApart at off
    unfold Pointers.Inside at inside
    unfold RangeApart
    omega
  exact applyAll_outside (clear.outside le_rfl (Nat.lt_succ_self a))

theorem requestStores_other (separate : Separate s page op) (m : Mem) {c : Call}
    (member : c ∈ s.calls) {a : Nat} (holds : c.Holds a) :
    applyAll (requestStores page op) m a = m a := by
  obtain ⟨-, -, -, -, -, others⟩ := separate
  obtain ⟨pages, mine, -⟩ := others c member
  have clear : Clear (requestStores page op) a 1 := by
    refine (requestStores_within page op).clear ?_
    unfold RangeApart at pages mine ⊢
    unfold Call.Holds inBuffer at holds
    omega
  exact applyAll_outside (clear.outside le_rfl (Nat.lt_succ_self a))

theorem Kept.initRequest {m : Mem} {mem : Memory} {transfers : List (Nat × Transfer)}
    (kept : Kept m s.calls mem.byte transfers) (separate : Separate s page op) :
    Kept (applyAll (requestStores page op) m) s.calls (Virtio.initRequest mem page op).byte
      transfers := by
  have fresh := separate.fresh
  refine kept.congr (fun c member a holds => requestStores_other separate m member holds) ?_ ?_
  · intro c member
    exact initRequest_status (fresh.2 c member).1 op
  · intro c member a inside
    refine Function.update_of_ne ?_ _ _
    rintro rfl
    exact (fresh.2 c member).2.1 inside

theorem allocDescChain_congr {q q' : QueueState} (same : q.free = q'.free) :
    (allocDescChain q).1 = (allocDescChain q').1 ∧
      (allocDescChain q).2.free = (allocDescChain q').2.free := by
  unfold allocDescChain
  rw [same]
  generalize allocLoop (List.finRange 8) q'.free [] = result
  obtain ⟨out, free⟩ := result
  split <;> simp_all

theorem Stands.idle (stands : Stands s t) (idle : s.todo = []) : s.opening = none := by
  rcases stands.opening with ⟨-, none⟩ | ⟨c, sl, idx, front, opens⟩
  · exact none
  · have todo := opens.todo
    rw [idle] at todo
    exact absurd todo.symm (by simp)

theorem Stands.calls_idle (stands : Stands s t) (idle : s.todo = []) :
    t.machine.calls = s.calls := by
  rw [stands.calls, stands.idle idle]
  exact List.append_nil _

theorem Stands.refused (stands : Stands s t) {page : Option Nat}
    (fresh : ∀ p ∈ page, Fresh t.machine.calls p op)
    (refuses : Virtio.submit t.machine.bd t.machine.mem page op = .refused) :
    ∃ t', t.step (.submit page op) = some t' ∧ Stands s t' := by
  refine ⟨t, ?_, stands⟩
  simp only [Sys.step, Machine.step, if_pos fresh, refuses, record, Option.map_some]

theorem Stands.exhausted (stands : Stands s t) (idle : s.todo = [])
    (separate : Separate s page op) :
    Stands { s with mem := applyAll (requestStores page op) s.mem }
      ⟨{ t.machine with mem := initRequest t.machine.mem page op }, t.history⟩ := by
  have none := stands.idle idle
  have calls := stands.calls_idle idle
  obtain ⟨desc, avail, used⟩ := reads_of_inside fun a inside =>
    requestStores_inside separate s.mem (a := a) inside
  have kept := stands.kept
  rw [calls] at kept
  refine ⟨stands.device, ?_, stands.calls, stands.nextId, stands.seen, stands.jobs, ?_,
    stands.transfers, stands.placement, Or.inl ⟨idle, none⟩⟩
  · rw [stands.bd, Shared.settled, Shared.settled, idle]
    dsimp only
    rw [applyAll_nil, applyAll_nil, desc, avail, used]
  · change Kept _ t.machine.calls _ _
    rw [calls]
    exact kept.initRequest separate

theorem Placement.push {q : Pointers} {calls : List Call} (placement : Placement q calls)
    {c : Call} (page : q.Off c.page requestBytes) (buffer : q.Off c.op.buffer c.op.size.toNat)
    (own : RangeApart c.page requestBytes c.op.buffer c.op.size.toNat)
    (others : ∀ d ∈ calls, RangeApart c.page requestBytes d.page requestBytes ∧
      RangeApart c.page requestBytes d.op.buffer d.op.size.toNat ∧
      RangeApart d.page requestBytes c.op.buffer c.op.size.toNat) :
    Placement q (calls ++ [c]) where
  page d member := by
    rcases List.mem_append.mp member with old | new
    · exact placement.page d old
    · rw [List.mem_singleton.mp new]
      exact page
  buffer d member := by
    rcases List.mem_append.mp member with old | new
    · exact placement.buffer d old
    · rw [List.mem_singleton.mp new]
      exact buffer
  pages d member e member' different := by
    rcases List.mem_append.mp member with old | new
    · rcases List.mem_append.mp member' with old' | new'
      · exact placement.pages d old e old' different
      · rw [List.mem_singleton.mp new']
        exact (others d old).1.symm
    · rw [List.mem_singleton.mp new] at different ⊢
      rcases List.mem_append.mp member' with old' | new'
      · exact (others e old').1
      · rw [List.mem_singleton.mp new'] at different
        exact absurd rfl different
  mixed d member e member' := by
    rcases List.mem_append.mp member with old | new
    · rcases List.mem_append.mp member' with old' | new'
      · exact placement.mixed d old e old'
      · rw [List.mem_singleton.mp new']
        exact (others d old).2.2
    · rw [List.mem_singleton.mp new]
      rcases List.mem_append.mp member' with old' | new'
      · exact (others e old').2.1
      · rw [List.mem_singleton.mp new']
        exact own

theorem Kept.push {m byte : Mem} {calls : List Call} {transfers : List (Nat × Transfer)}
    (kept : Kept m calls byte transfers) {c : Call}
    (request : readRequest m c.page = requestOf c.op)
    (status : m (statusAddr c.page) = byte (statusAddr c.page))
    (unserved : ∀ transfer, (c.id, transfer) ∉ transfers) :
    Kept m (calls ++ [c]) byte transfers where
  request d member := by
    rcases List.mem_append.mp member with old | new
    · exact kept.request d old
    · rw [List.mem_singleton.mp new]
      exact request
  status d member := by
    rcases List.mem_append.mp member with old | new
    · exact kept.status d old
    · rw [List.mem_singleton.mp new]
      exact status
  delivered d member transfer moved := by
    rcases List.mem_append.mp member with old | new
    · exact kept.delivered d old transfer moved
    · rw [List.mem_singleton.mp new] at moved
      exact absurd moved (unserved transfer)

/-- The descriptors are taken: the exchange makes the whole submission. -/
theorem Stands.submitted (sound : Coherent t) (stands : Stands s t) (idle : s.todo = [])
    (separate : Separate s page op) (sl : Slots) :
    Stands
      { s with
        mem := applyAll (requestStores page op) s.mem
        free := setAll s.free sl.members false
        reqHead := Function.update s.reqHead sl.head (some page)
        todo := frontStores s.rings sl page op
            (readAvail (applyAll (requestStores page op) s.mem) s.rings).idx ++
          [availIdxStore s.rings
            ((readAvail (applyAll (requestStores page op) s.mem) s.rings).idx + 1)]
        opening := some ⟨s.nextId, page, op, false⟩
        nextId := s.nextId + 1 }
      ⟨{ t.machine with
          bd := { t.machine.bd with queue := claimed t.machine.bd.queue sl page op }
          mem := initRequest t.machine.mem page op
          calls := t.machine.calls ++ [⟨t.machine.nextId, page, op, false⟩]
          nextId := t.machine.nextId + 1 },
        { t.history with
          chains := t.history.chains ++ [⟨sl, t.machine.nextId, page, op⟩]
          submitted := t.history.submitted ++ [BitVec.ofNat 16 sl.head] }⟩ := by
  have calls := stands.calls_idle idle
  have kept := stands.kept
  have placement := stands.placement
  rw [calls] at kept placement
  obtain ⟨desc, avail, used⟩ := reads_of_inside fun a inside =>
    requestStores_inside separate s.mem (a := a) inside
  have old := kept.initRequest separate
  obtain ⟨low, small, page_, buffer, own, others⟩ := separate
  obtain ⟨request, status⟩ := requestStores_stored page small s.mem
  refine ⟨stands.device, ?_, ?_, congrArg (· + 1) stands.nextId, stands.seen, stands.jobs, ?_, ?_,
    ?_, Or.inr ⟨_, sl, _, _, rfl, ?_, rfl, fun _ member => member, rfl, ?_⟩⟩
  · rw [stands.bd, Shared.settled, Shared.settled, idle]
    dsimp only
    rw [readDesc_submitStores low small, readAvail_submitStores, applyAll_nil, desc, avail, used]
    rfl
  · rw [calls, stands.nextId]
    rfl
  · change Kept _ (t.machine.calls ++ _) _ _
    rw [calls]
    have pending : (initRequest t.machine.mem page op).byte (statusAddr page) = statusPending :=
      Function.update_self ..
    apply old.push (c := ⟨t.machine.nextId, page, op, false⟩) request (status.trans pending.symm)
    intro transfer moved
    exact absurd (stands.transfers _ transfer moved) (Nat.lt_irrefl _)
  · intro i transfer moved
    exact Nat.lt_succ_of_lt (stands.transfers i transfer moved)
  · change Placement s.rings (t.machine.calls ++ _)
    rw [calls]
    exact placement.push page_ buffer own others
  · rw [← stands.nextId]
    exact List.mem_append_right _ (List.mem_singleton_self _)
  · exact ⟨_, rfl, sound.inv.seen_prefix.length_le⟩

theorem Stands.fresh (stands : Stands s t) (idle : s.todo = []) (separate : Separate s page op) :
    Fresh t.machine.calls page op := by
  rw [stands.calls_idle idle]
  exact separate.fresh

theorem Stands.claim (sound : Coherent t) (stands : Stands s t) (idle : s.todo = [])
    (separate : Separate s page op) (present : s.dev ≠ none)
    (writable : ¬(s.readOnly && op.write) = true) :
    ∃ t', t.step (.submit (some page) op) = some t' ∧ Stands (s.claim page op) t' := by
  have fresh : ∀ p ∈ some page, Fresh t.machine.calls p op := by
    rintro p ⟨⟩
    exact stands.fresh idle separate
  have dev : t.machine.bd.dev ≠ none := (congrArg BlockDevice.dev stands.bd).trans_ne present
  have readOnly : t.machine.bd.readOnly = s.readOnly := congrArg BlockDevice.readOnly stands.bd
  rw [← readOnly] at writable
  have free : t.machine.bd.queue.free = s.free := congrArg (·.queue.free) stands.bd
  have same := allocDescChain_congr
    (q := (Shared.view { s with mem := applyAll (requestStores page op) s.mem }
      s.rings).bd.queue) free.symm
  unfold Shared.claim
  dsimp only
  generalize allocDescChain _ = raw at same ⊢
  obtain ⟨out, q⟩ := raw
  obtain ⟨chosen, left⟩ := same
  rcases allocDescChain_cases t.machine.bd.queue with ⟨sl, result, -, -⟩ | ⟨result, -⟩
  all_goals
    rw [result] at chosen left
    dsimp only at chosen left
    subst chosen
    dsimp only
    rw [left, free]
  · refine ⟨_, ?_, stands.submitted sound idle separate sl⟩
    have outcome : Virtio.submit t.machine.bd t.machine.mem (some page) op =
        .submitted { t.machine.bd with queue := claimed t.machine.bd.queue sl page op }
          (initRequest t.machine.mem page op) page sl := by
      simp only [Virtio.submit, dev, writable, if_false, result]
      rfl
    simp only [Sys.step, Machine.step, if_pos fresh, outcome, record, Option.map_some]
  · refine ⟨_, ?_, stands.exhausted idle separate⟩
    have outcome : Virtio.submit t.machine.bd t.machine.mem (some page) op =
        .noDescriptors t.machine.bd (initRequest t.machine.mem page op) := by
      simp only [Virtio.submit, dev, writable, if_false, result]
      rfl
    simp only [Sys.step, Machine.step, if_pos fresh, outcome, record, Option.map_some]

theorem Stands.submit (sound : Coherent t) (stands : Stands s t) {page : Option Nat}
    (taken : s.submit page op = some s') :
    ∃ t', t.step (.submit page op) = some t' ∧ Stands s' t' := by
  have dev : t.machine.bd.dev = s.dev := congrArg BlockDevice.dev stands.bd
  have readOnly : t.machine.bd.readOnly = s.readOnly := congrArg BlockDevice.readOnly stands.bd
  unfold Shared.submit at taken
  by_cases busy : s.todo = []
  · rw [if_neg (not_not.mpr busy)] at taken
    split_ifs at taken with separate absent write
    all_goals
      have fresh : ∀ p ∈ page, Fresh t.machine.calls p op := fun p given =>
        stands.fresh busy (separate p given)
    · cases taken
      exact stands.refused fresh (by simp [Virtio.submit, dev, absent])
    · cases taken
      exact stands.refused fresh (by simp [Virtio.submit, readOnly, write])
    · cases page with
      | none =>
          cases taken
          exact stands.refused fresh (by simp [Virtio.submit])
      | some page =>
          cases taken
          exact stands.claim sound busy (separate page rfl) absent write
  · rw [if_pos busy] at taken
    cases taken

end Submit

end Vesper.Virtio
