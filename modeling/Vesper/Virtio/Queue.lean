import Mathlib.Tactic
import Vesper.Lib.WrapRing

/-!
# The virtio block queue

The queue half of `drivers/virtio/device.rs`: descriptors, the two rings, the free table and
the request heads, with `alloc_desc_chain`, `free_desc_chain`, the part of `block_op` up to
the queue notification, and `pending`.

What the queue pointers refer to is kept inside `QueueState`.  A request page is addressed by
its first byte: the header stands at offset 0 and the status byte at offset 24.  Headers and
buffer pointers are typed; the status byte and the callers' buffers are bytes.
-/

set_option autoImplicit false

namespace Vesper.Virtio

open Vesper.Lib.WrapRing (slot)

abbrev Index := Fin 8

instance ringNonempty : NeZero 8 := ⟨by decide⟩

def mmioVirtioStart : Nat := 0x10001000
def mmioVirtioEnd : Nat := 0x10008000
def mmioVirtioStride : Nat := 0x1000

def descNext : BitVec 16 := 1
def descWrite : BitVec 16 := 2
def blkIn : BitVec 32 := 0
def blkOut : BitVec 32 := 1
def statusPending : BitVec 8 := 0xff

structure Descriptor where
  addr : Nat
  len : BitVec 32
  flags : BitVec 16
  next : BitVec 16
  deriving DecidableEq

structure AvailRing where
  idx : BitVec 16
  ring : Index → BitVec 16

structure UsedElem where
  id : BitVec 32
  len : BitVec 32
  deriving DecidableEq

structure UsedRing where
  idx : BitVec 16
  ring : Index → UsedElem

structure QueueState where
  desc : Index → Descriptor
  avail : AvailRing
  used : UsedRing
  free : Index → Bool
  reqHead : Index → Option Nat

structure BlockDevice where
  dev : Option Nat
  queue : QueueState
  ackUsedIdx : BitVec 16
  readOnly : Bool

structure Header where
  blktype : BitVec 32
  reserved : BitVec 32
  sector : BitVec 64
  deriving DecidableEq

structure Request where
  header : Header
  data : Nat
  deriving DecidableEq

structure Memory where
  request : Nat → Request
  byte : Nat → BitVec 8

def statusAddr (page : Nat) : Nat :=
  page + 24

/-! ## Descriptor chains -/

structure Slots where
  head : Index
  data : Index
  stat : Index
  deriving DecidableEq

def Slots.members (sl : Slots) : List Index :=
  [sl.head, sl.data, sl.stat]

def setAll (free : Index → Bool) (indices : List Index) (value : Bool) : Index → Bool :=
  indices.foldl (fun table i => Function.update table i value) free

/-- The scan of `alloc_desc_chain`: a free descriptor is taken as it is met, and what was
taken is given back when the table ends before the third. -/
def allocLoop : List Index → (Index → Bool) → List Index → Option (List Index) × (Index → Bool)
  | [], free, out => (none, setAll free out true)
  | i :: rest, free, out =>
    if free i then
      let free' := Function.update free i false
      let out' := out ++ [i]
      if out'.length = 3 then (some out', free') else allocLoop rest free' out'
    else allocLoop rest free out

def allocDescChain (q : QueueState) : Option Slots × QueueState :=
  match allocLoop (List.finRange 8) q.free [] with
  | (some [head, data, stat], free) => (some ⟨head, data, stat⟩, { q with free := free })
  | (_, free) => (none, { q with free := free })

/-- How `free_desc_chain` ends: normally, by the bounds check of `queue.free[idx]`, or not
within the given number of rounds. -/
inductive Freed where
  | done (free : Index → Bool)
  | outOfRange
  | unfinished

def freeDescChain (desc : Index → Descriptor) : Nat → (Index → Bool) → Nat → Freed
  | 0, _, _ => .unfinished
  | rounds + 1, free, idx =>
    if inside : idx < 8 then
      let free' := Function.update free ⟨idx, inside⟩ true
      let d := desc ⟨idx, inside⟩
      if d.flags &&& descNext = 0 then .done free'
      else freeDescChain desc rounds free' d.next.toNat
    else .outOfRange

/-! ## The driver -/

structure Op where
  buffer : Nat
  size : BitVec 32
  offset : BitVec 64
  write : Bool
  deriving DecidableEq

def requestOf (op : Op) : Request :=
  { header :=
      { blktype := if op.write then blkOut else blkIn
        reserved := 0
        sector := op.offset / 512 }
    data := op.buffer }

def initRequest (mem : Memory) (page : Nat) (op : Op) : Memory :=
  { request := Function.update mem.request page (requestOf op)
    byte := Function.update mem.byte (statusAddr page) statusPending }

def headDesc (sl : Slots) (page : Nat) : Descriptor :=
  { addr := page, len := 16, flags := descNext, next := BitVec.ofNat 16 sl.data }

def dataDesc (sl : Slots) (op : Op) : Descriptor :=
  { addr := op.buffer, len := op.size,
    flags := descNext ||| (if op.write then 0 else descWrite), next := BitVec.ofNat 16 sl.stat }

def statusDesc (page : Nat) : Descriptor :=
  { addr := statusAddr page, len := 1, flags := descWrite, next := 0 }

def writeChain (q : QueueState) (sl : Slots) (page : Nat) (op : Op) : QueueState :=
  { q with
    desc := Function.update (Function.update (Function.update q.desc sl.head (headDesc sl page))
      sl.data (dataDesc sl op)) sl.stat (statusDesc page)
    reqHead := Function.update q.reqHead sl.head (some page) }

def expose (q : QueueState) (head : Index) : QueueState :=
  { q with
    avail :=
      { ring := Function.update q.avail.ring (slot 8 q.avail.idx) (BitVec.ofNat 16 head)
        idx := q.avail.idx + 1 } }

/-- `block_op` up to the queue notification; `page` is what `alloc_request` yields.  In the
first two cases the call has already returned false. -/
inductive Submission where
  | refused
  | noDescriptors (bd : BlockDevice) (mem : Memory)
  | submitted (bd : BlockDevice) (mem : Memory) (page : Nat) (sl : Slots)

def submit (bd : BlockDevice) (mem : Memory) (page : Option Nat) (op : Op) : Submission :=
  if bd.dev = none then .refused
  else if bd.readOnly && op.write then .refused
  else
    match page with
    | none => .refused
    | some page =>
      let mem := initRequest mem page op
      match allocDescChain bd.queue with
      | (none, q) => .noDescriptors { bd with queue := q } mem
      | (some sl, q) =>
        .submitted { bd with queue := expose (writeChain q sl page op) sl.head } mem page sl

/-- One round of `pending`, after the test `ack_used_idx != used.idx`.  No result means that
`free_desc_chain` panicked or goes round for ever: eight rounds visit every descriptor. -/
def pendingStep (bd : BlockDevice) : Option BlockDevice :=
  let elem := bd.queue.used.ring (slot 8 bd.ackUsedIdx)
  let ack := bd.ackUsedIdx + 1
  let head := elem.id.toNat
  if inside : head < 8 then
    let reqHead := Function.update bd.queue.reqHead ⟨head, inside⟩ none
    match freeDescChain bd.queue.desc 8 bd.queue.free head with
    | .done free =>
      some { bd with queue := { bd.queue with reqHead := reqHead, free := free },
                     ackUsedIdx := ack }
    | .outOfRange => none
    | .unfinished => none
  else some { bd with ackUsedIdx := ack }

def pending : Nat → BlockDevice → Option BlockDevice
  | 0, _ => none
  | rounds + 1, bd =>
    if bd.ackUsedIdx = bd.queue.used.idx then some bd
    else (pendingStep bd).bind (pending rounds)

/-! ## What the chain operations do -/

theorem setAll_apply (free : Index → Bool) (indices : List Index) (value : Bool) (i : Index) :
    setAll free indices value i = if i ∈ indices then value else free i := by
  induction indices generalizing free with
  | nil => simp [setAll]
  | cons j rest ih =>
      have unrolled : setAll free (j :: rest) value
          = setAll (Function.update free j value) rest value := rfl
      rw [unrolled, ih]
      by_cases member : i ∈ rest
      · simp [member]
      · by_cases same : i = j
        · simp [same]
        · simp [member, same]

theorem allocLoop_cases (is : List Index) (free : Index → Bool) (out : List Index)
    (short : out.length < 3) :
    ∃ got : List Index, got.Sublist is ∧ (∀ i ∈ got, free i = true) ∧
      ((allocLoop is free out = (some (out ++ got), setAll free got false) ∧
          (out ++ got).length = 3) ∨
        (allocLoop is free out = (none, setAll (setAll free got false) (out ++ got) true) ∧
          (out ++ got).length < 3 ∧ ∀ i ∈ is, free i = true → i ∈ got)) := by
  induction is generalizing free out with
  | nil =>
      refine ⟨[], by simp, by simp, Or.inr ⟨?_, by simpa using short, by simp⟩⟩
      simp [allocLoop, setAll]
  | cons i rest ih =>
      cases available : free i with
      | false =>
          obtain ⟨got, sub, were, outcome⟩ := ih free out short
          refine ⟨got, sub.cons i, were, ?_⟩
          have skip : allocLoop (i :: rest) free out = allocLoop rest free out := by
            simp [allocLoop, available]
          rw [skip]
          refine outcome.imp_right fun failed => ⟨failed.1, failed.2.1, ?_⟩
          intro j member isFree
          rcases List.mem_cons.mp member with rfl | later
          · simp [available] at isFree
          · exact failed.2.2 j later isFree
      | true =>
          by_cases third : (out ++ [i]).length = 3
          · refine ⟨[i], by simp, by simpa using available, Or.inl ⟨?_, third⟩⟩
            have third' : out.length + 1 = 3 := by simpa using third
            simp [allocLoop, available, third', setAll]
          · have more : (out ++ [i]).length < 3 := by
              simp only [List.length_append, List.length_singleton] at third ⊢
              omega
            obtain ⟨got, sub, were, outcome⟩ := ih (Function.update free i false) (out ++ [i]) more
            have step : allocLoop (i :: rest) free out
                = allocLoop rest (Function.update free i false) (out ++ [i]) := by
              have third' : ¬out.length + 1 = 3 := by simpa using third
              simp [allocLoop, available, third']
            have fresh : ∀ j ∈ got, j ≠ i ∧ free j = true := by
              intro j member
              have := were j member
              by_cases same : j = i
              · simp [same] at this
              · exact ⟨same, by simpa [same] using this⟩
            refine ⟨i :: got, sub.cons_cons i, ?_, ?_⟩
            · intro j member
              rcases List.mem_cons.mp member with rfl | later
              · exact available
              · exact (fresh j later).2
            · rw [step]
              simp only [List.append_assoc, List.singleton_append] at outcome
              refine outcome.imp_right fun failed => ⟨failed.1, failed.2.1, ?_⟩
              intro j member isFree
              by_cases same : j = i
              · simp [same]
              · rcases List.mem_cons.mp member with first | later
                · exact absurd first same
                · have := failed.2.2 j later (by simpa [same] using isFree)
                  simp [this]

/-- `alloc_desc_chain` takes three distinct free descriptors, or finds fewer than three and
leaves the queue as it was. -/
theorem allocDescChain_cases (q : QueueState) :
    (∃ sl : Slots, allocDescChain q = (some sl, { q with free := setAll q.free sl.members false }) ∧
      sl.members.Nodup ∧ ∀ i ∈ sl.members, q.free i = true) ∨
    (allocDescChain q = (none, q) ∧
      ∃ got : List Index, got.length < 3 ∧ ∀ i, q.free i = true → i ∈ got) := by
  obtain ⟨got, sub, were, outcome⟩ := allocLoop_cases (List.finRange 8) q.free [] (by simp)
  have distinct : got.Nodup := (List.nodup_finRange 8).sublist sub
  simp only [List.nil_append] at outcome
  rcases outcome with ⟨result, three⟩ | ⟨result, short, all⟩
  · obtain ⟨head, data, stat, rfl⟩ := List.length_eq_three.mp three
    exact Or.inl ⟨⟨head, data, stat⟩, by simp [allocDescChain, result, Slots.members],
      distinct, were⟩
  · refine Or.inr ⟨?_, got, short, fun i isFree => all i (List.mem_finRange i) isFree⟩
    have restored : setAll (setAll q.free got false) got true = q.free := by
      funext i
      simp only [setAll_apply]
      by_cases member : i ∈ got
      · simp [member, were i member]
      · simp [member]
    simp [allocDescChain, result, restored]

/-- The descriptor table holds the chain of a request: header, data, status. -/
structure Stored (desc : Index → Descriptor) (sl : Slots) (page : Nat) (op : Op) : Prop where
  head : desc sl.head = headDesc sl page
  data : desc sl.data = dataDesc sl op
  stat : desc sl.stat = statusDesc page

theorem dataDesc_continues (sl : Slots) (op : Op) : (dataDesc sl op).flags &&& descNext ≠ 0 := by
  cases chosen : op.write <;> simp [dataDesc, chosen, descNext, descWrite]

theorem statusDesc_ends (page : Nat) : (statusDesc page).flags &&& descNext = 0 := by
  simp [statusDesc, descNext, descWrite]

theorem ofNat_index (i : Index) : (BitVec.ofNat 16 i).toNat = i := by
  simp only [BitVec.toNat_ofNat]
  omega

theorem headDesc_next (sl : Slots) (page : Nat) : (headDesc sl page).next.toNat = sl.data :=
  ofNat_index sl.data

theorem dataDesc_next (sl : Slots) (op : Op) : (dataDesc sl op).next.toNat = sl.stat :=
  ofNat_index sl.stat

theorem freeDescChain_stored {desc : Index → Descriptor} {sl : Slots} {page : Nat} {op : Op}
    (stored : Stored desc sl page op) (rounds : Nat) (free : Index → Bool) :
    freeDescChain desc (rounds + 3) free sl.head = .done (setAll free sl.members true) := by
  have goes : (headDesc sl page).flags &&& descNext ≠ 0 := by simp [headDesc, descNext]
  rw [freeDescChain, dif_pos sl.head.isLt]
  simp only [stored.head, goes, if_false, headDesc_next]
  rw [freeDescChain, dif_pos sl.data.isLt]
  simp only [stored.data, dataDesc_continues, if_false, dataDesc_next]
  rw [freeDescChain, dif_pos sl.stat.isLt]
  simp only [stored.stat, statusDesc_ends, if_true]
  rfl

end Vesper.Virtio
