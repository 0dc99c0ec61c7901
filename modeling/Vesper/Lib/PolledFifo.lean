import Mathlib.Data.Finset.Card
import Mathlib.Tactic

/-!
# A FIFO shared by polling writers

Several writers share a queue of bounded depth.  Each waits until it sees the queue empty and
then writes one entry, but others may write between the look and the write.  An entry written
to a full queue is lost.  The writers that have seen the queue empty and not written yet are
`ready`: together with the entries in the queue they never outnumber the writers.
-/

set_option autoImplicit false

namespace Vesper.Lib.PolledFifo

structure Port (ι α : Type) where
  queue : List (ι × α)
  sent : List (ι × α)
  lost : List (ι × α)
  ready : Finset ι

variable {ι α : Type}

namespace Port

def empty : Port ι α := ⟨[], [], [], ∅⟩

def shift (p : Port ι α) : Port ι α :=
  match p.queue with
  | [] => p
  | e :: rest => { p with queue := rest, sent := p.sent ++ [e] }

/-- There is a place in the queue for every writer that may still write. -/
structure Fits (p : Port ι α) (writers : Finset ι) : Prop where
  known : p.ready ⊆ writers
  room : p.queue.length + p.ready.card ≤ writers.card

variable {p : Port ι α} {writers : Finset ι} {i : ι} {depth : Nat}

theorem Fits.empty (writers : Finset ι) : (Port.empty : Port ι α).Fits writers :=
  ⟨Finset.empty_subset _, Nat.zero_le _⟩

theorem Fits.shift (fits : p.Fits writers) : p.shift.Fits writers := by
  have room := fits.room
  rw [Port.shift]
  split
  · exact fits
  · next e rest queue =>
      rw [queue, List.length_cons] at room
      exact ⟨fits.known, by dsimp only; omega⟩

/-- A ready writer finds a place if the queue has one for every writer. -/
theorem Fits.room_of_ready (fits : p.Fits writers) (ready : i ∈ p.ready)
    (deep : writers.card ≤ depth) : p.queue.length < depth := by
  have room := fits.room
  have positive := Finset.card_pos.mpr ⟨i, ready⟩
  omega

variable [DecidableEq ι]

def permit (p : Port ι α) (i : ι) : Port ι α := { p with ready := insert i p.ready }

def push (depth : Nat) (p : Port ι α) (i : ι) (x : α) : Port ι α :=
  if p.queue.length < depth then
    { p with queue := p.queue ++ [(i, x)], ready := p.ready.erase i }
  else { p with lost := p.lost ++ [(i, x)], ready := p.ready.erase i }

/-- What writer `i` has got through, in order. -/
def written (p : Port ι α) (i : ι) : List α :=
  ((p.sent ++ p.queue).filter fun e => e.1 = i).map Prod.snd

theorem Fits.permit (fits : p.Fits writers) (member : i ∈ writers) (drained : p.queue = []) :
    (p.permit i).Fits writers := by
  have known : insert i p.ready ⊆ writers := Finset.insert_subset member fits.known
  refine ⟨known, ?_⟩
  rw [Port.permit, drained, List.length_nil, Nat.zero_add]
  exact Finset.card_le_card known

theorem Fits.push (fits : p.Fits writers) (ready : i ∈ p.ready) (x : α) :
    (p.push depth i x).Fits writers := by
  have known : p.ready.erase i ⊆ writers := (Finset.erase_subset _ _).trans fits.known
  have fewer := Finset.card_erase_add_one ready
  have room := fits.room
  rw [Port.push]
  split_ifs
  · refine ⟨known, ?_⟩
    rw [List.length_append, List.length_singleton]
    dsimp only
    omega
  · refine ⟨known, ?_⟩
    dsimp only
    omega

@[simp] theorem push_sent (depth : Nat) (p : Port ι α) (i : ι) (x : α) :
    (p.push depth i x).sent = p.sent := by
  rw [push]
  split_ifs
  · rfl
  · rfl

@[simp] theorem push_ready (depth : Nat) (p : Port ι α) (i : ι) (x : α) :
    (p.push depth i x).ready = p.ready.erase i := by
  rw [push]
  split_ifs
  · rfl
  · rfl

theorem push_queue_length (short : p.queue.length ≤ depth) (i : ι) (x : α) :
    (p.push depth i x).queue.length ≤ depth := by
  rw [push]
  split_ifs with room
  · rw [List.length_append]
    exact room
  · exact short

theorem written_push_room (room : p.queue.length < depth) (i j : ι) (x : α) :
    (p.push depth i x).written j = p.written j ++ if i = j then [x] else [] := by
  rw [Port.push, if_pos room, written, written, ← List.append_assoc, List.filter_append,
    List.map_append]
  congr 1
  split_ifs with same
  · simp [same]
  · simp [same]

theorem written_shift (p : Port ι α) (j : ι) : p.shift.written j = p.written j := by
  rw [Port.shift]
  split
  · rfl
  · next e rest queue => rw [written, written, queue, List.append_assoc, List.singleton_append]

theorem mem_of_written {x : α} (through : x ∈ p.written i) :
    i ∈ (p.sent ++ p.queue).map Prod.fst := by
  obtain ⟨e, member, _⟩ := List.mem_map.mp through
  obtain ⟨entry, own⟩ := List.mem_filter.mp member
  exact List.mem_map.mpr ⟨e, entry, of_decide_eq_true own⟩

end Port

end Vesper.Lib.PolledFifo
