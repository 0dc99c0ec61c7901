import Vesper.Lib.PolledFifo
import Vesper.Lib.Transition

/-!
# Printing from several contexts

`Uart::put` (`drivers/uart/mod.rs`) polls the line status until the transmitter is empty and
then writes one byte.  Threads are preempted between the two and the trap handler prints as
well, so another context may write in between.  Whether bytes get lost depends on the
transmit FIFO that `Uart::init` switches on: with a place for every context that prints, each
context's output goes out complete and in order; with fewer places it need not.
-/

set_option autoImplicit false

namespace Vesper.Console

open Vesper.Lib
open Vesper.Lib.PolledFifo

/-! ## The registers -/

def lsrDataReady : BitVec 8 := 1 <<< 0

def lsrThrEmpty : BitVec 8 := 1 <<< 5

def lcr8Bits : BitVec 8 := 0b11

def fcrEnable : BitVec 8 := 0b1

def ierRxEnable : BitVec 8 := 0b1

structure UartRegs where
  lcr : BitVec 8
  fcr : BitVec 8
  ier : BitVec 8

def uartInit (_ : UartRegs) : UartRegs := ⟨lcr8Bits, fcrEnable, ierRxEnable⟩

/-- Places of the transmitter: one holding register, or the FIFO. -/
def txDepth (regs : UartRegs) : Nat := if regs.fcr &&& fcrEnable = 0 then 1 else 16

/-! ## The contexts -/

variable {ι : Type}

/-- `text` is what is left of the string a context is in `write_str` with.  Nothing reads
`asked`, the bytes a context was ever told to print. -/
structure Sys (ι : Type) where
  port : Port ι (BitVec 8)
  text : ι → List (BitVec 8)
  asked : ι → List (BitVec 8)

/-- The line status register: bit 5 says that nothing waits for transmission. -/
def lineStatus (port : Port ι (BitVec 8)) (dataReady : Bool) : BitVec 8 :=
  (if dataReady then lsrDataReady else 0) ||| (if port.queue = [] then lsrThrEmpty else 0)

inductive Action (ι : Type) where
  | print (i : ι) (text : List (BitVec 8))
  /-- one round of the loop of `put` -/
  | poll (i : ι) (dataReady : Bool)
  /-- the write of `put` -/
  | store (i : ι)
  /-- the device sends a byte -/
  | shift

def step [DecidableEq ι] (depth : Nat) (s : Sys ι) : Action ι → Option (Sys ι)
  | .print i text =>
      if s.text i = [] then
        some { s with
          text := Function.update s.text i text
          asked := Function.update s.asked i (s.asked i ++ text) }
      else none
  | .poll i dataReady =>
      if s.text i = [] ∨ i ∈ s.port.ready then none
      else if lineStatus s.port dataReady &&& lsrThrEmpty = 0 then some s
      else some { s with port := s.port.permit i }
  | .store i =>
      match s.text i with
      | [] => none
      | byte :: rest =>
          if i ∈ s.port.ready then
            some { s with
              port := s.port.push depth i byte
              text := Function.update s.text i rest }
          else none
  | .shift => if s.port.queue = [] then none else some { s with port := s.port.shift }

def silent : Sys ι := ⟨Port.empty, fun _ => [], fun _ => []⟩

def transmit (ι : Type) [DecidableEq ι] (regs : UartRegs) : System where
  State := Sys ι
  Action := Action ι
  init s := s = silent
  step := step (txDepth regs)

theorem lineStatus_empty (port : Port ι (BitVec 8)) (dataReady : Bool) :
    lineStatus port dataReady &&& lsrThrEmpty = 0 ↔ port.queue ≠ [] := by
  unfold lineStatus
  by_cases drained : port.queue = []
  · rw [if_pos drained]
    cases dataReady <;> simp [drained, lsrDataReady, lsrThrEmpty]
  · rw [if_neg drained]
    cases dataReady <;> simp [drained, lsrDataReady, lsrThrEmpty]

variable [DecidableEq ι]

theorem step_cases {depth : Nat} {s s' : Sys ι} {a : Action ι}
    (taken : step depth s a = some s') :
    (∃ i text, s.text i = [] ∧ s' = { s with
      text := Function.update s.text i text
      asked := Function.update s.asked i (s.asked i ++ text) }) ∨
    s' = s ∨
    (∃ i, s.text i ≠ [] ∧ s.port.queue = [] ∧ s' = { s with port := s.port.permit i }) ∨
    (∃ i byte rest, s.text i = byte :: rest ∧ i ∈ s.port.ready ∧ s' = { s with
      port := s.port.push depth i byte
      text := Function.update s.text i rest }) ∨
    s' = { s with port := s.port.shift } := by
  cases a with
  | print i text =>
      rw [step] at taken
      split_ifs at taken with done
      cases taken
      exact Or.inl ⟨i, text, done, rfl⟩
  | poll i dataReady =>
      rw [step] at taken
      split_ifs at taken with busy waiting
      · cases taken
        exact Or.inr (Or.inl rfl)
      · cases taken
        rw [lineStatus_empty, not_not] at waiting
        exact Or.inr (Or.inr (Or.inl ⟨i, fun done => busy (Or.inl done), waiting, rfl⟩))
  | store i =>
      rw [step] at taken
      split at taken
      · cases taken
      · next byte rest text =>
          split_ifs at taken with ready
          cases taken
          exact Or.inr (Or.inr (Or.inr (Or.inl ⟨i, byte, rest, text, ready, rfl⟩)))
  | shift =>
      rw [step] at taken
      split_ifs at taken
      cases taken
      exact Or.inr (Or.inr (Or.inr (Or.inr rfl)))

/-! ## Enough places -/

section Enough
variable [Fintype ι] {depth : Nat} {s s' : Sys ι}

structure Complete (s : Sys ι) : Prop where
  fits : s.port.Fits Finset.univ
  whole : ∀ i, s.port.written i ++ s.text i = s.asked i

theorem Complete.step (deep : Fintype.card ι ≤ depth) {a : Action ι} (inv : Complete s)
    (taken : step depth s a = some s') : Complete s' := by
  rcases step_cases taken with ⟨i, text, done, rfl⟩ | rfl | ⟨i, _, drained, rfl⟩ |
    ⟨i, byte, rest, text, ready, rfl⟩ | rfl
  · refine ⟨inv.fits, fun j => ?_⟩
    by_cases same : j = i
    · subst same
      have whole := inv.whole j
      rw [done, List.append_nil] at whole
      simp only [Function.update_self, whole]
    · simp only [Function.update_of_ne same]
      exact inv.whole j
  · exact inv
  · exact ⟨inv.fits.permit (Finset.mem_univ i) drained, inv.whole⟩
  · refine ⟨inv.fits.push ready byte, fun j => ?_⟩
    have room := inv.fits.room_of_ready ready (Finset.card_univ.trans_le deep)
    dsimp only
    rw [Port.written_push_room room, ← inv.whole j]
    by_cases same : j = i
    · subst same
      rw [if_pos rfl, Function.update_self, text, List.append_assoc, List.singleton_append]
    · rw [if_neg (Ne.symm same), Function.update_of_ne same, List.append_nil]
  · refine ⟨inv.fits.shift, fun j => ?_⟩
    dsimp only
    rw [Port.written_shift]
    exact inv.whole j

theorem reach_complete {regs : UartRegs} (deep : Fintype.card ι ≤ txDepth regs) {s : Sys ι}
    (reached : (transmit ι regs).Reach s) : Complete s := by
  refine reached.invariant ?_ ?_
  · intro s initial
    subst initial
    exact ⟨Port.Fits.empty _, fun _ => rfl⟩
  · intro s a s' inv taken
    exact inv.step deep taken

end Enough

/-! ## Too few places -/

section TooFew
variable {regs : UartRegs}

/-- Every context in `cs` wants to print one byte; those in `ready` have seen the
transmitter empty. -/
def poised (cs : List ι) (ready : Finset ι) : Sys ι where
  port := { Port.empty with ready := ready }
  text := fun i => if i ∈ cs then [0] else []
  asked := fun i => if i ∈ cs then [0] else []

theorem reach_asked (cs : List ι) (distinct : cs.Nodup) :
    (transmit ι regs).Reach (poised cs ∅) := by
  induction cs with
  | nil => exact .start rfl
  | cons c rest ih =>
      obtain ⟨fresh, distinct⟩ := List.nodup_cons.mp distinct
      refine .next (.print c [0]) (ih distinct) ?_
      simp only [transmit, step, poised, if_neg fresh, if_true]
      congr 2
      all_goals
        funext j
        by_cases same : j = c
        · simp [same]
        · simp [same]

theorem reach_poised {cs : List ι} (distinct : cs.Nodup) (seen : List ι)
    (known : ∀ i ∈ seen, i ∈ cs) (once : seen.Nodup) :
    (transmit ι regs).Reach (poised cs seen.toFinset) := by
  induction seen with
  | nil => exact reach_asked cs distinct
  | cons c rest ih =>
      obtain ⟨fresh, once⟩ := List.nodup_cons.mp once
      have before := ih (fun i member => known i (List.mem_cons_of_mem _ member)) once
      refine .next (.poll c false) before ?_
      have wants : (poised cs rest.toFinset).text c ≠ [] := by
        simp [poised, known c List.mem_cons_self]
      have waits : c ∉ (poised cs rest.toFinset).port.ready := by
        simpa [poised] using fresh
      have drained : ¬ lineStatus (poised cs rest.toFinset).port false &&& lsrThrEmpty = 0 := by
        rw [lineStatus_empty, not_not]
        rfl
      simp only [transmit, step, if_neg (not_or.mpr ⟨wants, waits⟩), if_neg drained]
      simp [poised, Port.permit, List.toFinset_cons]

theorem reach_stored {s : Sys ι} (reached : (transmit ι regs).Reach s)
    (unsent : s.port.sent = []) (short : s.port.queue.length ≤ txDepth regs) (cs : List ι)
    (distinct : cs.Nodup) (ready : ∀ i ∈ cs, i ∈ s.port.ready ∧ s.text i = [0]) :
    ∃ s', (transmit ι regs).Reach s' ∧ s'.asked = s.asked ∧ (∀ i ∈ cs, s'.text i = []) ∧
      (∀ i, s.text i = [] → s'.text i = []) ∧
      s'.port.sent = [] ∧ s'.port.queue.length ≤ txDepth regs := by
  induction cs generalizing s with
  | nil => exact ⟨s, reached, rfl, by simp, fun _ done => done, unsent, short⟩
  | cons c rest ih =>
      obtain ⟨fresh, distinct⟩ := List.nodup_cons.mp distinct
      obtain ⟨isReady, text⟩ := ready c List.mem_cons_self
      have stored : (transmit ι regs).Reach
          { s with
            port := s.port.push (txDepth regs) c 0
            text := Function.update s.text c [] } := by
        refine .next (.store c) reached ?_
        simp only [transmit, step, text, if_pos isReady]
      have others : ∀ i ∈ rest, i ∈ (s.port.push (txDepth regs) c 0).ready ∧
          Function.update s.text c [] i = [0] := by
        intro i member
        have away : i ≠ c := fun same => fresh (same ▸ member)
        obtain ⟨stillReady, stillText⟩ := ready i (List.mem_cons_of_mem _ member)
        rw [Port.push_ready, Function.update_of_ne away]
        exact ⟨Finset.mem_erase.mpr ⟨away, stillReady⟩, stillText⟩
      obtain ⟨s', reached', asked, done, kept, unsent', short'⟩ := ih stored
        ((Port.push_sent _ _ _ _).trans unsent) (Port.push_queue_length short c 0) distinct others
      refine ⟨s', reached', asked, fun i member => ?_, fun i finished => ?_, unsent', short'⟩
      · rcases List.mem_cons.mp member with same | later
        · exact kept i (by rw [same]; exact Function.update_self ..)
        · exact done i later
      · by_cases same : i = c
        · exact kept i (by rw [same]; exact Function.update_self ..)
        · exact kept i (by dsimp only; rw [Function.update_of_ne same, finished])

/-- All contexts poll an empty transmitter and then write: with fewer places than contexts
someone's byte is missing. -/
theorem exists_incomplete [Fintype ι] (shallow : txDepth regs < Fintype.card ι) :
    ∃ s, (transmit ι regs).Reach s ∧ ∃ i, s.port.written i ++ s.text i ≠ s.asked i := by
  have distinct : (Finset.univ : Finset ι).toList.Nodup := Finset.nodup_toList _
  have everyone (i : ι) : i ∈ (Finset.univ : Finset ι).toList := by simp
  have poised : (transmit ι regs).Reach (poised _ (Finset.univ : Finset ι).toList.toFinset) :=
    reach_poised distinct _ (fun _ member => member) distinct
  obtain ⟨s, reached, asked, done, -, unsent, short⟩ := reach_stored poised rfl (Nat.zero_le _)
    _ distinct fun i member => ⟨List.mem_toFinset.mpr member, if_pos member⟩
  refine ⟨s, reached, ?_⟩
  by_contra complete
  push Not at complete
  have covers : (Finset.univ : Finset ι) ⊆ (s.port.queue.map Prod.fst).toFinset := by
    intro i _
    have own := complete i
    rw [done i (everyone i), asked, List.append_nil] at own
    have through : (0 : BitVec 8) ∈ s.port.written i := by
      rw [own]
      simp [Console.poised]
    have entry := Port.mem_of_written through
    rw [unsent, List.nil_append] at entry
    exact List.mem_toFinset.mpr entry
  have count := (Finset.card_le_card covers).trans (List.toFinset_card_le _)
  rw [Finset.card_univ, List.length_map] at count
  omega

end TooFew

/-- Whatever the order of polls, writes and transmissions: each context's output goes out
complete and in order exactly if the transmitter has a place for every context. -/
theorem console_output_complete_iff (ι : Type) [DecidableEq ι] [Fintype ι] (regs : UartRegs) :
    (∀ s, (transmit ι regs).Reach s → ∀ i, s.port.written i ++ s.text i = s.asked i) ↔
      Fintype.card ι ≤ txDepth regs := by
  constructor
  · intro complete
    by_contra shallow
    obtain ⟨s, reached, i, missing⟩ := exists_incomplete (not_le.mp shallow)
    exact missing (complete s reached i)
  · intro deep s reached
    exact (reach_complete deep reached).whole

/-- After `Uart::init` sixteen contexts may print, the trap handler among them. -/
example (regs : UartRegs) : txDepth (uartInit regs) = 16 := by simp [txDepth, uartInit, fcrEnable]

end Vesper.Console
