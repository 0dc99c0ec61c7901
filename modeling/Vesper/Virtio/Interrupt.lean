import Mathlib.Tactic
import Vesper.Lib.Transition
import Vesper.Virtio.Exchange

/-!
# The interrupt handler and the device

`pending_by_irq` reads `InterruptStatus`, drains the used ring and acknowledges what it
read, in this order.  The device publishes used elements and sets bit 0 of the status for
them afterwards, the oldest first; `owed` counts the elements it has yet to set the bit for
and `late` those it has published since the drain found the ring empty.  An element whose
bit is set between that last look at `used.idx` and the acknowledgement has its bit cleared
and stays in the ring: no interrupt announces it any more.
-/

set_option autoImplicit false

namespace Vesper.Virtio.Interrupt

open Vesper.Lib (System)

def mmioIrqBase : Nat := 1

def maxVirtioDevices : Nat := 8

def slotOf (irq : BitVec 32) : Option Nat :=
  if irq.toNat < mmioIrqBase then none
  else if maxVirtioDevices ≤ irq.toNat - mmioIrqBase then none
  else some (irq.toNat - mmioIrqBase)

/-- Where `pending_by_irq` stands; the argument is the status it has read. -/
inductive Pc where
  | returned
  | entered
  | draining (isr : BitVec 32)
  | drained (isr : BitVec 32)
  deriving DecidableEq

structure Sys where
  bd : BlockDevice
  interruptStatus : BitVec 32
  owed : Nat
  late : Nat
  pc : Pc

-- The last two are the device's.
inductive Action where
  | enter (irq : BitVec 32)
  | readStatus
  | drain
  | acknowledge
  | publish (elem : UsedElem)
  | raise (elements : Nat)

def Sys.step (own : Nat) (s : Sys) : Action → Option Sys
  | .enter irq =>
    if s.pc = .returned then
      if slotOf irq = some own ∧ s.bd.dev.isSome then some { s with pc := .entered } else some s
    else none
  | .readStatus =>
    if s.pc = .entered then
      if s.interruptStatus = 0 then some { s with pc := .returned }
      else some { s with pc := .draining s.interruptStatus }
    else none
  | .drain =>
    -- One test of the loop in `pending`, with one round if it does not end the loop.
    match s.pc with
    | .draining isr =>
      if s.bd.ackUsedIdx = s.bd.queue.used.idx then
        some { s with late := 0, pc := .drained isr }
      else (pendingStep s.bd).map fun bd => { s with bd := bd }
    | _ => none
  | .acknowledge =>
    match s.pc with
    | .drained isr =>
      some { s with interruptStatus := s.interruptStatus &&& ~~~(isr &&& 0x3), pc := .returned }
    | _ => none
  | .publish elem =>
    some { s with bd := publishUsed s.bd elem, owed := s.owed + 1, late := s.late + 1 }
  | .raise elements =>
    if 0 < elements ∧ elements ≤ s.owed then
      some { s with interruptStatus := s.interruptStatus ||| 1, owed := s.owed - elements }
    else none

def Initial (s : Sys) : Prop :=
  s.bd.ackUsedIdx = s.bd.queue.used.idx ∧ s.interruptStatus = 0 ∧ s.owed = 0 ∧ s.pc = .returned

def interrupts (own : Nat) : System where
  State := Sys
  Action := Action
  init := Initial
  step := Sys.step own

/-! ## What a step does -/

inductive Stepped : Sys → Action → Sys → Prop where
  | ignored (s : Sys) (irq : BitVec 32) : Stepped s (.enter irq) s
  | entered (s : Sys) (irq : BitVec 32) (idle : s.pc = .returned) :
      Stepped s (.enter irq) { s with pc := .entered }
  | silent (s : Sys) (inside : s.pc = .entered) : Stepped s .readStatus { s with pc := .returned }
  | announced (s : Sys) (nonzero : s.interruptStatus ≠ 0) :
      Stepped s .readStatus { s with pc := .draining s.interruptStatus }
  | emptied (s : Sys) (isr : BitVec 32) (inside : s.pc = .draining isr)
      (level : s.bd.ackUsedIdx = s.bd.queue.used.idx) :
      Stepped s .drain { s with late := 0, pc := .drained isr }
  | consumed (s : Sys) (isr : BitVec 32) (bd : BlockDevice) (inside : s.pc = .draining isr)
      (behind : s.bd.ackUsedIdx ≠ s.bd.queue.used.idx) (round : pendingStep s.bd = some bd) :
      Stepped s .drain { s with bd := bd }
  | acknowledged (s : Sys) (isr : BitVec 32) (inside : s.pc = .drained isr) :
      Stepped s .acknowledge { s with
        interruptStatus := s.interruptStatus &&& ~~~(isr &&& 0x3)
        pc := .returned }
  | published (s : Sys) (elem : UsedElem) :
      Stepped s (.publish elem) { s with
        bd := publishUsed s.bd elem
        owed := s.owed + 1
        late := s.late + 1 }
  | raised (s : Sys) (elements : Nat) (enough : elements ≤ s.owed) :
      Stepped s (.raise elements) { s with
        interruptStatus := s.interruptStatus ||| 1
        owed := s.owed - elements }

theorem step_stepped {own : Nat} {s s' : Sys} {a : Action} (taken : s.step own a = some s') :
    Stepped s a s' := by
  cases a with
  | enter irq =>
      simp only [Sys.step] at taken
      split_ifs at taken with idle served
      · cases taken
        exact .entered s irq idle
      · cases taken
        exact .ignored s irq
  | readStatus =>
      simp only [Sys.step] at taken
      split_ifs at taken with inside zero
      · cases taken
        exact .silent s inside
      · cases taken
        exact .announced s zero
  | drain =>
      simp only [Sys.step] at taken
      split at taken
      · rename_i isr inside
        split_ifs at taken with level
        · cases taken
          exact .emptied s isr inside level
        · obtain ⟨bd, round, rfl⟩ := Option.map_eq_some_iff.mp taken
          exact .consumed s isr bd inside level round
      · cases taken
  | acknowledge =>
      simp only [Sys.step] at taken
      split at taken
      · rename_i isr inside
        cases taken
        exact .acknowledged s isr inside
      · cases taken
  | publish elem =>
      cases taken
      exact .published s elem
  | raise elements =>
      simp only [Sys.step] at taken
      split_ifs at taken with enough
      cases taken
      exact .raised s elements enough.2

/-! ## Completions and their announcement -/

/-- Nothing is unconsumed, or an interrupt is pending, or the device has yet to raise it. -/
def NothingLost (s : Sys) : Prop :=
  s.bd.ackUsedIdx = s.bd.queue.used.idx ∨ s.interruptStatus ≠ 0 ∨ 0 < s.owed

/-- Between the end of the drain and the acknowledgement the device sets the bit only for
elements it had published before the drain ended. -/
def earlyRaise (s : Sys) : Action → Bool
  | .raise elements =>
    match s.pc with
    | .drained _ => decide (elements + s.late ≤ s.owed)
    | _ => true
  | _ => true

def Announced (s : Sys) : Prop :=
  s.pc = .returned ∨ s.pc = .entered → NothingLost s

/-- The drain has left only what the device published since, and none of that is announced. -/
def Drained (s : Sys) : Prop :=
  ∀ isr, s.pc = .drained isr →
    s.bd.queue.used.idx = s.bd.ackUsedIdx + BitVec.ofNat 16 s.late ∧ s.late ≤ s.owed

/-- Only bit 0 is ever set, and the handler drains only when it has read it. -/
structure OneBit (s : Sys) : Prop where
  status : s.interruptStatus = 0 ∨ s.interruptStatus = 1
  draining : ∀ isr, s.pc = .draining isr → isr = 1
  drained : ∀ isr, s.pc = .drained isr → isr = 1

section Steps
variable {s s' : Sys} {a : Action}

theorem raised_ne_zero (status : BitVec 32) : status ||| 1 ≠ 0 := by
  intro zero
  have bit := congrArg (fun b => b.getLsbD 0) zero
  simp at bit

theorem drained_step (drained : Drained s) (stepped : Stepped s a s')
    (early : earlyRaise s a = true) : Drained s' := by
  cases stepped with
  | ignored irq => exact drained
  | entered irq idle => exact fun _ => Pc.noConfusion
  | silent inside => exact fun _ => Pc.noConfusion
  | announced nonzero => exact fun _ => Pc.noConfusion
  | emptied isr inside level =>
      refine fun _ _ => ⟨?_, Nat.zero_le _⟩
      exact level.symm.trans (BitVec.add_zero _).symm
  | consumed isr bd inside behind round =>
      intro isr' after
      cases inside.symm.trans after
  | acknowledged isr inside => exact fun _ => Pc.noConfusion
  | published elem =>
      intro isr at_
      obtain ⟨ahead, owed⟩ := drained isr at_
      refine ⟨?_, Nat.succ_le_succ owed⟩
      change s.bd.queue.used.idx + 1 = s.bd.ackUsedIdx + BitVec.ofNat 16 (s.late + 1)
      rw [ahead, BitVec.ofNat_add, BitVec.add_assoc]
      rfl
  | raised elements enough =>
      intro isr at_
      obtain ⟨ahead, owed⟩ := drained isr at_
      simp only [earlyRaise, show s.pc = .drained isr from at_, decide_eq_true_eq] at early
      exact ⟨ahead, Nat.le_sub_of_add_le ((Nat.add_comm _ _).trans_le early)⟩

theorem announced_step (announced : Announced s) (drained : Drained s)
    (stepped : Stepped s a s') : Announced s' := by
  cases stepped with
  | ignored irq => exact announced
  | entered irq idle => exact fun _ => announced (.inl idle)
  | silent inside => exact fun _ => announced (.inr inside)
  | announced nonzero =>
      rintro (outside | outside)
      · cases outside
      · cases outside
  | emptied isr inside level => exact fun _ => .inl level
  | consumed isr bd inside behind round =>
      rintro (outside | outside)
      · cases inside.symm.trans outside
      · cases inside.symm.trans outside
  | acknowledged isr inside =>
      -- What the bit no longer announces is what came since the drain, and is still owed.
      intro _
      obtain ⟨ahead, owed⟩ := drained isr inside
      rcases Nat.eq_zero_or_pos s.late with none_ | some_
      · rw [none_] at ahead
        exact .inl (ahead.trans (BitVec.add_zero _)).symm
      · exact .inr (.inr (some_.trans_le owed))
  | published elem => exact fun _ => .inr (.inr (Nat.succ_pos _))
  | raised elements enough => exact fun _ => .inr (.inl (raised_ne_zero _))

theorem status_cleared {status : BitVec 32} (bit : status = 0 ∨ status = 1) :
    status &&& ~~~((1 : BitVec 32) &&& 0x3) = 0 := by
  rcases bit with rfl | rfl
  · decide
  · decide

theorem status_raised {status : BitVec 32} (bit : status = 0 ∨ status = 1) :
    status ||| 1 = 1 := by
  rcases bit with rfl | rfl
  · decide
  · decide

theorem oneBit_step (oneBit : OneBit s) (stepped : Stepped s a s') : OneBit s' := by
  obtain ⟨status, draining, drained⟩ := oneBit
  cases stepped with
  | ignored irq => exact ⟨status, draining, drained⟩
  | entered irq idle => exact ⟨status, fun _ => Pc.noConfusion, fun _ => Pc.noConfusion⟩
  | silent inside => exact ⟨status, fun _ => Pc.noConfusion, fun _ => Pc.noConfusion⟩
  | announced nonzero =>
      refine ⟨status, fun isr read => ?_, fun _ => Pc.noConfusion⟩
      rw [← Pc.draining.inj read]
      exact status.resolve_left nonzero
  | emptied isr inside level =>
      refine ⟨status, fun _ => Pc.noConfusion, fun isr' read => ?_⟩
      rw [← Pc.drained.inj read]
      exact draining isr inside
  | consumed isr bd inside behind round => exact ⟨status, draining, drained⟩
  | acknowledged isr inside =>
      refine ⟨.inl ?_, fun _ => Pc.noConfusion, fun _ => Pc.noConfusion⟩
      rw [drained isr inside]
      exact status_cleared status
  | published elem => exact ⟨status, draining, drained⟩
  | raised elements enough => exact ⟨.inr (status_raised status), draining, drained⟩

theorem acknowledge_cleared (oneBit : OneBit s) (stepped : Stepped s .acknowledge s') :
    s' = { s with interruptStatus := 0, pc := .returned } := by
  cases stepped with
  | acknowledged isr inside =>
      rw [oneBit.drained isr inside, status_cleared oneBit.status]

end Steps

theorem initial_announced {s : Sys} (initial : Initial s) : Announced s :=
  fun _ => .inl initial.1

theorem initial_drained {s : Sys} (initial : Initial s) : Drained s := by
  obtain ⟨_, _, _, returned⟩ := initial
  intro isr at_
  cases returned.symm.trans at_

theorem initial_oneBit {s : Sys} (initial : Initial s) : OneBit s := by
  obtain ⟨_, zero, _, returned⟩ := initial
  refine ⟨.inl zero, fun isr at_ => ?_, fun isr at_ => ?_⟩
  · cases returned.symm.trans at_
  · cases returned.symm.trans at_

theorem reach_oneBit {own : Nat} {s : Sys} (reached : (interrupts own).Reach s) : OneBit s :=
  reached.invariant (fun _ => initial_oneBit) fun (_ : Sys) _ (_ : Sys) oneBit taken =>
    oneBit_step oneBit (step_stepped taken)

theorem reach_announced {own : Nat} {s : Sys}
    (reached : ((interrupts own).restrict earlyRaise).Reach s) : Announced s ∧ Drained s := by
  have kept : ∀ (s : Sys) a (s' : Sys), Announced s ∧ Drained s →
      ((interrupts own).restrict earlyRaise).step s a = some s' → Announced s' ∧ Drained s' := by
    intro s a s' ⟨announced, drained⟩ taken
    obtain ⟨early, step⟩ := System.restrict_step taken
    have stepped := step_stepped step
    exact ⟨announced_step announced drained stepped, drained_step drained stepped early⟩
  exact reached.invariant
    (fun _ initial => ⟨initial_announced initial, initial_drained initial⟩) kept

/-! ## From the last look at the ring to the acknowledgement -/

def Action.device : Action → Bool
  | .publish _ => true
  | .raise _ => true
  | _ => false

def Action.publishes : Action → Nat
  | .publish _ => 1
  | _ => 0

def Action.raises : Action → Nat
  | .raise elements => elements
  | _ => 0

def published (actions : List Action) : Nat := (actions.map Action.publishes).sum

def raised (actions : List Action) : Nat := (actions.map Action.raises).sum

/-- What the device's steps leave of the handler's state and how they move the ring. -/
structure Window (s : Sys) (actions : List Action) (s' : Sys) : Prop where
  pc : s'.pc = s.pc
  ack : s'.bd.ackUsedIdx = s.bd.ackUsedIdx
  used : s'.bd.queue.used.idx = s.bd.queue.used.idx + BitVec.ofNat 16 (published actions)
  owed : s'.owed + raised actions = s.owed + published actions

theorem Window.cons {s s' s'' : Sys} {a : Action} {rest : List Action} (device : a.device = true)
    (stepped : Stepped s a s') (later : Window s' rest s'') : Window s (a :: rest) s'' := by
  obtain ⟨pc, ack, used, owed⟩ := later
  cases stepped with
  | published elem =>
      refine ⟨pc, ack, used.trans ?_, ?_⟩
      · change s.bd.queue.used.idx + 1 + _ =
          s.bd.queue.used.idx + BitVec.ofNat 16 (1 + published rest)
        rw [BitVec.ofNat_add, BitVec.add_assoc]
        rfl
      · change s''.owed + (0 + raised rest) = s.owed + (1 + published rest)
        change s''.owed + raised rest = s.owed + 1 + published rest at owed
        omega
  | raised elements enough =>
      refine ⟨pc, ack, ?_, ?_⟩
      · change _ = s.bd.queue.used.idx + BitVec.ofNat 16 (0 + published rest)
        rw [Nat.zero_add]
        exact used
      · change s''.owed + (elements + raised rest) = s.owed + (0 + published rest)
        change s''.owed + raised rest = s.owed - elements + published rest at owed
        omega
  | ignored irq => cases device
  | entered irq idle => cases device
  | silent inside => cases device
  | announced nonzero => cases device
  | emptied isr inside level => cases device
  | consumed isr bd inside behind round => cases device
  | acknowledged isr inside => cases device

theorem run_window {own : Nat} {s s' : Sys} {actions : List Action}
    (device : ∀ a ∈ actions, a.device = true)
    (ran : (interrupts own).run s actions = some s') : Window s actions s' := by
  induction actions generalizing s with
  | nil =>
      cases ran
      exact ⟨rfl, rfl, (BitVec.add_zero _).symm, rfl⟩
  | cons a rest ih =>
      obtain ⟨mid, taken, tail⟩ := Option.bind_eq_some_iff.mp ran
      exact Window.cons (device a List.mem_cons_self) (step_stepped taken)
        (ih (fun b member => device b (List.mem_cons_of_mem _ member)) tail)

theorem ofNat_eq_zero_iff (n : Nat) : BitVec.ofNat 16 n = 0 ↔ n % 2 ^ 16 = 0 := by
  rw [← BitVec.toNat_inj, BitVec.toNat_ofNat]
  rfl

theorem drained_level {s s' : Sys} {isr : BitVec 32} (stepped : Stepped s .drain s')
    (ended : s'.pc = .drained isr) : s'.bd.ackUsedIdx = s'.bd.queue.used.idx := by
  cases stepped with
  | emptied isr' inside level => exact level
  | consumed isr' bd inside behind round => cases inside.symm.trans ended

/-- Every run in which the device keeps to early raises loses nothing; and whatever the device
does between the last look at `used.idx` and the acknowledgement, something is lost exactly
if it has published elements and set the bits of all of them. -/
theorem handler_loses_nothing_iff (own : Nat) :
    (∀ s : Sys, ((interrupts own).restrict earlyRaise).Reach s → s.pc = .returned →
      NothingLost s) ∧
    ∀ (s₀ s s₁ s' : Sys) (isr : BitVec 32) (actions : List Action),
      (interrupts own).Reach s₀ → s₀.step own .drain = some s → s.pc = .drained isr →
      (∀ a ∈ actions, a.device = true) → (interrupts own).run s actions = some s₁ →
      s₁.step own .acknowledge = some s' →
      (NothingLost s' ↔
        published actions % 2 ^ 16 = 0 ∨ raised actions < s.owed + published actions) := by
  constructor
  · intro s reached returned
    exact (reach_announced reached).1 (.inl returned)
  · intro s₀ s s₁ s' isr actions reached looked ended device ran taken
    have level := drained_level (step_stepped looked) ended
    have window := run_window device ran
    have reached₁ : (interrupts own).Reach s₁ :=
      (System.Reach.next (M := interrupts own) Action.drain reached looked).run ran
    rw [acknowledge_cleared (reach_oneBit reached₁) (step_stepped taken)]
    have consumed : s₁.bd.ackUsedIdx = s₁.bd.queue.used.idx ↔ published actions % 2 ^ 16 = 0 := by
      rw [window.ack, window.used, ← level, ← ofNat_eq_zero_iff]
      exact BitVec.self_eq_add_right
    have unraised : 0 < s₁.owed ↔ raised actions < s.owed + published actions := by
      have := window.owed
      omega
    rw [← consumed, ← unraised]
    constructor
    · rintro (level | pending | owed)
      · exact .inl level
      · exact absurd rfl pending
      · exact .inr owed
    · exact fun kept => kept.imp_right .inr

/-! ## A completion that is lost -/

def sector (buffer : Nat) : Op := ⟨buffer, 512, 0, false⟩

def twoRequests : Sys where
  bd :=
    { dev := some 0x10001000
      queue :=
        claimed
          (claimed
            { desc := fun _ => ⟨0, 0, 0, 0⟩
              avail := ⟨0, fun _ => 0⟩
              used := ⟨0, fun _ => ⟨0, 0⟩⟩
              free := fun _ => true
              reqHead := fun _ => none } ⟨0, 1, 2⟩ 0x80020000 (sector 0x80010000))
          ⟨3, 4, 5⟩ 0x80021000 (sector 0x80011000)
      ackUsedIdx := 0
      readOnly := false }
  interruptStatus := 0
  owed := 0
  late := 0
  pc := .returned

def firstRound : List Action := [.publish ⟨0, 513⟩, .raise 1, .enter 1, .readStatus, .drain]

def firstServed : List Action := firstRound ++ [.drain]

theorem twoRequests_initial : Initial twoRequests := ⟨rfl, rfl, rfl, rfl⟩

/-- The second completion comes before the acknowledgement and its bit after it. -/
theorem handler_loses_nothing_iff_after :
    (∃ s : Sys, s.bd.ackUsedIdx = 1 ∧ s.bd.queue.used.idx = 2 ∧ s.pc = .returned ∧
      NothingLost s) ∧
    ∃ s' : Sys, s'.bd.ackUsedIdx = 1 ∧ s'.bd.queue.used.idx = 2 ∧ NothingLost s' := by
  constructor
  · have ran : (((interrupts 0).restrict earlyRaise).run twoRequests
        (firstServed ++ [.publish ⟨3, 513⟩, .acknowledge, .raise 1])).map (fun s : Sys =>
          (s.bd.ackUsedIdx, s.bd.queue.used.idx, s.pc)) = some (1, 2, .returned) := by
      decide +kernel
    obtain ⟨s, ends, facts⟩ := Option.map_eq_some_iff.mp ran
    simp only [Prod.mk.injEq] at facts
    obtain ⟨consumed, used, returned⟩ := facts
    exact ⟨s, consumed, used, returned, (handler_loses_nothing_iff 0).1 s
      ((System.Reach.start twoRequests_initial).run ends) returned⟩
  · have ran : (((interrupts 0).run twoRequests firstRound).bind fun s₀ : Sys =>
        (s₀.step 0 .drain).bind fun s =>
          ((interrupts 0).run s [.publish ⟨3, 513⟩]).bind fun s₁ : Sys =>
            (s₁.step 0 .acknowledge).map fun s' =>
              (s.pc, s.owed, s'.bd.ackUsedIdx, s'.bd.queue.used.idx)) =
        some (.drained 1, 0, 1, 2) := by
      decide +kernel
    obtain ⟨s₀, ran₀, rest⟩ := Option.bind_eq_some_iff.mp ran
    obtain ⟨s, looked, rest⟩ := Option.bind_eq_some_iff.mp rest
    obtain ⟨s₁, window, rest⟩ := Option.bind_eq_some_iff.mp rest
    obtain ⟨s', acked, facts⟩ := Option.map_eq_some_iff.mp rest
    simp only [Prod.mk.injEq] at facts
    obtain ⟨ended, owed, consumed, used⟩ := facts
    have reached := (System.Reach.start twoRequests_initial).run ran₀
    refine ⟨s', consumed, used, ((handler_loses_nothing_iff 0).2 s₀ s s₁ s' 1 _ reached looked
      ended ?_ window acked).mpr (.inr ?_)⟩
    · intro a member
      rw [List.mem_singleton.mp member]
      rfl
    · rw [owed]
      decide

/-- The second completion and its bit come between the drain and the acknowledgement. -/
theorem completion_lost_before_ack :
    ∃ s : Sys, (interrupts 0).Reach s ∧ s.pc = .returned ∧ s.bd.ackUsedIdx = 1 ∧
      s.bd.queue.used.idx = 2 ∧ ¬ NothingLost s := by
  have ran : ((interrupts 0).run twoRequests
      (firstServed ++ [.publish ⟨3, 513⟩, .raise 1, .acknowledge])).map (fun s : Sys =>
        (s.pc, s.bd.ackUsedIdx, s.bd.queue.used.idx, s.interruptStatus, s.owed)) =
      some (.returned, 1, 2, 0, 0) := by
    decide +kernel
  obtain ⟨s, ends, facts⟩ := Option.map_eq_some_iff.mp ran
  simp only [Prod.mk.injEq] at facts
  obtain ⟨returned, consumed, published, clear, settled⟩ := facts
  refine ⟨s, (System.Reach.start twoRequests_initial).run ends, returned, consumed, published, ?_⟩
  rintro (level | pending | owed)
  · rw [consumed, published] at level
    exact absurd level (by decide)
  · exact pending clear
  · exact absurd settled owed.ne'

end Vesper.Virtio.Interrupt
