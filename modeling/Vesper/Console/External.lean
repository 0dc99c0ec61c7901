import Vesper.Console.Keys
import Vesper.Console.Plic
import Vesper.Lib.Transition
import Vesper.Virtio.Interrupt

/-!
# External interrupts

`handle_external` (`arch/riscv64/trap.rs`) claims a source, serves it and completes it.  Here
its steps interleave with the devices: bytes arrive at the UART, virtio devices set bits of
their interrupt status, and the gateways of the controller forward raised lines.  The UART's
line is up while its receive FIFO holds a byte, a virtio line while the status is not zero.
`pending`, which `pending_by_irq` calls between reading the status and acknowledging it,
touches none of this; it is the subject of `Virtio.Interrupt`.

Two results: what is echoed is what the typed bytes show, in order, and nothing else is ever
printed; and when the devices stop, the handler comes to rest after a bounded number of
steps with every byte read and every line of an enabled source down.
-/

set_option autoImplicit false

namespace Vesper.Console.External

open Vesper.Lib (System)
open Vesper.Plic (uart0Irq sources Routes)
open Vesper.Virtio.Interrupt (slotOf maxVirtioDevices)

inductive Pc where
  | outside
  /-- `plic::next` has returned a source -/
  | claimed (id : Nat)
  /-- `Uart::get` has seen the data-ready bit -/
  | dataReady
  /-- `pending_by_irq` has read a status that is not zero -/
  | statusRead (id slot : Nat) (isr : BitVec 32)
  | serviced (id : Nat)
  deriving DecidableEq

/-- `read` and `accepted` are the bytes read from and taken into the receive FIFO so far;
nothing depends on them. -/
structure Sys where
  plic : Plic.Regs
  pc : Pc
  rx : List (BitVec 8)
  interruptStatus : Nat → BitVec 32
  wires : Nat → Bool
  escState : EscState
  printed : List Char
  read : List (BitVec 8)
  accepted : List (BitVec 8)

inductive Action where
  /-- the UART receives a byte -/
  | receive (byte : BitVec 8)
  /-- a virtio device: used ring written, or configuration changed -/
  | raise (slot : Nat) (config : Bool)
  /-- any other source -/
  | wire (id : Nat) (high : Bool)
  | gateway (id : Nat)
  /-- an external interrupt, with the controller's line up or, spuriously, down -/
  | trap (asserted : Bool)
  /-- the next step of the handler -/
  | handler
  deriving DecidableEq

def Action.internal : Action → Bool
  | .gateway _ => true
  | .trap asserted => asserted
  | .handler => true
  | _ => false

def rxDepth : Nat := 16

def slotOfId (id : Nat) : Option Nat := slotOf (BitVec.ofNat 32 id)

def Sys.line (s : Sys) (id : Nat) : Bool :=
  if id = uart0Irq then !s.rx.isEmpty
  else
    match slotOfId id with
    | some slot => s.interruptStatus slot != 0
    | none => s.wires id

def nonUart (id : Nat) : List Char := println ("non-UART external interrupt: " ++ toString id)

/-- `handle_external` up to the service of the claimed source. -/
def Sys.enter (s : Sys) : Sys :=
  match Plic.next s.plic with
  | (none, plic) => { s with plic := plic }
  | (some id, plic) => { s with plic := plic, pc := .claimed id }

/-- The service of a source: `echo_uart` up to the test of the line status, `pending_by_irq`
up to the test of the interrupt status. -/
def Sys.service (present : Nat → Bool) (s : Sys) (id : Nat) : Sys :=
  let unclaimed := { s with printed := s.printed ++ nonUart id, pc := .serviced id }
  if id = uart0Irq then
    if s.rx = [] then { s with pc := .serviced id } else { s with pc := .dataReady }
  else
    match slotOfId id with
    | none => unclaimed
    | some slot =>
        if present slot then
          let isr := s.interruptStatus slot
          if isr = 0 then unclaimed else { s with pc := .statusRead id slot isr }
        else unclaimed

/-- `echo_uart` from the read of the byte on.  An empty FIFO would read as zero. -/
def Sys.echo (s : Sys) : Sys :=
  let c := s.rx.headD 0
  let (state, text) := echoByte s.escState c
  { s with
    rx := s.rx.tail
    read := s.read ++ [c]
    escState := state
    printed := s.printed ++ text
    pc := .serviced uart0Irq }

def Sys.acknowledge (s : Sys) (id slot : Nat) (isr : BitVec 32) : Sys :=
  { s with
    interruptStatus :=
      Function.update s.interruptStatus slot (s.interruptStatus slot &&& ~~~(isr &&& 0x3))
    pc := .serviced id }

/-- `present` tells which slots hold a block device. -/
def Sys.step (present : Nat → Bool) (s : Sys) : Action → Option Sys
  | .receive byte =>
      if s.rx.length < rxDepth then
        some { s with rx := s.rx ++ [byte], accepted := s.accepted ++ [byte] }
      else some s
  | .raise slot config =>
      let bit : BitVec 32 := if config then 2 else 1
      let status := s.interruptStatus slot ||| bit
      some { s with interruptStatus := Function.update s.interruptStatus slot status }
  | .wire id high => some { s with wires := Function.update s.wires id high }
  | .gateway id =>
      if id < sources ∧ s.line id ∧ id ∉ s.plic.pending ∧ id ∉ s.plic.inService then
        some { s with plic := s.plic.forward id }
      else none
  | .trap asserted =>
      if s.pc = .outside ∧ s.plic.meip = asserted then some s.enter else none
  | .handler =>
      match s.pc with
      | .outside => none
      | .claimed id => some (s.service present id)
      | .dataReady => some s.echo
      | .statusRead id slot isr => some (s.acknowledge id slot isr)
      | .serviced id => some { s with plic := Plic.complete id s.plic, pc := .outside }

def irqs (present : Nat → Bool) : List Nat :=
  ((List.range maxVirtioDevices).filter present).map (· + 1)

/-- The boot code has configured a controller that was off, and nothing has happened yet. -/
def Initial (present : Nat → Bool) (s : Sys) : Prop :=
  (∃ reset : Plic.Regs, reset.enables = 0 ∧ reset.pending = ∅ ∧ reset.inService = ∅ ∧
    s.plic = Plic.configure (irqs present) reset) ∧
  s.pc = .outside ∧ s.rx = [] ∧ s.interruptStatus = (fun _ => 0) ∧ s.escState = .idle ∧
    s.printed = [] ∧ s.read = [] ∧ s.accepted = []

def external (present : Nat → Bool) : System where
  State := Sys
  Action := Action
  init := Initial present
  step := Sys.step present

/-! ## Sources -/

variable {present : Nat → Bool} {s s' : Sys}

def Served (present : Nat → Bool) (id : Nat) : Prop := id = uart0Irq ∨ id ∈ irqs present

theorem mem_irqs {id : Nat} :
    id ∈ irqs present ↔ ∃ slot < 8, present slot = true ∧ slot + 1 = id := by
  simp only [irqs, maxVirtioDevices, List.mem_map, List.mem_filter, List.mem_range, and_assoc]

theorem irqs_lt : ∀ id ∈ irqs present, id < 32 := by
  intro id member
  obtain ⟨slot, bound, _, rfl⟩ := mem_irqs.mp member
  omega

theorem served_lt {id : Nat} (served : Served present id) : id < sources := by
  unfold sources
  rcases served with uart | virtio
  · rw [uart, uart0Irq]
    omega
  · obtain ⟨slot, small, _, rfl⟩ := mem_irqs.mp virtio
    omega

theorem slotOfId_succ {slot : Nat} (small : slot < 8) : slotOfId (slot + 1) = some slot := by
  have value : (BitVec.ofNat 32 (slot + 1)).toNat = slot + 1 := by
    rw [BitVec.toNat_ofNat]
    omega
  rw [slotOfId, slotOf, value, Virtio.Interrupt.mmioIrqBase, maxVirtioDevices,
    if_neg (by omega), if_neg (by omega), Nat.add_sub_cancel]

theorem slotOfId_eq {id slot : Nat} (known : id < sources) (found : slotOfId id = some slot) :
    id = slot + 1 := by
  have value : (BitVec.ofNat 32 id).toNat = id := by
    rw [BitVec.toNat_ofNat]
    unfold sources at known
    omega
  rw [slotOfId, slotOf, value, Virtio.Interrupt.mmioIrqBase] at found
  split_ifs at found with low high
  cases found
  omega

theorem Served.cases {id : Nat} (served : Served present id) :
    id = uart0Irq ∨ (id ≠ uart0Irq ∧ ∃ slot, slotOfId id = some slot ∧ present slot = true) := by
  rcases served with uart | virtio
  · exact Or.inl uart
  · obtain ⟨slot, small, there, rfl⟩ := mem_irqs.mp virtio
    refine Or.inr ⟨?_, slot, slotOfId_succ small, there⟩
    rw [uart0Irq]
    omega

theorem line_uart (s : Sys) : s.line uart0Irq = true ↔ s.rx ≠ [] := by
  rw [Sys.line, if_pos rfl, Bool.not_eq_true', List.isEmpty_eq_false_iff]

theorem line_slot {id slot : Nat} (s : Sys) (other : id ≠ uart0Irq)
    (found : slotOfId id = some slot) : s.line id = true ↔ s.interruptStatus slot ≠ 0 := by
  rw [Sys.line, if_neg other, found, bne_iff_ne]

/-! ## The invariant -/

structure InService (present : Nat → Bool) (plic : Plic.Regs) (id : Nat) : Prop where
  alone : plic.inService = {id}
  idle : id ∉ plic.pending
  served : Served present id

def Standing (present : Nat → Bool) (s : Sys) : Pc → Prop
  | .outside => s.plic.inService = ∅
  | .claimed id => InService present s.plic id ∧ s.line id = true
  | .dataReady => InService present s.plic uart0Irq ∧ s.rx ≠ []
  | .statusRead id slot isr =>
      InService present s.plic id ∧ id ≠ uart0Irq ∧ slotOfId id = some slot ∧
        isr ≠ 0 ∧ isr &&& s.interruptStatus slot = isr
  | .serviced id => InService present s.plic id

/-- `announced`: a request is only there while its line is up. -/
structure Inv (present : Nat → Bool) (s : Sys) : Prop where
  routes : Routes s.plic (Served present)
  stream : s.accepted = s.read ++ s.rx
  echoed : (s.escState, s.printed) = echoAll .idle s.read
  bits : ∀ slot, s.interruptStatus slot &&& 3 = s.interruptStatus slot
  announced : ∀ id ∈ s.plic.pending, Served present id → s.line id = true
  standing : Standing present s s.pc

theorem inv_init (initial : Initial present s) : Inv present s := by
  obtain ⟨⟨reset, off, pending, inService, plic⟩, pc, rx, status, escState, printed, read,
    accepted⟩ := initial
  obtain ⟨routes, keptPending, keptService⟩ := Plic.configure_routes off irqs_lt
  rw [← plic] at routes keptPending keptService
  constructor
  · exact routes
  · rw [accepted, read, rx]
    rfl
  · rw [escState, printed, read]
    rfl
  · intro slot
    rw [status]
    exact BitVec.zero_and
  · intro id member
    rw [keptPending, pending] at member
    exact absurd member (Finset.notMem_empty id)
  · rw [pc]
    exact keptService.trans inService

/-! ## Device steps -/

structure Raised (s s' : Sys) : Prop where
  plic : s'.plic = s.plic
  pc : s'.pc = s.pc
  escState : s'.escState = s.escState
  printed : s'.printed = s.printed
  read : s'.read = s.read
  bytes : ∃ more, s'.rx = s.rx ++ more ∧ s'.accepted = s.accepted ++ more
  status : ∀ slot, s.interruptStatus slot &&& s'.interruptStatus slot = s.interruptStatus slot
  bits : ∀ slot, s.interruptStatus slot &&& 3 = s.interruptStatus slot →
    s'.interruptStatus slot &&& 3 = s'.interruptStatus slot

theorem Raised.rx_ne (raised : Raised s s') (some_ : s.rx ≠ []) : s'.rx ≠ [] := by
  obtain ⟨more, rx, _⟩ := raised.bytes
  rw [rx]
  exact List.append_ne_nil_of_left_ne_nil some_ more

theorem Raised.line (raised : Raised s s') {id : Nat} (served : Served present id)
    (up : s.line id = true) : s'.line id = true := by
  rcases served.cases with uart | ⟨other, slot, found, _⟩
  · rw [uart, line_uart] at up ⊢
    exact raised.rx_ne up
  · rw [line_slot _ other found] at up ⊢
    intro zero
    have kept := raised.status slot
    rw [zero] at kept
    exact up (kept.symm.trans BitVec.and_zero)

theorem Standing.raised {pc : Pc} (standing : Standing present s pc) (raised : Raised s s') :
    Standing present s' pc := by
  cases pc with
  | outside => exact (congrArg Plic.Regs.inService raised.plic).trans standing
  | claimed id =>
      exact ⟨raised.plic ▸ standing.1, raised.line standing.1.served standing.2⟩
  | dataReady => exact ⟨raised.plic ▸ standing.1, raised.rx_ne standing.2⟩
  | statusRead id slot isr =>
      obtain ⟨inside, other, found, nonzero, covered⟩ := standing
      refine ⟨raised.plic ▸ inside, other, found, nonzero, ?_⟩
      rw [← covered, BitVec.and_assoc, raised.status]
  | serviced id =>
      change InService present s'.plic id
      rw [raised.plic]
      exact standing

theorem Inv.raised (inv : Inv present s) (raised : Raised s s') : Inv present s' := by
  obtain ⟨more, rx, accepted⟩ := raised.bytes
  constructor
  · exact raised.plic ▸ inv.routes
  · rw [accepted, rx, raised.read, inv.stream, List.append_assoc]
  · rw [raised.escState, raised.printed, raised.read, inv.echoed]
  · exact fun slot => raised.bits slot (inv.bits slot)
  · intro id member served
    rw [raised.plic] at member
    exact raised.line served (inv.announced id member served)
  · exact raised.pc ▸ inv.standing.raised raised

theorem raised_receive (s : Sys) (more : List (BitVec 8)) :
    Raised s { s with rx := s.rx ++ more, accepted := s.accepted ++ more } :=
  ⟨rfl, rfl, rfl, rfl, rfl, ⟨more, rfl, rfl⟩, fun _ => BitVec.and_self, fun _ kept => kept⟩

theorem raised_wires (s : Sys) (wires : Nat → Bool) : Raised s { s with wires := wires } :=
  ⟨rfl, rfl, rfl, rfl, rfl, ⟨[], by simp, by simp⟩, fun _ => BitVec.and_self, fun _ kept => kept⟩

theorem raised_status (s : Sys) (slot : Nat) {bit : BitVec 32} (low : bit &&& 3 = bit) :
    Raised s
      { s with
        interruptStatus :=
          Function.update s.interruptStatus slot (s.interruptStatus slot ||| bit) } := by
  refine ⟨rfl, rfl, rfl, rfl, rfl, ⟨[], by simp, by simp⟩, fun other => ?_, fun other kept => ?_⟩
  · by_cases same : other = slot
    · rw [same]
      dsimp only
      rw [Function.update_self]
      ext i
      simp +contextual
    · dsimp only
      rw [Function.update_of_ne same, BitVec.and_self]
  · by_cases same : other = slot
    · rw [same] at kept ⊢
      dsimp only
      rw [Function.update_self, BitVec.and_comm, BitVec.and_or_distrib_left]
      rw [BitVec.and_comm 3, BitVec.and_comm 3, kept, low]
    · dsimp only
      rw [Function.update_of_ne same, kept]

/-! ## Steps of the controller and the handler -/

theorem Inv.forward (inv : Inv present s) {id : Nat} (up : s.line id = true)
    (idle : id ∉ s.plic.inService) : Inv present { s with plic := s.plic.forward id } := by
  refine ⟨⟨inv.routes.enabled, inv.routes.passes⟩, inv.stream, inv.echoed, inv.bits, ?_, ?_⟩
  · intro other member served
    rcases Finset.mem_insert.mp member with same | before
    · exact same ▸ up
    · exact inv.announced other before served
  · have keep : ∀ other, InService present s.plic other →
        InService present (s.plic.forward id) other := by
      intro other inside
      refine ⟨inside.alone, fun member => ?_, inside.served⟩
      rcases Finset.mem_insert.mp member with same | before
      · rw [inside.alone, ← same] at idle
        exact idle (Finset.mem_singleton_self _)
      · exact inside.idle before
    have standing := inv.standing
    dsimp only
    generalize s.pc = pc at standing
    cases pc with
    | outside => exact standing
    | claimed other => exact ⟨keep other standing.1, standing.2⟩
    | dataReady => exact ⟨keep uart0Irq standing.1, standing.2⟩
    | statusRead other slot isr => exact ⟨keep other standing.1, standing.2⟩
    | serviced other => exact keep other standing

theorem Inv.enter (inv : Inv present s) (outside : s.pc = .outside) :
    (s.plic.meip = false ∧ s.enter = s) ∨
    (∃ id ∈ s.plic.candidates, s.enter =
      { s with
        plic := { s.plic with
          pending := s.plic.pending.erase id
          inService := insert id s.plic.inService }
        pc := .claimed id }) ∧ Inv present s.enter := by
  rcases Plic.next_cases s.plic with ⟨down, none⟩ | ⟨id, candidate, up, _, claimed⟩
  · refine Or.inl ⟨down, ?_⟩
    rw [Sys.enter, none]
  · have entered : s.enter =
        { s with
          plic := { s.plic with
            pending := s.plic.pending.erase id
            inService := insert id s.plic.inService }
          pc := .claimed id } := by
      rw [Sys.enter, claimed]
    refine Or.inr ⟨⟨id, candidate, entered⟩, ?_⟩
    obtain ⟨_, _, pending, enabled, _⟩ := Plic.mem_candidates.mp candidate
    have served := (inv.routes.enabled id).mp enabled
    have empty : s.plic.inService = ∅ := by
      have standing := inv.standing
      rw [outside] at standing
      exact standing
    rw [entered]
    refine ⟨⟨inv.routes.enabled, inv.routes.passes⟩, inv.stream, inv.echoed, inv.bits, ?_, ?_⟩
    · intro other member
      exact inv.announced other (Finset.mem_of_mem_erase member)
    · refine ⟨⟨?_, Finset.notMem_erase id _, served⟩, inv.announced id pending served⟩
      dsimp only
      rw [empty]
      rfl

/-- The service finds what the claim announced: a byte in the FIFO, or a status bit. -/
theorem Inv.service (inv : Inv present s) {id : Nat} (claimed : s.pc = .claimed id) :
    ((id = uart0Irq ∧ s.service present id = { s with pc := .dataReady }) ∨
      ∃ slot, slotOfId id = some slot ∧
        s.service present id = { s with pc := .statusRead id slot (s.interruptStatus slot) }) ∧
      Inv present (s.service present id) := by
  have standing := inv.standing
  rw [claimed] at standing
  obtain ⟨inside, up⟩ := standing
  rcases inside.served.cases with uart | ⟨other, slot, found, there⟩
  · subst uart
    have waiting := (line_uart s).mp up
    have served : s.service present uart0Irq = { s with pc := .dataReady } := by
      rw [Sys.service, if_pos rfl, if_neg waiting]
    refine ⟨Or.inl ⟨rfl, served⟩, ?_⟩
    rw [served]
    exact ⟨inv.routes, inv.stream, inv.echoed, inv.bits, inv.announced, inside, waiting⟩
  · have nonzero := (line_slot s other found).mp up
    have served : s.service present id =
        { s with pc := .statusRead id slot (s.interruptStatus slot) } := by
      simp only [Sys.service, if_neg other, found, if_pos there, if_neg nonzero]
    refine ⟨Or.inr ⟨slot, found, served⟩, ?_⟩
    rw [served]
    exact ⟨inv.routes, inv.stream, inv.echoed, inv.bits, inv.announced, inside, other, found,
      nonzero, BitVec.and_self⟩

theorem Inv.echo (inv : Inv present s) (ready : s.pc = .dataReady) :
    s.echo.rx.length + 1 = s.rx.length ∧ Inv present s.echo := by
  have standing := inv.standing
  rw [ready] at standing
  obtain ⟨inside, waiting⟩ := standing
  obtain ⟨c, rest, rx⟩ := List.exists_cons_of_ne_nil waiting
  refine ⟨by simp [Sys.echo, rx], ⟨inv.routes.enabled, inv.routes.passes⟩, ?_, ?_, inv.bits, ?_,
    inside⟩
  · simp [Sys.echo, inv.stream, rx]
  · have before := inv.echoed
    simp only [Sys.echo, echoAll_append, ← before, rx, List.headD_cons, echoAll,
      List.append_nil]
  · intro id member served
    have away : id ≠ uart0Irq := fun same => inside.idle (same ▸ member)
    have up := inv.announced id member served
    rw [Sys.line, if_neg away] at up ⊢
    exact up

theorem toNat_clear_lt {status isr : BitVec 32} (nonzero : isr ≠ 0)
    (covered : isr &&& status = isr) : (status &&& ~~~isr).toNat < status.toNat := by
  have below : (status &&& ~~~isr).toNat ≤ status.toNat := by
    rw [BitVec.toNat_and]
    exact Nat.and_le_left
  refine lt_of_le_of_ne below fun same => nonzero ?_
  have unchanged : status &&& ~~~isr = status := BitVec.eq_of_toNat_eq same
  rw [← covered, ← unchanged]
  ext i
  simp +contextual

theorem Inv.acknowledge (inv : Inv present s) {id slot : Nat} {isr : BitVec 32}
    (read : s.pc = .statusRead id slot isr) :
    ((s.acknowledge id slot isr).interruptStatus slot).toNat < (s.interruptStatus slot).toNat ∧
      Inv present (s.acknowledge id slot isr) := by
  have standing := inv.standing
  rw [read] at standing
  obtain ⟨inside, other, found, nonzero, covered⟩ := standing
  have whole : isr &&& 3 = isr := by
    rw [← covered, BitVec.and_assoc, inv.bits slot]
  have cleared : (s.acknowledge id slot isr).interruptStatus slot =
      s.interruptStatus slot &&& ~~~isr := by
    change Function.update s.interruptStatus slot _ slot = _
    rw [Function.update_self]
    exact congrArg (fun bits => s.interruptStatus slot &&& ~~~bits) whole
  have known : id < sources := served_lt inside.served
  refine ⟨?_, ⟨inv.routes.enabled, inv.routes.passes⟩, inv.stream, inv.echoed, ?_, ?_, inside⟩
  · rw [cleared]
    exact toNat_clear_lt nonzero covered
  · intro k
    by_cases same : k = slot
    · rw [same, cleared, BitVec.and_assoc, BitVec.and_comm (~~~isr), ← BitVec.and_assoc,
        inv.bits slot]
    · have other : (s.acknowledge id slot isr).interruptStatus k = s.interruptStatus k :=
        Function.update_of_ne same _ _
      rw [other, inv.bits k]
  · intro k member served
    have up := inv.announced k member served
    rcases served.cases with uart | ⟨notUart, slot', found', _⟩
    · rw [uart, line_uart] at up ⊢
      exact up
    · have apart : slot' ≠ slot := by
        intro same
        have equal : k = id := by
          rw [slotOfId_eq (served_lt served) found', same, slotOfId_eq known found]
        exact inside.idle (equal ▸ member)
      rw [line_slot _ notUart found'] at up ⊢
      change Function.update s.interruptStatus slot _ slot' ≠ 0
      rw [Function.update_of_ne apart]
      exact up

theorem Inv.complete (inv : Inv present s) {id : Nat} (serviced : s.pc = .serviced id) :
    Plic.complete id s.plic = { s.plic with inService := ∅ } ∧
      Inv present { s with plic := Plic.complete id s.plic, pc := .outside } := by
  have standing := inv.standing
  rw [serviced] at standing
  have inside : InService present s.plic id := standing
  have enabled := (inv.routes.enabled id).mpr inside.served
  have done : Plic.complete id s.plic = { s.plic with inService := ∅ } := by
    rw [Plic.complete, Plic.Regs.writeComplete, if_pos enabled, inside.alone,
      Finset.erase_singleton]
  refine ⟨done, ?_⟩
  rw [done]
  exact ⟨⟨inv.routes.enabled, inv.routes.passes⟩, inv.stream, inv.echoed, inv.bits, inv.announced,
    rfl⟩

/-! ## Every step -/

theorem Inv.step (inv : Inv present s) {a : Action} (taken : s.step present a = some s') :
    Inv present s' := by
  cases a with
  | receive byte =>
      simp only [Sys.step] at taken
      split_ifs at taken
      · cases taken
        exact inv.raised (raised_receive s [byte])
      · cases taken
        exact inv
  | raise slot config =>
      cases taken
      refine inv.raised (raised_status s slot ?_)
      cases config <;> rfl
  | wire id high =>
      cases taken
      exact inv.raised (raised_wires s _)
  | gateway id =>
      simp only [Sys.step] at taken
      split_ifs at taken with ready
      cases taken
      exact inv.forward ready.2.1 ready.2.2.2
  | trap asserted =>
      simp only [Sys.step] at taken
      split_ifs at taken with ready
      cases taken
      rcases inv.enter ready.1 with ⟨_, same⟩ | ⟨_, kept⟩
      · rw [same]
        exact inv
      · exact kept
  | handler =>
      cases pc : s.pc with
      | outside =>
          simp only [Sys.step, pc] at taken
          cases taken
      | claimed id =>
          simp only [Sys.step, pc] at taken
          cases taken
          exact (inv.service pc).2
      | dataReady =>
          simp only [Sys.step, pc] at taken
          cases taken
          exact (inv.echo pc).2
      | statusRead id slot isr =>
          simp only [Sys.step, pc] at taken
          cases taken
          exact (inv.acknowledge pc).2
      | serviced id =>
          simp only [Sys.step, pc] at taken
          cases taken
          exact (inv.complete pc).2

theorem reach_inv (reached : (external present).Reach s) : Inv present s :=
  reached.invariant (fun _ => inv_init) fun _ _ _ inv => inv.step

def oneDevice (slot : Nat) : Bool := slot == 0

def booted : Sys where
  plic := Plic.configure (irqs oneDevice) ⟨fun _ => 0, 0, 0, ∅, ∅⟩
  pc := .outside
  rx := []
  interruptStatus _ := 0
  wires _ := false
  escState := .idle
  printed := []
  read := []
  accepted := []

def typedA : Sys := { booted with rx := [0x41], accepted := [0x41] }

theorem initial_booted : Initial oneDevice booted :=
  ⟨⟨_, rfl, rfl, rfl, rfl⟩, rfl, rfl, rfl, rfl, rfl, rfl, rfl⟩

theorem reach_typedA : (external oneDevice).Reach typedA :=
  have start : (external oneDevice).Reach booted := .start initial_booted
  start.next (.receive 0x41) rfl

/-- Whatever the devices do and when: the bytes taken into the FIFO are those the handler has
read, in order, and those still in it; and all it ever prints is the echo of the bytes read.
No claimed interrupt is ever reported as foreign. -/
theorem typed_bytes_echoed (present : Nat → Bool) (s : Sys)
    (reached : (external present).Reach s) :
    s.accepted = s.read ++ s.rx ∧ (s.escState, s.printed) = echoAll .idle s.read :=
  ⟨(reach_inv reached).stream, (reach_inv reached).echoed⟩

def echoing : List Action := [.gateway uart0Irq, .trap true, .handler, .handler]

theorem typed_bytes_echoed_typedA :
    ∃ s, (external oneDevice).run typedA echoing = some s ∧ s.read = [0x41] ∧
      s.printed = ['A'] ∧ s.accepted = s.read ++ s.rx ∧
      (s.escState, s.printed) = echoAll .idle s.read := by
  have ran : ((external oneDevice).run typedA echoing).map
      (fun s : Sys => (s.read, s.printed)) = some ([0x41], ['A']) := by
    decide +kernel
  obtain ⟨s, ends, facts⟩ := Option.map_eq_some_iff.mp ran
  obtain ⟨read, printed⟩ := Prod.mk.inj facts
  exact ⟨s, ends, read, printed, typed_bytes_echoed oneDevice s (reach_typedA.run ends)⟩

/-! ## Coming to rest -/

def Sys.units (s : Sys) (id : Nat) : Nat :=
  if id = uart0Irq then s.rx.length
  else
    match slotOfId id with
    | some slot => (s.interruptStatus slot).toNat
    | none => 0

/-- How far a source is from its next unit: a unit takes five steps, from the request to the
completion, and is served by the fourth. -/
def Pc.stage : Pc → Nat
  | .claimed _ => 3
  | .serviced _ => 9
  | _ => 2

def Sys.stage (s : Sys) (id : Nat) : Nat :=
  if id ∈ s.plic.pending then 4 else if id ∈ s.plic.inService then s.pc.stage else 5

def Sys.weight (s : Sys) (id : Nat) : Nat := 8 * s.units id + s.stage id

def Sys.work (s : Sys) : Nat := ∑ id ∈ Finset.range sources, s.weight id

theorem work_lt {id : Nat} (known : id < sources) (lighter : s'.weight id < s.weight id)
    (others : ∀ other < sources, other ≠ id → s'.weight other = s.weight other) :
    s'.work < s.work := by
  refine Finset.sum_lt_sum (fun other member => ?_) ⟨id, Finset.mem_range.mpr known, lighter⟩
  by_cases same : other = id
  · rw [same]
    exact lighter.le
  · exact (others other (Finset.mem_range.mp member) same).le

theorem work_forward {id : Nat} (known : id < sources) (idle : id ∉ s.plic.pending)
    (free : id ∉ s.plic.inService) : Sys.work { s with plic := s.plic.forward id } < s.work := by
  refine work_lt known ?_ fun other _ away => ?_
  · have before : s.stage id = 5 := by rw [Sys.stage, if_neg idle, if_neg free]
    have after : Sys.stage { s with plic := s.plic.forward id } id = 4 :=
      if_pos (Finset.mem_insert_self _ _)
    change 8 * s.units id + _ < 8 * s.units id + _
    omega
  · refine congrArg (8 * s.units other + ·) (if_congr ?_ rfl rfl)
    exact ⟨fun member => Finset.mem_of_mem_insert_of_ne member away, Finset.mem_insert_of_mem⟩

theorem Inv.work_enter (inv : Inv present s) (outside : s.pc = .outside)
    (up : s.plic.meip = true) : s.enter.work < s.work := by
  rcases inv.enter outside with ⟨down, _⟩ | ⟨⟨id, candidate, entered⟩, kept⟩
  · rw [down] at up
    cases up
  obtain ⟨known, _, pending, _, _⟩ := Plic.mem_candidates.mp candidate
  have idle : id ∉ s.plic.pending.erase id := Finset.notMem_erase id _
  rw [entered]
  refine work_lt known ?_ fun other _ away => ?_
  · have before : s.stage id = 4 := if_pos pending
    change 8 * s.units id + _ < 8 * s.units id + _
    rw [before, Sys.stage, if_neg idle, if_pos (Finset.mem_insert_self _ _)]
    exact Nat.lt_succ_self _
  · have empty : s.plic.inService = ∅ := by
      have standing := inv.standing
      rw [outside] at standing
      exact standing
    have before : other ∉ s.plic.inService := by
      rw [empty]
      exact Finset.notMem_empty other
    have after : other ∉ insert id s.plic.inService := fun member =>
      before (Finset.mem_of_mem_insert_of_ne member away)
    refine congrArg (8 * s.units other + ·) ?_
    rw [Sys.stage, Sys.stage, if_neg before, if_neg after]
    exact if_congr (by simp [away]) rfl rfl

/-- Within the handler only the source in service depends on where it stands. -/
theorem InService.stage_self {id : Nat} (inside : InService present s.plic id) :
    s.stage id = s.pc.stage := by
  rw [Sys.stage, if_neg inside.idle, inside.alone, if_pos (Finset.mem_singleton_self _)]

theorem InService.stage_other {id other : Nat} (inside : InService present s.plic id)
    (away : other ≠ id) : s.stage other = if other ∈ s.plic.pending then 4 else 5 := by
  have outside : other ∉ s.plic.inService := by
    rw [inside.alone]
    exact fun member => away (Finset.mem_singleton.mp member)
  rw [Sys.stage, if_neg outside]

theorem work_handler {id : Nat} (inside : InService present s.plic id) (plic : s'.plic = s.plic)
    (units : ∀ other < sources, other ≠ id → s'.units other = s.units other)
    (less : 8 * s'.units id + s'.pc.stage < 8 * s.units id + s.pc.stage) :
    s'.work < s.work := by
  have inside' : InService present s'.plic id := plic ▸ inside
  refine work_lt (served_lt inside.served) ?_ fun other known away => ?_
  · rw [Sys.weight, Sys.weight, inside.stage_self, inside'.stage_self]
    exact less
  · rw [Sys.weight, Sys.weight, inside.stage_other away, inside'.stage_other away,
      units other known away, plic]

theorem units_slot {id slot : Nat} (other : id ≠ uart0Irq) (found : slotOfId id = some slot) :
    s.units id = (s.interruptStatus slot).toNat := by
  rw [Sys.units, if_neg other, found]

theorem units_congr {id : Nat} (rx : id = uart0Irq → s'.rx = s.rx)
    (status : ∀ slot, slotOfId id = some slot →
      s'.interruptStatus slot = s.interruptStatus slot) : s'.units id = s.units id := by
  rw [Sys.units, Sys.units]
  split_ifs with uart
  · rw [rx uart]
  · split
    · next slot found => rw [status slot found]
    · rfl

theorem Inv.work_service (inv : Inv present s) {id : Nat} (claimed : s.pc = .claimed id) :
    (s.service present id).work < s.work := by
  have standing := inv.standing
  rw [claimed] at standing
  have less : (2 : Nat) < s.pc.stage := by
    rw [claimed]
    exact Nat.lt_succ_self _
  rcases (inv.service claimed).1 with ⟨_, served⟩ | ⟨slot, _, served⟩
  · rw [served]
    exact work_handler standing.1 rfl (fun _ _ _ => rfl) (Nat.add_lt_add_left less _)
  · rw [served]
    exact work_handler standing.1 rfl (fun _ _ _ => rfl) (Nat.add_lt_add_left less _)

theorem Inv.work_echo (inv : Inv present s) (ready : s.pc = .dataReady) :
    s.echo.work < s.work := by
  have standing := inv.standing
  rw [ready] at standing
  have shorter := (inv.echo ready).1
  refine work_handler standing.1 rfl (fun other _ away => ?_) ?_
  · exact units_congr (fun uart => absurd uart away) fun _ _ => rfl
  · rw [ready, Sys.units, Sys.units, if_pos rfl, if_pos rfl]
    change 8 * s.echo.rx.length + 9 < 8 * s.rx.length + 2
    omega

theorem Inv.work_acknowledge (inv : Inv present s) {id slot : Nat} {isr : BitVec 32}
    (read : s.pc = .statusRead id slot isr) : (s.acknowledge id slot isr).work < s.work := by
  have standing := inv.standing
  rw [read] at standing
  obtain ⟨inside, notUart, found, _⟩ := standing
  have less := (inv.acknowledge read).1
  refine work_handler inside rfl (fun other known away => ?_) ?_
  · refine units_congr (fun _ => rfl) fun slot' found' => ?_
    refine Function.update_of_ne (fun same => away ?_) _ _
    rw [slotOfId_eq known found', same, slotOfId_eq (served_lt inside.served) found]
  · rw [read, units_slot notUart found, units_slot notUart found]
    change 8 * _ + 9 < 8 * _ + 2
    omega

theorem Inv.work_complete (inv : Inv present s) {id : Nat} (serviced : s.pc = .serviced id) :
    Sys.work { s with plic := Plic.complete id s.plic, pc := .outside } < s.work := by
  have standing := inv.standing
  rw [serviced] at standing
  have inside : InService present s.plic id := standing
  rw [(inv.complete serviced).1]
  have after : ∀ other, Sys.stage
      { s with plic := { s.plic with inService := ∅ }, pc := .outside } other =
        if other ∈ s.plic.pending then 4 else 5 := by
    intro other
    rw [Sys.stage, if_neg (Finset.notMem_empty other)]
  refine work_lt (served_lt inside.served) ?_ fun other _ away => ?_
  · rw [Sys.weight, Sys.weight, after, if_neg inside.idle, inside.stage_self, serviced]
    exact Nat.add_lt_add_left (show 5 < 9 by omega) _
  · rw [Sys.weight, Sys.weight, after, inside.stage_other away]
    rfl

theorem Inv.work_step (inv : Inv present s) {a : Action} (own : a.internal = true)
    (taken : s.step present a = some s') : s'.work < s.work := by
  cases a with
  | receive byte => cases own
  | raise slot config => cases own
  | wire id high => cases own
  | gateway id =>
      simp only [Sys.step] at taken
      split_ifs at taken with ready
      cases taken
      exact work_forward ready.1 ready.2.2.1 ready.2.2.2
  | trap asserted =>
      simp only [Sys.step] at taken
      split_ifs at taken with ready
      cases taken
      have up : asserted = true := own
      exact inv.work_enter ready.1 (ready.2.trans up)
  | handler =>
      cases pc : s.pc with
      | outside =>
          simp only [Sys.step, pc] at taken
          cases taken
      | claimed id =>
          simp only [Sys.step, pc] at taken
          cases taken
          exact inv.work_service pc
      | dataReady =>
          simp only [Sys.step, pc] at taken
          cases taken
          exact inv.work_echo pc
      | statusRead id slot isr =>
          simp only [Sys.step, pc] at taken
          cases taken
          exact inv.work_acknowledge pc
      | serviced id =>
          simp only [Sys.step, pc] at taken
          cases taken
          exact inv.work_complete pc

/-- Where neither the controller nor the handler can go on, no served line is up. -/
theorem Inv.rest (inv : Inv present s)
    (stuck : ∀ a : Action, a.internal = true → s.step present a = none) :
    s.rx = [] ∧ ∀ id, Served present id → s.line id = false := by
  have outside : s.pc = .outside := by
    have halted := stuck .handler rfl
    cases pc : s.pc with
    | outside => rfl
    | _ => simp only [Sys.step, pc, reduceCtorEq] at halted
  have down : s.plic.meip = false := by
    cases up : s.plic.meip with
    | false => rfl
    | true =>
        have halted := stuck (.trap true) rfl
        rw [Sys.step, if_pos ⟨outside, up⟩] at halted
        cases halted
  have free : s.plic.inService = ∅ := by
    have standing := inv.standing
    rw [outside] at standing
    exact standing
  have quiet : ∀ id, Served present id → s.line id = false := by
    intro id served
    by_contra raised
    have up : s.line id = true := Bool.not_eq_false _ ▸ raised
    by_cases pending : id ∈ s.plic.pending
    · have nonzero : id ≠ 0 := by
        rcases served with uart | virtio
        · rw [uart, uart0Irq]
          omega
        · obtain ⟨slot, _, _, rfl⟩ := mem_irqs.mp virtio
          omega
      have candidate : id ∈ s.plic.candidates := Plic.mem_candidates.mpr
        ⟨served_lt served, nonzero, pending, (inv.routes.enabled id).mpr served,
          inv.routes.passes id served⟩
      rw [Plic.meip_iff.mpr ⟨id, candidate⟩] at down
      cases down
    · have idle : id ∉ s.plic.inService := by
        rw [free]
        exact Finset.notMem_empty id
      have halted := stuck (.gateway id) rfl
      rw [Sys.step, if_pos ⟨served_lt served, up, pending, idle⟩] at halted
      cases halted
  refine ⟨?_, quiet⟩
  by_contra waiting
  have up := (line_uart s).mpr waiting
  rw [quiet uart0Irq (Or.inl rfl)] at up
  cases up

/-- When the devices are quiet, controller and handler stop within a bound that depends on
the state only.  Where they stop every byte accepted so far has been echoed and no line of a
served source is up. -/
theorem interrupts_settle (present : Nat → Bool) (s : Sys)
    (reached : (external present).Reach s) :
    ∃ bound, ∀ (actions : List Action) (s' : Sys), (∀ a ∈ actions, a.internal = true) →
      (external present).run s actions = some s' →
      actions.length ≤ bound ∧
      ((∀ a : Action, a.internal = true → s'.step present a = none) →
        (s'.escState, s'.printed) = echoAll .idle s'.accepted ∧
        ∀ id, Served present id → s'.line id = false) := by
  refine ⟨s.work, fun actions s' own run => ⟨?_, fun stuck => ?_⟩⟩
  · have lower : ∀ (t : Sys) (a : Action) (t' : Sys), Inv present t → a.internal = true →
        t.step present a = some t' → Inv present t' ∧ t'.work < t.work :=
      fun t a t' inv internal taken => ⟨inv.step taken, inv.work_step internal taken⟩
    have bound := System.run_length_le (M := external present) lower (reach_inv reached) own run
    exact (Nat.le_add_right _ _).trans bound
  · have inv := reach_inv (reached.run run)
    obtain ⟨empty, quiet⟩ := inv.rest stuck
    refine ⟨?_, quiet⟩
    rw [inv.stream, empty, List.append_nil]
    exact inv.echoed

theorem interrupts_settle_typedA :
    ∃ bound, ∀ (actions : List Action) (s' : Sys), (∀ a ∈ actions, a.internal = true) →
      (external oneDevice).run typedA actions = some s' →
      actions.length ≤ bound ∧
      ((∀ a : Action, a.internal = true → s'.step oneDevice a = none) →
        (s'.escState, s'.printed) = echoAll .idle s'.accepted ∧
        ∀ id, Served oneDevice id → s'.line id = false) :=
  interrupts_settle oneDevice typedA reach_typedA

end Vesper.Console.External
