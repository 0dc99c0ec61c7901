import Mathlib.Data.List.MinMax
import Mathlib.Tactic

/-!
# The interrupt controller

The driver of `drivers/plic/mod.rs` for the context of hart 0, over the registers it touches.
The controller itself is modelled as far as the handler depends on it: a gateway forwards a
raised line once and then waits for the completion; reading the claim register takes the
pending source of the highest priority, of these the lowest number; a completion for a
source that is not enabled is ignored.
-/

set_option autoImplicit false

namespace Vesper.Plic

/-- The platform has at most this many sources; source 0 stands for none. -/
def sources : Nat := 1024

def uart0Irq : Nat := 10

/-- `enables` is the word for the sources below 32, the only one the driver writes. -/
structure Regs where
  priority : Nat → BitVec 32
  enables : BitVec 32
  threshold : BitVec 32
  pending : Finset Nat
  inService : Finset Nat

/-! ## The controller -/

def Regs.deliverable (p : Regs) (id : Nat) : Bool :=
  id != 0 && decide (id ∈ p.pending) && p.enables.getLsbD id &&
    decide (p.threshold < p.priority id)

@[irreducible] def Regs.candidates (p : Regs) : List Nat :=
  (List.range sources).filter p.deliverable

def Regs.meip (p : Regs) : Bool := !p.candidates.isEmpty

/-- The gateway of a raised line sends a request. -/
def Regs.forward (p : Regs) (id : Nat) : Regs := { p with pending := insert id p.pending }

def Regs.readClaim (p : Regs) : Nat × Regs :=
  match p.candidates.argmax fun id => (p.priority id).toNat with
  | none => (0, p)
  | some id =>
      (id, { p with pending := p.pending.erase id, inService := insert id p.inService })

def Regs.writeComplete (p : Regs) (id : Nat) : Regs :=
  if p.enables.getLsbD id then { p with inService := p.inService.erase id } else p

/-! ## The driver -/

def enable (id : Nat) (p : Regs) : Regs :=
  { p with enables := p.enables ||| (1 : BitVec 32) <<< (id % 32) }

def setPriority (id : Nat) (prio : BitVec 8) (p : Regs) : Regs :=
  { p with priority := Function.update p.priority id (prio.setWidth 32 &&& 7) }

def setThreshold (tsh : BitVec 8) (p : Regs) : Regs :=
  { p with threshold := tsh.setWidth 32 &&& 7 }

def next (p : Regs) : Option Nat × Regs :=
  let (claim, p) := p.readClaim
  if claim = 0 then (none, p) else (some claim, p)

def complete (id : Nat) (p : Regs) : Regs := p.writeComplete id

def route (p : Regs) (id : Nat) : Regs := setPriority id 1 (enable id p)

/-- What `kinit` writes, `irqs` being the interrupts `configured_irqs` yields. -/
def configure (irqs : List Nat) (p : Regs) : Regs :=
  irqs.foldl route (route (setThreshold 0 p) uart0Irq)

/-! ## Claims -/

theorem mem_candidates {p : Regs} {id : Nat} :
    id ∈ p.candidates ↔ id < sources ∧ id ≠ 0 ∧ id ∈ p.pending ∧
      p.enables.getLsbD id = true ∧ p.threshold < p.priority id := by
  unfold Regs.candidates
  rw [List.mem_filter, List.mem_range]
  simp only [Regs.deliverable, Bool.and_eq_true, bne_iff_ne, decide_eq_true_eq, and_assoc]

theorem meip_iff {p : Regs} : p.meip = true ↔ ∃ id, id ∈ p.candidates := by
  rw [Regs.meip, Bool.not_eq_true', List.isEmpty_eq_false_iff_exists_mem]

theorem next_cases (p : Regs) :
    (p.meip = false ∧ next p = (none, p)) ∨
    ∃ id ∈ p.candidates, p.meip = true ∧
      (∀ other ∈ p.candidates, (p.priority other).toNat ≤ (p.priority id).toNat) ∧
      next p = (some id,
        { p with pending := p.pending.erase id, inService := insert id p.inService }) := by
  unfold next Regs.readClaim
  cases best : p.candidates.argmax fun id => (p.priority id).toNat with
  | none =>
      have empty : p.candidates = [] := List.argmax_eq_none.mp best
      exact Or.inl ⟨by rw [Regs.meip, empty]; rfl, rfl⟩
  | some id =>
      have member : id ∈ p.candidates := List.argmax_mem best
      have positive : id ≠ 0 := (mem_candidates.mp member).2.1
      have asserted : p.meip = true := meip_iff.mpr ⟨id, member⟩
      refine Or.inr ⟨id, member, asserted, ?_, if_neg positive⟩
      intro other candidate
      exact List.le_of_mem_argmax (f := fun id => (p.priority id).toNat) candidate best

/-! ## What the boot code configures -/

/-- Exactly the sources `on` are enabled, and they are let through. -/
structure Routes (p : Regs) (on : Nat → Prop) : Prop where
  enabled : ∀ id, p.enables.getLsbD id = true ↔ on id
  passes : ∀ id, on id → p.threshold < p.priority id

theorem getLsbD_enable {id : Nat} (small : id < 32) (p : Regs) (other : Nat) :
    (enable id p).enables.getLsbD other = true ↔
      p.enables.getLsbD other = true ∨ other = id := by
  rw [enable, Nat.mod_eq_of_lt small, BitVec.getLsbD_or, Bool.or_eq_true]
  refine or_congr Iff.rfl ?_
  rw [BitVec.getLsbD_shiftLeft, show (1 : BitVec 32) = 1#32 from rfl, BitVec.getLsbD_one]
  simp only [Bool.and_eq_true, decide_eq_true_eq, Bool.not_eq_true', decide_eq_false_iff_not]
  omega

theorem Routes.route {p : Regs} {on : Nat → Prop} (routes : Routes p on) (open_ : p.threshold = 0)
    {id : Nat} (small : id < 32) :
    Routes (Vesper.Plic.route p id) (fun other => on other ∨ other = id) := by
  constructor
  · intro other
    rw [Vesper.Plic.route, setPriority, getLsbD_enable small, routes.enabled]
  · intro other chosen
    change p.threshold < Function.update p.priority id _ other
    by_cases same : other = id
    · rw [same, Function.update_self, open_]
      decide
    · rw [Function.update_of_ne same]
      exact routes.passes other (chosen.resolve_right same)

theorem configure_routes {p : Regs} (off : p.enables = 0) {irqs : List Nat}
    (small : ∀ id ∈ irqs, id < 32) :
    Routes (configure irqs p) (fun id => id = uart0Irq ∨ id ∈ irqs) ∧
      (configure irqs p).pending = p.pending ∧ (configure irqs p).inService = p.inService := by
  have start : Routes (route (setThreshold 0 p) uart0Irq) (· = uart0Irq) := by
    have none : Routes (setThreshold 0 p) (fun _ => False) :=
      ⟨fun id => by simp [setThreshold, off], fun _ never => never.elim⟩
    simpa using none.route rfl (show uart0Irq < 32 by decide)
  -- The loop keeps the threshold and adds one source a round.
  have loop : ∀ (irqs : List Nat) (q : Regs) (on : Nat → Prop), Routes q on → q.threshold = 0 →
      (∀ id ∈ irqs, id < 32) →
      Routes (irqs.foldl route q) (fun id => on id ∨ id ∈ irqs) ∧
        (irqs.foldl route q).pending = q.pending ∧
        (irqs.foldl route q).inService = q.inService := by
    intro irqs
    induction irqs with
    | nil => exact fun q on routes _ _ => ⟨by simpa using routes, rfl, rfl⟩
    | cons irq rest ih =>
        intro q on routes open_ small
        have head := routes.route open_ (small irq List.mem_cons_self)
        obtain ⟨routed, pending, inService⟩ := ih (route q irq) _ head open_
          fun id member => small id (List.mem_cons_of_mem _ member)
        refine ⟨?_, pending, inService⟩
        simpa only [List.foldl_cons, List.mem_cons, or_assoc] using routed
  exact loop irqs _ _ start rfl small

end Vesper.Plic
