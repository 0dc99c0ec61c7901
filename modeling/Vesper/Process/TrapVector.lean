import Mathlib.Tactic
import Vesper.Process.Trap

/-!
# What the trap vector computes

The vector saves `x1` to `x31` in the frame `mscratch` points at, runs the dispatcher and
restores `x1` to `x31` from the frame `mscratch` points at then.  `takeTrap_eq` says so
in one equation, with the detour of `x31` through `mscratch` and `t5` resolved.
-/

set_option autoImplicit false

namespace Vesper.Trap

open Vesper.Scheduler

variable {σ : Type} {L : Layout} {env : TrapEnv σ}

theorem wordAt_inj {base : BitVec 64} {j k : Nat} (left : j < 2 ^ 60) (right : k < 2 ^ 60)
    (same : wordAt base j = wordAt base k) : j = k := by
  have bound := base.isLt
  simp only [wordAt, BitVec.toNat_add, BitVec.toNat_ofNat] at same
  omega

def storeWords (base : BitVec 64) (f : Nat → BitVec 64) (ks : List Nat) (mem : Memory) :
    Memory :=
  ks.foldl (fun mem k => Function.update mem (wordAt base k) (f k)) mem

theorem storeWords_miss {base : BitVec 64} {f : Nat → BitVec 64} {ks : List Nat}
    {mem : Memory} {a : Nat} (miss : ∀ k ∈ ks, a ≠ wordAt base k) :
    storeWords base f ks mem a = mem a := by
  induction ks generalizing mem with
  | nil => rfl
  | cons k rest ih =>
      have tail : storeWords base f (k :: rest) mem a =
          Function.update mem (wordAt base k) (f k) a :=
        ih fun j member => miss j (List.mem_cons_of_mem _ member)
      exact tail.trans (Function.update_of_ne (miss k List.mem_cons_self) _ _)

theorem storeWords_hit {base : BitVec 64} {f : Nat → BitVec 64} {ks : List Nat}
    {mem : Memory} {k : Nat} (small : ∀ j ∈ ks, j < frameWords) (member : k ∈ ks) :
    storeWords base f ks mem (wordAt base k) = f k := by
  induction ks generalizing mem with
  | nil => cases member
  | cons j rest ih =>
      have later : ∀ i ∈ rest, i < frameWords :=
        fun i inside => small i (List.mem_cons_of_mem _ inside)
      by_cases again : k ∈ rest
      · exact ih later again
      · have head : k = j := (List.mem_cons.mp member).resolve_right again
        subst head
        have bound := small k List.mem_cons_self
        have fresh : ∀ i ∈ rest, wordAt base k ≠ wordAt base i := by
          intro i inside same
          have limit := later i inside
          unfold frameWords at bound limit
          exact again (wordAt_inj (by omega) (by omega) same ▸ inside)
        have last : storeWords base f (k :: rest) mem (wordAt base k) =
            Function.update mem (wordAt base k) (f k) (wordAt base k) := storeWords_miss fresh
        exact last.trans (Function.update_self _ _ _)

theorem execAll_append (first second : List Instr) (m : Machine) :
    execAll L env (first ++ second) m = (execAll L env first m).bind (execAll L env second) := by
  induction first generalizing m with
  | nil => rfl
  | cons instr rest ih =>
      simp only [List.cons_append, execAll, Option.bind_assoc]
      congr 1
      funext m'
      exact ih m'

theorem execAll_saves (base : Nat) (ks : List Nat) (m : Machine) :
    execAll L env (ks.map (saveGp base)) m =
      some { m with core := { m.core with mem := storeWords (m.x base) m.x ks m.core.mem } } := by
  induction ks generalizing m with
  | nil => rfl
  | cons k rest ih => exact ih _

def loadWords (base : BitVec 64) (mem : Memory) (ks : List Nat) (x : Nat → BitVec 64) :
    Nat → BitVec 64 :=
  ks.foldl (fun x k => Function.update x k (mem (wordAt base k))) x

theorem loadWords_apply {base : BitVec 64} {mem : Memory} {ks : List Nat}
    {x : Nat → BitVec 64} (r : Nat) :
    loadWords base mem ks x r = if r ∈ ks then mem (wordAt base r) else x r := by
  induction ks generalizing x with
  | nil => rfl
  | cons k rest ih =>
      have tail := ih (x := Function.update x k (mem (wordAt base k)))
      change loadWords base mem rest _ r = _
      rw [tail]
      by_cases later : r ∈ rest
      · rw [if_pos later, if_pos (List.mem_cons_of_mem _ later)]
      · rw [if_neg later]
        by_cases here : r = k
        · subst here
          rw [Function.update_self, if_pos List.mem_cons_self]
        · rw [Function.update_of_ne here, if_neg]
          exact fun inside => (List.mem_cons.mp inside).elim here later

theorem execAll_loads (base : Nat) (ks : List Nat) (m : Machine) (kept : base ∉ ks) :
    execAll L env (ks.map (loadGp base)) m =
      some { m with x := loadWords (m.x base) m.core.mem ks m.x } := by
  induction ks generalizing m with
  | nil => rfl
  | cons k rest ih =>
      have apart : base ≠ k := fun same => kept (same ▸ List.mem_cons_self)
      have tail := ih (m.setX k (m.core.mem (wordAt (m.x base) k)))
        fun inside => kept (List.mem_cons_of_mem _ inside)
      have same : (m.setX k (m.core.mem (wordAt (m.x base) k))).x base = m.x base :=
        Function.update_of_ne apart _ _
      rw [same] at tail
      exact tail

def Machine.saved (m : Machine) : Core :=
  { m.core with mem := storeWords m.core.mscratch m.x (List.range' 1 31) m.core.mem }

def Machine.resumed (m : Machine) (env : TrapEnv σ) (cause pc : BitVec 64) (core : Core) :
    Machine :=
  let mem := overlay env.stir core.mem
  { m with
    x := loadWords core.mscratch mem (List.range' 1 31)
      (Function.update (Function.update env.clobber a0 pc) 0 0)
    pc := pc
    mepc := pc
    mcause := cause
    mtval := env.tval
    core := { core with mem := mem } }

theorem storeWords_congr {base : BitVec 64} {f g : Nat → BitVec 64} {ks : List Nat}
    {mem : Memory} (same : ∀ k ∈ ks, f k = g k) :
    storeWords base f ks mem = storeWords base g ks mem := by
  induction ks generalizing mem with
  | nil => rfl
  | cons k rest ih =>
      simp only [storeWords, List.foldl_cons, same k List.mem_cons_self]
      exact ih fun j member => same j (List.mem_cons_of_mem _ member)

/-- The `mscratch` swap makes `t6` the frame pointer while `x1` to `x30` are stored;
`x31` follows from `mscratch`. -/
theorem storeWords_saved (base : BitVec 64) (x : Nat → BitVec 64) (mem : Memory) :
    Function.update (storeWords base (Function.update x 31 base) (List.range' 1 30) mem)
      (wordAt base 31) (x 31) = storeWords base x (List.range' 1 31) mem := by
  have split : List.range' 1 31 = List.range' 1 30 ++ [31] := rfl
  have same : storeWords base (Function.update x 31 base) (List.range' 1 30) mem =
      storeWords base x (List.range' 1 30) mem := by
    apply storeWords_congr
    intro k member
    apply Function.update_of_ne
    have := (List.mem_range'_1.mp member).2
    omega
  rw [same, split, storeWords, storeWords, List.foldl_append]
  rfl

@[simp] theorem Machine.setX_x_same (m : Machine) (rd : Nat) (v : BitVec 64) :
    (m.setX rd v).x rd = v := by
  simp only [Machine.setX, Function.update_self]

theorem Machine.setX_x_other (m : Machine) {rd r : Nat} (v : BitVec 64) (apart : r ≠ rd) :
    (m.setX rd v).x r = m.x r := by
  simp only [Machine.setX, Function.update_of_ne apart]

/-! The vector in four parts. -/

def swapAndSave : List Instr :=
  [.csrrw t6 .mscratch t6] ++ (List.range' 1 30).map (saveGp t6)

def saveX31 : List Instr :=
  [.mv t5 t6, .csrr t6 .mscratch, saveGp t5 31, .csrw .mscratch t5]

def setArguments : List Instr :=
  [.csrr 10 .mepc, .csrr 11 .mtval, .csrr 12 .mcause, .csrr 13 .mhartid, .csrr 14 .mstatus,
    .mv 15 t5, .ld sp trapStackWord 15]

def restore : List Instr :=
  [.csrw .mepc a0, .csrr t6 .mscratch] ++ ((List.range' 1 31).map (loadGp t6) ++ [.mret])

theorem mTrapVector_parts :
    mTrapVector =
      (swapAndSave ++ (saveX31 ++ setArguments)) ++ ([.callMTrap] ++ restore) := by
  simp only [mTrapVector, swapAndSave, saveX31, setArguments, restore, List.append_assoc,
    List.cons_append, List.nil_append]

/-- The swap of `t6` and `mscratch`, then `x1` to `x30`. -/
theorem execAll_swapAndSave (m : Machine) :
    execAll L env swapAndSave m =
      some { m with
        x := Function.update m.x 31 m.core.mscratch
        core := { m.core with
          mscratch := m.x 31
          mem := storeWords m.core.mscratch (Function.update m.x 31 m.core.mscratch)
            (List.range' 1 30) m.core.mem } } := by
  have swap : execAll L env [.csrrw t6 .mscratch t6] m =
      some { m with
        x := Function.update m.x 31 m.core.mscratch
        core := { m.core with mscratch := m.x 31 } } := rfl
  rw [swapAndSave, execAll_append, swap, Option.bind_some, execAll_saves]
  simp only [Function.update_self]

/-- `t6` holds the frame pointer and `mscratch` the old `x31`: both go home. -/
theorem execAll_saveX31 (L : Layout) (env : TrapEnv σ) (m : Machine) :
    ∃ x, execAll L env saveX31 m =
        some { m with
          x := x
          core := { m.core with
            mscratch := m.x 31
            mem := Function.update m.core.mem (wordAt (m.x 31) 31) m.core.mscratch } } ∧
      x 30 = m.x 31 := by
  have frame : ((m.setX t5 (m.x t6)).setX t6 m.core.mscratch).x t5 = m.x t6 := by
    rw [Machine.setX_x_other _ _ (by decide), Machine.setX_x_same]
  refine ⟨((m.setX t5 (m.x t6)).setX t6 m.core.mscratch).x, ?_, frame⟩
  simp only [saveX31, execAll, exec, saveGp, Option.bind_some, Machine.setX_x_same,
    Machine.readCsr, Machine.writeCsr]
  rfl

theorem execAll_setArguments (L : Layout) (env : TrapEnv σ) (m : Machine) :
    ∃ x, execAll L env setArguments m = some { m with x := x } ∧
      x 10 = m.mepc ∧ x 12 = m.mcause ∧ x 15 = m.x 30 := by
  refine ⟨((((((m.setX 10 m.mepc).setX 11 m.mtval).setX 12 m.mcause).setX 13 m.mhartid).setX
    14 m.mstatus).setX 15 (m.x 30) |>.setX 2 (m.core.mem (wordAt (m.x 30) 65))).x,
    ?_, ?_, ?_, ?_⟩
  · simp only [setArguments, execAll, exec, Option.bind_some]
    rfl
  · simp [Machine.setX]
  · simp [Machine.setX]
  · simp [Machine.setX]

theorem execAll_save (L : Layout) (env : TrapEnv σ) (m : Machine) :
    ∃ x, execAll L env (swapAndSave ++ (saveX31 ++ setArguments)) m =
        some { m with x := x, core := m.saved } ∧
      x 10 = m.mepc ∧ x 12 = m.mcause ∧ x 15 = m.core.mscratch := by
  rw [execAll_append, execAll_swapAndSave, Option.bind_some, execAll_append]
  obtain ⟨x₁, stored, pointer⟩ := execAll_saveX31 L env
    { m with
      x := Function.update m.x 31 m.core.mscratch
      core := { m.core with
        mscratch := m.x 31
        mem := storeWords m.core.mscratch (Function.update m.x 31 m.core.mscratch)
          (List.range' 1 30) m.core.mem } }
  simp only [Function.update_self, storeWords_saved] at stored pointer
  rw [stored, Option.bind_some]
  obtain ⟨x₂, args, epc, cause, frame⟩ := execAll_setArguments L env
    { m with x := x₁, core := m.saved }
  exact ⟨x₂, args, epc, cause, frame.trans pointer⟩

theorem loadWords_last (base : BitVec 64) (mem : Memory) (x : Nat → BitVec 64) :
    Function.update (loadWords base mem (List.range' 1 30) (Function.update x 31 base)) 31
      (mem (wordAt base 31)) = loadWords base mem (List.range' 1 31) x := by
  funext r
  rw [loadWords_apply]
  by_cases last : r = 31
  · subst last
    rw [Function.update_self, if_pos (by decide)]
  · rw [Function.update_of_ne last, loadWords_apply, Function.update_of_ne last]
    have same : r ∈ List.range' 1 30 ↔ r ∈ List.range' 1 31 := by
      rw [List.mem_range'_1, List.mem_range'_1]
      omega
    simp only [same]

theorem execAll_restore (m : Machine) :
    execAll L env restore m =
      some { m with
        x := loadWords m.core.mscratch m.core.mem (List.range' 1 31) m.x
        pc := m.x 10
        mepc := m.x 10 } := by
  have start : execAll L env [.csrw .mepc a0, .csrr t6 .mscratch] m =
      some { m with x := Function.update m.x 31 m.core.mscratch, mepc := m.x 10 } := rfl
  have split : (List.range' 1 31).map (loadGp t6) =
      (List.range' 1 30).map (loadGp t6) ++ [loadGp t6 31] := rfl
  have kept : loadWords m.core.mscratch m.core.mem (List.range' 1 30)
      (Function.update m.x 31 m.core.mscratch) 31 = m.core.mscratch := by
    rw [loadWords_apply, if_neg (by decide), Function.update_self]
  rw [restore, execAll_append, start, Option.bind_some, split, List.append_assoc, execAll_append,
    execAll_loads _ _ _ (by decide), Option.bind_some]
  simp only [List.cons_append, List.nil_append, execAll, exec, loadGp, Option.bind_some,
    Machine.setX, Function.update_self, kept, loadWords_last]

theorem execAll_callMTrap (m : Machine) :
    execAll L env [.callMTrap] m =
      (mTrap L env (m.x 10) (m.x 12) (m.x 15) m.core).map fun (pc, core) =>
        { m with
          x := Function.update (Function.update env.clobber a0 pc) 0 0
          core := { core with mem := overlay env.stir core.mem } } := by
  rw [execAll, exec]
  cases mTrap L env (m.x 10) (m.x 12) (m.x 15) m.core with
  | none => rfl
  | some result => rfl

theorem takeTrap_eq (cause : BitVec 64) (m : Machine) :
    takeTrap L env cause m =
      (mTrap L env m.pc cause m.core.mscratch m.saved).map fun (pc, core) =>
        m.resumed env cause pc core := by
  obtain ⟨x, saves, epc, reason, frame⟩ := execAll_save L env
    { m with mepc := m.pc, mcause := cause, mtval := env.tval }
  rw [takeTrap, mTrapVector_parts, execAll_append, saves, Option.bind_some, execAll_append,
    execAll_callMTrap]
  dsimp only at epc reason frame ⊢
  rw [epc, reason, frame]
  change ((mTrap L env m.pc cause m.core.mscratch m.saved).map _).bind _ = _
  cases mTrap L env m.pc cause m.core.mscratch m.saved with
  | none => rfl
  | some result =>
      rw [Option.map_some, Option.bind_some, execAll_restore, Option.map_some]
      rfl

attribute [irreducible] storeWords loadWords

end Vesper.Trap
