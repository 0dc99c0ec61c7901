import Vesper.Boot.KernelMap
import Vesper.Lib.Transition

/-!
# From reset to `kinit`

Model of `asm/boot.S`: the code from `_start` to its `mret`, instruction by instruction.  All
harts start at once on one memory and step in any order.  Every hart but hart 0 parks without
writing to memory or to a control register.  Hart 0 clears `.bss` in doublewords, so that up
to seven bytes behind `_bss_end` are cleared as well, and enters `kinit` in machine mode.
-/

set_option autoImplicit false

namespace Vesper.Boot.Start

open Vesper.Lib (System)

/-! ## The machine -/

inductive Reg where
  | zero | ra | sp | gp | t0 | t1 | t2 | a0 | a1
  deriving DecidableEq

structure Regs where
  ra : BitVec 64
  sp : BitVec 64
  gp : BitVec 64
  t0 : BitVec 64
  t1 : BitVec 64
  t2 : BitVec 64
  a0 : BitVec 64
  a1 : BitVec 64

def Regs.get (x : Regs) : Reg → BitVec 64
  | .zero => 0
  | .ra => x.ra
  | .sp => x.sp
  | .gp => x.gp
  | .t0 => x.t0
  | .t1 => x.t1
  | .t2 => x.t2
  | .a0 => x.a0
  | .a1 => x.a1

def Regs.set (x : Regs) (v : BitVec 64) : Reg → Regs
  | .zero => x
  | .ra => { x with ra := v }
  | .sp => { x with sp := v }
  | .gp => { x with gp := v }
  | .t0 => { x with t0 := v }
  | .t1 => { x with t1 := v }
  | .t2 => { x with t2 := v }
  | .a0 => { x with a0 := v }
  | .a1 => { x with a1 := v }

inductive Csr where
  | mhartid | satp | pmpaddr0 | pmpcfg0 | mstatus | mepc | mtvec
  deriving DecidableEq

structure Csrs where
  mhartid : BitVec 64
  satp : BitVec 64
  pmpaddr0 : BitVec 64
  pmpcfg0 : BitVec 64
  mstatus : BitVec 64
  mepc : BitVec 64
  mtvec : BitVec 64

def Csrs.get (c : Csrs) : Csr → BitVec 64
  | .mhartid => c.mhartid
  | .satp => c.satp
  | .pmpaddr0 => c.pmpaddr0
  | .pmpcfg0 => c.pmpcfg0
  | .mstatus => c.mstatus
  | .mepc => c.mepc
  | .mtvec => c.mtvec

/-- `mhartid` is read-only. -/
def Csrs.set (c : Csrs) (v : BitVec 64) : Csr → Csrs
  | .mhartid => c
  | .satp => { c with satp := v }
  | .pmpaddr0 => { c with pmpaddr0 := v }
  | .pmpcfg0 => { c with pmpcfg0 := v }
  | .mstatus => { c with mstatus := v }
  | .mepc => { c with mepc := v }
  | .mtvec => { c with mtvec := v }

/-- The linker symbols the code takes addresses of, `park` being its own label `4`.  Behind
`_bss_end` there are at least seven more addresses. -/
structure Symbols where
  globalPointer : BitVec 64
  bssStart : BitVec 64
  bssEnd : BitVec 64
  stackEnd : BitVec 64
  kinit : BitVec 64
  asmTrapVector : BitVec 64
  park : BitVec 64
  fits : bssEnd.toNat + 7 < 2 ^ 64

inductive Symbol where
  | globalPointer | bssStart | bssEnd | stackEnd | kinit | asmTrapVector | park

def Symbols.addr (sym : Symbols) : Symbol → BitVec 64
  | .globalPointer => sym.globalPointer
  | .bssStart => sym.bssStart
  | .bssEnd => sym.bssEnd
  | .stackEnd => sym.stackEnd
  | .kinit => sym.kinit
  | .asmTrapVector => sym.asmTrapVector
  | .park => sym.park

/-- Branches name their target by its place in the code. -/
inductive Instr where
  | csrr (rd : Reg) (csr : Csr)
  | csrw (csr : Csr) (rs : Reg)
  | li (rd : Reg) (imm : BitVec 64)
  | la (rd : Reg) (sym : Symbol)
  | addi (rd rs : Reg) (imm : BitVec 64)
  | sd (rs base : Reg)
  | bnez (rs : Reg) (target : Nat)
  | bgeu (left right : Reg) (target : Nat)
  | bltu (left right : Reg) (target : Nat)
  | j (target : Nat)
  | wfi
  | mret

def mie : BitVec 64 := (1 : BitVec 64) <<< 3
def mpie : BitVec 64 := (1 : BitVec 64) <<< 7
def mpp : BitVec 64 := (0b11 : BitVec 64) <<< 11

def bootCode : List Instr :=
  [.csrr .t0 .mhartid,
   .bnez .t0 23,
   .csrw .satp .zero,
   .li .t0 (-1),
   .csrw .pmpaddr0 .t0,
   .li .t0 0x0f,
   .csrw .pmpcfg0 .t0,
   .la .gp .globalPointer,
   .la .a0 .bssStart,
   .la .a1 .bssEnd,
   .bgeu .a0 .a1 14,
   -- 1:
   .sd .zero .a0,
   .addi .a0 .a0 8,
   .bltu .a0 .a1 11,
   -- 2:
   .la .sp .stackEnd,
   .li .t0 (mpp ||| mpie),
   .csrw .mstatus .t0,
   .la .t1 .kinit,
   .csrw .mepc .t1,
   .la .t2 .asmTrapVector,
   .csrw .mtvec .t2,
   .la .ra .park,
   .mret,
   -- 3:
   .wfi,
   .j 23,
   -- 4:
   .wfi,
   .j 25]

inductive Mode where
  | user | supervisor | reserved | machine
  deriving DecidableEq

def modeOf (mpp : BitVec 2) : Mode :=
  if mpp = 0 then .user else if mpp = 1 then .supervisor else if mpp = 2 then .reserved
  else .machine

inductive Pc where
  | boot (n : Nat)
  | elsewhere (addr : BitVec 64)
  deriving DecidableEq

structure Hart where
  x : Regs
  csrs : Csrs
  mode : Mode
  pc : Pc

abbrev Memory := BitVec 64 → BitVec 8

def storeWord (mem : Memory) (addr v : BitVec 64) : Memory := fun a =>
  if (a - addr).toNat < 8 then (v >>> (8 * (a - addr).toNat)).setWidth 8 else mem a

/-- `mret`: `MPP` becomes the mode, `MPIE` the interrupt enable, and both are reset. -/
def mretStatus (mstatus : BitVec 64) : BitVec 64 :=
  (mstatus &&& ~~~(mpp ||| mie)) ||| (mstatus >>> 4 &&& mie) ||| mpie

def exec (sym : Symbols) (n : Nat) (hart : Hart) (mem : Memory) : Instr → Hart × Memory
  | .csrr rd csr =>
      ({ hart with x := hart.x.set (hart.csrs.get csr) rd, pc := .boot (n + 1) }, mem)
  | .csrw csr rs =>
      ({ hart with csrs := hart.csrs.set (hart.x.get rs) csr, pc := .boot (n + 1) }, mem)
  | .li rd imm => ({ hart with x := hart.x.set imm rd, pc := .boot (n + 1) }, mem)
  | .la rd s => ({ hart with x := hart.x.set (sym.addr s) rd, pc := .boot (n + 1) }, mem)
  | .addi rd rs imm =>
      ({ hart with x := hart.x.set (hart.x.get rs + imm) rd, pc := .boot (n + 1) }, mem)
  | .sd rs base =>
      ({ hart with pc := .boot (n + 1) }, storeWord mem (hart.x.get base) (hart.x.get rs))
  | .bnez rs target =>
      ({ hart with pc := .boot (if hart.x.get rs = 0 then n + 1 else target) }, mem)
  | .bgeu left right target =>
      ({ hart with
        pc := .boot (if hart.x.get right ≤ hart.x.get left then target else n + 1) }, mem)
  | .bltu left right target =>
      ({ hart with
        pc := .boot (if hart.x.get left < hart.x.get right then target else n + 1) }, mem)
  | .j target => ({ hart with pc := .boot target }, mem)
  -- A wait for interrupts may end at any time.
  | .wfi => ({ hart with pc := .boot (n + 1) }, mem)
  | .mret =>
      ({ hart with
        mode := modeOf ((hart.csrs.mstatus >>> 11).setWidth 2)
        csrs := hart.csrs.set (mretStatus hart.csrs.mstatus) .mstatus
        pc := .elsewhere hart.csrs.mepc }, mem)

def step (sym : Symbols) (hart : Hart) (mem : Memory) : Option (Hart × Memory) :=
  match hart.pc with
  | .boot n => (bootCode[n]?).map (exec sym n hart mem)
  | .elsewhere _ => none

/-! ## All harts -/

structure Sys where
  harts : BitVec 64 → Hart
  mem : Memory

/-- At reset every hart is in machine mode at `_start`; its registers hold anything. -/
def AtReset (s : Sys) : Prop :=
  ∀ id, (s.harts id).pc = .boot 0 ∧ (s.harts id).mode = .machine ∧
    (s.harts id).csrs.mhartid = id

def Sys.next (sym : Symbols) (s : Sys) (id : BitVec 64) : Option Sys :=
  (step sym (s.harts id) s.mem).map fun (hart, mem) => ⟨Function.update s.harts id hart, mem⟩

/-- An action is the number of the hart that takes the next step. -/
def boot (sym : Symbols) : System where
  State := Sys
  Action := BitVec 64
  init := AtReset
  step := Sys.next sym

/-! ## Hart 0 -/

def steps (sym : Symbols) : Nat → Hart → Memory → Option (Hart × Memory)
  | 0, hart, mem => some (hart, mem)
  | n + 1, hart, mem => (steps sym n hart mem).bind fun (hart, mem) => step sym hart mem

/-- Doublewords of `.bss`, the last one perhaps not full. -/
def Symbols.words (sym : Symbols) : Nat := (sym.bssEnd.toNat - sym.bssStart.toNat + 7) / 8

def zeroed (mem : Memory) (start : BitVec 64) (count : Nat) : Memory := fun a =>
  if (a - start).toNat < count then 0 else mem a

/-- Hart 0 after `k` rounds of the loop over `.bss`. -/
def Symbols.head (sym : Symbols) (hart : Hart) (k : Nat) : Hart :=
  { hart with
    x := { hart.x with
      gp := sym.globalPointer
      t0 := 0x0f
      a0 := sym.bssStart + BitVec.ofNat 64 (8 * k)
      a1 := sym.bssEnd }
    csrs := { hart.csrs with satp := 0, pmpaddr0 := -1, pmpcfg0 := 0x0f }
    pc := .boot (if k < sym.words then 11 else 14) }

/-- Hart 0 at the first instruction of `kinit`. -/
def Symbols.arrived (sym : Symbols) (hart : Hart) : Hart :=
  { x := { hart.x with
      ra := sym.park
      sp := sym.stackEnd
      gp := sym.globalPointer
      t0 := mpp ||| mpie
      t1 := sym.kinit
      t2 := sym.asmTrapVector
      a0 := sym.bssStart + BitVec.ofNat 64 (8 * sym.words)
      a1 := sym.bssEnd }
    csrs := { hart.csrs with
      satp := 0
      pmpaddr0 := -1
      pmpcfg0 := 0x0f
      mstatus := mpie ||| mie
      mepc := sym.kinit
      mtvec := sym.asmTrapVector }
    mode := .machine
    pc := .elsewhere sym.kinit }

variable {sym : Symbols} {hart : Hart} {mem : Memory}

theorem lt_words {k : Nat} :
    k < sym.words ↔ sym.bssStart.toNat + 8 * k < sym.bssEnd.toNat := by
  unfold Symbols.words
  omega

theorem toNat_bss {k : Nat} (inside : k ≤ sym.words) :
    (sym.bssStart + BitVec.ofNat 64 (8 * k)).toNat = sym.bssStart.toNat + 8 * k := by
  have fits := sym.fits
  have small := sym.bssStart.isLt
  unfold Symbols.words at inside
  rw [BitVec.toNat_add, BitVec.toNat_ofNat]
  omega

theorem storeWord_zeroed (start : BitVec 64) {count : Nat} (small : count + 8 ≤ 2 ^ 64) :
    storeWord (zeroed mem start count) (start + BitVec.ofNat 64 count) 0 =
      zeroed mem start (count + 8) := by
  funext a
  have split : (a - (start + BitVec.ofNat 64 count)).toNat < 8 ↔
      count ≤ (a - start).toNat ∧ (a - start).toNat < count + 8 := by
    rw [show a - (start + BitVec.ofNat 64 count) = a - start - BitVec.ofNat 64 count by
        bv_omega,
      BitVec.toNat_sub (a - start), BitVec.toNat_ofNat]
    have := (a - start).isLt
    omega
  unfold storeWord zeroed
  simp only [split]
  split_ifs with word all before before
  · simp
  · omega
  · rfl
  · omega
  · omega
  · rfl

theorem steps_opening (entry : hart.pc = .boot 0) (first : hart.csrs.mhartid = 0) :
    steps sym 11 hart mem = some (sym.head hart 0, zeroed mem sym.bssStart 0) := by
  obtain ⟨x, ⟨mhartid, satp, pmpaddr0, pmpcfg0, mstatus, mepc, mtvec⟩, mode, pc⟩ := hart
  cases entry
  cases first
  have cleared : zeroed mem sym.bssStart 0 = mem := by
    funext a
    exact if_neg (Nat.not_lt_zero _)
  have target : (if sym.bssEnd ≤ sym.bssStart then 14 else 11) =
      if 0 < sym.words then 11 else 14 := by
    have enters : 0 < sym.words ↔ ¬ sym.bssEnd ≤ sym.bssStart := by
      rw [lt_words, BitVec.le_def]
      omega
    simp only [enters, ite_not]
  rw [cleared, Symbols.head, ← target]
  simp only [Nat.mul_zero, BitVec.add_zero]
  rfl

theorem steps_add (m n : Nat) :
    steps sym (m + n) hart mem =
      (steps sym m hart mem).bind fun (hart, mem) => steps sym n hart mem := by
  induction n with
  | zero =>
      rw [Nat.add_zero]
      cases steps sym m hart mem with
      | none => rfl
      | some c => rfl
  | succ k ih =>
      rw [← Nat.add_assoc, steps, ih]
      cases steps sym m hart mem with
      | none => rfl
      | some c => rfl

theorem steps_round {k : Nat} (more : k < sym.words) :
    steps sym 3 (sym.head hart k) (zeroed mem sym.bssStart (8 * k)) =
      some (sym.head hart (k + 1), zeroed mem sym.bssStart (8 * (k + 1))) := by
  have fits := sym.fits
  have inside := lt_words.mp more
  have small : 8 * k + 8 ≤ 2 ^ 64 := by omega
  have next : sym.bssStart + BitVec.ofNat 64 (8 * (k + 1)) =
      sym.bssStart + BitVec.ofNat 64 (8 * k) + 8 := by
    bv_omega
  have again : k + 1 < sym.words ↔ sym.bssStart + BitVec.ofNat 64 (8 * k) + 8 < sym.bssEnd := by
    rw [lt_words, ← next, BitVec.lt_def, toNat_bss more]
  rw [Nat.mul_succ, ← storeWord_zeroed sym.bssStart small]
  unfold Symbols.head
  simp only [next, again, if_pos more]
  rfl

theorem steps_head {k : Nat} (entry : hart.pc = .boot 0) (first : hart.csrs.mhartid = 0)
    (inside : k ≤ sym.words) :
    steps sym (11 + 3 * k) hart mem =
      some (sym.head hart k, zeroed mem sym.bssStart (8 * k)) := by
  induction k with
  | zero => exact steps_opening entry first
  | succ k ih =>
      rw [Nat.mul_succ, ← Nat.add_assoc, steps_add, ih (Nat.le_of_succ_le inside)]
      exact steps_round inside

theorem mret_mode : modeOf (((mpp ||| mpie) >>> 11).setWidth 2) = .machine := by decide

theorem mret_status : mretStatus (mpp ||| mpie) = mpie ||| mie := by decide

theorem steps_tail (mem : Memory) :
    steps sym 9 (sym.head hart sym.words) mem = some (sym.arrived hart, mem) := by
  unfold Symbols.head Symbols.arrived
  rw [if_neg (lt_irrefl _), ← mret_mode, ← mret_status]
  rfl

/-- Instructions of hart 0 from reset to `kinit`. -/
def Symbols.path (sym : Symbols) : Nat := 11 + 3 * sym.words + 9

theorem steps_path (entry : hart.pc = .boot 0) (first : hart.csrs.mhartid = 0) :
    steps sym sym.path hart mem =
      some (sym.arrived hart, zeroed mem sym.bssStart (8 * sym.words)) := by
  rw [Symbols.path, steps_add, steps_head entry first le_rfl]
  exact steps_tail _

theorem steps_isSome (entry : hart.pc = .boot 0) (first : hart.csrs.mhartid = 0) {n : Nat}
    (short : n ≤ sym.path) : (steps sym n hart mem).isSome = true := by
  obtain ⟨rest, path⟩ := Nat.exists_eq_add_of_le short
  have whole := @steps_path sym hart mem entry first
  rw [path, steps_add] at whole
  cases reached : steps sym n hart mem with
  | none =>
      rw [reached] at whole
      cases whole
  | some c => rfl

theorem steps_le_path (entry : hart.pc = .boot 0) (first : hart.csrs.mhartid = 0) {n : Nat}
    {c : Hart × Memory} (taken : steps sym n hart mem = some c) : n ≤ sym.path := by
  by_contra long
  obtain ⟨rest, more⟩ := Nat.exists_eq_add_of_lt (not_le.mp long)
  rw [more, Nat.add_assoc, Nat.add_comm rest, ← Nat.add_assoc, steps_add, steps,
    steps_path entry first] at taken
  cases taken

/-! ## What is written -/

theorem bootCode_stores_zero {rs base : Reg} (member : Instr.sd rs base ∈ bootCode) :
    rs = .zero := by
  simp only [bootCode, List.mem_cons, reduceCtorEq, Instr.sd.injEq, List.not_mem_nil, false_or,
    or_false] at member
  exact member.1

theorem step_stores {c : Hart × Memory} (taken : step sym hart mem = some c) (a : BitVec 64) :
    c.2 a = mem a ∨ c.2 a = 0 := by
  unfold step at taken
  split at taken
  · obtain ⟨instr, fetched, rfl⟩ := Option.map_eq_some_iff.mp taken
    cases instr with
    | sd rs base =>
        have zero := bootCode_stores_zero (List.mem_of_getElem? fetched)
        change storeWord mem _ (hart.x.get rs) a = mem a ∨ storeWord mem _ (hart.x.get rs) a = 0
        rw [zero, storeWord]
        split_ifs
        · exact Or.inr (by simp [Regs.get])
        · exact Or.inl rfl
    | _ => exact Or.inl rfl
  · cases taken

theorem steps_store {n : Nat} {c : Hart × Memory} (taken : steps sym n hart mem = some c)
    (a : BitVec 64) : c.2 a = mem a ∨ c.2 a = 0 := by
  induction n generalizing c with
  | zero =>
      cases taken
      exact Or.inl rfl
  | succ k ih =>
      obtain ⟨mid, before, last⟩ := Option.bind_eq_some_iff.mp taken
      rcases step_stores last a with same | zero
      · rw [same]
        exact ih before
      · exact Or.inr zero

/-- On its way hart 0 changes no byte that is left as it was at the end: it only ever
stores zeros. -/
theorem steps_outside (entry : hart.pc = .boot 0) (first : hart.csrs.mhartid = 0) {n : Nat}
    {c : Hart × Memory} (taken : steps sym n hart mem = some c) {a : BitVec 64}
    (away : 8 * sym.words ≤ (a - sym.bssStart).toNat) : c.2 a = mem a := by
  obtain ⟨rest, path⟩ := Nat.exists_eq_add_of_le (steps_le_path entry first taken)
  have whole := @steps_path sym hart mem entry first
  rw [path, steps_add, taken] at whole
  have final : zeroed mem sym.bssStart (8 * sym.words) a = mem a := if_neg (not_lt.mpr away)
  have later : zeroed mem sym.bssStart (8 * sym.words) a = c.2 a ∨
      zeroed mem sym.bssStart (8 * sym.words) a = 0 := steps_store whole a
  rw [final] at later
  rcases steps_store taken a with same | zero
  · exact same
  · rcases later with kept | cleared
    · exact kept.symm
    · rw [zero, cleared]

/-! ## The other harts -/

structure Parked (id : BitVec 64) (csrs : Csrs) (hart : Hart) : Prop where
  csrs : hart.csrs = csrs
  pc : hart.pc = .boot 0 ∨ (hart.pc = .boot 1 ∧ hart.x.t0 = id) ∨ hart.pc = .boot 23 ∨
    hart.pc = .boot 24

theorem step_at {n : Nat} {instr : Instr} (pc : hart.pc = .boot n)
    (fetched : bootCode[n]? = some instr) :
    step sym hart mem = some (exec sym n hart mem instr) := by
  rw [step, pc]
  dsimp only
  rw [fetched, Option.map_some]

theorem Parked.step {id : BitVec 64} {csrs : Csrs} (parked : Parked id csrs hart)
    (own : csrs.mhartid = id) (secondary : id ≠ 0) :
    ∃ hart', step sym hart mem = some (hart', mem) ∧ Parked id csrs hart' := by
  have same := parked.csrs
  rcases parked.pc with pc | ⟨pc, t0⟩ | pc | pc
  · have next : Start.step sym hart mem = some (exec sym 0 hart mem (.csrr .t0 .mhartid)) :=
      step_at pc rfl
    refine ⟨_, next, same, Or.inr (Or.inl ⟨rfl, ?_⟩)⟩
    change hart.csrs.mhartid = id
    rw [same, own]
  · have next : Start.step sym hart mem = some (exec sym 1 hart mem (.bnez .t0 23)) :=
      step_at pc rfl
    refine ⟨_, next, same, Or.inr (Or.inr (Or.inl ?_))⟩
    change Pc.boot (if hart.x.t0 = 0 then 2 else 23) = _
    rw [t0, if_neg secondary]
  · have next : Start.step sym hart mem = some (exec sym 23 hart mem .wfi) := step_at pc rfl
    exact ⟨_, next, same, Or.inr (Or.inr (Or.inr rfl))⟩
  · have next : Start.step sym hart mem = some (exec sym 24 hart mem (.j 23)) := step_at pc rfl
    exact ⟨_, next, same, Or.inr (Or.inr (Or.inl rfl))⟩

/-! ## Any order of steps -/

/-- After `n` steps of hart 0 and any of the others. -/
structure Follows (sym : Symbols) (s₀ s : Sys) (n : Nat) : Prop where
  first : steps sym n (s₀.harts 0) s₀.mem = some (s.harts 0, s.mem)
  others : ∀ id, id ≠ 0 → Parked id (s₀.harts id).csrs (s.harts id)

variable {s₀ s s' : Sys}

theorem Follows.start (reset : AtReset s₀) : Follows sym s₀ s₀ 0 :=
  ⟨rfl, fun id _ => ⟨rfl, Or.inl (reset id).1⟩⟩

theorem Follows.next {n : Nat} (reset : AtReset s₀) (follows : Follows sym s₀ s n)
    {id : BitVec 64} (taken : s.next sym id = some s') :
    Follows sym s₀ s' (n + if id = 0 then 1 else 0) := by
  obtain ⟨⟨hart, mem⟩, stepped, rfl⟩ := Option.map_eq_some_iff.mp taken
  by_cases zero : id = 0
  · subst zero
    refine ⟨?_, fun other away => ?_⟩
    · rw [if_pos rfl, steps, follows.first]
      dsimp only
      rw [Function.update_self]
      exact stepped
    · dsimp only
      rw [Function.update_of_ne away]
      exact follows.others other away
  · have moves := @Parked.step sym (s.harts id) s.mem id _ (follows.others id zero)
      (reset id).2.2 zero
    obtain ⟨hart', stepped', parked⟩ := moves
    rw [stepped] at stepped'
    cases stepped'
    refine ⟨?_, fun other away => ?_⟩
    · rw [if_neg zero, Nat.add_zero, follows.first]
      dsimp only
      rw [Function.update_of_ne (Ne.symm zero)]
    · dsimp only
      by_cases same : other = id
      · rw [same, Function.update_self]
        exact parked
      · rw [Function.update_of_ne same]
        exact follows.others other away

theorem Follows.run {n : Nat} (reset : AtReset s₀) (follows : Follows sym s₀ s n)
    {order : List (BitVec 64)} (ran : (boot sym).run s order = some s') :
    Follows sym s₀ s' (n + order.count 0) := by
  induction order generalizing s n with
  | nil =>
      cases ran
      exact follows
  | cons id rest ih =>
      obtain ⟨mid, taken, tail⟩ := Option.bind_eq_some_iff.mp ran
      have after := ih (follows.next reset taken) tail
      rw [List.count_cons, Nat.add_comm (rest.count 0), ← Nat.add_assoc]
      simpa only [beq_iff_eq] using after

/-! ## Booting -/

theorem outside_bss {a : BitVec 64}
    (away : a.toNat < sym.bssStart.toNat ∨ sym.bssEnd.toNat + 7 ≤ a.toNat) :
    8 * sym.words ≤ (a - sym.bssStart).toNat := by
  have fits := sym.fits
  have start := sym.bssStart.isLt
  have small := a.isLt
  unfold Symbols.words
  rw [BitVec.toNat_sub]
  omega

theorem inside_bss {a : BitVec 64} (low : sym.bssStart.toNat ≤ a.toNat)
    (high : a.toNat < sym.bssEnd.toNat) : (a - sym.bssStart).toNat < 8 * sym.words := by
  have start := sym.bssStart.isLt
  have small := a.isLt
  unfold Symbols.words
  rw [BitVec.toNat_sub]
  omega

/-- From reset, in any order of the harts' steps: the other harts stay parked with their
control registers untouched; no byte outside `.bss` and the seven bytes behind it changes;
and hart 0 is never stuck, takes exactly `path` steps and is then at `kinit` in machine mode
with `.bss` cleared. -/
theorem harts_boot (sym : Symbols) (s₀ s : Sys) (order : List (BitVec 64)) (reset : AtReset s₀)
    (ran : (boot sym).run s₀ order = some s) :
    (∀ id, id ≠ 0 → (s.harts id).csrs = (s₀.harts id).csrs ∧
      (s.harts id).pc ∈ [Pc.boot 0, Pc.boot 1, Pc.boot 23, Pc.boot 24]) ∧
    (∀ a : BitVec 64, a.toNat < sym.bssStart.toNat ∨ sym.bssEnd.toNat + 7 ≤ a.toNat →
      s.mem a = s₀.mem a) ∧
    order.count 0 ≤ sym.path ∧
    (order.count 0 < sym.path → ∃ s', s.next sym 0 = some s') ∧
    (order.count 0 = sym.path → s.harts 0 = sym.arrived (s₀.harts 0) ∧
      ∀ a : BitVec 64, sym.bssStart.toNat ≤ a.toNat → a.toNat < sym.bssEnd.toNat →
        s.mem a = 0) := by
  have start : Follows sym s₀ s₀ 0 := Follows.start reset
  have follows := start.run reset ran
  rw [Nat.zero_add] at follows
  obtain ⟨entry, _, own⟩ := reset 0
  refine ⟨fun id secondary => ?_, fun a away => ?_, steps_le_path entry own follows.first,
    fun short => ?_, fun done => ?_⟩
  · obtain ⟨csrs, pc⟩ := follows.others id secondary
    refine ⟨csrs, ?_⟩
    simp only [List.mem_cons, List.not_mem_nil, or_false]
    rcases pc with pc | ⟨pc, _⟩ | pc | pc <;> simp [pc]
  · exact steps_outside entry own follows.first (outside_bss away)
  · have next := @steps_isSome sym _ s₀.mem entry own _ (Nat.succ_le_of_lt short)
    rw [steps, follows.first] at next
    obtain ⟨⟨hart, mem⟩, stepped⟩ := Option.isSome_iff_exists.mp next
    refine ⟨_, Option.map_eq_some_iff.mpr ⟨(hart, mem), stepped, rfl⟩⟩
  · have arrived := follows.first
    rw [done, steps_path entry own] at arrived
    obtain ⟨hart, mem⟩ := Prod.mk.inj (Option.some.inj arrived)
    refine ⟨hart.symm, fun a low high => ?_⟩
    rw [← mem]
    exact if_pos (inside_bss low high)

/-! ## The layouts of the linker script -/

theorem bssEnd_fits (l : Layout) : (BitVec.ofNat 64 l.bssEnd).toNat + 7 < 2 ^ 64 := by
  have inRam := l.inRam
  unfold memoryEnd at inRam
  rw [BitVec.toNat_ofNat]
  omega

def symbolsOf (l : Layout) (globalPointer kinit asmTrapVector park : BitVec 64) : Symbols where
  globalPointer := globalPointer
  bssStart := BitVec.ofNat 64 l.bssStart
  bssEnd := BitVec.ofNat 64 l.bssEnd
  stackEnd := BitVec.ofNat 64 l.stackEnd
  kinit := kinit
  asmTrapVector := asmTrapVector
  park := park
  fits := bssEnd_fits l

def smallSymbols : Symbols := symbolsOf smallLayout 0x80002345 0x80001000 0x80000100 0x80000080

def atReset : Sys where
  harts id := ⟨⟨-1, -1, -1, -1, -1, -1, -1, -1⟩, ⟨id, -1, -1, -1, 0, -1, -1⟩, .machine, .boot 0⟩
  mem _ := 0xff

def smallOrder (n : Nat) : List (BitVec 64) := [1, 1] ++ List.replicate n 0

theorem harts_boot_small : ∃ s,
    (boot smallSymbols).run atReset (smallOrder smallSymbols.path) = some s ∧
      (s.harts 1).csrs = (atReset.harts 1).csrs ∧ (s.harts 0).pc = .elsewhere 0x80001000 ∧
      s.mem 0x80005010 = 0 ∧ s.mem 0x80005200 = 0xff := by
  have reset : AtReset atReset := fun _ => ⟨rfl, rfl, rfl⟩
  have count (n : Nat) : (smallOrder n).count 0 = n := by simp [smallOrder]
  have runs : ∀ n ≤ smallSymbols.path, ∃ s,
      (boot smallSymbols).run atReset (smallOrder n) = some s := by
    intro n
    induction n with
    | zero => exact fun _ => ⟨_, rfl⟩
    | succ n ih =>
        intro short
        obtain ⟨s, ran⟩ := ih (Nat.le_of_succ_le short)
        obtain ⟨_, _, _, goes, _⟩ := harts_boot smallSymbols atReset s (smallOrder n) reset ran
        obtain ⟨s', next⟩ := goes (by rw [count]; exact short)
        have order : smallOrder (n + 1) = smallOrder n ++ [0] := by
          rw [smallOrder, List.replicate_succ', ← List.append_assoc]
          rfl
        exact ⟨s', order ▸ System.run_snoc ran next⟩
  obtain ⟨s, ran⟩ := runs smallSymbols.path le_rfl
  obtain ⟨others, outside, _, _, done⟩ :=
    harts_boot smallSymbols atReset s (smallOrder smallSymbols.path) reset ran
  obtain ⟨arrived, cleared⟩ := done (count _)
  exact ⟨s, ran, (others 1 (by decide)).1, by rw [arrived]; rfl,
    cleared 0x80005010 (by decide) (by decide), outside 0x80005200 (by decide)⟩

end Vesper.Boot.Start
