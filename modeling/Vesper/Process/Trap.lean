import Mathlib.Tactic
import Vesper.Fs.Minix3
import Vesper.Process.Table

/-!
# The machine-mode trap path

Model of `asm/trap.S`, of the dispatcher `m_trap` in `trap.rs` and of `do_syscall`.
`mTrapVector` is the vector instruction by instruction, over a register file and a memory
of doublewords in which the register frames lie.  `call` runs the dispatcher on what it
can see (`Core`) and returns with arbitrary registers but `a0`.  A trap that panics or
parks the hart has no result.  Devices, console output and the timer registers are left
out.  The bytes that a `read` copies go to memory at `a3`, wherever that points; what the
handler stores of its own (trap stack, allocator, rings) is an arbitrary input of the trap.
-/

set_option autoImplicit false

namespace Vesper.Trap

open Vesper.Scheduler

def wordAt (base : BitVec 64) (k : Nat) : Nat := (base + BitVec.ofNat 64 (8 * k)).toNat

abbrev Memory := Nat → BitVec 64

/-- Doublewords of a `TrapFrame`: 32 registers, 32 float registers, `satp`, the trap stack
and the hart id. -/
def frameWords : Nat := 67

def trapStackWord : Nat := 65

/-- Addresses of the frames: of a slot of the table, or of the static `TRAP_FRAME`; and the
other bytes of the kernel, such as its code, its stack and the rest of the slots. -/
structure Layout where
  frame : Option Slot → BitVec 64
  apart : ∀ f g, f ≠ g → ∀ j k, j < frameWords → k < frameWords →
    wordAt (frame f) j ≠ wordAt (frame g) k
  kernel : BitVec 64 → Bool

structure Core where
  mscratch : BitVec 64
  mem : Memory
  kernel : Kernel
  trapStackTop : BitVec 64
  accessFaultSeen : Bool

structure Machine where
  x : Nat → BitVec 64
  pc : BitVec 64
  mepc : BitVec 64
  mtval : BitVec 64
  mcause : BitVec 64
  mhartid : BitVec 64
  mstatus : BitVec 64
  core : Core

/-- What a trap meets outside the modelled state: `stir` are the handler's own stores, and
`platform` and `world` what a `read` finds. -/
structure TrapEnv (σ : Type) where
  tval : BitVec 64
  clobber : Nat → BitVec 64
  stir : Nat → Option (BitVec 64)
  platform : Minix3.Platform σ
  world : Minix3.World σ

variable {σ : Type}

def overlay (writes : Nat → Option (BitVec 64)) (mem : Memory) : Memory :=
  fun a => (writes a).getD (mem a)

def readOf (env : TrapEnv σ) (x : Nat → BitVec 64) : Minix3.World σ × Minix3.Exit Nat :=
  Minix3.sysRead env.platform (fun r => x r) { env.world with log := [] }

def behind (buffer : BitVec 64) (addr : Nat) : Nat := (BitVec.ofNat 64 addr - buffer).toNat

/-- One of the copies of `w` reaches the byte at `addr`. -/
def hits (buffer : BitVec 64) (w : Minix3.World σ) (addr : Nat) : Bool :=
  w.log.any fun
    | .copy c => decide (c.dst ≤ behind buffer addr ∧ behind buffer addr < c.dst + c.len)
    | _ => false

/-- Memory with the bytes of these copies in it. -/
def paste (buffer : BitVec 64) (w : Minix3.World σ) (mem : Memory) : Memory := fun a =>
  if ∀ b < 8, hits buffer w (a + b) = false then mem a
  else
    BitVec.ofNat 64 ((List.range 8).foldr (fun b rest =>
      (if hits buffer w (a + b) then w.out (behind buffer (a + b))
        else (mem a).extractLsb' (8 * b) 8).toNat + 2 ^ 8 * rest) 0)

def Core.setTable (c : Core) (t : Table) : Core :=
  { c with kernel := { c.kernel with table := t } }

/-- `ecall`: the number and the arguments are read from the saved frame. -/
def doSyscall (L : Layout) (env : TrapEnv σ) (epc frame : BitVec 64) (c : Core) :
    Option (BitVec 64 × Core) :=
  let num := c.mem (wordAt frame 10)
  if num = 1 then some (epc + 4, c)
  else if num = 63 then
    let regs := fun r => c.mem (wordAt frame r)
    match readOf env regs with
    | (w, .returned n) =>
        some (epc + 4, { c with
          mem := Function.update (paste (regs 13) w c.mem) (wordAt frame 10) (BitVec.ofNat 64 n) })
    | _ => none
  else if num = 93 then
    match schedule epc (exitCurrent c.kernel.table).2 with
    | (some (i, pc), t) => some (pc, { c.setTable t with mscratch := L.frame (some i) })
    -- No process left: the handler waits for interrupts forever.
    | (none, _) => none
  else some (epc + 4, c)

def isAsync (cause : BitVec 64) : Bool := cause >>> 63 &&& 1 == 1

def causeNum (cause : BitVec 64) : Nat := (cause &&& 0xfff).toNat

def timerTrap (L : Layout) (epc : BitVec 64) (c : Core) : BitVec 64 × Core :=
  match schedule epc c.kernel.table with
  | (some (i, pc), t) => (pc, { c.setTable t with mscratch := L.frame (some i) })
  | (none, t) => (epc, c.setTable t)

def mTrap (L : Layout) (env : TrapEnv σ) (epc cause frame : BitVec 64) (c : Core) :
    Option (BitVec 64 × Core) :=
  if isAsync cause then
    match causeNum cause with
    | 3 => some (epc, c)
    | 7 => some (timerTrap L epc c)
    | 11 => some (epc, c)
    | _ => none
  else
    match causeNum cause with
    | 2 => none
    | 8 | 9 => doSyscall L env epc frame c
    | 11 => none
    | 12 => some (epc + 4, c)
    | 13 => some (epc + 4, c)
    | 5 | 7 => some (epc + 4, { c with accessFaultSeen := true })
    | 15 => some (epc + 4, c)
    | _ => none

inductive Csr where
  | mscratch
  | mepc
  | mtval
  | mcause
  | mhartid
  | mstatus

inductive Instr where
  | csrrw (rd : Nat) (csr : Csr) (rs : Nat)
  | csrr (rd : Nat) (csr : Csr)
  | csrw (csr : Csr) (rs : Nat)
  | mv (rd rs : Nat)
  | sd (rs word base : Nat)
  | ld (rd word base : Nat)
  | callMTrap
  | mret

def Machine.readCsr (m : Machine) : Csr → BitVec 64
  | .mscratch => m.core.mscratch
  | .mepc => m.mepc
  | .mtval => m.mtval
  | .mcause => m.mcause
  | .mhartid => m.mhartid
  | .mstatus => m.mstatus

def Machine.writeCsr (m : Machine) (v : BitVec 64) : Csr → Machine
  | .mscratch => { m with core := { m.core with mscratch := v } }
  | .mepc => { m with mepc := v }
  | .mtval => { m with mtval := v }
  | .mcause => { m with mcause := v }
  | .mhartid => { m with mhartid := v }
  | .mstatus => { m with mstatus := v }

/-- None of the vector's instructions writes `x0`. -/
def Machine.setX (m : Machine) (rd : Nat) (v : BitVec 64) : Machine :=
  { m with x := Function.update m.x rd v }

/-- Registers by their ABI names: `sp`, `a0` to `a5`, `t5`, `t6`. -/
abbrev sp : Nat := 2
abbrev a0 : Nat := 10
abbrev t5 : Nat := 30
abbrev t6 : Nat := 31

/-- One instruction; a store or load addresses doubleword `word` behind `base`. -/
def exec (L : Layout) (env : TrapEnv σ) : Instr → Machine → Option Machine
  | .csrrw rd csr rs, m =>
      let old := m.readCsr csr
      some ((m.writeCsr (m.x rs) csr).setX rd old)
  | .csrr rd csr, m => some (m.setX rd (m.readCsr csr))
  | .csrw csr rs, m => some (m.writeCsr (m.x rs) csr)
  | .mv rd rs, m => some (m.setX rd (m.x rs))
  | .sd rs word base, m =>
      some { m with core := { m.core with
        mem := Function.update m.core.mem (wordAt (m.x base) word) (m.x rs) } }
  | .ld rd word base, m => some (m.setX rd (m.core.mem (wordAt (m.x base) word)))
  | .callMTrap, m =>
      (mTrap L env (m.x 10) (m.x 12) (m.x 15) m.core).map fun (pc, core) =>
        { m with
          x := Function.update (Function.update env.clobber a0 pc) 0 0
          core := { core with mem := overlay env.stir core.mem } }
  | .mret, m => some { m with pc := m.mepc }

def execAll (L : Layout) (env : TrapEnv σ) : List Instr → Machine → Option Machine
  | [], m => some m
  | instr :: rest, m => (exec L env instr m).bind (execAll L env rest)

def saveGp (base i : Nat) : Instr := .sd i i base

def loadGp (base i : Nat) : Instr := .ld i i base

def mTrapVector : List Instr :=
  [.csrrw t6 .mscratch t6] ++ (List.range' 1 30).map (saveGp t6) ++
  [.mv t5 t6, .csrr t6 .mscratch, saveGp t5 31, .csrw .mscratch t5,
    .csrr 10 .mepc, .csrr 11 .mtval, .csrr 12 .mcause, .csrr 13 .mhartid, .csrr 14 .mstatus,
    .mv 15 t5, .ld sp trapStackWord 15, .callMTrap, .csrw .mepc a0, .csrr t6 .mscratch] ++
  (List.range' 1 31).map (loadGp t6) ++ [.mret]

/-- A trap: the hardware fills the trap CSRs and the vector runs to its `mret`. -/
def takeTrap (L : Layout) (env : TrapEnv σ) (cause : BitVec 64) (m : Machine) :
    Option Machine :=
  execAll L env mTrapVector { m with mepc := m.pc, mcause := cause, mtval := env.tval }

end Vesper.Trap
