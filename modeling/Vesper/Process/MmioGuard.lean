import Vesper.Process.ContextSwitch

/-!
# Register accesses that may fault

`mmio_read32` and `mmio_write32` clear `ACCESS_FAULT_SEEN`, make one volatile access and
then take the flag.  If the access faults, `m_trap` sets the flag and resumes four bytes
behind the faulting instruction, whatever its length.  Here the helpers are code in
memory: instructions of two or four bytes that lie one behind the other and are fetched by
their address.  `Progress` is what the helper does instruction by instruction when a
faulting access has no effect of its own; the machine follows it exactly if the access is
a four-byte instruction.
-/

set_option autoImplicit false

namespace Vesper.Trap.MmioGuard

open Vesper.Scheduler (Slot)

/-! ## Code -/

inductive Size where
  | compressed
  | full
  deriving DecidableEq, Repr

def Size.bytes : Size → Nat
  | .compressed => 2
  | .full => 4

theorem Size.bytes_pos (size : Size) : 0 < size.bytes := by
  cases size <;> decide

abbrev Registers := Fin 32 → BitVec 64

/-- A write to `x0` is lost. -/
def Registers.set (regs : Registers) (rd : Fin 32) (v : BitVec 64) : Registers :=
  if rd.val = 0 then regs else Function.update regs rd v

/-- The three steps of the helpers that matter here, and register arithmetic between them.
An access that stores names `x0`. -/
inductive Op where
  | compute (rd : Fin 32) (value : Registers → BitVec 64)
  | clearAccessFault
  | access (rd : Fin 32)
  | takeAccessFault (rd : Fin 32)

structure Instruction where
  size : Size
  op : Op

structure Plain where
  size : Size
  rd : Fin 32
  value : Registers → BitVec 64

def Plain.instruction (i : Plain) : Instruction := ⟨i.size, .compute i.rd i.value⟩

/-- A compiled `mmio_read32` or `mmio_write32`; `set_mmio_guard` compiles to nothing. -/
structure Helper where
  load : Bool
  entry : List Plain
  clear : Size
  address : List Plain
  access : Size
  accessRd : Fin 32
  settle : List Plain
  take : Size
  takeRd : Fin 32
  exit : List Plain

namespace Helper

def before (H : Helper) : List Instruction :=
  H.entry.map Plain.instruction ++ ⟨H.clear, .clearAccessFault⟩ ::
    H.address.map Plain.instruction

def behind (H : Helper) : List Instruction :=
  H.settle.map Plain.instruction ++ ⟨H.take, .takeAccessFault H.takeRd⟩ ::
    H.exit.map Plain.instruction

def image (H : Helper) : List Instruction :=
  H.before ++ ⟨H.access, .access H.accessRd⟩ :: H.behind

def cause (H : Helper) : BitVec 64 := if H.load then 5 else 7

end Helper

def bytes (code : List Instruction) : Nat := (code.map fun i => i.size.bytes).sum

def addressOf (base : BitVec 64) (code : List Instruction) (k : Nat) : BitVec 64 :=
  base + BitVec.ofNat 64 (bytes (code.take k))

/-- The instruction that begins at `pc`, with its number; `k` is the number of the one at
`here`. -/
def fetch (pc : BitVec 64) : BitVec 64 → Nat → List Instruction → Option (Nat × Instruction)
  | _, _, [] => none
  | here, k, i :: rest =>
      if pc = here then some (k, i)
      else fetch pc (here + BitVec.ofNat 64 i.size.bytes) (k + 1) rest

/-! ## Execution -/

def file (m : Machine) : Registers := fun r => m.x r

def setFile (m : Machine) (regs : Registers) : Machine :=
  { m with x := fun r => if inside : r < 32 then regs ⟨r, inside⟩ else m.x r }

def advance (size : Size) (m : Machine) : Machine :=
  { m with pc := m.pc + BitVec.ofNat 64 size.bytes }

def setSeen (m : Machine) (seen : Bool) : Machine :=
  { m with core := { m.core with accessFaultSeen := seen } }

def flagValue (seen : Bool) : BitVec 64 := if seen then 1 else 0

structure Run where
  m : Machine
  executed : List Nat
  taken : Option Bool

/-- What the helper returns, once it has taken the flag: whether the access succeeded
(`Some(_)` or `true`). -/
def Run.ok (r : Run) : Option Bool := r.taken.map not

section Execution
variable {σ : Type}

/-- One instruction.  `device` is the value the access returns, or none if it faults. -/
def execOp (L : Layout) (env : TrapEnv σ) (cause : BitVec 64) (device : Option (BitVec 64))
    (i : Instruction) (r : Run) : Option Run :=
  match i.op with
  | .compute rd value =>
      some { r with m := advance i.size (setFile r.m ((file r.m).set rd (value (file r.m)))) }
  | .clearAccessFault => some { r with m := advance i.size (setSeen r.m false) }
  | .access rd =>
      match device with
      | none => (takeTrap L env cause r.m).map fun m => { r with m := m }
      | some v => some { r with m := advance i.size (setFile r.m ((file r.m).set rd v)) }
  | .takeAccessFault rd =>
      let seen := r.m.core.accessFaultSeen
      let m := setFile r.m ((file r.m).set rd (flagValue seen))
      some { r with m := advance i.size (setSeen m false), taken := some seen }

def step (L : Layout) (env : TrapEnv σ) (H : Helper) (base : BitVec 64)
    (device : Option (BitVec 64)) (r : Run) : Option Run :=
  (fetch r.m.pc base 0 H.image).bind fun (k, i) =>
    execOp L env H.cause device i { r with executed := r.executed ++ [k] }

def run (L : Layout) (env : TrapEnv σ) (H : Helper) (base : BitVec 64)
    (device : Option (BitVec 64)) (m : Machine) : Nat → Option Run
  | 0 => some ⟨m, [], none⟩
  | j + 1 => (run L env H base device m j).bind (step L env H base device)

end Execution

/-! ## What the helper is written to do -/

structure Progress where
  regs : Registers
  seen : Bool
  taken : Option Bool

def Progress.apply (device : Option (BitVec 64)) (p : Progress) (i : Instruction) : Progress :=
  match i.op with
  | .compute rd value => { p with regs := p.regs.set rd (value p.regs) }
  | .clearAccessFault => { p with seen := false }
  | .access rd =>
      match device with
      | none => { p with seen := true }
      | some v => { p with regs := p.regs.set rd v }
  | .takeAccessFault rd =>
      ⟨p.regs.set rd (flagValue p.seen), false, some p.seen⟩

def Progress.after (device : Option (BitVec 64)) (p : Progress) (code : List Instruction) :
    Progress :=
  code.foldl (Progress.apply device) p

theorem after_append (device : Option (BitVec 64)) (p : Progress)
    (first second : List Instruction) :
    p.after device (first ++ second) = (p.after device first).after device second :=
  List.foldl_append

theorem after_plain (device : Option (BitVec 64)) (p : Progress) (code : List Plain) :
    (p.after device (code.map Plain.instruction)).seen = p.seen ∧
      (p.after device (code.map Plain.instruction)).taken = p.taken := by
  induction code generalizing p with
  | nil => exact ⟨rfl, rfl⟩
  | cons i rest ih => exact ih _

theorem set_zero (regs : Registers) (rd : Fin 32) (v : BitVec 64) : regs.set rd v 0 = regs 0 := by
  unfold Registers.set
  split_ifs with zero
  · rfl
  · exact Function.update_of_ne (fun same => zero (congrArg Fin.val same.symm)) _ _

theorem apply_zero (device : Option (BitVec 64)) (p : Progress) (i : Instruction) :
    (p.apply device i).regs 0 = p.regs 0 := by
  unfold Progress.apply
  split
  · exact set_zero _ _ _
  · rfl
  · split
    · rfl
    · exact set_zero _ _ _
  · exact set_zero _ _ _

/-- The helper answers `None` or `false` exactly if the access faulted. -/
theorem after_image (device : Option (BitVec 64)) (p : Progress) (H : Helper) :
    (p.after device H.image).taken = some device.isNone := by
  have cleared : (p.after device H.before).seen = false := by
    rw [Helper.before, after_append]
    exact (after_plain device _ H.address).1
  have reached : ((p.after device H.before).apply device ⟨H.access, .access H.accessRd⟩).seen =
      device.isNone := by
    cases device with
    | none => rfl
    | some v => exact cleared
  rw [Helper.image, after_append]
  change ((((p.after device H.before).apply device _).after device H.behind)).taken = _
  rw [Helper.behind, after_append]
  change ((Progress.apply device (((p.after device H.before).apply device _).after device
    (H.settle.map Plain.instruction)) _).after device (H.exit.map Plain.instruction)).taken = _
  rw [(after_plain device _ H.exit).2]
  change some _ = _
  rw [(after_plain device _ H.settle).1, reached]

/-! ## Fetching -/

theorem addressOf_zero (base : BitVec 64) (code : List Instruction) :
    addressOf base code 0 = base :=
  BitVec.add_zero base

theorem addressOf_cons (base : BitVec 64) (i : Instruction) (rest : List Instruction) (k : Nat) :
    addressOf base (i :: rest) (k + 1) =
      addressOf (base + BitVec.ofNat 64 i.size.bytes) rest k := by
  simp only [addressOf, bytes, List.take_succ_cons, List.map_cons, List.sum_cons,
    BitVec.ofNat_add, BitVec.add_assoc]

theorem addressOf_succ {code : List Instruction} {k : Nat} {i : Instruction}
    (here : code[k]? = some i) (base : BitVec 64) :
    addressOf base code (k + 1) = addressOf base code k + BitVec.ofNat 64 i.size.bytes := by
  rw [addressOf, addressOf, List.take_add_one, here]
  simp only [bytes, Option.toList_some, List.map_append, List.map_cons, List.map_nil,
    List.sum_append, List.sum_cons, List.sum_nil, Nat.add_zero, BitVec.ofNat_add,
    BitVec.add_assoc]

theorem bytes_take_le (code : List Instruction) (k : Nat) : bytes (code.take k) ≤ bytes code := by
  have split := congrArg bytes (List.take_append_drop k code)
  rw [bytes, List.map_append, List.sum_append] at split
  rw [← split]
  exact Nat.le_add_right _ _

theorem fetch_addressOf {code : List Instruction} (fits : bytes code < 2 ^ 64) {k : Nat}
    {i : Instruction} (there : code[k]? = some i) (base : BitVec 64) (number : Nat) :
    fetch (addressOf base code k) base number code = some (number + k, i) := by
  induction code generalizing k base number with
  | nil => cases there
  | cons first rest ih =>
      have size : bytes (first :: rest) = first.size.bytes + bytes rest := rfl
      cases k with
      | zero =>
          cases there
          rw [addressOf_zero, fetch, if_pos rfl, Nat.add_zero]
      | succ k =>
          have later : addressOf base (first :: rest) (k + 1) ≠ base := by
            have positive := first.size.bytes_pos
            have inside := bytes_take_le rest k
            have offset : bytes ((first :: rest).take (k + 1)) =
                first.size.bytes + bytes (rest.take k) := rfl
            rw [addressOf, offset]
            bv_omega
          rw [fetch, if_neg later, addressOf_cons, ih (by omega) there, Nat.add_right_comm,
            Nat.add_assoc]

/-! ## The trap -/

section Guard
variable {σ : Type} {L : Layout} {env : TrapEnv σ} {f : Option Slot} {H : Helper}
  {base : BitVec 64} {device : Option (BitVec 64)}

theorem takeTrap_accessFault (L : Layout) (env : TrapEnv σ) (H : Helper) (m : Machine) :
    takeTrap L env H.cause m =
      some (m.resumed env H.cause (m.pc + 4) { m.saved with accessFaultSeen := true }) := by
  have handled : mTrap L env m.pc H.cause m.core.mscratch m.saved =
      some (m.pc + 4, { m.saved with accessFaultSeen := true }) := by
    unfold Helper.cause
    cases H.load with
    | false => rfl
    | true => rfl
  rw [takeTrap_eq, handled, Option.map_some]

theorem file_resumed (clear : Clear L env.stir) {m : Machine}
    (scratch : m.core.mscratch = L.frame f) (zero : m.x 0 = 0) (cause pc : BitVec 64)
    (seen : Bool) :
    file (m.resumed env cause pc { m.saved with accessFaultSeen := seen }) = file m := by
  funext r
  by_cases first : r.val = 0
  · have outside : (0 : Nat) ∉ List.range' 1 31 := by decide
    simp only [file, Machine.resumed, loadWords_apply, first, if_neg outside,
      Function.update_self, zero]
  · have low : 1 ≤ r.val := Nat.one_le_iff_ne_zero.mpr first
    have high : r.val ≤ 31 := Nat.le_of_lt_succ r.isLt
    have kept : { m.saved with accessFaultSeen := seen }.mscratch = L.frame f := scratch
    refine (resumed_x clear m cause pc kept low high).trans ?_
    rw [← scratch]
    exact saved_own m low high

theorem file_setFile (m : Machine) (regs : Registers) : file (setFile m regs) = regs := by
  funext r
  exact dif_pos r.isLt

/-- The run stands before instruction `j`, with the helper's own progress behind it. -/
structure Matches (L : Layout) (f : Option Slot) (H : Helper) (base : BitVec 64) (j : Nat)
    (p : Progress) (r : Run) : Prop where
  pc : r.m.pc = addressOf base H.image j
  executed : r.executed = List.range j
  regs : file r.m = p.regs
  seen : r.m.core.accessFaultSeen = p.seen
  taken : r.taken = p.taken
  scratch : r.m.core.mscratch = L.frame f
  zero : p.regs 0 = 0

theorem Matches.step_eq {j : Nat} {p : Progress} {r : Run} (now : Matches L f H base j p r)
    (fits : bytes H.image < 2 ^ 64) {i : Instruction} (here : H.image[j]? = some i) :
    step L env H base device r =
      execOp L env H.cause device i { r with executed := List.range (j + 1) } := by
  rw [step, now.pc, fetch_addressOf fits here, Option.bind_some, now.executed,
    List.range_succ, Nat.zero_add]

/-- A faulting access: only the resume address depends on the instruction's length. -/
theorem Matches.fault {j : Nat} {p : Progress} {r : Run} (now : Matches L f H base j p r)
    (clear : Clear L env.stir) (fits : bytes H.image < 2 ^ 64) {size : Size} {rd : Fin 32}
    (here : H.image[j]? = some ⟨size, .access rd⟩) :
    ∃ r', step L env H base none r = some r' ∧ r'.m.pc = addressOf base H.image j + 4 ∧
      (size = .full → Matches L f H base (j + 1) (p.apply none ⟨size, .access rd⟩) r') := by
  have zero : r.m.x 0 = 0 := (congrFun now.regs 0).trans now.zero
  let core : Core := { r.m.saved with accessFaultSeen := true }
  refine ⟨⟨r.m.resumed env H.cause (r.m.pc + 4) core, List.range (j + 1), r.taken⟩, ?_, ?_, ?_⟩
  · rw [now.step_eq fits here]
    simp only [execOp, takeTrap_accessFault, Option.map_some]
    rfl
  · exact congrArg (· + 4) now.pc
  · intro full
    subst full
    exact
      { pc := (congrArg (· + 4) now.pc).trans (addressOf_succ here base).symm
        executed := rfl
        regs := (file_resumed clear now.scratch zero _ _ _).trans now.regs
        seen := rfl
        taken := now.taken
        scratch := now.scratch
        zero := now.zero }

/-- A faulting access is a four-byte instruction. -/
def Steady (device : Option (BitVec 64)) (i : Instruction) : Prop :=
  ∀ rd, i.op = .access rd → device = none → i.size = .full

theorem Matches.step {j : Nat} {p : Progress} {r : Run} (now : Matches L f H base j p r)
    (clear : Clear L env.stir) (fits : bytes H.image < 2 ^ 64) {i : Instruction}
    (here : H.image[j]? = some i) (steady : Steady device i) :
    ∃ r', step L env H base device r = some r' ∧
      Matches L f H base (j + 1) (p.apply device i) r' := by
  have next : r.m.pc + BitVec.ofNat 64 i.size.bytes = addressOf base H.image (j + 1) := by
    rw [now.pc, addressOf_succ here]
  have zero : (p.apply device i).regs 0 = 0 := (apply_zero device p i).trans now.zero
  obtain ⟨size, op⟩ := i
  cases op with
  | compute rd value =>
      refine ⟨_, now.step_eq fits here, ?_⟩
      exact ⟨next, rfl, by rw [now.regs]; exact file_setFile _ _, now.seen, now.taken,
        now.scratch, zero⟩
  | clearAccessFault =>
      exact ⟨_, now.step_eq fits here, next, rfl, now.regs, rfl, now.taken, now.scratch, zero⟩
  | access rd =>
      cases device with
      | none =>
          obtain ⟨r', taken, _, onward⟩ := now.fault clear fits here
          exact ⟨r', taken, onward (steady rd rfl rfl)⟩
      | some v =>
          refine ⟨_, now.step_eq fits here, ?_⟩
          exact ⟨next, rfl, by rw [now.regs]; exact file_setFile _ _, now.seen, now.taken,
            now.scratch, zero⟩
  | takeAccessFault rd =>
      refine ⟨_, now.step_eq fits here, ?_⟩
      refine ⟨next, rfl, ?_, rfl, congrArg some now.seen, now.scratch, zero⟩
      rw [now.regs, now.seen]
      exact file_setFile _ _

def entered (m : Machine) : Progress := ⟨file m, m.core.accessFaultSeen, none⟩

theorem after_take_succ {code : List Instruction} {j : Nat} {i : Instruction}
    (here : code[j]? = some i) (p : Progress) :
    p.after device (code.take (j + 1)) = (p.after device (code.take j)).apply device i := by
  rw [List.take_add_one, here, after_append]
  rfl

/-- As long as the instructions are steady the run keeps to the helper's progress. -/
theorem run_matches (device : Option (BitVec 64)) (clear : Clear L env.stir)
    (fits : bytes H.image < 2 ^ 64) {m : Machine} (start : m.pc = base)
    (scratch : m.core.mscratch = L.frame f) (zero : m.x 0 = 0) {j : Nat}
    (bound : j ≤ H.image.length) (steady : ∀ i ∈ H.image.take j, Steady device i) :
    ∃ r, run L env H base device m j = some r ∧
      Matches L f H base j ((entered m).after device (H.image.take j)) r := by
  induction j with
  | zero =>
      exact ⟨_, rfl, start.trans (addressOf_zero base _).symm, rfl, rfl, rfl, rfl, scratch, zero⟩
  | succ j ih =>
      have here : H.image[j]? = some (H.image.get ⟨j, bound⟩) := List.getElem?_eq_getElem bound
      have split : H.image.take (j + 1) = H.image.take j ++ [H.image.get ⟨j, bound⟩] := by
        rw [List.take_add_one, here]
        rfl
      rw [split] at steady
      obtain ⟨r, ran, now⟩ := ih (Nat.le_of_lt bound) fun i member =>
        steady i (List.mem_append_left _ member)
      obtain ⟨r', taken, next⟩ := now.step clear fits here
        (steady _ (List.mem_append_right _ (List.mem_singleton.mpr rfl)))
      refine ⟨r', ?_, ?_⟩
      · rw [run, ran, Option.bind_some, taken]
      · rw [after_take_succ here]
        exact next

/-! ## Skipping the access -/

/-- Whether or not the access faults, the helper executes each of its instructions once and
in order, with the registers it computed itself, and it reports whether it faulted. -/
structure SkipsExactly (L : Layout) (env : TrapEnv σ) (H : Helper) (base : BitVec 64)
    (m : Machine) : Prop where
  course : ∀ device, ∀ j ≤ H.image.length, ∃ r, run L env H base device m j = some r ∧
    r.m.pc = addressOf base H.image j ∧ r.executed = List.range j ∧
      file r.m = ((entered m).after device (H.image.take j)).regs
  report : ∀ device, ∃ r, run L env H base device m H.image.length = some r ∧
    r.ok = some device.isSome

theorem plain_steady (i : Plain) : Steady device i.instruction := by
  intro rd access
  cases access

theorem around_steady {first second : List Plain} {i j : Instruction} (middle : Steady device i)
    (member : j ∈ first.map Plain.instruction ++ i :: second.map Plain.instruction) :
    Steady device j := by
  rcases List.mem_append.mp member with before | rest
  · obtain ⟨plain, _, rfl⟩ := List.mem_map.mp before
    exact plain_steady plain
  · rcases List.mem_cons.mp rest with rfl | behind
    · exact middle
    · obtain ⟨plain, _, rfl⟩ := List.mem_map.mp behind
      exact plain_steady plain

theorem before_steady {i : Instruction} (member : i ∈ H.before) : Steady device i :=
  around_steady (fun _ access => by cases access) member

theorem behind_steady {i : Instruction} (member : i ∈ H.behind) : Steady device i :=
  around_steady (fun _ access => by cases access) member

theorem image_steady (full : H.access = .full) {i : Instruction} (member : i ∈ H.image) :
    Steady device i := by
  rcases List.mem_append.mp member with before | rest
  · exact before_steady before
  · rcases List.mem_cons.mp rest with rfl | behind
    · exact fun _ _ _ => full
    · exact behind_steady behind

/-- Guarded access works exactly for helpers whose access is a four-byte instruction. -/
theorem mmio_guard_skips_exactly_iff (clear : Clear L env.stir) (fits : bytes H.image < 2 ^ 64)
    {m : Machine} (start : m.pc = base) (scratch : m.core.mscratch = L.frame f)
    (zero : m.x 0 = 0) : SkipsExactly L env H base m ↔ H.access = .full := by
  constructor
  · intro exactly
    by_contra short
    -- The access faults, and the run is two bytes behind the next instruction.
    have place : H.image[H.before.length]? = some ⟨H.access, .access H.accessRd⟩ := by
      rw [Helper.image, List.getElem?_append_right (Nat.le_refl _), Nat.sub_self]
      rfl
    have bound : H.before.length < H.image.length := (List.getElem?_eq_some_iff.mp place).1
    have front : H.image.take H.before.length = H.before := List.take_left
    obtain ⟨r, ran, now⟩ := run_matches none clear fits start scratch
      zero (Nat.le_of_lt bound) (by rw [front]; exact fun i => before_steady)
    obtain ⟨r', taken, resumed, _⟩ := now.fault clear fits place
    obtain ⟨r'', ran'', at'', _⟩ := exactly.course none (H.before.length + 1) bound
    rw [run, ran, Option.bind_some, taken] at ran''
    cases ran''
    rw [resumed, addressOf_succ place] at at''
    have two : H.access = .compressed := by
      cases size : H.access with
      | compressed => rfl
      | full => exact absurd size short
    rw [two, Size.bytes] at at''
    bv_omega
  · intro full
    refine ⟨?_, ?_⟩
    · intro device j bound
      obtain ⟨r, ran, now⟩ := run_matches device clear fits start
        scratch zero bound fun i member => image_steady full (List.mem_of_mem_take member)
      exact ⟨r, ran, now.pc, now.executed, now.regs⟩
    · intro device
      obtain ⟨r, ran, now⟩ := run_matches device clear fits start
        scratch zero (Nat.le_refl _) fun i member => image_steady full (List.mem_of_mem_take member)
      have taken : r.taken = some device.isNone := by
        rw [now.taken, List.take_length, after_image]
      refine ⟨r, ran, ?_⟩
      rw [Run.ok, taken, Option.map_some, Option.not_isNone]

end Guard

def regA0 : Fin 32 := ⟨10, by decide⟩
def regA1 : Fin 32 := ⟨11, by decide⟩
def regA2 : Fin 32 := ⟨12, by decide⟩
def regA3 : Fin 32 := ⟨13, by decide⟩

/-- `mmio_read32` with an access of the given length: clear the flag, form the address, load,
copy the value, take the flag. -/
def readHelper (access : Size) : Helper where
  load := true
  entry := []
  clear := .full
  address := [⟨.compressed, regA0, fun regs => regs regA0 + regs regA1⟩]
  access := access
  accessRd := regA0
  settle := [⟨.compressed, regA2, fun regs => regs regA0⟩]
  take := .full
  takeRd := regA3
  exit := []

theorem mmio_guard_skips_full_load :
    SkipsExactly boardLayout quietEnv (readHelper .full) bootMachine.pc bootMachine :=
  (mmio_guard_skips_exactly_iff (f := none) (fun _ _ _ => rfl) (by decide) rfl rfl rfl).mpr rfl

/-- With a compressed load the fault skips the copy of the value too. -/
theorem mmio_guard_skips_too_far :
    (run boardLayout quietEnv (readHelper .compressed) bootMachine.pc none bootMachine 4).map
        (fun r => r.executed) = some [0, 1, 2, 4] ∧
      ¬ SkipsExactly boardLayout quietEnv (readHelper .compressed) bootMachine.pc
        bootMachine := by
  have ran : (run boardLayout quietEnv (readHelper .compressed) bootMachine.pc none
      bootMachine 4).map (fun r => r.executed) = some [0, 1, 2, 4] := by
    decide +kernel
  refine ⟨ran, ?_⟩
  intro exactly
  obtain ⟨r, same, _, executed, _⟩ := exactly.course none 4 (by decide)
  rw [same, Option.map_some, executed] at ran
  exact absurd ran (by decide)

end Vesper.Trap.MmioGuard
