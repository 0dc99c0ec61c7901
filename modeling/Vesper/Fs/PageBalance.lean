import Vesper.Fs.Minix3
import Vesper.Mm.PageFrameRefinement
import Vesper.Virtio.Queue

/-!
# The reader gives back every page

`block_op` takes a page for its request and frees it on every return behind that;
`Buffer::new` takes the pages of a scratch buffer and `Drop` frees them when the scope is
left.  The reader runs here on the real allocator, with an arbitrary sequence of outcomes
of the block device.  A scope that starts with the runs of a pool ends with the same runs,
and the runs determine the descriptor table.  On `driver` the table lies in the memory the
reader copies to; the scopes are followed on `sealedDriver`, which no copy reaches.
-/

set_option autoImplicit false

namespace Vesper.Minix3

open Vesper.Lib.EarlyExit
open Vesper.Lib.FirstFit
open Vesper.Mm.PageFrame
open Vesper.Virtio (statusPending)

variable {h : Heap}

/-- What a block operation meets: no device in the slot, too few free descriptors, or a
completed request with its status byte.  `block_op` polls as long as that byte is
`STATUS_PENDING`; a request that is never answered, on which it polls for ever, has no
outcome here. -/
inductive Outcome where
  | absent
  | exhausted
  | completed (status : BitVec 8) (answered : status ≠ statusPending)
  deriving DecidableEq, Repr

theorem zero_ne_statusPending : (0 : BitVec 8) ≠ statusPending := by decide

def Outcome.success : Outcome := .completed 0 zero_ne_statusPending

/-- The return value of a `block_op` that got its request page. -/
def Outcome.ok : Outcome → Bool
  | .completed status _ => status == 0
  | _ => false

/-- `requests` counts the block operations, `tripped` records a failed assertion in
`free_request`. -/
structure Pages (h : Heap) where
  frames : Mm.PageFrame.State h
  requests : Nat
  tripped : Bool

def allocateFrames (count : Nat) (s : Pages h) : Option (Nat × Pages h) :=
  match allocate s.frames count with
  | .ok (some addr, frames) => some (addr, { s with frames := frames })
  | _ => none

def freeRequest (req : Nat) (s : Pages h) : Pages h :=
  match deallocate s.frames req with
  | .ok frames => { s with frames := frames }
  | .error _ => { s with tripped := true }

/-- `block_op` with its page: an absent device is noticed before the page is taken. -/
def blockOp (outcome : Outcome) (s : Pages h) : Bool × Pages h :=
  if outcome = .absent then (false, s)
  else
    match allocateFrames 1 s with
    | none => (false, s)
    | some (req, s') => (outcome.ok, freeRequest req s')

def bufferPages (bytes : Nat) : Nat := max ((bytes + pageSize - 1) / pageSize) 1

def dropBuffer (addr : Nat) (s : Pages h) : Option (Pages h) :=
  match deallocate s.frames addr with
  | .ok frames => some { s with frames := frames }
  | .error _ => none

/-- What the allocator does not decide about a platform.  The `n`-th block operation meets
`outcomes n`. -/
structure Environment where
  outcomes : Nat → Outcome
  disk : Nat → Nat → BitVec 8
  stale : Block
  stray : Nat → BitVec 8
  overflowChecks : Bool

/-- The driver on a heap that no copy reaches. -/
def sealedDriver (h : Heap) (env : Environment) : Platform (Pages h) where
  disk := env.disk
  blockRead _ _ s := blockOp (env.outcomes s.requests) { s with requests := s.requests + 1 }
  bufferNew := allocateFrames (bufferPages blockSize)
  bufferDrop := dropBuffer
  stale := env.stale
  stray := env.stray
  overflowChecks := env.overflowChecks
  buffer := 0
  store := fun _ _ s => s

def setDesc (frames : Mm.PageFrame.State h) (i : Nat) (desc : PageDesc) :
    Mm.PageFrame.State h where
  table := frames.table.set i desc
  allocStart := frames.allocStart
  table_length := (List.length_set).trans frames.table_length

/-- A byte stored at `addr`: the descriptors are bytes in front of the pages. -/
def storeByte (addr : Nat) (byte : BitVec 8) (s : Pages h) : Pages h :=
  if h.heapStart ≤ addr ∧ addr < h.heapStart + h.pages then
    { s with frames := setDesc s.frames (addr - h.heapStart) ⟨byte⟩ }
  else s

/-- The driver with the descriptor table in the memory the reader copies to. -/
def driver (h : Heap) (env : Environment) : Platform (Pages h) :=
  { sealedDriver h env with store := storeByte }

/-! ## Taking and freeing a run -/

/-- The allocator holds the runs of `pool`, and every free page lies below the heap end. -/
structure Holding (pool : Pool h.pages) (s : Pages h) : Prop where
  refines : Refines s.frames pool
  calm : s.tripped = false
  below : ∀ i < h.pages, (∀ r ∈ pool.live, i ∉ r.cells) → h.runAddr i < h.heapEnd

section Runs
variable {pool : Pool h.pages} {s : Pages h}

theorem Holding.take (holding : Holding pool s) {count i : Nat} (pos : 0 < count)
    (fit : pool.IsFirstFit count i) {frames : Mm.PageFrame.State h}
    (refines : Refines frames (pool.take count i pos fit.1)) :
    Holding (pool.take count i pos fit.1) { s with frames := frames } where
  refines := refines
  calm := holding.calm
  below j small free :=
    holding.below j small fun r live => free r (Finset.mem_insert_of_mem live)

theorem Holding.start_below (holding : Holding pool s) {count i : Nat} (pos : 0 < count)
    (fit : pool.IsFirstFit count i) : h.runAddr i < h.heapEnd := by
  obtain ⟨bound, free⟩ := Pool.window_iff.mp fit.1
  exact holding.below i (by omega) (free i (le_refl i) (by omega))

theorem allocateFrames_cases (holding : Holding pool s) {count : Nat} (pos : 0 < count) :
    allocateFrames count s = none ∨
      ∃ i s', ∃ fit : pool.IsFirstFit count i, allocateFrames count s = some (h.runAddr i, s') ∧
        Holding (pool.take count i pos fit.1) s' := by
  rcases allocate_cases holding.refines pos with ⟨call, _⟩ | ⟨i, frames, fit, call, refines⟩
  · left
    rw [allocateFrames, call]
  · right
    refine ⟨i, { s with frames := frames }, fit, ?_, holding.take pos fit refines⟩
    rw [allocateFrames, call]

theorem Holding.giveBack {count i : Nat} (pos : 0 < count) (fit : pool.IsFirstFit count i)
    (before : Holding pool s) {s' : Pages h}
    (holding : Holding (pool.take count i pos fit.1) s') :
    ∃ frames, deallocate s'.frames (h.runAddr i) = .ok frames ∧
      Holding pool { s' with frames := frames } := by
  have fresh : (⟨i, count⟩ : Run) ∉ pool.live := by
    intro live
    obtain ⟨_, free⟩ := Pool.window_iff.mp fit.1
    exact free i (le_refl i) (by omega) _ live (Run.start_mem pos)
  obtain ⟨frames, success, refines⟩ :=
    deallocate_refines holding.refines (Finset.mem_insert_self _ _) (before.start_below pos fit)
  have same : (pool.take count i pos fit.1).release ⟨i, count⟩ = pool :=
    Pool.eq_of_live (Finset.erase_insert fresh)
  rw [same] at refines
  exact ⟨frames, success, refines, holding.calm, before.below⟩

end Runs

theorem blockOp_holding {pool : Pool h.pages} {s : Pages h} (holding : Holding pool s)
    (outcome : Outcome) : Holding pool (blockOp outcome s).2 := by
  unfold blockOp
  split_ifs
  · exact holding
  · rcases allocateFrames_cases holding Nat.one_pos with full | ⟨i, s', fit, call, taken⟩
    · rw [full]
      exact holding
    · obtain ⟨frames, freed, after⟩ := Holding.giveBack Nat.one_pos fit holding taken
      rw [call]
      change Holding pool (freeRequest (h.runAddr i) s')
      rw [freeRequest, freed]
      exact after

/-! ## What the walk keeps

Between the scopes of its buffers the reader changes the platform only by block reads and
the bytes it copies, so it keeps whatever these keep. -/

section Walk
variable {σ : Type} {p : Platform σ} {P : σ → Prop}

def Undisturbed {α : Type} : Exit α → Prop
  | .dropPanic => False
  | _ => True

structure Platform.Keeps (p : Platform σ) (P : σ → Prop) : Prop where
  reads : ∀ dev offset sys, P sys → P (p.blockRead dev offset sys).2
  stores : ∀ addr byte sys, P sys → P (p.store addr byte sys)

theorem blockRead_keeps (kept : p.Keeps P) {w : World σ} (holds : P w.sys) (dev offset : Nat) :
    P (blockRead p dev offset w).2.sys :=
  kept.reads dev offset w.sys holds

theorem storeCopy_keeps (kept : p.Keeps P) (block : Block) (c : Copy) {sys : σ}
    (holds : P sys) : P (p.storeCopy block c sys) :=
  List.foldlRecOn _ _ holds fun _ holds _ _ => kept.stores _ _ _ holds

theorem copyChunk_keeps (kept : p.Keeps P) {stop logical : Nat} {v : Vars σ}
    (holds : P v.world.sys) :
    P (copyChunk p stop logical v).1.world.sys ∧
      ∀ e, (copyChunk p stop logical v).2 = .error e → Undisturbed e := by
  unfold copyChunk
  split
  · refine ⟨holds, fun e left => ?_⟩
    cases left
    exact trivial
  · split
    · refine ⟨storeCopy_keeps kept _ _ holds, fun e left => ?_⟩
      cases left
    · refine ⟨holds, fun e left => ?_⟩
      cases left
      exact trivial

theorem copyZone_keeps (fs : Fs) (stop : Nat) (kept : p.Keeps P) (pos : Pos)
    (zone logical : Nat) {v : Vars σ} (holds : P v.world.sys) :
    P (copyZone p fs stop pos zone logical v).1.world.sys ∧
      ∀ e, (copyZone p fs stop pos zone logical v).2 = .error e → Undisturbed e := by
  unfold copyZone
  dsimp only
  split_ifs
  · exact ⟨holds, fun e left => by cases left⟩
  · exact ⟨holds, fun e left => by cases left⟩
  · have after := blockRead_keeps kept (w := v.world.note (.call pos zone logical)) holds fs.dev
      (zone * blockSize)
    cases answer : blockRead p fs.dev (zone * blockSize)
        (v.world.note (.call pos zone logical)) with
    | mk ok w =>
        rw [answer] at after
        cases ok with
        | false =>
            refine ⟨after, fun e left => ?_⟩
            cases left
            exact trivial
        | true => exact copyChunk_keeps kept after

theorem visitZone_keeps (fs : Fs) (stop : Nat) (kept : p.Keeps P) (pos : Pos)
    (zone logical : Nat) {v : Vars σ} (holds : P v.world.sys) :
    P (visitZone p fs stop pos zone logical v).1.world.sys ∧
      ∀ e, (visitZone p fs stop pos zone logical v).2 = some e → Undisturbed e := by
  have copied := copyZone_keeps fs stop kept pos zone logical holds
  unfold visitZone
  split_ifs
  · refine ⟨holds, fun e left => ?_⟩
    cases left
    exact trivial
  · cases result : copyZone p fs stop pos zone logical v with
    | mk v' answer =>
        rw [result] at copied
        cases answer with
        | error e =>
            refine ⟨copied.1, fun e' left => ?_⟩
            cases left
            exact copied.2 e rfl
        | ok more =>
            cases more with
            | false =>
                refine ⟨copied.1, fun e left => ?_⟩
                cases left
                exact trivial
            | true => exact ⟨copied.1, fun e left => by cases left⟩

variable {fs : Fs} {stop : Nat}

def Locals.At (P : σ → Prop) (st : Locals σ) : Prop := P st.vars.world.sys

theorem zoneStep_meets (kept : p.Keeps P) (pos : Pos) (zone : Nat) {st : Locals σ}
    (holds : st.At P) : (zoneStep p fs stop pos zone st).Meets (Locals.At P) Undisturbed := by
  have visited := visitZone_keeps fs stop kept pos zone st.logical holds
  unfold zoneStep
  cases result : visitZone p fs stop pos zone st.logical st.vars with
  | mk v left =>
      rw [result] at visited
      cases left with
      | none => exact visited.1
      | some e => exact ⟨visited.1, visited.2 e rfl⟩

theorem loadStep_meets (kept : p.Keeps P) (into : Scratch) (zone : Nat) {st : Locals σ}
    (holds : st.At P) : (loadStep p fs into zone st).Meets (Locals.At P) Undisturbed := by
  have after := blockRead_keeps kept holds fs.dev (zone * blockSize)
  unfold loadStep readIndirectZone
  cases answer : blockRead p fs.dev (zone * blockSize) st.vars.world with
  | mk ok w =>
      rw [answer] at after
      cases ok with
      | false => exact ⟨after, trivial⟩
      | true =>
          cases into with
          | ind => exact after
          | dind => exact after
          | tind => exact after

theorem indirectPtrs_meets (kept : p.Keeps P) (pos : Nat → Pos) {st : Locals σ}
    (holds : st.At P) : (indirectPtrs p fs stop pos st).Meets (Locals.At P) Undisturbed :=
  forRange_meets (fun i _ holds => zoneStep_meets kept (pos i) _ holds) 0 _ holds

theorem directZones_meets (kept : p.Keeps P) (inode : Inode) {st : Locals σ}
    (holds : st.At P) : (directZones p fs inode stop st).Meets (Locals.At P) Undisturbed :=
  forRange_meets (fun zi _ holds => zoneStep_meets kept (.direct zi) _ holds) 0 _ holds

theorem singleIndirect_meets (kept : p.Keeps P) (inode : Inode) {st : Locals σ}
    (holds : st.At P) : (singleIndirect p fs inode stop st).Meets (Locals.At P) Undisturbed := by
  unfold singleIndirect
  dsimp only
  split_ifs
  · exact (loadStep_meets kept .ind _ holds).andThen fun _ holds =>
      indirectPtrs_meets kept .single holds
  · exact holds

theorem doubleIndirect_meets (kept : p.Keeps P) (inode : Inode) {st : Locals σ}
    (holds : st.At P) : (doubleIndirect p fs inode stop st).Meets (Locals.At P) Undisturbed := by
  unfold doubleIndirect
  dsimp only
  split_ifs
  · refine (loadStep_meets kept .dind _ holds).andThen fun _ holds =>
      forRange_meets (fun i st holds => ?_) 0 _ holds
    split_ifs
    · exact holds
    · exact holds
    · exact (loadStep_meets kept .ind _ holds).andThen fun _ holds =>
        indirectPtrs_meets kept (.double i) holds
  · exact holds

theorem tripleIndirect_meets (kept : p.Keeps P) (inode : Inode) {st : Locals σ}
    (holds : st.At P) : (tripleIndirect p fs inode stop st).Meets (Locals.At P) Undisturbed := by
  unfold tripleIndirect
  dsimp only
  split_ifs
  · refine (loadStep_meets kept .tind _ holds).andThen fun _ holds =>
      forRange_meets (fun i st holds => ?_) 0 _ holds
    split_ifs
    · exact holds
    · exact holds
    · refine (loadStep_meets kept .dind _ holds).andThen fun _ holds =>
        forRange_meets (fun j st holds => ?_) 0 _ holds
      split_ifs
      · exact holds
      · exact (loadStep_meets kept .ind _ holds).andThen fun _ holds =>
          indirectPtrs_meets kept (.triple i j) holds
  · exact holds

theorem walkZones_keeps (kept : p.Keeps P) (inode : Inode) (offset : Nat) {w : World σ}
    (holds : P w.sys) :
    P (walkZones p fs inode offset stop w).1.sys ∧
      Undisturbed (walkZones p fs inode offset stop w).2 := by
  have start : Locals.At P (⟨⟨w, offset, 0, p.stale⟩, 0, p.stale, p.stale, p.stale⟩ : Locals σ) :=
    holds
  have walked : (allZones p fs inode stop
      ⟨⟨w, offset, 0, p.stale⟩, 0, p.stale, p.stale, p.stale⟩).Meets (Locals.At P) Undisturbed :=
    (((directZones_meets kept inode start).andThen fun _ holds =>
      singleIndirect_meets kept inode holds).andThen fun _ holds =>
      doubleIndirect_meets kept inode holds).andThen fun _ holds =>
      tripleIndirect_meets kept inode holds
  unfold walkZones
  cases result : allZones p fs inode stop
      ⟨⟨w, offset, 0, p.stale⟩, 0, p.stale, p.stale, p.stale⟩ with
  | next st =>
      rw [result] at walked
      exact ⟨walked, trivial⟩
  | brk st =>
      rw [result] at walked
      exact ⟨walked, trivial⟩
  | exit st e =>
      rw [result] at walked
      exact walked

end Walk

/-! ## Scopes -/

/-- A call that starts with the runs of `pool` ends with them, unless the kernel stops at a
checked subtraction, and trips no assertion either way. -/
structure Leaves (pool : Pool h.pages) {α : Type} (result : World (Pages h) × Exit α) : Prop where
  undisturbed : Undisturbed result.2
  calm : result.1.sys.tripped = false
  held : result.2 ≠ .overflow → Holding pool result.1.sys

section Scopes
variable (env : Environment) {pool : Pool h.pages}

theorem Leaves.of_holding {α : Type} {result : World (Pages h) × Exit α}
    (holding : Holding pool result.1.sys) (undisturbed : Undisturbed result.2) :
    Leaves pool result :=
  ⟨undisturbed, holding.calm, fun _ => holding⟩

theorem sealedDriver_keeps (pool : Pool h.pages) : (sealedDriver h env).Keeps (Holding pool) := by
  refine ⟨fun dev offset s holding => ?_, fun _ _ _ holding => holding⟩
  have counted : Holding pool { s with requests := s.requests + 1 } :=
    ⟨holding.refines, holding.calm, holding.below⟩
  exact blockOp_holding counted (env.outcomes s.requests)

theorem withBuffer_leaves {α : Type} {body : World (Pages h) → World (Pages h) × Exit α}
    (inner : ∀ (pool : Pool h.pages) w, Holding pool w.sys → Leaves pool (body w))
    {w : World (Pages h)} (holding : Holding pool w.sys) :
    Leaves pool (withBuffer (sealedDriver h env) body w) := by
  have pos : 0 < bufferPages blockSize := by decide
  rcases allocateFrames_cases holding pos with full | ⟨i, s, fit, call, taken⟩
  · have refused : (sealedDriver h env).bufferNew w.sys = none := full
    rw [withBuffer, refused]
    exact .of_holding holding trivial
  · have granted : (sealedDriver h env).bufferNew w.sys = some (h.runAddr i, s) := call
    rw [withBuffer, granted]
    have left := inner _ ({ w with sys := s }.note (.bufferNew true)) taken
    dsimp only
    generalize body ({ w with sys := s }.note (.bufferNew true)) = result at left ⊢
    obtain ⟨w', e⟩ := result
    -- `Drop` finds the buffer's run as the body left it
    have dropped : e ≠ .overflow → ∃ s', Holding pool s' ∧
        (sealedDriver h env).bufferDrop (h.runAddr i) w'.sys = some s' := by
      intro returned
      obtain ⟨frames, freed, after⟩ := Holding.giveBack pos fit holding (left.held returned)
      refine ⟨_, after, ?_⟩
      change dropBuffer (h.runAddr i) w'.sys = _
      rw [dropBuffer, freed]
    cases e with
    | overflow => exact ⟨trivial, left.calm, fun returned => absurd rfl returned⟩
    | dropPanic => exact left.undisturbed.elim
    | returned value =>
        obtain ⟨s', after, success⟩ := dropped fun same => by cases same
        dsimp only
        rw [success]
        exact .of_holding after trivial
    | failed error =>
        obtain ⟨s', after, success⟩ := dropped fun same => by cases same
        dsimp only
        rw [success]
        exact .of_holding after trivial

variable {w : World (Pages h)}

theorem mount_leaves (holding : Holding pool w.sys) (dev : Nat) :
    Leaves pool (mount (sealedDriver h env) dev w) := by
  refine withBuffer_leaves env (fun pool w holding => ?_) holding
  have after := blockRead_keeps (sealedDriver_keeps env pool) holding dev blockSize
  cases answer : blockRead (sealedDriver h env) dev blockSize w with
  | mk ok w' =>
      rw [answer] at after
      cases ok with
      | false => exact .of_holding after trivial
      | true =>
          dsimp only
          split_ifs
          · exact .of_holding after trivial
          · exact .of_holding after trivial

theorem readInode_leaves (holding : Holding pool w.sys) (fs : Fs) (num : Nat) :
    Leaves pool (readInode (sealedDriver h env) fs num w) := by
  unfold readInode
  split_ifs
  · exact .of_holding holding trivial
  · refine withBuffer_leaves env (fun pool w holding => ?_) holding
    have after := blockRead_keeps (sealedDriver_keeps env pool) holding fs.dev
      (fs.inodeOffset num / blockSize * blockSize)
    cases answer : blockRead (sealedDriver h env) fs.dev
        (fs.inodeOffset num / blockSize * blockSize) w with
    | mk ok w' =>
        rw [answer] at after
        cases ok with
        | false => exact .of_holding after trivial
        | true => exact .of_holding after trivial

theorem readFile_leaves (holding : Holding pool w.sys) (fs : Fs) (inode : Inode)
    (offset : BitVec 32) (outLen : Nat) :
    Leaves pool (readFile (sealedDriver h env) fs inode offset outLen w) := by
  unfold readFile
  split_ifs
  · exact .of_holding holding trivial
  · exact .of_holding holding trivial
  · refine withBuffer_leaves env (fun pool w holding => ?_) holding
    refine withBuffer_leaves env (fun pool w holding => ?_) holding
    refine withBuffer_leaves env (fun pool w holding => ?_) holding
    refine withBuffer_leaves env (fun pool w holding => ?_) holding
    obtain ⟨after, undisturbed⟩ :=
      walkZones_keeps (sealedDriver_keeps env pool) inode offset.toNat holding
    exact .of_holding after undisturbed

end Scopes

/-- The call tripped no assertion and, if it returned, the descriptor table is what it was. -/
structure Restored (w : World (Pages h)) {α : Type} (result : World (Pages h) × Exit α) :
    Prop where
  undisturbed : Undisturbed result.2
  calm : result.1.sys.tripped = false
  table : result.2 ≠ .overflow → result.1.sys.frames.table = w.sys.frames.table

theorem Leaves.restored {pool : Pool h.pages} {w : World (Pages h)} {α : Type}
    {result : World (Pages h) × Exit α} (leaves : Leaves pool result)
    (holding : Holding pool w.sys) : Restored w result :=
  ⟨leaves.undisturbed, leaves.calm, fun returned =>
    (leaves.held returned).refines.table.table_unique holding.refines.table rfl⟩

/-- The allocator is in a state it can reach, no assertion has tripped, and every free page
starts below the heap end. -/
structure Reached (s : Pages h) (live : Finset Run) : Prop where
  trace : Trace h s.frames live
  calm : s.tripped = false
  below : ∀ i p, s.frames.table[i]? = some p → p.isTaken = false → h.runAddr i < h.heapEnd

theorem Reached.holding {s : Pages h} {live : Finset Run} (reached : Reached s live) :
    ∃ pool : Pool h.pages, pool.live = live ∧ Holding pool s := by
  obtain ⟨pool, same, refines⟩ := trace_refines reached.trace
  refine ⟨pool, same, refines, reached.calm, fun i small free => ?_⟩
  exact reached.below i _ (refines.table.free_desc i small free) rfl

theorem runAddr_lt_heapEnd (fits : h.runAddr h.pages < h.heapEnd + pageSize) {i : Nat}
    (small : i < h.pages) : h.runAddr i < h.heapEnd := by
  have next : (i + 1) * pageSize ≤ h.pages * pageSize := Nat.mul_le_mul_right _ small
  rw [Heap.runAddr] at fits ⊢
  rw [Nat.succ_mul] at next
  omega

theorem Reached.boot (blank : State h) (fits : h.runAddr h.pages < h.heapEnd + pageSize) :
    Reached ⟨init blank, 0, false⟩ ∅ := by
  refine ⟨.boot blank, rfl, fun i p entry _ => runAddr_lt_heapEnd fits ?_⟩
  rw [← (init blank).table_length]
  exact (List.getElem?_eq_some_iff.mp entry).1

def quietEnvironment : Environment :=
  ⟨fun _ => .success, fun _ _ => 0, fun _ => 0, fun _ => 0, true⟩

end Vesper.Minix3
