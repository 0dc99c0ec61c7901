import Mathlib.Tactic
import Vesper.Fs.ReadExact
import Vesper.Fs.SharedMemory

/-!
# The read system call as a file store

System call 63 mounts the device, reads the inode and copies the file, with five pages at a
time: four scratch buffers and the page of the request in flight.  On a volume whose files
have no holes and a device that serves its requests, it is a read from a table of files when
at least five pages are free.  With fewer it finds that out before it has copied anything:
it returns 0 and the buffer is as it was.
-/

set_option autoImplicit false

namespace Vesper.Minix3

open Vesper.Lib.EarlyExit
open Vesper.Lib.FirstFit
open Vesper.Mm.PageFrame

/-! ## Free pages -/

theorem served_note {σ : Type} {w : World σ} {event : Event} (served : Served w.log)
    (ok : event.ok = true) : Served (w.note event).log := by
  intro other member
  rcases List.mem_append.mp member with old | new
  · exact served other old
  · rw [List.mem_singleton.mp new]
    exact ok

section Room
variable {h : Heap} {env : Environment} {pool : Pool h.pages}

theorem allocateFrames_one {s : Pages h} (holding : Holding pool s) :
    (pool.free.card = 0 ∧ allocateFrames 1 s = none) ∨
      ∃ i s', ∃ fit : pool.IsFirstFit 1 i, allocateFrames 1 s = some (h.runAddr i, s') ∧
        Holding (pool.take 1 i Nat.one_pos fit.1) s' ∧
        (pool.take 1 i Nat.one_pos fit.1).free.card + 1 = pool.free.card := by
  rcases allocate_cases holding.refines Nat.one_pos with
    ⟨call, full⟩ | ⟨i, frames, fit, call, refines⟩
  · left
    constructor
    · rw [Finset.card_eq_zero, Finset.eq_empty_iff_forall_notMem]
      exact fun i member => full i (Pool.window_one.mpr member)
    · rw [allocateFrames, call]
  · right
    refine ⟨i, { s with frames := frames }, fit, ?_, holding.take Nat.one_pos fit refines,
      Pool.free_take fit.1⟩
    rw [allocateFrames, call]

def Steady (env : Environment) : Prop := ∀ n, env.outcomes n = .success

theorem blockOp_starved {s : Pages h} (holding : Holding pool s) (full : pool.free.card = 0)
    (outcome : Outcome) : blockOp outcome s = (false, s) := by
  unfold blockOp
  split_ifs
  · rfl
  · rcases allocateFrames_one holding with ⟨-, none⟩ | ⟨i, s', fit, -, -, less⟩
    · rw [none]
    · omega

theorem blockOp_steady {s : Pages h} (holding : Holding pool s) (room : 0 < pool.free.card) :
    (blockOp (.success) s).1 = true := by
  rw [blockOp, if_neg (by decide)]
  rcases allocateFrames_one holding with ⟨full, -⟩ | ⟨i, s', fit, call, -, -⟩
  · omega
  · rw [call]
    rfl

variable {w : World (Pages h)} {dev offset : Nat}

theorem Holding.counted {s : Pages h} (holding : Holding pool s) :
    Holding pool { s with requests := s.requests + 1 } :=
  ⟨holding.refines, holding.calm, holding.below⟩

theorem blockRead_sealed :
    blockRead (sealedDriver h env) dev offset w =
      ((blockOp (env.outcomes w.sys.requests) { w.sys with requests := w.sys.requests + 1 }).1,
        { w with sys := (blockOp (env.outcomes w.sys.requests)
            { w.sys with requests := w.sys.requests + 1 }).2 }.note
          (.read offset (blockOp (env.outcomes w.sys.requests)
            { w.sys with requests := w.sys.requests + 1 }).1)) := rfl

theorem blockRead_starved (holding : Holding pool w.sys) (full : pool.free.card = 0) :
    ∃ w', blockRead (sealedDriver h env) dev offset w = (false, w') ∧ Holding pool w'.sys ∧
      w'.out = w.out := by
  rw [blockRead_sealed, blockOp_starved holding.counted full]
  exact ⟨_, rfl, holding.counted, rfl⟩

theorem blockRead_steady (steady : Steady env) (holding : Holding pool w.sys)
    (room : 0 < pool.free.card) (served : Served w.log) :
    ∃ w', blockRead (sealedDriver h env) dev offset w = (true, w') ∧ Holding pool w'.sys ∧
      w'.out = w.out ∧ Served w'.log := by
  have after := blockOp_holding holding.counted (env.outcomes w.sys.requests)
  rw [steady] at after
  rw [blockRead_sealed, steady, blockOp_steady holding.counted room]
  exact ⟨_, rfl, after, rfl, served_note served rfl⟩

/-! ## With enough pages every call is served -/

section Steady
variable {fs : Fs} {stop : Nat}

theorem act_steady (steady : Steady env) (room : 0 < pool.free.card) (item : Item)
    {v : Vars (Pages h)} (holding : Holding pool v.world.sys) (served : Served v.world.log) :
    Holding pool (act (sealedDriver h env) fs stop item v).1.world.sys ∧
      Served (act (sealedDriver h env) fs stop item v).1.world.log := by
  cases item with
  | load zone =>
      obtain ⟨w', answer, after, -, served'⟩ :=
        @blockRead_steady h env pool v.world fs.dev (zone * blockSize) steady holding room served
      simp only [act, readIndirectZone, answer]
      exact ⟨after, served'⟩
  | slot pos zone block =>
      have noted : Served (v.world.note (.call pos zone (block * blockSize))).log :=
        served_note served rfl
      simp only [act, visitZone]
      split_ifs
      · exact ⟨holding, served⟩
      · have copied :
            Holding pool (copyZone (sealedDriver h env) fs stop pos zone (block * blockSize)
              v).1.world.sys ∧
            Served (copyZone (sealedDriver h env) fs stop pos zone (block * blockSize)
              v).1.world.log := by
          unfold copyZone
          dsimp only
          split_ifs
          · exact ⟨holding, noted⟩
          · exact ⟨holding, noted⟩
          · obtain ⟨w', answer, after, -, served'⟩ := @blockRead_steady h env pool
              (v.world.note (.call pos zone (block * blockSize))) fs.dev (zone * blockSize) steady
              holding room noted
            rw [answer]
            dsimp only
            unfold copyChunk
            split
            · exact ⟨after, served'⟩
            · split
              · exact ⟨storeCopy_keeps (sealedDriver_keeps env pool) _ _ after,
                  served_note served' rfl⟩
              · exact ⟨after, served'⟩
        split
        · next result => rwa [result] at copied
        · next result => rwa [result] at copied
        · next result => rwa [result] at copied

theorem pass_steady (steady : Steady env) (room : 0 < pool.free.card) (items : List Item)
    {v : Vars (Pages h)} (holding : Holding pool v.world.sys) (served : Served v.world.log) :
    Served (runAll (act (sealedDriver h env) fs stop) items v).1.world.log := by
  have each : ∀ item (v : Vars (Pages h)), Holding pool v.world.sys ∧ Served v.world.log →
      (Holding pool (act (sealedDriver h env) fs stop item v).1.world.sys ∧
        Served (act (sealedDriver h env) fs stop item v).1.world.log) ∧
      ∀ e, (act (sealedDriver h env) fs stop item v).2 = some e → True :=
    fun item v kept => ⟨act_steady steady room item kept.1 kept.2, fun _ _ => trivial⟩
  exact (runAll_meets each items ⟨holding, served⟩).1.2

theorem withBuffer_room {α : Type} (holding : Holding pool w.sys)
    {body : World (Pages h) → World (Pages h) × Exit α}
    (leaves : ∀ (pool : Pool h.pages) w, Holding pool w.sys → Leaves pool (body w)) :
    (pool.free.card = 0 ∧
        withBuffer (sealedDriver h env) body w =
          (w.note (.bufferNew false), .failed .outOfMemory)) ∨
      ∃ (pool' : Pool h.pages) (w₀ w' : World (Pages h)), Holding pool' w₀.sys ∧
        pool'.free.card + 1 = pool.free.card ∧ w₀.out = w.out ∧
        (Served w.log → Served w₀.log) ∧
        withBuffer (sealedDriver h env) body w = (w', (body w₀).2) ∧
        w'.out = (body w₀).1.out ∧ (Served (body w₀).1.log → Served w'.log) := by
  rcases allocateFrames_one holding with ⟨full, none⟩ | ⟨i, s, fit, call, taken, less⟩
  · left
    have refused : (sealedDriver h env).bufferNew w.sys = .none := none
    rw [withBuffer, refused]
    exact ⟨full, rfl⟩
  right
  have granted : (sealedDriver h env).bufferNew w.sys = some (h.runAddr i, s) := call
  obtain ⟨w₀, entry⟩ : ∃ w₀ : World (Pages h), w₀ = { w with sys := s }.note (.bufferNew true) :=
    ⟨_, rfl⟩
  have opened : Holding (pool.take 1 i Nat.one_pos fit.1) w₀.sys ∧ w₀.out = w.out ∧
      (Served w.log → Served w₀.log) := by
    rw [entry]
    exact ⟨taken, rfl, fun served => served_note served rfl⟩
  have left := leaves _ w₀ opened.1
  refine ⟨pool.take 1 i Nat.one_pos fit.1, w₀, ?_⟩
  rw [withBuffer, granted]
  dsimp only
  rw [← entry]
  cases result : body w₀ with
  | mk w' e =>
      rw [result] at left
      -- `Drop` finds the buffer's run as the body left it
      have dropped : e ≠ .overflow → ∃ s',
          (sealedDriver h env).bufferDrop (h.runAddr i) w'.sys = some s' := by
        intro returned
        obtain ⟨frames, freed, -⟩ := Holding.giveBack Nat.one_pos fit holding (left.held returned)
        refine ⟨{ w'.sys with frames := frames }, ?_⟩
        change dropBuffer (h.runAddr i) w'.sys = _
        rw [dropBuffer, freed]
      cases e with
      | overflow => exact ⟨w', opened.1, less, opened.2.1, opened.2.2, rfl, rfl, id⟩
      | dropPanic => exact left.undisturbed.elim
      | returned _ | failed _ =>
          obtain ⟨s', success⟩ := dropped fun same => by cases same
          refine ⟨{ w' with sys := s' }.note (.bufferDrop true), opened.1, less, opened.2.1,
            opened.2.2, ?_, rfl, fun served => served_note served rfl⟩
          dsimp only
          rw [success]

/-! ## Scopes within scopes -/

section Scopes
variable {α : Type} {body : World (Pages h) → World (Pages h) × Exit α}
  (leaves : ∀ (pool : Pool h.pages) w, Holding pool w.sys → Leaves pool (body w))
include leaves

theorem scopes_leave (n : Nat) :
    ∀ (pool : Pool h.pages) w, Holding pool w.sys →
      Leaves pool ((withBuffer (sealedDriver h env))^[n] body w) := by
  induction n with
  | zero => exact leaves
  | succ n ih =>
      intro pool w holding
      rw [Function.iterate_succ_apply']
      exact withBuffer_leaves env ih holding

/-- As long as there are pages for the buffers, the calls around the body are served. -/
theorem scopes_steady (n : Nat) (holding : Holding pool w.sys) (served : Served w.log)
    (room : n ≤ pool.free.card)
    (inner : ∀ (pool' : Pool h.pages) w', Holding pool' w'.sys → Served w'.log →
      pool'.free.card + n = pool.free.card → Served (body w').1.log) :
    Served ((withBuffer (sealedDriver h env))^[n] body w).1.log := by
  induction n generalizing pool w with
  | zero => exact inner pool w holding served rfl
  | succ n ih =>
      rw [Function.iterate_succ_apply']
      rcases @withBuffer_room h env pool w α holding _ (scopes_leave leaves n) with
        ⟨full, -⟩ | ⟨pool', w₀, w', opened, less, -, served₀, result, -, served'⟩
      · omega
      · rw [result]
        refine served' (ih opened (served₀ served) (by omega) ?_)
        intro pool'' w'' holding'' served'' rest
        exact inner pool'' w'' holding'' served'' (by omega)

def Starves (out : Nat → BitVec 8) (result : World (Pages h) × Exit α) (zero : α) : Prop :=
  result.1.out = out ∧ (result.2 = .returned zero ∨ ∃ e, result.2 = .failed e)

/-- With no more pages than buffers, either a buffer is missing or the body has no page. -/
theorem scopes_starved {zero : α} (n : Nat) (holding : Holding pool w.sys)
    (few : pool.free.card ≤ n)
    (inner : ∀ (pool' : Pool h.pages) w', Holding pool' w'.sys → pool'.free.card = 0 →
      w'.out = w.out → Starves w.out (body w') zero) :
    Starves w.out ((withBuffer (sealedDriver h env))^[n] body w) zero := by
  induction n generalizing pool w with
  | zero => exact inner pool w holding (Nat.le_zero.mp few) rfl
  | succ n ih =>
      rw [Function.iterate_succ_apply']
      rcases @withBuffer_room h env pool w α holding _ (scopes_leave leaves n) with
        ⟨-, result⟩ | ⟨pool', w₀, w', opened, less, same, -, result, out, -⟩
      · rw [result]
        exact ⟨rfl, Or.inr ⟨_, rfl⟩⟩
      · have starves := ih opened (by omega) fun pool'' w'' holding'' full out'' => by
          rw [same]
          exact inner pool'' w'' holding'' full (out''.trans same)
        rw [result]
        exact ⟨out.trans (starves.1.trans same), starves.2⟩

end Scopes

theorem readFile_scopes (fs : Fs) {inode : Inode} {offset : BitVec 32} {outLen : Nat}
    (some_ : want inode offset outLen ≠ 0) :
    readFile (sealedDriver h env) fs inode offset outLen w =
      (withBuffer (sealedDriver h env))^[4] (fun w =>
        settle (runAll (act (sealedDriver h env) fs (offset.toNat + want inode offset outLen))
          (stream ((sealedDriver h env).zoneBlock fs) inode)
          ⟨w, offset.toNat, 0, (sealedDriver h env).stale⟩)) w := by
  have walk : walkZones (sealedDriver h env) fs inode offset.toNat
      (offset.toNat + want inode offset outLen) = fun w =>
        settle (runAll (act (sealedDriver h env) fs (offset.toNat + want inode offset outLen))
          (stream ((sealedDriver h env).zoneBlock fs) inode)
          ⟨w, offset.toNat, 0, (sealedDriver h env).stale⟩) := by
    funext w
    exact walkZones_eq inode (Nat.lt_add_of_pos_right (Nat.pos_of_ne_zero some_)) w
  rw [readFile, if_neg (not_past_of_want (Nat.pos_of_ne_zero some_)), if_neg some_, ← walk]
  rfl

theorem pass_leaves (inode : Inode) {offset : Nat} (before : offset < stop)
    (pool : Pool h.pages) (w : World (Pages h)) (holding : Holding pool w.sys) :
    Leaves pool (settle (runAll (act (sealedDriver h env) fs stop)
      (stream ((sealedDriver h env).zoneBlock fs) inode)
      ⟨w, offset, 0, (sealedDriver h env).stale⟩)) := by
  rw [← walkZones_eq inode before]
  obtain ⟨after, undisturbed⟩ := walkZones_keeps (sealedDriver_keeps env pool) inode offset holding
  exact .of_holding after undisturbed

theorem readFile_steady (steady : Steady env) (holding : Holding pool w.sys)
    (served : Served w.log) (room : 5 ≤ pool.free.card) (fs : Fs) (inode : Inode)
    (offset : BitVec 32) (outLen : Nat) :
    Served (readFile (sealedDriver h env) fs inode offset outLen w).1.log := by
  by_cases empty : want inode offset outLen = 0
  · rw [readFile_empty empty]
    exact served
  rw [readFile_scopes fs empty]
  refine scopes_steady (pass_leaves inode (Nat.lt_add_of_pos_right (Nat.pos_of_ne_zero empty))) 4
    holding served (by omega) fun pool' w' holding' served' less => ?_
  rw [settle_world]
  exact pass_steady steady (by omega) _ holding' served'

/-! ## With too few pages nothing is copied -/

theorem act_starved (full : pool.free.card = 0) (item : Item) {v : Vars (Pages h)}
    {out : Nat → BitVec 8} (holding : Holding pool v.world.sys) (same : v.world.out = out)
    (nothing : v.written = 0) :
    (Holding pool (act (sealedDriver h env) fs stop item v).1.world.sys ∧
      (act (sealedDriver h env) fs stop item v).1.world.out = out ∧
      (act (sealedDriver h env) fs stop item v).1.written = 0) ∧
    ∀ e, (act (sealedDriver h env) fs stop item v).2 = some e →
      e = .returned 0 ∨ ∃ error, e = .failed error := by
  cases item with
  | load zone =>
      obtain ⟨w', answer, after, out'⟩ :=
        @blockRead_starved h env pool v.world fs.dev (zone * blockSize) holding full
      simp only [act, readIndirectZone, answer]
      refine ⟨⟨after, out'.trans same, nothing⟩, fun e left => ?_⟩
      cases left
      exact Or.inr ⟨_, rfl⟩
  | slot pos zone block =>
      simp only [act, visitZone]
      split_ifs
      · refine ⟨⟨holding, same, nothing⟩, fun e left => ?_⟩
        cases left
        rw [nothing]
        exact Or.inl rfl
      · unfold copyZone
        dsimp only
        obtain ⟨w', answer, after, out'⟩ := @blockRead_starved h env pool
          (v.world.note (.call pos zone (block * blockSize))) fs.dev (zone * blockSize)
          holding full
        split_ifs
        · cases decide (block * blockSize + blockSize < stop) with
          | true => exact ⟨⟨holding, same, nothing⟩, fun e left => by cases left⟩
          | false =>
              refine ⟨⟨holding, same, nothing⟩, fun e left => ?_⟩
              cases left
              rw [nothing]
              exact Or.inl rfl
        · exact ⟨⟨holding, same, nothing⟩, fun e left => by cases left⟩
        · rw [answer]
          refine ⟨⟨after, out'.trans same, nothing⟩, fun e left => ?_⟩
          cases left
          exact Or.inr ⟨_, rfl⟩

theorem readFile_starved (holding : Holding pool w.sys) (few : pool.free.card ≤ 4) (fs : Fs)
    (inode : Inode) (offset : BitVec 32) (outLen : Nat) :
    Starves w.out (readFile (sealedDriver h env) fs inode offset outLen w) 0 := by
  by_cases empty : want inode offset outLen = 0
  · rw [readFile_empty empty]
    exact ⟨rfl, Or.inl rfl⟩
  rw [readFile_scopes fs empty]
  refine scopes_starved (pass_leaves inode (Nat.lt_add_of_pos_right (Nat.pos_of_ne_zero empty))) 4
    holding few fun pool' w' holding' full same => ?_
  have each : ∀ item (v : Vars (Pages h)),
      Holding pool' v.world.sys ∧ v.world.out = w.out ∧ v.written = 0 →
      (Holding pool' (act (sealedDriver h env) fs (offset.toNat + want inode offset outLen) item
          v).1.world.sys ∧
        (act (sealedDriver h env) fs (offset.toNat + want inode offset outLen) item v).1.world.out =
          w.out ∧
        (act (sealedDriver h env) fs (offset.toNat + want inode offset outLen) item v).1.written =
          0) ∧
      ∀ e, (act (sealedDriver h env) fs (offset.toNat + want inode offset outLen) item v).2 =
          some e →
        e = .returned 0 ∨ ∃ error, e = .failed error :=
    fun item v kept => act_starved full item kept.1 kept.2.1 kept.2.2
  obtain ⟨⟨-, out, nothing⟩, exits⟩ :=
    runAll_meets each (stream ((sealedDriver h env).zoneBlock fs) inode)
      (v := ⟨w', offset.toNat, 0, (sealedDriver h env).stale⟩) ⟨holding', same, rfl⟩
  cases result : runAll (act (sealedDriver h env) fs (offset.toNat + want inode offset outLen))
      (stream ((sealedDriver h env).zoneBlock fs) inode)
      ⟨w', offset.toNat, 0, (sealedDriver h env).stale⟩ with
  | mk v e =>
      rw [result] at out nothing exits
      cases e with
      | none => exact ⟨out, Or.inl (congrArg Exit.returned nothing)⟩
      | some e => exact ⟨out, exits e rfl⟩

/-! ## Mounting and looking up -/

/-- `mount` and `read_inode` read one block into a buffer of their own. -/
def fetch {α : Type} (p : Platform (Pages h)) (dev offset : Nat) (result : Exit α) :
    World (Pages h) → World (Pages h) × Exit α :=
  withBuffer p fun w =>
    match blockRead p dev offset w with
    | (false, w') => (w', .failed .blockReadFailed)
    | (true, w') => (w', result)

section Fetch
variable {α : Type} {result : Exit α}

theorem fetch_body_leaves (undisturbed : Undisturbed result) (pool : Pool h.pages)
    (w : World (Pages h)) (holding : Holding pool w.sys) :
    Leaves pool (match blockRead (sealedDriver h env) dev offset w with
      | (false, w') => (w', Exit.failed .blockReadFailed)
      | (true, w') => (w', result)) := by
  have after := blockRead_keeps (sealedDriver_keeps env pool) holding dev offset
  cases answer : blockRead (sealedDriver h env) dev offset w with
  | mk ok w' =>
      rw [answer] at after
      cases ok with
      | false => exact .of_holding after trivial
      | true => exact .of_holding after undisturbed

theorem fetch_any (holding : Holding pool w.sys) (undisturbed : Undisturbed result)
    (returns : result ≠ .overflow) :
    ∃ w', Holding pool w'.sys ∧ w'.out = w.out ∧
      (fetch (sealedDriver h env) dev offset result w = (w', result) ∨
        ∃ e, fetch (sealedDriver h env) dev offset result w = (w', .failed e)) := by
  have inner := fun pool w holding =>
    @fetch_body_leaves h env dev offset α result undisturbed pool w holding
  have leaves : Leaves pool (fetch (sealedDriver h env) dev offset result w) :=
    withBuffer_leaves env inner holding
  rcases @withBuffer_room h env pool w α holding _ inner with
    ⟨-, call⟩ | ⟨pool', w₀, w', opened, -, same, -, call, out, -⟩
  · rw [show fetch (sealedDriver h env) dev offset result w = _ from call] at leaves ⊢
    exact ⟨_, leaves.held (by simp), rfl, Or.inr ⟨_, rfl⟩⟩
  · have quiet := blockRead_quiet (sealedDriver h env) dev offset w₀
    rw [show fetch (sealedDriver h env) dev offset result w = _ from call] at leaves ⊢
    cases answer : blockRead (sealedDriver h env) dev offset w₀ with
    | mk ok w'' =>
        rw [answer] at out leaves quiet
        cases ok with
        | false =>
            exact ⟨w', leaves.held (by simp), out.trans (quiet.out.trans same), Or.inr ⟨_, rfl⟩⟩
        | true =>
            exact ⟨w', leaves.held returns, out.trans (quiet.out.trans same), Or.inl rfl⟩

theorem fetch_steady (steady : Steady env) (holding : Holding pool w.sys)
    (served : Served w.log) (room : 2 ≤ pool.free.card) (undisturbed : Undisturbed result)
    (returns : result ≠ .overflow) :
    ∃ w', Holding pool w'.sys ∧ w'.out = w.out ∧ Served w'.log ∧
      fetch (sealedDriver h env) dev offset result w = (w', result) := by
  have inner := fun pool w holding =>
    @fetch_body_leaves h env dev offset α result undisturbed pool w holding
  have leaves : Leaves pool (fetch (sealedDriver h env) dev offset result w) :=
    withBuffer_leaves env inner holding
  rcases @withBuffer_room h env pool w α holding _ inner with
    ⟨full, -⟩ | ⟨pool', w₀, w', opened, less, same, served₀, call, out, served'⟩
  · omega
  · obtain ⟨w'', answer, -, quiet, served''⟩ :=
      @blockRead_steady h env pool' w₀ dev offset steady opened (by omega) (served₀ served)
    rw [show fetch (sealedDriver h env) dev offset result w = _ from call] at leaves ⊢
    rw [answer] at out leaves served' ⊢
    exact ⟨w', leaves.held returns, out.trans (quiet.trans same), served' served'', rfl⟩

end Fetch

end Steady

end Room

/-! ## Volumes -/

section Volumes
variable {σ : Type} (p : Platform σ)

def mounted (dev : Nat) : Exit Fs :=
  if (handle p dev).sb.magic ≠ magic then .failed .badMagic else .returned (handle p dev)

/-- The files of a volume by inode number, from 1 to `inodes`. -/
structure Volume where
  inodes : Nat
  content : Nat → List (BitVec 8)

def Volume.read (v : Volume) (num offset len : Nat) : List (BitVec 8) :=
  if num = 0 ∨ v.inodes < num then [] else ((v.content num).drop offset).take len

/-- The device carries the volume, and none of its files has a hole. -/
structure Carries (dev : Nat) (v : Volume) : Prop where
  magic : (handle p dev).sb.magic = magic
  inodes : (handle p dev).sb.ninodes = v.inodes
  size : ∀ num, 0 < num → num ≤ v.inodes →
    (inodeAt p (handle p dev) num).size.toNat = (v.content num).length
  complete : ∀ num, 0 < num → num ≤ v.inodes →
    Complete (p.zoneBlock (handle p dev)) (inodeAt p (handle p dev) num)
  byte : ∀ num, 0 < num → num ≤ v.inodes → ∀ k (inside : k < (v.content num).length),
    fileByte (p.zoneBlock (handle p dev)) (inodeAt p (handle p dev) num) k = (v.content num)[k]

/-- A device without a Minix file system has no volume. -/
def Holds (dev : Nat) : Option Volume → Prop
  | none => (handle p dev).sb.magic ≠ magic
  | some v => Carries p dev v

def contents (vol : Option Volume) (num offset len : Nat) : List (BitVec 8) :=
  match vol with
  | none => []
  | some v => v.read num offset len

def place (bytes : List (BitVec 8)) (out : Nat → BitVec 8) : Nat → BitVec 8 :=
  fun k => bytes.getD k (out k)

variable {p}

theorem readFile_good (fs : Fs) (inode : Inode) (offset : BitVec 32) (outLen : Nat)
    (w : World σ) (complete : Complete (p.zoneBlock fs) inode) :
    Good (want inode offset outLen) (Window (fileByte (p.zoneBlock fs) inode) w.out
      offset.toNat (want inode offset outLen)) (readFile p fs inode offset outLen w) := by
  by_cases empty : want inode offset outLen = 0
  · rw [readFile_empty empty, empty]
    exact fun _ => ⟨rfl, fun k bound => absurd bound (Nat.not_lt_zero k), fun _ _ => rfl⟩
  · have positive : 0 < want inode offset outLen := Nat.pos_of_ne_zero empty
    have fits : offset.toNat + want inode offset outLen ≤ inode.size.toNat := by
      unfold want at positive ⊢
      omega
    refine readFile_meets (P := fun w' => w'.out = w.out) (fun body w' same inner => ?_) positive
      rfl fun w' memory => ?_
    · exact withBuffer_good fun w'' same' => inner w'' (same'.trans same)
    refine run_dense rfl ?_ fits (by omega) ?_ (stream_dense complete)
      ⟨rfl, fun k bound => absurd bound (Nat.not_lt_zero k),
        fun k _ => congrFun memory k⟩ ?_ ?_
    · exact fun b zone mapped =>
        ⟨blockMap_ne_zero mapped, fun k bound => fileByte_mapped mapped bound⟩
    · have := inode.size.isLt
      unfold blockSize
      omega
    · rw [Nat.zero_mul]
      exact Nat.zero_le _
    · exact Nat.lt_add_of_pos_right positive

theorem Dense.zone_of_slot {map : Nat → Option Nat} {size : Nat} {items : List Item}
    {a b c : Nat} (dense : Dense map size items a c) (ordered : Ordered items a b) {pos : Pos}
    {zone block : Nat} (member : Item.slot pos zone block ∈ items)
    (inside : block * blockSize < size) : map block = some zone := by
  induction items generalizing a with
  | nil => cases member
  | cons item rest ih =>
      have bounds := Ordered.block_bounds ordered member
      have reached : a * blockSize ≤ block * blockSize := Nat.mul_le_mul_right _ bounds.1
      obtain ⟨d, ⟨past, -⟩ | step, tail⟩ := dense
      · omega
      obtain ⟨d', step', tail'⟩ := ordered
      cases item with
      | load zone' =>
          obtain rfl : d = a := step
          obtain rfl : d' = d := step'
          rcases List.mem_cons.mp member with same | later
          · cases same
          · exact ih tail tail' later
      | slot pos' zone' block' =>
          obtain ⟨rfl, mapped, rfl⟩ := step
          obtain ⟨-, rfl⟩ := step'
          rcases List.mem_cons.mp member with same | later
          · cases same
            exact mapped
          · exact ih tail tail' later

theorem copiesFit_of_complete {read : Nat → Block} {inode : Inode}
    (complete : Complete read inode) (offset : BitVec 32) (outLen limit : Nat) :
    CopiesFit read inode offset.toNat (want inode offset outLen) limit := by
  by_cases empty : want inode offset outLen = 0
  · exact .inl empty
  refine .inr fun before pos block behind split early => ?_
  have inside : block * blockSize < inode.size.toNat := by
    rw [Nat.succ_mul] at early
    unfold want at empty
    omega
  have mapped := Dense.zone_of_slot (stream_dense complete) (stream_ordered read inode)
    (split ▸ List.mem_append_right _ List.mem_cons_self) inside
  exact absurd rfl (blockMap_ne_zero mapped)

theorem Carries.window {dev num : Nat} {v : Volume} (carries : Carries p dev v) (low : 0 < num)
    (high : num ≤ v.inodes) (offset : BitVec 32) {outLen : Nat} (short : outLen < 2 ^ 32)
    {before out : Nat → BitVec 8}
    (window : Window (fileByte (p.zoneBlock (handle p dev)) (inodeAt p (handle p dev) num)) before
      offset.toNat (want (inodeAt p (handle p dev) num) offset outLen) out) :
    (v.read num offset.toNat outLen).length =
        want (inodeAt p (handle p dev) num) offset outLen ∧
      out = place (v.read num offset.toNat outLen) before := by
  have size := carries.size num low high
  have chosen : v.read num offset.toNat outLen =
      ((v.content num).drop offset.toNat).take outLen := if_neg (by omega)
  have length : (v.read num offset.toNat outLen).length =
      want (inodeAt p (handle p dev) num) offset outLen := by
    rw [chosen, List.length_take, List.length_drop, want, Nat.mod_eq_of_lt short, size]
  refine ⟨length, ?_⟩
  funext k
  rw [place]
  by_cases inside : k < want (inodeAt p (handle p dev) num) offset outLen
  · have within : offset.toNat + k < (v.content num).length := by
      rw [want, size] at inside
      omega
    have listed : k < (v.read num offset.toNat outLen).length := length ▸ inside
    rw [window.1 k inside, carries.byte num low high _ within, List.getD_eq_getElem?_getD,
      List.getElem?_eq_getElem listed, Option.getD_some]
    simp [chosen]
  · have past : (v.read num offset.toNat outLen).length ≤ k := by omega
    rw [window.2 k (by omega), List.getD_eq_getElem?_getD, List.getElem?_eq_none past,
      Option.getD_none]

end Volumes

/-! ## The system call -/

theorem mount_eq_fetch {h : Heap} (p : Platform (Pages h)) (dev : Nat) :
    mount p dev = fetch p dev blockSize (mounted p dev) := by
  unfold mount fetch
  congr 1
  funext w
  obtain ⟨ok, w'⟩ := blockRead p dev blockSize w
  cases ok with
  | false => rfl
  | true =>
      unfold mounted handle
      dsimp only
      split_ifs
      · rfl
      · rfl

theorem readInode_eq_fetch {h : Heap} (p : Platform (Pages h)) {fs : Fs} {num : Nat}
    (valid : ¬(num = 0 ∨ fs.sb.ninodes < num)) (w : World (Pages h)) :
    readInode p fs num w =
      fetch p fs.dev (fs.inodeOffset num / blockSize * blockSize) (.returned (inodeAt p fs num))
        w := by
  rw [readInode, if_neg valid]
  unfold fetch
  dsimp only
  congr 1
  funext w'
  obtain ⟨ok, w''⟩ := blockRead p fs.dev (fs.inodeOffset num / blockSize * blockSize) w'
  cases ok with
  | false => rfl
  | true => rfl

theorem mounted_cases {σ : Type} (p : Platform σ) (dev : Nat) :
    Undisturbed (mounted p dev) ∧ mounted p dev ≠ .overflow := by
  unfold mounted
  split_ifs
  · exact ⟨trivial, by simp⟩
  · exact ⟨trivial, by simp⟩

section Call
variable {h : Heap} {env : Environment} {pool : Pool h.pages} {w : World (Pages h)}
  {dev num size : Nat} {offset : BitVec 32}

theorem readCall_starved (holding : Holding pool w.sys) (few : pool.free.card ≤ 4) :
    ∃ w', readCall (sealedDriver h env) dev num offset size w = (w', .returned 0) ∧ w'.out = w.out ∧
      Holding pool w'.sys := by
  obtain ⟨clean, returns⟩ := mounted_cases (sealedDriver h env) dev
  unfold readCall
  rw [mount_eq_fetch]
  obtain ⟨w₁, holding₁, out₁, mount | ⟨e, mount⟩⟩ :=
    @fetch_any h env pool w dev blockSize Fs _ holding clean returns
  · rw [mount]
    unfold mounted
    split_ifs
    · exact ⟨w₁, rfl, out₁, holding₁⟩
    dsimp only
    by_cases invalid : num = 0 ∨ (handle (sealedDriver h env) dev).sb.ninodes < num
    · rw [readInode, if_pos invalid]
      exact ⟨w₁, rfl, out₁, holding₁⟩
    rw [readInode_eq_fetch (sealedDriver h env) invalid]
    obtain ⟨w₂, holding₂, out₂, inode | ⟨e, inode⟩⟩ := @fetch_any h env pool w₁ _ _ Inode
      (.returned (inodeAt (sealedDriver h env) (handle (sealedDriver h env) dev) num)) holding₁
      trivial (by simp)
    · rw [inode]
      dsimp only
      have starves := @readFile_starved h env pool w₂ holding₂ few (handle (sealedDriver h env) dev)
        (inodeAt (sealedDriver h env) (handle (sealedDriver h env) dev) num) offset size
      have leaves := readFile_leaves env holding₂ (handle (sealedDriver h env) dev)
        (inodeAt (sealedDriver h env) (handle (sealedDriver h env) dev) num) offset size
      generalize readFile (sealedDriver h env) _ _ offset size w₂ = result at starves leaves ⊢
      obtain ⟨w₃, e⟩ := result
      have out₃ : w₃.out = w.out := starves.1.trans (out₂.trans out₁)
      obtain rfl | ⟨error, rfl⟩ : e = .returned 0 ∨ ∃ error, e = .failed error := starves.2
      · exact ⟨w₃, rfl, out₃, leaves.held (by simp)⟩
      · exact ⟨w₃, rfl, out₃, leaves.held (by simp)⟩
    · rw [inode]
      exact ⟨w₂, rfl, out₂.trans out₁, holding₂⟩
  · rw [mount]
    exact ⟨w₁, rfl, out₁, holding₁⟩

theorem readCall_steady (steady : Steady env) (holding : Holding pool w.sys)
    (served : Served w.log) (room : 5 ≤ pool.free.card) (short : size < 2 ^ 32)
    {vol : Option Volume} (holds : Holds (sealedDriver h env) dev vol) :
    ∃ w', readCall (sealedDriver h env) dev num offset size w =
        (w', .returned (contents vol num offset.toNat size).length) ∧
      w'.out = place (contents vol num offset.toNat size) w.out ∧ Holding pool w'.sys := by
  obtain ⟨clean, returns⟩ := mounted_cases (sealedDriver h env) dev
  unfold readCall
  rw [mount_eq_fetch]
  obtain ⟨w₁, holding₁, out₁, served₁, mount⟩ := @fetch_steady h env pool w dev blockSize Fs _
    steady holding served (by omega) clean returns
  rw [mount]
  cases vol with
  | none =>
      have bad : (handle (sealedDriver h env) dev).sb.magic ≠ magic := holds
      rw [mounted, if_pos bad]
      exact ⟨w₁, rfl, out₁, holding₁⟩
  | some v =>
      have carries : Carries (sealedDriver h env) dev v := holds
      rw [mounted, if_neg (not_not.mpr carries.magic)]
      dsimp only [contents]
      by_cases invalid : num = 0 ∨ (handle (sealedDriver h env) dev).sb.ninodes < num
      · rw [readInode, if_pos invalid]
        rw [carries.inodes] at invalid
        rw [Volume.read, if_pos invalid]
        exact ⟨w₁, rfl, out₁, holding₁⟩
      rw [readInode_eq_fetch (sealedDriver h env) invalid]
      rw [carries.inodes] at invalid
      obtain ⟨w₂, holding₂, out₂, served₂, inode⟩ := @fetch_steady h env pool w₁ _ _ Inode
        (.returned (inodeAt (sealedDriver h env) (handle (sealedDriver h env) dev) num)) steady
        holding₁ served₁ (by omega) trivial (by simp)
      rw [inode]
      dsimp only
      have low : 0 < num := by omega
      have high : num ≤ v.inodes := by omega
      have good := readFile_good (handle (sealedDriver h env) dev)
        (inodeAt (sealedDriver h env) (handle (sealedDriver h env) dev) num) offset size w₂
        (carries.complete num low high)
      have served₃ := readFile_steady steady holding₂ served₂ room (handle (sealedDriver h env) dev)
        (inodeAt (sealedDriver h env) (handle (sealedDriver h env) dev) num) offset size
      have leaves := readFile_leaves env holding₂ (handle (sealedDriver h env) dev)
        (inodeAt (sealedDriver h env) (handle (sealedDriver h env) dev) num) offset size
      obtain ⟨returned, window⟩ := good served₃
      obtain ⟨length, placed⟩ := carries.window low high offset short window
      generalize readFile (sealedDriver h env) _ _ offset size w₂ = result
        at returned leaves placed ⊢
      obtain ⟨w₃, e⟩ := result
      dsimp only at returned placed
      subst returned
      refine ⟨w₃, ?_, ?_, leaves.held (by simp)⟩
      · rw [length]
      · rw [placed, out₂, out₁]

theorem Holds.sealed {vol : Option Volume} (holds : Holds (driver h env) dev vol) :
    Holds (sealedDriver h env) dev vol := by
  cases vol with
  | none => exact holds
  | some v =>
      have carries : Carries (driver h env) dev v := holds
      exact ⟨carries.magic, carries.inodes, carries.size, carries.complete, carries.byte⟩

theorem Holds.fits {σ : Type} {p : Platform σ} {vol : Option Volume} (holds : Holds p dev vol)
    (valid : (handle p dev).sb.magic = magic)
    (listed : ¬(num = 0 ∨ (handle p dev).sb.ninodes < num)) (offset : BitVec 32) (size : Nat) :
    CopiesFit (p.zoneBlock (handle p dev)) (inodeAt p (handle p dev) num) offset.toNat
      (want (inodeAt p (handle p dev) num) offset size) size := by
  cases vol with
  | none => exact absurd valid holds
  | some v =>
      have carries : Carries p dev v := holds
      rw [carries.inodes] at listed
      exact copiesFit_of_complete (carries.complete num (by omega) (by omega)) offset size size

theorem readCall_driver {buffer : Nat} (off : OffTable h buffer size)
    (start : InBounds size w.log) {vol : Option Volume}
    (holds : Holds (sealedDriver h env) dev vol) :
    readCall ((driver h env).into buffer) dev num offset size w =
      readCall (sealedDriver h env) dev num offset size w := by
  have mounts : mount ((driver h env).into buffer) dev w = mount (sealedDriver h env) dev w := rfl
  have looks : readInode ((driver h env).into buffer) = readInode (sealedDriver h env) := rfl
  have mounted := start.quiet (mount_quiet (p := sealedDriver h env) dev w)
  unfold readCall
  rw [mounts, looks]
  cases first : mount (sealedDriver h env) dev w with
  | mk w₁ e₁ =>
      rw [first] at mounted
      cases e₁ with
      | returned fs =>
          obtain ⟨rfl, valid⟩ : fs = handle (sealedDriver h env) dev ∧ _ :=
            mount_returned (by rw [first])
          have found := mounted.quiet
            (readInode_quiet (p := sealedDriver h env) (handle (sealedDriver h env) dev) num w₁)
          dsimp only
          cases second : readInode (sealedDriver h env) (handle (sealedDriver h env) dev) num w₁
          with
          | mk w₂ e₂ =>
              rw [second] at found
              cases e₂ with
              | returned node =>
                  obtain ⟨rfl, listed⟩ := readInode_returned (by rw [second])
                  dsimp only
                  rw [readFile_driver off found (holds.fits valid listed offset size)]
              | failed error => rfl
              | overflow => rfl
              | dropPanic => rfl
      | failed error => rfl
      | overflow => rfl
      | dropPanic => rfl

end Call

def letterDisk (offset : Nat) : BitVec 8 :=
  if offset = 1024 then 1
  else if offset = 1048 then 0x5a
  else if offset = 1049 then 0x4d
  else if offset = 2056 then 3
  else if offset = 2072 then 3
  else if 3072 ≤ offset ∧ offset < 3075 then BitVec.ofNat 8 (offset - 3072 + 65)
  else 0

def letterEnvironment : Environment :=
  { quietEnvironment with disk := fun _ => letterDisk }

def letterVolume : Volume := ⟨1, fun _ => [65, 66, 67]⟩

def sixPageHeap : Heap := ⟨0x80000000, 6 * pageSize + 4095⟩

theorem sixPageHeap_pages : (List.replicate 6 (⟨0⟩ : PageDesc)).length = sixPageHeap.pages := rfl

def sixPages : Pages sixPageHeap := ⟨init ⟨List.replicate 6 ⟨0⟩, 0, sixPageHeap_pages⟩, 0, false⟩

theorem sixPages_reached : Reached sixPages ∅ := .boot _ (by decide +kernel)

theorem letterVolume_carries :
    Carries (driver sixPageHeap letterEnvironment) 0 letterVolume := by
  have only : ∀ num, 0 < num → num ≤ letterVolume.inodes → num = 1 := by
    intro num low high
    exact Nat.le_antisymm high low
  have size : (inodeAt (driver sixPageHeap letterEnvironment)
      (handle (driver sixPageHeap letterEnvironment) 0) 1).size.toNat = 3 := by
    decide +kernel
  refine ⟨by decide +kernel, by decide +kernel, ?_, ?_, ?_⟩
  · intro num low high
    rw [only num low high]
    exact size
  · intro num low high b inside
    rw [only num low high] at inside ⊢
    rw [size, blockSize] at inside
    obtain rfl : b = 0 := by omega
    decide +kernel
  · intro num low high k inside
    have bytes : ∀ k : Fin 3, fileByte ((driver sixPageHeap letterEnvironment).zoneBlock
        (handle (driver sixPageHeap letterEnvironment) 0))
        (inodeAt (driver sixPageHeap letterEnvironment)
          (handle (driver sixPageHeap letterEnvironment) 0) 1) k =
        ([65, 66, 67] : List (BitVec 8))[k] := by
      decide +kernel
    rw [only num low high]
    exact bytes ⟨k, inside⟩

def readLetters : Fin 32 → BitVec 64 := fun r =>
  if r.val = 12 then 1 else if r.val = 13 then 0x7ffffff0 else if r.val = 14 then 2
  else if r.val = 15 then 1 else 0

end Vesper.Minix3
