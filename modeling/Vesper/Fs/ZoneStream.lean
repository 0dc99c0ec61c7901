import Mathlib.Tactic
import Vesper.Lib.EarlyExit
import Vesper.Fs.Minix3

/-!
# The zone walk as one stream

`read_file` nests four regimes of loops around one call of `copy_zone`.  `stream` lists
what those loops do for a given disk and inode, in order: the indirect blocks they load
and the data pointers they visit, each with the block index the walk gives it.
`walkZones_eq` replaces the loops by one pass over that list.
-/

set_option autoImplicit false

namespace Vesper.Minix3

open Vesper.Lib.EarlyExit

inductive Item where
  | load (zone : Nat)
  | slot (pos : Pos) (zone block : Nat)
  deriving DecidableEq, Repr

def subtree (read : Nat → Block) (zone : Nat) (items : Nat → Nat → List Item) : List Item :=
  if zone = 0 then []
  else .load zone ::
    (List.range' 0 indirectPtrsPerBlock).flatMap fun i => items i (ptr (read zone) i)

def directItems (inode : Inode) : List Item :=
  (List.range' 0 numDirectZones).flatMap fun i => [.slot (.direct i) (inode.zone i) i]

def singleItems (read : Nat → Block) (inode : Inode) : List Item :=
  subtree read (inode.zone numDirectZones) fun i z => [.slot (.single i) z (7 + i)]

def doubleItems (read : Nat → Block) (inode : Inode) : List Item :=
  subtree read (inode.zone (numDirectZones + 1)) fun i dz => subtree read dz fun j z =>
    [.slot (.double i j) z (263 + i * 256 + j)]

/-- The block index at which the triple indirect walk starts: a missing double indirect
block has not been skipped. -/
def tripleBase (inode : Inode) : Nat :=
  if inode.zone (numDirectZones + 1) = 0 then 263 else 263 + 65536

def tripleItems (read : Nat → Block) (inode : Inode) : List Item :=
  subtree read (inode.zone (numDirectZones + 2)) fun i tz => subtree read tz fun j dz =>
    subtree read dz fun k z =>
      [.slot (.triple i j k) z (tripleBase inode + i * 65536 + j * 256 + k)]

def stream (read : Nat → Block) (inode : Inode) : List Item :=
  directItems inode ++ singleItems read inode ++ doubleItems read inode ++
    tripleItems read inode

variable {σ : Type} {p : Platform σ} {fs : Fs} {stop : Nat}

def Platform.zoneBlock (p : Platform σ) (fs : Fs) (zone : Nat) : Block :=
  p.block fs.dev (zone * blockSize)

def act (p : Platform σ) (fs : Fs) (stop : Nat) : Item → Vars σ → Vars σ × Option (Exit Nat)
  | .load zone => readIndirectZone p fs zone
  | .slot pos zone block => visitZone p fs stop pos zone (block * blockSize)

/-- The walk stands at file block `block` with the given indirect buffers, and the
window is not finished. -/
structure Ready (stop block : Nat) (ind dind tind : Block) (st : Locals σ) : Prop where
  logical : st.logical = block * blockSize
  open_ : st.vars.curOffset < stop
  indBuf : st.indBuf = ind
  dindBuf : st.dindBuf = dind
  tindBuf : st.tindBuf = tind

theorem copyChunk_continue {logical : Nat} {v v' : Vars σ}
    (result : copyChunk p stop logical v = (v', .ok true)) : v'.curOffset < stop := by
  unfold copyChunk at result
  split at result
  · simp at result
  · split at result
    · simp only [Prod.mk.injEq, Except.ok.injEq, decide_eq_true_eq] at result
      obtain ⟨rfl, before⟩ := result
      exact before
    · simp at result

theorem copyZone_continue {pos : Pos} {zone logical : Nat} {v v' : Vars σ}
    (before : v.curOffset < stop)
    (result : copyZone p fs stop pos zone logical v = (v', .ok true)) :
    v'.curOffset < stop := by
  unfold copyZone at result
  simp only at result
  split_ifs at result with hole early
  · simp only [Prod.mk.injEq, Except.ok.injEq, decide_eq_true_eq] at result
    obtain ⟨rfl, room⟩ := result
    exact room
  · simp only [Prod.mk.injEq, and_true] at result
    subst result
    exact before
  · split at result
    · simp at result
    · exact copyChunk_continue result

theorem visitZone_continue {pos : Pos} {zone logical : Nat} {v v' : Vars σ}
    (result : visitZone p fs stop pos zone logical v = (v', none)) : v'.curOffset < stop := by
  unfold visitZone at result
  split_ifs at result with full
  · simp at result
  · split at result
    · simp at result
    · simp at result
    · next called =>
        simp only [Prod.mk.injEq, and_true] at result
        subst result
        exact copyZone_continue (by omega) called

theorem readIndirectZone_cursor (p : Platform σ) (fs : Fs) (zone : Nat) (v : Vars σ) :
    (readIndirectZone p fs zone v).1.curOffset = v.curOffset := by
  unfold readIndirectZone
  split <;> rfl

theorem runAll_singleton (item : Item) (v : Vars σ) :
    runAll (act p fs stop) [item] v = act p fs stop item v := by
  simp only [runAll]
  cases result : act p fs stop item v with
  | mk v' out => cases out <;> rfl

theorem zoneStep_agrees {pos : Pos} {zone block : Nat} {b d t : Block} {st : Locals σ}
    (ready : Ready stop block b d t st) :
    Agrees (act p fs stop) Locals.vars (zoneStep p fs stop pos zone st)
      [.slot pos zone block] st.vars (Ready stop (block + 1) b d t) := by
  have same : runAll (act p fs stop) [.slot pos zone block] st.vars =
      visitZone p fs stop pos zone st.logical st.vars := by
    rw [runAll_singleton, act, ready.logical]
  unfold zoneStep
  cases result : visitZone p fs stop pos zone st.logical st.vars with
  | mk v out =>
      cases out with
      | none =>
          refine ⟨same.trans result, ?_, visitZone_continue result, ready.indBuf,
            ready.dindBuf, ready.tindBuf⟩
          simp only [Locals.skip, ready.logical]
          ring
      | some e => exact same.trans result

theorem loadStep_agrees {zone : Nat} (into : Scratch) {st : Locals σ} {Q : Locals σ → Prop}
    (filled : ∀ v, v.curOffset = st.vars.curOffset →
      Q ({ st with vars := v }.fill (p.zoneBlock fs zone) into)) :
    Agrees (act p fs stop) Locals.vars (loadStep p fs into zone st) [.load zone] st.vars
      Q := by
  have cursor := readIndirectZone_cursor p fs zone st.vars
  have same : runAll (act p fs stop) [.load zone] st.vars =
      readIndirectZone p fs zone st.vars := runAll_singleton _ _
  unfold loadStep
  cases result : readIndirectZone p fs zone st.vars with
  | mk v out =>
      rw [result] at cursor
      cases out with
      | none =>
          refine ⟨?_, filled v cursor⟩
          rw [same, result]
          cases into <;> rfl
      | some e => exact same.trans result

/-- An indirect block that is present: load it, then loop over its entries. -/
theorem subtree_agrees (into : Scratch) {zone : Nat} {st : Locals σ}
    {body : Nat → Locals σ → Step (Locals σ) (Exit Nat)} {items : Nat → Nat → List Item}
    (inv : Nat → Locals σ → Prop) (present : zone ≠ 0)
    (filled : ∀ v, v.curOffset = st.vars.curOffset →
      inv 0 ({ st with vars := v }.fill (p.zoneBlock fs zone) into))
    (each : ∀ i s, inv i s →
      Agrees (act p fs stop) Locals.vars (body i s)
        (items i (ptr (p.zoneBlock fs zone) i)) s.vars (inv (i + 1))) :
    Agrees (act p fs stop) Locals.vars
      ((loadStep p fs into zone st).andThen (forRange body 0 indirectPtrsPerBlock))
      (subtree (p.zoneBlock fs) zone items) st.vars (inv indirectPtrsPerBlock) := by
  have loop (s : Locals σ) (start : inv 0 s) : Agrees (act p fs stop) Locals.vars
      (forRange body 0 indirectPtrsPerBlock s)
      ((List.range' 0 indirectPtrsPerBlock).flatMap fun i =>
        items i (ptr (p.zoneBlock fs zone) i)) s.vars (inv (0 + indirectPtrsPerBlock)) :=
    Agrees.forRange inv (fun i s _ _ => each i s) start
  rw [Nat.zero_add] at loop
  rw [subtree, if_neg present]
  exact (loadStep_agrees into filled).andThen loop

theorem leaf_agrees {zone base : Nat} (pos : Nat → Pos) {b d t : Block} {st : Locals σ}
    (present : zone ≠ 0) (ready : Ready stop base b d t st) :
    Agrees (act p fs stop) Locals.vars
      ((loadStep p fs .ind zone st).andThen (indirectPtrs p fs stop pos))
      (subtree (p.zoneBlock fs) zone fun i z => [.slot (pos i) z (base + i)]) st.vars
      (Ready stop (base + 256) (p.zoneBlock fs zone) d t) := by
  apply subtree_agrees .ind (fun i => Ready stop (base + i) (p.zoneBlock fs zone) d t) present
  · intro v cursor
    exact ⟨ready.logical, cursor ▸ ready.open_, rfl, ready.dindBuf, ready.tindBuf⟩
  · intro i s at_
    rw [at_.indBuf]
    exact zoneStep_agrees at_

theorem Ready.skip {block n : Nat} {b d t : Block} {st : Locals σ}
    (ready : Ready stop block b d t st) : Ready stop (block + n) b d t (st.skip n) := by
  refine ⟨?_, ready.open_, ready.indBuf, ready.dindBuf, ready.tindBuf⟩
  simp only [Locals.skip, ready.logical]
  ring

theorem skip_agrees {block n : Nat} {b d t : Block} {st : Locals σ}
    {items : Nat → Nat → List Item} (ready : Ready stop block b d t st) :
    Agrees (act p fs stop) Locals.vars (.next (st.skip n))
      (subtree (p.zoneBlock fs) 0 items) st.vars (Ready stop (block + n) b d t) := by
  rw [subtree, if_pos rfl]
  exact Agrees.skip rfl ready.skip

theorem directZones_agrees (inode : Inode) {b d t : Block} {st : Locals σ}
    (ready : Ready stop 0 b d t st) :
    Agrees (act p fs stop) Locals.vars (directZones p fs inode stop st) (directItems inode)
      st.vars (Ready stop 7 b d t) := by
  refine Agrees.forRange (fun i => Ready stop i b d t) ?_ ready
  intro i s _ _ at_
  exact zoneStep_agrees at_

theorem singleIndirect_agrees (inode : Inode) {b d t : Block} {st : Locals σ}
    (ready : Ready stop 7 b d t st) :
    Agrees (act p fs stop) Locals.vars (singleIndirect p fs inode stop st)
      (singleItems (p.zoneBlock fs) inode) st.vars
      (fun st' => ∃ b', Ready stop 263 b' d t st') := by
  unfold singleIndirect singleItems
  dsimp only
  by_cases absent : inode.zone numDirectZones = 0
  · rw [if_neg (fun both => both.2 absent), absent]
    exact (skip_agrees ready).mono fun _ at_ => ⟨b, at_⟩
  · rw [if_pos ⟨ready.open_, absent⟩]
    exact (leaf_agrees .single absent ready).mono fun _ at_ => ⟨_, at_⟩

theorem doubleIndirect_agrees (inode : Inode) {b d t : Block} {st : Locals σ}
    (ready : Ready stop 263 b d t st) :
    Agrees (act p fs stop) Locals.vars (doubleIndirect p fs inode stop st)
      (doubleItems (p.zoneBlock fs) inode) st.vars
      (fun st' => ∃ b' d', Ready stop (tripleBase inode) b' d' t st') := by
  unfold doubleIndirect doubleItems tripleBase
  dsimp only
  by_cases absent : inode.zone (numDirectZones + 1) = 0
  · rw [if_neg (fun both => both.2 absent), absent, subtree, if_pos rfl, if_pos rfl]
    exact Agrees.skip rfl ⟨b, d, ready⟩
  · rw [if_pos ⟨ready.open_, absent⟩, if_neg absent]
    refine (subtree_agrees .dind (fun i st => ∃ b', Ready stop (263 + i * 256) b'
      (p.zoneBlock fs (inode.zone (numDirectZones + 1))) t st) absent ?_ ?_).mono
        fun _ ⟨b', at_⟩ => ⟨b', _, at_⟩
    · intro v cursor
      exact ⟨b, ready.logical, cursor ▸ ready.open_, ready.indBuf, rfl, ready.tindBuf⟩
    · intro i s ⟨b', at_⟩
      have next : 263 + i * 256 + 256 = 263 + (i + 1) * 256 := by ring
      simp only [at_.dindBuf, ← next]
      split_ifs with zero full
      · exact absurd at_.open_ (not_lt.mpr full)
      · rw [zero]
        exact (skip_agrees at_).mono fun _ done => ⟨b', done⟩
      · exact (leaf_agrees (.double i) zero at_).mono fun _ done => ⟨_, done⟩

/-- One entry of the triple indirect block that is present: the double loop below it. -/
theorem tripleEntry_agrees {tz base : Nat} (i : Nat) {b d t : Block} {st : Locals σ}
    (present : tz ≠ 0) (ready : Ready stop base b d t st) :
    Agrees (act p fs stop) Locals.vars
      ((loadStep p fs .dind tz st).andThen <|
        forRange (fun j st =>
          let dz := ptr st.dindBuf j
          if dz = 0 then .next (st.skip indirectPtrsPerBlock)
          else (loadStep p fs .ind dz st).andThen (indirectPtrs p fs stop (.triple i j)))
          0 indirectPtrsPerBlock)
      (subtree (p.zoneBlock fs) tz fun j dz => subtree (p.zoneBlock fs) dz fun k z =>
        [.slot (.triple i j k) z (base + j * 256 + k)]) st.vars
      (fun st' => ∃ b' d', Ready stop (base + 65536) b' d' t st') := by
  refine (subtree_agrees .dind (fun j st => ∃ b', Ready stop (base + j * 256) b'
    (p.zoneBlock fs tz) t st) present ?_ ?_).mono fun _ ⟨b', at_⟩ => ⟨b', _, at_⟩
  · intro v cursor
    exact ⟨b, by rw [Nat.zero_mul]; exact ready.logical, cursor ▸ ready.open_, ready.indBuf, rfl,
      ready.tindBuf⟩
  · intro j s ⟨b', at_⟩
    have next : base + j * 256 + 256 = base + (j + 1) * 256 := by ring
    simp only [at_.dindBuf, ← next]
    split_ifs with zero
    · rw [zero]
      exact (skip_agrees at_).mono fun _ done => ⟨b', done⟩
    · exact (leaf_agrees (.triple i j) zero at_).mono fun _ done => ⟨_, done⟩

theorem tripleIndirect_agrees (inode : Inode) {b d t : Block} {st : Locals σ}
    (ready : Ready stop (tripleBase inode) b d t st) :
    Agrees (act p fs stop) Locals.vars (tripleIndirect p fs inode stop st)
      (tripleItems (p.zoneBlock fs) inode) st.vars (fun st' => st'.vars.curOffset < stop) := by
  unfold tripleIndirect tripleItems
  dsimp only
  by_cases absent : inode.zone (numDirectZones + 2) = 0
  · rw [if_neg (fun both => both.2 absent), absent, subtree, if_pos rfl]
    exact Agrees.skip rfl ready.open_
  · rw [if_pos ⟨ready.open_, absent⟩]
    refine (subtree_agrees .tind (fun i st => ∃ b' d', Ready stop
      (tripleBase inode + i * 65536) b' d' (p.zoneBlock fs (inode.zone (numDirectZones + 2)))
        st) absent ?_ ?_).mono fun _ ⟨_, _, at_⟩ => at_.open_
    · intro v cursor
      exact ⟨b, d, by rw [Nat.zero_mul]; exact ready.logical, cursor ▸ ready.open_, ready.indBuf,
        ready.dindBuf, rfl⟩
    · intro i s ⟨b', d', at_⟩
      have next : tripleBase inode + i * 65536 + 65536 =
          tripleBase inode + (i + 1) * 65536 := by ring
      simp only [at_.tindBuf, ← next]
      split_ifs with zero full
      · exact absurd at_.open_ (not_lt.mpr full)
      · rw [zero]
        exact (skip_agrees at_).mono fun _ done => ⟨b', d', done⟩
      · exact tripleEntry_agrees i zero at_

def settle : Vars σ × Option (Exit Nat) → World σ × Exit Nat
  | (v, none) => (v.world, .returned v.written)
  | (v, some e) => (v.world, e)

theorem settle_world (r : Vars σ × Option (Exit Nat)) : (settle r).1 = r.1.world := by
  obtain ⟨v, e⟩ := r
  cases e with
  | none => rfl
  | some e => rfl

theorem walkZones_eq (inode : Inode) {offset : Nat} (before : offset < stop) (w : World σ) :
    walkZones p fs inode offset stop w =
      settle (runAll (act p fs stop) (stream (p.zoneBlock fs) inode)
        ⟨w, offset, 0, p.stale⟩) := by
  have start : Ready stop 0 p.stale p.stale p.stale
      (⟨⟨w, offset, 0, p.stale⟩, 0, p.stale, p.stale, p.stale⟩ : Locals σ) :=
    ⟨rfl, before, rfl, rfl, rfl⟩
  have agrees : Agrees (act p fs stop) Locals.vars (allZones p fs inode stop _)
      (stream (p.zoneBlock fs) inode) _ _ :=
    (((directZones_agrees inode start).andThen
      fun _ at_ => singleIndirect_agrees inode at_).andThen
        fun _ ⟨_, at_⟩ => doubleIndirect_agrees inode at_).andThen
          fun _ ⟨_, _, at_⟩ => tripleIndirect_agrees inode at_
  unfold walkZones
  cases walked : allZones p fs inode stop
      ⟨⟨w, offset, 0, p.stale⟩, 0, p.stale, p.stale, p.stale⟩ with
  | next st =>
      rw [walked] at agrees
      rw [agrees.1]
      rfl
  | brk st =>
      rw [walked] at agrees
      exact absurd agrees id
  | exit st e =>
      rw [walked] at agrees
      exact (congrArg settle agrees).symm

end Vesper.Minix3
