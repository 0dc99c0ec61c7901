import Mathlib.Data.Finset.Basic
import Mathlib.Order.Interval.Finset.Nat
import Mathlib.Tactic

/-!
# First-fit allocation of contiguous runs

An abstract allocator over cells `0 .. n - 1`.  A pool is a finite set of live
runs; its fields say that runs are nonempty, stay below `n` and are pairwise
disjoint, so a pool with overlapping runs cannot be written down.  Allocation
takes the lowest window that meets no live run.  Nothing here says how a run is
stored.
-/

set_option autoImplicit false

namespace Vesper.Lib.FirstFit

structure Run where
  start : Nat
  len : Nat
  deriving DecidableEq, Repr

def Run.cells (r : Run) : Finset Nat := Finset.Ico r.start (r.start + r.len)

def Run.final (r : Run) : Nat := r.start + r.len - 1

theorem Run.mem_cells {r : Run} {i : Nat} :
    i ∈ r.cells ↔ r.start ≤ i ∧ i < r.start + r.len := by
  simp [Run.cells]

theorem Run.start_mem {r : Run} (nonempty : 0 < r.len) : r.start ∈ r.cells := by
  rw [Run.mem_cells]
  omega

theorem Run.final_mem {r : Run} (nonempty : 0 < r.len) : r.final ∈ r.cells := by
  rw [Run.mem_cells, Run.final]
  omega

structure Pool (n : Nat) where
  live : Finset Run
  nonempty : ∀ r ∈ live, 0 < r.len
  bounded : ∀ r ∈ live, r.start + r.len ≤ n
  disjoint : ∀ r ∈ live, ∀ s ∈ live, r ≠ s → Disjoint r.cells s.cells

namespace Pool

variable {n : Nat}

def empty : Pool n where
  live := ∅
  nonempty := by simp
  bounded := by simp
  disjoint := by simp

/-- `k` cells from `i` lie below `n` and meet no live run. -/
def Window (pool : Pool n) (k i : Nat) : Prop :=
  i + k ≤ n ∧ ∀ r ∈ pool.live, Disjoint (Run.mk i k).cells r.cells

/-- `i` starts the lowest window of `k` cells. -/
def IsFirstFit (pool : Pool n) (k i : Nat) : Prop :=
  IsLeast {j | pool.Window k j} i

theorem window_iff {pool : Pool n} {k i : Nat} :
    pool.Window k i ↔
      i + k ≤ n ∧ ∀ j, i ≤ j → j < i + k → ∀ r ∈ pool.live, j ∉ r.cells := by
  unfold Window
  refine and_congr_right fun _ => ?_
  constructor
  · intro apart j low high r member inside
    exact Finset.disjoint_left.mp (apart r member)
      (Run.mem_cells.mpr ⟨low, high⟩) inside
  · intro apart r member
    rw [Finset.disjoint_left]
    intro j inside
    obtain ⟨low, high⟩ := Run.mem_cells.mp inside
    exact apart j low high r member

def take (pool : Pool n) (k i : Nat) (pos : 0 < k) (window : pool.Window k i) :
    Pool n where
  live := insert ⟨i, k⟩ pool.live
  nonempty := by
    intro r member
    rcases Finset.mem_insert.mp member with rfl | member
    · exact pos
    · exact pool.nonempty r member
  bounded := by
    intro r member
    rcases Finset.mem_insert.mp member with rfl | member
    · exact window.1
    · exact pool.bounded r member
  disjoint := by
    intro r rMember s sMember different
    rcases Finset.mem_insert.mp rMember with rfl | rMember
    · rcases Finset.mem_insert.mp sMember with rfl | sMember
      · exact absurd rfl different
      · exact window.2 s sMember
    · rcases Finset.mem_insert.mp sMember with rfl | sMember
      · exact (window.2 r rMember).symm
      · exact pool.disjoint r rMember s sMember different

def release (pool : Pool n) (r : Run) : Pool n where
  live := pool.live.erase r
  nonempty s member := pool.nonempty s (Finset.mem_of_mem_erase member)
  bounded s member := pool.bounded s (Finset.mem_of_mem_erase member)
  disjoint s sMember t tMember :=
    pool.disjoint s (Finset.mem_of_mem_erase sMember) t
      (Finset.mem_of_mem_erase tMember)

@[simp] theorem take_live (pool : Pool n) (k i : Nat) (pos : 0 < k)
    (window : pool.Window k i) :
    (pool.take k i pos window).live = insert ⟨i, k⟩ pool.live := rfl

@[simp] theorem release_live (pool : Pool n) (r : Run) :
    (pool.release r).live = pool.live.erase r := rfl

theorem eq_of_live {pool pool' : Pool n} (same : pool.live = pool'.live) : pool = pool' := by
  cases pool
  cases pool'
  cases same
  rfl

theorem run_unique (pool : Pool n) {r s : Run} {i : Nat} (rMember : r ∈ pool.live)
    (sMember : s ∈ pool.live) (inR : i ∈ r.cells) (inS : i ∈ s.cells) : r = s := by
  by_contra different
  exact Finset.disjoint_left.mp (pool.disjoint r rMember s sMember different) inR inS

theorem run_eq_of_start (pool : Pool n) {r s : Run} (rMember : r ∈ pool.live)
    (sMember : s ∈ pool.live) (same : r.start = s.start) : r = s := by
  apply pool.run_unique rMember sMember (Run.start_mem (pool.nonempty r rMember))
  rw [same]
  exact Run.start_mem (pool.nonempty s sMember)

/-- Live runs of one length need as many cells as they have together. -/
theorem card_mul_le (pool : Pool n) {runs : Finset Run} (live : runs ⊆ pool.live) {k : Nat}
    (length : ∀ r ∈ runs, r.len = k) : runs.card * k ≤ n := by
  have cells : ∀ r ∈ runs, r.cells.card = k := by
    intro r member
    rw [Run.cells, Nat.card_Ico, length r member, Nat.add_sub_cancel_left]
  have apart : (runs : Set Run).PairwiseDisjoint Run.cells := fun r rMember s sMember =>
    pool.disjoint r (live rMember) s (live sMember)
  have below : runs.biUnion Run.cells ⊆ Finset.range n := by
    intro i member
    obtain ⟨r, inRuns, inside⟩ := Finset.mem_biUnion.mp member
    have bound := pool.bounded r (live inRuns)
    rw [Run.mem_cells] at inside
    exact Finset.mem_range.mpr (by omega)
  calc runs.card * k = ∑ r ∈ runs, r.cells.card := by
        rw [Finset.sum_congr rfl cells, Finset.sum_const, smul_eq_mul]
    _ = (runs.biUnion Run.cells).card := (Finset.card_biUnion apart).symm
    _ ≤ (Finset.range n).card := Finset.card_le_card below
    _ = n := Finset.card_range n

def Below (pool : Pool n) (k : Nat) : Prop := ∀ r ∈ pool.live, r.start + r.len ≤ k

theorem Below.window {pool : Pool n} {k count : Nat} (below : pool.Below k)
    (room : k + count ≤ n) : pool.Window count k := by
  rw [window_iff]
  refine ⟨room, fun j low _ r member inside => ?_⟩
  have bound := below r member
  rw [Run.mem_cells] at inside
  omega

/-- First fit keeps the live runs at the low end. -/
theorem Below.take {pool : Pool n} {k count i : Nat} (below : pool.Below k)
    (room : k + count ≤ n) (pos : 0 < count) (fit : pool.IsFirstFit count i) :
    (pool.take count i pos fit.1).Below (k + count) := by
  have least : i ≤ k := fit.2 (below.window room)
  intro r member
  rcases Finset.mem_insert.mp member with rfl | member
  · exact Nat.add_le_add_right least count
  · exact (below r member).trans (Nat.le_add_right k count)

def free (pool : Pool n) : Finset Nat := Finset.range n \ pool.live.biUnion Run.cells

theorem mem_free {pool : Pool n} {i : Nat} :
    i ∈ pool.free ↔ i < n ∧ ∀ r ∈ pool.live, i ∉ r.cells := by
  simp [free]

theorem free_card (pool : Pool n) : pool.free.card + ∑ r ∈ pool.live, r.len = n := by
  have inside : pool.live.biUnion Run.cells ⊆ Finset.range n := by
    intro i member
    obtain ⟨r, live, inRun⟩ := Finset.mem_biUnion.mp member
    have bound := pool.bounded r live
    rw [Run.mem_cells] at inRun
    exact Finset.mem_range.mpr (by omega)
  have apart : (pool.live : Set Run).PairwiseDisjoint Run.cells := fun r rMember s sMember =>
    pool.disjoint r rMember s sMember
  have size : (pool.live.biUnion Run.cells).card = ∑ r ∈ pool.live, r.len := by
    rw [Finset.card_biUnion apart]
    refine Finset.sum_congr rfl fun r _ => ?_
    rw [Run.cells, Nat.card_Ico, Nat.add_sub_cancel_left]
  rw [free, ← size, Finset.card_sdiff_add_card_eq_card inside, Finset.card_range]

theorem window_one {pool : Pool n} {i : Nat} : pool.Window 1 i ↔ i ∈ pool.free := by
  rw [window_iff, mem_free]
  constructor
  · intro window
    exact ⟨window.1, window.2 i le_rfl (Nat.lt_succ_self i)⟩
  · intro free
    refine ⟨free.1, fun j low high => ?_⟩
    obtain rfl : j = i := by omega
    exact free.2

theorem free_take {pool : Pool n} {i : Nat} (window : pool.Window 1 i) :
    (pool.take 1 i Nat.one_pos window).free.card + 1 = pool.free.card := by
  have fresh : (⟨i, 1⟩ : Run) ∉ pool.live := by
    intro live
    exact (mem_free.mp (window_one.mp window)).2 _ live (Run.start_mem Nat.one_pos)
  have before := pool.free_card
  have after := (pool.take 1 i Nat.one_pos window).free_card
  rw [take_live, Finset.sum_insert fresh] at after
  dsimp only at after
  omega

end Pool

end Vesper.Lib.FirstFit
