import Vesper.Lib.PathTree
import Vesper.Mm.Sv39Entry

/-!
# Page tables as trees

A page table is a tree when each branch entry leads to its own frame and no frame is
shared or equal to the root.  `tablePath va i` is the path from the root to the level
`i` table that translates `va`.  `leafOf` is the leaf the walk of `va` ends at; `v2p`
only adds the page offset to it.  A store through one entry is invisible to every
address whose walk does not read that entry, because distinct frames are disjoint
pages and distinct paths lead to distinct frames.
-/

set_option autoImplicit false

namespace Vesper.Mm.Sv39

open Vesper.Lib.PathTree
open Vesper.Mm.PageFrame (pageSize pageSize_eq)

def child (m : Mem) (base : Nat) (index : Fin 512) : Option Nat :=
  let e := m (entryAddr base index)
  if isValid e && isBranch e then some (tableOf e) else none

/-- The frames of the tables at levels 2, 1 and 0. -/
def tables (m : Mem) (root : Nat) : Set Nat := Reached (child m) root 2

structure PageTable (m : Mem) (root : Nat) : Prop where
  rootAligned : root % pageSize = 0
  tree : IsTree (child m) root 2
  nonNull : ∀ base ∈ tables m root, base ≠ 0

/-- Labels from the root down to the level `i` table for `va`. -/
def tablePath (va : BitVec 64) (i : Nat) : List (Fin 512) :=
  (List.range (2 - i)).map fun j => vpn va (2 - j)

theorem tablePath_length (va : BitVec 64) (i : Nat) : (tablePath va i).length = 2 - i := by
  simp [tablePath]

theorem tablePath_succ (va : BitVec 64) {i : Nat} (low : i + 1 ≤ 2) :
    tablePath va i = tablePath va (i + 1) ++ [vpn va (i + 1)] := by
  have count : 2 - i = (2 - (i + 1)) + 1 := by omega
  have label : 2 - (2 - (i + 1)) = i + 1 := by omega
  rw [tablePath, count, List.range_succ, List.map_append, List.map_singleton, label]
  rfl

theorem tablePath_above (va : BitVec 64) {i j : Nat} (level : i + j ≤ 2) :
    ∃ rest, tablePath va i = tablePath va (i + j) ++ rest := by
  induction j with
  | zero => exact ⟨[], by simp⟩
  | succ j ih =>
      obtain ⟨rest, path⟩ := ih (by omega)
      refine ⟨vpn va (i + j + 1) :: rest, ?_⟩
      rw [path, tablePath_succ va (by omega), List.append_assoc]
      rfl

theorem exists_table_above {m : Mem} {root : Nat} {va : BitVec 64} {i j : Nat}
    (level : i + j ≤ 2) {base : Nat}
    (atBase : follow (child m) root (tablePath va i) = some base) :
    ∃ upper, follow (child m) root (tablePath va (i + j)) = some upper := by
  obtain ⟨rest, path⟩ := tablePath_above va level
  rw [path, follow_append] at atBase
  obtain ⟨upper, atUpper, _⟩ := Option.bind_eq_some_iff.mp atBase
  exact ⟨upper, atUpper⟩

theorem tables_aligned {m : Mem} {root : Nat} (table : PageTable m root) {base : Nat}
    (member : base ∈ tables m root) : base % pageSize = 0 := by
  obtain ⟨p, _, reaches⟩ := member
  induction p using List.reverseRecOn with
  | nil =>
      rw [follow_nil, Option.some.injEq] at reaches
      rw [← reaches]
      exact table.rootAligned
  | append_singleton p index _ =>
      rw [follow_snoc] at reaches
      obtain ⟨parent, _, pointer⟩ := Option.bind_eq_some_iff.mp reaches
      unfold child at pointer
      simp only at pointer
      split at pointer
      · rw [← Option.some.inj pointer]
        exact tableOf_aligned _
      · simp at pointer

theorem entryAddr_inj {left right : Nat} {i j : Fin 512} (leftAligned : left % pageSize = 0)
    (rightAligned : right % pageSize = 0) (same : entryAddr left i = entryAddr right j) :
    left = right ∧ i = j := by
  have iSmall := i.isLt
  have jSmall := j.isLt
  rw [pageSize_eq] at leftAligned rightAligned
  unfold entryAddr at same
  have bases : left = right := by omega
  exact ⟨bases, Fin.ext (by omega)⟩

/-! ## The walk -/

/-- Level and entry of the leaf that a walk from the level `i` entry at `v` ends at. -/
def leafWalk (m : Mem) (vaddr : BitVec 64) : Nat → Nat → Option (Nat × Entry)
  | i, v =>
      if isInvalid (m v) then none
      else if isLeaf (m v) then some (i, m v)
      else
        match i with
        | 0 => none
        | i' + 1 => leafWalk m vaddr i' (entryAddr (tableOf (m v)) (vpn vaddr i'))

def leafOf (m : Mem) (root : Nat) (vaddr : BitVec 64) : Option (Nat × Entry) :=
  leafWalk m vaddr 2 (entryAddr root (vpn vaddr 2))

section Walk
variable {m m' : Mem} {root : Nat} {va : BitVec 64}

theorem leafWalk_invalid {i v : Nat} (invalid : isValid (m v) = false) :
    leafWalk m va i v = none := by
  rw [leafWalk.eq_def]
  simp [isInvalid, invalid]

theorem leafWalk_leaf {i v : Nat} (valid : isValid (m v) = true) (leaf : isLeaf (m v) = true) :
    leafWalk m va i v = some (i, m v) := by
  rw [leafWalk.eq_def]
  simp [isInvalid, valid, leaf]

theorem leafWalk_branch {i v : Nat} (valid : isValid (m v) = true)
    (branch : isLeaf (m v) = false) :
    leafWalk m va (i + 1) v = leafWalk m va i (entryAddr (tableOf (m v)) (vpn va i)) := by
  rw [leafWalk]
  simp [isInvalid, valid, branch]

theorem child_eq_some {base next : Nat} {index : Fin 512}
    (pointer : child m base index = some next) :
    isValid (m (entryAddr base index)) = true ∧
      isLeaf (m (entryAddr base index)) = false ∧
      tableOf (m (entryAddr base index)) = next := by
  unfold child at pointer
  simp only at pointer
  split at pointer
  · rename_i branch
    rw [Bool.and_eq_true, isBranch, Bool.not_eq_true'] at branch
    exact ⟨branch.1, branch.2, Option.some.inj pointer⟩
  · simp at pointer

theorem child_of_branch {base : Nat} {index : Fin 512}
    (valid : isValid (m (entryAddr base index)) = true)
    (branch : isLeaf (m (entryAddr base index)) = false) :
    child m base index = some (tableOf (m (entryAddr base index))) := by
  simp [child, isBranch, valid, branch]

theorem child_eq_none {base : Nat} {index : Fin 512}
    (notBranch : isValid (m (entryAddr base index)) = true →
      isLeaf (m (entryAddr base index)) = true) : child m base index = none := by
  unfold child
  simp only
  split
  · rename_i branch
    rw [Bool.and_eq_true, isBranch, Bool.not_eq_true'] at branch
    rw [notBranch branch.1] at branch
    simp at branch
  · rfl

theorem child_congr {base : Nat} {index : Fin 512}
    (same : m' (entryAddr base index) = m (entryAddr base index)) :
    child m' base index = child m base index := by
  simp only [child, same]

theorem leafWalk_to_table {i j : Nat} (level : i + j ≤ 2)
    {upper lower : Nat} (atUpper : follow (child m) root (tablePath va (i + j)) = some upper)
    (atLower : follow (child m) root (tablePath va i) = some lower) :
    leafWalk m va (i + j) (entryAddr upper (vpn va (i + j))) =
      leafWalk m va i (entryAddr lower (vpn va i)) := by
  induction j generalizing upper with
  | zero =>
      rw [Nat.add_zero] at atUpper ⊢
      rw [Option.some.inj (atUpper.symm.trans atLower)]
  | succ j ih =>
      have path := tablePath_succ va (i := i + j) (by omega)
      -- the lower table lies below this one, so the entry read here is a branch
      obtain ⟨next, atNext⟩ := exists_table_above (j := j) (by omega) atLower
      have below := atNext
      rw [path, follow_snoc, show i + j + 1 = i + (j + 1) by omega, atUpper,
        Option.bind_some] at below
      obtain ⟨valid, branch, pointer⟩ := child_eq_some below
      rw [show i + (j + 1) = (i + j) + 1 by omega] at valid branch pointer ⊢
      rw [leafWalk_branch valid branch, pointer]
      exact ih (by omega) atNext

theorem leafOf_at_table {i : Nat} (level : i ≤ 2) {base : Nat}
    (atBase : follow (child m) root (tablePath va i) = some base) :
    leafOf m root va = leafWalk m va i (entryAddr base (vpn va i)) := by
  have split : i + (2 - i) = 2 := by omega
  have top : follow (child m) root (tablePath va (i + (2 - i))) = some root := by
    rw [split]
    rfl
  have walked := leafWalk_to_table (j := 2 - i) (by omega) top atBase
  rw [split] at walked
  exact walked

theorem leafWalk_congr {i : Nat} (level : i ≤ 2)
    (same : ∀ j ≤ i, ∀ base, follow (child m) root (tablePath va j) = some base →
      m' (entryAddr base (vpn va j)) = m (entryAddr base (vpn va j)))
    {base : Nat} (atBase : follow (child m) root (tablePath va i) = some base) :
    leafWalk m' va i (entryAddr base (vpn va i)) =
      leafWalk m va i (entryAddr base (vpn va i)) := by
  induction i generalizing base with
  | zero =>
      have entry := same 0 (le_refl 0) base atBase
      rw [leafWalk, leafWalk, entry]
  | succ i ih =>
      have entry := same (i + 1) (le_refl _) base atBase
      rw [leafWalk, leafWalk, entry]
      split
      · rfl
      · split
        · rfl
        · rename_i valid notLeaf
          apply ih (by omega) fun j small => same j (by omega)
          rw [tablePath_succ va (by omega), follow_snoc, atBase, Option.bind_some]
          apply child_of_branch
          · simpa [isInvalid] using valid
          · simpa using notLeaf

theorem leafOf_congr
    (same : ∀ j ≤ 2, ∀ base, follow (child m) root (tablePath va j) = some base →
      m' (entryAddr base (vpn va j)) = m (entryAddr base (vpn va j))) :
    leafOf m' root va = leafOf m root va :=
  leafWalk_congr (le_refl 2) same rfl

/-- In a page table `v2p` never meets a null pointer. -/
theorem walk_eq_leafWalk (table : PageTable m root) {i base : Nat} (level : i ≤ 2)
    (atBase : follow (child m) root (tablePath va i) = some base) :
    walk m va i (entryAddr base (vpn va i)) =
      .ok ((leafWalk m va i (entryAddr base (vpn va i))).map
        fun leaf => leafAddress leaf.1 leaf.2 va) := by
  induction i generalizing base with
  | zero =>
      rw [walk, leafWalk]
      split
      · rfl
      · split <;> rfl
  | succ i ih =>
      rw [walk, leafWalk]
      split
      · rfl
      · split
        · rfl
        · rename_i valid notLeaf
          have atNext : follow (child m) root (tablePath va i) =
              some (tableOf (m (entryAddr base (vpn va (i + 1))))) := by
            rw [tablePath_succ va (by omega), follow_snoc, atBase, Option.bind_some]
            apply child_of_branch
            · simpa [isInvalid] using valid
            · simpa using notLeaf
          have inTables : tableOf (m (entryAddr base (vpn va (i + 1)))) ∈ tables m root :=
            follow_mem_reached (by rw [tablePath_length]; omega) atNext
          have nonNull := table.nonNull _ inTables
          have next : entryAddr (tableOf (m (entryAddr base (vpn va (i + 1))))) (vpn va i) ≠ 0 := by
            unfold entryAddr at nonNull ⊢
            omega
          simp only [if_neg next]
          exact ih (by omega) atNext

theorem v2p_eq_leafOf (table : PageTable m root) (va : BitVec 64) :
    v2p m root va = .ok ((leafOf m root va).map fun leaf => leafAddress leaf.1 leaf.2 va) :=
  walk_eq_leafWalk table (le_refl 2) rfl

end Walk

end Vesper.Mm.Sv39
