import Vesper.Mm.Sv39Tree

/-!
# Correctness and frame of `map`

`map` is at most two on-demand extensions followed by one leaf store.  An extension
hangs a zeroed frame under an invalid entry and changes no leaf; the leaf store changes
exactly the leaves of the addresses that share the page number bits of `vaddr` above the
leaf's level.  `map_outcome` says so for any assertion about the tree and the allocator
that the extensions keep (`Hosts`).  One such assertion is that the allocator still has
a fresh page for each missing table (`Supplies`); then `map` does not run out.
-/

set_option autoImplicit false

namespace Vesper.Mm.Sv39

open Vesper.Lib.PathTree
open Vesper.Mm.PageFrame (pageSize pageSize_eq)

/-- The next `count` calls of `allocate` succeed, each with an aligned page outside
`used` and the pages handed out before. -/
def Supplies {σ : Type} (allocate : σ → Option (Nat × σ)) : Nat → σ → Set Nat → Prop
  | 0, _, _ => True
  | count + 1, s, used =>
      ∃ page s', allocate s = some (page, s') ∧ page % pageSize = 0 ∧ page ≠ 0 ∧
        page < 2 ^ 64 ∧ page ∉ used ∧ Supplies allocate count s' (insert page used)

/-- Entries on the path of `va` above `level` are invalid or branches, and the target
entry is no branch. -/
structure PathClear (m : Mem) (root : Nat) (va : BitVec 64) (level : Nat) : Prop where
  above : ∀ i, level < i → i ≤ 2 → ∀ base,
    follow (child m) root (tablePath va i) = some base →
    isValid (m (entryAddr base (vpn va i))) = true →
    isLeaf (m (entryAddr base (vpn va i))) = false
  target : ∀ base, follow (child m) root (tablePath va level) = some base →
    isValid (m (entryAddr base (vpn va level))) = true →
    isLeaf (m (entryAddr base (vpn va level))) = true

def SamePage (level : Nat) (va va' : BitVec 64) : Prop :=
  ∀ b, 12 + 9 * level ≤ b → b ≤ 38 → va.getLsbD b = va'.getLsbD b

def LeafLevel (m : Mem) (root : Nat) : Prop :=
  ∀ i j base, follow (child m) root [i, j] = some base → ∀ k, child m base k = none

section Supply
variable {σ : Type} {allocate : σ → Option (Nat × σ)}

theorem Supplies.of_le {count fewer : Nat} {s : σ} {used : Set Nat} (le : fewer ≤ count)
    (supplies : Supplies allocate count s used) : Supplies allocate fewer s used := by
  induction count generalizing fewer s used with
  | zero =>
      obtain rfl : fewer = 0 := by omega
      exact supplies
  | succ count ih =>
      obtain ⟨page, s', call, aligned, nonNull, small, fresh, rest⟩ := supplies
      cases fewer with
      | zero => trivial
      | succ fewer =>
          exact ⟨page, s', call, aligned, nonNull, small, fresh, ih (by omega) rest⟩

end Supply

section Same
variable {level : Nat} {va va' : BitVec 64}

theorem samePage_iff (small : level ≤ 2) :
    SamePage level va va' ↔ ∀ i, level ≤ i → i ≤ 2 → vpn va i = vpn va' i := by
  constructor
  · intro same i low high
    rw [vpn_eq_iff high]
    intro b above below
    exact same b (by omega) (by omega)
  · intro same b low high
    have slice : (b - 12) / 9 ≤ 2 := by omega
    have numbers := (vpn_eq_iff slice).mp (same ((b - 12) / 9) (by omega) slice)
    exact numbers b (by omega) (by omega)

theorem SamePage.tablePath_eq (same : SamePage level va va') (small : level ≤ 2) :
    tablePath va level = tablePath va' level := by
  have numbers := (samePage_iff small).mp same
  apply List.map_congr_left
  intro j member
  rw [List.mem_range] at member
  exact numbers (2 - j) (by omega) (by omega)

theorem samePage_of_tablePath (small : level ≤ 2)
    (paths : tablePath va level = tablePath va' level)
    (labels : vpn va level = vpn va' level) : SamePage level va va' := by
  rw [samePage_iff small]
  intro i low high
  by_cases bottom : i = level
  · rw [bottom]
    exact labels
  · have label := congrArg (fun p => p[2 - i]?) paths
    have index : 2 - i < 2 - level := by omega
    have back : 2 - (2 - i) = i := by omega
    simpa [tablePath, index, back] using label

end Same

/-! ## One store -/

section Store
variable {m : Mem} {root : Nat}

theorem table_of_path {va : BitVec 64} {i base : Nat}
    (reaches : follow (child m) root (tablePath va i) = some base) : base ∈ tables m root :=
  follow_mem_reached (by rw [tablePath_length]; omega) reaches

theorem write_same (m : Mem) (addr : Nat) (e : Entry) : m.write addr e addr = e := by
  simp [Mem.write]

theorem write_other (m : Mem) {addr other : Nat} (e : Entry) (different : other ≠ addr) :
    m.write addr e other = m other := by
  simp [Mem.write, different]

/-- A store through an entry of a table is seen by the walk of `va'` only when it reads
that entry. -/
theorem leafOf_write_off (table : PageTable m root) {va va' : BitVec 64} {level base : Nat}
    (small : level ≤ 2) (atBase : follow (child m) root (tablePath va level) = some base)
    (e : Entry) (apart : ¬ SamePage level va va') :
    leafOf (m.write (entryAddr base (vpn va level)) e) root va' = leafOf m root va' := by
  apply leafOf_congr
  intro j low other atOther
  apply write_other
  intro same
  obtain ⟨rfl, labels⟩ := entryAddr_inj (tables_aligned table (table_of_path atOther))
    (tables_aligned table (table_of_path atBase)) same
  have paths : tablePath va' j = tablePath va level :=
    table.tree _ _ other (by rw [tablePath_length]; omega)
      (by rw [tablePath_length]; omega) atOther atBase
  have lengths := congrArg List.length paths
  rw [tablePath_length, tablePath_length] at lengths
  obtain rfl : j = level := by omega
  exact apart (samePage_of_tablePath small paths.symm labels.symm)

theorem zeroPage_entry (m : Mem) (page : Nat) (index : Fin 512) :
    m.zeroPage page (entryAddr page index) = 0 := by
  have small := index.isLt
  have inside : page ≤ entryAddr page index ∧ entryAddr page index < page + pageSize := by
    rw [pageSize_eq]
    unfold entryAddr
    omega
  simp [Mem.zeroPage, inside]

theorem zeroPage_other (m : Mem) {page base : Nat} (index : Fin 512)
    (pageAligned : page % pageSize = 0) (baseAligned : base % pageSize = 0)
    (different : base ≠ page) :
    m.zeroPage page (entryAddr base index) = m (entryAddr base index) := by
  have small := index.isLt
  have outside : ¬ (page ≤ entryAddr base index ∧
      entryAddr base index < page + pageSize) := by
    rw [pageSize_eq] at *
    unfold entryAddr
    omega
  simp [Mem.zeroPage, outside]

end Store

theorem isValid_zero : isValid 0 = false := rfl

/-! ## Extending the tree by a zeroed frame -/

/-- A fresh zeroed frame hung under the invalid entry for `va` at level `i + 1`. -/
structure Extension (m : Mem) (root : Nat) (va : BitVec 64) (i base page : Nat) : Prop where
  table : PageTable m root
  level : i + 1 ≤ 2
  atBase : follow (child m) root (tablePath va (i + 1)) = some base
  invalid : isValid (m (entryAddr base (vpn va (i + 1)))) = false
  aligned : page % pageSize = 0
  nonNull : page ≠ 0
  small : page < 2 ^ 64
  fresh : page ∉ tables m root

def extended (m : Mem) (va : BitVec 64) (i base page : Nat) : Mem :=
  (m.zeroPage page).write (entryAddr base (vpn va (i + 1))) (branchTo page)

namespace Extension

variable {m : Mem} {root : Nat} {va : BitVec 64} {i base page : Nat}

theorem base_mem (grown : Extension m root va i base page) : base ∈ tables m root :=
  table_of_path grown.atBase

theorem entry_new (grown : Extension m root va i base page) (index : Fin 512) :
    extended m va i base page (entryAddr page index) = 0 := by
  rw [extended, write_other]
  · exact zeroPage_entry m page index
  · intro same
    have bases := (entryAddr_inj grown.aligned (tables_aligned grown.table grown.base_mem) same).1
    exact grown.fresh (bases ▸ grown.base_mem)

theorem entry_same (grown : Extension m root va i base page) {other : Nat}
    (member : other ∈ tables m root) {index : Fin 512}
    (apart : ¬ (other = base ∧ index = vpn va (i + 1))) :
    extended m va i base page (entryAddr other index) = m (entryAddr other index) := by
  have otherAligned := tables_aligned grown.table member
  rw [extended, write_other]
  · apply zeroPage_other m index grown.aligned otherAligned
    intro same
    exact grown.fresh (same ▸ member)
  · intro same
    exact apart (entryAddr_inj otherAligned (tables_aligned grown.table grown.base_mem) same)

theorem entry_branch (m : Mem) (va : BitVec 64) (i base page : Nat) :
    extended m va i base page (entryAddr base (vpn va (i + 1))) = branchTo page :=
  write_same _ _ _

theorem graft (grown : Extension m root va i base page) :
    Graft (child m) (child (extended m va i base page)) root 2 (tablePath va (i + 1)) base
      (vpn va (i + 1)) page where
  short := by
    rw [tablePath_length]
    omega
  reaches := grown.atBase
  empty := child_eq_none fun valid => by
    rw [grown.invalid] at valid
    exact absurd valid Bool.false_ne_true
  notReached := grown.fresh
  same := fun _ member _ apart => child_congr (grown.entry_same member apart)
  hung := by
    rw [child_of_branch, entry_branch, tableOf_branchTo grown.aligned grown.small]
    · rw [entry_branch]
      exact isValid_branchTo page
    · rw [entry_branch]
      exact isLeaf_branchTo grown.aligned
  childless := fun index => child_eq_none fun valid => by
    rw [grown.entry_new, isValid_zero] at valid
    exact absurd valid Bool.false_ne_true

theorem tables_eq (grown : Extension m root va i base page) :
    tables (extended m va i base page) root = insert page (tables m root) :=
  grown.graft.reached_eq grown.table.tree

theorem pageTable (grown : Extension m root va i base page) :
    PageTable (extended m va i base page) root where
  rootAligned := grown.table.rootAligned
  tree := grown.graft.isTree grown.table.tree
  nonNull := by
    intro other member
    rw [grown.tables_eq] at member
    rcases member with rfl | old
    · exact grown.nonNull
    · exact grown.table.nonNull other old

theorem follow_above (grown : Extension m root va i base page) {p : List (Fin 512)}
    (short : p.length ≤ 1 - i) :
    follow (child (extended m va i base page)) root p = follow (child m) root p := by
  have level := grown.level
  rcases grown.graft.follow_eq grown.table.tree (p := p) (by omega) with ⟨rfl, _⟩ | ⟨_, same⟩
  · rw [List.length_append, tablePath_length, List.length_singleton] at short
    omega
  · exact same

theorem follow_new (grown : Extension m root va i base page) :
    follow (child (extended m va i base page)) root (tablePath va i) = some page := by
  have level := grown.level
  rw [tablePath_succ va level, follow_snoc,
    grown.follow_above (by rw [tablePath_length]; omega), grown.atBase]
  exact grown.graft.hung

theorem leafOf_eq (grown : Extension m root va i base page) (va' : BitVec 64) :
    leafOf (extended m va i base page) root va' = leafOf m root va' := by
  have level := grown.level
  by_cases same : SamePage (i + 1) va va'
  · -- an invalid entry before, a table without entries after
    have paths := same.tablePath_eq level
    have labels := (samePage_iff level).mp same (i + 1) (le_refl _) level
    have atBase' : follow (child m) root (tablePath va' (i + 1)) = some base :=
      paths ▸ grown.atBase
    have atPage : follow (child (extended m va i base page)) root (tablePath va' i) =
        some page := by
      rw [tablePath_succ va' level, ← paths, ← labels, ← tablePath_succ va level]
      exact grown.follow_new
    have before : leafOf m root va' = none := by
      rw [leafOf_at_table level atBase', leafWalk_invalid]
      rw [← labels]
      exact grown.invalid
    rw [before, leafOf_at_table (by omega) atPage, leafWalk_invalid]
    rw [grown.entry_new]
    rfl
  · apply leafOf_congr
    intro j low other atOther
    apply grown.entry_same (table_of_path atOther)
    rintro ⟨rfl, labels⟩
    have paths : tablePath va' j = tablePath va (i + 1) :=
      grown.table.tree _ _ other (by rw [tablePath_length]; omega)
        (by rw [tablePath_length]; omega) atOther grown.atBase
    have lengths := congrArg List.length paths
    rw [tablePath_length, tablePath_length] at lengths
    obtain rfl : j = i + 1 := by omega
    exact same (samePage_of_tablePath level paths.symm labels.symm)

/-- The entries on the path of `va` after the extension: those of the new table are
invalid, the entry above it is the new branch, the others are the old ones. -/
theorem entry_cases (grown : Extension m root va i base page) {j other : Nat} (low : j ≤ 2)
    (atOther : follow (child (extended m va i base page)) root (tablePath va j) =
      some other) :
    isValid (extended m va i base page (entryAddr other (vpn va j))) = false ∨
    (j = i + 1 ∧ extended m va i base page (entryAddr other (vpn va j)) = branchTo page) ∨
    (follow (child m) root (tablePath va j) = some other ∧
      extended m va i base page (entryAddr other (vpn va j)) =
        m (entryAddr other (vpn va j))) := by
  have level := grown.level
  have short : (tablePath va j).length ≤ 2 := by
    rw [tablePath_length]
    omega
  rcases grown.graft.follow_eq grown.table.tree short with ⟨_, atPage⟩ | ⟨_, same⟩
  · rw [atPage, Option.some.injEq] at atOther
    rw [← atOther, grown.entry_new]
    exact .inl rfl
  · rw [same] at atOther
    have member : other ∈ tables m root := follow_mem_reached short atOther
    by_cases here : other = base ∧ vpn va j = vpn va (i + 1)
    · obtain ⟨rfl, labels⟩ := here
      have paths := grown.table.tree _ _ other short (by rw [tablePath_length]; omega)
        atOther grown.atBase
      have lengths := congrArg List.length paths
      rw [tablePath_length, tablePath_length] at lengths
      refine .inr (.inl ⟨by omega, ?_⟩)
      rw [labels]
      exact entry_branch m va i other page
    · exact .inr (.inr ⟨atOther, grown.entry_same member here⟩)

theorem pathClear (grown : Extension m root va i base page) {level : Nat} (low : level ≤ i)
    (clear : PathClear m root va level) :
    PathClear (extended m va i base page) root va level := by
  have top := grown.level
  refine ⟨?_, ?_⟩
  · intro j above high other atOther valid
    rcases grown.entry_cases high atOther with invalid | ⟨_, branch⟩ | ⟨old, same⟩
    · rw [invalid] at valid
      exact absurd valid Bool.false_ne_true
    · rw [branch]
      exact isLeaf_branchTo grown.aligned
    · rw [same] at valid ⊢
      exact clear.above j above high other old valid
  · intro other atOther valid
    rcases grown.entry_cases (by omega) atOther with invalid | ⟨same, _⟩ | ⟨old, same⟩
    · rw [invalid] at valid
      exact absurd valid Bool.false_ne_true
    · omega
    · rw [same] at valid ⊢
      exact clear.target other old valid

theorem leafLevel (grown : Extension m root va i base page) (leaves : LeafLevel m root) :
    LeafLevel (extended m va i base page) root := by
  have level := grown.level
  intro x y other atOther k
  rcases grown.graft.follow_eq grown.table.tree (p := [x, y]) (le_refl 2) with
    ⟨_, atPage⟩ | ⟨_, same⟩
  · rw [atPage, Option.some.injEq] at atOther
    rw [← atOther]
    exact grown.graft.childless k
  · rw [same] at atOther
    rw [grown.graft.same other (follow_mem_reached (le_refl 2) atOther) k]
    · exact leaves x y other atOther k
    · rintro ⟨rfl, _⟩
      have paths := grown.table.tree _ _ other (le_refl 2) (by rw [tablePath_length]; omega)
        atOther grown.atBase
      have lengths := congrArg List.length paths
      rw [tablePath_length] at lengths
      simp only [List.length_cons, List.length_nil] at lengths
      omega

end Extension

/-! ## The loop and the leaf store -/

section Stores
variable {σ : Type} (allocate : σ → Option (Nat × σ))

/-- Addresses of the entries that the loop of `map` from iteration `i` on and the leaf
store behind it call `set_entry` on. -/
def descendStores (vaddr : BitVec 64) (level : Nat) : Nat → Nat → Mem → σ → List Nat
  | 0, v, _, _ => [v]
  | i + 1, v, m, s =>
      if i < level then [v]
      else
        match ensureTable allocate v m s with
        | .error _ => []
        | .ok (m', s') =>
            (if isInvalid (m v) then [v] else []) ++
              descendStores vaddr level i (entryAddr (tableOf (m' v)) (vpn vaddr i)) m' s'

def mapStores (root : Nat) (vaddr : BitVec 64) (level : Nat) (m : Mem) (s : σ) : List Nat :=
  descendStores allocate vaddr level 2 (entryAddr root (vpn vaddr 2)) m s

end Stores

def entries (m : Mem) (root : Nat) : Set Nat :=
  {v | ∃ base ∈ tables m root, ∃ index, v = entryAddr base index}

def SameTree (m m' : Mem) (root : Nat) : Prop :=
  ∀ p : List (Fin 512), p.length ≤ 3 → follow (child m') root p = follow (child m) root p

theorem SameTree.tables_eq {m m' : Mem} {root : Nat} (same : SameTree m m' root) :
    tables m' root = tables m root := by
  ext base
  constructor
  · rintro ⟨p, short, reaches⟩
    exact ⟨p, short, (same p (by omega)).symm.trans reaches⟩
  · rintro ⟨p, short, reaches⟩
    exact ⟨p, short, (same p (by omega)).trans reaches⟩

theorem SameTree.pageTable {m m' : Mem} {root : Nat} (same : SameTree m m' root)
    (table : PageTable m root) : PageTable m' root where
  rootAligned := table.rootAligned
  tree := by
    intro p q node pShort qShort pReaches qReaches
    rw [same p (by omega)] at pReaches
    rw [same q (by omega)] at qReaches
    exact table.tree p q node pShort qShort pReaches qReaches
  nonNull := by
    rw [same.tables_eq]
    exact table.nonNull

theorem SameTree.leafLevel {m m' : Mem} {root : Nat} (same : SameTree m m' root)
    (leaves : LeafLevel m root) : LeafLevel m' root := by
  intro i j base atBase k
  have above := atBase
  rw [same [i, j] (by simp)] at above
  have below := same ([i, j] ++ [k]) (by simp)
  rw [follow_snoc, follow_snoc, atBase, above, Option.bind_some, Option.bind_some] at below
  exact below.trans (leaves i j base above k)

/-- An assertion about the tree and the allocator that the tables `map` hangs on the path
of `va` down to `level` keep. -/
structure Hosts {σ : Type} (allocate : σ → Option (Nat × σ)) (root : Nat) (va : BitVec 64)
    (level : Nat) (inv : Mem → σ → Prop) : Prop where
  hang : ∀ {m s i base page s'}, level ≤ i → i + 1 ≤ 2 → inv m s → PageTable m root →
    follow (child m) root (tablePath va (i + 1)) = some base →
    isValid (m (entryAddr base (vpn va (i + 1)))) = false →
    allocate s = some (page, s') →
    Extension m root va i base page ∧ inv (extended m va i base page) s'
  same : ∀ {m m' s}, inv m s → SameTree m m' root → inv m' s

def Starved {σ : Type} (allocate : σ → Option (Nat × σ)) (root : Nat) (va : BitVec 64)
    (level : Nat) (inv : Mem → σ → Prop) : Prop :=
  ∃ m s i base, level ≤ i ∧ i + 1 ≤ 2 ∧ inv m s ∧
    follow (child m) root (tablePath va (i + 1)) = some base ∧
    isValid (m (entryAddr base (vpn va (i + 1)))) = false ∧ allocate s = none

section Map
variable {σ : Type} {allocate : σ → Option (Nat × σ)} {m : Mem} {s : σ} {root : Nat}
  {va : BitVec 64} {level : Nat} {inv : Mem → σ → Prop}

/-- What the loop of `map` towards `level` has done when it stands at a table of level
`i`. -/
structure Descended (m m' : Mem) (root : Nat) (va : BitVec 64) (level i base : Nat) :
    Prop where
  table : PageTable m' root
  atBase : follow (child m') root (tablePath va i) = some base
  clear : PathClear m' root va level
  same : ∀ va', leafOf m' root va' = leafOf m root va'
  leaves : LeafLevel m root → LeafLevel m' root
  grows : tables m root ⊆ tables m' root

theorem Descended.trans {m m' m'' : Mem} {i j base base' : Nat}
    (first : Descended m m' root va level i base)
    (second : Descended m' m'' root va level j base') :
    Descended m m'' root va level j base' where
  table := second.table
  atBase := second.atBase
  clear := second.clear
  same va' := (second.same va').trans (first.same va')
  leaves old := second.leaves (first.leaves old)
  grows := first.grows.trans second.grows

theorem Descended.refl {base i : Nat} (table : PageTable m root)
    (atBase : follow (child m) root (tablePath va i) = some base)
    (clear : PathClear m root va level) : Descended m m root va level i base :=
  ⟨table, atBase, clear, fun _ => rfl, id, subset_rfl⟩

theorem ensureTable_outcome {i base : Nat} (top : i + 1 ≤ 2) (low : level ≤ i)
    (hosts : Hosts allocate root va level inv) (holds : inv m s) (table : PageTable m root)
    (atBase : follow (child m) root (tablePath va (i + 1)) = some base)
    (clear : PathClear m root va level) :
    (ensureTable allocate (entryAddr base (vpn va (i + 1))) m s = .error .outOfFrames ∧
        Starved allocate root va level inv) ∨
      ∃ m' s', ensureTable allocate (entryAddr base (vpn va (i + 1))) m s = .ok (m', s') ∧
        Descended m m' root va level i (tableOf (m' (entryAddr base (vpn va (i + 1))))) ∧
        inv m' s' := by
  unfold ensureTable
  cases valid : isValid (m (entryAddr base (vpn va (i + 1)))) with
  | false =>
      cases call : allocate s with
      | none =>
          refine .inl ⟨?_, m, s, i, base, low, top, holds, atBase, valid, call⟩
          simp [isInvalid, valid, zallocate, call]
      | some answer =>
          obtain ⟨page, s'⟩ := answer
          obtain ⟨grown, holds'⟩ := hosts.hang low top holds table atBase valid call
          refine .inr ⟨extended m va i base page, s', ?_, ⟨grown.pageTable, ?_,
            grown.pathClear low clear, grown.leafOf_eq, grown.leafLevel, ?_⟩, holds'⟩
          · simp [isInvalid, valid, zallocate, call, extended]
          · rw [Extension.entry_branch, tableOf_branchTo grown.aligned grown.small]
            exact grown.follow_new
          · rw [grown.tables_eq]
            exact Set.subset_insert _ _
  | true =>
      have branch := clear.above (i + 1) (by omega) top base atBase valid
      refine .inr ⟨m, s, ?_, Descended.refl table ?_ clear, holds⟩
      · simp [isInvalid, valid]
      · rw [tablePath_succ va top, follow_snoc, atBase]
        exact child_of_branch valid branch

theorem descend_outcome {i base : Nat} (top : i ≤ 2) (low : level ≤ i)
    (hosts : Hosts allocate root va level inv) (holds : inv m s) (table : PageTable m root)
    (atBase : follow (child m) root (tablePath va i) = some base)
    (clear : PathClear m root va level) :
    (descend allocate va level i (entryAddr base (vpn va i)) m s = .error .outOfFrames ∧
        Starved allocate root va level inv) ∨
      ∃ base' m' s', descend allocate va level i (entryAddr base (vpn va i)) m s =
          .ok (entryAddr base' (vpn va level), m', s') ∧
        Descended m m' root va level level base' ∧ inv m' s' ∧
        ∀ v ∈ descendStores allocate va level i (entryAddr base (vpn va i)) m s,
          v ∈ entries m' root := by
  induction i generalizing m s base with
  | zero =>
      obtain rfl : level = 0 := by omega
      refine .inr ⟨base, m, s, rfl, Descended.refl table atBase clear, holds, ?_⟩
      intro v member
      exact ⟨base, table_of_path atBase, vpn va 0, List.mem_singleton.mp member⟩
  | succ i ih =>
      by_cases stop : i < level
      · obtain rfl : level = i + 1 := by omega
        refine .inr ⟨base, m, s, ?_, Descended.refl table atBase clear, holds, ?_⟩
        · rw [descend, if_pos stop]
        · intro v member
          rw [descendStores, if_pos stop] at member
          exact ⟨base, table_of_path atBase, vpn va (i + 1), List.mem_singleton.mp member⟩
      · rcases ensureTable_outcome top (by omega) hosts holds table atBase clear with
          ⟨failed, starved⟩ | ⟨m', s', ensured, descended, holds'⟩
        · refine .inl ⟨?_, starved⟩
          rw [descend, if_neg stop, failed]
        · have nonNull := descended.table.nonNull _ (table_of_path descended.atBase)
          have next :
              entryAddr (tableOf (m' (entryAddr base (vpn va (i + 1))))) (vpn va i) ≠ 0 := by
            rw [entryAddr]
            omega
          rcases ih (by omega) (by omega) holds' descended.table descended.atBase
              descended.clear with ⟨failed, starved⟩ | ⟨base', m'', s'', done, final, last, stores⟩
          · refine .inl ⟨?_, starved⟩
            rw [descend, if_neg stop, ensured]
            simp only [if_neg next]
            exact failed
          · refine .inr ⟨base', m'', s'', ?_, descended.trans final, last, ?_⟩
            · rw [descend, if_neg stop, ensured]
              simp only [if_neg next]
              exact done
            · intro v member
              rw [descendStores, if_neg stop, ensured] at member
              rcases List.mem_append.mp member with here | below
              · refine ⟨base, final.grows (descended.grows (table_of_path atBase)),
                  vpn va (i + 1), ?_⟩
                split at here
                · exact List.mem_singleton.mp here
                · cases here
              · exact stores v below

theorem sameTree_write_leaf {base : Nat} (table : PageTable m root)
    (atBase : follow (child m) root (tablePath va level) = some base)
    (clear : PathClear m root va level) {e : Entry} (leaf : isLeaf e = true) :
    SameTree m (m.write (entryAddr base (vpn va level)) e) root := by
  have same : ∀ other ∈ tables m root, ∀ index,
      child (m.write (entryAddr base (vpn va level)) e) other index = child m other index := by
    intro other member index
    by_cases here : entryAddr other index = entryAddr base (vpn va level)
    · obtain ⟨rfl, rfl⟩ := entryAddr_inj (tables_aligned table member)
        (tables_aligned table (table_of_path atBase)) here
      rw [child_eq_none (m := m.write _ e) fun _ => by rwa [write_same],
        child_eq_none (clear.target other atBase)]
    · exact child_congr (write_other m e here)
  intro p short
  exact follow_congr same short

structure Installed (m m' : Mem) (root : Nat) (va : BitVec 64) (level : Nat) (e : Entry) :
    Prop where
  table : PageTable m' root
  grows : tables m root ⊆ tables m' root
  leaves : LeafLevel m root → LeafLevel m' root
  inside : ∀ va', SamePage level va va' → leafOf m' root va' = some (level, e)
  outside : ∀ va', ¬ SamePage level va va' → leafOf m' root va' = leafOf m root va'

theorem map_outcome (pa : BitVec 64) {bits : PteFlags} (small : level ≤ 2)
    (rwx : bits.bits &&& PteFlags.RWX.bits ≠ 0)
    (hosts : Hosts allocate root va level inv) (holds : inv m s) (table : PageTable m root)
    (clear : PathClear m root va level) :
    (map allocate root va pa bits level m s = .error .outOfFrames ∧
        Starved allocate root va level inv) ∨
      ∃ m' s', map allocate root va pa bits level m s = .ok (m', s') ∧
        Installed m m' root va level (leafEntry pa bits) ∧ inv m' s' ∧
        ∀ v ∈ mapStores allocate root va level m s, v ∈ entries m' root := by
  rcases descend_outcome (le_refl 2) small hosts holds table rfl clear with
    ⟨failed, starved⟩ | ⟨base, m', s', descended, done, holds', stores⟩
  · refine .inl ⟨?_, starved⟩
    rw [map, if_neg rwx, failed]
  · have leaf := isLeaf_leafEntry pa bits rwx
    have valid := isValid_leafEntry pa bits
    have same := sameTree_write_leaf done.table done.atBase done.clear leaf
    refine .inr ⟨m'.write (entryAddr base (vpn va level)) (leafEntry pa bits), s', ?_,
      ⟨same.pageTable done.table, ?_, fun old => same.leafLevel (done.leaves old), ?_, ?_⟩,
      hosts.same holds' same, ?_⟩
    · rw [map, if_neg rwx, descended]
    · rw [same.tables_eq]
      exact done.grows
    · intro va' samePage
      have atBase : follow (child (m'.write (entryAddr base (vpn va level))
          (leafEntry pa bits))) root (tablePath va' level) = some base := by
        rw [same _ (by rw [tablePath_length]; omega), ← samePage.tablePath_eq small]
        exact done.atBase
      have label := (samePage_iff small).mp samePage level (le_refl _) small
      have entry := write_same m' (entryAddr base (vpn va level)) (leafEntry pa bits)
      rw [leafOf_at_table small atBase, ← label,
        leafWalk_leaf (by rwa [entry]) (by rwa [entry]), entry]
    · intro va' apart
      rw [leafOf_write_off done.table small done.atBase _ apart]
      exact done.same va'
    · intro v member
      rw [entries, same.tables_eq]
      exact stores v member

/-! ## The tables still missing -/

def missing (wanted : Finset (List (Fin 512))) (m : Mem) (root : Nat) :
    Finset (List (Fin 512)) :=
  wanted.filter fun p => follow (child m) root p = none

theorem Extension.missing_eq {i base page : Nat} (grown : Extension m root va i base page)
    {wanted : Finset (List (Fin 512))} (short : ∀ p ∈ wanted, p.length ≤ 2) :
    missing wanted (extended m va i base page) root =
      (missing wanted m root).erase (tablePath va i) := by
  have path := tablePath_succ va grown.level
  ext p
  rw [Finset.mem_erase, missing, missing, Finset.mem_filter, Finset.mem_filter]
  constructor
  · rintro ⟨member, none⟩
    rcases grown.graft.follow_eq grown.table.tree (short p member) with
      ⟨_, atPage⟩ | ⟨other, same⟩
    · rw [none] at atPage
      cases atPage
    · exact ⟨fun here => other (here.trans path), member, same ▸ none⟩
  · rintro ⟨other, member, none⟩
    rcases grown.graft.follow_eq grown.table.tree (short p member) with
      ⟨here, _⟩ | ⟨_, same⟩
    · exact absurd (here.trans path.symm) other
    · exact ⟨member, same.trans none⟩

theorem follow_of_invalid {i base : Nat} (top : i + 1 ≤ 2)
    (atBase : follow (child m) root (tablePath va (i + 1)) = some base)
    (invalid : isValid (m (entryAddr base (vpn va (i + 1)))) = false) :
    follow (child m) root (tablePath va i) = none := by
  rw [tablePath_succ va top, follow_snoc, atBase, Option.bind_some]
  apply child_eq_none
  rw [invalid]
  exact fun valid => absurd valid Bool.false_ne_true

/-- The allocator has a fresh page for every missing table. -/
def Stocked (allocate : σ → Option (Nat × σ)) (root : Nat) (wanted : Finset (List (Fin 512)))
    (m : Mem) (s : σ) : Prop :=
  Supplies allocate (missing wanted m root).card s (tables m root)

variable {wanted : Finset (List (Fin 512))}

theorem stocked_succ {i base : Nat} (top : i + 1 ≤ 2) (wants : tablePath va i ∈ wanted)
    (atBase : follow (child m) root (tablePath va (i + 1)) = some base)
    (invalid : isValid (m (entryAddr base (vpn va (i + 1)))) = false)
    (stocked : Stocked allocate root wanted m s) :
    Supplies allocate (((missing wanted m root).erase (tablePath va i)).card + 1) s
      (tables m root) := by
  have member : tablePath va i ∈ missing wanted m root :=
    Finset.mem_filter.mpr ⟨wants, follow_of_invalid top atBase invalid⟩
  rw [Finset.card_erase_add_one member]
  exact stocked

theorem stocked_hosts (short : ∀ p ∈ wanted, p.length ≤ 2)
    (wants : ∀ i, level ≤ i → i + 1 ≤ 2 → tablePath va i ∈ wanted) :
    Hosts allocate root va level (Stocked allocate root wanted) where
  hang := by
    intro m s i base page s' low top stocked table atBase invalid call
    obtain ⟨page', s'', call', aligned, nonNull, small, fresh, rest⟩ :=
      stocked_succ top (wants i low top) atBase invalid stocked
    rw [call, Option.some.injEq, Prod.mk.injEq] at call'
    obtain ⟨rfl, rfl⟩ := call'
    have grown : Extension m root va i base page :=
      ⟨table, top, atBase, invalid, aligned, nonNull, small, fresh⟩
    refine ⟨grown, ?_⟩
    rw [Stocked, grown.missing_eq short, grown.tables_eq]
    exact rest
  same := by
    intro m m' s stocked same
    have sameMissing : missing wanted m' root = missing wanted m root := by
      apply Finset.filter_congr
      intro p member
      rw [same p (by have := short p member; omega)]
    rw [Stocked, sameMissing, same.tables_eq]
    exact stocked

theorem not_starved_of_stocked
    (wants : ∀ i, level ≤ i → i + 1 ≤ 2 → tablePath va i ∈ wanted) :
    ¬ Starved allocate root va level (Stocked allocate root wanted) := by
  rintro ⟨m, s, i, base, low, top, stocked, atBase, invalid, failed⟩
  obtain ⟨page, s', call, _⟩ := stocked_succ top (wants i low top) atBase invalid stocked
  rw [failed] at call
  cases call

theorem map_stocked (pa : BitVec 64) {bits : PteFlags} (small : level ≤ 2)
    (rwx : bits.bits &&& PteFlags.RWX.bits ≠ 0) (short : ∀ p ∈ wanted, p.length ≤ 2)
    (wants : ∀ i, level ≤ i → i + 1 ≤ 2 → tablePath va i ∈ wanted)
    (stocked : Stocked allocate root wanted m s) (table : PageTable m root)
    (clear : PathClear m root va level) :
    ∃ m' s', map allocate root va pa bits level m s = .ok (m', s') ∧
      Installed m m' root va level (leafEntry pa bits) ∧
      Stocked allocate root wanted m' s' := by
  rcases map_outcome pa small rwx (stocked_hosts short wants) stocked table clear with
    ⟨_, starved⟩ | ⟨m', s', success, installed, stocked', _⟩
  · exact absurd starved (not_starved_of_stocked wants)
  · exact ⟨m', s', success, installed, stocked'⟩

/-- `map` succeeds, keeps the tree, maps the whole page of `vaddr` and changes no other
translation. -/
theorem map_installs_leaf (root : Nat) (va pa : BitVec 64) (bits : PteFlags) (level : Nat)
    (m : Mem) (s : σ) (small : level ≤ 2) (paSmall : pa.toNat < 2 ^ 56)
    (rwx : bits.bits &&& PteFlags.RWX.bits ≠ 0) (table : PageTable m root)
    (clear : PathClear m root va level)
    (supplies : Supplies allocate (2 - level) s (tables m root)) :
    ∃ m' s', map allocate root va pa bits level m s = .ok (m', s') ∧
      PageTable m' root ∧ (LeafLevel m root → LeafLevel m' root) ∧
      (∀ va', SamePage level va va' → ∃ addr, v2p m' root va' = .ok (some addr) ∧
        addr.toNat = pa.toNat / 2 ^ (12 + 9 * level) * 2 ^ (12 + 9 * level) |||
          va'.toNat % 2 ^ (12 + 9 * level)) ∧
      ∀ va', ¬ SamePage level va va' → v2p m' root va' = v2p m root va' := by
  -- two tables may be missing on the path to level 0, one to level 1
  let wanted : Finset (List (Fin 512)) := (Finset.Ico level 2).image (tablePath va)
  have stocked : Stocked allocate root wanted m s := by
    refine supplies.of_le ?_
    calc (missing wanted m root).card ≤ wanted.card := Finset.card_filter_le _ _
      _ ≤ (Finset.Ico level 2).card := Finset.card_image_le
      _ = 2 - level := Nat.card_Ico level 2
  have short : ∀ p ∈ wanted, p.length ≤ 2 := by
    intro p member
    obtain ⟨i, _, rfl⟩ := Finset.mem_image.mp member
    rw [tablePath_length]
    omega
  have wants : ∀ i, level ≤ i → i + 1 ≤ 2 → tablePath va i ∈ wanted := fun i low top =>
    Finset.mem_image_of_mem _ (Finset.mem_Ico.mpr ⟨low, top⟩)
  obtain ⟨m', s', success, installed, _⟩ :=
    map_stocked pa small rwx short wants stocked table clear
  refine ⟨m', s', success, installed.table, installed.leaves, ?_, ?_⟩
  · intro va' same
    refine ⟨_, ?_, leafAddress_leafEntry small paSmall bits va'⟩
    rw [v2p_eq_leafOf installed.table, installed.inside va' same]
    rfl
  · intro va' apart
    rw [v2p_eq_leafOf installed.table, v2p_eq_leafOf table, installed.outside va' apart]

end Map

/-! ## The zeroed root -/

section ZeroRoot
variable {m : Mem} {root : Nat}

theorem follow_zeroRoot (zero : ∀ i, m (entryAddr root i) = 0) {p : List (Fin 512)}
    {base : Nat} (reaches : follow (child m) root p = some base) : p = [] ∧ base = root := by
  cases p with
  | nil => exact ⟨rfl, (Option.some.inj reaches).symm⟩
  | cons index rest =>
      have none : child m root index = Option.none := by
        apply child_eq_none
        rw [zero, isValid_zero]
        exact fun valid => absurd valid Bool.false_ne_true
      simp [follow, none] at reaches

theorem pageTable_zeroRoot (aligned : root % pageSize = 0) (nonNull : root ≠ 0)
    (zero : ∀ i, m (entryAddr root i) = 0) : PageTable m root where
  rootAligned := aligned
  tree p q node _ _ pReaches qReaches := by
    rw [(follow_zeroRoot zero pReaches).1, (follow_zeroRoot zero qReaches).1]
  nonNull base member := by
    obtain ⟨p, _, reaches⟩ := member
    rw [(follow_zeroRoot zero reaches).2]
    exact nonNull

theorem tables_zeroRoot (zero : ∀ i, m (entryAddr root i) = 0) :
    tables m root = {root} := by
  ext base
  constructor
  · rintro ⟨p, _, reaches⟩
    exact (follow_zeroRoot zero reaches).2
  · rintro rfl
    exact ⟨[], by simp, rfl⟩

theorem pathClear_zeroRoot (zero : ∀ i, m (entryAddr root i) = 0) (va : BitVec 64)
    (level : Nat) : PathClear m root va level := by
  have invalid : ∀ i base, follow (child m) root (tablePath va i) = some base →
      isValid (m (entryAddr base (vpn va i))) = false := by
    intro i base reaches
    rw [(follow_zeroRoot zero reaches).2, zero, isValid_zero]
  refine ⟨?_, ?_⟩
  · intro i _ _ base reaches valid
    rw [invalid i base reaches] at valid
    exact absurd valid Bool.false_ne_true
  · intro base reaches valid
    rw [invalid level base reaches] at valid
    exact absurd valid Bool.false_ne_true

end ZeroRoot

def bumpFrames (next : Nat) : Option (Nat × Nat) := some (next, next + pageSize)

theorem map_installs_leaf_zeroRoot :
    ∃ m' s', map bumpFrames 0x1000 0x80000000#64 0x80000000#64 PteFlags.READ 0
        (fun _ => 0) 0x2000 = .ok (m', s') ∧
      ∃ addr, v2p m' 0x1000 0x80000123#64 = .ok (some addr) ∧ addr.toNat = 0x80000123 := by
  have zero : ∀ i, (fun _ : Nat => (0 : Entry)) (entryAddr 0x1000 i) = 0 := fun _ => rfl
  have supplies : Supplies bumpFrames (2 - 0) 0x2000 (tables (fun _ => 0) 0x1000) := by
    rw [tables_zeroRoot zero]
    refine ⟨0x2000, 0x3000, rfl, by decide, by decide, by decide, by decide,
      0x3000, 0x4000, rfl, by decide, by decide, by decide, by simp, trivial⟩
  obtain ⟨m', s', success, _, _, inside, _⟩ :=
    map_installs_leaf 0x1000 0x80000000#64 0x80000000#64 PteFlags.READ 0 (fun _ => 0)
      0x2000 (by decide) (by decide) (by decide)
      (pageTable_zeroRoot (by decide) (by decide) zero) (pathClear_zeroRoot zero _ _) supplies
  have same : SamePage 0 0x80000000#64 0x80000123#64 := by
    intro b low high
    interval_cases b <;> rfl
  obtain ⟨addr, translated, value⟩ := inside 0x80000123#64 same
  exact ⟨m', s', success, addr, translated, value⟩

end Vesper.Mm.Sv39
