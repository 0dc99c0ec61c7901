import Vesper.Mm.Sv39Map

/-!
# `unmap`

Model of `unmap` in `mm/paging/sv39/map.rs`.  The two nested loops release the frames of
the tree one by one, the level 0 tables of a level 1 table before the table itself.  On a
page table this is one pass of `deallocate` over the tree in post-order: the stores that
clear the visited entries go to pages of other tables than those still to be read.
-/

set_option autoImplicit false

namespace Vesper.Mm.Sv39

open Vesper.Lib.PathTree
open Vesper.Mm.PageFrame (pageSize pageSize_eq)

def indices : List (Fin 512) := List.finRange 512

theorem mem_indices (i : Fin 512) : i ∈ indices := List.mem_finRange i

theorem indices_nodup : indices.Nodup := List.nodup_finRange 512

-- proofs go through the list by induction and must not write it out
attribute [irreducible] indices

inductive UnmapPanic (ε : Type) where
  /-- "page table address was null" -/
  | nullTable
  /-- an assertion of the allocator -/
  | deallocate (panic : ε)
  deriving DecidableEq, Repr

section Model
variable {σ ε : Type} (deallocate : σ → Nat → Except ε σ)

def deallocateAddr (addr : Nat) (s : σ) : Except (UnmapPanic ε) σ :=
  if addr = 0 then .error .nullTable
  else
    match deallocate s addr with
    | .error panic => .error (.deallocate panic)
    | .ok s' => .ok s'

/-- The inner loop over the entries `lv1` still to visit. -/
def unmapLv1 (memaddrLv1 : Nat) :
    List (Fin 512) → Mem → σ → Except (UnmapPanic ε) (Mem × σ)
  | [], m, s => .ok (m, s)
  | lv1 :: rest, m, s =>
      let entryLv1 := m (entryAddr memaddrLv1 lv1)
      if !isValid entryLv1 || !isBranch entryLv1 then unmapLv1 memaddrLv1 rest m s
      else
        match deallocateAddr deallocate (tableOf entryLv1) s with
        | .error panic => .error panic
        | .ok s' => unmapLv1 memaddrLv1 rest (m.write (entryAddr memaddrLv1 lv1) 0) s'

/-- The outer loop over the entries `lv2` still to visit. -/
def unmapLv2 (root : Nat) : List (Fin 512) → Mem → σ → Except (UnmapPanic ε) (Mem × σ)
  | [], m, s => .ok (m, s)
  | lv2 :: rest, m, s =>
      let entryLv2 := m (entryAddr root lv2)
      if !isValid entryLv2 || !isBranch entryLv2 then unmapLv2 root rest m s
      else
        let memaddrLv1 := tableOf entryLv2
        match unmapLv1 deallocate memaddrLv1 indices m s with
        | .error panic => .error panic
        | .ok (m', s') =>
            match deallocateAddr deallocate memaddrLv1 s' with
            | .error panic => .error panic
            | .ok s'' => unmapLv2 root rest (m'.write (entryAddr root lv2) 0) s''

def unmap (root : Nat) (m : Mem) (s : σ) : Except (UnmapPanic ε) (Mem × σ) :=
  unmapLv2 deallocate root indices m s

end Model

section Loops
variable {σ ε : Type} {deallocate : σ → Nat → Except ε σ} {m : Mem} {root : Nat} {s s' : σ}

def releaseAll (deallocate : σ → Nat → Except ε σ) : List Nat → σ → Except ε σ
  | [], s => .ok s
  | addr :: rest, s =>
      match deallocate s addr with
      | .error panic => .error panic
      | .ok s' => releaseAll deallocate rest s'

theorem skip_iff {base : Nat} {index : Fin 512} :
    (!isValid (m (entryAddr base index)) || !isBranch (m (entryAddr base index))) = true ↔
      child m base index = none := by
  simp only [child]
  cases isValid (m (entryAddr base index)) <;> cases isBranch (m (entryAddr base index)) <;>
    simp

theorem deallocateAddr_ok {addr : Nat} (nonNull : addr ≠ 0)
    (freed : deallocate s addr = .ok s') : deallocateAddr deallocate addr s = .ok s' := by
  simp only [deallocateAddr, if_neg nonNull, freed]

theorem releaseAll_cons {addr : Nat} {rest : List Nat}
    (freed : releaseAll deallocate (addr :: rest) s = .ok s') :
    ∃ mid, deallocate s addr = .ok mid ∧ releaseAll deallocate rest mid = .ok s' := by
  rw [releaseAll] at freed
  split at freed
  · cases freed
  · next mid first => exact ⟨mid, first, freed⟩

theorem releaseAll_append {before after : List Nat}
    (freed : releaseAll deallocate (before ++ after) s = .ok s') :
    ∃ mid, releaseAll deallocate before s = .ok mid ∧
      releaseAll deallocate after mid = .ok s' := by
  induction before generalizing s with
  | nil => exact ⟨s, rfl, freed⟩
  | cons addr rest ih =>
      obtain ⟨next, first, others⟩ := releaseAll_cons freed
      obtain ⟨mid, done, left⟩ := ih others
      refine ⟨mid, ?_, left⟩
      rw [releaseAll, first]
      exact done

theorem postOrder_one {child : Nat → Fin 512 → Option Nat} (labels : List (Fin 512))
    (base : Nat) : postOrder child labels 1 base = labels.filterMap (child base) := by
  rw [postOrder, List.filterMap_eq_flatMap_toList]
  congr 1

theorem unmapLv1_spec {base : Nat} (aligned : base % pageSize = 0) {todo : List (Fin 512)}
    (distinct : todo.Nodup) (nonNull : ∀ i next, child m base i = some next → next ≠ 0)
    (freed : releaseAll deallocate (todo.filterMap (child m base)) s = .ok s') :
    ∃ m', unmapLv1 deallocate base todo m s = .ok (m', s') ∧
      ∀ addr, (∀ i, addr ≠ entryAddr base i) → m' addr = m addr := by
  induction todo generalizing m s with
  | nil =>
      cases freed
      exact ⟨m, rfl, fun _ _ => rfl⟩
  | cons i rest ih =>
      obtain ⟨notLater, distinctRest⟩ := List.nodup_cons.mp distinct
      rw [unmapLv1]
      cases pointer : child m base i with
      | none =>
          rw [List.filterMap_cons_none pointer] at freed
          rw [if_pos (skip_iff.mpr pointer)]
          exact ih distinctRest nonNull freed
      | some next =>
          rw [List.filterMap_cons_some pointer] at freed
          obtain ⟨mid, first, others⟩ := releaseAll_cons freed
          -- clearing the entry changes no entry that is still to be read
          have same : ∀ j ∈ rest, child (m.write (entryAddr base i) 0) base j =
              child m base j := by
            intro j member
            apply child_congr (write_other m 0 _)
            intro here
            exact notLater ((entryAddr_inj aligned aligned here).2 ▸ member)
          have nonNull' : ∀ j next, child (m.write (entryAddr base i) 0) base j = some next →
              next ≠ 0 := by
            intro j other reads
            by_cases here : entryAddr base j = entryAddr base i
            · rw [child_eq_none fun valid => by
                rw [here, write_same] at valid
                exact absurd valid (by decide)] at reads
              cases reads
            · rw [child_congr (write_other m 0 here)] at reads
              exact nonNull j other reads
          rw [← List.filterMap_congr same] at others
          obtain ⟨m', done, frame⟩ := ih distinctRest nonNull' others
          have address := (child_eq_some pointer).2.2
          refine ⟨m', ?_, ?_⟩
          · rw [if_neg (by rw [skip_iff, pointer]; simp), address,
              deallocateAddr_ok (nonNull i next pointer) first]
            exact done
          · intro addr outside
            rw [frame addr outside, write_other m 0 (outside i)]

def framesAt (m : Mem) (root : Nat) (index : Fin 512) : List Nat :=
  match child m root index with
  | none => []
  | some next => postOrder (child m) indices 1 next ++ [next]

/-- Every table frame but the root, in the order `unmap` frees them. -/
def framesBelow (m : Mem) (root : Nat) : List Nat :=
  postOrder (child m) indices 2 root

theorem framesBelow_eq (m : Mem) (root : Nat) :
    framesBelow m root = indices.flatMap (framesAt m root) := by
  rw [framesBelow, postOrder]
  congr 1
  funext label
  rw [framesAt]
  cases child m root label with
  | none => rfl
  | some next => rfl

theorem mem_framesBelow (table : PageTable m root) {frame : Nat} :
    frame ∈ framesBelow m root ↔ frame ∈ tables m root ∧ frame ≠ root := by
  rw [framesBelow, mem_postOrder mem_indices]
  constructor
  · rintro ⟨p, nonempty, short, reaches⟩
    refine ⟨⟨p, short, reaches⟩, ?_⟩
    rintro rfl
    exact nonempty (table.tree p [] frame short (Nat.zero_le _) reaches rfl)
  · rintro ⟨⟨p, short, reaches⟩, notRoot⟩
    refine ⟨p, ?_, short, reaches⟩
    rintro rfl
    exact notRoot (Option.some.inj reaches).symm

theorem framesBelow_nodup (table : PageTable m root) : (framesBelow m root).Nodup :=
  postOrder_nodup mem_indices indices_nodup table.tree

/-- The entries of the root still to visit, and the tables below them, are as they were. -/
structure Untouched (m n : Mem) (root : Nat) (todo : List (Fin 512)) : Prop where
  entry : ∀ i ∈ todo, n (entryAddr root i) = m (entryAddr root i)
  below : ∀ i ∈ todo, ∀ next, child m root i = some next →
    ∀ j, n (entryAddr next j) = m (entryAddr next j)

theorem child_table (table : PageTable m root) {i : Fin 512} {next : Nat}
    (pointer : child m root i = some next) : next ∈ tables m root ∧ next ≠ root := by
  have reaches : follow (child m) root [i] = some next := by
    rw [follow, pointer]
    rfl
  refine ⟨⟨[i], by simp, reaches⟩, ?_⟩
  rintro rfl
  have path := table.tree [i] [] next (by simp) (by simp) reaches rfl
  cases path

/-- Stores into the level 1 table below `i` and into entry `i` of the root leave the rest
of the tree untouched. -/
theorem Untouched.visit (table : PageTable m root) {n n' : Mem} {i : Fin 512}
    {rest : List (Fin 512)} (untouched : Untouched m n root (i :: rest)) {next : Nat}
    (notLater : i ∉ rest) (pointer : child m root i = some next)
    (frame : ∀ addr, (∀ j, addr ≠ entryAddr next j) → n' addr = n addr) :
    Untouched m (n'.write (entryAddr root i) 0) root rest := by
  obtain ⟨nextMember, nextNotRoot⟩ := child_table table pointer
  have nextAligned := tables_aligned table nextMember
  refine ⟨?_, ?_⟩
  · intro j member
    have otherEntry : entryAddr root j ≠ entryAddr root i := fun here =>
      notLater ((entryAddr_inj table.rootAligned table.rootAligned here).2 ▸ member)
    rw [write_other n' 0 otherEntry, frame]
    · exact untouched.entry j (List.mem_cons_of_mem _ member)
    · intro k here
      exact nextNotRoot (entryAddr_inj table.rootAligned nextAligned here).1.symm
  · intro j member other reads k
    obtain ⟨otherMember, otherNotRoot⟩ := child_table table reads
    have otherAligned := tables_aligned table otherMember
    rw [write_other n' 0, frame]
    · exact untouched.below j (List.mem_cons_of_mem _ member) other reads k
    · intro l here
      have same := (entryAddr_inj otherAligned nextAligned here).1
      subst same
      have paths := table.tree [i] [j] other (by simp) (by simp) (by rw [follow, pointer]; rfl)
        (by rw [follow, reads]; rfl)
      rw [List.head_eq_of_cons_eq paths] at notLater
      exact notLater member
    · intro here
      exact otherNotRoot (entryAddr_inj otherAligned table.rootAligned here).1

theorem unmapLv1_below (table : PageTable m root) {n : Mem} {i : Fin 512}
    {rest : List (Fin 512)} (untouched : Untouched m n root (i :: rest)) {next : Nat}
    (pointer : child m root i = some next)
    (freed : releaseAll deallocate (postOrder (child m) indices 1 next) s = .ok s') :
    ∃ n', unmapLv1 deallocate next indices n s = .ok (n', s') ∧
      ∀ addr, (∀ j, addr ≠ entryAddr next j) → n' addr = n addr := by
  have below := untouched.below i (List.mem_cons_self ..) next pointer
  have sameChild : ∀ j, child n next j = child m next j := fun j => child_congr (below j)
  have nonNull : ∀ j other, child n next j = some other → other ≠ 0 := by
    intro j other reads
    rw [sameChild] at reads
    refine table.nonNull other ⟨[i, j], by simp, ?_⟩
    simp [follow, pointer, reads]
  rw [postOrder_one, ← List.filterMap_congr fun j _ => sameChild j] at freed
  exact unmapLv1_spec (tables_aligned table (child_table table pointer).1) indices_nodup nonNull
    freed

theorem unmapLv2_spec (table : PageTable m root) {n : Mem} {todo : List (Fin 512)}
    (distinct : todo.Nodup) (untouched : Untouched m n root todo)
    (freed : releaseAll deallocate (todo.flatMap (framesAt m root)) s = .ok s') :
    ∃ n', unmapLv2 deallocate root todo n s = .ok (n', s') ∧
      (∀ i ∈ todo, n' (entryAddr root i) =
        if (child m root i).isSome then 0 else m (entryAddr root i)) ∧
      (∀ i, i ∉ todo → n' (entryAddr root i) = n (entryAddr root i)) ∧
      ∀ addr, addr ∉ entries m root → n' addr = n addr := by
  induction todo generalizing n s with
  | nil =>
      cases freed
      exact ⟨n, rfl, fun i member => (by cases member), fun _ _ => rfl, fun _ _ => rfl⟩
  | cons i rest ih =>
      obtain ⟨notLater, distinctRest⟩ := List.nodup_cons.mp distinct
      have read := child_congr (untouched.entry i (List.mem_cons_self ..))
      rw [List.flatMap_cons] at freed
      obtain ⟨mid, here, later⟩ := releaseAll_append freed
      rw [unmapLv2]
      cases pointer : child m root i with
      | none =>
          rw [framesAt, pointer] at here
          cases here
          rw [if_pos (skip_iff.mpr (read.trans pointer))]
          obtain ⟨n', done, visited, others, frame⟩ := ih distinctRest
            ⟨fun j member => untouched.entry j (List.mem_cons_of_mem _ member),
              fun j member => untouched.below j (List.mem_cons_of_mem _ member)⟩ later
          refine ⟨n', done, ?_, ?_, frame⟩
          · intro j member
            rcases List.mem_cons.mp member with rfl | member
            · rw [others j notLater, untouched.entry j (List.mem_cons_self ..), pointer]
              rfl
            · exact visited j member
          · intro j absent
            exact others j fun member => absent (List.mem_cons_of_mem _ member)
      | some next =>
          obtain ⟨nextMember, nextNotRoot⟩ := child_table table pointer
          have nextAligned := tables_aligned table nextMember
          rw [framesAt, pointer] at here
          obtain ⟨inner, innerFreed, last⟩ := releaseAll_append here
          obtain ⟨mid', nextFreed, nothing⟩ := releaseAll_cons last
          cases nothing
          obtain ⟨n₁, cleared, frame₁⟩ := unmapLv1_below table untouched pointer innerFreed
          obtain ⟨n', done, visited, others, frame⟩ := ih distinctRest
            (untouched.visit table notLater pointer frame₁) later
          have address := (child_eq_some (read.trans pointer)).2.2
          refine ⟨n', ?_, ?_, ?_, ?_⟩
          · rw [if_neg (by rw [skip_iff, read, pointer]; simp), address]
            simp only [cleared, deallocateAddr_ok (table.nonNull next nextMember) nextFreed]
            exact done
          · intro j member
            rcases List.mem_cons.mp member with rfl | member
            · rw [others j notLater, write_same, pointer]
              rfl
            · exact visited j member
          · intro j absent
            have apart : entryAddr root j ≠ entryAddr root i := fun same => absent
              ((entryAddr_inj table.rootAligned table.rootAligned same).2 ▸
                List.mem_cons_self ..)
            rw [others j fun member => absent (List.mem_cons_of_mem _ member),
              write_other n₁ 0 apart, frame₁]
            intro k same
            exact nextNotRoot (entryAddr_inj table.rootAligned nextAligned same).1.symm
          · intro addr outside
            have notRootEntry : addr ≠ entryAddr root i := fun same =>
              outside ⟨root, ⟨[], by simp, rfl⟩, i, same⟩
            rw [frame addr outside, write_other n₁ 0 notRootEntry, frame₁]
            exact fun k same => outside ⟨next, nextMember, k, same⟩

theorem unmapLv2_idle {todo : List (Fin 512)} (idle : ∀ i, child m root i = none) (s : σ) :
    unmapLv2 deallocate root todo m s = .ok (m, s) := by
  induction todo with
  | nil => rfl
  | cons i rest ih =>
      rw [unmapLv2, if_pos (skip_iff.mpr (idle i))]
      exact ih

structure Unmapped (m m' : Mem) (root : Nat) : Prop where
  entry : ∀ i, m' (entryAddr root i) =
    if (child m root i).isSome then 0 else m (entryAddr root i)
  frame : ∀ addr, addr ∉ entries m root → m' addr = m addr

theorem unmap_spec (table : PageTable m root)
    (freed : releaseAll deallocate (framesBelow m root) s = .ok s') :
    ∃ m', unmap deallocate root m s = .ok (m', s') ∧ Unmapped m m' root := by
  rw [framesBelow_eq] at freed
  obtain ⟨m', done, visited, _, frame⟩ := unmapLv2_spec table indices_nodup
    ⟨fun _ _ => rfl, fun _ _ _ _ _ => rfl⟩ freed
  exact ⟨m', done, fun i => visited i (mem_indices i), frame⟩

namespace Unmapped

variable {m' : Mem}

theorem entry_branch (unmapped : Unmapped m m' root) {i : Fin 512} {next : Nat}
    (pointer : child m root i = some next) : m' (entryAddr root i) = 0 := by
  rw [unmapped.entry, pointer]
  rfl

theorem entry_other (unmapped : Unmapped m m' root) {i : Fin 512}
    (pointer : child m root i = none) : m' (entryAddr root i) = m (entryAddr root i) := by
  rw [unmapped.entry, pointer]
  rfl

theorem child_none (unmapped : Unmapped m m' root) (i : Fin 512) : child m' root i = none := by
  cases pointer : child m root i with
  | none => exact (child_congr (unmapped.entry_other pointer)).trans pointer
  | some next =>
      apply child_eq_none
      rw [unmapped.entry_branch pointer]
      exact fun valid => absurd valid (by decide)

theorem leaf_kept (unmapped : Unmapped m m' root) {i : Fin 512}
    (leaf : isLeaf (m (entryAddr root i)) = true) :
    m' (entryAddr root i) = m (entryAddr root i) :=
  unmapped.entry_other (child_eq_none fun _ => leaf)

theorem v2p_none (unmapped : Unmapped m m' root) {va : BitVec 64}
    (uncovered : ¬ (isValid (m (entryAddr root (vpn va 2))) = true ∧
      isLeaf (m (entryAddr root (vpn va 2))) = true)) : v2p m' root va = .ok none := by
  have invalid : isInvalid (m' (entryAddr root (vpn va 2))) = true := by
    cases pointer : child m root (vpn va 2) with
    | some next =>
        rw [unmapped.entry_branch pointer]
        rfl
    | none =>
        rw [unmapped.entry_other pointer, isInvalid]
        cases valid : isValid (m (entryAddr root (vpn va 2))) with
        | false => rfl
        | true =>
            have skipped := skip_iff.mpr pointer
            rw [valid, isBranch] at skipped
            exact absurd ⟨valid, by simpa using skipped⟩ uncovered
  rw [v2p, walk, if_pos invalid]

theorem again (unmapped : Unmapped m m' root) (s : σ) :
    unmap deallocate root m' s = .ok (m', s) :=
  unmapLv2_idle unmapped.child_none s

end Unmapped

end Loops

end Vesper.Mm.Sv39
