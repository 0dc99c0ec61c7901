import Vesper.Lib.Transition
import Vesper.Mm.PageFrameRefinement
import Vesper.Mm.Sv39Unmap

/-!
# Runs of `map` over the page-frame allocator

A page table is built by calls of `map` that draw their frames from the page-frame
allocator, while other owners allocate, give back and write pages of their own.  In a run
whose `map` calls meet no leaf above their level and overwrite no branch, the tables of
the tree are the root and exactly the frames the calls obtained, each a live one-page run
of the allocator.  So every entry written lies in one of them, and `unmap` returns each
frame once.
-/

set_option autoImplicit false

namespace Vesper.Mm.Paging

open Vesper.Lib
open Vesper.Lib.FirstFit
open Vesper.Lib.PathTree
open Vesper.Mm.PageFrame (Heap Refines PageDesc pageSize pageSize_eq)
open Vesper.Mm.Sv39

/-- Memory and allocator.  No step reads the last three fields except to keep other owners
away from the tables: `others` are the runs handed to other owners, `frames` the pages
`map` obtained, `stores` the addresses of the entries `map` wrote. -/
structure State (h : Heap) where
  mem : Mem
  pages : PageFrame.State h
  others : Finset Run
  frames : List Nat
  stores : List Nat

variable {h : Heap}

/-- The page behind `zallocate(1)`, with a record of the pages handed out. -/
def frame (s : PageFrame.State h × List Nat) :
    Option (Nat × (PageFrame.State h × List Nat)) :=
  (PageFrame.zallocate 1 s.1).map fun (page, pages) => (page, (pages, s.2 ++ [page]))

inductive Action where
  | map (va pa : BitVec 64) (bits : PteFlags) (level : Nat)
  /-- another owner allocates -/
  | allocate (count : Nat)
  /-- another owner gives a run back -/
  | deallocate (run : Run)
  /-- another owner writes a word outside the tables -/
  | store (addr : Nat) (e : Entry)

def inPage (addr base : Nat) : Bool := decide (base ≤ addr ∧ addr < base + pageSize)

/-- A call that panics ends the run. -/
def step (root : Nat) (s : State h) : Action → Option (State h)
  | .map va pa bits level =>
      if pa.toNat < 2 ^ 56 ∧ bits.bits &&& PteFlags.RWX.bits ≠ 0 ∧ level ≤ 2 then
        match Sv39.map frame root va pa bits level s.mem (s.pages, s.frames) with
        | .error _ => none
        | .ok (mem, (pages, frames)) =>
            some { s with
              mem := mem
              pages := pages
              frames := frames
              stores := s.stores ++ mapStores frame root va level s.mem (s.pages, s.frames) }
      else none
  | .allocate count =>
      match PageFrame.allocate s.pages count with
      | .error _ => none
      | .ok (none, pages) => some { s with pages := pages }
      | .ok (some addr, pages) =>
          some { s with
            pages := pages
            others := insert ⟨(addr - h.allocStart) / pageSize, count⟩ s.others }
  | .deallocate r =>
      if r ∈ s.others then
        match PageFrame.deallocate s.pages (h.runAddr r.start) with
        | .error _ => none
        | .ok pages => some { s with pages := pages, others := s.others.erase r }
      else none
  | .store addr e =>
      if (root :: s.frames).any (inPage addr) then none
      else some { s with mem := s.mem.write addr e }

/-- The allocator is in any state it can reach, and the zeroed page of the root is not
free. -/
structure Initial (root : Nat) (s : State h) : Prop where
  aligned : root % pageSize = 0
  nonNull : root ≠ 0
  zero : ∀ i, s.mem (entryAddr root i) = 0
  allocator : ∃ live, PageFrame.Trace h s.pages live ∧ s.others ⊆ live ∧
    ∀ i < h.pages, h.runAddr i = root → ∃ r ∈ live, r ∉ s.others ∧ i ∈ r.cells
  frames : s.frames = []
  stores : s.stores = []

def paging (h : Heap) (root : Nat) : System where
  State := State h
  Action := Action
  init := Initial root
  step := step root

/-! ## Clear paths -/

/-- From the level `i` entry at `v` on, the path of `va` meets no leaf above `level` and
ends at an entry that is no branch. -/
def clearFrom (m : Mem) (va : BitVec 64) (level : Nat) : Nat → Nat → Bool
  | i, v =>
      if isInvalid (m v) then true
      else if i ≤ level then isLeaf (m v)
      else
        match i with
        | 0 => true
        | i' + 1 =>
            !isLeaf (m v) && clearFrom m va level i' (entryAddr (tableOf (m v)) (vpn va i'))

def clear (root : Nat) (s : State h) : Action → Bool
  | .map va _ _ level => clearFrom s.mem va level 2 (entryAddr root (vpn va 2))
  | _ => true

section ClearPath
variable {m : Mem} {root : Nat} {va : BitVec 64} {level i base : Nat}

theorem hangs_below (high : i + 1 ≤ 2)
    (atBase : follow (child m) root (tablePath va (i + 1)) = some base) {j b : Nat}
    (below : j ≤ i) (atB : follow (child m) root (tablePath va j) = some b) :
    ∃ next, child m base (vpn va (i + 1)) = some next := by
  obtain ⟨next, atNext⟩ := exists_table_above (j := i - j) (by omega) atB
  rw [show j + (i - j) = i by omega, tablePath_succ va high, follow_snoc, atBase,
    Option.bind_some] at atNext
  exact ⟨next, atNext⟩

theorem clearFrom_spec (low : level ≤ i) (high : i ≤ 2)
    (atBase : follow (child m) root (tablePath va i) = some base)
    (clears : clearFrom m va level i (entryAddr base (vpn va i)) = true) :
    (∀ j, level < j → j ≤ i → ∀ b, follow (child m) root (tablePath va j) = some b →
      isValid (m (entryAddr b (vpn va j))) = true →
      isLeaf (m (entryAddr b (vpn va j))) = false) ∧
    ∀ b, follow (child m) root (tablePath va level) = some b →
      isValid (m (entryAddr b (vpn va level))) = true →
      isLeaf (m (entryAddr b (vpn va level))) = true := by
  have here : ∀ b, follow (child m) root (tablePath va i) = some b → b = base :=
    fun b atB => Option.some.inj (atB.symm.trans atBase)
  induction i generalizing base with
  | zero =>
      obtain rfl : level = 0 := by omega
      refine ⟨fun j above below => by omega, fun b atB valid => ?_⟩
      rw [here b atB] at valid ⊢
      rw [clearFrom] at clears
      simpa [isInvalid, valid] using clears
  | succ i ih =>
      rw [clearFrom] at clears
      cases valid : isValid (m (entryAddr base (vpn va (i + 1)))) with
      | false =>
          -- nothing hangs below an invalid entry
          have nothing : ∀ j, j ≤ i → ∀ b,
              follow (child m) root (tablePath va j) ≠ some b := by
            intro j below b atB
            obtain ⟨next, pointer⟩ := hangs_below high atBase below atB
            rw [(child_eq_some pointer).1] at valid
            cases valid
          have atTop : ∀ j b, j ≤ i + 1 → follow (child m) root (tablePath va j) = some b →
              isValid (m (entryAddr b (vpn va j))) = false := by
            intro j b below atB
            by_cases top : j = i + 1
            · subst top
              rw [here b atB]
              exact valid
            · exact absurd atB (nothing j (by omega) b)
          refine ⟨fun j above below b atB isValid => ?_, fun b atB isValid => ?_⟩
          · rw [atTop j b below atB] at isValid
            cases isValid
          · rw [atTop level b low atB] at isValid
            cases isValid
      | true =>
          rw [isInvalid, valid, if_neg (by simp)] at clears
          by_cases atLevel : i + 1 ≤ level
          · rw [if_pos atLevel] at clears
            obtain rfl : level = i + 1 := by omega
            refine ⟨fun j above below => by omega, fun b atB _ => ?_⟩
            rw [here b atB]
            exact clears
          · rw [if_neg atLevel, Bool.and_eq_true, Bool.not_eq_true'] at clears
            obtain ⟨branch, rest⟩ := clears
            have atNext : follow (child m) root (tablePath va i) =
                some (tableOf (m (entryAddr base (vpn va (i + 1))))) := by
              rw [tablePath_succ va high, follow_snoc, atBase, Option.bind_some]
              exact child_of_branch valid branch
            obtain ⟨upper, target⟩ := ih (by omega) (by omega) atNext rest
              fun b atB => Option.some.inj (atB.symm.trans atNext)
            refine ⟨fun j above below b atB isValid => ?_, target⟩
            by_cases top : j = i + 1
            · subst top
              rw [here b atB]
              exact branch
            · exact upper j above (by omega) b atB isValid

theorem pathClear_of_clearFrom (small : level ≤ 2)
    (clears : clearFrom m va level 2 (entryAddr root (vpn va 2)) = true) :
    PathClear m root va level := by
  obtain ⟨above, target⟩ := clearFrom_spec small (le_refl 2) rfl clears
  exact ⟨above, target⟩

end ClearPath

/-! ## The invariant -/

/-- The tables are the root and the frames obtained, and each frame is a live one-page run
that no other owner holds. -/
structure Held (root : Nat) (others : Finset Run) (m : Mem)
    (s : PageFrame.State h × List Nat) : Prop where
  tables : tables m root = {base | base ∈ root :: s.2}
  distinct : (root :: s.2).Nodup
  allocator : ∃ pool : Pool h.pages, Refines s.1 pool ∧ others ⊆ pool.live ∧
    (∀ f ∈ s.2, ∃ i, f = h.runAddr i ∧ ⟨i, 1⟩ ∈ pool.live ∧ (⟨i, 1⟩ : Run) ∉ others) ∧
    ∀ i < h.pages, h.runAddr i = root → ∃ r ∈ pool.live, r ∉ others ∧ i ∈ r.cells

structure Inv (root : Nat) (s : State h) : Prop where
  table : PageTable s.mem root
  leaves : LeafLevel s.mem root
  held : Held root s.others s.mem (s.pages, s.frames)
  stores : ∀ v ∈ s.stores, ∃ base ∈ root :: s.frames, ∃ index, v = entryAddr base index

section Invariant
variable {root : Nat} {others : Finset Run}

theorem frame_eq_some {s s' : PageFrame.State h × List Nat} {page : Nat}
    (call : frame s = some (page, s')) :
    PageFrame.allocate s.1 1 = .ok (some page, s'.1) ∧ s'.2 = s.2 ++ [page] := by
  obtain ⟨⟨addr, pages⟩, answer, same⟩ := Option.map_eq_some_iff.mp call
  cases same
  exact ⟨PageFrame.allocate_of_zallocate answer, rfl⟩

theorem descend_writes {va : BitVec 64} {level i v v' : Nat} {m m' : Mem}
    {s s' : PageFrame.State h × List Nat}
    (done : descend frame va level i v m s = .ok (v', m', s')) :
    v' ∈ descendStores frame va level i v m s ∧
      ∃ new, s'.2 = s.2 ++ new ∧ ∀ addr, addr ∉ descendStores frame va level i v m s →
        (∀ page ∈ new, inPage addr page = false) → m' addr = m addr := by
  induction i generalizing v m s with
  | zero =>
      cases done
      exact ⟨List.mem_singleton_self _, [], (List.append_nil _).symm, fun _ _ _ => rfl⟩
  | succ i ih =>
      rw [descend] at done
      rw [descendStores]
      by_cases stop : i < level
      · rw [if_pos stop] at done ⊢
        cases done
        exact ⟨List.mem_singleton_self _, [], (List.append_nil _).symm, fun _ _ _ => rfl⟩
      · rw [if_neg stop] at done ⊢
        cases ensured : ensureTable frame v m s with
        | error panic =>
            rw [ensured] at done
            cases done
        | ok next =>
            obtain ⟨m₁, s₁⟩ := next
            rw [ensured] at done
            simp only at done
            split at done
            · cases done
            · obtain ⟨last, new, recorded, same⟩ := ih done
              refine ⟨List.mem_append_right _ last, ?_⟩
              unfold ensureTable at ensured
              split at ensured
              · next invalid =>
                  cases call : frame s with
                  | none =>
                      simp [zallocate, call] at ensured
                  | some answer =>
                      obtain ⟨page, s₂⟩ := answer
                      simp only [zallocate, call, Option.map_some, Except.ok.injEq,
                        Prod.mk.injEq] at ensured
                      obtain ⟨rfl, rfl⟩ := ensured
                      refine ⟨page :: new, ?_, ?_⟩
                      · rw [recorded, (frame_eq_some call).2, List.append_assoc]
                        rfl
                      · intro addr notStored outside
                        rw [if_pos invalid] at notStored
                        obtain ⟨notHere, notLater⟩ := not_or.mp
                          (fun stored => notStored (List.mem_append.mpr stored))
                        have notV : addr ≠ v := fun here =>
                          notHere (List.mem_singleton.mpr here)
                        have notPage := outside page (List.mem_cons_self ..)
                        rw [same addr notLater fun p member =>
                            outside p (List.mem_cons_of_mem _ member),
                          write_other _ _ notV, Mem.zeroPage,
                          if_neg (of_decide_eq_false notPage)]
              · next valid =>
                  simp only [Except.ok.injEq, Prod.mk.injEq] at ensured
                  obtain ⟨rfl, rfl⟩ := ensured
                  refine ⟨new, recorded, fun addr notStored outside => ?_⟩
                  rw [if_neg valid] at notStored
                  exact same addr notStored outside

/-- The recorded stores and the pages obtained are all that `map` writes. -/
theorem map_writes {va pa : BitVec 64} {bits : PteFlags} {level : Nat} {m m' : Mem}
    {s s' : PageFrame.State h × List Nat}
    (success : Sv39.map frame root va pa bits level m s = .ok (m', s')) :
    ∃ new, s'.2 = s.2 ++ new ∧ ∀ addr, addr ∉ mapStores frame root va level m s →
      (∀ page ∈ new, inPage addr page = false) → m' addr = m addr := by
  rw [Sv39.map] at success
  split at success
  · cases success
  · split at success
    · cases success
    · next v mid s₁ done =>
        simp only [Except.ok.injEq, Prod.mk.injEq] at success
        obtain ⟨rfl, rfl⟩ := success
        obtain ⟨last, new, recorded, same⟩ := descend_writes done
        refine ⟨new, recorded, fun addr notStored outside => ?_⟩
        have notLast : addr ≠ v := fun here => notStored (here ▸ last)
        rw [write_other _ _ notLast]
        exact same addr notStored outside

theorem window_fresh {n k i : Nat} {pool : Pool n} (window : pool.Window k i) {j : Nat}
    (low : i ≤ j) (high : j < i + k) {r : Run} (member : r ∈ pool.live) : j ∉ r.cells :=
  (Pool.window_iff.mp window).2 j low high r member

theorem held_hosts (low : h.heapEnd ≤ 2 ^ 63) (va : BitVec 64) (level : Nat) :
    Hosts frame root va level (Held (h := h) root others) where
  hang := by
    intro m s i base page s' _ top held table atBase invalid call
    obtain ⟨pool, refines, foreign, owned, reserved⟩ := held.allocator
    obtain ⟨answer, recorded⟩ := frame_eq_some call
    rcases PageFrame.allocate_cases refines (show 0 < 1 by decide) with
      ⟨full, _⟩ | ⟨index, pages, ⟨window, _⟩, success, refines'⟩
    · rw [full] at answer
      cases answer
    · rw [success] at answer
      cases answer
      have bound : index < h.pages := window.1
      have newCell : ∀ r ∈ pool.live, index ∉ r.cells := fun r member =>
        window_fresh window (le_refl _) (by omega) member
      have notRoot : h.runAddr index ≠ root := by
        intro same
        obtain ⟨r, member, _, inside⟩ := reserved index bound same
        exact newCell r member inside
      have notFrame : h.runAddr index ∉ s.2 := by
        intro member
        obtain ⟨j, same, live, _⟩ := owned _ member
        rw [h.runAddr_injective same] at newCell
        exact newCell _ live (Run.start_mem Nat.one_pos)
      have fresh : h.runAddr index ∉ root :: s.2 := by
        rw [List.mem_cons, not_or]
        exact ⟨notRoot, notFrame⟩
      have aligned : h.runAddr index % pageSize = 0 := by
        rw [Heap.runAddr, Nat.add_mul_mod_self_right]
        exact h.allocStart_mod
      have grown : Extension m root va i base (h.runAddr index) :=
        ⟨table, top, atBase, invalid, aligned, h.runAddr_ne_zero bound,
          h.runAddr_lt_two_pow bound.le low, by rw [held.tables]; exact fresh⟩
      refine ⟨grown, ?_, ?_, _, refines', ?_, ?_, ?_⟩
      · rw [grown.tables_eq, held.tables, recorded]
        ext base
        simp only [Set.mem_insert_iff, Set.mem_ofPred_eq, List.mem_cons, List.mem_append,
          List.not_mem_nil, or_false]
        tauto
      · rw [recorded, ← List.cons_append, List.nodup_append]
        refine ⟨held.distinct, List.nodup_singleton _, ?_⟩
        intro x member y isPage same
        rw [same, List.mem_singleton.mp isPage] at member
        exact fresh member
      · exact foreign.trans (Finset.subset_insert _ _)
      · intro f member
        rw [recorded, List.mem_append, List.mem_singleton] at member
        rcases member with old | rfl
        · obtain ⟨j, same, live, notOther⟩ := owned f old
          exact ⟨j, same, Finset.mem_insert_of_mem live, notOther⟩
        · refine ⟨index, rfl, Finset.mem_insert_self _ _, fun other => ?_⟩
          exact newCell _ (foreign other) (Run.start_mem Nat.one_pos)
      · intro j small same
        obtain ⟨r, live, notOther, inside⟩ := reserved j small same
        exact ⟨r, Finset.mem_insert_of_mem live, notOther, inside⟩
  same := by
    intro m m' s held same
    exact ⟨same.tables_eq.trans held.tables, held.distinct, held.allocator⟩

theorem initial_inv {s : State h} (initial : Initial root s) : Inv root s := by
  obtain ⟨live, trace, foreign, reserved⟩ := initial.allocator
  obtain ⟨pool, rfl, refines⟩ := PageFrame.trace_refines trace
  refine ⟨pageTable_zeroRoot initial.aligned initial.nonNull initial.zero, ?_,
    ⟨?_, ?_, pool, refines, foreign, ?_, reserved⟩, ?_⟩
  · intro i j base atBase
    have short := (follow_zeroRoot initial.zero atBase).1
    cases short
  · rw [tables_zeroRoot initial.zero, initial.frames]
    ext base
    simp
  · rw [initial.frames]
    exact List.nodup_singleton root
  · rw [initial.frames]
    exact fun f member => absurd member List.not_mem_nil
  · rw [initial.stores]
    exact fun v member => absurd member List.not_mem_nil

theorem step_cases {s s' : State h} {a : Action} (taken : step root s a = some s') :
    (∃ va pa bits level mem pages frames, a = .map va pa bits level ∧
      bits.bits &&& PteFlags.RWX.bits ≠ 0 ∧ level ≤ 2 ∧
      Sv39.map frame root va pa bits level s.mem (s.pages, s.frames) =
        .ok (mem, (pages, frames)) ∧
      s' = ⟨mem, pages, s.others, frames,
        s.stores ++ mapStores frame root va level s.mem (s.pages, s.frames)⟩) ∨
    (∃ count pages, 0 < count ∧ PageFrame.allocate s.pages count = .ok (none, pages) ∧
      s' = { s with pages := pages }) ∨
    (∃ count addr pages, 0 < count ∧
      PageFrame.allocate s.pages count = .ok (some addr, pages) ∧
      s' = { s with
        pages := pages
        others := insert ⟨(addr - h.allocStart) / pageSize, count⟩ s.others }) ∨
    (∃ r pages, r ∈ s.others ∧ PageFrame.deallocate s.pages (h.runAddr r.start) = .ok pages ∧
      s' = { s with pages := pages, others := s.others.erase r }) ∨
    ∃ addr e, (∀ base ∈ root :: s.frames, ¬ (base ≤ addr ∧ addr < base + pageSize)) ∧
      s' = { s with mem := s.mem.write addr e } := by
  have positive : ∀ {count answer}, PageFrame.allocate s.pages count = .ok answer →
      0 < count := by
    intro count answer success
    by_contra zero
    rw [PageFrame.allocate, if_pos (by omega)] at success
    cases success
  cases a with
  | map va pa bits level =>
      rw [step] at taken
      split at taken
      · next legal =>
          split at taken
          · cases taken
          · next mem pages frames success =>
              cases taken
              exact .inl ⟨va, pa, bits, level, mem, pages, frames, rfl, legal.2.1,
                legal.2.2, success, rfl⟩
      · cases taken
  | allocate count =>
      rw [step] at taken
      split at taken
      · cases taken
      · next pages success =>
          cases taken
          exact .inr (.inl ⟨count, pages, positive success, success, rfl⟩)
      · next addr pages success =>
          cases taken
          exact .inr (.inr (.inl ⟨count, addr, pages, positive success, success, rfl⟩))
  | deallocate r =>
      rw [step] at taken
      split at taken
      · next member =>
          split at taken
          · cases taken
          · next pages success =>
              cases taken
              exact .inr (.inr (.inr (.inl ⟨r, pages, member, success, rfl⟩)))
      · cases taken
  | store addr e =>
      rw [step] at taken
      split at taken
      · cases taken
      · next outside =>
          cases taken
          refine .inr (.inr (.inr (.inr ⟨addr, e, ?_, rfl⟩)))
          intro base member inside
          exact outside (List.any_eq_true.mpr ⟨base, member, decide_eq_true inside⟩)

theorem inv_map (low : h.heapEnd ≤ 2 ^ 63) {s : State h} (inv : Inv root s)
    {va pa : BitVec 64} {bits : PteFlags} {level : Nat} {mem : Mem}
    {pages : PageFrame.State h} {frames : List Nat}
    (rwx : bits.bits &&& PteFlags.RWX.bits ≠ 0) (small : level ≤ 2)
    (clears : PathClear s.mem root va level)
    (success : Sv39.map frame root va pa bits level s.mem (s.pages, s.frames) =
      .ok (mem, (pages, frames))) :
    Inv root ⟨mem, pages, s.others, frames,
      s.stores ++ mapStores frame root va level s.mem (s.pages, s.frames)⟩ := by
  rcases map_outcome pa small rwx (held_hosts low va level) inv.held inv.table clears with
    ⟨failed, _⟩ | ⟨m', s', success', installed, held, stores⟩
  · rw [failed] at success
    cases success
  · rw [success'] at success
    cases success
    refine ⟨installed.table, installed.leaves inv.leaves, held, ?_⟩
    intro v member
    rcases List.mem_append.mp member with old | new
    · obtain ⟨base, inTables, index, rfl⟩ := inv.stores v old
      have before : base ∈ tables s.mem root := by
        rw [inv.held.tables]
        exact inTables
      have kept := installed.grows before
      rw [held.tables] at kept
      exact ⟨base, kept, index, rfl⟩
    · obtain ⟨base, inTables, index, rfl⟩ := stores v new
      rw [held.tables] at inTables
      exact ⟨base, inTables, index, rfl⟩

theorem inv_allocate {s : State h} (inv : Inv root s) {count addr : Nat}
    {pages : PageFrame.State h} (pos : 0 < count)
    (success : PageFrame.allocate s.pages count = .ok (some addr, pages)) :
    Inv root { s with
      pages := pages
      others := insert ⟨(addr - h.allocStart) / pageSize, count⟩ s.others } := by
  obtain ⟨pool, refines, foreign, owned, reserved⟩ := inv.held.allocator
  rcases PageFrame.allocate_cases refines pos with
    ⟨full, _⟩ | ⟨index, pages', ⟨window, _⟩, answer, refines'⟩
  · rw [full] at success
    cases success
  · rw [answer] at success
    cases success
    have start : (h.runAddr index - h.allocStart) / pageSize = index := by
      rw [Heap.runAddr, Nat.add_sub_cancel_left, Nat.mul_div_cancel _ PageFrame.pageSize_pos]
    have different : ∀ r ∈ pool.live, r ≠ ⟨index, count⟩ := by
      rintro r member rfl
      exact window_fresh window (le_refl index) (by omega) member (Run.start_mem pos)
    rw [start]
    refine ⟨inv.table, inv.leaves, ⟨inv.held.tables, inv.held.distinct, _, refines', ?_, ?_, ?_⟩,
      inv.stores⟩
    · exact Finset.insert_subset_insert _ foreign
    · intro f member
      obtain ⟨i, same, live, notOther⟩ := owned f member
      refine ⟨i, same, Finset.mem_insert_of_mem live, fun other => ?_⟩
      rcases Finset.mem_insert.mp other with same | other
      · exact different _ live same
      · exact notOther other
    · intro i small same
      obtain ⟨r, live, notOther, inside⟩ := reserved i small same
      refine ⟨r, Finset.mem_insert_of_mem live, fun other => ?_, inside⟩
      rcases Finset.mem_insert.mp other with same | other
      · exact different r live same
      · exact notOther other

theorem inv_deallocate {s : State h} (inv : Inv root s) {r : Run}
    {pages : PageFrame.State h} (member : r ∈ s.others)
    (success : PageFrame.deallocate s.pages (h.runAddr r.start) = .ok pages) :
    Inv root { s with pages := pages, others := s.others.erase r } := by
  obtain ⟨pool, refines, foreign, owned, reserved⟩ := inv.held.allocator
  obtain ⟨pages', answer, refines'⟩ := PageFrame.deallocate_refines refines (foreign member)
    (PageFrame.deallocate_below success)
  rw [answer] at success
  cases success
  have kept : ∀ q ∈ pool.live, q ∉ s.others → q ∈ (pool.release r).live := fun q live notOther =>
    Finset.mem_erase.mpr ⟨fun same => notOther (same ▸ member), live⟩
  refine ⟨inv.table, inv.leaves, ⟨inv.held.tables, inv.held.distinct, _, refines', ?_, ?_, ?_⟩,
    inv.stores⟩
  · exact Finset.erase_subset_erase r foreign
  · intro f inFrames
    obtain ⟨i, same, live, notOther⟩ := owned f inFrames
    exact ⟨i, same, kept _ live notOther, fun other => notOther (Finset.mem_of_mem_erase other)⟩
  · intro i small same
    obtain ⟨q, live, notOther, inside⟩ := reserved i small same
    exact ⟨q, kept q live notOther, fun other => notOther (Finset.mem_of_mem_erase other), inside⟩

theorem inv_store {s : State h} (inv : Inv root s) {addr : Nat} (e : Entry)
    (outside : ∀ base ∈ root :: s.frames, ¬ (base ≤ addr ∧ addr < base + pageSize)) :
    Inv root { s with mem := s.mem.write addr e } := by
  have sameChild : ∀ base ∈ tables s.mem root, ∀ index,
      child (s.mem.write addr e) base index = child s.mem base index := by
    intro base member index
    rw [inv.held.tables] at member
    apply child_congr (write_other s.mem e _)
    rintro rfl
    have small := index.isLt
    refine outside base member ?_
    rw [entryAddr, pageSize_eq]
    omega
  have same : SameTree s.mem (s.mem.write addr e) root := fun p short =>
    follow_congr sameChild short
  exact ⟨same.pageTable inv.table, same.leafLevel inv.leaves,
    ⟨same.tables_eq.trans inv.held.tables, inv.held.distinct, inv.held.allocator⟩, inv.stores⟩

theorem inv_step (low : h.heapEnd ≤ 2 ^ 63) {s s' : State h} (inv : Inv root s) {a : Action}
    (clears : clear root s a = true) (taken : step root s a = some s') : Inv root s' := by
  rcases step_cases taken with ⟨va, pa, bits, level, mem, pages, frames, rfl, rwx, small,
      success, rfl⟩ | ⟨count, pages, pos, success, rfl⟩ | ⟨count, addr, pages, pos, success, rfl⟩ |
      ⟨r, pages, member, success, rfl⟩ | ⟨addr, e, outside, rfl⟩
  · exact inv_map low inv rwx small (pathClear_of_clearFrom small clears) success
  · obtain ⟨pool, refines, _⟩ := inv.held.allocator
    rcases PageFrame.allocate_cases refines pos with ⟨full, _⟩ | ⟨_, _, _, answer, _⟩
    · rw [full] at success
      cases success
      exact inv
    · rw [answer] at success
      cases success
  · exact inv_allocate inv pos success
  · exact inv_deallocate inv member success
  · exact inv_store inv e outside

theorem reach_inv (low : h.heapEnd ≤ 2 ^ 63) {s : State h}
    (reached : ((paging h root).restrict (clear root)).Reach s) : Inv root s := by
  refine reached.invariant (fun (s : State h) (initial : Initial root s) => initial_inv initial) ?_
  intro s a s' inv taken
  obtain ⟨clears, taken⟩ := System.restrict_step taken
  exact inv_step low inv clears taken

end Invariant

/-! ## A tree of its own frames -/

/-- Every entry was written in the root or in a frame `map` obtained, and every such frame
hangs under exactly one branch entry of the tables reached from the root. -/
structure OwnTree (root : Nat) (s : State h) : Prop where
  stores : ∀ v ∈ s.stores, ∃ base ∈ root :: s.frames, ∃ index, v = entryAddr base index
  frames : ∀ f ∈ s.frames, ∃! place : Nat × Fin 512,
    place.1 ∈ tables s.mem root ∧ child s.mem place.1 place.2 = some f

theorem Inv.short_path {root : Nat} {s : State h} (inv : Inv root s) {base next : Nat}
    {index : Fin 512} (member : base ∈ tables s.mem root)
    (pointer : child s.mem base index = some next) :
    ∃ p : List (Fin 512), p.length ≤ 1 ∧ follow (child s.mem) root p = some base := by
  obtain ⟨p, short, reaches⟩ := member
  refine ⟨p, ?_, reaches⟩
  by_contra long
  obtain ⟨i, j, rfl⟩ := List.length_eq_two.mp (show p.length = 2 by omega)
  rw [inv.leaves i j base reaches index] at pointer
  cases pointer

theorem Inv.ownTree {root : Nat} {s : State h} (inv : Inv root s) : OwnTree root s := by
  refine ⟨inv.stores, fun f member => ?_⟩
  have inTables : f ∈ tables s.mem root := by
    rw [inv.held.tables]
    exact List.mem_cons_of_mem _ member
  have notRoot : f ≠ root := by
    rintro rfl
    exact (List.nodup_cons.mp inv.held.distinct).1 member
  obtain ⟨p, short, reaches⟩ := inTables
  cases p using List.reverseRecOn with
  | nil => exact absurd (Option.some.inj reaches).symm notRoot
  | append_singleton p index =>
      have whole := reaches
      rw [follow_snoc] at reaches
      obtain ⟨base, atBase, pointer⟩ := Option.bind_eq_some_iff.mp reaches
      rw [List.length_append, List.length_singleton] at short
      refine ⟨(base, index), ⟨⟨p, by omega, atBase⟩, pointer⟩, ?_⟩
      rintro ⟨other, label⟩ ⟨otherMember, otherPointer⟩
      obtain ⟨q, qShort, atOther⟩ := inv.short_path otherMember otherPointer
      have again : follow (child s.mem) root (q ++ [label]) = some f := by
        rw [follow_snoc, atOther]
        exact otherPointer
      have paths := inv.table.tree (q ++ [label]) (p ++ [index]) f
        (by rw [List.length_append, List.length_singleton]; omega)
        (by rw [List.length_append, List.length_singleton]; omega) again whole
      obtain ⟨rfl, labels⟩ := List.append_inj' paths rfl
      obtain rfl : other = base := Option.some.inj (atOther.symm.trans atBase)
      obtain rfl : label = index := by simpa using labels
      rfl

/-- In every run whose `map` calls have a clear path, all entries written are those of the
root and of frames of its own, and each frame keeps exactly one branch to it. -/
theorem map_keeps_own_tree (h : Heap) (root : Nat) (low : h.heapEnd ≤ 2 ^ 63) (s : State h)
    (reached : ((paging h root).restrict (clear root)).Reach s) : OwnTree root s :=
  (reach_inv low reached).ownTree

section SmallHeap
open Vesper.Mm.PageFrame (smallHeap rawState)

def zeroState : State smallHeap := ⟨fun _ => 0, PageFrame.init rawState, ∅, [], []⟩

theorem zeroState_initial : Initial 0x1000 zeroState where
  aligned := rfl
  nonNull := by decide
  zero := fun _ => rfl
  allocator := by
    refine ⟨∅, PageFrame.Trace.boot rawState, Finset.empty_subset _, ?_⟩
    intro i small same
    simp only [Heap.runAddr, pageSize_eq] at same
    have start : smallHeap.allocStart = 0x80001000 := by decide +kernel
    omega
  frames := rfl
  stores := rfl

def firstPage : Action := .map 0#64 0x5000#64 PteFlags.READ 0

def firstGiga : Action := .map 0#64 0x40000000#64 PteFlags.READ 2

theorem firstPage_run :
    ∃ s, ((paging smallHeap 0x1000).restrict (clear 0x1000)).Reach s ∧
      s.frames = [0x80001000, 0x80002000] := by
  have ran : ((((paging smallHeap 0x1000).restrict (clear 0x1000)).run zeroState
      [firstPage]).map fun s => s.frames) = some [0x80001000, 0x80002000] := by
    decide +kernel
  obtain ⟨s, ends, frames⟩ := Option.map_eq_some_iff.mp ran
  exact ⟨s, (System.Reach.start zeroState_initial).run ends, frames⟩

theorem map_keeps_own_tree_firstPage :
    ∃ s : State smallHeap, s.frames = [0x80001000, 0x80002000] ∧ OwnTree 0x1000 s := by
  obtain ⟨s, reached, frames⟩ := firstPage_run
  exact ⟨s, frames, map_keeps_own_tree smallHeap 0x1000 (by decide) s reached⟩

/-- A page below a gigapage puts its table pointer into the memory the gigapage maps; a
gigapage over a page leaves the tables of the page without a pointer. -/
theorem map_breaks_own_tree :
    (∃ s : State smallHeap, (paging smallHeap 0x1000).Reach s ∧
      0x40000000 ∈ s.stores ∧ ¬ OwnTree 0x1000 s) ∧
    ∃ s : State smallHeap, (paging smallHeap 0x1000).Reach s ∧
      (∃ f ∈ s.frames, f ∉ tables s.mem 0x1000) ∧ ¬ OwnTree 0x1000 s := by
  refine ⟨?_, ?_⟩
  · have ran : (((paging smallHeap 0x1000).run zeroState [firstGiga, firstPage]).map
        fun s => (s.stores, s.frames)) =
          some ([0x1000, 0x40000000, 0x80001000], [0x80001000]) := by
      decide +kernel
    obtain ⟨s, ends, facts⟩ := Option.map_eq_some_iff.mp ran
    obtain ⟨stores, frames⟩ := Prod.mk.inj facts
    have written : 0x40000000 ∈ s.stores := by
      rw [stores]
      decide
    refine ⟨s, (System.Reach.start zeroState_initial).run ends, written, fun own => ?_⟩
    obtain ⟨base, member, index, same⟩ := own.stores _ written
    rw [frames] at member
    have small := index.isLt
    rw [entryAddr] at same
    simp only [List.mem_cons, List.not_mem_nil, or_false] at member
    omega
  · have ran : (((paging smallHeap 0x1000).run zeroState [firstPage, firstGiga]).map
        fun s => (s.frames, decide (∀ i, child s.mem 0x1000 i = none))) =
          some ([0x80001000, 0x80002000], true) := by
      decide +kernel
    obtain ⟨s, ends, facts⟩ := Option.map_eq_some_iff.mp ran
    obtain ⟨frames, childless⟩ := Prod.mk.inj facts
    rw [decide_eq_true_eq] at childless
    have onlyRoot : ∀ base ∈ tables s.mem 0x1000, base = 0x1000 := by
      rintro base ⟨p, _, reaches⟩
      cases p with
      | nil => exact (Option.some.inj reaches).symm
      | cons index rest =>
          rw [follow, childless index] at reaches
          cases reaches
    have obtained : 0x80001000 ∈ s.frames := by
      rw [frames]
      decide
    refine ⟨s, (System.Reach.start zeroState_initial).run ends, ⟨0x80001000, obtained, ?_⟩, ?_⟩
    · intro member
      have same := onlyRoot _ member
      omega
    · intro own
      obtain ⟨⟨base, index⟩, ⟨member, pointer⟩, _⟩ := own.frames _ obtained
      rw [onlyRoot base member, childless index] at pointer
      cases pointer

end SmallHeap

/-! ## Releasing the tree -/

def deallocateLogged (s : PageFrame.State h × List Nat) (addr : Nat) :
    Except PageFrame.Panic (PageFrame.State h × List Nat) :=
  match PageFrame.deallocate s.1 addr with
  | .error panic => .error panic
  | .ok pages => .ok (pages, s.2 ++ [addr])

/-- Distinct live one-page runs below the heap end can be given back one after the other;
exactly their descriptors become free. -/
theorem releaseAll_frames {pool : Pool h.pages} {pages : PageFrame.State h}
    (refines : Refines pages pool) {frames : List Nat} (distinct : frames.Nodup)
    (live : ∀ f ∈ frames, ∃ i, f = h.runAddr i ∧ ⟨i, 1⟩ ∈ pool.live)
    (below : ∀ f ∈ frames, f < h.heapEnd) (log : List Nat) :
    ∃ pages' : PageFrame.State h,
      releaseAll deallocateLogged frames (pages, log) = .ok (pages', log ++ frames) ∧
      pages'.allocStart = pages.allocStart ∧
      ∀ j, pages'.table[j]? =
        if h.runAddr j ∈ frames then some PageDesc.free else pages.table[j]? := by
  induction frames generalizing pool pages log with
  | nil => exact ⟨pages, by rw [releaseAll, List.append_nil], rfl, fun j => by simp⟩
  | cons f rest ih =>
      obtain ⟨notLater, distinctRest⟩ := List.nodup_cons.mp distinct
      obtain ⟨i, rfl, member⟩ := live f (List.mem_cons_self ..)
      obtain ⟨mid, freed, refines'⟩ := PageFrame.deallocate_refines refines member
        (below _ (List.mem_cons_self ..))
      have kept : ∀ g ∈ rest, ∃ j, g = h.runAddr j ∧ ⟨j, 1⟩ ∈ (pool.release ⟨i, 1⟩).live := by
        intro g inRest
        obtain ⟨j, rfl, liveJ⟩ := live g (List.mem_cons_of_mem _ inRest)
        refine ⟨j, rfl, Finset.mem_erase.mpr ⟨?_, liveJ⟩⟩
        intro same
        cases same
        exact notLater inRest
      obtain ⟨pages', done, started, table⟩ := ih refines' distinctRest kept
        (fun g inRest => below g (List.mem_cons_of_mem _ inRest)) (log ++ [h.runAddr i])
      refine ⟨pages', ?_, ?_, fun j => ?_⟩
      · rw [releaseAll, deallocateLogged, freed]
        rw [List.append_assoc] at done
        exact done
      · rw [started, refines'.started, refines.started]
      · rw [table j, refines.table.release_getElem? member refines'.table]
        have cell : j ∈ (Run.mk i 1).cells ↔ h.runAddr j = h.runAddr i := by
          rw [Run.mem_cells]
          constructor
          · intro bounds
            rw [show j = i by dsimp only at bounds; omega]
          · intro same
            have := h.runAddr_injective same
            dsimp only
            omega
        simp only [List.mem_cons, cell]
        by_cases here : h.runAddr j = h.runAddr i
        · simp [here]
        · simp [here]

/-- After a run of clear `map` calls `unmap` trips no assertion and gives back exactly the
frames `map` obtained, each once; the root keeps its leaves and translates nothing else,
and a second `unmap` does nothing. -/
theorem unmap_frees_each_frame_once (h : Heap) (root : Nat) (low : h.heapEnd ≤ 2 ^ 63)
    (s : State h) (reached : ((paging h root).restrict (clear root)).Reach s)
    (below : ∀ f ∈ s.frames, f < h.heapEnd) :
    ∃ (m' : Mem) (pages' : PageFrame.State h) (freed : List Nat),
      unmap deallocateLogged root s.mem (s.pages, []) = .ok (m', (pages', freed)) ∧
      freed.Perm s.frames ∧ (root :: s.frames).Nodup ∧
      pages'.allocStart = s.pages.allocStart ∧
      (∀ j, pages'.table[j]? =
        if h.runAddr j ∈ s.frames then some PageDesc.free else s.pages.table[j]?) ∧
      (∀ i, isLeaf (s.mem (entryAddr root i)) = true →
        m' (entryAddr root i) = s.mem (entryAddr root i)) ∧
      (∀ va, ¬ (isValid (s.mem (entryAddr root (vpn va 2))) = true ∧
          isLeaf (s.mem (entryAddr root (vpn va 2))) = true) →
        v2p m' root va = .ok none) ∧
      unmap deallocateLogged root m' (pages', freed) = .ok (m', (pages', freed)) := by
  have inv := reach_inv low reached
  obtain ⟨pool, refines, _, owned, _⟩ := inv.held.allocator
  obtain ⟨notFrame, distinct⟩ := List.nodup_cons.mp inv.held.distinct
  have sameFrames : ∀ f, f ∈ framesBelow s.mem root ↔ f ∈ s.frames := by
    intro f
    rw [mem_framesBelow inv.table, inv.held.tables]
    change (f ∈ root :: s.frames ∧ f ≠ root) ↔ f ∈ s.frames
    rw [List.mem_cons]
    constructor
    · rintro ⟨rfl | member, apart⟩
      · exact absurd rfl apart
      · exact member
    · intro member
      exact ⟨.inr member, fun same => notFrame (same ▸ member)⟩
  have framesDistinct := framesBelow_nodup inv.table
  have live : ∀ f ∈ framesBelow s.mem root, ∃ i, f = h.runAddr i ∧ ⟨i, 1⟩ ∈ pool.live := by
    intro f member
    obtain ⟨i, same, isLive, _⟩ := owned f ((sameFrames f).mp member)
    exact ⟨i, same, isLive⟩
  obtain ⟨pages', freed, started, table⟩ := releaseAll_frames refines framesDistinct live
    (fun f member => below f ((sameFrames f).mp member)) []
  rw [List.nil_append] at freed
  obtain ⟨m', success, unmapped⟩ := unmap_spec inv.table freed
  refine ⟨m', pages', framesBelow s.mem root, success,
    (List.perm_ext_iff_of_nodup framesDistinct distinct).mpr sameFrames, inv.held.distinct,
    started, fun j => ?_, fun i leaf => unmapped.leaf_kept leaf,
    fun va uncovered => unmapped.v2p_none uncovered, unmapped.again _⟩
  rw [table j]
  simp only [sameFrames]

theorem unmap_frees_each_frame_once_firstPage :
    ∃ s : State PageFrame.smallHeap, s.frames = [0x80001000, 0x80002000] ∧
      ∃ m' pages' freed,
        unmap deallocateLogged 0x1000 s.mem (s.pages, []) = .ok (m', (pages', freed)) ∧
          freed.Perm [0x80001000, 0x80002000] ∧ pages'.table[0]? = some PageDesc.free := by
  obtain ⟨s, reached, frames⟩ := firstPage_run
  obtain ⟨m', pages', freed, success, perm, _, _, table, _⟩ :=
    unmap_frees_each_frame_once PageFrame.smallHeap 0x1000 (by decide) s reached
      (by rw [frames]; decide +kernel)
  rw [frames] at perm
  refine ⟨s, frames, m', pages', freed, success, perm, ?_⟩
  rw [table 0, frames, if_pos (by decide +kernel)]

end Vesper.Mm.Paging
