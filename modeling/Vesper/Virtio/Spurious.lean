import Mathlib.Tactic
import Vesper.Lib.Transition
import Vesper.Virtio.Queue

/-!
# Completions nobody asked for

`pending` clears `req_head[id]` and frees the chain from `id` on before it looks whether
there was a request.  Here the device may put anything into the used ring.  Descriptors
start out zeroed and `alloc_desc_chain` hands them out in ascending order, so that every
link leads to a larger index and the walk of `free_desc_chain` ends.  It frees what the
links lead to, in use or not: a spurious completion is harmless exactly when all of that
is free already.
-/

set_option autoImplicit false

namespace Vesper.Virtio.Spurious

open Vesper.Lib (System)
open Vesper.Lib.WrapRing (slot)

/-! ## The driver against an arbitrary used ring -/

structure Driver where
  bd : BlockDevice
  mem : Memory

inductive Action where
  | submit (page : Option Nat) (op : Op)
  | device (used : UsedRing) (mem : Memory)
  | drain

def Driver.step (s : Driver) : Action → Option Driver
  | .submit page op =>
    match Virtio.submit s.bd s.mem page op with
    | .refused => some s
    | .noDescriptors bd mem => some ⟨bd, mem⟩
    | .submitted bd mem _ _ => some ⟨bd, mem⟩
  | .device used mem => some ⟨{ s.bd with queue := { s.bd.queue with used := used } }, mem⟩
  | .drain =>
    if s.bd.ackUsedIdx = s.bd.queue.used.idx then none
    else (pendingStep s.bd).map fun bd => ⟨bd, s.mem⟩

def zeroDescriptor : Descriptor := ⟨0, 0, 0, 0⟩

/-- After `setup_block_device`, whose queue memory comes from `zallocate`. -/
def Initial (s : Driver) : Prop :=
  s.bd.ackUsedIdx = 0 ∧ (∀ i, s.bd.queue.desc i = zeroDescriptor) ∧
    (∀ i, s.bd.queue.free i = true) ∧ ∀ i, s.bd.queue.reqHead i = none

def driving : System where
  State := Driver
  Action := Action
  init := Initial
  step := Driver.step

/-! ## Links lead upwards -/

def Continues (desc : Index → Descriptor) (i : Index) : Prop :=
  (desc i).flags &&& descNext ≠ 0

def Ascending (desc : Index → Descriptor) : Prop :=
  ∀ i, Continues desc i → i.val < (desc i).next.toNat ∧ (desc i).next.toNat < 8

theorem allocDescChain_ascending {q q' : QueueState} {sl : Slots}
    (taken : allocDescChain q = (some sl, q')) : sl.head < sl.data ∧ sl.data < sl.stat := by
  obtain ⟨got, sub, _, outcome⟩ := allocLoop_cases (List.finRange 8) q.free [] (Nat.succ_pos 2)
  have sorted : got.Pairwise (· < ·) := (List.pairwise_lt_finRange 8).sublist sub
  rw [List.nil_append] at outcome
  rcases outcome with ⟨result, three⟩ | ⟨result, _⟩
  · obtain ⟨head, data, stat, rfl⟩ := List.length_eq_three.mp three
    simp only [allocDescChain, result, Prod.mk.injEq, Option.some.injEq] at taken
    obtain ⟨rfl, _⟩ := taken
    obtain ⟨first, rest⟩ := List.pairwise_cons.mp sorted
    obtain ⟨second, _⟩ := List.pairwise_cons.mp rest
    exact ⟨first data List.mem_cons_self, second stat List.mem_cons_self⟩
  · simp only [allocDescChain, result, Prod.mk.injEq, reduceCtorEq, false_and] at taken

theorem allocDescChain_desc {q q' : QueueState} {sl : Option Slots}
    (taken : allocDescChain q = (sl, q')) : q'.desc = q.desc := by
  rcases allocDescChain_cases q with ⟨_, result, _, _⟩ | ⟨result, _⟩
  · rw [result] at taken
    cases taken
    rfl
  · rw [result] at taken
    cases taken
    rfl

theorem Ascending.writeChain {q : QueueState} (ascending : Ascending q.desc) {sl : Slots}
    (first : sl.head < sl.data) (second : sl.data < sl.stat) (page : Nat) (op : Op) :
    Ascending (Virtio.writeChain q sl page op).desc := by
  intro i goesOn
  rw [Continues] at goesOn
  simp only [Virtio.writeChain] at goesOn ⊢
  by_cases stat : i = sl.stat
  · subst stat
    rw [Function.update_self] at goesOn
    exact absurd (statusDesc_ends page) goesOn
  rw [Function.update_of_ne stat] at goesOn ⊢
  by_cases data : i = sl.data
  · subst data
    rw [Function.update_self, dataDesc_next]
    exact ⟨second, sl.stat.isLt⟩
  rw [Function.update_of_ne data] at goesOn ⊢
  by_cases head : i = sl.head
  · subst head
    rw [Function.update_self, headDesc_next]
    exact ⟨first, sl.data.isLt⟩
  rw [Function.update_of_ne head] at goesOn ⊢
  exact ascending i goesOn

theorem pendingStep_desc {bd bd' : BlockDevice} (taken : pendingStep bd = some bd') :
    bd'.queue.desc = bd.queue.desc := by
  simp only [pendingStep] at taken
  split_ifs at taken
  · split at taken
    · cases taken
      rfl
    · cases taken
    · cases taken
  · cases taken
    rfl

theorem step_ascending {s s' : Driver} (ascending : Ascending s.bd.queue.desc) {a : Action}
    (taken : s.step a = some s') : Ascending s'.bd.queue.desc := by
  cases a with
  | submit page op =>
      simp only [Driver.step, Virtio.submit] at taken
      split_ifs at taken
      · cases taken
        exact ascending
      · cases taken
        exact ascending
      · cases page with
        | none =>
            cases taken
            exact ascending
        | some page =>
            cases result : allocDescChain s.bd.queue with
            | mk slots q =>
                have kept := allocDescChain_desc result
                rw [← kept] at ascending
                simp only [result] at taken
                cases slots with
                | none =>
                    cases taken
                    exact ascending
                | some sl =>
                    obtain ⟨first, second⟩ := allocDescChain_ascending result
                    cases taken
                    exact ascending.writeChain first second page op
  | device used mem =>
      cases taken
      exact ascending
  | drain =>
      simp only [Driver.step] at taken
      split_ifs at taken
      obtain ⟨bd, result, rfl⟩ := Option.map_eq_some_iff.mp taken
      rw [pendingStep_desc result]
      exact ascending

theorem reach_ascending {s : Driver} (reached : driving.Reach s) :
    Ascending s.bd.queue.desc := by
  refine reached.invariant ?_ fun (s : Driver) a (s' : Driver) ascending taken =>
    step_ascending ascending taken
  rintro s ⟨_, zeroed, _, _⟩ i goesOn
  rw [Continues, zeroed i] at goesOn
  exact absurd (by decide) goesOn

/-! ## What a completion frees -/

def linked (desc : Index → Descriptor) : Nat → Index → List Index
  | 0, _ => []
  | rounds + 1, i =>
    if (desc i).flags &&& descNext = 0 then [i]
    else if inside : (desc i).next.toNat < 8 then
      i :: linked desc rounds ⟨(desc i).next.toNat, inside⟩
    else [i]

theorem freeDescChain_linked {desc : Index → Descriptor} (ascending : Ascending desc)
    (rounds : Nat) (i : Index) (enough : 8 ≤ i.val + rounds) (free : Index → Bool) :
    freeDescChain desc rounds free i = .done (setAll free (linked desc rounds i) true) := by
  induction rounds generalizing i free with
  | zero => exact absurd i.isLt (by omega)
  | succ rounds ih =>
      rw [freeDescChain, dif_pos i.isLt, linked]
      by_cases last : (desc i).flags &&& descNext = 0
      · rw [if_pos last, if_pos last]
        rfl
      · obtain ⟨higher, inside⟩ := ascending i last
        have further : 8 ≤ (desc i).next.toNat + rounds := by omega
        rw [if_neg last, if_neg last, dif_pos inside]
        exact ih ⟨(desc i).next.toNat, inside⟩ further (Function.update free i true)

theorem freeDescChain_more {desc : Index → Descriptor} {rounds : Nat} {free freed : Index → Bool}
    {i : Nat} (ended : freeDescChain desc rounds free i = .done freed) (extra : Nat) :
    freeDescChain desc (rounds + extra) free i = .done freed := by
  induction rounds generalizing free i with
  | zero => cases ended
  | succ rounds ih =>
      rw [Nat.add_right_comm, freeDescChain]
      rw [freeDescChain] at ended
      dsimp only at ended ⊢
      split_ifs at ended ⊢ with inside last
      · exact ended
      · exact ih ended

theorem linked_ascending {desc : Index → Descriptor} (ascending : Ascending desc) (rounds : Nat)
    (i : Index) :
    (∀ j ∈ linked desc rounds i, i ≤ j) ∧ (linked desc rounds i).Pairwise (· < ·) := by
  induction rounds generalizing i with
  | zero =>
      refine ⟨fun j member => ?_, List.Pairwise.nil⟩
      cases member
  | succ rounds ih =>
      have alone : (∀ j ∈ [i], i ≤ j) ∧ [i].Pairwise (· < ·) :=
        ⟨fun j member => (List.mem_singleton.mp member).ge, List.pairwise_singleton _ _⟩
      rw [linked]
      split_ifs with last inside
      · exact alone
      · obtain ⟨above, sorted⟩ := ih ⟨(desc i).next.toNat, inside⟩
        have higher (j : Index) (member : j ∈ linked desc rounds ⟨(desc i).next.toNat, inside⟩) :
            i < j := lt_of_lt_of_le (ascending i last).1 (above j member)
        refine ⟨fun j member => ?_, List.pairwise_cons.mpr ⟨higher, sorted⟩⟩
        cases List.mem_cons.mp member with
        | inl same => exact same.ge
        | inr later => exact (higher j later).le
      · exact alone

/-- Whatever the used ring reported before, the walk from any head ends within eight
rounds and never answers `outOfRange`: the indices it uses grow from one to the next. -/
theorem freeDescChain_ends_in_range (s : Driver) (reached : driving.Reach s) (head : Nat)
    (inside : head < 8) :
    let chain : List Index := linked s.bd.queue.desc 8 ⟨head, inside⟩
    (∀ rounds, 8 ≤ rounds → freeDescChain s.bd.queue.desc rounds s.bd.queue.free head =
        .done (setAll s.bd.queue.free chain true)) ∧
      chain.Pairwise (· < ·) := by
  have ascending := reach_ascending reached
  refine ⟨fun rounds enough => ?_, (linked_ascending ascending 8 ⟨head, inside⟩).2⟩
  have walk := freeDescChain_linked ascending 8 ⟨head, inside⟩ (Nat.le_add_left 8 _)
    s.bd.queue.free
  have longer := freeDescChain_more walk (rounds - 8)
  rwa [Nat.add_sub_cancel' enough] at longer

theorem setAll_true_eq_iff (free : Index → Bool) (indices : List Index) :
    setAll free indices true = free ↔ ∀ j ∈ indices, free j = true := by
  constructor
  · intro same j member
    rw [← same, setAll_apply, if_pos member]
  · intro already
    funext j
    rw [setAll_apply]
    split_ifs with member
    · exact (already j member).symm
    · rfl

def nextElem (bd : BlockDevice) : UsedElem := bd.queue.used.ring (slot 8 bd.ackUsedIdx)

/-- The round ends and changes no free bit, request head or descriptor. -/
def Harmless (bd : BlockDevice) : Prop :=
  ∃ bd', pendingStep bd = some bd' ∧ bd'.queue.free = bd.queue.free ∧
    bd'.queue.reqHead = bd.queue.reqHead ∧ bd'.queue.desc = bd.queue.desc

theorem pendingStep_outside {bd : BlockDevice} (outside : 8 ≤ (nextElem bd).id.toNat) :
    pendingStep bd = some { bd with ackUsedIdx := bd.ackUsedIdx + 1 } := by
  rw [pendingStep]
  exact dif_neg (not_lt.mpr outside)

theorem pendingStep_inside {bd : BlockDevice} (ascending : Ascending bd.queue.desc) {i : Index}
    (id : (nextElem bd).id.toNat = i) :
    pendingStep bd = some { bd with
      queue := { bd.queue with
        reqHead := Function.update bd.queue.reqHead i none
        free := setAll bd.queue.free (linked bd.queue.desc 8 i) true }
      ackUsedIdx := bd.ackUsedIdx + 1 } := by
  obtain ⟨head, small⟩ := i
  have inside : (nextElem bd).id.toNat < 8 := id ▸ small
  have walk := freeDescChain_linked ascending 8 ⟨head, small⟩ (Nat.le_add_left 8 _) bd.queue.free
  rw [pendingStep]
  refine (dif_pos inside).trans ?_
  unfold nextElem at id inside
  simp only at id
  subst id
  dsimp only
  rw [walk]

/-- For any used ring: a completion whose id is not the head of an outstanding request is
harmless exactly if its id is out of range or the links from it lead only to descriptors
that are free already. -/
theorem spurious_harmless_iff (s : Driver) (reached : driving.Reach s)
    (spurious : ∀ i : Index, (nextElem s.bd).id.toNat = i → s.bd.queue.reqHead i = none) :
    Harmless s.bd ↔
      ∀ i : Index, (nextElem s.bd).id.toNat = i →
        ∀ j ∈ linked s.bd.queue.desc 8 i, s.bd.queue.free j = true := by
  have ascending := reach_ascending reached
  by_cases inside : (nextElem s.bd).id.toNat < 8
  · have id : (nextElem s.bd).id.toNat = (⟨(nextElem s.bd).id.toNat, inside⟩ : Index) := rfl
    generalize (⟨(nextElem s.bd).id.toNat, inside⟩ : Index) = head at id
    have result := pendingStep_inside ascending id
    rw [Harmless, result]
    constructor
    · rintro ⟨bd', taken, free, _⟩ i same
      obtain rfl : i = head := Fin.ext (same.symm.trans id)
      cases taken
      exact (setAll_true_eq_iff _ _).mp free
    · intro already
      refine ⟨_, rfl, (setAll_true_eq_iff _ _).mpr (already head id), ?_, rfl⟩
      exact Function.update_eq_self_iff.mpr (spurious head id).symm
  · rw [Harmless, pendingStep_outside (not_lt.mp inside)]
    constructor
    · intro _ i id
      exact absurd (id ▸ i.isLt) inside
    · intro _
      exact ⟨_, rfl, rfl, rfl, rfl⟩

/-! ## A spurious completion that does harm -/

def oneSector : Op := ⟨0x80010000, 512, 0, false⟩

def freshDriver : Driver :=
  ⟨⟨some 0x10001000, ⟨fun _ => zeroDescriptor, ⟨0, fun _ => 0⟩, ⟨0, fun _ => ⟨0, 0⟩⟩,
    fun _ => true, fun _ => none⟩, 0, false⟩, ⟨fun _ => ⟨⟨0, 0, 0⟩, 0⟩, fun _ => 0⟩⟩

theorem freshDriver_initial : Initial freshDriver :=
  ⟨rfl, fun _ => rfl, fun _ => rfl, fun _ => rfl⟩

def oneRequest (count : BitVec 16) (id : BitVec 32) : List Action :=
  [.submit (some 0x80020000) oneSector,
    .device ⟨count, fun _ => ⟨id, 0⟩⟩ ⟨fun _ => ⟨⟨0, 0, 0⟩, 0⟩, fun _ => 0⟩]

theorem freeDescChain_ends_after_spurious :
    ∃ s : Driver, driving.Reach s ∧ s.bd.queue.reqHead 0 = some 0x80020000 ∧
      ∃ free, freeDescChain s.bd.queue.desc 8 s.bd.queue.free 1 = .done free := by
  have ran : (driving.run freshDriver (oneRequest 1 1 ++ [.drain])).map (fun s : Driver =>
      s.bd.queue.reqHead 0) = some (some 0x80020000) := by
    decide +kernel
  obtain ⟨s, ends, outstanding⟩ := Option.map_eq_some_iff.mp ran
  have reached : driving.Reach s := (System.Reach.start freshDriver_initial).run ends
  exact ⟨s, reached, outstanding, _,
    (freeDescChain_ends_in_range s reached 1 (by decide)).1 8 (le_refl 8)⟩

theorem spurious_harmless_iff_repeated :
    ∃ s : Driver, driving.Reach s ∧ s.bd.ackUsedIdx ≠ s.bd.queue.used.idx ∧ Harmless s.bd := by
  have ran : (driving.run freshDriver (oneRequest 2 0 ++ [.drain])).map (fun s : Driver =>
      decide (s.bd.ackUsedIdx ≠ s.bd.queue.used.idx ∧
        ∀ i : Index, (nextElem s.bd).id.toNat = i → s.bd.queue.reqHead i = none ∧
          ∀ j ∈ linked s.bd.queue.desc 8 i, s.bd.queue.free j = true)) = some true := by
    decide +kernel
  obtain ⟨s, ends, facts⟩ := Option.map_eq_some_iff.mp ran
  rw [decide_eq_true_eq] at facts
  obtain ⟨behind, released⟩ := facts
  have reached : driving.Reach s := (System.Reach.start freshDriver_initial).run ends
  exact ⟨s, reached, behind, (spurious_harmless_iff s reached fun i id =>
    (released i id).1).mpr fun i id => (released i id).2⟩

/-- Id 1 heads no request, yet its completion frees two descriptors of the request that is
still outstanding at head 0. -/
theorem spurious_frees_outstanding :
    ∃ (s : Driver) (bd' : BlockDevice), driving.Reach s ∧
      s.bd.ackUsedIdx ≠ s.bd.queue.used.idx ∧
      (nextElem s.bd).id = 1 ∧ s.bd.queue.reqHead 1 = none ∧
      s.bd.queue.reqHead 0 = some 0x80020000 ∧ linked s.bd.queue.desc 8 0 = [0, 1, 2] ∧
      s.bd.queue.free 1 = false ∧ s.bd.queue.free 2 = false ∧
      pendingStep s.bd = some bd' ∧ bd'.queue.reqHead 0 = some 0x80020000 ∧
      bd'.queue.free 1 = true ∧ bd'.queue.free 2 = true ∧ ¬ Harmless s.bd := by
  have ran : (driving.run freshDriver (oneRequest 1 1)).map (fun s : Driver =>
      (decide (s.bd.ackUsedIdx ≠ s.bd.queue.used.idx ∧ (nextElem s.bd).id = 1 ∧
          s.bd.queue.reqHead 1 = none ∧ s.bd.queue.reqHead 0 = some 0x80020000 ∧
          linked s.bd.queue.desc 8 0 = [0, 1, 2] ∧
          s.bd.queue.free 1 = false ∧ s.bd.queue.free 2 = false),
        (pendingStep s.bd).map fun bd' =>
          (bd'.queue.reqHead 0, bd'.queue.free 1, bd'.queue.free 2))) =
      some (true, some (some 0x80020000, true, true)) := by
    decide +kernel
  obtain ⟨s, ends, facts⟩ := Option.map_eq_some_iff.mp ran
  obtain ⟨before, after⟩ := Prod.mk.inj facts
  rw [decide_eq_true_eq] at before
  obtain ⟨behind, id, noHead, outstanding, chain, first, second⟩ := before
  obtain ⟨bd', taken, result⟩ := Option.map_eq_some_iff.mp after
  simp only [Prod.mk.injEq] at result
  obtain ⟨still, freed, alsoFreed⟩ := result
  refine ⟨s, bd', (System.Reach.start freshDriver_initial).run ends, behind, id, noHead,
    outstanding, chain, first, second, taken, still, freed, alsoFreed, ?_⟩
  rintro ⟨bd'', taken', unchanged, _⟩
  rw [taken, Option.some.injEq] at taken'
  rw [← taken'] at unchanged
  rw [unchanged, first] at freed
  cases freed

end Vesper.Virtio.Spurious
