import Mathlib.Tactic
import Vesper.Virtio.Exchange

/-!
# Descriptor ownership

Chains are recorded nowhere in the driver: `free_desc_chain` finds them again in descriptor
memory.  `Owned` says that the descriptor table, the free table and the request heads are
those of a list of pairwise disjoint chains, each stored in full; the three operations on
chains keep it.
-/

set_option autoImplicit false

namespace Vesper.Virtio

open Vesper.Lib.WrapRing (slot)

structure Owned (q : QueueState) (chains : List Chain) : Prop where
  disjoint : (chains.flatMap Chain.members).Nodup
  free_iff : ∀ i, q.free i = true ↔ i ∉ chains.flatMap Chain.members
  stored : ∀ c ∈ chains, Stored q.desc c.slots c.page c.op
  reqHead : ∀ i page, q.reqHead i = some page ↔ ∃ c ∈ chains, c.slots.head = i ∧ c.page = page

theorem Chain.head_mem (c : Chain) : c.slots.head ∈ c.members := by
  simp [Chain.members, Slots.members]

theorem Chain.members_length (c : Chain) : c.members.length = 3 := rfl

namespace Owned

variable {q : QueueState} {chains before after : List Chain}

theorem member_apart (owned : Owned q chains) {c d : Chain} (left : c ∈ chains)
    (right : d ∈ chains) (apart : c ≠ d) {i : Index} (member : i ∈ c.members) :
    i ∉ d.members := by
  have pairwise := (List.nodup_flatMap.mp owned.disjoint).2
  have : Std.Symm (Function.onFun List.Disjoint Chain.members) :=
    ⟨fun _ _ disjoint => disjoint.symm⟩
  exact pairwise.forall left right apart member

theorem head_inj (owned : Owned q chains) {c d : Chain} (left : c ∈ chains) (right : d ∈ chains)
    (same : c.slots.head = d.slots.head) : c = d := by
  by_contra apart
  have absent := owned.member_apart left right apart c.head_mem
  rw [same] at absent
  exact absent d.head_mem

theorem not_free (owned : Owned q chains) {c : Chain} (member : c ∈ chains) {i : Index}
    (own : i ∈ c.members) : q.free i ≠ true := by
  intro isFree
  exact (owned.free_iff i).mp isFree (List.mem_flatMap.mpr ⟨c, member, own⟩)

/-- The bound on outstanding requests comes from the descriptors alone. -/
theorem length_le (owned : Owned q chains) : chains.length ≤ 2 := by
  have count : (chains.flatMap Chain.members).length = 3 * chains.length := by
    simp [List.length_flatMap, Chain.members_length, Nat.mul_comm]
  have bound := owned.disjoint.length_le_card
  rw [count, Fintype.card_fin] at bound
  omega

theorem finds_free (owned : Owned q chains) (room : chains.length ≤ 1) {got : List Index}
    (all : ∀ i, q.free i = true → i ∈ got) : 3 ≤ got.length := by
  have cover : ∀ i : Index, i ∈ chains.flatMap Chain.members ++ got := by
    intro i
    by_cases owns : i ∈ chains.flatMap Chain.members
    · exact List.mem_append_left _ owns
    · exact List.mem_append_right _ (all i ((owned.free_iff i).mpr owns))
  have sub : List.finRange 8 ⊆ chains.flatMap Chain.members ++ got := fun i _ => cover i
  have count := ((List.nodup_finRange 8).subperm sub).length_le
  simp only [List.length_finRange, List.length_append, List.length_flatMap,
    Chain.members_length, List.map_const', List.sum_replicate, smul_eq_mul] at count
  omega

theorem empty {q : QueueState} (free : ∀ i, q.free i = true) (heads : ∀ i, q.reqHead i = none) :
    Owned q [] where
  disjoint := by simp
  free_iff := by simpa using free
  stored := by simp
  reqHead := by simp [heads]

theorem claim (owned : Owned q chains) {sl : Slots} (distinct : sl.members.Nodup)
    (free : ∀ i ∈ sl.members, q.free i = true) (id page : Nat) (op : Op) :
    Owned (claimed q sl page op) (chains ++ [⟨sl, id, page, op⟩]) where
  disjoint := by
    rw [List.flatMap_append, List.nodup_append']
    refine ⟨owned.disjoint, by simpa [Chain.members] using distinct, ?_⟩
    intro i own new
    simp only [List.flatMap_singleton, Chain.members] at new
    exact (owned.free_iff i).mp (free i new) own
  free_iff := by
    intro i
    simp only [claimed, expose, writeChain, setAll_apply, List.flatMap_append,
      List.flatMap_singleton, List.mem_append, not_or]
    by_cases new : i ∈ sl.members
    · simp [new, Chain.members]
    · simp [new, Chain.members, owned.free_iff i]
  stored := by
    intro c member
    rcases List.mem_append.mp member with old | new
    · have kept : ∀ i ∈ c.members, (claimed q sl page op).desc i = q.desc i := by
        intro i own
        have apart : i ∉ sl.members := fun new => owned.not_free old own (free i new)
        simp only [Slots.members, List.mem_cons, List.not_mem_nil, or_false, not_or] at apart
        simp [claimed, expose, writeChain, apart.1, apart.2.1, apart.2.2]
      have had := owned.stored c old
      refine ⟨?_, ?_, ?_⟩
      · rw [kept _ c.head_mem, had.head]
      · rw [kept _ (by simp [Chain.members, Slots.members]), had.data]
      · rw [kept _ (by simp [Chain.members, Slots.members]), had.stat]
    · rw [List.mem_singleton.mp new]
      simp only [Slots.members, List.nodup_cons, List.mem_cons, List.not_mem_nil, or_false,
        not_or, not_false_eq_true, List.nodup_nil, and_true] at distinct
      refine ⟨?_, ?_, ?_⟩
      · simp [claimed, expose, writeChain, distinct.1.1, distinct.1.2]
      · simp [claimed, expose, writeChain, distinct.2]
      · simp [claimed, expose, writeChain]
  reqHead := by
    intro i p
    have unused : ∀ c ∈ chains, c.slots.head ≠ sl.head := by
      intro c member same
      apply owned.not_free member c.head_mem
      rw [same]
      exact free _ (by simp [Slots.members])
    by_cases new : i = sl.head
    · subst new
      simp only [claimed, expose, writeChain, Function.update_self, Option.some.injEq,
        List.mem_append, List.mem_singleton]
      constructor
      · intro same
        exact ⟨_, Or.inr rfl, rfl, same⟩
      · rintro ⟨c, old | last, head, same⟩
        · exact absurd head (unused c old)
        · rw [← same, last]
    · simp only [claimed, expose, writeChain, Function.update_of_ne new, owned.reqHead i p,
        List.mem_append, List.mem_singleton]
      constructor
      · rintro ⟨c, old, same⟩
        exact ⟨c, Or.inl old, same⟩
      · rintro ⟨c, old | last, head, same⟩
        · exact ⟨c, old, head, same⟩
        · rw [last] at head
          exact absurd head.symm new

theorem rest_apart {c : Chain} (owned : Owned q (before ++ c :: after)) {i : Index}
    (own : i ∈ c.members) : i ∉ (before ++ after).flatMap Chain.members := by
  have distinct := owned.disjoint
  simp only [List.flatMap_append, List.flatMap_cons] at distinct ⊢
  obtain ⟨-, rest, front⟩ := List.nodup_append'.mp distinct
  obtain ⟨-, -, back⟩ := List.nodup_append'.mp rest
  intro member
  rcases List.mem_append.mp member with first | last
  · exact front first (List.mem_append_left _ own)
  · exact back own last

theorem release {c : Chain} (owned : Owned q (before ++ c :: after)) :
    Owned { q with reqHead := Function.update q.reqHead c.slots.head none,
                   free := setAll q.free c.members true } (before ++ after) where
  disjoint := by
    have had := owned.disjoint
    simp only [List.flatMap_append, List.flatMap_cons] at had ⊢
    exact had.sublist ((List.sublist_append_right _ _).append_left _)
  free_iff := by
    intro i
    have had := owned.free_iff i
    simp only [List.flatMap_append, List.flatMap_cons, List.mem_append, not_or] at had
    simp only [setAll_apply]
    by_cases own : i ∈ c.members
    · simpa [own] using owned.rest_apart own
    · simp [own, had, List.flatMap_append]
  stored := fun d member => owned.stored d (by
    rcases List.mem_append.mp member with first | last
    · simp [first]
    · simp [last])
  reqHead := by
    intro i page
    have others : ∀ d ∈ before ++ after, d.slots.head ≠ c.slots.head := by
      intro d member same
      apply owned.rest_apart c.head_mem
      rw [← same]
      exact List.mem_flatMap.mpr ⟨d, member, d.head_mem⟩
    by_cases own : i = c.slots.head
    · subst own
      simp only [Function.update_self, reduceCtorEq, false_iff, not_exists, not_and]
      intro d member same
      exact absurd same (others d member)
    · simp only [Function.update_of_ne own, owned.reqHead i page]
      constructor
      · rintro ⟨d, member, head, same⟩
        refine ⟨d, ?_, head, same⟩
        simp only [List.mem_append, List.mem_cons] at member ⊢
        rcases member with first | rfl | last
        · exact Or.inl first
        · exact absurd head.symm own
        · exact Or.inr last
      · rintro ⟨d, member, rest⟩
        refine ⟨d, ?_, rest⟩
        simp only [List.mem_append, List.mem_cons] at member ⊢
        exact member.imp_right Or.inr

end Owned

end Vesper.Virtio
