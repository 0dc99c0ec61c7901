import Mathlib.Data.List.Basic
import Mathlib.Tactic

/-!
# Trees reached by paths

Nodes are found from a root by following labelled child pointers.  The pointers form a
tree up to a depth when no node is reached by two paths.  Following a path only reads
the pointers of reached nodes, and hanging a fresh childless node under a free label
keeps the tree and changes exactly one path.
-/

set_option autoImplicit false

namespace Vesper.Lib.PathTree

variable {Node Label : Type} {child child' : Node → Label → Option Node}
  {root : Node} {depth : Nat}

def follow (child : Node → Label → Option Node) (root : Node) : List Label → Option Node
  | [] => some root
  | label :: rest => (child root label).bind fun next => follow child next rest

/-- No node is reached by two paths of length at most `depth`. -/
def IsTree (child : Node → Label → Option Node) (root : Node) (depth : Nat) : Prop :=
  ∀ p q node, p.length ≤ depth → q.length ≤ depth →
    follow child root p = some node → follow child root q = some node → p = q

def Reached (child : Node → Label → Option Node) (root : Node) (depth : Nat) : Set Node :=
  {node | ∃ p, p.length ≤ depth ∧ follow child root p = some node}

@[simp] theorem follow_nil : follow child root [] = some root := rfl

theorem follow_append (p q : List Label) :
    follow child root (p ++ q) =
      (follow child root p).bind fun node => follow child node q := by
  induction p generalizing root with
  | nil => rfl
  | cons label rest ih =>
      simp only [List.cons_append, follow]
      cases child root label with
      | none => rfl
      | some next => exact ih

theorem follow_snoc (p : List Label) (label : Label) :
    follow child root (p ++ [label]) =
      (follow child root p).bind fun node => child node label := by
  rw [follow_append]
  cases follow child root p with
  | none => rfl
  | some node =>
      simp only [Option.bind_some, follow]
      cases child node label <;> rfl

theorem follow_mem_reached {p : List Label} {node : Node} (short : p.length ≤ depth)
    (reaches : follow child root p = some node) : node ∈ Reached child root depth :=
  ⟨p, short, reaches⟩

theorem follow_congr
    (same : ∀ node ∈ Reached child root depth, ∀ label,
      child' node label = child node label)
    {p : List Label} (short : p.length ≤ depth + 1) :
    follow child' root p = follow child root p := by
  induction p using List.reverseRecOn with
  | nil => rfl
  | append_singleton p label ih =>
      rw [List.length_append, List.length_singleton] at short
      rw [follow_snoc, follow_snoc, ih (by omega)]
      cases reaches : follow child root p with
      | none => rfl
      | some node =>
          exact same node (follow_mem_reached (by omega) reaches) label

section Graft
variable {parent fresh : Node} {place : List Label} {slot : Label}

/-- `child'` is `child` with the childless node `fresh`, not reached before, hung under
`slot` of the node at `place`. -/
structure Graft (child child' : Node → Label → Option Node) (root : Node) (depth : Nat)
    (place : List Label) (parent : Node) (slot : Label) (fresh : Node) : Prop where
  short : place.length < depth
  reaches : follow child root place = some parent
  empty : child parent slot = none
  notReached : fresh ∉ Reached child root depth
  same : ∀ node ∈ Reached child root depth, ∀ label,
    ¬ (node = parent ∧ label = slot) → child' node label = child node label
  hung : child' parent slot = some fresh
  childless : ∀ label, child' fresh label = none

theorem Graft.follow_eq (graft : Graft child child' root depth place parent slot fresh)
    (tree : IsTree child root depth) {p : List Label} (short : p.length ≤ depth) :
    (p = place ++ [slot] ∧ follow child' root p = some fresh) ∨
      (p ≠ place ++ [slot] ∧ follow child' root p = follow child root p) := by
  induction p using List.reverseRecOn with
  | nil =>
      refine .inr ⟨?_, rfl⟩
      intro empty
      have length := congrArg List.length empty
      simp at length
  | append_singleton p label ih =>
      rw [List.length_append, List.length_singleton] at short
      rw [follow_snoc, follow_snoc]
      rcases ih (by omega) with ⟨rfl, atFresh⟩ | ⟨_, same⟩
      · -- below the new node there is nothing, before and after
        refine .inr ⟨?_, ?_⟩
        · intro again
          have length := congrArg List.length again
          simp at length
        · rw [atFresh, follow_snoc, graft.reaches]
          simp [graft.childless, graft.empty]
      · rw [same]
        by_cases here : p ++ [label] = place ++ [slot]
        · obtain ⟨rfl, labels⟩ := List.append_inj' here rfl
          obtain rfl : label = slot := by simpa using labels
          refine .inl ⟨rfl, ?_⟩
          rw [graft.reaches]
          exact graft.hung
        · refine .inr ⟨here, ?_⟩
          cases reaches : follow child root p with
          | none => rfl
          | some node =>
              apply graft.same node (follow_mem_reached (by omega) reaches)
              rintro ⟨rfl, rfl⟩
              have places := tree p place node (by omega) (by have := graft.short; omega)
                reaches graft.reaches
              exact here (by rw [places])

theorem Graft.isTree (graft : Graft child child' root depth place parent slot fresh)
    (tree : IsTree child root depth) : IsTree child' root depth := by
  intro p q node pShort qShort pReaches qReaches
  rcases graft.follow_eq tree pShort with ⟨pHere, pFresh⟩ | ⟨_, pSame⟩
  · rcases graft.follow_eq tree qShort with ⟨qHere, _⟩ | ⟨_, qSame⟩
    · rw [pHere, qHere]
    · rw [pFresh, Option.some.injEq] at pReaches
      rw [qSame, ← pReaches] at qReaches
      exact absurd (follow_mem_reached qShort qReaches) graft.notReached
  · rcases graft.follow_eq tree qShort with ⟨_, qFresh⟩ | ⟨_, qSame⟩
    · rw [qFresh, Option.some.injEq] at qReaches
      rw [pSame, ← qReaches] at pReaches
      exact absurd (follow_mem_reached pShort pReaches) graft.notReached
    · exact tree p q node pShort qShort (pSame ▸ pReaches) (qSame ▸ qReaches)

theorem Graft.reached_subset (graft : Graft child child' root depth place parent slot fresh)
    (tree : IsTree child root depth) :
    Reached child' root depth ⊆ insert fresh (Reached child root depth) := by
  rintro node ⟨p, short, reaches⟩
  rcases graft.follow_eq tree short with ⟨_, atFresh⟩ | ⟨_, same⟩
  · rw [atFresh, Option.some.injEq] at reaches
    exact .inl reaches.symm
  · rw [same] at reaches
    exact .inr ⟨p, short, reaches⟩

theorem Graft.reached_eq (graft : Graft child child' root depth place parent slot fresh)
    (tree : IsTree child root depth) :
    Reached child' root depth = insert fresh (Reached child root depth) := by
  apply Set.Subset.antisymm (graft.reached_subset tree)
  rintro node (rfl | ⟨p, short, reaches⟩)
  · refine ⟨place ++ [slot], ?_, ?_⟩
    · rw [List.length_append, List.length_singleton]
      exact graft.short
    · rcases graft.follow_eq tree (p := place ++ [slot]) (by
        rw [List.length_append, List.length_singleton]; exact graft.short) with
        ⟨_, atFresh⟩ | ⟨other, _⟩
      · exact atFresh
      · exact absurd rfl other
  · rcases graft.follow_eq tree short with ⟨rfl, _⟩ | ⟨_, same⟩
    · rw [follow_snoc, graft.reaches, Option.bind_some, graft.empty] at reaches
      cases reaches
    · exact ⟨p, short, same.trans reaches⟩

end Graft

/-! ## Listing the nodes below a node -/

section PostOrder
variable {labels : List Label} {node : Node}

/-- The nodes below `node` down to `depth` levels, children before their parent. -/
def postOrder (child : Node → Label → Option Node) (labels : List Label) :
    Nat → Node → List Node
  | 0, _ => []
  | depth + 1, node => labels.flatMap fun label =>
      match child node label with
      | none => []
      | some next => postOrder child labels depth next ++ [next]

theorem mem_postOrder (all : ∀ label, label ∈ labels) {x : Node} :
    x ∈ postOrder child labels depth node ↔
      ∃ p, p ≠ [] ∧ p.length ≤ depth ∧ follow child node p = some x := by
  induction depth generalizing node with
  | zero =>
      constructor
      · intro member
        cases member
      · rintro ⟨p, nonempty, short, _⟩
        exact absurd (List.length_eq_zero_iff.mp (Nat.le_zero.mp short)) nonempty
  | succ depth ih =>
      rw [postOrder, List.mem_flatMap]
      constructor
      · rintro ⟨label, _, member⟩
        cases pointer : child node label with
        | none =>
            rw [pointer] at member
            cases member
        | some next =>
            rw [pointer, List.mem_append, List.mem_singleton, ih] at member
            rcases member with ⟨p, _, short, reaches⟩ | rfl
            · refine ⟨label :: p, by simp, by simpa using short, ?_⟩
              simpa [follow, pointer] using reaches
            · exact ⟨[label], by simp, by simp, by simp [follow, pointer]⟩
      · rintro ⟨p, nonempty, short, reaches⟩
        cases p with
        | nil => exact absurd rfl nonempty
        | cons label rest =>
            obtain ⟨next, pointer, tail⟩ := Option.bind_eq_some_iff.mp reaches
            refine ⟨label, all label, ?_⟩
            rw [pointer, List.mem_append, List.mem_singleton, ih]
            cases rest with
            | nil => exact .inr (Option.some.inj tail).symm
            | cons l ls => exact .inl ⟨l :: ls, by simp, by simpa using short, tail⟩

theorem IsTree.below {label : Label} {next : Node} (tree : IsTree child node (depth + 1))
    (pointer : child node label = some next) : IsTree child next depth := by
  have step : ∀ p, follow child node (label :: p) = follow child next p := by
    intro p
    rw [follow, pointer, Option.bind_some]
  intro p q x pShort qShort pReaches qReaches
  have same := tree (label :: p) (label :: q) x (by simpa using pShort) (by simpa using qShort)
    ((step p).trans pReaches) ((step q).trans qReaches)
  exact List.tail_eq_of_cons_eq same

theorem postOrder_nodup (all : ∀ label, label ∈ labels) (distinct : labels.Nodup)
    (tree : IsTree child node depth) : (postOrder child labels depth node).Nodup := by
  induction depth generalizing node with
  | zero => exact List.nodup_nil
  | succ depth ih =>
      -- what the part for one label holds is reached by a path that starts with it
      have starts : ∀ label x,
          x ∈ (match child node label with
            | none => []
            | some next => postOrder child labels depth next ++ [next]) →
          ∃ p, p.length ≤ depth ∧ follow child node (label :: p) = some x := by
        intro label x member
        cases pointer : child node label with
        | none =>
            rw [pointer] at member
            cases member
        | some next =>
            rw [pointer, List.mem_append, List.mem_singleton, mem_postOrder all] at member
            rcases member with ⟨p, _, short, reaches⟩ | rfl
            · exact ⟨p, short, by simpa [follow, pointer] using reaches⟩
            · exact ⟨[], by simp, by simp [follow, pointer]⟩
      rw [postOrder, List.nodup_flatMap]
      refine ⟨?_, ?_⟩
      · intro label _
        cases pointer : child node label with
        | none => exact List.nodup_nil
        | some next =>
            have subtree := tree.below pointer
            rw [List.nodup_append]
            refine ⟨ih subtree, List.nodup_singleton _, ?_⟩
            intro x member y isNext same
            rw [List.mem_singleton] at isNext
            rw [same, isNext, mem_postOrder all] at member
            obtain ⟨p, nonempty, short, reaches⟩ := member
            exact nonempty (subtree p [] next short (Nat.zero_le _) reaches rfl)
      · refine distinct.imp_of_mem ?_
        intro left right _ _ apart x inLeft inRight
        obtain ⟨p, pShort, pReaches⟩ := starts left x inLeft
        obtain ⟨q, qShort, qReaches⟩ := starts right x inRight
        have same := tree (left :: p) (right :: q) x (by simpa using pShort)
          (by simpa using qShort) pReaches qReaches
        exact apart (List.head_eq_of_cons_eq same)

end PostOrder

end Vesper.Lib.PathTree
