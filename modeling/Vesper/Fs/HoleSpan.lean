import Mathlib.Tactic
import Vesper.Lib.Spans
import Vesper.Fs.ZoneStream

/-!
# How many bytes a stream can make the reader copy

A zero data pointer sets the cursor to the end of its block, also when that end lies
before the requested window.  `transferred` counts the bytes a pass copies if nothing
fails; `HolesFit` is the condition on the stream under which they stay within the
window: behind every hole that ends before the offset, the blocks that are present hold
no more bytes below the end of the window than were asked for.
-/

set_option autoImplicit false

namespace Vesper.Minix3

open Vesper.Lib

variable {read : Nat → Block} {inode : Inode} {offset stop : Nat}

def orderedCourse : Course Item where
  idle a b := a ≤ b
  step a item b :=
    match item with
    | .load _ => b = a
    | .slot _ _ block => a ≤ block ∧ b = block + 1
  refl := le_refl
  trans _ _ _ := le_trans
  absorb a b c item idle step := by
    cases item with
    | load zone => exact ⟨a, rfl, step ▸ idle⟩
    | slot pos zone block => exact ⟨c, ⟨idle.trans step.1, step.2⟩, le_refl c⟩

abbrev Ordered : List Item → Nat → Nat → Prop := Spans orderedCourse

theorem Ordered.slot {pos : Pos} {zone block : Nat} :
    Ordered [.slot pos zone block] block (block + 1) :=
  ⟨block + 1, ⟨le_refl block, rfl⟩, le_refl (block + 1)⟩

theorem Ordered.subtree {zone base w : Nat} {items : Nat → Nat → List Item}
    (each : ∀ i z, Ordered (items i z) (base + i * w) (base + (i + 1) * w)) :
    Ordered (Minix3.subtree read zone items) base (base + 256 * w) := by
  unfold Minix3.subtree
  split_ifs with absent
  · exact Nat.le_add_right base (256 * w)
  · exact ⟨base, rfl, Spans.flatMap_zero fun i _ => each i _⟩

theorem directItems_ordered : Ordered (directItems inode) 0 7 := by
  have loop : Ordered (directItems inode) 0 (0 + numDirectZones * 1) := by
    apply Spans.flatMap_zero
    intro i _
    rw [Nat.mul_one, Nat.mul_one, Nat.zero_add, Nat.zero_add]
    exact Ordered.slot
  exact loop

theorem singleItems_ordered : Ordered (singleItems read inode) 7 263 := by
  refine Ordered.subtree (w := 1) fun i z => ?_
  rw [Nat.mul_one, Nat.mul_one]
  exact Ordered.slot

theorem doubleItems_ordered : Ordered (doubleItems read inode) 263 (tripleBase inode) := by
  by_cases absent : inode.zone (numDirectZones + 1) = 0
  · rw [doubleItems, tripleBase, subtree, if_pos absent, if_pos absent]
    exact le_refl 263
  · rw [tripleBase, if_neg absent]
    refine Ordered.subtree (w := 256) fun i dz => ?_
    rw [show 263 + (i + 1) * 256 = 263 + i * 256 + 256 * 1 by ring]
    refine Ordered.subtree fun j z => ?_
    rw [Nat.mul_one, Nat.mul_one]
    exact Ordered.slot

theorem tripleItems_ordered :
    Ordered (tripleItems read inode) (tripleBase inode) (tripleBase inode + 256 * 65536) := by
  refine Ordered.subtree fun i tz => ?_
  rw [show tripleBase inode + (i + 1) * 65536 = tripleBase inode + i * 65536 + 256 * 256
    by ring]
  refine Ordered.subtree fun j dz => ?_
  rw [show tripleBase inode + i * 65536 + (j + 1) * 256 =
    tripleBase inode + i * 65536 + j * 256 + 256 * 1 by ring]
  refine Ordered.subtree fun k z => ?_
  rw [Nat.mul_one, Nat.mul_one]
  exact Ordered.slot

theorem stream_ordered (read : Nat → Block) (inode : Inode) :
    Ordered (stream read inode) 0 (tripleBase inode + 256 * 65536) :=
  ((directItems_ordered.append singleItems_ordered).append doubleItems_ordered).append
    tripleItems_ordered

theorem Ordered.le {items : List Item} {a b : Nat} (ordered : Ordered items a b) : a ≤ b := by
  induction items generalizing a with
  | nil => exact ordered
  | cons item rest ih =>
      obtain ⟨c, step, tail⟩ := ordered
      have reach := ih tail
      cases item with
      | load zone =>
          change c = a at step
          omega
      | slot pos zone block =>
          change a ≤ block ∧ c = block + 1 at step
          omega

theorem Ordered.block_bounds {items : List Item} {a b : Nat} (ordered : Ordered items a b)
    {pos : Pos} {zone block : Nat} (member : Item.slot pos zone block ∈ items) :
    a ≤ block ∧ block < b := by
  induction items generalizing a with
  | nil => cases member
  | cons item rest ih =>
      obtain ⟨c, step, tail⟩ := ordered
      have reach := Ordered.le tail
      cases member with
      | head =>
          change a ≤ block ∧ c = block + 1 at step
          omega
      | tail _ later =>
          have bounds := ih tail later
          cases item with
          | load zone' =>
              change c = a at step
              omega
          | slot pos' zone' block' =>
              change a ≤ block' ∧ c = block' + 1 at step
              omega

theorem Ordered.behind {before behind : List Item} {pos : Pos} {zone block a b : Nat}
    (ordered : Ordered (before ++ .slot pos zone block :: behind) a b) :
    Ordered behind (block + 1) b := by
  induction before generalizing a with
  | nil =>
      obtain ⟨c, ⟨_, rfl⟩, tail⟩ := ordered
      exact tail
  | cons item rest ih =>
      obtain ⟨c, step, tail⟩ := ordered
      exact ih tail

/-- The bytes one pass copies, from cursor `cur`, if no call fails. -/
def transferred (stop : Nat) : Nat → List Item → Nat
  | _, [] => 0
  | cur, .load _ :: rest => transferred stop cur rest
  | cur, .slot _ zone block :: rest =>
      let blockEnd := (block + 1) * blockSize
      if zone = 0 then transferred stop blockEnd rest
      else if blockEnd ≤ cur then transferred stop cur rest
      else min blockEnd stop - min cur stop + transferred stop blockEnd rest

/-- The bytes below `stop` in the blocks of `items` that are present, each counted from
the end of the block visited before it. -/
def dataBelow (stop : Nat) : Nat → List Item → Nat
  | _, [] => 0
  | cur, .load _ :: rest => dataBelow stop cur rest
  | cur, .slot _ zone block :: rest =>
      let blockEnd := (block + 1) * blockSize
      (if zone = 0 then 0 else min blockEnd stop - min cur stop) + dataBelow stop blockEnd rest

/-- Behind every hole that ends before `offset` there are at most `limit` bytes of data
below `offset + want`. -/
def HolesWithin (limit offset want : Nat) (items : List Item) : Prop :=
  ∀ before pos block behind, items = before ++ .slot pos 0 block :: behind →
    (block + 1) * blockSize < offset →
    dataBelow (offset + want) ((block + 1) * blockSize) behind ≤ limit

def HolesFit (offset want : Nat) (items : List Item) : Prop := HolesWithin want offset want items

theorem transferred_append_hole (cur : Nat) (before : List Item) (pos : Pos) (block : Nat)
    (behind : List Item) :
    transferred stop ((block + 1) * blockSize) behind ≤
      transferred stop cur (before ++ .slot pos 0 block :: behind) := by
  induction before generalizing cur with
  | nil => simp [transferred]
  | cons item rest ih =>
      cases item with
      | load zone => exact ih cur
      | slot pos' zone block' =>
          simp only [List.cons_append, transferred]
          split_ifs with hole early
          · exact ih _
          · exact ih _
          · exact (ih _).trans (Nat.le_add_left _ _)

/-- Once the cursor does not lie ahead of the walk, every present block is copied. -/
theorem transferred_eq_dataBelow {items : List Item} {cur a b : Nat}
    (ordered : Ordered items a b) (behind : cur ≤ a * blockSize) :
    transferred stop cur items = dataBelow stop cur items := by
  induction items generalizing cur a with
  | nil => rfl
  | cons item rest ih =>
      obtain ⟨c, step, tail⟩ := ordered
      cases item with
      | load zone =>
          change c = a at step
          subst step
          exact ih tail behind
      | slot pos zone block =>
          obtain ⟨low, rfl⟩ := step
          have next := ih tail (le_refl _)
          have ahead : ¬ (block + 1) * blockSize ≤ cur := by
            unfold blockSize at behind ⊢
            omega
          simp only [transferred, dataBelow, if_neg ahead, next]
          split_ifs with hole
          · rw [Nat.zero_add]
          · rfl

theorem transferred_past {items : List Item} {cur a b : Nat} (ordered : Ordered items a b)
    (behind : cur ≤ a * blockSize) (past : stop ≤ cur) : transferred stop cur items = 0 := by
  induction items generalizing cur a with
  | nil => rfl
  | cons item rest ih =>
      obtain ⟨c, step, tail⟩ := ordered
      cases item with
      | load zone =>
          change c = a at step
          subst step
          exact ih tail behind past
      | slot pos zone block =>
          obtain ⟨low, rfl⟩ := step
          have grows : cur ≤ (block + 1) * blockSize :=
            behind.trans (Nat.mul_le_mul_right _ (low.trans (Nat.le_succ block)))
          have next := ih tail (le_refl _) (past.trans grows)
          simp only [transferred, next]
          split_ifs with hole early
          · rfl
          · exact ih tail grows past
          · omega

theorem transferred_le_of_forward {items : List Item} {cur a b : Nat}
    (ordered : Ordered items a b) (behind : cur ≤ max offset (a * blockSize))
    (forward : ∀ pos block, Item.slot pos 0 block ∈ items → offset ≤ (block + 1) * blockSize) :
    transferred stop cur items ≤ stop - min cur stop := by
  induction items generalizing cur a with
  | nil => exact Nat.zero_le _
  | cons item rest ih =>
      obtain ⟨c, step, tail⟩ := ordered
      have later : ∀ pos block, Item.slot pos 0 block ∈ rest →
          offset ≤ (block + 1) * blockSize :=
        fun pos block member => forward pos block (List.mem_cons_of_mem _ member)
      cases item with
      | load zone =>
          change c = a at step
          subst step
          exact ih tail behind later
      | slot pos zone block =>
          obtain ⟨low, rfl⟩ := step
          have reach : a * blockSize ≤ (block + 1) * blockSize :=
            Nat.mul_le_mul_right _ (by omega)
          have next := ih tail (le_max_right offset _) later
          simp only [transferred]
          split_ifs with hole early
          · subst hole
            have := forward pos block List.mem_cons_self
            omega
          · exact ih tail (by omega) later
          · omega

/-- The bytes of a whole pass stay within a limit exactly if those behind the holes do. -/
theorem transferred_le_iff {items : List Item} {a b want limit : Nat}
    (ordered : Ordered items a b) (enough : want ≤ limit) :
    transferred (offset + want) offset items ≤ limit ↔ HolesWithin limit offset want items := by
  constructor
  · intro bound before pos block behind split early
    rw [split] at bound ordered
    rw [← transferred_eq_dataBelow (Ordered.behind ordered) (le_refl _)]
    exact (transferred_append_hole offset before pos block behind).trans bound
  · intro fit
    induction items generalizing a with
    | nil => exact Nat.zero_le _
    | cons item rest ih =>
        obtain ⟨c, step, tail⟩ := ordered
        have rest_fit : HolesWithin limit offset want rest := fun before pos block behind split =>
          fit (item :: before) pos block behind (by rw [split, List.cons_append])
        cases item with
        | load zone => exact ih tail rest_fit
        | slot pos zone block =>
            obtain ⟨low, rfl⟩ := step
            -- Behind a block that reaches the offset every hole does too.
            have forward (reached : offset ≤ (block + 1) * blockSize) :
                transferred (offset + want) ((block + 1) * blockSize) rest ≤
                  offset + want - min ((block + 1) * blockSize) (offset + want) := by
              apply transferred_le_of_forward tail (le_max_right offset _)
              intro pos' block' member
              have := (Ordered.block_bounds tail member).1
              calc offset ≤ (block + 1) * blockSize := reached
                _ ≤ (block' + 1) * blockSize := Nat.mul_le_mul_right _ (by omega)
            simp only [transferred]
            split_ifs with hole early
            · subst hole
              by_cases reached : offset ≤ (block + 1) * blockSize
              · have := forward reached
                omega
              · rw [transferred_eq_dataBelow tail (le_refl _)]
                exact fit [] pos block rest rfl (not_le.mp reached)
            · exact ih tail rest_fit
            · have := forward (by omega)
              omega

/-- Even behind a hole a pass copies no more bytes than lie below the end of the window. -/
theorem transferred_le_stop {items : List Item} {a b want : Nat} (ordered : Ordered items a b) :
    transferred (offset + want) offset items ≤ offset + want := by
  refine (transferred_le_iff ordered (Nat.le_add_left want offset)).mpr ?_
  intro before pos block behind split _
  rw [split] at ordered
  have later := Ordered.behind ordered
  rw [← transferred_eq_dataBelow later (le_refl _)]
  exact (transferred_le_of_forward later (le_max_right 0 _)
    fun _ _ _ => Nat.zero_le _).trans (Nat.sub_le _ _)

end Vesper.Minix3
