import Mathlib.Tactic
import Vesper.Lib.Spans
import Vesper.Fs.ZoneStream

/-!
# The Minix block map

`blockMap` gives the data zone of a file block by its position alone: 7 direct pointers,
then 256 below the single, `256 ^ 2` below the double and `256 ^ 3` below the triple
indirect pointer, with no zone if a pointer on the way is zero.  A file all of whose
blocks are mapped is walked densely: its stream visits block after block, each with the
zone of the map, at least up to the end of the file.
-/

set_option autoImplicit false

namespace Vesper.Minix3

open Vesper.Lib

def through (read : Nat → Block) (zone : Nat) : List Nat → Option Nat
  | [] => if zone = 0 then none else some zone
  | i :: rest => if zone = 0 then none else through read (ptr (read zone) i) rest

def blockMap (read : Nat → Block) (inode : Inode) (b : Nat) : Option Nat :=
  if b < 7 then through read (inode.zone b) []
  else if b < 7 + 256 then through read (inode.zone 7) [b - 7]
  else if b < 7 + 256 + 256 ^ 2 then
    let n := b - (7 + 256)
    through read (inode.zone 8) [n / 256, n % 256]
  else if b < 7 + 256 + 256 ^ 2 + 256 ^ 3 then
    let n := b - (7 + 256 + 256 ^ 2)
    through read (inode.zone 9) [n / 256 ^ 2, n / 256 % 256, n % 256]
  else none

/-- Every block that holds a byte of the file is mapped. -/
def Complete (read : Nat → Block) (inode : Inode) : Prop :=
  ∀ b, b * blockSize < inode.size.toNat → (blockMap read inode b).isSome

def fileByte (read : Nat → Block) (inode : Inode) (at_ : Nat) : BitVec 8 :=
  match blockMap read inode (at_ / blockSize) with
  | some zone => read zone (at_ % blockSize)
  | none => 0

variable {read : Nat → Block} {inode : Inode}

def target (read : Nat → Block) (zone : Nat) (path : List Nat) : Nat :=
  path.foldl (fun z i => ptr (read z) i) zone

def Linked (read : Nat → Block) (zone : Nat) : List Nat → Prop
  | [] => True
  | i :: rest => zone ≠ 0 ∧ Linked read (ptr (read zone) i) rest

theorem through_of_linked {zone : Nat} {path : List Nat} (linked : Linked read zone path) :
    through read zone path =
      if target read zone path = 0 then none else some (target read zone path) := by
  induction path generalizing zone with
  | nil => rfl
  | cons i rest ih =>
      rw [through, if_neg linked.1]
      exact ih linked.2

theorem linked_of_through {zone : Nat} {path : List Nat}
    (mapped : (through read zone path).isSome) : Linked read zone path := by
  induction path generalizing zone with
  | nil => trivial
  | cons i rest ih =>
      by_cases absent : zone = 0
      · simp [through, absent] at mapped
      · rw [through, if_neg absent] at mapped
        exact ⟨absent, ih mapped⟩

def route (inode : Inode) (b : Nat) : Nat × List Nat :=
  if b < 7 then (inode.zone b, [])
  else if b < 7 + 256 then (inode.zone 7, [b - 7])
  else if b < 7 + 256 + 256 ^ 2 then
    let n := b - (7 + 256)
    (inode.zone 8, [n / 256, n % 256])
  else
    let n := b - (7 + 256 + 256 ^ 2)
    (inode.zone 9, [n / 256 ^ 2, n / 256 % 256, n % 256])

theorem blockMap_eq_through {b : Nat} (bound : b < 16843015) :
    blockMap read inode b = through read (route inode b).1 (route inode b).2 := by
  unfold blockMap route
  split_ifs with direct single double triple
  · rfl
  · rfl
  · rfl
  · rfl
  · exact absurd bound triple

theorem route_direct {i : Nat} (bound : i < 7) : route inode i = (inode.zone i, []) :=
  if_pos bound

theorem route_single {i : Nat} (bound : i < 256) : route inode (7 + i) = (inode.zone 7, [i]) := by
  rw [route, if_neg (by omega), if_pos (by omega), Nat.add_sub_cancel_left]

theorem route_double {i j : Nat} (outer : i < 256) (inner : j < 256) :
    route inode (263 + i * 256 + j) = (inode.zone 8, [i, j]) := by
  rw [route, if_neg (by omega), if_neg (by omega), if_pos (by omega)]
  have quotient : (263 + i * 256 + j - (7 + 256)) / 256 = i := by omega
  have remainder : (263 + i * 256 + j - (7 + 256)) % 256 = j := by omega
  simp only [quotient, remainder]

theorem route_triple {i j k : Nat} (middle : j < 256) (inner : k < 256) :
    route inode (65799 + i * 65536 + j * 256 + k) = (inode.zone 9, [i, j, k]) := by
  rw [route, if_neg (by omega), if_neg (by omega), if_neg (by omega)]
  have first : (65799 + i * 65536 + j * 256 + k - (7 + 256 + 256 ^ 2)) / 256 ^ 2 = i := by
    omega
  have second : (65799 + i * 65536 + j * 256 + k - (7 + 256 + 256 ^ 2)) / 256 % 256 = j := by
    omega
  have third : (65799 + i * 65536 + j * 256 + k - (7 + 256 + 256 ^ 2)) % 256 = k := by
    omega
  simp only [first, second, third]

def pointer (read : Nat → Block) (inode : Inode) (b : Nat) : Nat :=
  target read (route inode b).1 (route inode b).2

/-- The indirect blocks above every block that holds a byte of the file are there. -/
def IndirectPresent (read : Nat → Block) (inode : Inode) : Prop :=
  ∀ b, b * blockSize < inode.size.toNat → Linked read (route inode b).1 (route inode b).2

theorem block_lt_of_inside {b : Nat} (inside : b * blockSize < inode.size.toNat) :
    b < 16843015 := by
  have := inode.size.isLt
  unfold blockSize at inside
  omega

theorem blockMap_of_present (present : IndirectPresent read inode) {b : Nat}
    (inside : b * blockSize < inode.size.toNat) :
    blockMap read inode b =
      if pointer read inode b = 0 then none else some (pointer read inode b) := by
  rw [blockMap_eq_through (block_lt_of_inside inside)]
  exact through_of_linked (present b inside)

theorem Complete.present (complete : Complete read inode) : IndirectPresent read inode := by
  intro b inside
  have mapped := complete b inside
  rw [blockMap_eq_through (block_lt_of_inside inside)] at mapped
  exact linked_of_through mapped

theorem Complete.blockMap_eq (complete : Complete read inode) {b : Nat}
    (inside : b * blockSize < inode.size.toNat) :
    blockMap read inode b = some (pointer read inode b) := by
  have mapped := complete b inside
  rw [blockMap_of_present complete.present inside] at mapped ⊢
  split_ifs at mapped ⊢ with hole
  · cases mapped
  · rfl

/-- The items visit the blocks one by one, each with its zone in the map, unless they
reach the end of the file first. -/
def denseCourse (map : Nat → Option Nat) (size : Nat) : Course Item where
  idle a b := size ≤ a * blockSize ∨ a = b
  step a item b := size ≤ a * blockSize ∧ b = a ∨
    match item with
    | .load _ => b = a
    | .slot _ zone block => block = a ∧ map a = some zone ∧ b = a + 1
  refl _ := Or.inr rfl
  trans a b c first second := by
    cases first with
    | inl past => exact Or.inl past
    | inr same => exact same ▸ second
  absorb a b c item idle step := by
    cases idle with
    | inl past => exact ⟨a, Or.inl ⟨past, rfl⟩, Or.inl past⟩
    | inr same => exact ⟨c, same ▸ step, Or.inr rfl⟩

abbrev Dense (map : Nat → Option Nat) (size : Nat) : List Item → Nat → Nat → Prop :=
  Spans (denseCourse map size)

variable {map : Nat → Option Nat} {size : Nat}

theorem Dense.of_past {items : List Item} {b c : Nat} (past : size ≤ b * blockSize) :
    Dense map size items b c := by
  induction items with
  | nil => exact Or.inl past
  | cons item rest ih => exact ⟨b, Or.inl ⟨past, rfl⟩, ih⟩

theorem Dense.mono {map' : Nat → Option Nat} {items : List Item} {a c : Nat}
    (dense : Dense map size items a c) (same : ∀ b, b * blockSize < size → map' b = map b) :
    Dense map' size items a c := by
  induction items generalizing a with
  | nil => exact dense
  | cons item rest ih =>
      by_cases past : size ≤ a * blockSize
      · exact Dense.of_past past
      · obtain ⟨b, step, tail⟩ := dense
        refine ⟨b, ?_, ih tail⟩
        cases step with
        | inl done => exact absurd done.1 past
        | inr next =>
            cases item with
            | load zone => exact Or.inr next
            | slot pos zone block =>
                obtain ⟨here, mapped, behind⟩ := next
                exact Or.inr ⟨here, (same a (not_le.mp past)).trans mapped, behind⟩

theorem Dense.slot {pos : Pos} {zone block : Nat}
    (mapped : block * blockSize < size → map block = some zone) :
    Dense map size [.slot pos zone block] block (block + 1) := by
  by_cases past : size ≤ block * blockSize
  · exact Dense.of_past past
  · exact Spans.single (Or.inr ⟨rfl, mapped (not_le.mp past), rfl⟩)

theorem Dense.subtree {zone base w : Nat} {items : Nat → Nat → List Item}
    (present : base * blockSize < size → zone ≠ 0)
    (each : ∀ i, i < 256 → Dense map size (items i (ptr (read zone) i)) (base + i * w)
      (base + (i + 1) * w)) :
    Dense map size (Minix3.subtree read zone items) base (base + 256 * w) := by
  by_cases past : size ≤ base * blockSize
  · exact Dense.of_past past
  · rw [Minix3.subtree, if_neg (present (not_le.mp past))]
    exact ⟨base, Or.inr rfl, Spans.flatMap_zero each⟩

/-- The map of all data pointers, zero pointers included. -/
def pointerMap (read : Nat → Block) (inode : Inode) (b : Nat) : Option Nat :=
  some (pointer read inode b)

theorem directItems_dense :
    Dense (pointerMap read inode) inode.size.toNat (directItems inode) 0 7 := by
  have loop : Dense (pointerMap read inode) inode.size.toNat (directItems inode) 0
      (0 + numDirectZones * 1) := by
    apply Spans.flatMap_zero
    intro i bound
    rw [Nat.mul_one, Nat.mul_one, Nat.zero_add, Nat.zero_add]
    apply Dense.slot
    intro inside
    rw [pointerMap, pointer, route_direct bound]
    rfl
  exact loop

section Present
variable (present : IndirectPresent read inode)
include present

theorem singleItems_dense :
    Dense (pointerMap read inode) inode.size.toNat (singleItems read inode) 7 263 := by
  refine Dense.subtree (w := 1) ?_ ?_
  · intro inside
    have linked := present (7 + 0) inside
    rw [route_single (by omega)] at linked
    exact linked.1
  · intro i bound
    rw [Nat.mul_one, Nat.mul_one]
    apply Dense.slot
    intro inside
    rw [pointerMap, pointer, route_single bound]
    rfl

theorem doubleItems_dense :
    Dense (pointerMap read inode) inode.size.toNat (doubleItems read inode) 263 65799 := by
  refine Dense.subtree (w := 256) ?_ ?_
  · intro inside
    have linked := present (263 + 0 * 256 + 0) inside
    rw [route_double (by omega) (by omega)] at linked
    exact linked.1
  · intro i outer
    rw [show 263 + (i + 1) * 256 = 263 + i * 256 + 256 * 1 by ring]
    refine Dense.subtree ?_ ?_
    · intro inside
      have linked := present (263 + i * 256 + 0) inside
      rw [route_double outer (by omega)] at linked
      exact linked.2.1
    · intro j inner
      rw [Nat.mul_one, Nat.mul_one]
      apply Dense.slot
      intro inside
      rw [pointerMap, pointer, route_double outer inner]
      rfl

/-- Either the walk never gets to the triple indirect pointer or the double indirect block
is there, so that the walk starts at the right block. -/
theorem tripleBase_of_present (inside : tripleBase inode * blockSize < inode.size.toNat) :
    tripleBase inode = 65799 := by
  unfold tripleBase at inside ⊢
  split_ifs at inside ⊢ with absent
  · have linked := present (263 + 0 * 256 + 0) inside
    rw [route_double (by omega) (by omega)] at linked
    exact absurd absent linked.1
  · rfl

theorem tripleItems_dense (base : tripleBase inode = 65799) :
    Dense (pointerMap read inode) inode.size.toNat (tripleItems read inode) 65799
      16843015 := by
  unfold tripleItems
  rw [base]
  refine Dense.subtree (w := 65536) ?_ ?_
  · intro inside
    have linked := present (65799 + 0 * 65536 + 0 * 256 + 0) inside
    rw [route_triple (by omega) (by omega)] at linked
    exact linked.1
  · intro i outer
    rw [show 65799 + (i + 1) * 65536 = 65799 + i * 65536 + 256 * 256 by ring]
    refine Dense.subtree ?_ ?_
    · intro inside
      have linked := present (65799 + i * 65536 + 0 * 256 + 0) inside
      rw [route_triple (by omega) (by omega)] at linked
      exact linked.2.1
    · intro j middle
      rw [show 65799 + i * 65536 + (j + 1) * 256 = 65799 + i * 65536 + j * 256 + 256 * 1
        by ring]
      refine Dense.subtree ?_ ?_
      · intro inside
        have linked := present (65799 + i * 65536 + j * 256 + 0) inside
        rw [route_triple middle (by omega)] at linked
        exact linked.2.2.1
      · intro k inner
        rw [Nat.mul_one, Nat.mul_one]
        apply Dense.slot
        intro inside
        rw [pointerMap, pointer, route_triple middle inner]
        rfl

/-- The stream of a file with all its indirect blocks visits the file's blocks in order. -/
theorem stream_dense_of_present :
    Dense (pointerMap read inode) inode.size.toNat (stream read inode) 0 16843015 := by
  have two := directItems_dense.append (singleItems_dense present)
  have three := two.append (doubleItems_dense present)
  refine three.append ?_
  by_cases inside : tripleBase inode * blockSize < inode.size.toNat
  · exact tripleItems_dense present (tripleBase_of_present present inside)
  · apply Dense.of_past
    have low : tripleBase inode ≤ 65799 := by
      unfold tripleBase
      split <;> omega
    calc inode.size.toNat ≤ tripleBase inode * blockSize := not_lt.mp inside
      _ ≤ 65799 * blockSize := Nat.mul_le_mul_right _ low

end Present

theorem stream_dense (complete : Complete read inode) :
    Dense (blockMap read inode) inode.size.toNat (stream read inode) 0 16843015 := by
  apply (stream_dense_of_present complete.present).mono
  intro b inside
  exact complete.blockMap_eq inside

end Vesper.Minix3
