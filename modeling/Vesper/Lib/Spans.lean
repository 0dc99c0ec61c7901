import Mathlib.Tactic

/-!
# Lists that advance a position

A course says which item may be taken at a position and where it leads, and which moves
an empty list may make.  A list spans from one position to another if its items can be
taken one after the other.  Spans compose along `++` and along counted loops whose
`i`-th part covers the `i`-th stretch of equal width.
-/

set_option autoImplicit false

namespace Vesper.Lib

structure Course (Item : Type) where
  idle : Nat → Nat → Prop
  step : Nat → Item → Nat → Prop
  refl : ∀ a, idle a a
  trans : ∀ a b c, idle a b → idle b c → idle a c
  absorb : ∀ a b c item, idle a b → step b item c → ∃ d, step a item d ∧ idle d c

variable {Item : Type} {course : Course Item}

def Spans (course : Course Item) : List Item → Nat → Nat → Prop
  | [], a, b => course.idle a b
  | item :: rest, a, b => ∃ c, course.step a item c ∧ Spans course rest c b

namespace Spans

theorem idle_left {items : List Item} {a b c : Nat} (idle : course.idle a b)
    (spans : Spans course items b c) : Spans course items a c := by
  induction items generalizing a b with
  | nil => exact course.trans a b c idle spans
  | cons item rest ih =>
      obtain ⟨d, step, tail⟩ := spans
      obtain ⟨d', step', idle'⟩ := course.absorb a b d item idle step
      exact ⟨d', step', ih idle' tail⟩

theorem append {left right : List Item} {a b c : Nat} (first : Spans course left a b)
    (second : Spans course right b c) : Spans course (left ++ right) a c := by
  induction left generalizing a with
  | nil => exact idle_left first second
  | cons item rest ih =>
      obtain ⟨d, step, tail⟩ := first
      exact ⟨d, step, ih tail⟩

theorem single {item : Item} {a b : Nat} (step : course.step a item b) :
    Spans course [item] a b :=
  ⟨b, step, course.refl b⟩

theorem flatMap {items : Nat → List Item} {base width start count : Nat}
    (each : ∀ i, start ≤ i → i < start + count →
      Spans course (items i) (base + i * width) (base + (i + 1) * width)) :
    Spans course ((List.range' start count).flatMap items) (base + start * width)
      (base + (start + count) * width) := by
  induction count generalizing start with
  | zero => exact course.refl _
  | succ count ih =>
      rw [List.range'_succ, List.flatMap_cons]
      have tail : Spans course ((List.range' (start + 1) count).flatMap items)
          (base + (start + 1) * width) (base + (start + 1 + count) * width) :=
        ih fun i low high => each i (by omega) (by omega)
      rw [Nat.add_assoc start 1 count, Nat.add_comm 1 count] at tail
      exact (each start (le_refl _) (by omega)).append tail

theorem flatMap_zero {items : Nat → List Item} {base width count : Nat}
    (each : ∀ i, i < count →
      Spans course (items i) (base + i * width) (base + (i + 1) * width)) :
    Spans course ((List.range' 0 count).flatMap items) base (base + count * width) := by
  have loop : Spans course ((List.range' 0 count).flatMap items) (base + 0 * width)
      (base + (0 + count) * width) :=
    flatMap fun i _ high => each i (by omega)
  rwa [Nat.zero_mul, Nat.add_zero, Nat.zero_add] at loop

end Spans

end Vesper.Lib
