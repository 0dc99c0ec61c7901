import Mathlib.Tactic

/-!
# Loops that may leave their function

A step either goes on, breaks out of the innermost loop, or leaves the function with a
result.  `Agrees` compares a step on a concrete state with one pass over a list of
events on a view of that state; the rules for sequencing and for counted loops turn
nested loops into one flat pass.  `Meets` is the invariant rule for the same loops.
-/

set_option autoImplicit false

namespace Vesper.Lib.EarlyExit

variable {S V E Event : Type}

inductive Step (S E : Type) where
  | next (s : S)
  | brk (s : S)
  | exit (s : S) (e : E)

def Step.andThen : Step S E → (S → Step S E) → Step S E
  | .next s, f => f s
  | .brk s, _ => .brk s
  | .exit s e, _ => .exit s e

/-- `for i in start..start + count`, with `brk` ending the loop. -/
def forRange (body : Nat → S → Step S E) : Nat → Nat → S → Step S E
  | _, 0, s => .next s
  | start, count + 1, s =>
      match body start s with
      | .next s' => forRange body (start + 1) count s'
      | .brk s' => .next s'
      | .exit s' e => .exit s' e

def runAll (act : Event → V → V × Option E) : List Event → V → V × Option E
  | [], v => (v, none)
  | event :: rest, v =>
      match act event v with
      | (v', none) => runAll act rest v'
      | (v', some e) => (v', some e)

variable {act : Event → V → V × Option E} {view : S → V}

theorem runAll_append (left right : List Event) (v : V) :
    runAll act (left ++ right) v =
      match runAll act left v with
      | (v', none) => runAll act right v'
      | (v', some e) => (v', some e) := by
  induction left generalizing v with
  | nil => rfl
  | cons event rest ih =>
      simp only [List.cons_append, runAll]
      cases result : act event v with
      | mk v' out =>
          cases out with
          | none => exact ih v'
          | some e => rfl

/-- The step does on `view` what the pass over `events` does, and `Q` holds when it goes
on. -/
def Agrees (act : Event → V → V × Option E) (view : S → V) (step : Step S E)
    (events : List Event) (v : V) (Q : S → Prop) : Prop :=
  match step with
  | .next s => runAll act events v = (view s, none) ∧ Q s
  | .brk _ => False
  | .exit s e => runAll act events v = (view s, some e)

theorem Agrees.andThen {step : Step S E} {f : S → Step S E} {left right : List Event}
    {v : V} {Q R : S → Prop} (first : Agrees act view step left v Q)
    (second : ∀ s, Q s → Agrees act view (f s) right (view s) R) :
    Agrees act view (step.andThen f) (left ++ right) v R := by
  cases step with
  | next s =>
      obtain ⟨run, holds⟩ := first
      have rest := second s holds
      simp only [Step.andThen]
      cases result : f s with
      | next s' =>
          rw [result] at rest
          refine ⟨?_, rest.2⟩
          rw [runAll_append, run]
          exact rest.1
      | brk s' =>
          rw [result] at rest
          exact rest
      | exit s' e =>
          rw [result] at rest
          change runAll act (left ++ right) v = _
          rw [runAll_append, run]
          exact rest
  | brk s => exact first
  | exit s e =>
      change runAll act (left ++ right) v = _
      rw [runAll_append, show runAll act left v = (view s, some e) from first]

theorem Agrees.mono {step : Step S E} {events : List Event} {v : V} {Q R : S → Prop}
    (agrees : Agrees act view step events v Q) (weaker : ∀ s, Q s → R s) :
    Agrees act view step events v R := by
  cases step with
  | next s => exact ⟨agrees.1, weaker s agrees.2⟩
  | brk s => exact agrees
  | exit s e => exact agrees

theorem Agrees.skip {s : S} {v : V} {Q : S → Prop} (same : view s = v) (holds : Q s) :
    Agrees act view (.next s) [] v Q :=
  ⟨by rw [same]; rfl, holds⟩

theorem Agrees.forRange {body : Nat → S → Step S E} {events : Nat → List Event}
    (inv : Nat → S → Prop) {start count : Nat}
    (each : ∀ i s, start ≤ i → i < start + count → inv i s →
      Agrees act view (body i s) (events i) (view s) (inv (i + 1)))
    {s : S} (holds : inv start s) :
    Agrees act view (forRange body start count s)
      ((List.range' start count).flatMap events) (view s) (inv (start + count)) := by
  induction count generalizing start s with
  | zero => exact ⟨rfl, holds⟩
  | succ count ih =>
      have first := each start s (le_refl _) (by omega) holds
      rw [List.range'_succ, List.flatMap_cons]
      have whole : Agrees act view
          ((body start s).andThen (EarlyExit.forRange body (start + 1) count))
          (events start ++ (List.range' (start + 1) count).flatMap events) (view s)
          (inv (start + 1 + count)) :=
        first.andThen fun s' holds' =>
          ih (fun i t low high => each i t (by omega) (by omega)) holds'
      rw [show start + (count + 1) = start + 1 + count by omega]
      unfold EarlyExit.forRange
      cases result : body start s with
      | next s' =>
          rw [result] at whole
          exact whole
      | brk s' =>
          rw [result] at first
          exact absurd first id
      | exit s' e =>
          rw [result] at whole
          exact whole

/-! ## Invariants -/

/-- The step leads to a state in `P`, and to a result in `Q` if it leaves. -/
def Step.Meets (P : S → Prop) (Q : E → Prop) : Step S E → Prop
  | .next s => P s
  | .brk s => P s
  | .exit s e => P s ∧ Q e

section Meets
variable {P : S → Prop} {Q : E → Prop}

theorem Step.Meets.andThen {step : Step S E} {f : S → Step S E} (first : step.Meets P Q)
    (second : ∀ s, P s → (f s).Meets P Q) : (step.andThen f).Meets P Q := by
  cases step with
  | next s => exact second s first
  | brk s => exact first
  | exit s e => exact first

theorem forRange_meets {body : Nat → S → Step S E}
    (each : ∀ i s, P s → (body i s).Meets P Q) (start count : Nat) {s : S} (holds : P s) :
    (forRange body start count s).Meets P Q := by
  induction count generalizing start s with
  | zero => exact holds
  | succ count ih =>
      have first := each start s holds
      unfold forRange
      cases result : body start s with
      | next s' =>
          rw [result] at first
          exact ih (start + 1) first
      | brk s' =>
          rw [result] at first
          exact first
      | exit s' e =>
          rw [result] at first
          exact first

end Meets

theorem runAll_meets {P : V → Prop} {Q : E → Prop}
    (each : ∀ event v, P v → P (act event v).1 ∧ ∀ e, (act event v).2 = some e → Q e)
    (events : List Event) {v : V} (holds : P v) :
    P (runAll act events v).1 ∧ ∀ e, (runAll act events v).2 = some e → Q e := by
  induction events generalizing v with
  | nil => exact ⟨holds, fun e left => by cases left⟩
  | cons event rest ih =>
      obtain ⟨kept, exits⟩ := each event v holds
      rw [runAll]
      cases step : act event v with
      | mk v' result =>
          rw [step] at kept exits
          cases result with
          | none => exact ih kept
          | some e => exact ⟨kept, exits⟩

/-- A loop over the indices below `n`, with an invariant of the round. -/
theorem foldl_finRange {α : Type} {n : Nat} {P : Nat → α → Prop} {f : α → Fin n → α}
    (step : ∀ (k : Fin n) (a : α), P k a → P (k + 1) (f a k)) {a : α} (start : P 0 a) :
    P n ((List.finRange n).foldl f a) := by
  induction n with
  | zero => exact start
  | succ n ih =>
      rw [List.finRange_succ_last, List.foldl_append, List.foldl_map]
      exact step (Fin.last n) _ (ih fun k a => step k.castSucc a)

end Vesper.Lib.EarlyExit
