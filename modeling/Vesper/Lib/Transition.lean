import Mathlib.Tactic

/-!
# Transition systems

A system with initial states and one step function.  An action fixes every choice a step
leaves open; a step that yields no state is not enabled or stops the system.  A property
that holds initially and is kept by every step holds in every reachable state.
-/

set_option autoImplicit false

namespace Vesper.Lib

structure System where
  State : Type
  Action : Type
  init : State → Prop
  step : State → Action → Option State

namespace System

variable {M : System}

inductive Reach (M : System) : M.State → Prop where
  | start {s : M.State} (initial : M.init s) : Reach M s
  | next {s s' : M.State} (a : M.Action) (reached : Reach M s)
      (taken : M.step s a = some s') : Reach M s'

theorem Reach.invariant {inv : M.State → Prop} (start : ∀ s, M.init s → inv s)
    (keep : ∀ s a s', inv s → M.step s a = some s' → inv s') {s : M.State}
    (reached : M.Reach s) : inv s := by
  induction reached with
  | start initial => exact start _ initial
  | next a _ taken ih => exact keep _ a _ ih taken

def run (M : System) : M.State → List M.Action → Option M.State
  | s, [] => some s
  | s, a :: rest => (M.step s a).bind fun s' => run M s' rest

theorem Reach.run {s s' : M.State} {actions : List M.Action} (reached : M.Reach s)
    (ends : M.run s actions = some s') : M.Reach s' := by
  induction actions generalizing s with
  | nil =>
      cases ends
      exact reached
  | cons a rest ih =>
      obtain ⟨mid, taken, tail⟩ := Option.bind_eq_some_iff.mp ends
      exact ih (reached.next a taken) tail

theorem run_append (s : M.State) (first second : List M.Action) :
    M.run s (first ++ second) = (M.run s first).bind fun mid => M.run mid second := by
  induction first generalizing s with
  | nil => rfl
  | cons a rest ih =>
      rw [List.cons_append, run, run, Option.bind_assoc]
      congr 1
      funext mid
      exact ih mid

theorem run_snoc {s mid s' : M.State} {actions : List M.Action} {a : M.Action}
    (ends : M.run s actions = some mid) (taken : M.step mid a = some s') :
    M.run s (actions ++ [a]) = some s' := by
  rw [run_append, ends, Option.bind_some, run, taken]
  rfl

/-- Each step is matched by one step of another system, or by none. -/
theorem run_simulates {N : System} {R : M.State → N.State → Prop}
    {visible : M.Action → Option N.Action}
    (step : ∀ s t a s', R s t → M.step s a = some s' →
      ∃ t', N.run t (visible a).toList = some t' ∧ R s' t')
    {s s' : M.State} {t : N.State} {actions : List M.Action} (start : R s t)
    (ends : M.run s actions = some s') :
    ∃ t', N.run t (actions.filterMap visible) = some t' ∧ R s' t' := by
  induction actions generalizing s t with
  | nil =>
      cases ends
      exact ⟨t, rfl, start⟩
  | cons a rest ih =>
      obtain ⟨mid, taken, tail⟩ := Option.bind_eq_some_iff.mp ends
      obtain ⟨next, matched, related⟩ := step s t a mid start taken
      obtain ⟨t', later, final⟩ := ih related tail
      refine ⟨t', ?_, final⟩
      cases shown : visible a with
      | none =>
          rw [shown] at matched
          cases matched
          rw [List.filterMap_cons_none shown]
          exact later
      | some b =>
          rw [shown] at matched
          obtain ⟨_, first, last⟩ := Option.bind_eq_some_iff.mp matched
          cases last
          rw [List.filterMap_cons_some shown]
          exact Option.bind_eq_some_iff.mpr ⟨_, first, later⟩

/-- A run whose steps all lower a measure is no longer than the measure. -/
theorem run_length_le {inv : M.State → Prop} {own : M.Action → Prop} {measure : M.State → Nat}
    (lower : ∀ s a s', inv s → own a → M.step s a = some s' → inv s' ∧ measure s' < measure s)
    {s s' : M.State} {actions : List M.Action} (start : inv s) (owned : ∀ a ∈ actions, own a)
    (ends : M.run s actions = some s') : actions.length + measure s' ≤ measure s := by
  induction actions generalizing s with
  | nil =>
      cases ends
      exact (Nat.zero_add _).le
  | cons a rest ih =>
      obtain ⟨mid, taken, tail⟩ := Option.bind_eq_some_iff.mp ends
      obtain ⟨kept, less⟩ := lower s a mid start (owned a List.mem_cons_self) taken
      have bound := ih kept (fun b member => owned b (List.mem_cons_of_mem _ member)) tail
      rw [List.length_cons]
      omega

/-- The runs of a system in which every step meets a condition on the state it starts from. -/
def restrict (M : System) (ok : M.State → M.Action → Bool) : System where
  State := M.State
  Action := M.Action
  init := M.init
  step s a := if ok s a then M.step s a else none

theorem restrict_step {ok : M.State → M.Action → Bool} {s s' : M.State} {a : M.Action}
    (taken : (M.restrict ok).step s a = some s') : ok s a = true ∧ M.step s a = some s' := by
  simp only [restrict] at taken
  split_ifs at taken with meets
  exact ⟨meets, taken⟩

theorem Reach.of_restrict {ok : M.State → M.Action → Bool} {s : (M.restrict ok).State}
    (reached : (M.restrict ok).Reach s) : M.Reach s := by
  induction reached with
  | start initial => exact Reach.start initial
  | next a _ taken ih => exact Reach.next a ih (restrict_step taken).2

end System

end Vesper.Lib
