import Mathlib.Tactic
import Vesper.Lib.Transition

/-!
# Linearization logs

An object that other parties reach only through a protocol behaves as if it were atomic when
its operations can be put in one order, each with an effect the atomic object allows in its
turn.  Operations are numbered as they are invoked.  The log has an entry for each operation
that has taken effect, and explains the present state if the effects lead there from the
first one.
-/

set_option autoImplicit false

namespace Vesper.Lib

namespace Linearization

structure Entry (E : Type) where
  id : Nat
  effect : E
  deriving DecidableEq, Repr

variable {E : Type}

def effects (log : List (Entry E)) : List E := log.map Entry.effect

def ids (log : List (Entry E)) : List Nat := log.map Entry.id

/-- The log leads from `start` to `now` and has at most one entry for each of the first
`next` operations. -/
structure Explains (M : System) (log : List (Entry M.Action)) (start now : M.State)
    (next : Nat) : Prop where
  leads : M.run start (effects log) = some now
  once : (ids log).Nodup
  invoked : ∀ e ∈ log, e.id < next

section Explains
variable {M : System} {log : List (Entry M.Action)} {start now : M.State} {next : Nat}

theorem Explains.empty (start : M.State) (next : Nat) :
    Explains M [] start start next :=
  ⟨rfl, List.nodup_nil, fun _ member => absurd member List.not_mem_nil⟩

theorem Explains.invoke (explains : Explains M log start now next) {later : Nat}
    (grows : next ≤ later) : Explains M log start now later :=
  ⟨explains.leads, explains.once, fun e member => (explains.invoked e member).trans_le grows⟩

theorem Explains.commit (explains : Explains M log start now next) {e : Entry M.Action}
    {now' : M.State} (taken : M.step now e.effect = some now') (known : e.id < next)
    (first : ∀ x ∈ log, x.id ≠ e.id) : Explains M (log ++ [e]) start now' next where
  leads := by
    rw [effects, List.map_append]
    exact System.run_snoc explains.leads taken
  once := by
    rw [ids, List.map_append, List.map_singleton, List.nodup_append']
    refine ⟨explains.once, List.nodup_singleton _, ?_⟩
    intro i member same
    obtain ⟨x, listed, rfl⟩ := List.mem_map.mp member
    exact first x listed (List.mem_singleton.mp same)
  invoked x member := by
    rcases List.mem_append.mp member with old | new
    · exact explains.invoked x old
    · rw [List.mem_singleton.mp new]
      exact known

end Explains

/-- Effects come in the order of real time: what was in the log before an operation was
invoked stands before it. -/
theorem precedes {log log' : List (Entry E)} {next : Nat} (earlier : log <+: log')
    (invoked : ∀ x ∈ log, x.id < next) {e e' : Entry E} (member : e ∈ log) (member' : e' ∈ log')
    (later : next ≤ e'.id) : [e, e'].Sublist log' := by
  obtain ⟨newer, rfl⟩ := earlier
  have behind : e' ∈ newer := by
    rcases List.mem_append.mp member' with old | new
    · exact absurd (invoked e' old) (by omega)
    · exact new
  exact (List.singleton_sublist.mpr member).append (List.singleton_sublist.mpr behind)

end Linearization

end Vesper.Lib
