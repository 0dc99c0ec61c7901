import Vesper.Process.Lifecycle

/-!
# How long a process waits

`schedule` picks the first occupied slot from `startIndex` on, in cyclic order.  The gap of
a slot is its distance from there; a call that does not pick the slot shrinks its gap, so
a waiting process is picked within `MAX_PROCESSES` calls.  An exit forgets the position:
it scans from slot 0.  This picks the slot the rotation would pick exactly when no
occupied slot lies below the exiting one or none lies above it.
-/

set_option autoImplicit false

namespace Vesper.Lifecycle

open Vesper.Lib
open Vesper.Mm.PageFrame (Heap)
open Vesper.Scheduler

variable {h : Heap}

def gap (start : Nat) (i : Slot) : Nat := (i.val + maxProcesses - start) % maxProcesses

theorem gap_lt (start : Nat) (i : Slot) : gap start i < maxProcesses :=
  Nat.mod_lt _ maxProcesses_pos

section Pick
variable {t : Table}

theorem startIndex_lt (t : Table) : t.startIndex < maxProcesses := by
  unfold Table.startIndex
  split
  · decide
  · exact Nat.mod_lt _ maxProcesses_pos

theorem candidates_getElem? {start k : Nat} (small : k < maxProcesses) :
    (candidates start)[k]? = some ⟨(start + k) % maxProcesses, Nat.mod_lt _ maxProcesses_pos⟩ := by
  rw [candidates, List.getElem?_map, List.getElem?_range small]
  rfl

theorem candidates_gap {start : Nat} (small : start < maxProcesses) (i : Slot) :
    (candidates start)[gap start i]? = some i := by
  rw [candidates_getElem? (gap_lt start i), Option.some.injEq]
  apply Fin.ext
  have bound := i.isLt
  simp only [gap, maxProcesses] at *
  omega

theorem schedule_pick (wf : t.WellFormed) {w : Slot} (waiting : (t.slots w).isSome = true)
    (epc : BitVec 64) :
    ∃ p, (schedule epc t).1.map Prod.fst = some p ∧ (schedule epc t).2.current = some p ∧
      (t.slots p).isSome = true ∧
      ∀ i, (t.slots i).isSome = true → gap t.startIndex p ≤ gap t.startIndex i := by
  have stashed := Table.stash_wellFormed wf epc
  have same : ∀ i, ((t.stash epc).slots i).isSome = (t.slots i).isSome := fun i => by
    rw [← schedule_slots wf, schedule_isSome wf]
  have sameStart : (t.stash epc).startIndex = t.startIndex := by
    rw [Table.startIndex, Table.startIndex, Table.stash_current]
  have picks : ∀ i, (t.slots i).isSome = true → ∃ pc, (t.stash epc).pick i = some (i, pc) := by
    intro i occupied
    rw [← same] at occupied
    obtain ⟨p, present⟩ := Option.isSome_iff_exists.mp occupied
    exact ⟨p.pc, Table.pick_of_running present (stashed.running i p present)⟩
  cases found : (candidates t.startIndex).findSome? (t.stash epc).pick with
  | none =>
      obtain ⟨pc, picked⟩ := picks w waiting
      rw [List.findSome?_eq_none_iff.mp found w (mem_candidates _ w)] at picked
      cases picked
  | some result =>
      obtain ⟨p, pc⟩ := result
      have answer : schedule epc t = (some (p, pc), { t.stash epc with current := some p }) := by
        unfold schedule
        simp only [sameStart, found]
      obtain ⟨before, a, after, split, picked, skipped⟩ := List.findSome?_eq_some_iff.mp found
      obtain ⟨rfl, proc, present, _, _⟩ := Table.pick_eq_some picked
      have here : (candidates t.startIndex)[before.length]? = some p := by
        rw [split, List.getElem?_append_right (le_refl _), Nat.sub_self]
        rfl
      have bound : before.length < maxProcesses := by
        have length := congrArg List.length split
        rw [candidates, List.length_map, List.length_range, List.length_append,
          List.length_cons] at length
        omega
      have index : gap t.startIndex p = before.length := by
        rw [candidates_getElem? bound, Option.some.injEq] at here
        have start := startIndex_lt t
        rw [← here, gap]
        simp only [maxProcesses] at *
        omega
      refine ⟨p, by rw [answer]; rfl, by rw [answer], by rw [← same, present]; rfl, ?_⟩
      intro i occupied
      by_contra nearer
      obtain ⟨pc', would⟩ := picks i occupied
      have member : i ∈ before := by
        have place := candidates_gap (startIndex_lt t) i
        rw [split, List.getElem?_append_left (by omega)] at place
        exact List.mem_of_getElem? place
      rw [skipped i member] at would
      cases would

end Pick

/-! ## Runs -/

/-- The slot the `schedule` call of a step selects, if the step has one. -/
def pickOf (s : Sys h) : Action → Option (Option Slot)
  | .spawn _ => none
  | .tick epc => some ((schedule epc s.table).1.map Prod.fst)
  | .exit epc => some ((schedule epc (exitCurrent s.table).2).1.map Prod.fst)

def picks : Sys h → List Action → List (Option Slot)
  | _, [] => []
  | s, a :: rest =>
      (pickOf s a).toList ++
        match step s a with
        | none => []
        | some s' => picks s' rest

def drops (w : Slot) (s : Sys h) : Action → Bool
  | .exit _ => s.table.current == some w
  | _ => false

def stays (w : Slot) : Sys h → List Action → Bool
  | s, [] => (s.table.slots w).isSome
  | s, a :: rest =>
      (s.table.slots w).isSome && !drops w s a &&
        match step s a with
        | none => false
        | some s' => stays w s' rest

/-- No occupied slot lies below an exiting process, or none lies above it. -/
def fairExit (s : Sys h) : Action → Bool
  | .exit _ =>
      match s.table.current with
      | none => true
      | some c =>
          decide ((∀ i, i < c → s.table.slots i = none) ∨ ∀ i, c < i → s.table.slots i = none)
  | _ => true

section Progress
variable {s s' : Sys h} {w : Slot}

theorem gap_next {start : Nat} (small : start < maxProcesses) {p : Slot}
    (nearer : gap start p ≤ gap start w) (other : p ≠ w) :
    gap ((p.val + 1) % maxProcesses) w < gap start w := by
  have differ : p.val ≠ w.val := fun same => other (Fin.ext same)
  have pBound := p.isLt
  have wBound := w.isLt
  simp only [gap, maxProcesses] at *
  omega

theorem startIndex_of_current {t : Table} {p : Slot} (chosen : t.current = some p) :
    t.startIndex = (p.val + 1) % maxProcesses := by
  rw [Table.startIndex, chosen]

theorem tick_progress (wf : s.table.WellFormed) (waiting : (s.table.slots w).isSome = true)
    (epc : BitVec 64) (missed : (schedule epc s.table).1.map Prod.fst ≠ some w) :
    gap (schedule epc s.table).2.startIndex w < gap s.table.startIndex w := by
  obtain ⟨p, picked, chosen, _, nearest⟩ := schedule_pick wf waiting epc
  rw [startIndex_of_current chosen]
  refine gap_next (startIndex_lt _) (nearest w waiting) fun same => ?_
  rw [picked, same] at missed
  exact missed rfl

theorem exitCurrent_slots {t : Table} (wf : t.WellFormed) {c : Slot}
    (chosen : t.current = some c) (i : Slot) :
    (exitCurrent t).2.slots i = if i = c then none else t.slots i := by
  obtain ⟨proc, present⟩ := Option.isSome_iff_exists.mp (wf.current c chosen)
  rw [exitCurrent_of_current chosen present]
  by_cases same : i = c
  · rw [if_pos same, same]
    exact Table.setSlot_same _ _ _
  · rw [if_neg same]
    exact Table.setSlot_other _ _ same

/-- Around a fair exit two waiting processes lie on the same side of the exiting one. -/
theorem fairExit_sameSide {epc : BitVec 64} (fair : fairExit s (.exit epc) = true) {c p : Slot}
    (chosen : s.table.current = some c)
    (first : (s.table.slots p).isSome = true) (firstApart : p ≠ c)
    (second : (s.table.slots w).isSome = true) (secondApart : w ≠ c) :
    (c < p ∧ c < w) ∨ (p < c ∧ w < c) := by
  rw [fairExit, chosen, decide_eq_true_eq] at fair
  have occupied : ∀ i, (s.table.slots i).isSome = true → s.table.slots i ≠ none := by
    intro i present none
    rw [none] at present
    cases present
  rcases fair with below | above
  · left
    exact ⟨lt_of_le_of_ne (not_lt.mp fun low => occupied p first (below p low)) firstApart.symm,
      lt_of_le_of_ne (not_lt.mp fun low => occupied w second (below w low)) secondApart.symm⟩
  · right
    exact ⟨lt_of_le_of_ne (not_lt.mp fun high => occupied p first (above p high)) firstApart,
      lt_of_le_of_ne (not_lt.mp fun high => occupied w second (above w high)) secondApart⟩

theorem gap_le_of_sameSide {c p : Slot} (side : (c < p ∧ c < w) ∨ (p < c ∧ w < c))
    (lower : p ≤ w) :
    gap ((c.val + 1) % maxProcesses) p ≤ gap ((c.val + 1) % maxProcesses) w := by
  have pBound := p.isLt
  have wBound := w.isLt
  simp only [Fin.lt_def, Fin.le_def] at side lower
  simp only [gap, maxProcesses] at *
  omega

theorem gap_zero (i : Slot) : gap 0 i = i.val := by
  have bound := i.isLt
  simp only [gap, maxProcesses] at *
  omega

/-- After a fair exit the scan from slot 0 goes on where the rotation was. -/
theorem exit_progress (wf : s.table.WellFormed) (waiting : (s.table.slots w).isSome = true)
    (epc : BitVec 64) (kept : drops w s (.exit epc) = false)
    (fair : fairExit s (.exit epc) = true)
    (missed : (schedule epc (exitCurrent s.table).2).1.map Prod.fst ≠ some w) :
    gap (schedule epc (exitCurrent s.table).2).2.startIndex w < gap s.table.startIndex w := by
  cases chosen : s.table.current with
  | none =>
      have same : (exitCurrent s.table).2 = s.table := by
        rw [exitCurrent, chosen]
      rw [same] at missed ⊢
      exact tick_progress wf waiting epc missed
  | some c =>
      have apart : w ≠ c := by
        intro same
        rw [drops, chosen, same, beq_self_eq_true] at kept
        cases kept
      have slots := exitCurrent_slots wf chosen
      have fromZero : (exitCurrent s.table).2.startIndex = 0 := by
        rw [Table.startIndex, exitCurrent_current wf]
      have stillWaiting : ((exitCurrent s.table).2.slots w).isSome = true := by
        rw [slots w, if_neg apart]
        exact waiting
      obtain ⟨p, picked, next, occupied, nearest⟩ :=
        schedule_pick (exitCurrent_wellFormed wf) stillWaiting epc
      have exited : p ≠ c := by
        intro same
        rw [slots p, if_pos same] at occupied
        cases occupied
      rw [slots p, if_neg exited] at occupied
      have lower : p ≤ w := by
        have nearer := nearest w stillWaiting
        rw [fromZero, gap_zero, gap_zero] at nearer
        exact nearer
      have side := fairExit_sameSide fair chosen occupied exited waiting apart
      rw [startIndex_of_current next, startIndex_of_current chosen]
      refine gap_next (Nat.mod_lt _ maxProcesses_pos) (gap_le_of_sameSide side lower) fun same => ?_
      rw [picked, same] at missed
      exact missed rfl

theorem spawn_startIndex {entry : BitVec 64} (taken : step s (.spawn entry) = some s') :
    s'.table.startIndex = s.table.startIndex := by
  rcases step_cases taken with ⟨_, _, _, rfl⟩ | ⟨_, _, _, _, _, _, rfl⟩ |
      ⟨_, _, _, i, _, _, _, rfl⟩ | ⟨_, named, _⟩ | ⟨_, named, _⟩
  · rfl
  · rfl
  · rfl
  · cases named
  · cases named

theorem tick_table {epc : BitVec 64} (taken : step s (.tick epc) = some s') :
    s'.table = (schedule epc s.table).2 := by
  rw [step] at taken
  split_ifs at taken
  cases taken
  rfl

theorem exit_table {epc : BitVec 64} (taken : step s (.exit epc) = some s') :
    s'.table = (schedule epc (exitCurrent s.table).2).2 := by
  rw [step] at taken
  split_ifs at taken
  cases taken
  rfl

/-- A step that makes no call, or whose call passes `w` over, does not move the scan away
from `w`; each call passed over moves it nearer. -/
theorem step_progress (wf : s.table.WellFormed) (waiting : (s.table.slots w).isSome = true)
    {a : Action} (kept : drops w s a = false) (fair : fairExit s a = true)
    (taken : step s a = some s') (missed : some w ∉ (pickOf s a).toList) :
    (pickOf s a).toList.length + gap s'.table.startIndex w ≤ gap s.table.startIndex w := by
  cases a with
  | spawn entry =>
      rw [spawn_startIndex taken]
      exact (Nat.zero_add _).le
  | tick epc =>
      rw [tick_table taken]
      have passed : (schedule epc s.table).1.map Prod.fst ≠ some w := fun picked =>
        missed (List.mem_singleton.mpr picked.symm)
      have nearer := tick_progress wf waiting epc passed
      exact (Nat.add_comm _ _).trans_le nearer
  | exit epc =>
      rw [exit_table taken]
      have passed : (schedule epc (exitCurrent s.table).2).1.map Prod.fst ≠ some w :=
        fun picked => missed (List.mem_singleton.mpr picked.symm)
      have nearer := exit_progress wf waiting epc kept fair passed
      exact (Nat.add_comm _ _).trans_le nearer

theorem run_progress {start : Mm.PageFrame.State h} {acts : List Action}
    (wf : s.table.WellFormed) (staying : stays w s acts = true)
    (ran : ((lifecycle start).restrict fairExit).run s acts = some s')
    (missed : some w ∉ picks s acts) : (picks s acts).length ≤ gap s.table.startIndex w := by
  induction acts generalizing s with
  | nil => exact Nat.zero_le _
  | cons a rest ih =>
      obtain ⟨mid, taken, tail⟩ := Option.bind_eq_some_iff.mp ran
      obtain ⟨fair, stepped⟩ := System.restrict_step taken
      change step s a = some mid at stepped
      rw [stays, stepped, Bool.and_eq_true, Bool.and_eq_true, Bool.not_eq_true'] at staying
      obtain ⟨⟨waiting, kept⟩, onwards⟩ := staying
      rw [picks, stepped, List.mem_append, not_or] at missed
      have first := step_progress wf waiting kept fair stepped missed.1
      have later := ih (step_wellFormed wf stepped) onwards tail missed.2
      rw [picks, stepped, List.length_append]
      exact (Nat.add_le_add_left later _).trans first

end Progress

theorem reach_wellFormed {start : Mm.PageFrame.State h} {s : Sys h}
    (reached : (lifecycle start).Reach s) : s.table.WellFormed := by
  refine reached.invariant ?_ fun (s : Sys h) a (s' : Sys h) wf taken => step_wellFormed wf taken
  rintro s rfl
  exact Table.empty_wellFormed

/-- Whatever the interleaving of spawns, ticks and fair exits, a process that stays for
`MAX_PROCESSES` calls of `schedule` is picked by one of them. -/
theorem staying_process_is_picked (h : Heap) (start : Mm.PageFrame.State h) (s s' : Sys h)
    (reached : (lifecycle start).Reach s) (w : Slot) (acts : List Action)
    (ran : ((lifecycle start).restrict fairExit).run s acts = some s')
    (staying : stays w s acts = true) (calls : (picks s acts).length = maxProcesses) :
    some w ∈ picks s acts := by
  by_contra missed
  have few := run_progress (reach_wellFormed reached) staying ran missed
  rw [calls] at few
  exact absurd (gap_lt _ w) few.not_gt

def thirdSlot : Slot := ⟨2, by decide⟩

def fortyPages : Heap := ⟨0x80000000, 40 * Mm.PageFrame.pageSize⟩

def threeRunning : List Action := [.spawn 0, .spawn 0, .spawn 0, .tick 0]

theorem staying_process_is_picked_ticks :
    ∃ s : Sys fortyPages, (lifecycle (freshPages fortyPages)).Reach s ∧
      some thirdSlot ∈ picks s (List.replicate 16 (Action.tick 0)) := by
  have ran : ((lifecycle (freshPages fortyPages)).run (booted (freshPages fortyPages))
      threeRunning).map (fun s =>
        ((((lifecycle (freshPages fortyPages)).restrict fairExit).run s
            (List.replicate 16 (Action.tick 0))).isSome,
          stays thirdSlot s (List.replicate 16 (Action.tick 0)),
          (picks s (List.replicate 16 (Action.tick 0))).length)) = some (true, true, 16) := by
    decide +kernel
  obtain ⟨s, ends, facts⟩ := Option.map_eq_some_iff.mp ran
  obtain ⟨fair, rest⟩ := Prod.mk.inj facts
  obtain ⟨staying, calls⟩ := Prod.mk.inj rest
  obtain ⟨s', fairRun⟩ := Option.isSome_iff_exists.mp fair
  have reached := (System.Reach.start rfl).run ends
  exact ⟨s, reached,
    staying_process_is_picked fortyPages _ s s' reached thirdSlot _ fairRun staying calls⟩

/-- The running process exits and its slot is filled again, sixteen times over. -/
def exitAndRespawn : List Action := (List.replicate 16 [Action.exit 0, Action.spawn 0]).flatten

/-- Each exit restarts the scan at slot 0, so slots 0 and 1 take turns and slot 2 waits. -/
theorem third_slot_starves :
    ∃ s s' : Sys fortyPages, (lifecycle (freshPages fortyPages)).Reach s ∧
      (lifecycle (freshPages fortyPages)).run s exitAndRespawn = some s' ∧
      stays thirdSlot s exitAndRespawn = true ∧
      (picks s exitAndRespawn).length = maxProcesses ∧
      some thirdSlot ∉ picks s exitAndRespawn := by
  have ran : ((lifecycle (freshPages fortyPages)).run (booted (freshPages fortyPages))
      threeRunning).map (fun s =>
        (((lifecycle (freshPages fortyPages)).run s exitAndRespawn).isSome,
          stays thirdSlot s exitAndRespawn, picks s exitAndRespawn)) =
      some (true, true,
        (List.replicate 8 [some secondSlot, some firstSlot]).flatten) := by
    decide +kernel
  obtain ⟨s, ends, facts⟩ := Option.map_eq_some_iff.mp ran
  obtain ⟨completes, rest⟩ := Prod.mk.inj facts
  obtain ⟨staying, picked⟩ := Prod.mk.inj rest
  obtain ⟨s', run⟩ := Option.isSome_iff_exists.mp completes
  refine ⟨s, s', (System.Reach.start rfl).run ends, run, staying, ?_, ?_⟩
  · rw [picked]
    rfl
  · rw [picked]
    decide

end Vesper.Lifecycle
