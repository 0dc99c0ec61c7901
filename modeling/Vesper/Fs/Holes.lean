import Mathlib.Tactic
import Vesper.Fs.Arrivals
import Vesper.Fs.ReadBounds
import Vesper.Fs.ReadExact

/-!
# What a hole does to the data behind it

A zero data pointer moves the cursor to the end of its block but leaves the output position
where it is, so the data behind the hole is written where the hole's bytes belong; and a
hole before the window takes the cursor back, so that data before the offset is written
too.  `carried` lists the file positions whose bytes end up in the slice, in order.  The
call returns the bytes of the window in their places exactly if those positions are as many
as the window's and hold the same bytes, and it does so for every window exactly if the
file has no hole.
-/

set_option autoImplicit false

namespace Vesper.Minix3

open Vesper.Lib Vesper.Lib.EarlyExit

/-! ## The positions that are written -/

/-- Position `q` has data, and is at or behind the offset or somewhere behind a hole. -/
def Carried (map : Nat → Nat) (offset q : Nat) : Prop :=
  map (q / blockSize) ≠ 0 ∧ (offset ≤ q ∨ ∃ b < q / blockSize, map b = 0)

instance (map : Nat → Nat) (offset q : Nat) : Decidable (Carried map offset q) :=
  inferInstanceAs (Decidable (_ ∧ _))

def carried (map : Nat → Nat) (offset limit : Nat) : List Nat :=
  (List.range limit).filter fun q => Carried map offset q

section Carried
variable {map : Nat → Nat} {offset : Nat}

theorem carried_extend {m cur n : Nat} (first : m ≤ cur) (second : cur ≤ n)
    (skipped : ∀ q, m ≤ q → q < cur → ¬ Carried map offset q)
    (taken : ∀ q, cur ≤ q → q < n → Carried map offset q) :
    carried map offset n = carried map offset m ++ List.range' cur (n - cur) := by
  have split : List.range n =
      List.range m ++ List.range' m (cur - m) ++ List.range' cur (n - cur) := by
    have first' : List.range' 0 m ++ List.range' m (cur - m) = List.range' 0 cur := by
      have joined := List.range'_append_1 (s := 0) (m := m) (n := cur - m)
      rwa [Nat.zero_add, Nat.add_sub_cancel' first] at joined
    have second' : List.range' 0 cur ++ List.range' cur (n - cur) = List.range' 0 n := by
      have joined := List.range'_append_1 (s := 0) (m := cur) (n := n - cur)
      rwa [Nat.zero_add, Nat.add_sub_cancel' second] at joined
    rw [List.range_eq_range', List.range_eq_range', first', second']
  have none_left : (List.range' m (cur - m)).filter (fun q => Carried map offset q) = [] := by
    apply List.filter_eq_nil_iff.mpr
    intro q member
    have bounds := List.mem_range'_1.mp member
    simpa using skipped q bounds.1 (by omega)
  have all_left : (List.range' cur (n - cur)).filter (fun q => Carried map offset q) =
      List.range' cur (n - cur) := by
    apply List.filter_eq_self.mpr
    intro q member
    have bounds := List.mem_range'_1.mp member
    simpa using taken q bounds.1 (by omega)
  rw [carried, split, List.filter_append, List.filter_append, none_left, all_left,
    List.append_nil]
  rfl

theorem carried_skip {m n : Nat} (grows : m ≤ n)
    (skipped : ∀ q, m ≤ q → q < n → ¬ Carried map offset q) :
    carried map offset n = carried map offset m := by
  rw [carried_extend grows (le_refl n) skipped fun q low high => by omega, Nat.sub_self,
    List.range'_zero, List.append_nil]

def cursorAt (map : Nat → Nat) (offset b : Nat) : Nat :=
  if ∃ c < b, map c = 0 then b * blockSize else max offset (b * blockSize)

theorem le_cursorAt (map : Nat → Nat) (offset b : Nat) : b * blockSize ≤ cursorAt map offset b := by
  unfold cursorAt
  split_ifs
  · exact le_refl _
  · exact le_max_right _ _

theorem cursorAt_succ (b : Nat) :
    cursorAt map offset (b + 1) = cursorAfter (cursorAt map offset b) (map b) b := by
  have grows : b * blockSize ≤ (b + 1) * blockSize := Nat.mul_le_mul_right _ (Nat.le_succ b)
  unfold cursorAfter
  by_cases hole : map b = 0
  · rw [if_pos hole, cursorAt, if_pos ⟨b, Nat.lt_succ_self b, hole⟩]
  · have earlier : (∃ c < b + 1, map c = 0) ↔ ∃ c < b, map c = 0 := by
      constructor
      · intro found
        obtain ⟨c, below, zero⟩ := found
        have apart : c ≠ b := fun same => hole (same ▸ zero)
        exact ⟨c, by omega, zero⟩
      · intro found
        obtain ⟨c, below, zero⟩ := found
        exact ⟨c, by omega, zero⟩
    rw [if_neg hole, cursorAt, cursorAt]
    simp only [earlier]
    split_ifs
    · exact (max_eq_right grows).symm
    · rw [max_assoc, max_eq_right grows]

/-- In a block with data the pass writes what lies at or behind the cursor. -/
theorem carried_iff_cursorAt {b q : Nat} (low : b * blockSize ≤ q) (high : q < (b + 1) * blockSize)
    (data : map b ≠ 0) : Carried map offset q ↔ cursorAt map offset b ≤ q := by
  have block : q / blockSize = b := by
    unfold blockSize at low high ⊢
    omega
  rw [Carried, block, and_iff_right data, cursorAt]
  split_ifs with hole
  · exact iff_of_true (Or.inr hole) low
  · rw [or_iff_left hole, max_le_iff, and_iff_left low]

theorem not_carried_hole {b q : Nat} (low : b * blockSize ≤ q) (high : q < (b + 1) * blockSize)
    (hole : map b = 0) : ¬ Carried map offset q := by
  intro here
  have block : q / blockSize = b := by
    unfold blockSize at low high ⊢
    omega
  exact here.1 (block ▸ hole)

end Carried

/-! ## Runs -/

variable {σ : Type} {p : Platform σ} {fs : Fs} {stop offset : Nat} {byte : Nat → BitVec 8}
  {map : Nat → Nat}

structure Wrote (byte : Nat → BitVec 8) (positions : List Nat) (v : Vars σ) : Prop where
  count : v.written = positions.length
  bytes : ∀ k q, positions[k]? = some q → v.world.out k = byte q

theorem Wrote.quiet {positions : List Nat} {v : Vars σ} {w : World σ}
    (wrote : Wrote byte positions v) (quiet : Quiet v.world w) (cur : Nat) :
    Wrote byte positions { v with world := w, curOffset := cur } :=
  ⟨wrote.count, fun k q listed => (congrFun quiet.out k).trans (wrote.bytes k q listed)⟩

theorem Wrote.copy {positions : List Nat} {b : Nat} {v : Vars σ} {c : Copy}
    (wrote : Wrote byte positions v) (low : b * blockSize ≤ v.curOffset)
    (holds : ∀ k, k < blockSize → v.blockBuf k = byte (b * blockSize + k))
    (src : c.src = v.curOffset - b * blockSize) (dst : c.dst = v.written)
    (len : v.curOffset + c.len ≤ (b + 1) * blockSize) :
    Wrote byte (positions ++ List.range' v.curOffset c.len) (v.copy p c) := by
  have count := wrote.count
  rw [Nat.succ_mul] at len
  refine ⟨?_, ?_⟩
  · rw [List.length_append, List.length_range', ← count]
    rfl
  · intro k q listed
    simp only [Vars.copy, World.note, copyNonoverlapping]
    by_cases old : k < positions.length
    · rw [List.getElem?_append_left old] at listed
      rw [if_neg (by omega)]
      exact wrote.bytes k q listed
    · rw [List.getElem?_append_right (not_lt.mp old)] at listed
      obtain ⟨bound, rfl⟩ := List.getElem?_eq_some_iff.mp listed
      rw [List.length_range'] at bound
      have inside : c.src + (k - c.dst) < blockSize := by omega
      rw [if_pos (by omega), sourceByte_inside inside, holds _ inside, List.getElem_range']
      congr 1
      omega

theorem Visit.wrote {b : Nat} {v : Vars σ} {outcome : Vars σ × Option (Exit Nat)}
    (visit : Visit p fs stop (map b) (b * blockSize) v outcome) (room : v.curOffset < stop)
    (cursor : v.curOffset = cursorAt map offset b)
    (wrote : Wrote byte (carried map offset (b * blockSize)) v)
    (holds : map b ≠ 0 → ∀ k, k < blockSize →
      p.zoneBlock fs (map b) k = byte (b * blockSize + k)) :
    (∃ e, outcome.2 = some e ∧ ∀ n, e ≠ .returned n) ∨
      Wrote byte (carried map offset (min ((b + 1) * blockSize) stop)) outcome.1 ∧
        ∀ e, outcome.2 = some e → e = .returned outcome.1.written := by
  have low := cursor ▸ le_cursorAt map offset b
  have logical : b * blockSize + blockSize = (b + 1) * blockSize := (Nat.succ_mul _ _).symm
  have exits (v : Vars σ) (e : Exit Nat) (ended : exitAt stop v = some e) :
      e = .returned v.written := by
    unfold exitAt at ended
    split_ifs at ended
    cases ended
    rfl
  cases visit with
  | hole w quiet absent =>
      right
      rw [carried_skip (m := b * blockSize) (by omega) fun q low high =>
        not_carried_hole low (by omega) absent]
      exact ⟨wrote.quiet quiet _, exits _⟩
  | skip w quiet present early =>
      right
      rw [carried_skip (m := b * blockSize) (by omega) fun q low high => ?_]
      · exact ⟨wrote.quiet quiet _, fun e ended => by cases ended⟩
      · rw [carried_iff_cursorAt low (by omega) present]
        omega
  | refused w quiet refuses unserved => exact Or.inl ⟨_, rfl, fun n same => by cases same⟩
  | underflow u quiet checks behind => exact absurd low (not_le.mpr behind)
  | copy w c quiet present reached start src dst len =>
      right
      rw [usizeSub_exact low, Option.some.injEq] at src
      have extends_ : carried map offset (min ((b + 1) * blockSize) stop) =
          carried map offset (b * blockSize) ++ List.range' v.curOffset c.len := by
        rw [carried_extend low (by omega)]
        · rw [show min ((b + 1) * blockSize) stop - v.curOffset = c.len by omega]
        · intro q low' high'
          rw [carried_iff_cursorAt low' (by omega) present]
          omega
        · intro q low' high'
          rw [carried_iff_cursorAt (b := b) (by omega) (by omega) present]
          omega
      rw [extends_]
      have same := wrote.quiet quiet v.curOffset
      exact ⟨Wrote.copy (v := { v with world := w, blockBuf := p.zoneBlock fs (map b) })
        ⟨same.count, same.bytes⟩ low (holds present) src.symm dst (by dsimp only; omega), exits _⟩

/-- A call that returns has written the bytes at the listed positions. -/
def Delivers (byte : Nat → BitVec 8) (positions : List Nat) (r : World σ × Exit Nat) : Prop :=
  ∀ n, r.2 = .returned n →
    n = positions.length ∧ ∀ k q, positions[k]? = some q → r.1.out k = byte q

theorem run_delivers {size b c : Nat} {items : List Item} {v : Vars σ}
    (holds : ∀ b, b * blockSize < size → map b ≠ 0 → ∀ k, k < blockSize →
      p.zoneBlock fs (map b) k = byte (b * blockSize + k))
    (within : stop ≤ size) (limit : size < 2 ^ 63) (covers : size ≤ c * blockSize)
    (dense : Dense (fun b => some (map b)) size items b c)
    (wrote : Wrote byte (carried map offset (b * blockSize)) v)
    (cursor : v.curOffset = cursorAt map offset b) (room : v.curOffset < stop) :
    Delivers byte (carried map offset stop) (settle (runAll (act p fs stop) items v)) := by
  have low := cursor ▸ le_cursorAt map offset b
  induction items generalizing b v with
  | nil =>
      cases dense with
      | inl past => omega
      | inr same => subst same; omega
  | cons item rest ih =>
      obtain ⟨d, step, tail⟩ := dense
      cases item with
      | load zone =>
          have same : d = b := step.elim (fun past => past.2) id
          subst same
          obtain ⟨w, quiet, loaded | ⟨_, _, refused⟩⟩ := readIndirectZone_cases p fs zone v
          · simp only [runAll, act, loaded]
            exact ih tail (wrote.quiet quiet v.curOffset) cursor room low
          · simp only [runAll, act, refused]
            exact fun n returned => by cases returned
      | slot pos zone block =>
          cases step with
          | inl past => omega
          | inr here =>
              obtain ⟨rfl, mapped, rfl⟩ := here
              cases mapped
              have small : block * blockSize < 2 ^ 63 := by omega
              have visit : Visit p fs stop (map block) (block * blockSize) v _ :=
                visitZone_visit pos small room
              simp only [runAll, act]
              generalize visitZone p fs stop pos (map block) (block * blockSize) v = outcome
                at visit
              obtain ⟨v', out⟩ := outcome
              rcases visit.wrote room cursor wrote (holds block (by omega)) with
                ⟨e, failed, other⟩ | ⟨next, returns⟩
              · cases failed
                exact fun n returned => absurd returned (other n)
              · cases out with
                | none =>
                    obtain ⟨moved, more⟩ := visit.onward room
                    rw [cursor, ← cursorAt_succ] at moved
                    have behind := moved ▸ le_cursorAt map offset (block + 1)
                    rw [min_eq_left (by omega)] at next
                    exact ih tail next moved more behind
                | some e =>
                    have ends : e = .returned v'.written := returns e rfl
                    subst ends
                    have closed : stop ≤ (block + 1) * blockSize := by
                      rcases visit.ended with closed | ⟨_, failed⟩ | ⟨_, overflow⟩
                      · rw [← not_lt, cursorAfter_lt_iff room, not_lt] at closed
                        exact closed
                      · cases failed
                      · cases overflow
                    rw [min_eq_right closed] at next
                    intro n returned
                    cases returned
                    exact ⟨next.count, next.bytes⟩

theorem withBuffer_delivers {positions : List Nat} {body : World σ → World σ × Exit Nat}
    {w : World σ} (inner : ∀ w', Delivers byte positions (body w')) :
    Delivers byte positions (withBuffer p body w) := by
  rcases withBuffer_cases p body w with
    ⟨w', _, _, _, result⟩ | ⟨w₀, w', _, after, result | ⟨_, _, result⟩⟩
  · rw [result]
    exact fun n returned => by cases returned
  · rw [result]
    intro n returned
    obtain ⟨count, bytes⟩ := inner w₀ n returned
    exact ⟨count, fun k q listed => (congrFun after.out k).trans (bytes k q listed)⟩
  · rw [result]
    exact fun n returned => by cases returned

/-! ## The call -/

section Call
variable {read : Nat → Block} {inode : Inode}

def delivered (read : Nat → Block) (inode : Inode) (offset want : Nat) : List Nat :=
  if want = 0 then [] else carried (pointer read inode) offset (offset + want)

theorem fileByte_of_pointer (present : IndirectPresent read inode) {b : Nat}
    (inside : b * blockSize < inode.size.toNat) (data : pointer read inode b ≠ 0) {k : Nat}
    (bound : k < blockSize) :
    read (pointer read inode b) k = fileByte read inode (b * blockSize + k) := by
  apply fileByte_mapped _ bound
  rw [blockMap_of_present present inside, if_neg data]

theorem readFile_delivers (fs : Fs) (present : IndirectPresent (p.zoneBlock fs) inode)
    (offset : BitVec 32) (outLen : Nat) (w : World σ) :
    Delivers (fileByte (p.zoneBlock fs) inode)
      (delivered (p.zoneBlock fs) inode offset.toNat (want inode offset outLen))
      (readFile p fs inode offset outLen w) := by
  unfold delivered
  split_ifs with empty
  · rw [readFile_empty empty]
    intro n returned
    cases returned
    exact ⟨rfl, fun k q listed => by cases listed⟩
  · have positive := Nat.pos_of_ne_zero empty
    have fits : offset.toNat + want inode offset outLen ≤ inode.size.toNat := by
      unfold want at positive ⊢
      omega
    have limit := inode.size.isLt
    refine readFile_meets (P := fun _ => True) (fun _ _ _ inner => ?_) positive trivial
      fun w' _ => ?_
    · exact withBuffer_delivers fun w' => inner w' trivial
    · refine run_delivers ?_ fits (by omega) (by unfold blockSize; omega)
        (stream_dense_of_present present) ?_ ?_ (Nat.lt_add_of_pos_right positive)
      · exact fun b inside data k bound => fileByte_of_pointer present inside data bound
      · exact ⟨by rw [Nat.zero_mul]; rfl, fun k q listed => by
          rw [Nat.zero_mul] at listed
          cases listed⟩
      · have untouched : ¬ ∃ c < 0, pointer (p.zoneBlock fs) inode c = 0 := by
          intro found
          obtain ⟨c, below, _⟩ := found
          omega
        rw [cursorAt, if_neg untouched, Nat.zero_mul, Nat.max_zero]

/-- The window's bytes that have a block are in their places, and the count is right. -/
def HolesKept (read : Nat → Block) (inode : Inode) (offset outLen : Nat)
    (r : World σ × Exit Nat) : Prop :=
  ∀ n, r.2 = .returned n →
    n = min outLen (inode.size.toNat - offset) ∧
      ∀ k < n, ∀ zone, blockMap read inode ((offset + k) / blockSize) = some zone →
        r.1.out k = read zone ((offset + k) % blockSize)

/-- The positions the call writes are as many as the window's, and hold the same bytes
wherever the window has a block. -/
def InPlace (read : Nat → Block) (inode : Inode) (offset : BitVec 32) (outLen : Nat) : Prop :=
  let positions := delivered read inode offset.toNat (want inode offset outLen)
  positions.length = min outLen (inode.size.toNat - offset.toNat) ∧
    ∀ k q, positions[k]? = some q →
      (blockMap read inode ((offset.toNat + k) / blockSize)).isSome →
      fileByte read inode q = fileByte read inode (offset.toNat + k)

theorem holesKept_of_inPlace {offset : BitVec 32} {outLen : Nat} {r : World σ × Exit Nat}
    (delivers : Delivers (fileByte read inode)
      (delivered read inode offset.toNat (want inode offset outLen)) r)
    (placed : InPlace read inode offset outLen) : HolesKept read inode offset.toNat outLen r := by
  intro n returned
  obtain ⟨count, bytes⟩ := delivers n returned
  refine ⟨count.trans placed.1, ?_⟩
  intro k below zone mapped
  have listed := List.getElem?_eq_getElem (count ▸ below)
  rw [bytes k _ listed, placed.2 k _ listed (by rw [mapped]; rfl), fileByte, mapped]

theorem inPlace_of_holesKept {offset : BitVec 32} {outLen n : Nat} {r : World σ × Exit Nat}
    (delivers : Delivers (fileByte read inode)
      (delivered read inode offset.toNat (want inode offset outLen)) r)
    (returned : r.2 = .returned n) (kept : HolesKept read inode offset.toNat outLen r) :
    InPlace read inode offset outLen := by
  obtain ⟨count, bytes⟩ := delivers n returned
  obtain ⟨length, data⟩ := kept n returned
  refine ⟨count.symm.trans length, ?_⟩
  intro k q listed mapped
  obtain ⟨zone, here⟩ := Option.isSome_iff_exists.mp mapped
  have below : k < n := count ▸ (List.getElem?_eq_some_iff.mp listed).1
  rw [← bytes k q listed, data k below zone here, fileByte, here]

theorem delivered_of_complete (complete : Complete read inode) {offset want : Nat}
    (fits : want ≠ 0 → offset + want ≤ inode.size.toNat) :
    delivered read inode offset want = List.range' offset want := by
  have data {b : Nat} (inside : b * blockSize < inode.size.toNat) : pointer read inode b ≠ 0 := by
    intro hole
    have mapped := complete b inside
    rw [blockMap_of_present complete.present inside, if_pos hole] at mapped
    cases mapped
  unfold delivered
  split_ifs with empty
  · rw [empty, List.range'_zero]
  · have block {q : Nat} (inside : q < offset + want) :
        q / blockSize * blockSize < inode.size.toNat :=
      lt_of_le_of_lt (Nat.div_mul_le_self q blockSize) (lt_of_lt_of_le inside (fits empty))
    rw [carried_extend (m := 0) (Nat.zero_le offset) (Nat.le_add_right _ _)]
    · rw [Nat.add_sub_cancel_left]
      rfl
    · intro q _ before here
      rcases here.2 with behind | ⟨b, below, hole⟩
      · omega
      · have inside : b * blockSize ≤ q / blockSize * blockSize :=
          Nat.mul_le_mul_right _ below.le
        exact data (lt_of_le_of_lt inside (block (by omega))) hole
    · intro q low high
      exact ⟨data (block high), Or.inl low⟩

theorem inPlace_of_complete (complete : Complete read inode) (offset : BitVec 32) {outLen : Nat}
    (short : outLen < 2 ^ 32) : InPlace read inode offset outLen := by
  have window : want inode offset outLen = min outLen (inode.size.toNat - offset.toNat) := by
    rw [want, Nat.mod_eq_of_lt short]
  unfold InPlace
  rw [delivered_of_complete complete (by omega)]
  refine ⟨by rw [List.length_range', window], ?_⟩
  intro k q listed _
  obtain ⟨_, rfl⟩ := List.getElem?_eq_some_iff.mp listed
  rw [List.getElem_range', Nat.one_mul]

theorem delivered_first_hole {b : Nat} (hole : pointer read inode b = 0)
    (first : ∀ c < b, pointer read inode c ≠ 0) :
    delivered read inode (b * blockSize) 1 = [] := by
  rw [delivered, if_neg (by omega), carried_skip (m := 0) (Nat.zero_le _)]
  · rfl
  · intro q _ bound here
    by_cases before : q < b * blockSize
    · have inside : q / blockSize < b := by
        unfold blockSize at before ⊢
        omega
      rcases here.2 with behind | ⟨c, below, zero⟩
      · omega
      · exact first c (below.trans inside) zero
    · have positive : 0 < blockSize := by decide
      have inside : q < (b + 1) * blockSize := by
        rw [Nat.succ_mul]
        omega
      exact not_carried_hole (not_lt.mp before) inside hole here

theorem complete_of_inPlace (present : IndirectPresent read inode)
    (placed : ∀ (offset : BitVec 32) (outLen : Nat), outLen < 2 ^ 32 →
      InPlace read inode offset outLen) : Complete read inode := by
  by_contra incomplete
  have holes : ∃ b, b * blockSize < inode.size.toNat ∧ pointer read inode b = 0 := by
    simp only [Complete, not_forall] at incomplete
    obtain ⟨b, inside, unmapped⟩ := incomplete
    refine ⟨b, inside, ?_⟩
    by_contra data
    rw [blockMap_of_present present inside, if_neg data] at unmapped
    exact unmapped rfl
  obtain ⟨⟨inside, hole⟩, least⟩ :=
    And.intro (Nat.find_spec holes) fun c => Nat.find_min holes (m := c)
  generalize Nat.find holes = b at inside hole least
  have first : ∀ c < b, pointer read inode c ≠ 0 := by
    intro c below zero
    refine least c below ⟨?_, zero⟩
    exact lt_of_le_of_lt (Nat.mul_le_mul_right _ below.le) inside
  have start : (BitVec.ofNat 32 (b * blockSize)).toNat = b * blockSize := by
    rw [BitVec.toNat_ofNat, Nat.mod_eq_of_lt (inside.trans inode.size.isLt)]
  have one : want inode (BitVec.ofNat 32 (b * blockSize)) 1 = 1 := by
    rw [want, start]
    omega
  have count := (placed (BitVec.ofNat 32 (b * blockSize)) 1 (by omega)).1
  rw [start, one, delivered_first_hole hole first, List.length_nil] at count
  omega

end Call

/-- On a file with all its indirect blocks, a read keeps the data behind the holes in place,
on every platform over the disk, exactly if the positions it writes match the window; and
every read does so exactly if the file has no hole. -/
theorem readFile_holes_kept_iff (disk : Nat → Nat → BitVec 8) (fs : Fs) (inode : Inode)
    (present : IndirectPresent (diskZone disk fs.dev) inode) :
    (∀ (offset : BitVec 32) (outLen : Nat),
      (∀ (σ : Type) (p : Platform σ) (w : World σ), p.disk = disk →
        HolesKept (diskZone disk fs.dev) inode offset.toNat outLen
          (readFile p fs inode offset outLen w)) ↔
        InPlace (diskZone disk fs.dev) inode offset outLen) ∧
    ((∀ (offset : BitVec 32) (outLen : Nat), outLen < 2 ^ 32 →
      ∀ (σ : Type) (p : Platform σ) (w : World σ), p.disk = disk →
        HolesKept (diskZone disk fs.dev) inode offset.toNat outLen
          (readFile p fs inode offset outLen w)) ↔
      Complete (diskZone disk fs.dev) inode) := by
  have single (offset : BitVec 32) (outLen : Nat) :
      (∀ (σ : Type) (p : Platform σ) (w : World σ), p.disk = disk →
        HolesKept (diskZone disk fs.dev) inode offset.toNat outLen
          (readFile p fs inode offset outLen w)) ↔
        InPlace (diskZone disk fs.dev) inode offset outLen := by
    constructor
    · intro kept
      have returned : ∃ n, (readFile (willingPlatform disk) fs inode offset outLen
          ⟨(), fun _ => 0, []⟩).2 = .returned n := by
        by_cases empty : want inode offset outLen = 0
        · exact ⟨0, by rw [readFile_empty empty]⟩
        · exact ⟨_, readFile_total (willingPlatform_willing disk) fs _ (Nat.pos_of_ne_zero empty)⟩
      obtain ⟨n, returned⟩ := returned
      exact inPlace_of_holesKept (readFile_delivers (p := willingPlatform disk) fs present offset
        outLen _) returned (kept Unit (willingPlatform disk) _ rfl)
    · intro placed σ p w same
      subst same
      exact holesKept_of_inPlace (readFile_delivers fs present offset outLen w) placed
  refine ⟨single, ?_⟩
  constructor
  · intro kept
    exact complete_of_inPlace present fun offset outLen short =>
      (single offset outLen).mp (kept offset outLen short)
  · intro complete offset outLen short
    exact (single offset outLen).mpr (inPlace_of_complete complete offset short)

theorem readFile_holes_kept_span :
    IndirectPresent (diskZone spanPlatform.disk 0) spanInode ∧
      HolesKept (diskZone spanPlatform.disk 0) spanInode 7000 900
        (readFile spanPlatform spanFs spanInode 7000#32 900 ⟨(), fun _ => 0, []⟩) :=
  ⟨spanInode_complete.present, (readFile_holes_kept_iff spanPlatform.disk spanFs spanInode
    spanInode_complete.present).2.mpr spanInode_complete 7000#32 900 (by decide) Unit
      spanPlatform _ rfl⟩

def numberedDisk : Nat → Nat → BitVec 8 := fun _ offset => BitVec.ofNat 8 (offset / 1024)

def shiftInode : Inode where
  size := 3072
  zones := fun i => if i.val = 0 then 5 else if i.val = 2 then 6 else 0

theorem shiftInode_present : IndirectPresent (diskZone numberedDisk 0) shiftInode := by
  intro b inside
  have direct : b < 7 := by
    have size : shiftInode.size.toNat = 3072 := rfl
    rw [size] at inside
    unfold blockSize at inside
    omega
  rw [route_direct direct]
  trivial

/-- Reading the whole file returns 2048 instead of 3072, and the third block's bytes stand
where the hole's belong. -/
theorem readFile_hole_shifts :
    IndirectPresent (diskZone numberedDisk 0) shiftInode ∧
      (readFile (willingPlatform numberedDisk) ⟨0, ⟨1, 1, 1, magic⟩⟩ shiftInode 0#32 3072
        ⟨(), fun _ => 0, []⟩).1.out 1024 = 6 ∧
      ¬ HolesKept (diskZone numberedDisk 0) shiftInode 0 3072
        (readFile (willingPlatform numberedDisk) ⟨0, ⟨1, 1, 1, magic⟩⟩ shiftInode 0#32 3072
          ⟨(), fun _ => 0, []⟩) := by
  refine ⟨shiftInode_present, by decide +kernel, ?_⟩
  intro kept
  have returned : (readFile (willingPlatform numberedDisk) ⟨0, ⟨1, 1, 1, magic⟩⟩ shiftInode 0#32
      3072 ⟨(), fun _ => 0, []⟩).2 = .returned 2048 := by
    decide +kernel
  have count := (kept 2048 returned).1
  exact absurd count (by decide)

end Vesper.Minix3
