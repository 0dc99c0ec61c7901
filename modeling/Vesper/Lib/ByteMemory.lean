import Mathlib.Tactic

/-!
# Byte memory and stores

Little-endian loads and stores of a few bytes on a memory of bytes.  A store decides the
bytes it covers and leaves the others; a list of stores is carried out in order.  What a list
of stores makes of a byte depends on the memory before only if no store covers the byte, so
stores commute with every change elsewhere.
-/

set_option autoImplicit false

namespace Vesper.Lib.ByteMemory

abbrev Mem := Nat → BitVec 8

def load (m : Mem) (addr : Nat) : Nat → Nat
  | 0 => 0
  | width + 1 => (m addr).toNat + 256 * load m (addr + 1) width

structure Store where
  addr : Nat
  width : Nat
  value : Nat
  deriving DecidableEq, Repr

def Store.covers (s : Store) (a : Nat) : Prop := s.addr ≤ a ∧ a < s.addr + s.width

instance (s : Store) (a : Nat) : Decidable (s.covers a) := inferInstanceAs (Decidable (_ ∧ _))

def Store.apply (s : Store) (m : Mem) : Mem := fun a =>
  if s.covers a then BitVec.ofNat 8 (s.value / 256 ^ (a - s.addr)) else m a

def applyAll (stores : List Store) (m : Mem) : Mem :=
  stores.foldl (fun m s => s.apply m) m

variable {m m' : Mem} {s : Store} {stores : List Store} {addr width a : Nat}

@[simp] theorem applyAll_nil (m : Mem) : applyAll [] m = m := rfl

@[simp] theorem applyAll_cons (s : Store) (stores : List Store) (m : Mem) :
    applyAll (s :: stores) m = applyAll stores (s.apply m) := rfl

theorem applyAll_append (first second : List Store) (m : Mem) :
    applyAll (first ++ second) m = applyAll second (applyAll first m) :=
  List.foldl_append

theorem load_congr (same : ∀ a, addr ≤ a → a < addr + width → m a = m' a) :
    load m addr width = load m' addr width := by
  induction width generalizing addr with
  | zero => rfl
  | succ width ih =>
      have head := same addr le_rfl (by omega)
      have tail : load m (addr + 1) width = load m' (addr + 1) width :=
        ih fun a low high => same a (by omega) (by omega)
      rw [load, load, head, tail]

theorem load_bytes (value : Nat) (bytes : ∀ k < width, m (addr + k) =
    BitVec.ofNat 8 (value / 256 ^ k)) : load m addr width = value % 256 ^ width := by
  induction width generalizing addr value with
  | zero => rw [load, Nat.pow_zero, Nat.mod_one]
  | succ width ih =>
      have tail : load m (addr + 1) width = value / 256 % 256 ^ width := by
        apply ih
        intro k small
        have here := bytes (k + 1) (by omega)
        rw [show addr + 1 + k = addr + (k + 1) by omega, here, Nat.div_div_eq_div_mul,
          ← Nat.pow_succ']
      have head := bytes 0 (by omega)
      rw [Nat.add_zero, Nat.pow_zero, Nat.div_one] at head
      have whole : value % 256 ^ (width + 1) = value % 256 + 256 * (value / 256 % 256 ^ width) := by
        rw [Nat.pow_succ', Nat.mod_mul]
      rw [load, tail, head, BitVec.toNat_ofNat, whole]

theorem load_zero (zero : ∀ a, addr ≤ a → a < addr + width → m a = 0) :
    load m addr width = 0 := by
  rw [load_bytes 0 fun k small => ?_, Nat.zero_mod]
  rw [Nat.zero_div]
  exact zero _ (Nat.le_add_right _ _) (by omega)

theorem apply_outside (outside : ¬ s.covers a) : s.apply m a = m a := if_neg outside

theorem load_apply (s : Store) (m : Mem) :
    load (s.apply m) s.addr s.width = s.value % 256 ^ s.width := by
  apply load_bytes
  intro k small
  rw [Store.apply, if_pos ⟨Nat.le_add_right _ _, by omega⟩, Nat.add_sub_cancel_left]

theorem applyAll_outside (outside : ∀ s ∈ stores, ¬ s.covers a) : applyAll stores m a = m a := by
  induction stores generalizing m with
  | nil => rfl
  | cons s rest ih =>
      rw [applyAll_cons, ih fun s member => outside s (List.mem_cons_of_mem _ member)]
      exact apply_outside (outside s List.mem_cons_self)

/-- Where some store covers a byte, the memory before does not count. -/
theorem applyAll_covered (covered : ∃ s ∈ stores, s.covers a) (m m' : Mem) :
    applyAll stores m a = applyAll stores m' a := by
  induction stores generalizing m m' with
  | nil =>
      obtain ⟨s, member, -⟩ := covered
      cases member
  | cons s rest ih =>
      rw [applyAll_cons, applyAll_cons]
      by_cases later : ∃ s ∈ rest, s.covers a
      · exact ih later _ _
      · have outside : ∀ s ∈ rest, ¬ s.covers a := fun s member here => later ⟨s, member, here⟩
        have here : s.covers a := by
          obtain ⟨s', member, inside⟩ := covered
          rcases List.mem_cons.mp member with rfl | member
          · exact inside
          · exact absurd inside (outside s' member)
        rw [applyAll_outside outside, applyAll_outside outside, Store.apply, Store.apply,
          if_pos here, if_pos here]

/-- What stores make of a byte depends on that byte only. -/
theorem applyAll_congr (same : m a = m' a) : applyAll stores m a = applyAll stores m' a := by
  by_cases covered : ∃ s ∈ stores, s.covers a
  · exact applyAll_covered covered m m'
  · have outside : ∀ s ∈ stores, ¬ s.covers a := fun s member here => covered ⟨s, member, here⟩
    rw [applyAll_outside outside, applyAll_outside outside, same]

def Clear (stores : List Store) (addr width : Nat) : Prop :=
  ∀ s ∈ stores, s.addr + s.width ≤ addr ∨ addr + width ≤ s.addr

theorem Clear.outside (clear : Clear stores addr width) (low : addr ≤ a) (high : a < addr + width) :
    ∀ s ∈ stores, ¬ s.covers a := by
  intro s member inside
  have apart := clear s member
  unfold Store.covers at inside
  omega

theorem Clear.mono {part : List Store} (clear : Clear stores addr width)
    (subset : ∀ s ∈ part, s ∈ stores) : Clear part addr width :=
  fun s member => clear s (subset s member)

theorem Clear.single (clear : Clear stores addr width) (member : s ∈ stores) :
    Clear [s] addr width := by
  apply clear.mono
  intro s' only
  rw [List.mem_singleton.mp only]
  exact member

theorem Clear.append {first second : List Store} (left : Clear first addr width)
    (right : Clear second addr width) : Clear (first ++ second) addr width := by
  intro s member
  rcases List.mem_append.mp member with inFirst | inSecond
  · exact left s inFirst
  · exact right s inSecond

theorem Clear.narrow {b k : Nat} (clear : Clear stores addr width) (low : addr ≤ b)
    (high : b + k ≤ addr + width) : Clear stores b k := by
  intro s member
  have apart := clear s member
  omega

def RangeApart (a n b k : Nat) : Prop := a + n ≤ b ∨ b + k ≤ a

instance (a n b k : Nat) : Decidable (RangeApart a n b k) := inferInstanceAs (Decidable (_ ∨ _))

def Within (stores : List Store) (a n : Nat) : Prop :=
  ∀ s ∈ stores, a ≤ s.addr ∧ s.addr + s.width ≤ a + n

theorem Within.clear {a n : Nat} (within : Within stores a n)
    (apart : RangeApart addr width a n) : Clear stores addr width := by
  intro s member
  have inside := within s member
  unfold RangeApart at apart
  omega

theorem load_applyAll_clear (clear : Clear stores addr width) (m : Mem) :
    load (applyAll stores m) addr width = load m addr width :=
  load_congr fun _ low high => applyAll_outside (clear.outside low high)

def Store.Apart (s t : Store) : Prop := s.addr + s.width ≤ t.addr ∨ t.addr + t.width ≤ s.addr

/-- Stores that keep apart from each other are all read back. -/
theorem load_applyAll_mem (apart : stores.Pairwise Store.Apart) (member : s ∈ stores) (m : Mem) :
    load (applyAll stores m) s.addr s.width = s.value % 256 ^ s.width := by
  induction stores generalizing m with
  | nil => cases member
  | cons t rest ih =>
      obtain ⟨first, others⟩ := List.pairwise_cons.mp apart
      rcases List.mem_cons.mp member with rfl | later
      · have clear : Clear rest s.addr s.width := fun t inRest => (first t inRest).symm
        rw [applyAll_cons, load_applyAll_clear clear, load_apply]
      · exact ih others later _

theorem ofNat_load_mem {w : Nat} (value : BitVec w) (exact_ : w = 8 * width)
    (apart : stores.Pairwise Store.Apart) (member : ⟨addr, width, value.toNat⟩ ∈ stores) (m : Mem) :
    BitVec.ofNat w (load (applyAll stores m) addr width) = value := by
  have bound : value.toNat < 256 ^ width :=
    calc value.toNat < 2 ^ w := value.isLt
      _ = 256 ^ width := by rw [exact_, Nat.pow_mul]
  have stored := load_applyAll_mem apart member m
  rw [stored, Nat.mod_eq_of_lt bound, BitVec.ofNat_toNat, BitVec.setWidth_eq]

end Vesper.Lib.ByteMemory
