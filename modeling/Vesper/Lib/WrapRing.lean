import Mathlib.Tactic

/-!
# Rings with free-running indices

A producer writes the slots of a ring of `n` cells in turn and counts what it has written in
a `w`-bit index that wraps; the consumer counts what it has read in another.  Neither index
is ever reduced modulo the ring size except to select a slot.

`Tracks ring idx all count` relates such a ring to the unbounded history behind it: `all` is
everything ever written and the first `count` entries have been read.  It is kept by both
sides as long as no more than `n` entries are unread, `n` divides `2 ^ w` and is smaller.
-/

set_option autoImplicit false

namespace Vesper.Lib.WrapRing

variable {α : Type} {n w : Nat} [NeZero n]

def slot (n : Nat) [NeZero n] (index : BitVec w) : Fin n :=
  Fin.ofNat n index.toNat

theorem slot_ofNat (divides : n ∣ 2 ^ w) (k : Nat) :
    slot n (BitVec.ofNat w k) = Fin.ofNat n k := by
  apply Fin.ext
  simp [slot, Fin.ofNat, Nat.mod_mod_of_dvd k divides]

theorem ofNat_ne_of_near {j k : Nat} (before : j < k) (near : k - j < n) :
    Fin.ofNat n j ≠ Fin.ofNat n k := by
  intro same
  have congruent : j ≡ k [MOD n] := by
    simpa [Fin.ofNat, Nat.ModEq] using congrArg Fin.val same
  have divides : n ∣ k - j := (Nat.modEq_iff_dvd' (le_of_lt before)).mp congruent
  have := Nat.le_of_dvd (by omega) divides
  omega

structure Tracks (ring : Fin n → α) (idx : BitVec w) (all : List α) (count : Nat) : Prop where
  index : idx = BitVec.ofNat w all.length
  behind : count ≤ all.length
  room : all.length - count ≤ n
  unread : ∀ k (stored : k < all.length), count ≤ k → ring (Fin.ofNat n k) = all[k]

namespace Tracks

variable {ring : Fin n → α} {idx : BitVec w} {all : List α} {count : Nat}

theorem empty (ring : Fin n → α) : Tracks ring (0 : BitVec w) [] 0 where
  index := rfl
  behind := le_refl _
  room := by simp
  unread := by simp

theorem push (tracks : Tracks ring idx all count) (divides : n ∣ 2 ^ w)
    (room : all.length - count < n) (x : α) :
    Tracks (Function.update ring (slot n idx) x) (idx + 1) (all ++ [x]) count where
  index := by
    rw [tracks.index]
    simp [BitVec.ofNat_add]
  behind := by
    have := tracks.behind
    simp only [List.length_append, List.length_singleton]
    omega
  room := by
    simp only [List.length_append, List.length_singleton]
    omega
  unread := by
    intro k stored unread
    rw [tracks.index, slot_ofNat divides]
    simp only [List.length_append, List.length_singleton] at stored
    by_cases last : k = all.length
    · subst last
      simp
    · have earlier : k < all.length := by omega
      have apart : Fin.ofNat n k ≠ Fin.ofNat n all.length :=
        ofNat_ne_of_near earlier (by omega)
      rw [Function.update_of_ne apart, tracks.unread k earlier unread,
        List.getElem_append_left earlier]

theorem pop (tracks : Tracks ring idx all count) (waiting : count < all.length) :
    Tracks ring idx all (count + 1) where
  index := tracks.index
  behind := waiting
  room := by
    have := tracks.room
    omega
  unread := fun k stored unread => tracks.unread k stored (by omega)

theorem read (tracks : Tracks ring idx all count) (divides : n ∣ 2 ^ w)
    (waiting : count < all.length) :
    ring (slot n (BitVec.ofNat w count)) = all[count] := by
  rw [slot_ofNat divides]
  exact tracks.unread count waiting (le_refl _)

theorem drained_iff (tracks : Tracks ring idx all count) (small : n < 2 ^ w) :
    BitVec.ofNat w count = idx ↔ count = all.length := by
  have := tracks.behind
  have := tracks.room
  rw [tracks.index]
  constructor
  · intro same
    have congruent : count ≡ all.length [MOD 2 ^ w] := by
      simpa [Nat.ModEq] using congrArg BitVec.toNat same
    have divides := (Nat.modEq_iff_dvd' tracks.behind).mp congruent
    by_contra apart
    have := Nat.le_of_dvd (by omega) divides
    omega
  · rintro rfl
    rfl

end Tracks

end Vesper.Lib.WrapRing
