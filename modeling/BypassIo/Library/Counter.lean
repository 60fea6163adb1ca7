import Mathlib.Algebra.Group.Nat.Defs
import Mathlib.Tactic.Common
import Mathlib.Data.Nat.Bitwise

/-!
# Wrapping 64-bit counters

A counter that wraps is the image of an unbounded one. Differences of two counters that are
less than a full turn apart are exact, and so is the position of a counter in a ring of a
power of two of places.
-/

namespace Counter

variable {n p k : Nat}

theorem sub_ofNat (le : p ≤ n) : UInt64.ofNat n - UInt64.ofNat p = UInt64.ofNat (n - p) := by
  obtain ⟨d, rfl⟩ := Nat.exists_eq_add_of_le le
  rw [UInt64.ofNat_add, Nat.add_sub_cancel_left, UInt64.add_comm, UInt64.add_sub_cancel]

/-- The distance of counters less than a turn apart. -/
theorem toNat_sub (le : p ≤ n) (near : n < p + 2 ^ 64) :
    (UInt64.ofNat n - UInt64.ofNat p).toNat = n - p := by
  rw [sub_ofNat le, UInt64.toNat_ofNat', Nat.mod_eq_of_lt (by omega)]

/-- A counter one step behind another is a turn less one in front of it. -/
theorem toNat_sub_succ (n : Nat) :
    (UInt64.ofNat n - UInt64.ofNat (n + 1)).toNat = 2 ^ 64 - 1 := by
  simp only [UInt64.toNat_sub, UInt64.toNat_ofNat']
  omega

/-- Counters less than a turn apart differ unless they are the same. -/
theorem ofNat_inj (le : p ≤ n) (near : n < p + 2 ^ 64) :
    UInt64.ofNat n = UInt64.ofNat p ↔ n = p := by
  constructor
  · intro same
    have := congrArg UInt64.toNat same
    simp only [UInt64.toNat_ofNat'] at this
    omega
  · rintro rfl
    rfl

/-- The distance of two counters, when it is compared with a number below a full turn. -/
theorem sub_eq_ofNat (le : p ≤ n) (near : n < p + 2 ^ 64) (lt : k < 2 ^ 64) :
    UInt64.ofNat n - UInt64.ofNat p = UInt64.ofNat k ↔ n = p + k := by
  rw [sub_ofNat le]
  constructor
  · intro same
    have := congrArg UInt64.toNat same
    simp only [UInt64.toNat_ofNat'] at this
    omega
  · rintro rfl
    rw [Nat.add_sub_cancel_left]

/-- A counter that is not yet at another one comes closer with each increment. -/
theorem sub_succ_lt {a b : UInt64} (ne : a ≠ b) : (a - (b + 1)).toNat < (a - b).toNat := by
  have apart : a.toNat ≠ b.toNat := fun same => ne (UInt64.toNat_inj.mp same)
  have one : (1 : UInt64).toNat = 1 := rfl
  have := a.toNat_lt
  have := b.toNat_lt
  simp only [UInt64.toNat_sub, UInt64.toNat_add, one]
  omega

/-- One more than a power of two of places is still less than a turn. -/
theorem two_pow_succ_lt (lt : k < 64) : 2 ^ k + 1 < 2 ^ 64 := by
  have le : 2 ^ k ≤ 2 ^ 63 := Nat.pow_le_pow_right (by decide) (by omega)
  omega

/-- Masking by a power of two less one is the remainder, however often the counter wrapped. -/
theorem toNat_and_mask (lt : k < 64) :
    (UInt64.ofNat n &&& (UInt64.ofNat (2 ^ k) - 1)).toNat = n % 2 ^ k := by
  have pos : 0 < 2 ^ k := Nat.two_pow_pos k
  have below : 2 ^ k < 2 ^ 64 := Nat.pow_lt_pow_right (by decide) lt
  have mask : (UInt64.ofNat (2 ^ k) - 1).toNat = 2 ^ k - 1 := by
    have one : (1 : UInt64) = UInt64.ofNat 1 := rfl
    rw [one, sub_ofNat pos, UInt64.toNat_ofNat', Nat.mod_eq_of_lt (by omega)]
  rw [UInt64.toNat_and, mask, Nat.and_two_pow_sub_one_eq_mod, UInt64.toNat_ofNat',
    Nat.mod_mod_of_dvd n (Nat.pow_dvd_pow 2 lt.le)]

end Counter
