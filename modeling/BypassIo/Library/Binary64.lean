import Mathlib.Algebra.Order.Ring.Int
import Mathlib.Algebra.Order.Ring.Nat
import Mathlib.Data.Int.Order.Lemmas
import Mathlib.Order.Monotone.Basic
import Mathlib.Tactic.Linarith
import Mathlib.Tactic.Ring

/-!
# Integers as binary64 numbers

A word without its sign bit stands for a number of units of `2 ^ -1074`. An integer is rounded
to the nearest number with 53 significant bits, ties to even, and rounding never passes a number
that is itself representable: where it changes the order with such a bound at all, it lands on
the bound.

## Main definitions

* `units`: the value of a word without its sign.
* `nearest`, `encode`: an integer rounded, and the word of a rounded number.
* `RoundsUpTo`, `RoundsDownTo`: the integer lies in the part of a gap that rounds to its end.

## Main results

* `units_encode`: the word of an integer has the value of the rounded integer.
* `le_nearest_iff`, `nearest_lt_iff`, `lt_nearest_iff`: comparing a rounded integer.
-/

namespace Binary64

/-- The units in 1, as a power of two. -/
def bias : Nat := 1074

/-! ## Words -/

/-- The value of a word without its sign bit, in units of `2 ^ -1074`. -/
def units (m : Nat) : Nat :=
  if m < 2 ^ 52 then m else (2 ^ 52 + m % 2 ^ 52) * 2 ^ (m / 2 ^ 52 - 1)

theorem units_of_lt {m : Nat} (h : m < 2 ^ 52) : units m = m := if_pos h

theorem units_fields {e f : Nat} (h : f < 2 ^ 52) :
    units ((e + 1) * 2 ^ 52 + f) = (2 ^ 52 + f) * 2 ^ e := by
  have fraction : ((e + 1) * 2 ^ 52 + f) % 2 ^ 52 = f := by omega
  have exponent : ((e + 1) * 2 ^ 52 + f) / 2 ^ 52 - 1 = e := by omega
  rw [units, if_neg (by omega), fraction, exponent]

/-- The fields of a word of a normal number. -/
theorem exists_fields {m : Nat} (h : 2 ^ 52 ≤ m) : ∃ e f, f < 2 ^ 52 ∧ m = (e + 1) * 2 ^ 52 + f :=
  ⟨m / 2 ^ 52 - 1, m % 2 ^ 52, by omega, by omega⟩

theorem units_lt_succ (m : Nat) : units m < units (m + 1) := by
  by_cases small : m < 2 ^ 52
  · rw [units_of_lt small]
    by_cases last : m + 1 < 2 ^ 52
    · rw [units_of_lt last]
      exact Nat.lt_succ_self m
    · have one : m + 1 = (0 + 1) * 2 ^ 52 + 0 := by omega
      rw [one, units_fields (by decide)]
      omega
  · obtain ⟨e, f, lt, rfl⟩ := exists_fields (Nat.le_of_not_lt small)
    have pos : 0 < 2 ^ e := Nat.two_pow_pos e
    rw [units_fields lt]
    by_cases last : f + 1 < 2 ^ 52
    · rw [Nat.add_assoc, units_fields last]
      exact (Nat.mul_lt_mul_right pos).mpr (by omega)
    · -- The fraction carries into the exponent.
      have carry : (e + 1) * 2 ^ 52 + f + 1 = (e + 1 + 1) * 2 ^ 52 + 0 := by omega
      rw [carry, units_fields (by decide), pow_succ 2 e]
      have half : (2 ^ 52 + f) * 2 ^ e < 2 ^ 53 * 2 ^ e := (Nat.mul_lt_mul_right pos).mpr (by omega)
      omega

theorem units_strictMono : StrictMono units := strictMono_nat_of_lt_succ units_lt_succ

/-- A representable integer of many bits ends in zeros. -/
theorem dvd_of_units {m n k : Nat} (h : units m = n * 2 ^ bias) (big : 2 ^ (52 + k) ≤ n) :
    2 ^ k ∣ n := by
  have large : 2 ^ (52 + k + bias) ≤ units m := by
    rw [h, Nat.pow_add]
    exact Nat.mul_le_mul_right _ big
  by_cases small : m < 2 ^ 52
  · have least : 2 ^ 52 ≤ 2 ^ (52 + k + bias) := Nat.pow_le_pow_right (by decide) (by omega)
    rw [units_of_lt small] at large
    omega
  · obtain ⟨e, f, lt, rfl⟩ := exists_fields (Nat.le_of_not_lt small)
    rw [units_fields lt] at h large
    have below : (2 ^ 52 + f) * 2 ^ e < 2 ^ (53 + e) := by
      rw [Nat.pow_add]
      exact (Nat.mul_lt_mul_right (Nat.two_pow_pos e)).mpr (by omega)
    have exponent : 52 + k + bias < 53 + e :=
      (Nat.pow_lt_pow_iff_right (by decide)).mp (large.trans_lt below)
    have whole : 2 ^ (k + bias) ∣ n * 2 ^ bias := by
      rw [← h]
      exact (Nat.pow_dvd_pow 2 (by omega)).mul_left _
    rw [Nat.pow_add] at whole
    exact Nat.dvd_of_mul_dvd_mul_right (Nat.two_pow_pos bias) whole

/-! ## Rounding -/

/-- The distance between the representable numbers around `n`, at least 1. -/
def gap (n : Nat) : Nat := 2 ^ (n.log2 - 52)

theorem gap_pos (n : Nat) : 0 < gap n := Nat.two_pow_pos _

/-- Past 53 bits a number has 53 bits more than its gap. -/
theorem gap_eq_one_or (n : Nat) : gap n = 1 ∨ 2 ^ 52 * gap n ≤ n := by
  by_cases small : n.log2 ≤ 52
  · left
    rw [gap, Nat.sub_eq_zero_of_le small, Nat.pow_zero]
  · right
    have pos : n ≠ 0 := fun zero => small (by simp [zero])
    rw [gap, ← Nat.pow_add, Nat.add_sub_cancel' (Nat.le_of_not_le small)]
    exact Nat.log2_self_le pos

theorem gap_eq_one_of_lt {n : Nat} (h : n < 2 ^ 53) : gap n = 1 := by
  have := gap_eq_one_or n
  by_cases zero : n = 0
  · simp [gap, zero]
  · have bits := (Nat.log2_lt zero).mpr h
    rw [gap, Nat.sub_eq_zero_of_le (by omega), Nat.pow_zero]

/-- The part above the multiple of the gap is more than half of it, or exactly half above an
odd multiple. -/
def RoundsUpIn (g v : Int) : Prop := g < 2 * (v % g) ∨ g = 2 * (v % g) ∧ v / g % 2 = 1

def RoundsUp (v : Int) : Prop := RoundsUpIn (gap v.natAbs) v

instance (v : Int) : Decidable (RoundsUp v) := inferInstanceAs (Decidable (_ ∨ _))

/-- The multiple of the gap that is not above `v`. -/
def below (v : Int) : Int := v - v % gap v.natAbs

/-- `v` rounded to 53 significant bits, ties to even. -/
def nearest (v : Int) : Int := if RoundsUp v then below v + gap v.natAbs else below v

/-- `v` lies in the upper half of a gap that ends at `c`. -/
def RoundsUpTo (v c : Int) : Prop := RoundsUp v ∧ c = below v + gap v.natAbs

/-- `v` lies in the lower half of a gap that starts at `c`. -/
def RoundsDownTo (v c : Int) : Prop := ¬ RoundsUp v ∧ v ≠ c ∧ c = below v

instance (v c : Int) : Decidable (RoundsUpTo v c) := inferInstanceAs (Decidable (_ ∧ _))

instance (v c : Int) : Decidable (RoundsDownTo v c) := inferInstanceAs (Decidable (_ ∧ _))

theorem below_le (v : Int) : below v ≤ v := by
  have := Int.emod_nonneg v (Int.natCast_ne_zero.mpr (gap_pos v.natAbs).ne')
  unfold below
  omega

theorem lt_below_add (v : Int) : v < below v + gap v.natAbs := by
  have := Int.emod_lt_of_pos v (Int.natCast_pos.mpr (gap_pos v.natAbs))
  unfold below
  omega

theorem below_le_nearest (v : Int) : below v ≤ nearest v := by
  unfold nearest
  split <;> omega

theorem RoundsUpTo.lt {v c : Int} (h : RoundsUpTo v c) : v < c := h.2 ▸ lt_below_add v

theorem RoundsDownTo.lt {v c : Int} (h : RoundsDownTo v c) : c < v := by
  have := below_le v
  have := h.2.1
  have := h.2.2
  omega

theorem roundsUpTo_iff {v c : Int} : RoundsUpTo v c ↔ v < c ∧ nearest v = c := by
  refine ⟨fun h => ⟨h.lt, by rw [nearest, if_pos h.1, h.2]⟩, fun ⟨lt, same⟩ => ?_⟩
  have := below_le v
  unfold nearest at same
  split at same
  · exact ⟨‹_›, same.symm⟩
  · omega

theorem roundsDownTo_iff {v c : Int} : RoundsDownTo v c ↔ c < v ∧ nearest v = c := by
  refine ⟨fun h => ⟨h.lt, by rw [nearest, if_neg h.1, h.2.2]⟩, fun ⟨lt, same⟩ => ?_⟩
  have := lt_below_add v
  unfold nearest at same
  split at same
  · omega
  · exact ⟨‹_›, by omega, same.symm⟩

/-- Numbers of at most 53 bits are not rounded. -/
theorem nearest_of_small {v : Int} (h : v.natAbs < 2 ^ 53) : nearest v = v := by
  have one := gap_eq_one_of_lt h
  have whole : below v = v := by
    rw [below, one]
    omega
  have stays : ¬ RoundsUp v := by
    rw [RoundsUp, RoundsUpIn, one]
    omega
  rw [nearest, if_neg stays, whole]

/-! ### Rounding a negative number -/

/-- A remainder changes sides with the sign. -/
theorem neg_emod_ediv {g v : Int} (pos : 0 < g) (part : v % g ≠ 0) :
    -v / g = -(v / g) - 1 ∧ -v % g = g - v % g := by
  have lo := Int.emod_nonneg v pos.ne'
  have hi := Int.emod_lt_of_pos v pos
  have whole := Int.mul_ediv_add_emod v g
  refine (Int.ediv_emod_unique pos).mpr ⟨?_, by omega, by omega⟩
  rw [mul_sub, mul_neg]
  omega

theorem roundsUpIn_neg {g v : Int} (pos : 0 < g) (part : v % g ≠ 0) :
    RoundsUpIn g (-v) ↔ ¬ RoundsUpIn g v := by
  obtain ⟨quotient, remainder⟩ := neg_emod_ediv pos part
  rw [RoundsUpIn, RoundsUpIn, quotient, remainder]
  omega

theorem not_roundsUpIn_of_dvd {g v : Int} (pos : 0 < g) (whole : v % g = 0) :
    ¬ RoundsUpIn g v := by
  rw [RoundsUpIn, whole]
  omega

/-- Rounding does not look at the sign. -/
theorem nearest_neg (v : Int) : nearest (-v) = -nearest v := by
  have pos : (0 : Int) < gap v.natAbs := Int.natCast_pos.mpr (gap_pos v.natAbs)
  have mirrored : RoundsUp (-v) ↔ RoundsUpIn (gap v.natAbs) (-v) := by
    rw [RoundsUp, Int.natAbs_neg]
  by_cases whole : v % gap v.natAbs = 0
  · have other : -v % gap v.natAbs = 0 :=
      Int.emod_eq_zero_of_dvd ((Int.dvd_of_emod_eq_zero whole).neg_right)
    have stays : ¬ RoundsUp v := not_roundsUpIn_of_dvd pos whole
    have stays' : ¬ RoundsUp (-v) := mirrored.not.mpr (not_roundsUpIn_of_dvd pos other)
    rw [nearest, nearest, if_neg stays, if_neg stays', below, below, Int.natAbs_neg, whole, other]
    omega
  · have remainder := (neg_emod_ediv pos whole).2
    have opposite : RoundsUp (-v) ↔ ¬ RoundsUp v := mirrored.trans (roundsUpIn_neg pos whole)
    by_cases up : RoundsUp v
    · rw [nearest, nearest, if_pos up, if_neg fun down => opposite.mp down up, below, below,
        Int.natAbs_neg, remainder]
      omega
    · rw [nearest, nearest, if_neg up, if_pos (opposite.mpr up), below, below, Int.natAbs_neg,
        remainder]
      omega

/-! ### The word of a rounded number -/

/-- The 53 bits that are kept of `n`, rounded. -/
def quotient (n : Nat) : Nat := n / gap n + if RoundsUp n then 1 else 0

/-- The word of `n` rounded; a quotient of `2 ^ 53` carries into the exponent. -/
def encode (n : Nat) : Nat :=
  if n = 0 then 0 else (n.log2 + 1022) * 2 ^ 52 + quotient n * 2 ^ (52 - n.log2)

theorem nearest_natCast (n : Nat) : nearest n = quotient n * gap n := by
  have whole : below n = (n / gap n * gap n : Nat) := by
    have grid := Int.mul_ediv_add_emod n (gap n)
    rw [below, Int.natAbs_natCast, Nat.cast_mul, Int.natCast_ediv, mul_comm]
    omega
  unfold nearest quotient
  split
  · rw [whole, Int.natAbs_natCast]
    push_cast
    ring
  · rw [whole]
    simp

theorem quotient_of_small {n : Nat} (h : n < 2 ^ 53) : quotient n = n := by
  have kept := nearest_of_small (v := n) h
  rw [nearest_natCast, gap_eq_one_of_lt h, Nat.cast_one, mul_one] at kept
  exact_mod_cast kept

/-- The quotient, moved to the top of 53 bits. -/
theorem quotient_bounds {n : Nat} (h : n ≠ 0) :
    2 ^ 52 ≤ quotient n * 2 ^ (52 - n.log2) ∧ quotient n * 2 ^ (52 - n.log2) ≤ 2 ^ 53 := by
  have lo := Nat.log2_self_le h
  have hi := Nat.lt_log2_self (n := n)
  by_cases small : n.log2 ≤ 52
  · have few : n < 2 ^ 53 := hi.trans_le (Nat.pow_le_pow_right (by decide) (by omega))
    have lower := Nat.mul_le_mul_right (2 ^ (52 - n.log2)) lo
    have upper := Nat.mul_le_mul_right (2 ^ (52 - n.log2)) hi.le
    rw [← Nat.pow_add, Nat.add_sub_cancel' small] at lower
    rw [← Nat.pow_add, show n.log2 + 1 + (52 - n.log2) = 53 by omega] at upper
    rw [quotient_of_small few]
    exact ⟨lower, upper⟩
  · have parts : 2 ^ 52 * gap n = 2 ^ n.log2 := by
      rw [gap, ← Nat.pow_add, Nat.add_sub_cancel' (Nat.le_of_not_le small)]
    have lower : 2 ^ 52 ≤ n / gap n := (Nat.le_div_iff_mul_le (gap_pos n)).mpr (parts ▸ lo)
    have upper : n / gap n < 2 ^ 53 := by
      rw [Nat.div_lt_iff_lt_mul (gap_pos n), pow_succ 2 52, mul_right_comm, parts]
      rwa [pow_succ] at hi
    rw [Nat.sub_eq_zero_of_le (Nat.le_of_not_le small), Nat.pow_zero, Nat.mul_one]
    unfold quotient
    split <;> omega

theorem units_word {e m : Nat} (lo : 2 ^ 52 ≤ m) (hi : m ≤ 2 ^ 53) :
    units (e * 2 ^ 52 + m) = m * 2 ^ e := by
  by_cases last : m < 2 ^ 53
  · have fields : e * 2 ^ 52 + m = (e + 1) * 2 ^ 52 + (m - 2 ^ 52) := by omega
    rw [fields, units_fields (by omega), Nat.add_sub_cancel' lo]
  · obtain rfl : m = 2 ^ 53 := by omega
    have fields : e * 2 ^ 52 + 2 ^ 53 = (e + 1 + 1) * 2 ^ 52 + 0 := by omega
    rw [fields, units_fields (by decide), pow_succ 2 e]
    omega

/-- The word of an integer has the value of the integer rounded. -/
theorem units_encode (n : Nat) : (units (encode n) : Int) = nearest n * 2 ^ bias := by
  by_cases zero : n = 0
  · subst zero
    rw [encode, if_pos rfl, Nat.cast_zero, nearest_of_small (by decide), units_of_lt (by decide),
      Nat.cast_zero, zero_mul]
  · obtain ⟨lo, hi⟩ := quotient_bounds zero
    have exponents : 52 - n.log2 + (n.log2 + 1022) = n.log2 - 52 + bias := by
      unfold bias
      omega
    rw [encode, if_neg zero, units_word lo hi, nearest_natCast, gap]
    push_cast
    rw [mul_assoc, mul_assoc, ← pow_add, ← pow_add, exponents]

/-- Words of numbers of at most 64 bits are finite. -/
theorem encode_lt {n : Nat} (h : n < 2 ^ 64) : encode n < 2047 * 2 ^ 52 := by
  by_cases zero : n = 0
  · subst zero
    decide
  · obtain ⟨-, hi⟩ := quotient_bounds zero
    have bits := (Nat.log2_lt zero).mpr h
    rw [encode, if_neg zero]
    omega

/-! ## Comparing a rounded integer -/

/-- Some word has the value of the integer. -/
def Representable (c : Int) : Prop := ∃ m, units m = c.natAbs * 2 ^ bias

theorem Representable.neg {c : Int} (h : Representable c) : Representable (-c) := by
  rwa [Representable, Int.natAbs_neg]

/-- A representable number is a multiple of the gap at `v`, or its magnitude is below all
multiples around `v`. -/
theorem Representable.dvd_or {c : Int} (h : Representable c) (v : Int) :
    (gap v.natAbs : Int) ∣ c ∨ (c.natAbs : Int) < 2 ^ 52 * gap v.natAbs ∧
      2 ^ 52 * (gap v.natAbs : Int) ≤ v.natAbs := by
  obtain ⟨m, value⟩ := h
  obtain one | many := gap_eq_one_or v.natAbs
  · simp [one]
  · by_cases small : c.natAbs < 2 ^ 52 * gap v.natAbs
    · exact .inr ⟨by exact_mod_cast small, by exact_mod_cast many⟩
    · left
      rw [Int.natCast_dvd]
      refine dvd_of_units value ?_
      rw [Nat.pow_add]
      exact Nat.le_of_not_lt small

/-- Rounding does not pass a representable number below. -/
theorem le_nearest {c v : Int} (h : Representable c) (le : c ≤ v) : c ≤ nearest v := by
  have pos : (0 : Int) < gap v.natAbs := Int.natCast_pos.mpr (gap_pos v.natAbs)
  have grid := Int.mul_ediv_add_emod v (gap v.natAbs)
  have lower : below v = gap v.natAbs * (v / gap v.natAbs) := by
    unfold below
    omega
  refine le_trans ?_ (below_le_nearest v)
  rw [lower]
  obtain ⟨k, rfl⟩ | ⟨few, many⟩ := h.dvd_or v
  · have steps : k ≤ v / gap v.natAbs := by
      have divided := Int.ediv_le_ediv pos le
      rwa [Int.mul_ediv_cancel_left _ pos.ne'] at divided
    exact Int.mul_le_mul_of_nonneg_left steps pos.le
  · have steps : 2 ^ 52 ≤ v / gap v.natAbs := by
      refine Int.le_ediv_of_mul_le pos ?_
      omega
    have wide := Int.mul_le_mul_of_nonneg_left steps pos.le
    omega

/-- Rounding does not pass a representable number above. -/
theorem nearest_le {c v : Int} (h : Representable c) (le : v ≤ c) : nearest v ≤ c := by
  have mirrored := le_nearest h.neg (Int.neg_le_neg le)
  rw [nearest_neg] at mirrored
  omega

theorem le_nearest_iff {c v : Int} (h : Representable c) :
    c ≤ nearest v ↔ c ≤ v ∨ RoundsUpTo v c := by
  rw [roundsUpTo_iff]
  have up := @le_nearest c v h
  have down := @nearest_le c v h
  omega

theorem nearest_lt_iff {c v : Int} (h : Representable c) :
    nearest v < c ↔ v < c ∧ ¬ RoundsUpTo v c := by
  rw [roundsUpTo_iff]
  have up := @le_nearest c v h
  have down := @nearest_le c v h
  omega

theorem lt_nearest_iff {c v : Int} (h : Representable c) :
    c < nearest v ↔ c < v ∧ ¬ RoundsDownTo v c := by
  rw [roundsDownTo_iff]
  have up := @le_nearest c v h
  have down := @nearest_le c v h
  omega

end Binary64
