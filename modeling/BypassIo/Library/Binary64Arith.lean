import BypassIo.Library.Binary64

/-!
# Sums and products of binary64 numbers

The exact sum or product of two words without sign bits is a number of units of
`2 ^ -(1074 + s)`, where `s` is 0 for a sum and 1074 for a product. It is rounded once, to the
nearest word, ties to even.

## Main definitions

* `roundUnits`: the word of an exact result.
* `add`, `mul`: the operations on words without sign bits.

## Main results

* `le_roundUnits`, `roundUnits_le`: rounding does not pass a word.
-/

namespace Binary64

variable {a b c n s : Nat}

/-- The word of infinity. -/
def infinity : Nat := 2047 * 2 ^ 52

instance (g v : Int) : Decidable (RoundsUpIn g v) := inferInstanceAs (Decidable (_ ∨ _))

/-- The word nearest to `n` units of `2 ^ -(1074 + s)`. Below `2 ^ -1022` a word is its units. -/
def roundUnits (s n : Nat) : Nat :=
  if n < 2 ^ (52 + s) then n / 2 ^ s + if RoundsUpIn (2 ^ s) n then 1 else 0
  else min infinity (encode n - (bias + s) * 2 ^ 52)

def add (a b : Nat) : Nat := roundUnits 0 (units a + units b)

def mul (a b : Nat) : Nat := roundUnits bias (units a * units b)

/-! ## Rounding and order -/

/-- One more in the exponent doubles the value. -/
theorem units_add_mul (h : 2 ^ 52 ≤ c) (k : Nat) : units (c + k * 2 ^ 52) = units c * 2 ^ k := by
  obtain ⟨e, f, lt, rfl⟩ := exists_fields h
  have fields : (e + 1) * 2 ^ 52 + f + k * 2 ^ 52 = (e + k + 1) * 2 ^ 52 + f := by ring
  rw [fields, units_fields lt, units_fields lt, Nat.mul_assoc, ← Nat.pow_add]

theorem representable_units (h : 2 ^ 52 ≤ c) (s : Nat) : Representable (units c * 2 ^ s : Nat) := by
  refine ⟨c + (bias + s) * 2 ^ 52, ?_⟩
  rw [units_add_mul h, Int.natAbs_natCast, Nat.pow_add, Nat.mul_comm (2 ^ bias), Nat.mul_assoc]

/-- The word of a normal number is compared as its value. -/
theorem add_mul_le_encode_iff (h : 2 ^ 52 ≤ c) :
    c + (bias + s) * 2 ^ 52 ≤ encode n ↔ ((units c * 2 ^ s : Nat) : Int) ≤ nearest n := by
  have one : (0 : Int) < 2 ^ bias := by positivity
  rw [← units_strictMono.le_iff_le, ← Int.ofNat_le, units_encode, units_add_mul h, Nat.add_comm bias,
    Nat.pow_add, ← Nat.mul_assoc, Nat.cast_mul (units c * 2 ^ s), Nat.cast_pow, Nat.cast_ofNat,
    mul_le_mul_iff_of_pos_right one]

theorem encode_le_add_mul_iff (h : 2 ^ 52 ≤ c) :
    encode n ≤ c + (bias + s) * 2 ^ 52 ↔ nearest n ≤ ((units c * 2 ^ s : Nat) : Int) := by
  have one : (0 : Int) < 2 ^ bias := by positivity
  rw [← units_strictMono.le_iff_le, ← Int.ofNat_le, units_encode, units_add_mul h, Nat.add_comm bias,
    Nat.pow_add, ← Nat.mul_assoc, Nat.cast_mul (units c * 2 ^ s), Nat.cast_pow, Nat.cast_ofNat,
    mul_le_mul_iff_of_pos_right one]

theorem units_two_pow : units (2 ^ 52) = 2 ^ 52 := units_fields (e := 0) (f := 0) (by decide)

/-- A word that is not above the exact result is not above the rounded one. -/
theorem le_roundUnits (finite : c ≤ infinity) (le : units c * 2 ^ s ≤ n) : c ≤ roundUnits s n := by
  unfold roundUnits
  split
  · next small =>
    have subnormal : units c < 2 ^ 52 := by
      rw [Nat.pow_add] at small
      exact Nat.lt_of_mul_lt_mul_right (Nat.lt_of_le_of_lt le small)
    have lt : c < 2 ^ 52 := by rwa [← units_strictMono.lt_iff_lt, units_two_pow]
    rw [units_of_lt lt] at le
    have := (Nat.le_div_iff_mul_le (Nat.two_pow_pos s)).mpr le
    omega
  · next large =>
    refine Nat.le_min.mpr ⟨finite, ?_⟩
    -- A subnormal word is below the first normal one, which the result has reached.
    have normal : ∀ c, 2 ^ 52 ≤ c → units c * 2 ^ s ≤ n → c ≤ encode n - (bias + s) * 2 ^ 52 := by
      intro c h le
      have := (add_mul_le_encode_iff h).mpr (le_nearest (representable_units h s) (Int.ofNat_le.mpr le))
      omega
    by_cases h : 2 ^ 52 ≤ c
    · exact normal c h le
    · have first : 2 ^ 52 ≤ encode n - (bias + s) * 2 ^ 52 := by
        refine normal _ (Nat.le_refl _) ?_
        rw [units_two_pow, ← Nat.pow_add]
        omega
      omega

/-- A word that is not below the exact result is not below the rounded one. -/
theorem roundUnits_le (le : n ≤ units c * 2 ^ s) : roundUnits s n ≤ c := by
  unfold roundUnits
  split
  · next small =>
    by_cases h : c < 2 ^ 52
    · rw [units_of_lt h] at le
      have pos := Nat.two_pow_pos s
      obtain lt | rfl := Nat.lt_or_eq_of_le le
      · have := (Nat.div_lt_iff_lt_mul pos).mpr lt
        split <;> omega
      · have whole : ¬ RoundsUpIn (2 ^ s) (c * 2 ^ s : Nat) := by
          apply not_roundsUpIn_of_dvd <;> simp
        rw [if_neg whole, Nat.mul_div_cancel _ pos, Nat.add_zero]
    · have : n / 2 ^ s < 2 ^ 52 := by
        rwa [Nat.div_lt_iff_lt_mul (Nat.two_pow_pos s), ← Nat.pow_add]
      split <;> omega
  · next large =>
    have normal : 2 ^ 52 ≤ c := by
      rw [Nat.pow_add] at large
      have : 2 ^ 52 ≤ units c :=
        Nat.le_of_mul_le_mul_right ((Nat.not_lt.mp large).trans le) (Nat.two_pow_pos s)
      rwa [← units_two_pow, units_strictMono.le_iff_le] at this
    have := (encode_le_add_mul_iff (s := s) normal).mpr
      (nearest_le (representable_units normal s) (Int.ofNat_le.mpr le))
    exact (Nat.min_le_right _ _).trans (by omega)

/-! ## Sums and products -/

theorem le_add (finite : c ≤ infinity) (le : units c ≤ units a + units b) : c ≤ add a b :=
  le_roundUnits finite (by simpa using le)

theorem add_le (le : units a + units b ≤ units c) : add a b ≤ c :=
  roundUnits_le (by simpa using le)

theorem le_mul (finite : c ≤ infinity) (le : units c * 2 ^ bias ≤ units a * units b) :
    c ≤ mul a b :=
  le_roundUnits finite le

theorem mul_le (le : units a * units b ≤ units c * 2 ^ bias) : mul a b ≤ c := roundUnits_le le

/-- An integer of at most 53 bits is a word. -/
theorem units_encode_of_small (h : n < 2 ^ 53) : units (encode n) = n * 2 ^ bias := by
  have exact := units_encode n
  rw [nearest_of_small (by simpa using h)] at exact
  exact_mod_cast exact

/-- 0.1 + 0.2 -/
example : add 0x3fb999999999999a 0x3fc999999999999a = 0x3fd3333333333334 := by decide +kernel

/-- 0.1 * 3 -/
example : mul 0x3fb999999999999a 0x4008000000000000 = 0x3fd3333333333334 := by decide +kernel

end Binary64
