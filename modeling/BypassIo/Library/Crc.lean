import BypassIo.Library.Bytes
import Mathlib.Logic.Function.Iterate

/-!
# Reflected checksums

The bitwise reflected cyclic redundancy check over a state of `w` bits. One bit is a bijection
on the states when the polynomial has its top bit, and it is linear, so the state after a few
bytes depends on the exclusive or of the state before them and the word they spell.

## Main results

* `run_window`: bytes that fit in one state are determined by the states around them.
* `run_eq_residue`: a message ends with its own complemented state exactly when the state after
  it is a constant.
-/

namespace Octet.Crc

variable {w : Nat}

/-- One bit, least significant first. -/
def bit (poly s : BitVec w) : BitVec w := (s >>> 1) ^^^ if s.getLsbD 0 then poly else 0#w

def bits (poly : BitVec w) (n : Nat) (s : BitVec w) : BitVec w := (bit poly)^[n] s

def byte (poly s : BitVec w) (b : UInt8) : BitVec w := bits poly 8 (s ^^^ b.toBitVec.setWidth w)

/-- The state after some bytes. -/
def run (poly s : BitVec w) (bytes : Bytes) : BitVec w := bytes.foldl (byte poly) s

/-- The word that bytes spell, least significant first. -/
def word (w : Nat) : Bytes → BitVec w
  | [] => 0#w
  | b :: bytes => b.toBitVec.setWidth w ^^^ (word w bytes <<< 8)

variable {poly s t : BitVec w} {bytes : Bytes}

/-! ## Bits -/

@[grind =] theorem getLsbD_bit (poly s : BitVec w) (i : Nat) :
    (bit poly s).getLsbD i = (s.getLsbD (1 + i) ^^ (s.getLsbD 0 && poly.getLsbD i)) := by
  simp only [bit, BitVec.getLsbD_xor, BitVec.getLsbD_ushiftRight]
  cases s.getLsbD 0 <;> simp

/-- The low bit comes out as the top bit, and the others can be shifted back. -/
theorem bit_injective (top : poly.msb = true) : Function.Injective (bit poly) := by
  intro s t same
  have at_bit : ∀ i, (bit poly s).getLsbD i = (bit poly t).getLsbD i := fun i => by rw [same]
  have low : s.getLsbD 0 = t.getLsbD 0 := by
    have last := at_bit (w - 1)
    rw [BitVec.msb_eq_getLsbD_last] at top
    rw [getLsbD_bit, getLsbD_bit, top, BitVec.getLsbD_of_ge s _ (by omega),
      BitVec.getLsbD_of_ge t _ (by omega)] at last
    simpa using last
  refine BitVec.eq_of_getLsbD_eq fun i hi => ?_
  rcases i with _ | i
  · exact low
  · have here := at_bit i
    rw [getLsbD_bit, getLsbD_bit, low] at here
    rw [Nat.add_comm]
    exact Bool.xor_left_inj.mp here

theorem bit_xor (s t : BitVec w) : bit poly (s ^^^ t) = bit poly s ^^^ bit poly t := by
  refine BitVec.eq_of_getLsbD_eq fun i hi => ?_
  rw [BitVec.getLsbD_xor, getLsbD_bit, getLsbD_bit, getLsbD_bit, BitVec.getLsbD_xor,
    BitVec.getLsbD_xor]
  grind

/-- A bit that is shifted in below a state comes out again. -/
theorem bit_shiftLeft (high : s.getLsbD (w - 1) = false) : bit poly (s <<< 1) = s := by
  refine BitVec.eq_of_getLsbD_eq fun i hi => ?_
  rw [getLsbD_bit, BitVec.getLsbD_shiftLeft, BitVec.getLsbD_shiftLeft]
  have last : i = w - 1 → s.getLsbD i = false := fun same => same ▸ high
  by_cases top : 1 + i < w
  · simp [top]
  · simp [top, last (by omega)]

theorem bits_injective (top : poly.msb = true) (n : Nat) : Function.Injective (bits poly n) :=
  (bit_injective top).iterate n

theorem bits_add (n m : Nat) (s : BitVec w) : bits poly (n + m) s = bits poly n (bits poly m s) :=
  Function.iterate_add_apply _ n m s

theorem bits_xor (n : Nat) (s t : BitVec w) :
    bits poly n (s ^^^ t) = bits poly n s ^^^ bits poly n t := by
  induction n with
  | zero => rfl
  | succ n ih =>
    rw [Nat.add_comm, bits_add, ih, bits_add, bits_add]
    exact bit_xor _ _

/-- Bits that are shifted in below a state come out again. -/
theorem bits_shiftLeft (n : Nat) (high : ∀ i, w ≤ i + n → s.getLsbD i = false) :
    bits poly n (s <<< n) = s := by
  induction n generalizing s with
  | zero => simp [bits]
  | succ n ih =>
    have split : s <<< (n + 1) = (s <<< n) <<< 1 := by rw [BitVec.shiftLeft_add]
    have first : bit poly ((s <<< n) <<< 1) = s <<< n := by
      refine bit_shiftLeft ?_
      rw [BitVec.getLsbD_shiftLeft]
      by_cases low : w - 1 < n
      · simp [low]
      · simp [high (w - 1 - n) (by omega)]
    rw [split, bits_add]
    change bits poly n (bit poly ((s <<< n) <<< 1)) = s
    rw [first]
    exact ih fun i hi => high i (by omega)

/-! ## Bytes -/

@[simp] theorem run_nil (s : BitVec w) : run poly s [] = s := rfl

@[simp] theorem run_cons (s : BitVec w) (b : UInt8) (bytes : Bytes) :
    run poly s (b :: bytes) = run poly (byte poly s b) bytes := rfl

@[simp] theorem run_append (s : BitVec w) (front back : Bytes) :
    run poly s (front ++ back) = run poly (run poly s front) back := List.foldl_append

theorem byte_injective (top : poly.msb = true) (b : UInt8) :
    Function.Injective fun s => byte poly s b := by
  intro s t same
  have inside := bits_injective top 8 same
  exact (BitVec.xor_left_inj _).mp inside

/-- The state before some bytes is determined by the state after them. -/
theorem run_injective (top : poly.msb = true) (bytes : Bytes) :
    Function.Injective fun s => run poly s bytes := by
  induction bytes with
  | nil => exact fun _ _ same => same
  | cons b bytes ih => exact fun _ _ same => byte_injective top b (ih same)

theorem getLsbD_word_of_le (bytes : Bytes) {i : Nat} (h : 8 * bytes.length ≤ i) :
    (word w bytes).getLsbD i = false := by
  induction bytes generalizing i with
  | nil => simp [word]
  | cons b bytes ih =>
    rw [List.length_cons] at h
    simp only [word, BitVec.getLsbD_xor, BitVec.getLsbD_setWidth, BitVec.getLsbD_shiftLeft]
    rw [BitVec.getLsbD_of_ge b.toBitVec i (by omega), ih (by omega)]
    simp

/-- The word is the number that the bytes denote. -/
theorem word_eq_ofNat (bytes : Bytes) : word w bytes = BitVec.ofNat w (leNat bytes) := by
  induction bytes with
  | nil => rfl
  | cons b bytes ih =>
    refine BitVec.eq_of_getLsbD_eq fun i hi => ?_
    have small : b.toNat < 2 ^ 8 := b.toNat_lt
    have split := Nat.testBit_two_pow_mul_add (leNat bytes) small i
    have value : leNat (b :: bytes) = 2 ^ 8 * leNat bytes + b.toNat := by
      rw [leNat]
      omega
    rw [word, ih, value, BitVec.getLsbD_ofNat, split]
    simp only [BitVec.getLsbD_xor, BitVec.getLsbD_setWidth, BitVec.getLsbD_shiftLeft,
      BitVec.getLsbD_ofNat]
    by_cases low : i < 8
    · simp [low, hi, BitVec.getLsbD]
    · simp [low, hi, BitVec.getLsbD_of_ge b.toBitVec i (by omega), show i - 8 < w by omega]

/-- Bytes that fit in one state enter it at once. -/
theorem run_eq_bits (bytes : Bytes) (fits : 8 * bytes.length ≤ w) (s : BitVec w) :
    run poly s bytes = bits poly (8 * bytes.length) (s ^^^ word w bytes) := by
  induction bytes generalizing s with
  | nil => simp [word, bits]
  | cons b bytes ih =>
    rw [List.length_cons] at fits
    have later : bits poly 8 (word w bytes <<< 8) = word w bytes :=
      bits_shiftLeft 8 fun i hi => getLsbD_word_of_le bytes (by omega)
    have first : byte poly s b ^^^ word w bytes = bits poly 8 (s ^^^ word w (b :: bytes)) := by
      rw [word, ← BitVec.xor_assoc, bits_xor 8 (s ^^^ b.toBitVec.setWidth w), later, byte]
    rw [run_cons, ih (by omega), List.length_cons, Nat.mul_succ, bits_add, first]

/-- Bytes that fit in one state are determined by the word they spell. -/
theorem word_injective {front back : Bytes} (len : front.length = back.length)
    (fits : 8 * front.length ≤ w) (same : word w front = word w back) : front = back := by
  induction front generalizing back with
  | nil => exact (List.length_eq_zero_iff.mp len.symm).symm
  | cons a front ih =>
    obtain _ | ⟨b, back⟩ := back
    · cases len
    rw [List.length_cons] at fits
    have shorter : front.length = back.length := Nat.succ.inj len
    have at_bit : ∀ i, (word w (a :: front)).getLsbD i = (word w (b :: back)).getLsbD i :=
      fun i => by rw [same]
    simp only [word, BitVec.getLsbD_xor, BitVec.getLsbD_setWidth, BitVec.getLsbD_shiftLeft] at at_bit
    have first : a = b := by
      refine UInt8.toBitVec_inj.mp (BitVec.eq_of_getLsbD_eq fun i hi => ?_)
      have here := at_bit i
      have inside : i < w := by omega
      simpa [inside, hi] using here
    subst first
    refine congrArg (a :: ·) (ih shorter (by omega) (BitVec.eq_of_getLsbD_eq fun i hi => ?_))
    by_cases low : i + 8 < w
    · have here := at_bit (i + 8)
      simpa [low] using here
    · rw [getLsbD_word_of_le front (by omega), getLsbD_word_of_le back (by omega)]

/-- Bytes that fit in one state are determined by the states around them. -/
theorem run_window (top : poly.msb = true) {front window window' back : Bytes}
    (len : window.length = window'.length) (fits : 8 * window.length ≤ w)
    (same : run poly s (front ++ (window ++ back)) = run poly s (front ++ (window' ++ back))) :
    window = window' := by
  simp only [run_append] at same
  have inside := run_injective top back same
  rw [run_eq_bits window fits, run_eq_bits window' (by omega), ← len] at inside
  have words := bits_injective top _ inside
  exact word_injective len fits ((BitVec.xor_right_inj _).mp words)

/-! ## The residue -/

/-- The state after any message that ends with its own complemented state. -/
def residue (poly : BitVec w) : BitVec w := bits poly w (BitVec.allOnes w)

/-- A message ends with its own complemented state exactly when the state after it is the
residue. -/
theorem run_eq_residue (top : poly.msb = true) {body trailer : Bytes}
    (fits : 8 * trailer.length = w) :
    run poly s (body ++ trailer) = residue poly ↔ word w trailer = ~~~ run poly s body := by
  rw [run_append, run_eq_bits trailer fits.le, fits, residue]
  have cancel : ∀ x y : BitVec w, x ^^^ y = BitVec.allOnes w ↔ y = ~~~ x := by
    intro x y
    rw [BitVec.not_def, BitVec.xor_comm (BitVec.allOnes w), ← BitVec.xor_right_inj x,
      ← BitVec.xor_assoc, BitVec.xor_self, BitVec.zero_xor]
  rw [← cancel]
  exact (bits_injective top w).eq_iff

end Octet.Crc
