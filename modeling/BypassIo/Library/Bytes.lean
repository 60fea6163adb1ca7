import Mathlib.Algebra.Group.Nat.Defs
import Mathlib.Tactic.Common
import Mathlib.Tactic.Ring
import Mathlib.Data.List.Basic

/-!
# Byte strings and little-endian words

Byte strings are lists of octets. A word of any width is written least significant
byte first; reading the written bytes back gives the word modulo its width, and
every byte string is the image of the number it denotes.

## Main definitions

* `leBytes`, `leNat`: little-endian writing and reading.
* `u64Bytes`, `u32Bytes`, `i64Bytes`: the widths used by Rust's `to_le_bytes`.
* `chunksExact`: Rust's `chunks_exact`.
-/

namespace Octet

/-- A byte string. -/
abbrev Bytes := List UInt8

/-! ## Little-endian words -/

/-- The `k` low bytes of `n`, least significant first. -/
def leBytes : Nat → Nat → Bytes
  | 0, _ => []
  | k + 1, n => UInt8.ofNat n :: leBytes k (n / 256)

/-- The number denoted by a little-endian byte string. -/
def leNat : Bytes → Nat
  | [] => 0
  | b :: bs => b.toNat + 256 * leNat bs

@[simp] theorem length_leBytes (k n : Nat) : (leBytes k n).length = k := by
  induction k generalizing n with
  | zero => rfl
  | succ k ih => simp [leBytes, ih]

theorem leNat_leBytes (k n : Nat) : leNat (leBytes k n) = n % 256 ^ k := by
  induction k generalizing n with
  | zero => simp [leBytes, leNat, Nat.mod_one]
  | succ k ih =>
    have split : n % 256 ^ (k + 1) = n % 256 + 256 * (n / 256 % 256 ^ k) := by
      rw [Nat.pow_succ, Nat.mul_comm, Nat.mod_mul]
    simp [leBytes, leNat, ih, split]

theorem leNat_lt (bs : Bytes) : leNat bs < 256 ^ bs.length := by
  induction bs with
  | nil => simp [leNat]
  | cons b bs ih =>
    have hb : b.toNat < 256 := b.toNat_lt
    simp only [leNat, List.length_cons, Nat.pow_succ]
    omega

theorem leBytes_leNat (bs : Bytes) : leBytes bs.length (leNat bs) = bs := by
  induction bs with
  | nil => rfl
  | cons b bs ih =>
    have hb : b.toNat < 256 := b.toNat_lt
    have low : UInt8.ofNat (b.toNat + 256 * leNat bs) = b := by
      apply UInt8.toNat_inj.mp
      simp
    have high : (b.toNat + 256 * leNat bs) / 256 = leNat bs := by omega
    simp only [List.length_cons, leBytes, leNat, low, high, ih]

/-! ## Machine words -/

/-- `u32::to_le_bytes`. -/
def u32Bytes (x : UInt32) : Bytes := leBytes 4 x.toNat

/-- `u32::from_le_bytes`. -/
def u32Of (bs : Bytes) : UInt32 := UInt32.ofNat (leNat bs)

/-- `u64::to_le_bytes`, also `f64::to_le_bytes` on the bit pattern. -/
def u64Bytes (x : UInt64) : Bytes := leBytes 8 x.toNat

/-- `u64::from_le_bytes`, also `f64::from_le_bytes` up to the bit pattern. -/
def u64Of (bs : Bytes) : UInt64 := UInt64.ofNat (leNat bs)

/-- `i64::to_le_bytes`: two's complement. -/
def i64Bytes (x : Int64) : Bytes := u64Bytes x.toUInt64

/-- `i64::from_le_bytes`. -/
def i64Of (bs : Bytes) : Int64 := (u64Of bs).toInt64

@[simp] theorem length_u32Bytes (x : UInt32) : (u32Bytes x).length = 4 := length_leBytes _ _
@[simp] theorem length_u64Bytes (x : UInt64) : (u64Bytes x).length = 8 := length_leBytes _ _
@[simp] theorem length_i64Bytes (x : Int64) : (i64Bytes x).length = 8 := length_leBytes _ _

@[simp] theorem u32Of_u32Bytes (x : UInt32) : u32Of (u32Bytes x) = x := by
  have hx : x.toNat < 256 ^ 4 := x.toNat_lt
  rw [u32Of, u32Bytes, leNat_leBytes, Nat.mod_eq_of_lt hx, UInt32.ofNat_toNat]

@[simp] theorem u64Of_u64Bytes (x : UInt64) : u64Of (u64Bytes x) = x := by
  have hx : x.toNat < 256 ^ 8 := x.toNat_lt
  rw [u64Of, u64Bytes, leNat_leBytes, Nat.mod_eq_of_lt hx, UInt64.ofNat_toNat]

@[simp] theorem i64Of_i64Bytes (x : Int64) : i64Of (i64Bytes x) = x := by
  simp [i64Of, i64Bytes]

theorem u32Bytes_u32Of {bs : Bytes} (h : bs.length = 4) : u32Bytes (u32Of bs) = bs := by
  have hlt : leNat bs < 2 ^ 32 := by simpa [h] using leNat_lt bs
  rw [u32Bytes, u32Of, UInt32.toNat_ofNat_of_lt' hlt, ← h, leBytes_leNat]

theorem u64Bytes_u64Of {bs : Bytes} (h : bs.length = 8) : u64Bytes (u64Of bs) = bs := by
  have hlt : leNat bs < 2 ^ 64 := by simpa [h] using leNat_lt bs
  rw [u64Bytes, u64Of, UInt64.toNat_ofNat_of_lt' hlt, ← h, leBytes_leNat]

theorem i64Bytes_i64Of {bs : Bytes} (h : bs.length = 8) : i64Bytes (i64Of bs) = bs := by
  simpa [i64Bytes, i64Of] using u64Bytes_u64Of h

/-! ## Text -/

/-- `str::as_bytes`. -/
def asBytes (s : String) : Bytes := s.toByteArray.data.toList

/-- `String::from_utf8`. -/
def fromUtf8 (bs : Bytes) : Option String := String.fromUTF8? ⟨bs.toArray⟩

@[simp] theorem fromUtf8_asBytes (s : String) : fromUtf8 (asBytes s) = some s := by
  have same : (⟨s.toByteArray.data.toList.toArray⟩ : ByteArray) = s.toByteArray := by
    rw [Array.toArray_toList]
  rw [fromUtf8, asBytes, same, String.fromUTF8?, dif_pos s.isValidUTF8]
  rfl

theorem asBytes_of_fromUtf8 {bs : Bytes} {s : String} (h : fromUtf8 bs = some s) :
    asBytes s = bs := by
  unfold fromUtf8 String.fromUTF8? at h
  split at h
  · cases h
    rfl
  · cases h

theorem asBytes_injective {s t : String} (h : asBytes s = asBytes t) : s = t :=
  Option.some.inj (by rw [← fromUtf8_asBytes, h, fromUtf8_asBytes])

/-- The bytes of an ASCII text. -/
def ascii (cs : List Char) : Bytes := cs.map Char.toUInt8

theorem toUInt8_inj {a b : Char} (ha : a.toNat < 128) (hb : b.toNat < 128)
    (same : a.toUInt8 = b.toUInt8) : a = b := by
  have bytes := congrArg UInt8.toNat same
  simp only [Char.toUInt8, UInt32.toNat_toUInt8] at bytes
  have words : a.val.toNat = b.val.toNat := by
    change a.val.toNat < 128 at ha
    change b.val.toNat < 128 at hb
    omega
  exact Char.ext (UInt32.toNat_inj.mp words)

theorem asBytes_ofList {cs : List Char} (h : ∀ c ∈ cs, c.toNat < 128) :
    asBytes (String.ofList cs) = ascii cs := by
  have single : ∀ c ∈ cs, String.utf8EncodeChar c = [c.toUInt8] := fun c mem => by
    apply String.utf8EncodeChar_eq_singleton
    have small : c.val ≤ 127 := UInt32.le_iff_toNat_le.mpr (Nat.le_of_lt_succ (h c mem))
    exact if_pos small
  have flat : (String.ofList cs).toByteArray = (cs.flatMap String.utf8EncodeChar).toByteArray := by
    simp [List.utf8Encode]
  rw [asBytes, flat, List.data_toByteArray, List.flatMap_congr single, List.toList_toArray,
    ascii, List.map_eq_flatMap]

/-! ## Periodic strings -/

/-- A string that repeats its front is determined by the front. -/
theorem eq_of_periodic {α : Type} {front xs ys : List α} (ne : front ≠ [])
    (len : xs.length = ys.length) (hx : xs = (front ++ xs).take xs.length)
    (hy : ys = (front ++ ys).take ys.length) : xs = ys := by
  have pos : 0 < front.length := List.length_pos_of_ne_nil ne
  have look : ∀ zs : List α, zs = (front ++ zs).take zs.length → ∀ i, i < zs.length →
      zs[i]? = if i < front.length then front[i]? else zs[i - front.length]? := by
    intro zs h i lt
    have here := congrArg (·[i]?) h
    simp only [List.getElem?_take, if_pos lt, List.getElem?_append] at here
    exact here
  apply List.ext_getElem?
  intro i
  induction i using Nat.strong_induction_on with
  | h i ih =>
    by_cases lt : i < xs.length
    · rw [look xs hx i lt, look ys hy i (by omega)]
      split
      · rfl
      · exact ih _ (by omega)
    · rw [List.getElem?_eq_none (by omega), List.getElem?_eq_none (by omega)]

/-! ## Fixed-width chunks -/

/-- `slice::chunks_exact`: the whole chunks of width `n`; a shorter tail is dropped. -/
def chunksExact {α : Type} (n : Nat) (xs : List α) : List (List α) :=
  (List.range (xs.length / n)).map fun i => (xs.drop (i * n)).take n

@[simp] theorem length_chunksExact {α : Type} (n : Nat) (xs : List α) :
    (chunksExact n xs).length = xs.length / n := by
  simp [chunksExact]

theorem length_of_mem_chunksExact {α : Type} {n : Nat} {xs chunk : List α}
    (h : chunk ∈ chunksExact n xs) : chunk.length = n := by
  obtain ⟨i, hi, rfl⟩ := List.mem_map.mp h
  have inside := Nat.mul_le_mul_right n (Nat.succ_le_of_lt (List.mem_range.mp hi))
  have whole := Nat.div_mul_le_self xs.length n
  rw [Nat.succ_mul] at inside
  simp only [List.length_take, List.length_drop]
  omega

theorem length_flatMap_of_width {α β : Type} {n : Nat} (f : α → List β) (vs : List α)
    (width : ∀ v ∈ vs, (f v).length = n) : (vs.flatMap f).length = vs.length * n := by
  induction vs with
  | nil => simp
  | cons v vs ih =>
    have tail := ih fun u hu => width u (List.mem_cons_of_mem _ hu)
    simp only [List.flatMap_cons, List.length_append, List.length_cons, tail,
      width v List.mem_cons_self, Nat.succ_mul]
    omega

theorem length_flatten_ge {α : Type} {n : Nat} {xss : List (List α)}
    (h : ∀ xs ∈ xss, n ≤ xs.length) : xss.length * n ≤ xss.flatten.length := by
  induction xss with
  | nil => simp
  | cons xs xss ih =>
    have head := h xs List.mem_cons_self
    have tail := ih fun ys hys => h ys (List.mem_cons_of_mem _ hys)
    simp only [List.length_cons, List.flatten_cons, List.length_append, Nat.succ_mul]
    omega

theorem chunksExact_append {α : Type} {n : Nat} (hn : 0 < n) (x xs : List α)
    (hx : x.length = n) : chunksExact n (x ++ xs) = x :: chunksExact n xs := by
  have hdiv : (x ++ xs).length / n = xs.length / n + 1 := by
    rw [List.length_append, hx, Nat.add_comm, Nat.add_div_right _ hn]
  simp only [chunksExact, hdiv, List.range_succ_eq_map, List.map_cons, List.map_map]
  congr 1
  · simp [← hx]
  · apply List.map_congr_left
    intro i _
    have : (i + 1) * n = x.length + i * n := by rw [hx]; ring
    simp only [Function.comp_apply, Nat.succ_eq_add_one, this, ← List.drop_drop, List.drop_left]

/-- Cutting a concatenation of `n`-wide pieces gives the pieces back. -/
theorem chunksExact_flatMap {α β : Type} {n : Nat} (hn : 0 < n) (f : α → List β) (vs : List α)
    (width : ∀ v ∈ vs, (f v).length = n) : chunksExact n (vs.flatMap f) = vs.map f := by
  induction vs with
  | nil => simp [chunksExact]
  | cons v vs ih =>
    rw [List.flatMap_cons, chunksExact_append hn _ _ (width v List.mem_cons_self),
      ih fun u hu => width u (List.mem_cons_of_mem _ hu), List.map_cons]

@[simp] theorem map_u64Of_chunksExact (values : List UInt64) :
    (chunksExact 8 (values.flatMap u64Bytes)).map u64Of = values := by
  rw [chunksExact_flatMap (by decide) _ _ fun v _ => length_u64Bytes v]
  simp [Function.comp_def]

@[simp] theorem map_i64Of_chunksExact (values : List Int64) :
    (chunksExact 8 (values.flatMap i64Bytes)).map i64Of = values := by
  rw [chunksExact_flatMap (by decide) _ _ fun v _ => length_i64Bytes v]
  simp [Function.comp_def]

/-- The chunks of a string of whole chunks make it up. -/
theorem flatten_chunksExact {α : Type} {n k : Nat} (hn : 0 < n) {xs : List α}
    (size : xs.length = k * n) : (chunksExact n xs).flatten = xs := by
  induction k generalizing xs with
  | zero =>
    obtain rfl : xs = [] := by simpa using size
    simp [chunksExact]
  | succ k ih =>
    rw [Nat.succ_mul] at size
    have head : (xs.take n).length = n := by
      rw [List.length_take]
      omega
    have tail : (xs.drop n).length = k * n := by
      rw [List.length_drop]
      omega
    have cut := chunksExact_append hn (xs.take n) (xs.drop n) head
    rw [List.take_append_drop] at cut
    rw [cut, List.flatten_cons, ih tail, List.take_append_drop]

/-- Values read from whole chunks are written back as they were. -/
theorem flatMap_map_chunksExact {α β : Type} {n k : Nat} {read : List α → β} {write : β → List α}
    (hn : 0 < n) (back : ∀ chunk, chunk.length = n → write (read chunk) = chunk) {xs : List α}
    (size : xs.length = k * n) : ((chunksExact n xs).map read).flatMap write = xs := by
  have same : ∀ chunk ∈ chunksExact n xs, write (read chunk) = id chunk :=
    fun chunk mem => back chunk (length_of_mem_chunksExact mem)
  rw [List.flatMap_map, List.flatMap_congr same, List.flatMap_id, flatten_chunksExact hn size]

/-- Slicing a concatenation of `n`-wide pieces at a piece boundary gives that piece. -/
theorem slice_flatMap {α β : Type} {n : Nat} (f : α → List β) (vs : List α)
    (width : ∀ v ∈ vs, (f v).length = n) {i : Nat} {v : α} (hv : vs[i]? = some v) :
    ((vs.flatMap f).drop (i * n)).take n = f v := by
  induction vs generalizing i with
  | nil => simp at hv
  | cons u vs ih =>
    have hu := width u List.mem_cons_self
    cases i with
    | zero =>
      have : u = v := by simpa using hv
      subst this
      simp [← hu]
    | succ i =>
      have step : (i + 1) * n = (f u).length + i * n := by rw [hu]; ring
      rw [List.flatMap_cons, step, ← List.drop_drop, List.drop_left]
      exact ih (fun w hw => width w (List.mem_cons_of_mem _ hw)) (by simpa using hv)

end Octet
