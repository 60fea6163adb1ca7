import Mathlib.Data.List.Forall2
import Mathlib.Order.Basic
import Mathlib.Tactic.Common

/-!
# Columns and rows

A table of values is a list of columns of one length, or the list of its rows. Picking
positions (`gather`), finding the positions of a predicate (`positions`) and transposing
(`rowsOf`) commute with each other.
-/

namespace Columns

variable {α β γ : Type}

/-! ## Related lists -/

theorem map_eq_of_forall₂ {R : α → β → Prop} {as : List α} {bs : List β} {f : α → γ} {g : β → γ}
    (h : List.Forall₂ R as bs) (same : ∀ a b, R a b → g b = f a) : bs.map g = as.map f := by
  induction h with
  | nil => rfl
  | cons r _ ih => rw [List.map_cons, List.map_cons, same _ _ r, ih]

theorem exists_of_forall₂_right {R : α → β → Prop} {as : List α} {bs : List β}
    (h : List.Forall₂ R as bs) {b : β} (hb : b ∈ bs) : ∃ a ∈ as, R a b := by
  induction h with
  | nil => cases hb
  | cons r _ ih =>
    obtain _ | ⟨_, hb⟩ := hb
    · exact ⟨_, List.mem_cons_self, r⟩
    · obtain ⟨a, ha, hr⟩ := ih hb
      exact ⟨a, List.mem_cons_of_mem _ ha, hr⟩

theorem exists_of_forall₂_left {R : α → β → Prop} {as : List α} {bs : List β}
    (h : List.Forall₂ R as bs) {a : α} (ha : a ∈ as) : ∃ b ∈ bs, R a b := by
  obtain ⟨b, hb, r⟩ := exists_of_forall₂_right (List.Forall₂.flip (R := flip R) h) ha
  exact ⟨b, hb, r⟩

theorem forall₂_getElem? {R : α → β → Prop} {as : List α} {bs : List β}
    (h : List.Forall₂ R as bs) {i : Nat} {a : α} (ha : as[i]? = some a) :
    ∃ b, bs[i]? = some b ∧ R a b := by
  induction h generalizing i with
  | nil => simp at ha
  | cons r _ ih =>
    cases i with
    | zero =>
      obtain rfl := Option.some.inj ha
      exact ⟨_, rfl, r⟩
    | succ i => exact ih (by simpa using ha)

theorem forall₂_of_getElem? {R : α → β → Prop} {as : List α} {bs : List β}
    (same : as.length = bs.length)
    (h : ∀ (i : Nat) a b, as[i]? = some a → bs[i]? = some b → R a b) : List.Forall₂ R as bs := by
  refine List.forall₂_iff_get.mpr ⟨same, fun i ha hb => ?_⟩
  exact h i _ _ (List.getElem?_eq_getElem ha) (List.getElem?_eq_getElem hb)

theorem exists_forall₂ {R : α → β → Prop} {as : List α} (h : ∀ a ∈ as, ∃ b, R a b) :
    ∃ bs, List.Forall₂ R as bs := by
  induction as with
  | nil => exact ⟨[], .nil⟩
  | cons a as ih =>
    obtain ⟨here, later⟩ := List.forall_mem_cons.mp h
    obtain ⟨b, r⟩ := here
    obtain ⟨bs, rs⟩ := ih later
    exact ⟨b :: bs, .cons r rs⟩

/-! ## Gathering -/

/-- The elements at the positions of `is`, in that order; positions out of range are dropped. -/
def gather (xs : List α) (is : List Nat) : List α := is.filterMap (xs[·]?)

@[simp] theorem gather_nil (xs : List α) : gather xs [] = [] := rfl

theorem gather_cons {xs : List α} {i : Nat} {x : α} (h : xs[i]? = some x) (is : List Nat) :
    gather xs (i :: is) = x :: gather xs is := by
  simp [gather, h]

theorem length_gather {xs : List α} {is : List Nat} (h : ∀ i ∈ is, i < xs.length) :
    (gather xs is).length = is.length := by
  induction is with
  | nil => rfl
  | cons i is ih =>
    have hi := h i List.mem_cons_self
    rw [gather_cons (List.getElem?_eq_getElem hi), List.length_cons, List.length_cons,
      ih fun j hj => h j (List.mem_cons_of_mem _ hj)]

theorem getElem?_gather {xs : List α} {is : List Nat} (h : ∀ i ∈ is, i < xs.length) (k : Nat) :
    (gather xs is)[k]? = is[k]?.bind (xs[·]?) := by
  induction is generalizing k with
  | nil => simp
  | cons i is ih =>
    have hi := h i List.mem_cons_self
    rw [gather_cons (List.getElem?_eq_getElem hi)]
    cases k with
    | zero => simp [hi]
    | succ k => simpa using ih (fun j hj => h j (List.mem_cons_of_mem _ hj)) k

@[simp] theorem gather_map (f : α → β) (xs : List α) (is : List Nat) :
    gather (xs.map f) is = (gather xs is).map f := by
  simp [gather, List.map_filterMap]

theorem gather_range (xs : List α) : gather xs (List.range xs.length) = xs := by
  apply List.ext_getElem?
  intro k
  rw [getElem?_gather (by simp)]
  by_cases hk : k < xs.length
  · simp [List.getElem?_range hk]
  · have past : xs.length ≤ k := by omega
    simp [past]

theorem gather_zipWith (f : α → β → γ) {xs : List α} {ys : List β} {is : List Nat}
    (hx : ∀ i ∈ is, i < xs.length) (hy : ∀ i ∈ is, i < ys.length) :
    gather (List.zipWith f xs ys) is = List.zipWith f (gather xs is) (gather ys is) := by
  induction is with
  | nil => simp
  | cons i is ih =>
    have xlt := hx i List.mem_cons_self
    have ylt := hy i List.mem_cons_self
    have hxi := List.getElem?_eq_getElem xlt
    have hyi := List.getElem?_eq_getElem ylt
    have both : (List.zipWith f xs ys)[i]? = some (f xs[i] ys[i]) := by
      rw [List.getElem?_zipWith, hxi, hyi]
    rw [gather_cons both, gather_cons hxi, gather_cons hyi, List.zipWith_cons_cons,
      ih (fun j hj => hx j (List.mem_cons_of_mem _ hj))
        (fun j hj => hy j (List.mem_cons_of_mem _ hj))]


/-! ## Positions -/

/-- `iter().enumerate().filter_map(|(idx, x)| p(x).then_some(idx))`. -/
def positions (p : α → Bool) (xs : List α) : List Nat :=
  xs.zipIdx.filterMap fun (x, idx) => if p x then some idx else none

theorem positions_eq_filter (p : α → Bool) (xs : List α) :
    positions p xs = (List.range xs.length).filter fun i => xs[i]?.any p := by
  have general : ∀ (xs : List α) (n : Nat),
      (xs.zipIdx n).filterMap (fun (x, idx) => if p x then some idx else none) =
        (List.range' n xs.length).filter fun i => xs[i - n]?.any p := by
    intro xs
    induction xs with
    | nil => simp
    | cons x xs ih =>
      intro n
      have rest : (List.range' (n + 1) xs.length).filter (fun i => (x :: xs)[i - n]?.any p) =
          (List.range' (n + 1) xs.length).filter fun i => xs[i - (n + 1)]?.any p := by
        apply List.filter_congr
        intro i hi
        have lo : n + 1 ≤ i := (List.mem_range'_1.mp hi).1
        rw [show i - n = (i - (n + 1)) + 1 by omega, List.getElem?_cons_succ]
      rw [List.zipIdx_cons, List.filterMap_cons, List.length_cons, List.range'_succ,
        List.filter_cons, rest, ← ih (n + 1)]
      cases hp : p x <;> simp [hp]
  rw [positions, general, List.range_eq_range']
  simp

theorem positions_lt {p : α → Bool} {xs : List α} : ∀ i ∈ positions p xs, i < xs.length := by
  intro i hi
  rw [positions_eq_filter] at hi
  exact List.mem_range.mp (List.mem_filter.mp hi).1

theorem positions_map (p : β → Bool) (f : α → β) (xs : List α) :
    positions p (xs.map f) = positions (p ∘ f) xs := by
  rw [positions_eq_filter, positions_eq_filter, List.length_map]
  apply List.filter_congr
  intro i _
  simp [Option.any_map, Function.comp_def]

theorem positions_congr {p q : α → Bool} {xs : List α} (h : ∀ x ∈ xs, p x = q x) :
    positions p xs = positions q xs := by
  rw [positions_eq_filter, positions_eq_filter]
  apply List.filter_congr
  intro i hi
  have lt := List.mem_range.mp hi
  simp [lt, h xs[i] (List.getElem_mem lt)]

/-- Gathering the positions of a predicate is filtering. -/
theorem gather_positions (p : α → Bool) (xs : List α) :
    gather xs (positions p xs) = xs.filter p := by
  have general : ∀ (xs front : List α),
      gather (front ++ xs) ((xs.zipIdx front.length).filterMap
        fun (x, idx) => if p x then some idx else none) = xs.filter p := by
    intro xs
    induction xs with
    | nil => simp
    | cons x xs ih =>
      intro front
      have next := ih (front ++ [x])
      rw [List.append_assoc, List.singleton_append, List.length_append,
        List.length_singleton] at next
      have here : (front ++ x :: xs)[front.length]? = some x := by simp
      rw [List.zipIdx_cons, List.filterMap_cons, List.filter_cons]
      cases hp : p x
      · simpa [hp] using next
      · simp only [hp, ↓reduceIte]
        rw [gather_cons here, next]
  simpa [positions] using general xs []


/-- `positions` with the count started at `n`. -/
theorem filterMap_zipIdx (p : α → Bool) (xs : List α) (n : Nat) :
    (xs.zipIdx n).filterMap (fun (x, idx) => if p x then some idx else none) =
      (positions p xs).map (n + ·) := by
  induction xs generalizing n with
  | nil => rfl
  | cons x xs ih =>
    have later := ih (n + 1)
    have first := ih 1
    simp only [positions, List.zipIdx_cons, List.filterMap_cons, Nat.zero_add] at *
    have shift : (List.filterMap (fun (x, idx) => if p x then some idx else none)
        xs.zipIdx).map (n + 1 + ·) = ((List.filterMap (fun (x, idx) =>
          if p x then some idx else none) xs.zipIdx).map (1 + ·)).map (n + ·) := by
      rw [List.map_map]
      congr 1
      funext i
      simp only [Function.comp_apply]
      omega
    rw [later, first, shift]
    cases p x <;> simp

theorem positions_append (p : α → Bool) (xs ys : List α) :
    positions p (xs ++ ys) = positions p xs ++ (positions p ys).map (xs.length + ·) := by
  rw [positions, List.zipIdx_append, List.filterMap_append, filterMap_zipIdx, filterMap_zipIdx]
  simp

/-- A partial map that drops nothing acts position by position. -/
theorem getElem?_filterMap {f : α → Option β} {xs : List α}
    (full : (xs.filterMap f).length = xs.length) (k : Nat) :
    (xs.filterMap f)[k]? = xs[k]?.bind f := by
  induction xs generalizing k with
  | nil => simp
  | cons x xs ih =>
    cases hx : f x with
    | none =>
      have := List.length_filterMap_le f xs
      simp only [List.filterMap_cons, hx, List.length_cons] at full
      omega
    | some b =>
      have rest : (xs.filterMap f).length = xs.length := by simpa [hx] using full
      cases k with
      | zero => simp [hx]
      | succ k => simpa [hx] using ih rest k

/-! ## Transposition -/

/-- The first `n` rows of a list of columns. -/
def rowsOf : List (List α) → Nat → List (List α)
  | [], n => List.replicate n []
  | column :: columns, n => List.zipWith List.cons column (rowsOf columns n)

section Transpose

variable {n m : Nat} {columns others : List (List α)}

theorem zipWith_left (f : α → γ) {xs : List α} {ys : List β}
    (h : xs.length = ys.length) : List.zipWith (fun x _ => f x) xs ys = xs.map f := by
  induction xs generalizing ys with
  | nil => simp
  | cons x xs ih => cases ys <;> simp_all

theorem zipWith_right (f : β → γ) {xs : List α} {ys : List β}
    (h : xs.length = ys.length) : List.zipWith (fun _ y => f y) xs ys = ys.map f := by
  rw [List.zipWith_comm, zipWith_left f h.symm]

theorem length_rowsOf (h : ∀ c ∈ columns, c.length = n) : (rowsOf columns n).length = n := by
  induction columns with
  | nil => simp [rowsOf]
  | cons c columns ih =>
    have tail := ih fun c hc => h c (List.mem_cons_of_mem _ hc)
    simp [rowsOf, tail, h c List.mem_cons_self]

/-- Columns that are functions of one list. -/
theorem rowsOf_map (fs : List (β → α)) (xs : List β) :
    rowsOf (fs.map fun f => xs.map f) xs.length = xs.map fun x => fs.map fun f => f x := by
  induction fs with
  | nil => simp [rowsOf]
  | cons f fs ih =>
    rw [List.map_cons, rowsOf, ih, List.zipWith_map, List.zipWith_self]
    rfl

theorem rowsOf_append (same : columns.length = others.length)
    (hc : ∀ c ∈ columns, c.length = n) :
    rowsOf (List.zipWith (· ++ ·) columns others) (n + m) =
      rowsOf columns n ++ rowsOf others m := by
  induction columns generalizing others with
  | nil =>
    obtain rfl : others = [] := List.length_eq_zero_iff.mp same.symm
    simp [rowsOf]
  | cons c columns ih =>
    obtain _ | ⟨o, others⟩ := others
    · cases same
    · have rest : ∀ c ∈ columns, c.length = n := fun c hc' => hc c (List.mem_cons_of_mem _ hc')
      have tail := ih (by simpa using same) rest
      have head : c.length = (rowsOf columns n).length := by
        rw [length_rowsOf rest, hc c List.mem_cons_self]
      simp only [List.zipWith_cons_cons, rowsOf, tail, List.zipWith_append head]

theorem rowsOf_gather {is : List Nat} (hc : ∀ c ∈ columns, c.length = n)
    (lt : ∀ i ∈ is, i < n) :
    rowsOf (columns.map (gather · is)) is.length = gather (rowsOf columns n) is := by
  induction columns with
  | nil =>
    have fill : gather (List.replicate n ([] : List α)) is = List.replicate is.length [] := by
      rw [List.eq_replicate_iff, length_gather (by simpa using lt)]
      refine ⟨rfl, fun r hr => ?_⟩
      obtain ⟨i, -, hi⟩ := List.mem_filterMap.mp hr
      exact (List.mem_replicate.mp (List.mem_of_getElem? hi)).2
    simp [rowsOf, fill]
  | cons c columns ih =>
    have rest : ∀ c ∈ columns, c.length = n := fun c hc' => hc c (List.mem_cons_of_mem _ hc')
    rw [List.map_cons, rowsOf, rowsOf, ih rest, gather_zipWith]
    · simpa [hc c List.mem_cons_self] using lt
    · simpa [length_rowsOf rest] using lt

/-- Reading one column back off the rows. -/
theorem rowsOf_column (hc : ∀ c ∈ columns, c.length = n) {j : Nat} {c : List α}
    (hj : columns[j]? = some c) : (rowsOf columns n).map (·[j]?) = c.map some := by
  induction columns generalizing j with
  | nil => simp at hj
  | cons d columns ih =>
    have rest : ∀ c ∈ columns, c.length = n := fun c hc' => hc c (List.mem_cons_of_mem _ hc')
    have wide : d.length = (rowsOf columns n).length := by
      rw [length_rowsOf rest, hc d List.mem_cons_self]
    cases j with
    | zero =>
      obtain rfl : d = c := by simpa using hj
      rw [rowsOf, List.map_zipWith]
      simp only [List.getElem?_cons_zero]
      exact zipWith_left some wide
    | succ j =>
      rw [rowsOf, List.map_zipWith]
      simp only [List.getElem?_cons_succ]
      rw [zipWith_right (·[j]?) wide]
      exact ih rest (by simpa using hj)

/-- A column read off the rows, put in front of rows made from them. -/
theorem zipWith_cons_of_column {rows : List β} {c : List α} {f : β → Option α} {g : β → List α}
    (h : rows.map f = c.map some) :
    List.zipWith List.cons c (rows.map g) =
      rows.map fun row => (f row).elim (g row) (· :: g row) := by
  induction rows generalizing c with
  | nil => simp
  | cons row rows ih =>
    cases c with
    | nil => simp at h
    | cons x c =>
      simp only [List.map_cons, List.cons.injEq] at h
      simp [h.1, ih h.2]

/-- Picking columns picks the same cells of each row. -/
theorem rowsOf_pick (hc : ∀ c ∈ columns, c.length = n) {picks : List Nat}
    (lt : ∀ i ∈ picks, i < columns.length) :
    rowsOf (gather columns picks) n = (rowsOf columns n).map (gather · picks) := by
  induction picks with
  | nil => simp [gather, rowsOf, List.map_const', length_rowsOf hc]
  | cons i picks ih =>
    obtain ⟨here, rest⟩ := List.forall_mem_cons.mp lt
    have found := List.getElem?_eq_getElem here
    rw [gather_cons found, rowsOf, ih rest, zipWith_cons_of_column (rowsOf_column hc found)]
    apply List.map_congr_left
    intro row _
    cases cell : row[i]? <;> simp [gather, cell]

/-- Rows determine the columns. -/
theorem rowsOf_injective (same : columns.length = others.length)
    (hc : ∀ c ∈ columns, c.length = n) (ho : ∀ c ∈ others, c.length = n)
    (h : rowsOf columns n = rowsOf others n) : columns = others := by
  apply List.ext_getElem same
  intro j hj hj'
  have left := rowsOf_column hc (List.getElem?_eq_getElem hj)
  have right := rowsOf_column ho (List.getElem?_eq_getElem hj')
  rw [h, right] at left
  exact (List.map_injective_iff.mpr (fun _ _ => Option.some.inj) left).symm

end Transpose

end Columns
