import Mathlib.Data.List.Rotate
import Mathlib.Data.List.Range
import Mathlib.Logic.Function.Basic
import Mathlib.Tactic.Common

/-!
# A ring of cells as a window onto a stream

`Window cells f start` says that the cells hold the values of the stream `f` from position
`start` on, position `i` in the cell `i % cells.size`. Writing a position of the window
updates the stream; the window moves on by one where the stream repeats after a lap.
-/

namespace RingBuffer

variable {β : Type*} {cells : Array β} {f g : Nat → β} {start i : Nat}

def Window (cells : Array β) (f : Nat → β) (start : Nat) : Prop :=
  ∀ i, start ≤ i → i < start + cells.size → cells[i % cells.size]? = some (f i)

theorem Window.congr (h : Window cells f start)
    (same : ∀ i, start ≤ i → i < start + cells.size → f i = g i) : Window cells g start := by
  intro i le lt
  rw [h i le lt, same i le lt]

/-- Positions less than a lap apart are in different cells. -/
theorem mod_ne {n j : Nat} (le : start ≤ i) (lt : i < start + n) (le' : start ≤ j)
    (lt' : j < start + n) (ne : i ≠ j) : i % n ≠ j % n := by
  intro same
  wlog less : i < j generalizing i j
  · exact this le' lt' le lt ne.symm same.symm (by omega)
  have apart : (j - i) % n = 0 := Nat.sub_mod_eq_zero_of_mod_eq same.symm
  rw [Nat.mod_eq_of_lt (by omega)] at apart
  omega

theorem Window.write (h : Window cells f start) (le : start ≤ i) (lt : i < start + cells.size)
    (b : β) :
    Window (cells.setIfInBounds (i % cells.size) b) (Function.update f i b) start := by
  intro j le' lt'
  rw [Array.size_setIfInBounds] at lt' ⊢
  by_cases same : j = i
  · subst same
    have bound : j % cells.size < cells.size := Nat.mod_lt j (by omega)
    simp [bound]
  · rw [Array.getElem?_setIfInBounds_ne (mod_ne le lt le' lt' (Ne.symm same)), h j le' lt',
      Function.update_of_ne same]

theorem Window.modify (h : Window cells f start) (le : start ≤ i) (lt : i < start + cells.size)
    (change : β → β) :
    Window (cells.modify (i % cells.size) change) (Function.update f i (change (f i))) start := by
  have same : cells.modify (i % cells.size) change =
      cells.setIfInBounds (i % cells.size) (change (f i)) := by
    apply Array.ext_getElem?
    intro j
    rw [Array.getElem?_modify, Array.getElem?_setIfInBounds]
    split
    case isTrue here =>
      subst here
      rw [h i le lt, if_pos (Nat.mod_lt i (by omega))]
      rfl
    case isFalse => rfl
  rw [same]
  exact h.write le lt (change (f i))

theorem Window.advance (h : Window cells f start) (lap : f (start + cells.size) = f start) :
    Window cells f (start + 1) := by
  intro i le lt
  by_cases last : i = start + cells.size
  · rw [last, Nat.add_mod_right, lap]
    exact h start le_rfl (by omega)
  · exact h i (by omega) (by omega)

/-- The cells hold the values of the window, in some order. -/
theorem Window.perm (h : Window cells f start) :
    cells.toList.Perm ((List.range cells.size).map fun i => f (start + i)) := by
  have rotated : cells.toList.rotate start = (List.range cells.size).map fun i => f (start + i) := by
    apply List.ext_getElem (by simp)
    intro i lt _
    have bound : i < cells.size := by simpa using lt
    have cell := h (start + i) (Nat.le_add_right _ _) (by omega)
    rw [Array.getElem?_eq_some_iff] at cell
    obtain ⟨_, same⟩ := cell
    simp only [List.getElem_rotate, Array.length_toList, Array.getElem_toList, List.getElem_map,
      List.getElem_range, Nat.add_comm i start, same]
  exact rotated ▸ (List.rotate_perm _ _).symm

/-! ## The stream of a list -/

section List

variable {α : Type*} {cells : Array (Option α)} {xs : List α}

theorem Window.push (h : Window cells (xs[·]?) start) (le : start ≤ xs.length)
    (room : xs.length < start + cells.size) (x : α) :
    Window (cells.setIfInBounds (xs.length % cells.size) (some x)) ((xs ++ [x])[·]?) start := by
  refine (h.write le room (some x)).congr fun i _ _ => ?_
  grind [Function.update_apply]

theorem Window.pop (h : Window cells (xs[·]?) start) (lt : start < xs.length)
    (full : xs.length ≤ start + cells.size) :
    Window (cells.setIfInBounds (start % cells.size) none) (xs[·]?) (start + 1) := by
  have moved : Window (cells.setIfInBounds (start % cells.size) none)
      (Function.update (xs[·]?) start none) (start + 1) := by
    apply (h.write le_rfl (by omega) none).advance
    rw [Array.size_setIfInBounds, Function.update_self, Function.update_of_ne (by omega)]
    exact List.getElem?_eq_none full
  exact moved.congr fun i le _ => Function.update_of_ne (by omega) _ _

end List

end RingBuffer
