import BypassIo.Library.Debug
import BypassIo.Library.Toml

/-!
# TOML readings of `{:?}`

A string in `{:?}` format stands between TOML quotes, but not every escape is one of TOML: `\0`
and the braces of `\u` are not. So it is read back exactly when all of its characters are
`kept`.

## Main results

* `debug_text`: a string in `{:?}` format is a basic string of TOML.
* `unescape_debug`: what it denotes, if anything.
-/

namespace Toml
open Rust

variable (wide : Char → Bool)

/-- Printed as it is or with an escape that TOML has too. -/
def kept (c : Char) : Bool := c = '\t' || c = '\n' || c = '\r' || printable wide c

variable {wide} {c : Char}

theorem isBody_append_of_unescaped {front : List Char} (plain : ∀ c ∈ front, isUnescaped c = true)
    (rest : List Char) : isBody (front ++ rest) = isBody rest := by
  induction front with
  | nil => rfl
  | cons c front ih =>
    obtain ⟨first, others⟩ := List.forall_mem_cons.mp plain
    have other : c ≠ '\\' := by
      rintro rfl
      exact absurd first (by decide)
    rw [List.cons_append, isBody, first, ih others, Bool.true_and]
    exact fun _ _ same => absurd same other

theorem isUnescaped_of_printable (quote : c ≠ '"') (backslash : c ≠ '\\')
    (printed : printable wide c = true) : isUnescaped c = true := by
  simp only [printable, Bool.or_eq_true, Bool.and_eq_true, decide_eq_true_eq] at printed
  simp only [isUnescaped, Bool.and_eq_true, Bool.or_eq_true, decide_eq_true_eq]
  exact ⟨⟨quote, backslash⟩, .inr (by omega)⟩

theorem isUnescaped_digitChar : ∀ d < 16, isUnescaped (Nat.digitChar d) = true := by decide

theorem isUnescaped_of_hex (n : Nat) : ∀ c ∈ Nat.toDigits 16 n, isUnescaped c = true := by
  induction n using Nat.strongRecOn with
  | ind n ih =>
    rw [Nat.toDigits_eq_if (by decide)]
    split_ifs with small
    · simpa using isUnescaped_digitChar n small
    · have front := ih (n / 16) (by omega)
      have last := isUnescaped_digitChar (n % 16) (Nat.mod_lt n (by decide))
      simpa [or_imp, forall_and] using ⟨front, last⟩

theorem isBody_escapeDebug (c : Char) (rest : List Char) :
    isBody (escapeDebug wide c ++ rest) = isBody rest := by
  unfold escapeDebug
  split_ifs with h₁ h₂ h₃ h₄ backslash quote printed
  all_goals try rfl
  · refine isBody_append_of_unescaped ?_ rest
    simpa using isUnescaped_of_printable quote backslash printed
  · have digits : ∀ d ∈ '{' :: (Nat.toDigits 16 c.toNat ++ ['}']), isUnescaped d = true := by
      have hex := isUnescaped_of_hex c.toNat
      have braces : isUnescaped '{' = true ∧ isUnescaped '}' = true := by decide
      simpa [or_imp, forall_and, braces] using hex
    exact isBody_append_of_unescaped digits rest

theorem unescape_escapeDebug (good : kept wide c = true) (rest : List Char) :
    unescape .plain (escapeDebug wide c ++ rest) = (unescape .plain rest).map (c :: ·) := by
  unfold escapeDebug
  split_ifs with nul tab cr lf backslash quote printed
  · subst nul
    simp [kept, printable] at good
  · subst tab
    rfl
  · subst cr
    rfl
  · subst lf
    rfl
  · subst backslash
    rfl
  · subst quote
    rfl
  · simp [unescape, backslash]
  · simp [kept, tab, cr, lf, printed] at good

theorem unescape_escapeDebug_lost (lost : kept wide c = false) (rest : List Char) :
    unescape .plain (escapeDebug wide c ++ rest) = none := by
  simp only [kept, Bool.or_eq_false_iff, decide_eq_false_iff_not] at lost
  obtain ⟨⟨⟨tab, lf⟩, cr⟩, printed⟩ := lost
  unfold escapeDebug
  rw [if_neg tab, if_neg cr, if_neg lf, if_neg (ne_true_of_eq_false printed)]
  split_ifs with nul backslash quote
  · rfl
  · subst backslash
    simp [printable] at printed
  · subst quote
    simp [printable] at printed
  · rfl

/-- The characters between the quotes of a string in `{:?}` format. -/
def debugString (wide : Char → Bool) (s : String) : BasicString where
  body := s.toList.flatMap (escapeDebug wide)
  closed := by
    induction s.toList with
    | nil => rfl
    | cons c cs ih => rw [List.flatMap_cons, isBody_escapeDebug, ih]

theorem debug_text (s : String) :
    (debug wide s).toList = (Atom.string (debugString wide s)).text := by
  simp [debug, Atom.text, debugString]

theorem unescape_debug (cs : List Char) :
    unescape .plain (cs.flatMap (escapeDebug wide)) =
      if cs.all (kept wide) = true then some cs else none := by
  induction cs with
  | nil => rfl
  | cons c cs ih =>
    rw [List.flatMap_cons, List.all_cons]
    cases good : kept wide c with
    | false => exact unescape_escapeDebug_lost good _
    | true =>
      rw [unescape_escapeDebug good, ih, Bool.true_and]
      split_ifs <;> rfl

theorem value_debug (s : String) :
    (Atom.string (debugString wide s)).value =
      if s.toList.all (kept wide) = true then some (.string s) else none := by
  rw [Atom.value, debugString, unescape_debug]
  split_ifs <;> simp

end Toml
