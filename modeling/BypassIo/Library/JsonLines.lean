import Mathlib.Data.List.Infix
import Mathlib.Tactic.Common

/-!
# One JSON object a line

A text is cut into lines, and a line is scanned for its brackets and strings. The scan says where
a JSON value can end: every text that a parser accepts takes it to `after`. An object that is cut
short, and whatever objects are written behind it on the same line, never do.

## Main definitions

* `lines`: `str::lines`.
* `Place.step`, `scan`: the scan of a text.
* `Object`: the text of one object on one line.
* `Bad`: a line that no parser accepts, and that no object behind it repairs.

## Main results

* `lines_eq`: the lines of a text, from the ended lines and the last one.
* `Bad.of_cut`, `Bad.of_two`, `Bad.append`: where bad lines come from, and that they stay.
-/

namespace JsonLines

/-! ## Lines -/

/-- The lines that have ended, and the last one. -/
structure Lines where
  ended : List (List Char)
  last : List Char

namespace Lines

def push (s : Lines) (c : Char) : Lines :=
  if c = '\n' then ⟨s.ended ++ [s.last], []⟩ else ⟨s.ended, s.last ++ [c]⟩

theorem foldl_push {s : Lines} {t : List Char} (h : '\n' ∉ t) :
    t.foldl push s = ⟨s.ended, s.last ++ t⟩ := by
  induction t generalizing s with
  | nil => simp
  | cons c t ih =>
    simp only [List.mem_cons, not_or] at h
    rw [List.foldl_cons, push, if_neg (Ne.symm h.1), ih h.2]
    simp

end Lines

def split (text : List Char) : Lines := text.foldl Lines.push ⟨[], []⟩

theorem split_append_of_not_mem (text : List Char) {t : List Char} (h : '\n' ∉ t) :
    split (text ++ t) = ⟨(split text).ended, (split text).last ++ t⟩ := by
  rw [split, List.foldl_append, Lines.foldl_push h, split]

theorem split_newline (text : List Char) :
    split (text ++ ['\n']) = ⟨(split text).ended ++ [(split text).last], []⟩ := by
  simp [split, List.foldl_append, Lines.push]

/-- Only a newline ends a line. -/
theorem split_last_eq_nil {text : List Char} (h : (split text).last = []) :
    text = [] ∨ text.getLast? = some '\n' := by
  induction text using List.reverseRecOn with
  | nil => exact .inl rfl
  | append_singleton text c _ =>
    rw [split, List.foldl_append, List.foldl_cons, List.foldl_nil, Lines.push] at h
    split_ifs at h with newline
    · rw [newline, List.getLast?_append_of_ne_nil _ (by simp)]
      exact .inr rfl
    · simp at h

/-- An ended line may end with a carriage return, which is not part of it. -/
def stripReturn (line : List Char) : List Char :=
  if line.getLast? = some '\r' then line.dropLast else line

theorem stripReturn_of_not_mem {line : List Char} (h : '\r' ∉ line) : stripReturn line = line :=
  if_neg fun last => h (List.mem_of_getLast? last)

/-- `str::lines`; nothing after the last newline is no line. -/
def lines (text : List Char) : List (List Char) :=
  (split text).ended.map stripReturn ++ if (split text).last = [] then [] else [(split text).last]

theorem lines_eq {text : List Char} {s : Lines} (h : split text = s)
    (plain : ∀ line ∈ s.ended, '\r' ∉ line) :
    lines text = s.ended ++ if s.last = [] then [] else [s.last] := by
  rw [lines, h, List.map_congr_left fun line mem => stripReturn_of_not_mem (plain line mem)]
  simp

/-- `char::is_whitespace`, for `str::trim`. -/
def whitespace (c : Char) : Bool :=
  let n := c.toNat
  9 ≤ n && n ≤ 13 || 0x2000 ≤ n && n ≤ 0x200a ||
    [0x20, 0x85, 0xa0, 0x1680, 0x2028, 0x2029, 0x202f, 0x205f, 0x3000].contains n

example : lines ['a', '\r', '\n', '\n', 'b', '\r'] = [['a'], [], ['b', '\r']] := by decide

/-! ## Scanning -/

/-- Where a scan stands: before the value, inside of a number of further brackets (and there
outside of a string, in one, behind a backslash in one, or right behind one), after the value, or
at what is no JSON. -/
inductive Place
  | before
  | outside (depth : Nat)
  | inside (depth : Nat)
  | escaped (depth : Nat)
  | quoted (depth : Nat)
  | after
  | bad
  deriving DecidableEq

def blank (c : Char) : Bool := c = ' ' || c = '\n' || c = '\r' || c = '\t'

/-- What may follow a backslash in a string. -/
def escapes (c : Char) : Bool := ['"', '\\', '/', 'b', 'f', 'n', 'r', 't', 'u'].contains c

namespace Place

/-- Behind a closing bracket. -/
def close : Nat → Place
  | 0 => after
  | depth + 1 => outside depth

def step : Place → Char → Place
  | before, c =>
    if blank c then before else if c = '{' ∨ c = '[' then outside 0 else bad
  | outside depth, c =>
    if c = '"' then inside depth
    else if c = '{' ∨ c = '[' then outside (depth + 1)
    else if c = '}' ∨ c = ']' then close depth
    else if c = '\\' then bad
    else outside depth
  | inside depth, c =>
    if c = '"' then quoted depth else if c = '\\' then escaped depth else inside depth
  | escaped depth, c => if escapes c then inside depth else bad
  | quoted depth, c =>
    if blank c then quoted depth
    else if c = ',' ∨ c = ':' then outside depth
    else if c = '}' ∨ c = ']' then close depth
    else bad
  | after, c => if blank c then after else bad
  | bad, _ => bad

/-- Inside of the value. -/
def Within : Place → Prop
  | outside _ | inside _ | escaped _ | quoted _ => True
  | before | after | bad => False

/-- Neither before the value nor after it. -/
def Stuck (p : Place) : Prop := p ≠ before ∧ p ≠ after

theorem Within.stuck {p : Place} (h : p.Within) : p.Stuck := by
  cases p <;> simp_all [Within, Stuck]

/-- The same place, inside of more brackets. -/
def deepen (k : Nat) : Place → Place
  | outside depth => outside (depth + k)
  | inside depth => inside (depth + k)
  | escaped depth => escaped (depth + k)
  | quoted depth => quoted (depth + k)
  | p => p

theorem Within.deepen {p : Place} (h : p.Within) (k : Nat) : (p.deepen k).Within := by
  cases p <;> simp_all [Within, Place.deepen]

theorem step_deepen {p : Place} {c : Char} (k : Nat) (h : p.Within) (next : (p.step c).Within) :
    (p.deepen k).step c = (p.step c).deepen k := by
  cases p with
  | outside depth | quoted depth => cases depth <;> grind [step, deepen, close, Within]
  | inside depth | escaped depth => grind [step, deepen]
  | before | after | bad => exact h.elim

/-- A place is left only inside, at the end or for good. -/
theorem step_ne_before {p : Place} (c : Char) (h : p ≠ before) : p.step c ≠ before := by
  cases p with
  | outside depth | quoted depth => cases depth <;> grind [step, close]
  | before | inside | escaped | after | bad => grind [step]

end Place

open Place

def scan (p : Place) (text : List Char) : Place := text.foldl step p

@[simp] theorem scan_nil (p : Place) : scan p [] = p := rfl

@[simp] theorem scan_cons (p : Place) (c : Char) (text : List Char) :
    scan p (c :: text) = scan (p.step c) text := rfl

theorem scan_append (p : Place) (s t : List Char) : scan p (s ++ t) = scan (scan p s) t :=
  List.foldl_append

@[simp] theorem scan_bad (text : List Char) : scan bad text = bad := by
  induction text with
  | nil => rfl
  | cons c text ih => exact ih

theorem scan_after (text : List Char) : scan after text = after ∨ scan after text = bad := by
  induction text with
  | nil => exact .inl rfl
  | cons c text ih =>
    rw [scan_cons, step]
    split
    · exact ih
    · exact .inr (scan_bad text)

theorem scan_ne_before {p : Place} (text : List Char) (h : p ≠ before) :
    scan p text ≠ before := by
  induction text generalizing p with
  | nil => exact h
  | cons c text ih => exact ih (step_ne_before c h)

/-- A scan that ends within the value was within it all the time. -/
theorem within_of_scan {p : Place} {text : List Char} (h : p ≠ before)
    (ends : (scan p text).Within) : p.Within := by
  cases p with
  | before => exact absurd rfl h
  | after =>
    obtain same | same := scan_after text
    · rw [same] at ends
      exact ends
    · rw [same] at ends
      exact ends
  | bad =>
    rw [scan_bad] at ends
    exact ends
  | outside | inside | escaped | quoted => trivial

/-- Inside of more brackets a scan that stays within the value goes the same way. -/
theorem scan_deepen {p : Place} {text : List Char} (k : Nat) (h : p.Within)
    (ends : (scan p text).Within) : scan (p.deepen k) text = (scan p text).deepen k := by
  induction text generalizing p with
  | nil => rfl
  | cons c text ih =>
    have next : (p.step c).Within :=
      within_of_scan (step_ne_before c h.stuck.1) ends
    rw [scan_cons, step_deepen k h next, ih next ends, scan_cons]

/-! ## Objects -/

/-- The text of an object on one line: it begins with the name of its first field, which begins
with a letter, and its last bracket closes its first one. -/
structure Object (text : List Char) : Prop where
  name : ∃ c rest, text = '{' :: '"' :: c :: rest ∧ c.isAlpha = true
  last : text.getLast? = some '}'
  closed : scan before text = after
  oneLine : '\n' ∉ text ∧ '\r' ∉ text

namespace Object

variable {text t : List Char}

theorem ne_nil (h : Object text) : text ≠ [] := by
  obtain ⟨c, rest, rfl, -⟩ := h.name
  exact List.cons_ne_nil _ _

/-- A first part of an object begins like it. -/
theorem prefix_cases (h : Object text) (cut : t <+: text) :
    t = [] ∨ t = ['{'] ∨ t = ['{', '"'] ∨
      ∃ c rest, t = '{' :: '"' :: c :: rest ∧ c.isAlpha = true := by
  obtain ⟨c, rest, rfl, letter⟩ := h.name
  match t, cut with
  | [], _ => exact .inl rfl
  | [_], cut => grind
  | [_, _], cut => grind
  | x :: y :: z :: t, cut =>
    simp only [List.cons_prefix_cons] at cut
    obtain ⟨rfl, rfl, rfl, -⟩ := cut
    exact .inr (.inr (.inr ⟨_, _, rfl, letter⟩))

theorem head_of_cut (h : Object text) (cut : t <+: text) (ne : t ≠ []) :
    t.head? = some '{' := by
  obtain rfl | rfl | rfl | ⟨c, rest, rfl, -⟩ := h.prefix_cases cut
  · exact absurd rfl ne
  all_goals rfl

/-- An object that is cut short ends within. -/
theorem within_of_prefix (h : Object text) (cut : t <+: text) (ne : t ≠ []) (short : t ≠ text) :
    (scan before t).Within := by
  obtain ⟨u, rfl⟩ := cut
  have rest : u ≠ [] := fun nil => short (by simp [nil])
  have last : u.getLast? = some '}' := by rw [← h.last, List.getLast?_append_of_ne_nil _ rest]
  obtain ⟨v, rfl⟩ := List.getLast?_eq_some_iff.mp last
  have closed := h.closed
  rw [scan_append, scan_append] at closed
  have started : scan before t ≠ before := by
    obtain rfl | rfl | rfl | ⟨c, rest, rfl, -⟩ := h.prefix_cases (List.prefix_append _ _)
    · exact absurd rfl ne
    all_goals
      rw [scan_cons]
      exact scan_ne_before _ (by decide)
  cases at_ : scan before t with
  | before => exact absurd at_ started
  | after =>
    rw [at_] at closed
    obtain same | same := scan_after v
    · rw [same] at closed
      exact absurd closed (by decide)
    · rw [same] at closed
      exact absurd closed (by decide)
  | bad =>
    rw [at_, scan_bad] at closed
    exact absurd closed (by decide)
  | outside | inside | escaped | quoted => trivial

/-- Behind a value there is no room for an object. -/
theorem scan_after_of_prefix (h : Object text) (cut : t <+: text) (ne : t ≠ []) :
    scan after t = bad := by
  obtain rfl | rfl | rfl | ⟨c, rest, rfl, -⟩ := h.prefix_cases cut
  · exact absurd rfl ne
  · rfl
  · rfl
  · exact scan_bad rest

/-- In a string the first quote of an object ends the string, and a letter behind it is no
JSON. -/
theorem scan_inside_of_prefix (h : Object text) (cut : t <+: text) (depth : Nat) :
    (scan (inside depth) t).Stuck := by
  obtain rfl | rfl | rfl | ⟨c, rest, rfl, letter⟩ := h.prefix_cases cut
  · exact ⟨by simp, by simp⟩
  · exact ⟨by simp [step], by simp [step]⟩
  · exact ⟨by simp [step], by simp [step]⟩
  · have here : (quoted depth).step c = bad := by
      have other (x : Char) (h : x.isAlpha = false) : c ≠ x := by
        rintro rfl
        rw [letter] at h
        cases h
      simp [step, blank, other ' ' rfl, other '\n' rfl, other '\r' rfl, other '\t' rfl,
        other ',' rfl, other ':' rfl, other '}' rfl, other ']' rfl]
    have : scan (inside depth) ('{' :: '"' :: c :: rest) = bad := by
      simp only [scan_cons]
      rw [show ((inside depth).step '{').step '"' = quoted depth from rfl, here, scan_bad]
    rw [this]
    exact ⟨by simp, by simp⟩

/-- Within brackets an object is one more value, which does not close them. -/
theorem scan_outside_of_prefix (h : Object text) (cut : t <+: text) (depth : Nat) :
    (scan (outside depth) t).Within := by
  by_cases ne : t = []
  · rw [ne]
    trivial
  -- Up to its last bracket the object is scanned as from its own first one.
  have deeper : ∀ u : List Char, ('{' :: u) <+: text → '{' :: u ≠ text →
      scan (outside depth) ('{' :: u) = (scan before ('{' :: u)).deepen (depth + 1) := by
    intro u cut short
    have within := h.within_of_prefix cut (List.cons_ne_nil _ _) short
    have same := scan_deepen (p := outside 0) (depth + 1) trivial within
    rw [deepen, Nat.zero_add] at same
    exact same
  obtain ⟨u, rfl⟩ : ∃ u, t = '{' :: u := by
    obtain rfl | rfl | rfl | ⟨c, rest, rfl, -⟩ := h.prefix_cases cut
    · exact absurd rfl ne
    all_goals exact ⟨_, rfl⟩
  by_cases whole : '{' :: u = text
  · obtain ⟨v, eq⟩ := List.getLast?_eq_some_iff.mp h.last
    obtain ⟨w, rfl⟩ : ∃ w, v = '{' :: w := by
      cases v with
      | nil =>
        rw [← whole] at eq
        cases eq
      | cons x w =>
        rw [← whole, List.cons_append, List.cons.injEq] at eq
        exact ⟨w, by rw [eq.1]⟩
    have cutw : ('{' :: w) <+: text := ⟨['}'], eq.symm⟩
    have short : '{' :: w ≠ text := by
      rw [eq]
      simp
    have closed := h.closed
    rw [eq, scan_append, scan_cons, scan_nil] at closed
    have within := h.within_of_prefix cutw (List.cons_ne_nil _ _) short
    rw [whole, eq, scan_append, deeper w cutw short, scan_cons, scan_nil]
    generalize scan before ('{' :: w) = p at closed within ⊢
    cases p with
    | outside e | quoted e => cases e <;> simp_all [step, deepen, close, blank, Within]
    | inside | escaped => simp [step, escapes] at closed
    | before | after | bad => exact within.elim
  · rw [deeper u cut whole]
    exact (h.within_of_prefix cut (List.cons_ne_nil _ _) whole).deepen _

/-- What is stuck stays stuck, whatever part of an object is written behind it. -/
theorem stuck (h : Object text) (cut : t <+: text) {p : Place} (stuck : p.Stuck) :
    (scan p t).Stuck := by
  cases p with
  | before => exact absurd rfl stuck.1
  | after => exact absurd rfl stuck.2
  | bad =>
    rw [scan_bad]
    exact stuck
  | outside depth => exact (h.scan_outside_of_prefix cut depth).stuck
  | inside depth => exact h.scan_inside_of_prefix cut depth
  | escaped depth | quoted depth =>
    obtain rfl | rfl | rfl | ⟨c, rest, rfl, -⟩ := h.prefix_cases cut
    · exact stuck
    · exact ⟨by simp [step, escapes, blank], by simp [step, escapes, blank]⟩
    · exact ⟨by simp [step, escapes, blank], by simp [step, escapes, blank]⟩
    · exact ⟨by simp [step, escapes, blank], by simp [step, escapes, blank]⟩

end Object

/-! ## Bad lines -/

/-- A line that begins an object and is no JSON, whatever objects are written behind it. -/
structure Bad (line : List Char) : Prop where
  head : line.head? = some '{'
  plain : '\r' ∉ line
  stuck : (scan before line).Stuck

namespace Bad

variable {a b line t : List Char}

/-- An object that is cut short. -/
theorem of_cut (h : Object a) (cut : t <+: a) (ne : t ≠ []) (short : t ≠ a) : Bad t where
  head := h.head_of_cut cut ne
  plain := fun mem => h.oneLine.2 (cut.subset mem)
  stuck := (h.within_of_prefix cut ne short).stuck

/-- An object behind another one. -/
theorem of_two (ha : Object a) (hb : Object b) (cut : t <+: b) (ne : t ≠ []) : Bad (a ++ t) where
  head := by
    rw [List.head?_append_of_ne_nil _ ha.ne_nil]
    exact ha.head_of_cut (List.prefix_refl a) ha.ne_nil
  plain := by
    rw [List.mem_append, not_or]
    exact ⟨ha.oneLine.2, fun mem => hb.oneLine.2 (cut.subset mem)⟩
  stuck := by
    rw [scan_append, ha.closed, hb.scan_after_of_prefix cut ne]
    exact ⟨by simp, by simp⟩

theorem append (h : Bad line) (hb : Object b) (cut : t <+: b) : Bad (line ++ t) where
  head := by
    have ne : line ≠ [] := by
      rintro rfl
      cases h.head
    rw [List.head?_append_of_ne_nil _ ne, h.head]
  plain := by
    rw [List.mem_append, not_or]
    exact ⟨h.plain, fun mem => hb.oneLine.2 (cut.subset mem)⟩
  stuck := by
    rw [scan_append]
    exact hb.stuck cut h.stuck

end Bad

/-- One of the lines is bad. -/
def Broken (s : Lines) : Prop := (∃ line ∈ s.ended, Bad line) ∨ Bad s.last

namespace Broken

variable {text b t : List Char}

theorem append (h : Broken (split text)) (hb : Object b) (cut : t <+: b) :
    Broken (split (text ++ t)) := by
  rw [split_append_of_not_mem text fun mem => hb.oneLine.1 (cut.subset mem)]
  exact h.imp_right fun bad => bad.append hb cut

theorem newline (h : Broken (split text)) : Broken (split (text ++ ['\n'])) := by
  rw [split_newline]
  obtain ⟨line, mem, bad⟩ | bad := h
  · exact .inl ⟨line, List.mem_append_left _ mem, bad⟩
  · exact .inl ⟨_, List.mem_append_right _ (List.mem_singleton.mpr rfl), bad⟩

/-- The bad line is one of the lines of the text. -/
theorem exists_line (h : Broken (split text)) : ∃ line ∈ lines text, Bad line := by
  obtain ⟨line, mem, bad⟩ | bad := h
  · refine ⟨line, List.mem_append_left _ (List.mem_map.mpr ⟨line, mem, ?_⟩), bad⟩
    exact stripReturn_of_not_mem bad.plain
  · have ne : (split text).last ≠ [] := fun nil => by
      have head := bad.head
      rw [nil] at head
      cases head
    refine ⟨_, List.mem_append_right _ ?_, bad⟩
    rw [if_neg ne]
    exact List.mem_singleton.mpr rfl

end Broken

end JsonLines
