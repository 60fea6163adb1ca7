import BypassIo.Library.Bytes
import BypassIo.Library.Outcome

/-!
# Readers over a byte string

A reader moves a cursor through a byte string. `Reads p enc a` says that `p` takes exactly
the bytes `enc`, wherever they stand, and returns `a`; it composes along the monad, so a
format written field by field is read back field by field.
-/

namespace Octet
open Rust

/-- A position in a byte string. -/
structure Cursor where
  input : Bytes
  offset : Nat
  deriving DecidableEq, Repr

abbrev Reader (ε α : Type) := StateT Cursor (Outcome ε) α

variable {ε α β : Type}

namespace Reader

/-- `count` readings in a row. -/
def times (p : Reader ε α) : Nat → Reader ε (List α)
  | 0 => pure []
  | count + 1 => do
    let a ← p
    let rest ← p.times count
    return a :: rest

/-- A step that does not read. -/
def step (x : Outcome ε α) : Reader ε α := fun c => x.map (·, c)

/-- The reader takes the bytes `enc` and returns `a`. -/
def Reads (p : Reader ε α) (enc : Bytes) (a : α) : Prop :=
  ∀ front back, (front ++ (enc ++ back)).length ≤ usizeMax →
    p ⟨front ++ (enc ++ back), front.length⟩ =
      .ok (a, ⟨front ++ (enc ++ back), (front ++ enc).length⟩)

theorem reads_pure (a : α) : (pure a : Reader ε α).Reads [] a := by
  intro front back _
  have whole : front ++ ([] : Bytes) = front := List.append_nil front
  rw [whole]
  rfl

theorem reads_step {x : Outcome ε α} {a : α} (h : x = .ok a) : (step x).Reads [] a := by
  intro front back _
  simp [step, h, Except.map]

theorem Reads.bind {p : Reader ε α} {f : α → Reader ε β} {enc enc' : Bytes} {a : α} {b : β}
    (hp : p.Reads enc a) (hf : (f a).Reads enc' b) : (p >>= f).Reads (enc ++ enc') b := by
  intro front back fits
  have first := hp front (enc' ++ back) (by simpa using fits)
  have second := hf (front ++ enc) back (by simpa using fits)
  simp only [List.append_assoc] at first second ⊢
  change (p _ >>= fun r => f r.1 r.2) = _
  rw [first]
  exact second

/-- `Reads.bind` for bytes given as one string. -/
theorem Reads.seq {p : Reader ε α} {f : α → Reader ε β} {enc enc' whole : Bytes} {a : α} {b : β}
    (hp : p.Reads enc a) (hf : (f a).Reads enc' b) (h : whole = enc ++ enc') :
    (p >>= f).Reads whole b := h ▸ hp.bind hf

theorem Reads.map {p : Reader ε α} {enc : Bytes} {a : α} (hp : p.Reads enc a) (f : α → β) :
    (do return f (← p) : Reader ε β).Reads enc (f a) :=
  Reads.seq hp (reads_pure _) (List.append_nil enc).symm

theorem Reads.times {p : Reader ε α} {enc : α → Bytes} {as : List α}
    (h : ∀ a ∈ as, p.Reads (enc a) a) : (p.times as.length).Reads (as.flatMap enc) as := by
  induction as with
  | nil => exact reads_pure []
  | cons a as ih =>
    have tail := ih fun b hb => h b (List.mem_cons_of_mem _ hb)
    exact Reads.seq (h a List.mem_cons_self) (tail.map (a :: ·)) rfl

/-- A reader run from the start of the bytes it takes. -/
theorem Reads.run {p : Reader ε α} {enc : Bytes} {a : α} (h : p.Reads enc a)
    (fits : enc.length ≤ usizeMax) : p ⟨enc, 0⟩ = .ok (a, ⟨enc, enc.length⟩) := by
  simpa using h [] [] (by simpa using fits)

/-! ## What a successful reading took -/

theorem run_bind_eq_ok {p : Reader ε α} {f : α → Reader ε β} {b : β} {c c'' : Cursor} :
    (p >>= f) c = .ok (b, c'') ↔ ∃ a c', p c = .ok (a, c') ∧ f a c' = .ok (b, c'') := by
  change (p c >>= fun r => f r.1 r.2) = _ ↔ _
  rw [Rust.bind_eq_ok]
  constructor
  · rintro ⟨⟨a, c'⟩, first, second⟩
    exact ⟨a, c', first, second⟩
  · rintro ⟨a, c', first, second⟩
    exact ⟨(a, c'), first, second⟩

theorem run_pure_eq_ok {a b : α} {c c' : Cursor} :
    (pure a : Reader ε α) c = .ok (b, c') ↔ a = b ∧ c = c' := by
  change (.ok (a, c) : Outcome ε (α × Cursor)) = .ok (b, c') ↔ _
  grind

theorem run_step_eq_ok {x : Outcome ε α} {a : α} {c c' : Cursor} :
    step x c = .ok (a, c') ↔ x = .ok a ∧ c = c' := by
  cases x <;> simp [step, Except.map]

/-- A reader went from `c` over the bytes `enc` to `c'`. -/
structure Took (c : Cursor) (enc : Bytes) (c' : Cursor) : Prop where
  input : c'.input = c.input
  offset : c'.offset = c.offset + enc.length
  bytes : c.input.drop c.offset = enc ++ c.input.drop c'.offset

theorem Took.refl (c : Cursor) : Took c [] c := ⟨rfl, rfl, rfl⟩

theorem Took.trans {c c' c'' : Cursor} {enc enc' : Bytes} (h : Took c enc c')
    (h' : Took c' enc' c'') : Took c (enc ++ enc') c'' where
  input := h'.input.trans h.input
  offset := by rw [h'.offset, h.offset, List.length_append, Nat.add_assoc]
  bytes := by
    have rest := h'.bytes
    rw [h.input] at rest
    rw [h.bytes, rest, List.append_assoc]

/-- The values of a loop, and the bytes of each. -/
theorem times_eq_ok {p : Reader ε α} {W : α → Bytes → Prop}
    (reads : ∀ {c a c'}, p c = .ok (a, c') → ∃ enc, W a enc ∧ Took c enc c')
    {n : Nat} {as : List α} {c c' : Cursor} (h : p.times n c = .ok (as, c')) :
    as.length = n ∧ ∃ encs, List.Forall₂ W as encs ∧ Took c encs.flatten c' := by
  induction n generalizing as c with
  | zero =>
    obtain ⟨rfl, rfl⟩ := run_pure_eq_ok.mp h
    exact ⟨rfl, [], .nil, .refl _⟩
  | succ n ih =>
    obtain ⟨a, c₁, first, h⟩ := run_bind_eq_ok.mp h
    obtain ⟨rest, c₂, others, h⟩ := run_bind_eq_ok.mp h
    obtain ⟨rfl, rfl⟩ := run_pure_eq_ok.mp h
    obtain ⟨enc, written, took⟩ := reads first
    obtain ⟨len, encs, all, tail⟩ := ih others
    refine ⟨by simp [len], enc :: encs, .cons written all, ?_⟩
    rw [List.flatten_cons]
    exact took.trans tail

theorem length_times {p : Reader ε α} {n : Nat} {as : List α} {c c' : Cursor}
    (h : p.times n c = .ok (as, c')) : as.length = n := by
  induction n generalizing as c with
  | zero =>
    obtain ⟨rfl, -⟩ := run_pure_eq_ok.mp h
    rfl
  | succ n ih =>
    obtain ⟨a, c₁, -, h⟩ := run_bind_eq_ok.mp h
    obtain ⟨rest, c₂, others, h⟩ := run_bind_eq_ok.mp h
    obtain ⟨rfl, rfl⟩ := run_pure_eq_ok.mp h
    simp [ih others]

/-- What every reading leaves behind, a loop of them leaves behind. -/
theorem times_leaves {p : Reader ε α} {I : Cursor → Prop}
    (leaves : ∀ {c a c'}, p c = .ok (a, c') → I c') {n : Nat} {as : List α} {c c' : Cursor}
    (start : I c) (h : p.times n c = .ok (as, c')) : I c' := by
  induction n generalizing as c with
  | zero =>
    obtain ⟨-, rfl⟩ := run_pure_eq_ok.mp h
    exact start
  | succ n ih =>
    obtain ⟨a, c₁, first, h⟩ := run_bind_eq_ok.mp h
    obtain ⟨rest, c₂, others, h⟩ := run_bind_eq_ok.mp h
    obtain ⟨rfl, rfl⟩ := run_pure_eq_ok.mp h
    exact ih (leaves first) others

end Reader

end Octet
