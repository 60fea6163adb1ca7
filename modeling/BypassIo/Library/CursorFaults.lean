import BypassIo.Library.Cursor

/-!
# Readers that fail

A reader over a slice ends with a fault on some inputs. `Parses p W` says which bytes `p` takes
for which value, and `FailsOn p fault B` which bytes it ends on with `fault`. Both are exact:
what the reader meets is described by the bytes alone, and composes along the monad.
-/

namespace Octet
open Rust

/-- A byte slice: nothing in memory is larger than `isize::MAX`. -/
structure Slice where
  bytes : Bytes
  room : bytes.length ≤ isizeMax

namespace Cursor

/-- The bytes that come next. -/
def rest (c : Cursor) : Bytes := c.input.drop c.offset

/-- A cursor that has not left its slice. -/
structure Inside (c : Cursor) : Prop where
  room : c.input.length ≤ isizeMax
  offset : c.offset ≤ c.input.length

theorem Inside.start (s : Slice) : Inside ⟨s.bytes, 0⟩ := ⟨s.room, Nat.zero_le _⟩

theorem Inside.usize {c : Cursor} (inside : c.Inside) : c.input.length ≤ usizeMax := by
  have := inside.room
  unfold isizeMax at this
  unfold usizeMax
  omega

end Cursor

namespace Reader

variable {ε α β : Type} {p q : Reader ε α} {f g : α → Reader ε β} {fault : Fault ε}
variable {c c' : Cursor} {enc : Bytes} {a : α}

theorem run_bind_eq_error : (p >>= f) c = .error fault ↔
    p c = .error fault ∨ ∃ a c', p c = .ok (a, c') ∧ f a c' = .error fault := by
  change (p c >>= fun r => f r.1 r.2) = _ ↔ _
  rw [Rust.bind_eq_error]
  constructor
  · rintro (first | ⟨⟨a, c'⟩, first, second⟩)
    · exact .inl first
    · exact .inr ⟨a, c', first, second⟩
  · rintro (first | ⟨a, c', first, second⟩)
    · exact .inl first
    · exact .inr ⟨(a, c'), first, second⟩

/-! ## Staying in the slice -/

theorem Took.rest (took : Took c enc c') : c.rest = enc ++ c'.rest := by
  rw [Cursor.rest, Cursor.rest, took.input]
  exact took.bytes

theorem Took.inside (took : Took c enc c') (inside : c.Inside) : c'.Inside := by
  have lengths := congrArg List.length took.bytes
  have := inside.offset
  simp only [List.length_drop, List.length_append, took.offset] at lengths
  refine ⟨took.input ▸ inside.room, ?_⟩
  rw [took.input, took.offset]
  omega

/-- A successful reading stays in the slice. -/
def Stays (p : Reader ε α) : Prop := ∀ {c a c'}, c.Inside → p c = .ok (a, c') → c'.Inside

theorem stays_of_took {W : α → Bytes → Prop}
    (took : ∀ {c a c'}, p c = .ok (a, c') → ∃ enc, W a enc ∧ Took c enc c') : p.Stays := by
  intro c a c' inside h
  obtain ⟨enc, -, took⟩ := took h
  exact took.inside inside

theorem stays_step {x : Outcome ε α} : (step x).Stays := by
  intro c a c' inside h
  obtain ⟨-, rfl⟩ := run_step_eq_ok.mp h
  exact inside

/-! ## What a reader takes -/

/-- The reader takes the bytes `W` has for a value, and no others. -/
structure Parses (p : Reader ε α) (W : α → Bytes → Prop) : Prop where
  reads : ∀ {a enc}, W a enc → p.Reads enc a
  took : ∀ {c a c'}, c.Inside → p c = .ok (a, c') → ∃ enc, W a enc ∧ Took c enc c'

theorem Parses.stays {W : α → Bytes → Prop} (parses : p.Parses W) : p.Stays := by
  intro c a c' inside h
  obtain ⟨enc, -, took⟩ := parses.took inside h
  exact took.inside inside

theorem parses_step {x : Outcome ε α} : (step x).Parses fun a enc => x = .ok a ∧ enc = [] where
  reads := by
    rintro a enc ⟨ok, rfl⟩
    exact reads_step ok
  took := by
    intro c a c' _ h
    obtain ⟨ok, rfl⟩ := run_step_eq_ok.mp h
    exact ⟨[], ⟨ok, rfl⟩, .refl c⟩

/-- A reader run at bytes that it takes. -/
theorem Reads.run_at (reads : p.Reads enc a) (inside : c.Inside) (next : enc <+: c.rest) :
    ∃ c', p c = .ok (a, c') ∧ Took c enc c' := by
  obtain ⟨back, rest⟩ := next
  obtain ⟨input, offset⟩ := c
  have whole : input.take offset ++ (enc ++ back) = input := by
    rw [rest]
    exact List.take_append_drop offset input
  have front : (input.take offset).length = offset := List.length_take_of_le inside.offset
  have fits : (input.take offset ++ (enc ++ back)).length ≤ usizeMax := by
    rw [whole]
    exact inside.usize
  have run := reads (input.take offset) back fits
  rw [whole, front, List.length_append, front] at run
  refine ⟨_, run, rfl, rfl, ?_⟩
  have skip := congrArg (List.drop enc.length) rest
  rw [List.drop_left] at skip
  dsimp only
  rw [← List.drop_drop]
  exact rest.symm.trans (congrArg (enc ++ ·) skip)

/-! ## What a reader fails on -/

/-- The reader ends with the fault where one of the fronts `B` comes next, and nowhere else. -/
def FailsOn (p : Reader ε α) (fault : Fault ε) (B : Bytes → Prop) : Prop :=
  ∀ c : Cursor, c.Inside → (p c = .error fault ↔ ∃ enc, B enc ∧ enc <+: c.rest)

/-- The reader never ends with the fault. -/
def Never (p : Reader ε α) (fault : Fault ε) : Prop := ∀ c : Cursor, c.Inside → p c ≠ .error fault

theorem never_iff : p.Never fault ↔ p.FailsOn fault fun _ => False := by
  simp [Never, FailsOn]

theorem FailsOn.congr {B B' : Bytes → Prop} (h : p.FailsOn fault B) (same : ∀ enc, B enc ↔ B' enc) :
    p.FailsOn fault B' := by
  intro c inside
  rw [h c inside]
  simp only [same]

theorem failsOn_step {x : Outcome ε α} :
    (step x).FailsOn fault fun enc => x = .error fault ∧ enc = [] := by
  intro c _
  cases x with
  | error e => simp [step, Except.map]
  | ok a => simp [step, Except.map]

theorem never_step {x : Outcome ε α} (h : x ≠ .error fault) : (step x).Never fault := by
  intro c _
  cases x with
  | error e => simpa [step, Except.map] using h
  | ok a => simp [step, Except.map]

theorem never_pure : (pure a : Reader ε α).Never fault := fun _ _ h => nomatch h

/-- The first reader fails, or it takes its bytes and the second fails on those after. -/
theorem FailsOn.bind {B : Bytes → Prop} {W : α → Bytes → Prop} {B' : α → Bytes → Prop}
    (hp : p.FailsOn fault B) (parses : p.Parses W) (hf : ∀ a, (f a).FailsOn fault (B' a)) :
    (p >>= f).FailsOn fault fun enc =>
      B enc ∨ ∃ a front back, W a front ∧ B' a back ∧ enc = front ++ back := by
  intro c inside
  rw [run_bind_eq_error, hp c inside]
  constructor
  · rintro (⟨enc, bad, next⟩ | ⟨a, c', first, second⟩)
    · exact ⟨enc, .inl bad, next⟩
    · obtain ⟨front, taken, took⟩ := parses.took inside first
      obtain ⟨back, bad, next⟩ := (hf a c' (took.inside inside)).mp second
      refine ⟨front ++ back, .inr ⟨a, front, back, taken, bad, rfl⟩, ?_⟩
      rw [took.rest]
      exact (List.prefix_append_right_inj front).mpr next
  · rintro ⟨enc, bad | ⟨a, front, back, taken, bad, rfl⟩, next⟩
    · exact .inl ⟨enc, bad, next⟩
    · obtain ⟨c', first, took⟩ :=
        (parses.reads taken).run_at inside ((List.prefix_append front back).trans next)
      rw [took.rest, List.prefix_append_right_inj] at next
      exact .inr ⟨a, c', first, (hf a c' (took.inside inside)).mpr ⟨back, bad, next⟩⟩

/-- `FailsOn.bind` where only the second reader fails. -/
theorem Never.bind {W : α → Bytes → Prop} {B : α → Bytes → Prop} (hp : p.Never fault)
    (parses : p.Parses W) (hf : ∀ a, (f a).FailsOn fault (B a)) :
    (p >>= f).FailsOn fault fun enc =>
      ∃ a front back, W a front ∧ B a back ∧ enc = front ++ back :=
  ((never_iff.mp hp).bind parses hf).congr fun _ => iff_of_eq (false_or _)

theorem FailsOn.map {B : Bytes → Prop} (hp : p.FailsOn fault B) (g : α → β) :
    (do return g (← p) : Reader ε β).FailsOn fault B := by
  intro c inside
  rw [run_bind_eq_error, ← hp c inside]
  constructor
  · rintro (first | ⟨a, c', -, done⟩)
    · exact first
    · cases done
  · exact .inl

theorem Never.map (hp : p.Never fault) (g : α → β) : (do return g (← p) : Reader ε β).Never fault :=
  never_iff.mpr ((never_iff.mp hp).map g)

/-- What follows never fails. -/
theorem FailsOn.bind_never {B : Bytes → Prop} (hp : p.FailsOn fault B) (stays : p.Stays)
    (hf : ∀ a, (f a).Never fault) : (p >>= f).FailsOn fault B := by
  intro c inside
  rw [run_bind_eq_error, ← hp c inside]
  constructor
  · rintro (first | ⟨a, c', first, second⟩)
    · exact first
    · exact absurd second (hf a c' (stays inside first))
  · exact .inl

theorem Never.bind_never (hp : p.Never fault) (stays : p.Stays) (hf : ∀ a, (f a).Never fault) :
    (p >>= f).Never fault := never_iff.mpr ((never_iff.mp hp).bind_never stays hf)

theorem Never.times (hp : p.Never fault) (stays : p.Stays) (n : Nat) : (p.times n).Never fault := by
  induction n with
  | zero => exact never_pure
  | succ n ih =>
    exact hp.bind_never stays fun a => ih.map (a :: ·)

/-! ## Readers that agree -/

/-- The readers do the same in a slice. -/
def Agree (p q : Reader ε α) : Prop := ∀ c : Cursor, c.Inside → p c = q c

theorem Agree.refl (p : Reader ε α) : Agree p p := fun _ _ => rfl

theorem Agree.bind (h : Agree p q) (stays : q.Stays) (hf : ∀ a, Agree (f a) (g a)) :
    Agree (p >>= f) (q >>= g) := by
  intro c inside
  change (p c >>= fun r => f r.1 r.2) = (q c >>= fun r => g r.1 r.2)
  rw [h c inside]
  cases first : q c with
  | error e => rfl
  | ok r => exact hf r.1 r.2 (stays inside first)

theorem FailsOn.of_agree {B : Bytes → Prop} (h : q.FailsOn fault B) (same : Agree p q) :
    p.FailsOn fault B := by
  intro c inside
  rw [same c inside]
  exact h c inside

end Reader

end Octet
