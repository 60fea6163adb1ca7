import BypassIo.Library.Program

/-!
# Power losses

A `Volatile` is a disk together with what a power loss may do to it. A loss takes any bytes,
directory entries and renames that no sync has made safe, each by itself.

## Main definitions

* `Volatile.Loses`: the disks that a power loss may leave.
* `Prog.onVolatile`, `Prog.Stops`: programs that end, and that are killed inside a call.
* `Volatile.Unsynced`: nothing of the file is safe.
* `Prog.Each`: every call of the program has a property.
-/

namespace FileSystem
open Octet Rust

/-- The bytes of a file, none if it is not there. -/
def Disk.bytes (d : Disk) (q : Path) : Bytes := (d.files q).getD []

namespace Call

variable {c : Call} {d x : Disk} {q : Path}

/-- The disks while a call runs to its end. -/
def Moments (c : Call) (d x : Disk) : Prop := c.Torn d x ∨ x = (c.effect d).2

/-- The call leaves the bytes of `q`; at most it makes an empty file of it. -/
def Spares (q : Path) (c : Call) : Prop := c.Touches q → c = .openAppend q

/-- The call syncs nothing. -/
def NoSync (c : Call) : Prop := ∀ q, c ≠ .sync q

theorem Spares.bytes (h : c.Spares q) (moment : c.Moments d x) : x.bytes q = d.bytes q := by
  by_cases touches : c.Touches q
  · obtain rfl := h touches
    have created : ((openAppend q).effect d).2.bytes q = d.bytes q := by
      simp only [effect, Disk.bytes]
      split
      · rfl
      · next absent => split <;> simp [absent]
    rcases moment with (rfl | rfl) | rfl
    · rfl
    · exact created
    · exact created
  · have off : ∀ p, c.Touches p → p ≠ q := fun p hp same => touches (same ▸ hp)
    have same : ¬ ¬ q = q := not_not.mpr rfl
    rcases moment with torn | rfl
    · exact congrArg (·.getD []) ((torn.eqOff off).files q same)
    · exact congrArg (·.getD []) ((effect_eqOff off d).files q same)

theorem append_moments {b : Bytes} (moment : (append q b).Moments d x) :
    x = d ∨ ∃ held n, d.files q = some held ∧ x = d.setFile q (some (held ++ b.take n)) := by
  rcases moment with torn | rfl
  · exact torn
  · simp only [effect]
    split
    · next held found =>
      split
      · exact .inr ⟨held, b.length, found, by rw [List.take_length]⟩
      · exact .inl rfl
    · exact .inl rfl

end Call

/-- A disk, the disks it has been since the last start, and for each file the bytes at its
start that no power loss takes. -/
structure Volatile where
  now : Disk
  past : Disk → Prop
  safe : Path → Bytes → Prop

namespace Volatile

variable {v : Volatile} {q : Path} {b : Bytes}

/-- A disk that has been found after a start of the machine. -/
def booted (d : Disk) : Volatile := ⟨d, (· = d), fun q b => b <+: d.bytes q⟩

/-- Time passes through `moments`; bytes stay safe while they stay in their file. -/
def pass (v : Volatile) (moments : Disk → Prop) (now : Disk) : Volatile where
  now := now
  past x := v.past x ∨ moments x
  safe q b := v.safe q b ∧ ∀ x, moments x → b <+: x.bytes q

/-- The state after a call; a sync makes the bytes of its file safe. -/
def after (v : Volatile) (c : Call) : Volatile :=
  let w := v.pass (c.Moments v.now) (c.effect v.now).2
  { w with safe := fun q b => w.safe q b ∨ c = .sync q ∧ b <+: v.now.bytes q }

/-- The file `q` may be `left`: each byte is one that it had at that place, or lost. -/
structure Survives (v : Volatile) (q : Path) (left : Bytes) : Prop where
  length : ∃ x held, v.past x ∧ x.files q = some held ∧ left.length ≤ held.length
  bytes : ∀ (i : ℕ) a, left[i]? = some a →
    a = 0 ∨ ∃ x held, v.past x ∧ x.files q = some held ∧ held[i]? = some a

/-- A power loss may leave `d`. -/
structure Loses (v : Volatile) (d : Disk) : Prop where
  files : ∀ q c, d.files q = some c → v.Survives q c
  dirs : ∀ q, d.dirs q = true → ∃ x, v.past x ∧ x.dirs q = true
  safe : ∀ q b, v.safe q b → b <+: d.bytes q

theorem survives_whole {x : Disk} (past : v.past x) (held : x.files q = some b) :
    v.Survives q b where
  length := ⟨x, b, past, held, Nat.le_refl _⟩
  bytes _ _ at_ := .inr ⟨x, b, past, held, at_⟩

/-- A loss may take any files of a past moment that are not safe. -/
theorem loses_part {x d : Disk} (past : v.past x)
    (files : ∀ q c, d.files q = some c → x.files q = some c)
    (dirs : ∀ q, d.dirs q = true → x.dirs q = true)
    (kept : ∀ q b, v.safe q b → b <+: d.bytes q) : v.Loses d where
  files q c held := survives_whole past (files q c held)
  dirs q dir := ⟨x, past, dirs q dir⟩
  safe := kept

/-- The disk is one of the past, and has all bytes that are safe. -/
structure Sound (v : Volatile) : Prop where
  past : v.past v.now
  safe : ∀ q b, v.safe q b → b <+: v.now.bytes q

theorem sound_booted (d : Disk) : (booted d).Sound := ⟨rfl, fun _ _ safe => safe⟩

theorem sound_pass {moments : Disk → Prop} {now : Disk} (moment : moments now) :
    (v.pass moments now).Sound := ⟨.inr moment, fun _ _ safe => safe.2 now moment⟩

theorem sound_after (v : Volatile) (c : Call) : (v.after c).Sound := by
  refine ⟨.inr (.inr rfl), ?_⟩
  rintro q b (safe | ⟨rfl, safe⟩)
  · exact (sound_pass (.inr rfl)).safe q b safe
  · exact safe

/-- Nothing of the file has been made safe since the machine was started. -/
def Unsynced (v : Volatile) (q : Path) : Prop :=
  ∀ b, v.safe q b → ∀ x, v.past x → b <+: x.bytes q

theorem unsynced_booted (d : Disk) (q : Path) : (booted d).Unsynced q := by
  rintro b safe x rfl
  exact safe

theorem Unsynced.pass {moments : Disk → Prop} {now : Disk} (h : v.Unsynced q) :
    (v.pass moments now).Unsynced q := by
  rintro b ⟨safe, kept⟩ x (old | new)
  · exact h b safe x old
  · exact kept x new

theorem Unsynced.after {c : Call} (h : v.Unsynced q) (other : c ≠ .sync q) :
    (v.after c).Unsynced q := by
  rintro b (kept | ⟨same, -⟩)
  · exact Unsynced.pass h b kept
  · exact absurd same other

end Volatile

namespace Prog

variable {α β : Type} {p : Prog α} {c : Call} {k : Except IoError c.Reply → Prog α}
  {v w : Volatile} {d x : Disk} {q : Path} {b : Bytes}

/-! ## Programs on a volatile disk -/

/-- The execution without faults. -/
def onVolatile : Prog α → Volatile → α × Volatile
  | .ret a, v => (a, v)
  | .call c k, v => (k (c.effect v.now).1).onVolatile (v.after c)

/-- The states left when the process is killed inside some call. -/
inductive Stops : Prog α → Volatile → Volatile → Prop where
  | here {c : Call} {k : Except IoError c.Reply → Prog α} {v d} :
      c.Torn v.now d → Stops (.call c k) v (v.pass (· = d) d)
  | later {c : Call} {k : Except IoError c.Reply → Prog α} {v w} :
      Stops (k (c.effect v.now).1) (v.after c) w → Stops (.call c k) v w

/-- The states in which the program ends or is killed. -/
def Reaches (p : Prog α) (v w : Volatile) : Prop := Stops p v w ∨ w = (p.onVolatile v).2

/-- The disks while a program runs. -/
def During (p : Prog α) (d x : Disk) : Prop := Crashes p d x ∨ x = (p.exec d).2

/-- On the disk it is the execution. -/
theorem onVolatile_exec (p : Prog α) (v : Volatile) :
    p.exec v.now = ((p.onVolatile v).1, (p.onVolatile v).2.now) := by
  induction p generalizing v with
  | ret a => rfl
  | call c k ih => exact ih _ (v.after c)

theorem exec_of_onVolatile {a : α} (run : p.onVolatile v = (a, w)) : p.exec v.now = (a, w.now) := by
  rw [onVolatile_exec, run]

theorem onVolatile_of_exec {a : α} (run : p.exec v.now = (a, d)) :
    ∃ w, p.onVolatile v = (a, w) ∧ w.now = d := by
  rw [onVolatile_exec] at run
  obtain ⟨rfl, rfl⟩ := Prod.mk.inj run
  exact ⟨_, rfl, rfl⟩

theorem reaches_of_onVolatile {a : α} (run : p.onVolatile v = (a, w)) : p.Reaches v w :=
  .inr (by rw [run])

/-- A program is killed in its first call, or goes on after it. -/
theorem Reaches.cases (h : Reaches (.call c k) v w) :
    (∃ d, c.Torn v.now d ∧ w = v.pass (· = d) d) ∨
      (k (c.effect v.now).1).Reaches (v.after c) w := by
  rcases h with stop | final
  · cases stop with
    | here torn => exact .inl ⟨_, torn, rfl⟩
    | later rest => exact .inr (.inl rest)
  · exact .inr (.inr final)

theorem reaches_ret {a : α} (h : Reaches (.ret a) v w) : w = v := by
  rcases h with stop | final
  · cases stop
  · exact final

theorem during_start (p : Prog α) (d : Disk) : During p d d := by
  cases p with
  | ret a => exact .inr rfl
  | call c k => exact .inl (.here (Call.torn_refl c d))

theorem during_call (h : During (k (c.effect d).1) (c.effect d).2 x) : During (.call c k) d x :=
  h.imp .later id

theorem during_moment (h : c.Moments d x) : During (.call c k) d x := by
  rcases h with torn | rfl
  · exact .inl (.here torn)
  · exact during_call (during_start _ _)

namespace Reaches

/-- What is past after a run was past before, or is a disk of the run. -/
theorem past (h : p.Reaches v w) (past : w.past x) : v.past x ∨ During p v.now x := by
  induction p generalizing v with
  | ret a =>
    rw [reaches_ret h] at past
    exact .inl past
  | call c k ih =>
    rcases h.cases with ⟨d, torn, rfl⟩ | rest
    · rcases past with old | rfl
      · exact .inl old
      · exact .inr (.inl (.here torn))
    · rcases ih _ rest with (old | moment) | later
      · exact .inl old
      · exact .inr (during_moment moment)
      · exact .inr (during_call later)

theorem past_mono (h : p.Reaches v w) (past : v.past x) : w.past x := by
  induction p generalizing v with
  | ret a => rwa [reaches_ret h]
  | call c k ih =>
    rcases h.cases with ⟨d, -, rfl⟩ | rest
    · exact .inl past
    · exact ih _ rest (.inl past)

theorem during (h : p.Reaches v w) : During p v.now w.now := by
  induction p generalizing v with
  | ret a =>
    rw [reaches_ret h]
    exact during_start _ _
  | call c k ih =>
    rcases h.cases with ⟨d, torn, rfl⟩ | rest
    · exact .inl (.here torn)
    · exact during_call (ih _ rest)

theorem sound (h : p.Reaches v w) (sound : v.Sound) : w.Sound := by
  induction p generalizing v with
  | ret a => rwa [reaches_ret h]
  | call c k ih =>
    rcases h.cases with ⟨d, -, rfl⟩ | rest
    · exact Volatile.sound_pass rfl
    · exact ih _ rest (Volatile.sound_after v c)

/-- Bytes stay safe through a program that keeps them in their file. -/
theorem safe (h : p.Reaches v w) (safe : v.safe q b)
    (kept : ∀ x, During p v.now x → b <+: x.bytes q) : w.safe q b := by
  induction p generalizing v with
  | ret a => rwa [reaches_ret h]
  | call c k ih =>
    rcases h.cases with ⟨d, torn, rfl⟩ | rest
    · refine ⟨safe, ?_⟩
      rintro x rfl
      exact kept x (.inl (.here torn))
    · have after : (v.after c).safe q b := .inl ⟨safe, fun x h => kept x (during_moment h)⟩
      exact ih _ rest after fun x h => kept x (during_call h)

end Reaches

/-! ## The calls of a program -/

/-- Every call of the program, whatever the replies, satisfies `P`. -/
def Each (P : Call → Prop) : Prog α → Prop
  | .ret _ => True
  | .call c k => P c ∧ ∀ r, (k r).Each P

section Each

variable {P P' : Call → Prop}

theorem Each.bind {f : α → Prog β} (hp : p.Each P) (hf : ∀ a, (f a).Each P) :
    (p >>= f).Each P := by
  induction p with
  | ret a => exact hf a
  | call c k ih => exact ⟨hp.1, fun r => ih r (hp.2 r)⟩

theorem Each.mono (h : p.Each P) (le : ∀ c, P c → P' c) : p.Each P' := by
  induction p with
  | ret a => trivial
  | call c k ih => exact ⟨le c h.1, fun r => ih r (h.2 r)⟩

/-- A program each of whose calls touches only files of `K`. -/
theorem Each.confined {K : Path → Prop} (h : p.Each fun c => ∀ q, c.Touches q → K q) :
    p.Confined K := by
  induction p with
  | ret a => trivial
  | call c k ih => exact ⟨h.1, fun r => ih r (h.2 r)⟩

/-- A file that the program does not sync stays unsynced. -/
theorem Each.unsynced (h : p.Each (· ≠ .sync q)) (unsynced : v.Unsynced q)
    (reaches : p.Reaches v w) : w.Unsynced q := by
  induction p generalizing v with
  | ret a => rwa [reaches_ret reaches]
  | call c k ih =>
    rcases reaches.cases with ⟨d, -, rfl⟩ | rest
    · exact unsynced.pass
    · exact ih _ (h.2 _) (unsynced.after h.1) rest

/-- A program that spares the bytes of a file. -/
theorem Each.bytes (h : p.Each (Call.Spares q)) (during : During p d x) : x.bytes q = d.bytes q := by
  induction p generalizing d with
  | ret a =>
    rcases during with crash | rfl
    · cases crash
    · rfl
  | call c k ih =>
    have regular := h.1.bytes (d := d) (.inr rfl)
    rcases during with crash | final
    · cases crash with
      | here torn => exact h.1.bytes (.inl torn)
      | later crash => exact (ih _ (h.2 _) (.inl crash)).trans regular
    · exact (ih _ (h.2 _) (.inr final)).trans regular

end Each

/-- The program ends at once. -/
def Ends (p : Prog α) : Prop := ∃ a, p = .ret a

/-- The only call of the program is `c`. -/
def Single (c : Call) (p : Prog α) : Prop := ∃ k, p = .call c k ∧ ∀ r, (k r).Ends

theorem Ends.bind {f : α → Prog β} (hp : p.Ends) (hf : ∀ a, (f a).Ends) : (p >>= f).Ends := by
  obtain ⟨a, rfl⟩ := hp
  exact hf a

namespace Single

theorem bind {f : α → Prog β} (hp : p.Single c) (hf : ∀ a, (f a).Ends) : (p >>= f).Single c := by
  obtain ⟨k, rfl, ends⟩ := hp
  exact ⟨fun r => k r >>= f, rfl, fun r => (ends r).bind hf⟩

theorem each {P : Call → Prop} (h : p.Single c) (ok : P c) : p.Each P := by
  obtain ⟨k, rfl, ends⟩ := h
  refine ⟨ok, fun r => ?_⟩
  obtain ⟨a, done⟩ := ends r
  rw [done]
  trivial

theorem during (h : p.Single c) (during : During p d x) : c.Moments d x := by
  obtain ⟨k, rfl, ends⟩ := h
  obtain ⟨a, done⟩ := ends (c.effect d).1
  rcases during with crash | rfl
  · cases crash with
    | here torn => exact .inl torn
    | later crash =>
      rw [done] at crash
      cases crash
  · refine .inr ?_
    rw [exec, done]
    rfl

/-- A kill inside the only call leaves one more moment. -/
theorem stops (h : p.Single c) (stops : Stops p v w) : w = v.pass (· = w.now) w.now := by
  obtain ⟨k, rfl, ends⟩ := h
  obtain ⟨a, done⟩ := ends (c.effect v.now).1
  cases stops with
  | here => rfl
  | later rest =>
    rw [done] at rest
    cases rest

end Single

end Prog

namespace Query

variable {ε α β : Type} {P : Call → Prop}

def Each (P : Call → Prop) (p : Query ε α) : Prop := p.run.Each P

theorem each_pure (a : α) : (pure a : Query ε α).Each P := trivial

theorem each_throw (e : Fault ε) : (throw e : Query ε α).Each P := trivial

theorem each_pureStep (x : Outcome ε α) : (pureStep x).Each P := trivial

theorem each_io {f : IoError → ε} {c : Call} (h : P c) : (io f c).Each P :=
  ⟨h, fun r => by cases r <;> trivial⟩

theorem Each.bind {p : Query ε α} {f : α → Query ε β} (hp : p.Each P) (hf : ∀ a, (f a).Each P) :
    (p >>= f).Each P := by
  rw [Each, run_bind]
  refine Prog.Each.bind hp ?_
  rintro (e | a)
  · trivial
  · exact hf a

theorem Each.mapErr {ε' : Type} {f : ε → ε'} {p : Query ε α} (hp : p.Each P) :
    (p.mapErr f).Each P := Prog.Each.bind hp fun _ => trivial

theorem each_mapM {f : α → Query ε β} (h : ∀ a, (f a).Each P) (as : List α) :
    (as.mapM f).Each P := by
  induction as with
  | nil => trivial
  | cons a as ih =>
    rw [List.mapM_cons]
    exact (h a).bind fun _ => ih.bind fun _ => trivial

end Query

namespace Method

variable {σ τ ε α β : Type} {P : Call → Prop}

theorem start_get_bind (f : σ → Method σ ε α) (s : σ) : (get >>= f).start s = (f s).start s := rfl

theorem start_set_bind (f : PUnit → Method σ ε α) (s t : σ) :
    (set t >>= f).start s = (f ⟨⟩).start t := rfl

theorem start_onField {ε' : Type} (get : σ → τ) (set : τ → σ → σ) (f : ε → ε')
    (p : Method τ ε α) (s : σ) : (p.onField get set f).start s =
      p.start (get s) >>= fun r => Prog.ret (Rust.mapErr f r.1, set r.2 s) := rfl

/-- From every state, every call satisfies `P`. -/
def Each (P : Call → Prop) (p : Method σ ε α) : Prop := ∀ s, (p.start s).Each P

theorem each_pure (a : α) : (pure a : Method σ ε α).Each P := fun _ => trivial

theorem each_throw (e : Fault ε) : (throw e : Method σ ε α).Each P := fun _ => trivial

theorem each_modify (f : σ → σ) : (modify f : Method σ ε PUnit).Each P := fun _ => trivial

theorem each_set (s : σ) : (set s : Method σ ε PUnit).Each P := fun _ => trivial

theorem each_query {p : Query ε α} (h : p.Each P) : (query p : Method σ ε α).Each P :=
  fun _ => Prog.Each.bind h fun _ => trivial

theorem Each.bind {p : Method σ ε α} {f : α → Method σ ε β} (hp : p.Each P)
    (hf : ∀ a, (f a).Each P) : (p >>= f).Each P := by
  intro s
  rw [start_bind]
  refine Prog.Each.bind (hp s) ?_
  rintro ⟨e | a, t⟩
  · trivial
  · exact hf a t

theorem each_get_bind {f : σ → Method σ ε α} (h : ∀ s, (f s).Each P) : (get >>= f).Each P :=
  fun s => h s s

end Method

end FileSystem
