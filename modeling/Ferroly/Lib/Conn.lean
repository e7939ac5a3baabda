import Ferroly.Lib.Run

/-!
# Connections

A task over a state that keeps the state when it ends with an error, and a connection as such a state: the bytes still to be read,
how the input ends after them, and the bytes written. Reads may be short; how short is part of the connection, so that a statement
about every connection is one about every way its bytes may arrive. The operations are those of a buffered asynchronous reader and
of a writer.
-/

namespace Ferroly

open List

/-! ## Tasks -/

/-- A program over a state `σ`: whatever its outcome, it leaves a state behind. -/
def Task (σ ε α : Type) : Type := σ → Except (Fault ε) α × σ

namespace Task

variable {σ τ ε δ α β : Type}

instance : Monad (Task σ ε) where
  pure a := fun s => (.ok a, s)
  bind p f := fun s =>
    match p s with
    | (.ok a, s') => f a s'
    | (.error e, s') => (.error e, s')

/-- Return an error. -/
def fail (e : ε) : Task σ ε α := fun s => (.error (.error e), s)

/-- Out of fuel, or waiting for ever. -/
def diverge : Task σ ε α := fun s => (.error .diverge, s)

/-- The state. -/
def get : Task σ ε σ := fun s => (.ok s, s)

/-- Change the state. -/
def modify (f : σ → σ) : Task σ ε Unit := fun s => (.ok (), f s)

/-- Run to the end and return the error as a value. -/
def attempt (p : Task σ ε α) : Task σ δ (Except ε α) := fun s =>
  match p s with
  | (.ok a, s') => (.ok (.ok a), s')
  | (.error (.error e), s') => (.ok (.error e), s')
  | (.error .panic, s') => (.error .panic, s')
  | (.error .diverge, s') => (.error .diverge, s')

/-- Convert the error: the conversion of `?`. -/
def mapErr (f : ε → δ) (p : Task σ ε α) : Task σ δ α := fun s =>
  match p s with
  | (.ok a, s') => (.ok a, s')
  | (.error (.error e), s') => (.error (.error (f e)), s')
  | (.error .panic, s') => (.error .panic, s')
  | (.error .diverge, s') => (.error .diverge, s')

/-- Waiting for ever becomes an error: a deadline. -/
def timeout (e : ε) (p : Task σ ε α) : Task σ ε α := fun s =>
  match p s with
  | (.error .diverge, s') => (.error (.error e), s')
  | r => r

/-- Run on a part of the state. -/
def zoom (part : τ → σ) (put : σ → τ → τ) (p : Task σ ε α) : Task τ ε α := fun t =>
  match p (part t) with
  | (r, s) => (r, put s t)

@[simp] theorem pure_apply (a : α) (s : σ) : (pure a : Task σ ε α) s = (.ok a, s) := rfl

@[simp] theorem get_apply (s : σ) : (get : Task σ ε σ) s = (.ok s, s) := rfl

variable {s : σ}

@[simp] theorem modify_apply (f : σ → σ) : (modify f : Task σ ε Unit) s = (.ok (), f s) := rfl

@[simp] theorem ite_apply (c : Prop) [Decidable c] (p q : Task σ ε α) (s : σ) : (if c then p else q) s = if c then p s else q s := by
  split <;> rfl

theorem bind_apply (p : Task σ ε α) (f : α → Task σ ε β) (s : σ) : (p >>= f) s = match p s with
      | (.ok a, s') => f a s'
      | (.error e, s') => (.error e, s') := rfl

variable {p : Task σ ε α} {f : α → Task σ ε β} {a : α} {s' t : σ}

/-- A first step that succeeds hands its value and state to the rest. -/
theorem bind_of_ok (h : p s = (.ok a, s')) : (p >>= f) s = f a s' := by
  rw [bind_apply, h]

/-- A first step that fails ends the task. -/
theorem bind_of_error {e : Fault ε} (h : p s = (.error e, s')) : (p >>= f) s = (.error e, s') := by
  rw [bind_apply, h]

/-- A sequence of two steps succeeds exactly when both do. -/
theorem bind_eq_ok {b : β} : (p >>= f) s = (.ok b, t) ↔ ∃ a s', p s = (.ok a, s') ∧ f a s' = (.ok b, t) := by
  rw [bind_apply]
  rcases hp : p s with ⟨_ | a, s'⟩
  · simp
  · simp

/-- What holds of a sequence of two steps: a failure of the first is the outcome, otherwise the second one's is. -/
theorem bind_post {P : Except (Fault ε) β × σ → Prop} (herror : ∀ e s', p s = (.error e, s') → P (.error e, s'))
    (hok : ∀ a s', p s = (.ok a, s') → P (f a s')) : P ((p >>= f) s) := by
  rw [bind_apply]
  rcases hp : p s with ⟨e | a, s'⟩
  · exact herror e s' hp
  · exact hok a s' hp

@[simp] theorem mapErr_eq_ok {f : ε → δ} : p.mapErr f s = (.ok a, t) ↔ p s = (.ok a, t) := by
  unfold mapErr
  rcases p s with ⟨(e | _ | _) | b, s'⟩ <;> simp

/-- A step with a converted error leaves the state of the step itself. -/
@[simp] theorem mapErr_snd (f : ε → δ) : (p.mapErr f s).2 = (p s).2 := by
  unfold mapErr
  rcases p s with ⟨(e | _ | _) | b, s'⟩ <;> rfl

@[simp] theorem timeout_eq_ok {e : ε} : p.timeout e s = (.ok a, t) ↔ p s = (.ok a, t) := by
  unfold timeout
  rcases p s with ⟨(e | _ | _) | b, s'⟩ <;> simp

@[simp] theorem timeout_snd (e : ε) : (p.timeout e s).2 = (p s).2 := by
  unfold timeout
  rcases p s with ⟨(e | _ | _) | b, s'⟩ <;> rfl

@[simp] theorem attempt_eq_ok_ok : (p.attempt : Task σ δ (Except ε α)) s = (.ok (.ok a), t) ↔ p s = (.ok a, t) := by
  unfold attempt
  rcases p s with ⟨(e | _ | _) | b, s'⟩ <;> simp

@[simp] theorem attempt_snd : ((p.attempt : Task σ δ (Except ε α)) s).2 = (p s).2 := by
  unfold attempt
  rcases p s with ⟨(e | _ | _) | b, s'⟩ <;> rfl

@[simp] theorem zoom_apply (part : τ → σ) (put : σ → τ → τ) (t : τ) :
    p.zoom part put t = ((p (part t)).1, put (p (part t)).2 t) := rfl

theorem pure_bind (a : α) (f : α → Task σ ε β) : (pure a >>= f) = f a := rfl

theorem bind_assoc {γ : Type} (p : Task σ ε α) (f : α → Task σ ε β) (g : β → Task σ ε γ) :
    p >>= f >>= g = p >>= fun a => f a >>= g := by
  funext s
  simp only [bind_apply]
  rcases p s with ⟨e | a, s'⟩ <;> rfl

/-- Whatever its outcome, the task leaves a part of the state as it is. -/
def Keeps (g : σ → β) (p : Task σ ε α) : Prop := ∀ s, g (p s).2 = g s

namespace Keeps

variable {γ : Type} {g : σ → γ}

theorem pure (a : α) : Keeps g (Pure.pure a : Task σ ε α) := fun _ => rfl

theorem fail (e : ε) : Keeps g (Task.fail e : Task σ ε α) := fun _ => rfl

theorem bind (hp : Keeps g p) (hf : ∀ a, Keeps g (f a)) : Keeps g (p >>= f) := by
  intro s
  refine bind_post (P := fun out => g out.2 = g s) (fun e s' h => ?_) (fun a s' h => ?_)
  · rw [← hp s, h]
  · rw [hf a s', ← hp s, h]

theorem ite {c : Prop} [Decidable c] {q : Task σ ε α} (hp : Keeps g p) (hq : Keeps g q) : Keeps g (if c then p else q) := by
  split
  · exact hp
  · exact hq

theorem mapErr {f : ε → δ} (hp : Keeps g p) : Keeps g (p.mapErr f) := fun s => by
  rw [mapErr_snd, hp s]

theorem attempt (hp : Keeps g p) : Keeps g (p.attempt : Task σ δ (Except ε α)) := fun s => by
  rw [attempt_snd, hp s]

end Keeps

end Task

/-! ## Connections -/

/-- The kinds of I/O error that a program may tell apart. -/
inductive IoError where
  | unexpectedEof
  | invalidData
  | other
  deriving DecidableEq, Repr

/-- What a read finds after the last byte: the end of the stream, an error, or nothing for ever. -/
inductive Ending where
  | eof
  | failure
  | stall
  deriving DecidableEq, Repr

/-- A duplex byte stream with a buffered reader. -/
structure Conn where
  /-- The bytes still to be read, buffered or not. -/
  input : Bytes
  ending : Ending
  /-- How many bytes the next reads of at most so many bytes return; any number there are once the list is used up. -/
  paces : List Nat
  /-- Whether a read has found the end of the stream. -/
  sawEof : Bool
  output : Bytes
  /-- How many more bytes can be written before a write fails. -/
  room : Option Nat
  /-- How many of the bytes written reach the peer: all of them, unless it is gone. -/
  reach : Option Nat
  deriving DecidableEq, Repr

namespace Conn

variable {b line : Bytes}

/-- A read that finds no byte. -/
def atEnd {α : Type} (onEof : Except (Fault IoError) α) (c : Conn) : Except (Fault IoError) α × Conn :=
  match c.ending with
  | .eof => (onEof, { c with sawEof := true })
  | .failure => (.error (.error .other), c)
  | .stall => (.error .diverge, c)

/-- Read one byte. -/
def readU8 : Task Conn IoError UInt8 := fun c =>
  match c.input with
  | b :: rest => (.ok b, { c with input := rest })
  | [] => atEnd (.error (.error .unexpectedEof)) c

/-- Read at most `n` bytes, and none only at the end of the stream. -/
def read (n : Nat) : Task Conn IoError Bytes := fun c =>
  match c.input with
  | [] => atEnd (.ok []) c
  | b :: rest =>
    let k := max 1 (min (c.paces.headD n) (min n (rest.length + 1)))
    (.ok ((b :: rest).take k), { c with input := (b :: rest).drop k, paces := c.paces.tail })

/-- Read exactly `n` bytes. -/
def readExact (n : Nat) : Task Conn IoError Bytes := fun c =>
  if n ≤ c.input.length then (.ok (c.input.take n), { c with input := c.input.drop n })
  else atEnd (.error (.error .unexpectedEof)) { c with input := [] }

/-- The first line of some bytes with its newline, the bytes after it, and whether there is a newline. -/
def splitLine : Bytes → Bytes × Bytes × Bool
  | [] => ([], [], false)
  | b :: rest =>
    if b = byte '\n' then ([b], rest, true)
    else
      match splitLine rest with
      | (line, after, ended) => (b :: line, after, ended)

/-- Read up to a newline, or up to the end of the stream. -/
def readUntilNewline : Task Conn IoError Bytes := fun c =>
  match splitLine c.input with
  | (line, after, true) => (.ok line, { c with input := after })
  | (line, _, false) => atEnd (.ok line) { c with input := [] }

/-- Read a line of text, and how many bytes it has. -/
def readLine : Task Conn IoError (Str × Nat) := do
  let line ← readUntilNewline
  match fromUtf8 line with
  | some s => pure (s, line.length)
  | none => Task.fail .invalidData

/-- Write all of some bytes. -/
def writeAll (b : Bytes) : Task Conn IoError Unit := fun c =>
  match c.room with
  | none => (.ok (), { c with output := c.output ++ b })
  | some n =>
    if b.length ≤ n then (.ok (), { c with output := c.output ++ b, room := some (n - b.length) })
    else (.error (.error .other), { c with output := c.output ++ b.take n, room := some 0 })

/-- A connection that has just been made. -/
def fresh (c : Conn) : Conn := { c with sawEof := false, output := [] }

/-- The bytes written that have reached the peer. -/
def received (c : Conn) : Bytes :=
  match c.reach with
  | none => c.output
  | some n => c.output.take n

/-- Whether all of some bytes can be written and reach the peer. -/
def carries (c : Conn) (b : Bytes) : Bool :=
  c.room.all (fun n => decide (b.length ≤ n)) && c.reach.all (fun n => decide (c.output.length + b.length ≤ n))

/-- The connection after all of some bytes have been written. -/
def wrote (c : Conn) (b : Bytes) : Conn := { c with output := c.output ++ b, room := c.room.map (· - b.length) }

/-! ## What the operations do -/

/-- The writing side. -/
def outgoing (c : Conn) : Bytes × Option Nat × Option Nat := (c.output, c.room, c.reach)

/-- The reading side. -/
def incoming (c : Conn) : Bytes × Ending × List Nat × Bool := (c.input, c.ending, c.paces, c.sawEof)

/-- Writing leaves the reading side alone. -/
theorem keeps_writeAll : Task.Keeps incoming (writeAll b) := by
  intro c
  unfold writeAll
  split
  · rfl
  · split <;> rfl

/-- Reading leaves the writing side alone. -/
theorem keeps_readU8 : Task.Keeps outgoing readU8 := by
  intro c
  unfold readU8 atEnd
  rcases c.input with _ | ⟨b, rest⟩
  · rcases c.ending with _ | _ | _ <;> rfl
  · rfl

/-- A line with its newline and nothing after it. -/
def IsLine (b : Bytes) : Prop := splitLine b = (b, [], true)

theorem isLine_cons {a : UInt8} : IsLine (a :: b) ↔ a = byte '\n' ∧ b = [] ∨ a ≠ byte '\n' ∧ IsLine b := by
  unfold IsLine
  rw [splitLine]
  split
  · next ha => simp [ha, eq_comm]
  · next ha =>
    rcases splitLine b with ⟨l, r, e⟩
    simp [ha]

theorem splitLine_append (h : IsLine line) (rest : Bytes) : splitLine (line ++ rest) = (line, rest, true) := by
  induction line with
  | nil => cases h
  | cons a line ih =>
    rw [cons_append, splitLine]
    rcases isLine_cons.mp h with ⟨ha, rfl⟩ | ⟨ha, hl⟩
    · rw [if_pos ha]
      rfl
    · rw [if_neg ha, ih hl]

/-- The first line of a byte string is the only one it begins with. -/
theorem isLine_unique {line' rest rest' : Bytes} (h : IsLine line) (h' : IsLine line') (he : line ++ rest = line' ++ rest') :
    line = line' ∧ rest = rest' := by
  have hsplit := splitLine_append h rest
  rw [he, splitLine_append h' rest'] at hsplit
  exact ⟨(congrArg Prod.fst hsplit).symm, (congrArg (fun p => p.2.1) hsplit).symm⟩

/-- The first line is a line, or there is none and it is all there is. -/
theorem splitLine_cases :
    (∃ line rest, b = line ++ rest ∧ IsLine line ∧ splitLine b = (line, rest, true)) ∨ splitLine b = (b, [], false) := by
  induction b with
  | nil => exact .inr rfl
  | cons a b ih =>
    by_cases ha : a = byte '\n'
    · have hline : IsLine [a] := by simp [IsLine, splitLine, ha]
      exact .inl ⟨[a], b, rfl, hline, splitLine_append hline b⟩
    · rcases ih with ⟨line, rest, rfl, hline, -⟩ | hb
      · have hline' : IsLine (a :: line) := by
          unfold IsLine at hline ⊢
          simp only [splitLine, if_neg ha, hline]
        exact .inl ⟨a :: line, rest, rfl, hline', splitLine_append hline' rest⟩
      · exact .inr (by simp only [splitLine, if_neg ha, hb])

theorem splitLine_of_not_mem (h : byte '\n' ∉ b) : splitLine b = (b, [], false) := by
  induction b with
  | nil => rfl
  | cons a b ih =>
    rw [mem_cons, not_or] at h
    rw [splitLine, if_neg (Ne.symm h.1), ih h.2]

theorem ne_nil_of_isLine (h : IsLine b) : b ≠ [] := by
  rintro rfl
  cases h

variable {c d : Conn}

/-- A read of exactly `n` bytes takes them from the front. -/
theorem readExact_eq_ok {n : Nat} :
    readExact n c = (.ok b, d) ↔ b.length = n ∧ c.input = b ++ d.input ∧ d = { c with input := d.input } := by
  unfold readExact
  constructor
  · intro h
    split at h
    · next hn =>
      obtain ⟨rfl, rfl⟩ := h
      exact ⟨length_take_of_le hn, (take_append_drop _ _).symm, rfl⟩
    · unfold atEnd at h
      split at h <;> cases h
  · rintro ⟨rfl, hc, hd⟩
    rw [hc, if_pos (by simp), take_left, drop_left, ← hd]

/-- How a line is read: up to its newline, or all there is up to the end of the stream. -/
theorem readUntilNewline_eq_ok : readUntilNewline c = (.ok line, d) ↔
      (IsLine line ∧ c.input = line ++ d.input ∧ d = { c with input := d.input }) ∨
      (splitLine line = (line, [], false) ∧ c.input = line ∧ c.ending = .eof ∧ d = { c with input := [], sawEof := true }) := by
  unfold readUntilNewline
  constructor
  · intro h
    rcases splitLine_cases with ⟨l, rest, hc, hl, hs⟩ | hs
    · rw [hs] at h
      obtain ⟨rfl, rfl⟩ := h
      exact .inl ⟨hl, hc, rfl⟩
    · simp only [hs, atEnd] at h
      rcases hend : c.ending with _ | _ | _
      · simp only [hend] at h
        obtain ⟨rfl, rfl⟩ := h
        exact .inr ⟨hs, rfl, rfl, by rw [← hend]⟩
      · simp [hend] at h
      · simp [hend] at h
  · rintro (⟨hl, hc, hd⟩ | ⟨hs, rfl, hend, rfl⟩)
    · simp only [hc, splitLine_append hl]
      rw [← hd]
    · simp only [hs, atEnd, hend]

theorem readLine_eq_ok {s : Str} {n : Nat} :
    readLine c = (.ok (s, n), d) ↔ ∃ line, readUntilNewline c = (.ok line, d) ∧ fromUtf8 line = some s ∧ n = line.length := by
  unfold readLine
  rw [Task.bind_eq_ok]
  constructor
  · rintro ⟨line, c', hl, hr⟩
    rcases hu : fromUtf8 line with _ | t
    · simp only [hu] at hr
      cases hr
    · simp only [hu] at hr
      obtain ⟨⟨rfl, rfl⟩, rfl⟩ := hr
      exact ⟨line, hl, hu, rfl⟩
  · rintro ⟨line, hl, hu, rfl⟩
    exact ⟨line, d, hl, by simp only [hu, Task.pure_apply]⟩

/-- Writing leaves the input alone. -/
@[simp] theorem writeAll_input (c : Conn) : (writeAll b c).2.input = c.input :=
  congrArg Prod.fst (keeps_writeAll c)

end Conn

end Ferroly
