import Mathlib.Data.List.Basic
import Mathlib.Data.List.TakeDrop

/-!
# Parsers over a byte source

A parser consumes bytes and fails; it does not say where the bytes come from. Over a list
this is a parser in memory. Over a file it goes through a sliding buffer that is filled by
reads which may return fewer bytes than asked for. The second simulates the first.
-/

namespace Codec

open List

inductive Outcome (ε α : Type) where
  | ok (value : α)
  | eof
  | corrupt (error : ε)
  | panic
  deriving DecidableEq, Repr

class ByteSource (ε : outParam Type) (m : Type → Type) extends Monad m where
  consume : Nat → m (List UInt8)
  consumeByte : m UInt8
  fail {α : Type} : ε → m α

section

variable {ε α β : Type}

def InMemory (ε α : Type) : Type := List UInt8 → Outcome ε (α × List UInt8)

namespace InMemory

def bind (p : InMemory ε α) (f : α → InMemory ε β) : InMemory ε β := fun bytes =>
  match p bytes with
  | .ok (a, rest) => f a rest
  | .eof => .eof
  | .corrupt e => .corrupt e
  | .panic => .panic

def consume (n : Nat) : InMemory ε (List UInt8) := fun bytes =>
  if bytes.length < n then .eof else .ok (bytes.take n, bytes.drop n)

def consumeByte : InMemory ε UInt8
  | [] => .eof
  | b :: bytes => .ok (b, bytes)

instance : ByteSource ε (InMemory ε) where
  pure a := fun bytes => .ok (a, bytes)
  bind := bind
  consume := consume
  consumeByte := consumeByte
  fail e := fun _ => .corrupt e

variable {p : InMemory ε α} {f : α → InMemory ε β} {bytes rest : List UInt8}

@[simp]
theorem pure_apply (a : α) : (pure a : InMemory ε α) bytes = .ok (a, bytes) := rfl

theorem bind_eq : (p >>= f) bytes = InMemory.bind p f bytes := rfl

@[simp]
theorem fail_apply (e : ε) : (ByteSource.fail e : InMemory ε α) bytes = .corrupt e := rfl

theorem bind_ok {a : α} (h : p bytes = .ok (a, rest)) : (p >>= f) bytes = f a rest := by
  rw [bind_eq, bind, h]

theorem bind_eq_ok {r : β × List UInt8} (h : (p >>= f) bytes = .ok r) :
    ∃ a rest, p bytes = .ok (a, rest) ∧ f a rest = .ok r := by
  rw [bind_eq, bind] at h
  split at h
  · exact ⟨_, _, by assumption, h⟩
  all_goals cases h

theorem consume_eq (n : Nat) : (ByteSource.consume n : InMemory ε _) bytes =
    if bytes.length < n then .eof else .ok (bytes.take n, bytes.drop n) := rfl

theorem consume_append {n : Nat} (h : bytes.length = n) :
    (ByteSource.consume n : InMemory ε _) (bytes ++ rest) = .ok (bytes, rest) := by
  subst h
  rw [consume_eq, if_neg (by simp), take_left, drop_left]

theorem consume_eq_ok {n : Nat} {r : List UInt8}
    (h : (ByteSource.consume n : InMemory ε _) bytes = .ok (r, rest)) :
    bytes = r ++ rest ∧ r.length = n := by
  rw [consume_eq] at h
  split at h
  · cases h
  next hlen =>
    cases h
    exact ⟨(take_append_drop n bytes).symm, by rw [length_take]; omega⟩

theorem consumeByte_cons {b : UInt8} :
    (ByteSource.consumeByte : InMemory ε _) (b :: rest) = .ok (b, rest) := rfl

theorem consumeByte_eq_ok {b : UInt8}
    (h : (ByteSource.consumeByte : InMemory ε _) bytes = .ok (b, rest)) : bytes = b :: rest := by
  cases bytes with
  | nil => cases h
  | cons c bytes =>
    cases h
    rfl

end InMemory

end

structure Source where
  file : List UInt8
  count : Nat → Nat → Nat
  count_pos : ∀ offset amount, 0 < amount → 0 < count offset amount

def Source.pread (src : Source) (offset amount : Nat) : List UInt8 :=
  (src.file.drop offset).take (min (src.count offset amount) amount)

structure Buffered where
  offset : Nat
  buffer : List UInt8
  bufferOffset : Nat
  deriving DecidableEq, Repr

namespace Buffered

variable (src : Source)

def bytesCanRead (b : Buffered) : Nat := b.buffer.length - b.bufferOffset

def remainingBytes (b : Buffered) : Nat := b.bytesCanRead + (src.file.length - b.offset)

/-- How much the next read asks for, to get `need` bytes. -/
def toRead (need : Nat) (b : Buffered) : Nat :=
  min (max 4096 (need - (b.buffer.length - b.bufferOffset))) (src.file.length - b.offset)

def readMoreLoop {ε : Type} (short : ε) (need : Nat) (b : Buffered) : Outcome ε Buffered :=
  if b.buffer.length < b.bufferOffset then .panic
  else if need - (b.buffer.length - b.bufferOffset) = 0 then .ok b
  else if src.file.length < b.offset then .panic
  else if b.toRead src need = 0 then .corrupt short
  else if (src.pread b.offset (b.toRead src need)).length = 0 then .corrupt short
  else readMoreLoop short need
    { b with
      buffer := b.buffer ++ src.pread b.offset (b.toRead src need)
      offset := b.offset + (src.pread b.offset (b.toRead src need)).length }
termination_by src.file.length - b.offset
decreasing_by
  rename_i htoRead hread
  rw [toRead] at htoRead
  omega

/-- Read until at least `need` bytes are held, then drop those handed out before. -/
def readMoreData {ε : Type} (short : ε) (need : Nat) (b : Buffered) : Outcome ε Buffered :=
  if need ≤ b.bytesCanRead then .ok b
  else
    match readMoreLoop src short need b with
    | .ok b' =>
      .ok { b' with
        buffer :=
          if b'.buffer.length ≤ b.bufferOffset then [] else b'.buffer.drop b.bufferOffset
        bufferOffset := 0 }
    | .eof => .eof
    | .corrupt e => .corrupt e
    | .panic => .panic

/-- The slice `amount` bytes long at the cursor, which must be in the buffer. -/
def slice {ε : Type} (amount : Nat) (b : Buffered) : Outcome ε (List UInt8) × Buffered :=
  if b.bufferOffset + amount ≤ b.buffer.length then
    (.ok ((b.buffer.drop b.bufferOffset).take amount),
      { b with bufferOffset := b.bufferOffset + amount })
  else (.panic, b)

def tryConsumeBytes {ε : Type} (short : ε) (amount : Nat) (b : Buffered) :
    Outcome ε (List UInt8) × Buffered :=
  if b.remainingBytes src < amount then (.eof, b)
  else
    match readMoreData src short amount b with
    | .ok b' => slice amount b'
    | .eof => (.eof, b)
    | .corrupt e => (.corrupt e, b)
    | .panic => (.panic, b)

def tryConsumeByte {ε : Type} (short : ε) (b : Buffered) : Outcome ε UInt8 × Buffered :=
  if b.remainingBytes src = 0 then (.eof, b)
  else
    match readMoreData src short 1 b with
    | .ok b' =>
      match b'.buffer.drop b'.bufferOffset with
      | [] => (.panic, b')
      | c :: _ => (.ok c, { b' with bufferOffset := b'.bufferOffset + 1 })
    | .eof => (.eof, b)
    | .corrupt e => (.corrupt e, b)
    | .panic => (.panic, b)

end Buffered

open Buffered

def Streaming {ε : Type} (_src : Source) (_short : ε) (α : Type) : Type :=
  Buffered → Outcome ε α × Buffered

namespace Streaming

variable {ε α β : Type} {src : Source} {short : ε}

def bind (p : Streaming src short α) (f : α → Streaming src short β) :
    Streaming src short β := fun b =>
  match p b with
  | (.ok a, b') => f a b'
  | (.eof, b') => (.eof, b')
  | (.corrupt e, b') => (.corrupt e, b')
  | (.panic, b') => (.panic, b')

instance : ByteSource ε (Streaming src short) where
  pure a := fun b => (.ok a, b)
  bind := bind
  consume := tryConsumeBytes src short
  consumeByte := tryConsumeByte src short
  fail e := fun b => (.corrupt e, b)

end Streaming

structure At (src : Source) (pos : Nat) (b : Buffered) : Prop where
  cursor : b.bufferOffset ≤ b.buffer.length
  inFile : b.offset ≤ src.file.length
  pos_add : pos + b.bytesCanRead = b.offset
  held : b.buffer.drop b.bufferOffset = (src.file.drop pos).take b.bytesCanRead

namespace At

variable {src : Source} {pos need : Nat} {b : Buffered} {ε : Type}

section

variable (h : At src pos b)

include h

theorem remainingBytes_eq : b.remainingBytes src = (src.file.drop pos).length := by
  have := h.pos_add
  have := h.inFile
  rw [remainingBytes, length_drop]
  omega

theorem pread (amount : Nat) :
    At src pos { b with
      buffer := b.buffer ++ src.pread b.offset amount
      offset := b.offset + (src.pread b.offset amount).length } := by
  have hcursor := h.cursor
  have hpos := h.pos_add
  have hinFile := h.inFile
  have hdrop : (src.file.drop pos).drop b.bytesCanRead = src.file.drop b.offset := by
    rw [drop_drop, hpos]
  have hcan : (b.buffer ++ src.pread b.offset amount).length - b.bufferOffset =
      b.bytesCanRead + (src.pread b.offset amount).length := by
    rw [length_append, bytesCanRead]
    omega
  refine ⟨?_, ?_, ?_, ?_⟩
  · exact Nat.le_trans hcursor (by rw [length_append]; omega)
  · simp only [Source.pread, length_take, length_drop]
    omega
  · simp only [bytesCanRead] at hpos hcan ⊢
    omega
  · have hread : src.pread b.offset amount =
        (src.file.drop b.offset).take (src.pread b.offset amount).length := by
      simp only [Source.pread, length_take, take_eq_take_iff]
      omega
    simp only [bytesCanRead] at hcan hdrop
    simp only [bytesCanRead, hcan]
    rw [drop_append_of_le_length hcursor, h.held, take_add, bytesCanRead, hdrop]
    exact congrArg _ hread

theorem readMoreLoop (short : ε) (hneed : need ≤ (src.file.drop pos).length) :
    ∃ b', readMoreLoop src short need b = .ok b' ∧ At src pos b' ∧
      b'.bufferOffset = b.bufferOffset ∧ need ≤ b'.bytesCanRead := by
  induction hfuel : src.file.length - b.offset using Nat.strongRecOn generalizing b with
  | ind fuel ih =>
    have hcursor := h.cursor
    have hpos := h.pos_add
    rw [length_drop] at hneed
    simp only [bytesCanRead] at hpos
    rw [readMoreLoop, if_neg (by omega)]
    split
    · exact ⟨b, rfl, h, rfl, by rw [bytesCanRead]; omega⟩
    have htoRead : 0 < b.toRead src need := by
      rw [toRead]
      omega
    have hcount := src.count_pos b.offset _ htoRead
    have hlen : 0 < (src.pread b.offset (b.toRead src need)).length := by
      rw [Source.pread, length_take, length_drop]
      omega
    have hless : src.file.length -
        (b.offset + (src.pread b.offset (b.toRead src need)).length) < fuel := by omega
    rw [if_neg (by omega), if_neg (by omega), if_neg (by omega)]
    exact ih _ hless (h.pread _) rfl

theorem readMoreData (short : ε) (hneed : need ≤ (src.file.drop pos).length) :
    ∃ b', readMoreData src short need b = .ok b' ∧ At src pos b' ∧
      need ≤ b'.bytesCanRead := by
  rw [Buffered.readMoreData]
  split
  · exact ⟨b, rfl, h, by assumption⟩
  obtain ⟨b', hloop, hat, hoffset, hcan⟩ := h.readMoreLoop short hneed
  rw [hloop]
  simp only
  have hbuffer : (if b'.buffer.length ≤ b.bufferOffset then []
      else b'.buffer.drop b.bufferOffset) = b'.buffer.drop b'.bufferOffset := by
    rw [hoffset]
    split
    · rw [drop_eq_nil_of_le (by assumption)]
    · rfl
  have hsame : ({ b' with buffer := b'.buffer.drop b'.bufferOffset, bufferOffset := 0 } :
      Buffered).bytesCanRead = b'.bytesCanRead := by
    rw [bytesCanRead, length_drop, bytesCanRead, Nat.sub_zero]
  rw [hbuffer]
  refine ⟨_, rfl, ⟨Nat.zero_le _, hat.inFile, ?_, ?_⟩, ?_⟩
  · rw [hsame, hat.pos_add]
  · rw [hsame, drop_zero, hat.held]
  · rw [hsame]
    exact hcan

end

variable {amount : Nat}

theorem advance (h : At src pos b) (hheld : amount ≤ b.bytesCanRead) :
    (b.buffer.drop b.bufferOffset).take amount = (src.file.drop pos).take amount ∧
      At src (pos + amount) { b with bufferOffset := b.bufferOffset + amount } := by
  have hcursor := h.cursor
  have hpos := h.pos_add
  have hcan : b.buffer.length - (b.bufferOffset + amount) = b.bytesCanRead - amount := by
    rw [bytesCanRead]
    omega
  have hle : b.bufferOffset + amount ≤ b.buffer.length := by
    rw [bytesCanRead] at hheld
    omega
  refine ⟨?_, hle, h.inFile, ?_, ?_⟩
  · rw [h.held, take_take, Nat.min_eq_left hheld]
  · simp only [bytesCanRead] at hcan ⊢
    rw [bytesCanRead] at hpos hheld
    omega
  · rw [bytesCanRead]
    simp only [hcan]
    rw [← drop_drop, h.held, drop_take, drop_drop]

theorem tryConsumeBytes_eof (h : At src pos b) (short : ε)
    (hlen : (src.file.drop pos).length < amount) :
    tryConsumeBytes src short amount b = (.eof, b) := by
  rw [tryConsumeBytes, h.remainingBytes_eq, if_pos hlen]

theorem tryConsumeBytes_ok (h : At src pos b) (short : ε)
    (hlen : ¬ (src.file.drop pos).length < amount) :
    ∃ b', tryConsumeBytes src short amount b =
      (.ok ((src.file.drop pos).take amount), b') ∧ At src (pos + amount) b' := by
  obtain ⟨b', hread, hat, hheld⟩ := h.readMoreData short (Nat.le_of_not_lt hlen)
  obtain ⟨htake, hnext⟩ := hat.advance hheld
  have hcursor := hat.cursor
  rw [bytesCanRead] at hheld
  rw [tryConsumeBytes, h.remainingBytes_eq, if_neg hlen, hread]
  simp only [slice]
  rw [if_pos (by omega), htake]
  exact ⟨_, rfl, hnext⟩

end At

def Simulates {ε α : Type} {src : Source} {short : ε} (p : Streaming src short α)
    (q : InMemory ε α) : Prop :=
  ∀ pos b, At src pos b →
    match q (src.file.drop pos) with
    | .ok (a, rest) => ∃ pos' b', p b = (.ok a, b') ∧ At src pos' b' ∧ src.file.drop pos' = rest
    | .eof => (p b).1 = .eof
    | .corrupt e => (p b).1 = .corrupt e
    | .panic => False

namespace Simulates

variable {ε α β : Type} {src : Source} {short : ε}

theorem pure (a : α) : Simulates (Pure.pure a : Streaming src short α) (Pure.pure a) :=
  fun pos b h => ⟨pos, b, rfl, h, rfl⟩

theorem fail (e : ε) : Simulates (ByteSource.fail e : Streaming src short α) (ByteSource.fail e) :=
  fun _ _ _ => rfl

variable {p : Streaming src short α} {q : InMemory ε α}

theorem bind {f : α → Streaming src short β} {g : α → InMemory ε β} (h : Simulates p q)
    (hf : ∀ a, Simulates (f a) (g a)) : Simulates (p >>= f) (q >>= g) := by
  intro pos b hat
  have hp := h pos b hat
  have hstream : (p >>= f) b = Streaming.bind p f b := rfl
  rw [InMemory.bind_eq, InMemory.bind, hstream, Streaming.bind]
  cases hq : q (src.file.drop pos) with
  | ok r =>
    obtain ⟨a, rest⟩ := r
    rw [hq] at hp
    obtain ⟨pos', b', heq, hat', rfl⟩ := hp
    rw [heq]
    exact hf a pos' b' hat'
  | eof =>
    simp only at hp ⊢
    split <;> simp_all
  | corrupt e =>
    simp only at hp ⊢
    split <;> simp_all
  | panic =>
    rw [hq] at hp
    exact hp.elim

theorem consume (amount : Nat) :
    Simulates (ByteSource.consume amount : Streaming src short _) (ByteSource.consume amount) := by
  intro pos b hat
  have hstream : (ByteSource.consume amount : Streaming src short _) b =
    tryConsumeBytes src short amount b := rfl
  rw [InMemory.consume_eq, hstream]
  by_cases hlen : (src.file.drop pos).length < amount
  · rw [if_pos hlen, hat.tryConsumeBytes_eof short hlen]
  · rw [if_neg hlen]
    obtain ⟨b', hread, hnext⟩ := hat.tryConsumeBytes_ok short hlen
    exact ⟨_, b', hread, hnext, by rw [drop_drop]⟩

theorem consumeByte :
    Simulates (ByteSource.consumeByte : Streaming src short _) ByteSource.consumeByte := by
  intro pos b hat
  have hstream : (ByteSource.consumeByte : Streaming src short _) b =
    tryConsumeByte src short b := rfl
  have hmemory : (ByteSource.consumeByte : InMemory ε _) (src.file.drop pos) =
    InMemory.consumeByte (src.file.drop pos) := rfl
  rw [hmemory, hstream, tryConsumeByte, hat.remainingBytes_eq]
  cases hfile : src.file.drop pos with
  | nil => rfl
  | cons c rest =>
    have hneed : 1 ≤ (src.file.drop pos).length := by
      rw [hfile, length_cons]
      omega
    obtain ⟨b', hread, hat', hheld⟩ := hat.readMoreData short hneed
    obtain ⟨htake, hnext⟩ := hat'.advance hheld
    rw [hfile] at htake
    rw [hread]
    simp only [InMemory.consumeByte]
    cases hbuffer : b'.buffer.drop b'.bufferOffset with
    | nil =>
      rw [hbuffer] at htake
      cases htake
    | cons c' held =>
      rw [hbuffer] at htake
      simp only [take_succ_cons, take_zero, cons.injEq, and_true] at htake
      subst htake
      exact ⟨_, _, rfl, hnext, by rw [← drop_drop, hfile]; rfl⟩

theorem cases (h : Simulates p q) {pos : Nat} {b : Buffered} (hat : At src pos b) :
    (∃ a pos' b', q (src.file.drop pos) = .ok (a, src.file.drop pos') ∧ p b = (.ok a, b') ∧
      At src pos' b') ∨
    (∃ b', q (src.file.drop pos) = .eof ∧ p b = (.eof, b')) ∨
    ∃ e b', q (src.file.drop pos) = .corrupt e ∧ p b = (.corrupt e, b') := by
  have hp := h pos b hat
  cases hq : q (src.file.drop pos) with
  | ok r =>
    obtain ⟨a, rest⟩ := r
    rw [hq] at hp
    obtain ⟨pos', b', heq, hat', rfl⟩ := hp
    exact .inl ⟨a, pos', b', rfl, heq, hat'⟩
  | eof =>
    rw [hq] at hp
    exact .inr (.inl ⟨(p b).2, rfl, Prod.ext hp rfl⟩)
  | corrupt e =>
    rw [hq] at hp
    exact .inr (.inr ⟨e, (p b).2, rfl, Prod.ext hp rfl⟩)
  | panic =>
    rw [hq] at hp
    exact hp.elim

end Simulates

end Codec
