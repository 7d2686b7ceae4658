import Stoneleaf.Library.Reader

/-!
Readers and writers that undo each other. A reader inverts a writer if it reads back whatever was
written and accepts nothing else, so that values and accepted bytes correspond one to one.
-/

namespace Stoneleaf.Library

open List

variable {ε δ α β : Type}

/-- A computation that returns has passed each of its steps. -/
theorem bind_eq_ok_iff {x : Except ε α} {f : α → Except ε β} {b : β} :
    x >>= f = .ok b ↔ ∃ a, x = .ok a ∧ f a = .ok b := by
  cases x with
  | error e | ok a => simp [bind, Except.bind]

/-- A check before the rest of a computation. -/
theorem guard_eq_ok_iff {p : Prop} [Decidable p] {e : ε} {x : Except ε α} {a : α} :
    (if p then .error e else x) = .ok a ↔ ¬p ∧ x = .ok a := by
  by_cases h : p <;> simp [h]

theorem append_eq_ok_iff {x y : Except δ (List UInt8)} {bytes : List UInt8} :
    (do return (← x) ++ (← y)) = .ok bytes ↔
      ∃ first second, x = .ok first ∧ y = .ok second ∧ bytes = first ++ second := by
  simp only [bind_eq_ok_iff]
  constructor
  · rintro ⟨first, hFirst, second, hSecond, hJoin⟩
    exact ⟨first, second, hFirst, hSecond, (Except.ok.inj hJoin).symm⟩
  · rintro ⟨first, second, hFirst, hSecond, rfl⟩
    exact ⟨first, hFirst, second, hSecond, rfl⟩

/-- Write the elements of a list one after the other. -/
def writeAll (write : α → Except δ (List UInt8)) (as : List α) : Except δ (List UInt8) := do
  let parts ← as.mapM write
  return parts.flatten

@[simp] theorem writeAll_nil (write : α → Except δ (List UInt8)) : writeAll write [] = .ok [] :=
  rfl

theorem writeAll_cons_eq_ok_iff {write : α → Except δ (List UInt8)} {a : α} {as : List α}
    {bytes : List UInt8} :
    writeAll write (a :: as) = .ok bytes ↔ ∃ first rest,
      write a = .ok first ∧ writeAll write as = .ok rest ∧ bytes = first ++ rest := by
  unfold writeAll
  simp only [mapM_cons, bind_eq_ok_iff]
  constructor
  · rintro ⟨parts, ⟨first, hFirst, rest, hRest, hParts⟩, hBytes⟩
    cases hParts
    cases hBytes
    exact ⟨first, rest.flatten, hFirst, ⟨rest, hRest, rfl⟩, rfl⟩
  · rintro ⟨first, _, hFirst, ⟨rest, hRest, hFlatten⟩, rfl⟩
    cases hFlatten
    exact ⟨first :: rest, ⟨first, hFirst, rest, hRest, rfl⟩, rfl⟩

/-- Lower bound of the bytes of a list from one for each element. -/
theorem le_length_writeAll {write : α → Except δ (List UInt8)} {as : List α}
    {bytes : List UInt8} {least : Nat}
    (hLeast : ∀ {a : α} {bytes : List UInt8}, write a = .ok bytes → least ≤ bytes.length)
    (hWrite : writeAll write as = .ok bytes) : as.length * least ≤ bytes.length := by
  induction as generalizing bytes with
  | nil => simp
  | cons a as ih =>
    obtain ⟨first, rest, hFirst, hRest, rfl⟩ := writeAll_cons_eq_ok_iff.1 hWrite
    have hHead := hLeast hFirst
    have hTail := ih hRest
    rw [length_cons, length_append, Nat.add_mul]
    omega

namespace Reader

/-- Read a fixed number of values one after the other. -/
def times : Nat → Reader ε α → Reader ε (List α)
  | 0, _ => return []
  | count + 1, x => do
    let a ← x
    let as ← times count x
    return a :: as

/-- Values and the bytes they are written as correspond one to one. -/
structure Inverts (x : Reader ε α) (write : α → Except δ (List UInt8)) : Prop where
  reads : ∀ {a : α} {bytes : List UInt8}, write a = .ok bytes → x.Reads bytes a
  consumes : x.Consumes fun a used => write a = .ok used

namespace Inverts

variable {x : Reader ε α} {write : α → Except δ (List UInt8)} {a : α} {as : List α}
  {bytes : List UInt8}

variable (h : Inverts x write)
include h

theorem runAll_iff (trailing : ε) : x.runAll trailing bytes = .ok a ↔ write a = .ok bytes :=
  ⟨fun hRun => h.consumes.of_runAll hRun, fun hWrite => (h.reads hWrite).runAll trailing⟩

theorem reads_times (hWrite : writeAll write as = .ok bytes) :
    (times as.length x).Reads bytes as := by
  induction as generalizing bytes with
  | nil =>
    cases hWrite
    exact Reads.pure []
  | cons a as ih =>
    obtain ⟨first, rest, hFirst, hRest, rfl⟩ := writeAll_cons_eq_ok_iff.1 hWrite
    exact (h.reads hFirst).bind ((ih hRest).map (a :: ·))

theorem consumes_times (count : Nat) :
    (times count x).Consumes fun as used => as.length = count ∧ writeAll write as = .ok used := by
  induction count with
  | zero => exact Consumes.pure ⟨rfl, rfl⟩
  | succ count ih =>
    refine h.consumes.bind fun a first hFirst => ih.bind fun as rest hRest => Consumes.pure ?_
    refine ⟨by rw [length_cons, hRest.1], writeAll_cons_eq_ok_iff.2 ?_⟩
    exact ⟨first, rest, hFirst, hRest.2, by rw [append_nil]⟩

end Inverts

section Frames

/-- A tagged string of bytes with its size. -/
def frame (tag size : Nat) (data : List UInt8) : List UInt8 :=
  bigEndian 1 tag ++ (bigEndian 4 size ++ data)

variable {τ : Type} (ofByte : Nat → Option τ) (make : τ → Nat → List UInt8 → α) (valid : α → Bool)

/-- A tag without a type makes the frame invalid. -/
def checkFrame (invalid : ε) (tag size : Nat) (data : List UInt8) : Except ε α :=
  match ofByte tag with
  | some type =>
    if valid (make type size data) then .ok (make type size data) else .error invalid
  | none => .error invalid

/-- Read a tagged string of bytes and check its three parts together. -/
def readFrame (truncated invalid : ε) : Reader ε α := do
  let tag ← number truncated 1
  let size ← number truncated 4
  let data ← bytes truncated size
  ofExcept (checkFrame ofByte make valid invalid tag size data)

/-- The frame of a valid value, with a known tag and the size of its data. -/
def IsFrame (a : α) (input : List UInt8) : Prop :=
  ∃ tag type data, tag < 256 ∧ data.length < 2 ^ 32 ∧ ofByte tag = some type ∧
    input = frame tag data.length data ∧ a = make type data.length data ∧ valid a = true

variable {ofByte make valid}

theorem checkFrame_eq_ok_iff {invalid : ε} {tag size : Nat} {data : List UInt8} {a : α} :
    checkFrame ofByte make valid invalid tag size data = .ok a ↔
      ∃ type, ofByte tag = some type ∧ a = make type size data ∧ valid a = true := by
  unfold checkFrame
  cases ofByte tag with
  | none => simp
  | some type =>
    by_cases hValid : valid (make type size data) = true
    · simp only [hValid, if_true, Except.ok.injEq, Option.some.injEq, exists_eq_left']
      exact ⟨fun h => ⟨h.symm, h ▸ hValid⟩, fun h => h.1.symm⟩
    · simp only [hValid, Bool.false_eq_true, if_false, reduceCtorEq, Option.some.injEq,
        exists_eq_left', false_iff]
      exact fun h => hValid (h.1 ▸ h.2)

/-- Frames are read as they are written if only the frames of valid values are written. -/
theorem inverts_readFrame {write : α → Except δ (List UInt8)}
    (hWrite : ∀ {a : α} {input : List UInt8},
      write a = .ok input ↔ IsFrame ofByte make valid a input) (truncated invalid : ε) :
    (readFrame ofByte make valid truncated invalid).Inverts write where
  reads {a input} h := by
    obtain ⟨tag, type, data, hTag, hSize, hType, rfl, rfl, hValid⟩ := hWrite.1 h
    refine (Reads.number _ hTag).bind ((Reads.number _ hSize).bind ?_)
    have hLast := (Reads.bytes truncated data).bind
      (f := fun read => ofExcept (checkFrame ofByte make valid invalid tag data.length read))
      (Reads.ofExcept (checkFrame_eq_ok_iff.2 ⟨type, hType, rfl, hValid⟩))
    rwa [append_nil] at hLast
  consumes := by
    refine (Consumes.number _ 1).bind fun tag _ hTag => (Consumes.number _ 4).bind
      fun size _ hSize => (Consumes.bytes _ size).bind fun data _ hData =>
        Consumes.ofExcept fun a hCheck => ?_
    obtain ⟨rfl, hTag⟩ := hTag
    obtain ⟨rfl, hSize⟩ := hSize
    obtain ⟨rfl, rfl⟩ := hData
    obtain ⟨type, hType, hMake, hValid⟩ := checkFrame_eq_ok_iff.1 hCheck
    rw [append_nil]
    exact hWrite.2 ⟨tag, type, _, hTag, hSize, hType, rfl, hMake, hValid⟩

end Frames

end Reader

/-- An enumeration with the numbers that its values are stored as, one byte each. -/
structure EnumCode (α : Type) where
  code : α → Nat
  ofCode : Nat → Option α
  code_lt : ∀ a, code a < 256
  ofCode_eq_some_iff : ∀ {n a}, ofCode n = some a ↔ n = code a

namespace EnumCode

variable (enum : EnumCode α)

def write (a : α) : List UInt8 :=
  bigEndian 1 (enum.code a)

def check (unknown : ε) (raw : Nat) : Except ε α :=
  match enum.ofCode raw with
  | some a => .ok a
  | none => .error unknown

def read (truncated unknown : ε) : Reader ε α := do
  let raw ← Reader.number truncated 1
  Reader.ofExcept (enum.check unknown raw)

@[simp] theorem length_write (a : α) : (enum.write a).length = 1 :=
  rfl

theorem check_eq_ok_iff {unknown : ε} {raw : Nat} {a : α} :
    enum.check unknown raw = .ok a ↔ raw = enum.code a := by
  rw [← enum.ofCode_eq_some_iff, check]
  cases enum.ofCode raw <;> simp

theorem inverts_read (truncated unknown : ε) :
    (enum.read truncated unknown).Inverts fun a => (.ok (enum.write a) : Except ε _) where
  reads {a bytes} hWrite := by
    cases hWrite
    have hRead := (Reader.Reads.number truncated
      (show enum.code a < 256 ^ 1 from enum.code_lt a)).bind
      (f := fun raw => Reader.ofExcept (enum.check unknown raw))
      (Reader.Reads.ofExcept (enum.check_eq_ok_iff.2 rfl))
    rwa [append_nil] at hRead
  consumes := by
    refine (Reader.Consumes.number truncated 1).bind fun n used hUsed =>
      Reader.Consumes.ofExcept fun a ha => ?_
    obtain ⟨rfl, -⟩ := hUsed
    rw [append_nil, enum.check_eq_ok_iff.1 ha]
    rfl

end EnumCode

end Stoneleaf.Library
