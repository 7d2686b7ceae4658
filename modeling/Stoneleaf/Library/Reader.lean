import Mathlib.Control.Monad.Basic
import Stoneleaf.Library.Endian

/-!
Readers that consume bytes from the front of a buffer and may throw. A reader reads a value from
some bytes if it returns the value whatever follows them; such facts compose along the monad, so
that a decoder is verified piece by piece against the bytes its encoder wrote.
-/

namespace Stoneleaf.Library

open List

abbrev Reader (ε : Type) : Type → Type :=
  StateT (List UInt8) (Except ε)

namespace Reader

variable {ε α β : Type}

/-- The next bytes; there must be enough of them. -/
def bytes (truncated : ε) (count : Nat) : Reader ε (List UInt8) := fun rest =>
  if count > rest.length then .error truncated else .ok (rest.take count, rest.drop count)

/-- The next big-endian number of a given width. -/
def number (truncated : ε) (width : Nat) : Reader ε Nat := do
  return ofBigEndian (← bytes truncated width)

/-- How many bytes are left. -/
def remaining : Reader ε Nat := fun rest =>
  .ok (rest.length, rest)

/-- The value of a computation that may throw. -/
def ofExcept (x : Except ε α) : Reader ε α := fun rest =>
  x.map fun a => (a, rest)

/-- Run a reader that has to consume everything. -/
def runAll (x : Reader ε α) (trailing : ε) (input : List UInt8) : Except ε α :=
  match x input with
  | .error e => .error e
  | .ok (a, []) => .ok a
  | .ok (_, _ :: _) => .error trailing

/-- Read a value from the given bytes, whatever follows. -/
def Reads (x : Reader ε α) (input : List UInt8) (a : α) : Prop :=
  ∀ rest, x (input ++ rest) = .ok (a, rest)

namespace Reads

variable {x : Reader ε α} {f : α → Reader ε β} {a : α} {b : β} {input more : List UInt8}

theorem pure (a : α) : Reads (Pure.pure a : Reader ε α) [] a :=
  fun _ => rfl

theorem bind (hx : Reads x input a) (hf : Reads (f a) more b) :
    Reads (x >>= f) (input ++ more) b := by
  intro rest
  change (x ((input ++ more) ++ rest)).bind _ = _
  rw [append_assoc, hx]
  exact hf rest

/-- A step that consumes nothing. -/
theorem bind_nil (hx : Reads x [] a) (hf : Reads (f a) input b) : Reads (x >>= f) input b :=
  hx.bind hf

/-- A last step that consumes nothing. -/
theorem map (hx : Reads x input a) (g : α → β) :
    Reads (x >>= fun a => Pure.pure (g a)) input (g a) := by
  have hBind := hx.bind (f := fun a => Pure.pure (g a)) (pure (g a))
  rwa [append_nil] at hBind

theorem bytes (truncated : ε) (input : List UInt8) :
    Reads (Reader.bytes truncated input.length) input input := by
  intro rest
  simp [Reader.bytes]

theorem number (truncated : ε) {width n : Nat} (hn : n < 256 ^ width) :
    Reads (Reader.number truncated width) (bigEndian width n) n := by
  have hBytes := Reads.bytes truncated (bigEndian width n)
  rw [length_bigEndian] at hBytes
  have hMap := hBytes.map ofBigEndian
  rwa [ofBigEndian_bigEndian, Nat.mod_eq_of_lt hn] at hMap

theorem ofExcept {y : Except ε α} (hy : y = .ok a) : Reads (Reader.ofExcept y) [] a := by
  intro rest
  rw [hy]
  rfl

/-- A reader that may look at the number of bytes left. -/
theorem bind_remaining {f : Nat → Reader ε β}
    (hf : ∀ more, Reads (f (input.length + more)) input b) : Reads (remaining >>= f) input b := by
  intro rest
  have hRest := hf rest.length rest
  rwa [← length_append] at hRest

theorem runAll (hx : Reads x input a) (trailing : ε) : x.runAll trailing input = .ok a := by
  have hEnd := hx []
  rw [append_nil] at hEnd
  rw [Reader.runAll, hEnd]

end Reads

/-- The bytes that a reader has consumed when it returns are those of the value it returns. -/
def Consumes (x : Reader ε α) (R : α → List UInt8 → Prop) : Prop :=
  ∀ input a rest, x input = .ok (a, rest) → ∃ used, input = used ++ rest ∧ R a used

namespace Consumes

variable {x : Reader ε α} {f : α → Reader ε β} {R S : α → List UInt8 → Prop}
  {T : β → List UInt8 → Prop} {a : α} {input : List UInt8}

theorem pure (h : R a []) : Consumes (Pure.pure a : Reader ε α) R := by
  intro input b rest hRun
  obtain ⟨rfl, rfl⟩ := Prod.mk.inj (Except.ok.inj hRun)
  exact ⟨[], rfl, h⟩

/-- The rest of a reader is judged with what was consumed before it. -/
theorem bind (hx : Consumes x R)
    (hf : ∀ a used, R a used → Consumes (f a) fun b more => T b (used ++ more)) :
    Consumes (x >>= f) T := by
  intro input b rest hRun
  change (x input).bind (fun step => f step.1 step.2) = _ at hRun
  cases hFirst : x input with
  | error e => simp [hFirst, Except.bind] at hRun
  | ok step =>
    obtain ⟨a, middle⟩ := step
    rw [hFirst] at hRun
    obtain ⟨used, rfl, hUsed⟩ := hx input a middle hFirst
    obtain ⟨more, rfl, hMore⟩ := hf a used hUsed _ b rest hRun
    exact ⟨used ++ more, (append_assoc ..).symm, hMore⟩

theorem mono (hx : Consumes x R) (h : ∀ a used, R a used → S a used) : Consumes x S := by
  intro input a rest hRun
  obtain ⟨used, hInput, hUsed⟩ := hx input a rest hRun
  exact ⟨used, hInput, h a used hUsed⟩

theorem bytes (truncated : ε) (count : Nat) :
    Consumes (Reader.bytes truncated count) fun a used => used = a ∧ a.length = count := by
  intro input a rest hRun
  unfold Reader.bytes at hRun
  split at hRun
  · cases hRun
  · rename_i hEnough
    obtain ⟨rfl, rfl⟩ := Prod.mk.inj (Except.ok.inj hRun)
    exact ⟨_, (take_append_drop count input).symm, rfl, length_take_of_le (Nat.not_lt.1 hEnough)⟩

theorem number (truncated : ε) (width : Nat) :
    Consumes (Reader.number truncated width) fun n used =>
      used = bigEndian width n ∧ n < 256 ^ width := by
  refine (bytes truncated width).bind fun a used hUsed => pure ?_
  obtain ⟨rfl, rfl⟩ := hUsed
  rw [append_nil]
  exact ⟨(bigEndian_ofBigEndian used).symm, ofBigEndian_lt used⟩

theorem ofExcept {y : Except ε α} (h : ∀ a, y = .ok a → R a []) :
    Consumes (Reader.ofExcept y) R := by
  intro input a rest hRun
  cases y with
  | error e => cases hRun
  | ok b =>
    obtain ⟨rfl, rfl⟩ := Prod.mk.inj (Except.ok.inj hRun)
    exact ⟨[], rfl, h b rfl⟩

theorem remaining {R : Nat → List UInt8 → Prop} (h : ∀ n, R n []) :
    Consumes (Reader.remaining : Reader ε Nat) R := by
  intro input n rest hRun
  obtain ⟨rfl, rfl⟩ := Prod.mk.inj (Except.ok.inj hRun)
  exact ⟨[], rfl, h _⟩

/-- A reader that had to consume everything accepted exactly the bytes of its value. -/
theorem of_runAll {trailing : ε} (hx : Consumes x R) (hRun : x.runAll trailing input = .ok a) :
    R a input := by
  unfold Reader.runAll at hRun
  split at hRun
  · cases hRun
  · rename_i b hStep
    obtain ⟨used, rfl, hUsed⟩ := hx _ b [] hStep
    cases hRun
    rwa [append_nil]
  · cases hRun

end Consumes

end Reader

end Stoneleaf.Library
