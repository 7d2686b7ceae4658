import Mathlib.Data.Nat.Bitwise
import Mathlib.Tactic.Ring

/-!
Numbers written in groups of seven bits, lowest group first. The high bit of a byte says that
another group follows, so a number ends at the first byte without it.
-/

namespace Stoneleaf.Library.Varint

/-- The number that a sequence of groups denotes. -/
def denoted : List UInt8 → Nat
  | [] => 0
  | byte :: rest => byte.toNat % 128 + 128 * denoted rest

/-- Exactly the bytes before the last one announce another group. -/
def Terminated : List UInt8 → Prop
  | [] => False
  | [byte] => byte.toNat < 128
  | byte :: next :: rest => 128 ≤ byte.toNat ∧ Terminated (next :: rest)

instance decidableTerminated : (bytes : List UInt8) → Decidable (Terminated bytes)
  | [] => inferInstanceAs (Decidable False)
  | [byte] => inferInstanceAs (Decidable (byte.toNat < 128))
  | byte :: next :: rest =>
    have := decidableTerminated (next :: rest)
    inferInstanceAs (Decidable (128 ≤ byte.toNat ∧ Terminated (next :: rest)))

variable {rest : List UInt8} {byte : UInt8}

theorem Terminated.cons (hByte : 128 ≤ byte.toNat) (hRest : Terminated rest) :
    Terminated (byte :: rest) := by
  cases rest with
  | nil => exact hRest.elim
  | cons next rest => exact ⟨hByte, hRest⟩

/-- A byte that announces no more groups is the only one. -/
theorem terminated_cons_of_lt (hByte : byte.toNat < 128) :
    Terminated (byte :: rest) ↔ rest = [] := by
  cases rest with
  | nil => exact iff_of_true hByte rfl
  | cons next rest =>
    refine iff_of_false ?_ (List.cons_ne_nil _ _)
    exact fun h => absurd h.1 (Nat.not_le.2 hByte)

theorem terminated_cons_of_le (hByte : 128 ≤ byte.toNat) :
    Terminated (byte :: rest) ↔ Terminated rest := by
  cases rest with
  | nil => exact iff_of_false (Nat.not_lt.2 hByte) id
  | cons next rest => exact and_iff_right hByte

theorem Terminated.last_lt {front : List UInt8} {last : UInt8}
    (h : Terminated (front ++ [last])) : last.toNat < 128 := by
  induction front with
  | nil => exact h
  | cons byte rest ih =>
    rw [List.cons_append] at h
    rcases Nat.lt_or_ge byte.toNat 128 with hByte | hByte
    · rw [terminated_cons_of_lt hByte] at h
      simp at h
    · exact ih ((terminated_cons_of_le hByte).1 h)

theorem denoted_lt (bytes : List UInt8) : denoted bytes < 128 ^ bytes.length := by
  induction bytes with
  | nil => decide
  | cons byte rest ih =>
    rw [denoted, List.length_cons, Nat.pow_succ]
    omega

/-- The number up to the last group, and the last group in its place. -/
theorem denoted_concat (bytes : List UInt8) (last : UInt8) :
    denoted (bytes ++ [last]) = denoted bytes + 128 ^ bytes.length * (last.toNat % 128) := by
  induction bytes with
  | nil => simp [denoted]
  | cons byte rest ih =>
    rw [List.cons_append, denoted, ih, denoted, List.length_cons, Nat.pow_succ]
    ring

/-- Disjoint groups of bits may be joined by addition. -/
theorem or_shiftLeft {value shift : Nat} (hValue : value < 2 ^ shift) (payload : Nat) :
    value ||| payload <<< shift = value + 2 ^ shift * payload := by
  rw [Nat.or_comm, ← Nat.shiftLeft_add_eq_or_of_lt hValue, Nat.shiftLeft_eq]
  ring

end Stoneleaf.Library.Varint
