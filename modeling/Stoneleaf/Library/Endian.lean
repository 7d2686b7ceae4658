import Mathlib.Data.List.Lex
import Mathlib.Tactic.Ring

/-!
Fixed-width big-endian numbers as bytes. Values outside the width are truncated, and the
byte order of equally wide numbers is their numerical order.
-/

namespace Stoneleaf.Library

open List

/-- The lowest `width` bytes of a number, most significant first. -/
def bigEndian : Nat → Nat → List UInt8
  | 0, _ => []
  | width + 1, n => UInt8.ofNat (n / 256 ^ width) :: bigEndian width n

/-- Numerical value of bytes, most significant first. -/
def ofBigEndian (bytes : List UInt8) : Nat :=
  bytes.foldl (fun n byte => n * 256 + byte.toNat) 0

@[simp] theorem length_bigEndian (width n : Nat) : (bigEndian width n).length = width := by
  induction width with
  | zero => rfl
  | succ width ih => simp [bigEndian, ih]

theorem foldl_bigEndian (width n start : Nat) :
    (bigEndian width n).foldl (fun n byte => n * 256 + byte.toNat) start =
      start * 256 ^ width + n % 256 ^ width := by
  induction width generalizing start with
  | zero => simp [bigEndian, Nat.mod_one]
  | succ width ih =>
    have hMod : n % 256 ^ (width + 1) =
        n % 256 ^ width + 256 ^ width * (n / 256 ^ width % 256) := by
      rw [Nat.pow_succ, Nat.mod_mul]
    rw [bigEndian, foldl_cons, ih, UInt8.toNat_ofNat', hMod, Nat.pow_succ]
    ring

/-- Reading back what was written gives the number up to truncation. -/
@[simp] theorem ofBigEndian_bigEndian (width n : Nat) :
    ofBigEndian (bigEndian width n) = n % 256 ^ width := by
  simp [ofBigEndian, foldl_bigEndian]

theorem bigEndian_mod (width n : Nat) : bigEndian width (n % 256 ^ width) = bigEndian width n := by
  suffices h : ∀ more, bigEndian width (n % 256 ^ (width + more)) = bigEndian width n from h 0
  induction width with
  | zero => exact fun _ => rfl
  | succ width ih =>
    intro more
    have hHead : UInt8.ofNat (n % 256 ^ (width + 1 + more) / 256 ^ width) =
        UInt8.ofNat (n / 256 ^ width) := by
      rw [Nat.add_assoc, Nat.pow_add, Nat.mod_mul_right_div_self, Nat.add_comm 1,
        Nat.pow_succ', ← UInt8.toNat_inj, UInt8.toNat_ofNat', UInt8.toNat_ofNat']
      exact Nat.mod_mod_of_dvd _ (Nat.dvd_mul_right 256 _)
    have hTail := ih (1 + more)
    rw [← Nat.add_assoc] at hTail
    rw [bigEndian, bigEndian, hHead, hTail]

/-- Numerical order is lexicographic order of the bytes. -/
theorem bigEndian_lt {width n m : Nat} (hLt : n < m) (hm : m < 256 ^ width) :
    (bigEndian width n).map UInt8.toNat < (bigEndian width m).map UInt8.toNat := by
  induction width generalizing n m with
  | zero => simp at hm; omega
  | succ width ih =>
    have hPos : 0 < 256 ^ width := Nat.pow_pos (by decide)
    have hSplit : ∀ {x : Nat}, x < 256 ^ (width + 1) → (UInt8.ofNat (x / 256 ^ width)).toNat =
        x / 256 ^ width := by
      intro x hx
      rw [UInt8.toNat_ofNat']
      exact Nat.mod_eq_of_lt ((Nat.div_lt_iff_lt_mul hPos).2 (by rwa [Nat.pow_succ'] at hx))
    rw [bigEndian, bigEndian, map_cons, map_cons, hSplit hm, hSplit (hLt.trans hm)]
    rcases (Nat.div_le_div_right hLt.le).lt_or_eq with hHead | hHead
    · exact List.Lex.rel hHead
    · rw [hHead]
      have hRest : n % 256 ^ width < m % 256 ^ width := by
        have hn := Nat.div_add_mod n (256 ^ width)
        have hm' := Nat.div_add_mod m (256 ^ width)
        rw [hHead] at hn
        omega
      have hTail := ih hRest (Nat.mod_lt _ hPos)
      rw [bigEndian_mod, bigEndian_mod] at hTail
      exact List.Lex.cons hTail

variable (bytes : List UInt8)
include bytes

theorem foldl_bytes_lt (start : Nat) :
    bytes.foldl (fun n byte => n * 256 + byte.toNat) start < (start + 1) * 256 ^ bytes.length := by
  induction bytes generalizing start with
  | nil => simp
  | cons byte bytes ih =>
    have hByte : start * 256 + byte.toNat + 1 ≤ (start + 1) * 256 := by
      have := byte.toNat_lt
      omega
    calc
      _ < (start * 256 + byte.toNat + 1) * 256 ^ bytes.length := ih _
      _ ≤ (start + 1) * 256 * 256 ^ bytes.length := Nat.mul_le_mul_right _ hByte
      _ = (start + 1) * 256 ^ (byte :: bytes).length := by
        rw [length_cons, Nat.pow_succ']
        ring

theorem ofBigEndian_lt : ofBigEndian bytes < 256 ^ bytes.length := by
  have h := foldl_bytes_lt bytes 0
  rwa [Nat.zero_add, Nat.one_mul] at h

theorem foldl_bytes_eq (start : Nat) :
    bytes.foldl (fun n byte => n * 256 + byte.toNat) start =
      start * 256 ^ bytes.length + ofBigEndian bytes := by
  induction bytes generalizing start with
  | nil => simp [ofBigEndian]
  | cons byte bytes ih =>
    rw [ofBigEndian, foldl_cons, foldl_cons, ih, ih (0 * 256 + byte.toNat),
      length_cons, Nat.pow_succ']
    ring

/-- Bytes are what their number is written as. -/
theorem bigEndian_ofBigEndian : bigEndian bytes.length (ofBigEndian bytes) = bytes := by
  induction bytes with
  | nil => rfl
  | cons byte bytes ih =>
    have hPos : 0 < 256 ^ bytes.length := Nat.pow_pos (by decide)
    have hLow := ofBigEndian_lt bytes
    have hNumber : ofBigEndian (byte :: bytes) =
        ofBigEndian bytes + 256 ^ bytes.length * byte.toNat := by
      rw [ofBigEndian, foldl_cons, foldl_bytes_eq]
      ring
    rw [hNumber, length_cons, bigEndian, Nat.add_mul_div_left _ _ hPos,
      Nat.div_eq_of_lt hLow, Nat.zero_add, UInt8.ofNat_toNat]
    congr 1
    rw [← bigEndian_mod, Nat.add_mul_mod_self_left, bigEndian_mod, ih]

end Stoneleaf.Library
