import Mathlib.Data.Nat.Bitwise
import Mathlib.Logic.Function.Iterate
import Mathlib.Tactic.Ring

/-!
Checksums by polynomial division in a shift register, lowest bit first. If the polynomial has its
highest coefficient, a step of the register can be undone, and a register that is as wide as a
burst of changed bytes tells the burst from no change at all.
-/

namespace Stoneleaf.Library.Crc

open List

variable {w : Nat} (poly : BitVec w)

/-- One bit of the division. -/
def step (x : BitVec w) : BitVec w :=
  (x >>> 1) ^^^ (if x.getLsbD 0 then poly else 0)

/-- Add a byte at the low end and divide it out. -/
def feed (x : BitVec w) (byte : UInt8) : BitVec w :=
  (step poly)^[8] (x ^^^ byte.toBitVec.setWidth w)

def run (x : BitVec w) (bytes : List UInt8) : BitVec w :=
  bytes.foldl (feed poly) x

variable {poly}

/-- The division is linear. -/
theorem step_xor (x y : BitVec w) : step poly (x ^^^ y) = step poly x ^^^ step poly y := by
  have hMask : (if (x ^^^ y).getLsbD 0 then poly else 0) =
      (if x.getLsbD 0 then poly else 0) ^^^ (if y.getLsbD 0 then poly else 0) := by
    rw [BitVec.getLsbD_xor]
    cases x.getLsbD 0 <;> cases y.getLsbD 0 <;> simp
  unfold step
  rw [hMask, BitVec.ushiftRight_xor_distrib]
  ac_rfl

theorem iterate_step_xor (n : Nat) (x y : BitVec w) :
    (step poly)^[n] (x ^^^ y) = (step poly)^[n] x ^^^ (step poly)^[n] y := by
  induction n generalizing x y with
  | zero => rfl
  | succ n ih =>
    rw [Function.iterate_succ_apply, step_xor, ih]
    rfl

theorem toNat_setWidth_byte (hWide : 8 ≤ w) (byte : UInt8) :
    (byte.toBitVec.setWidth w).toNat = byte.toNat := by
  have hByte := byte.toNat_lt
  rw [BitVec.toNat_setWidth, UInt8.toNat_toBitVec]
  exact Nat.mod_eq_of_lt (hByte.trans_le (Nat.pow_le_pow_right (by decide) hWide))

section Invertible

variable (hPoly : poly.msb = true) {x : BitVec w}

include hPoly

/-- The bit that was shifted out comes back at the top with the polynomial. -/
theorem msb_step (x : BitVec w) : (step poly x).msb = x.getLsbD 0 := by
  have hHigh : (x >>> 1).msb = false := by
    rw [BitVec.msb_ushiftRight]
    rfl
  unfold step
  rw [BitVec.msb_xor, hHigh]
  cases x.getLsbD 0 <;> simp [hPoly]

/-- A result without its top bit is half of what it came from. -/
theorem toNat_of_step_lt (h : (step poly x).toNat < 2 ^ (w - 1)) :
    x.toNat = 2 * (step poly x).toNat := by
  have hMsb : (step poly x).msb = false := by
    rw [BitVec.msb_eq_decide, decide_eq_false (Nat.not_le.2 h)]
  rw [msb_step hPoly] at hMsb
  have hEven : x.toNat % 2 = 0 := by
    have hBit : x.toNat.testBit 0 = false := hMsb
    rw [Nat.testBit_zero] at hBit
    have := of_decide_eq_false hBit
    omega
  have hHalf : (step poly x).toNat = x.toNat / 2 := by
    unfold step
    rw [hMsb, if_neg Bool.false_ne_true]
    simp [Nat.shiftRight_eq_div_pow]
  omega

theorem toNat_of_iterate_step_lt {n : Nat} (hn : n ≤ w)
    (h : ((step poly)^[n] x).toNat < 2 ^ (w - n)) :
    x.toNat = 2 ^ n * ((step poly)^[n] x).toNat := by
  induction n generalizing x with
  | zero => simp
  | succ n ih =>
    rw [Function.iterate_succ_apply] at h ⊢
    have hWider : 2 ^ (w - (n + 1)) ≤ 2 ^ (w - n) := Nat.pow_le_pow_right (by decide) (by omega)
    have hStep := ih (by omega) (h.trans_le hWider)
    have hSmall : (step poly x).toNat < 2 ^ (w - 1) := by
      have hPow : 2 ^ (w - 1) = 2 ^ n * 2 ^ (w - (n + 1)) := by
        rw [← Nat.pow_add]
        congr 1
        omega
      rw [hStep, hPow]
      exact Nat.mul_lt_mul_of_pos_left h (Nat.two_pow_pos n)
    rw [toNat_of_step_lt hPoly hSmall, hStep, Nat.pow_succ]
    ring

theorem iterate_step_injective {n : Nat} (hn : n ≤ w) :
    Function.Injective ((step poly)^[n]) := by
  intro x y hEq
  have hZero : (step poly)^[n] (x ^^^ y) = 0#w := by
    rw [iterate_step_xor, hEq, BitVec.xor_self]
  have hDiff := toNat_of_iterate_step_lt hPoly hn (x := x ^^^ y)
    (by rw [hZero]; simp)
  rw [hZero] at hDiff
  have : x ^^^ y = 0#w := BitVec.eq_of_toNat_eq (by simpa using hDiff)
  exact BitVec.xor_eq_zero_iff.1 this

/-- What two registers differ in after a byte each, from what they differed in before. -/
theorem toNat_xor_of_feed (hWide : 8 ≤ w) {x y : BitVec w} {a b : UInt8}
    (h : (feed poly x a ^^^ feed poly y b).toNat < 2 ^ (w - 8)) :
    (x ^^^ y ^^^ (a ^^^ b).toBitVec.setWidth w).toNat =
      256 * (feed poly x a ^^^ feed poly y b).toNat := by
  have hSplit : feed poly x a ^^^ feed poly y b =
      (step poly)^[8] (x ^^^ y ^^^ (a ^^^ b).toBitVec.setWidth w) := by
    unfold feed
    rw [← iterate_step_xor, UInt8.toBitVec_xor, BitVec.setWidth_xor]
    congr 1
    ac_rfl
  rw [hSplit] at h ⊢
  exact toNat_of_iterate_step_lt hPoly hWide h

/-- Registers that agree after some bytes differed in no more bits than those bytes have. -/
theorem toNat_xor_lt_of_run_eq {x y : BitVec w} {as bs : List UInt8}
    (hLength : as.length = bs.length) (hFits : 8 * as.length ≤ w)
    (h : run poly x as = run poly y bs) : (x ^^^ y).toNat < 2 ^ (8 * as.length) := by
  induction as generalizing bs x y with
  | nil =>
    obtain rfl : bs = [] := eq_nil_of_length_eq_zero hLength.symm
    obtain rfl : x = y := h
    simp
  | cons a as ih =>
    cases bs with
    | nil => cases hLength
    | cons b bs =>
      rw [length_cons] at hFits
      have hWide : 8 ≤ w := by omega
      have hRest := ih (Nat.succ.inj hLength) (by omega) h
      have hNarrow : 2 ^ (8 * as.length) ≤ 2 ^ (w - 8) :=
        Nat.pow_le_pow_right (by decide) (by omega)
      have hDiff := toNat_xor_of_feed hPoly hWide (hRest.trans_le hNarrow)
      have hPow : 2 ^ (8 * (a :: as).length) = 256 * 2 ^ (8 * as.length) := by
        rw [length_cons, Nat.mul_succ, Nat.pow_add, Nat.mul_comm]
      -- undo the bytes themselves, which are narrower still
      have hCancel : x ^^^ y = x ^^^ y ^^^ (a ^^^ b).toBitVec.setWidth w ^^^
          (a ^^^ b).toBitVec.setWidth w := by
        rw [BitVec.xor_assoc, BitVec.xor_self, BitVec.xor_zero]
      rw [hCancel, BitVec.toNat_xor]
      apply Nat.xor_lt_two_pow
      · rw [hDiff, hPow]
        exact Nat.mul_lt_mul_of_pos_left hRest (by decide)
      · rw [toNat_setWidth_byte hWide, hPow]
        have hByte := (a ^^^ b).toNat_lt
        have hPos := Nat.two_pow_pos (8 * as.length)
        omega

/-- Bytes that fit in the register are told apart. -/
theorem eq_of_run_eq {as bs : List UInt8} (hLength : as.length = bs.length)
    (hFits : 8 * as.length ≤ w) (h : run poly x as = run poly x bs) : as = bs := by
  induction as generalizing bs x with
  | nil => exact (eq_nil_of_length_eq_zero hLength.symm).symm
  | cons a as ih =>
    cases bs with
    | nil => cases hLength
    | cons b bs =>
      rw [length_cons] at hFits
      have hWide : 8 ≤ w := by omega
      have hRest := toNat_xor_lt_of_run_eq hPoly (Nat.succ.inj hLength) (by omega) h
      have hNarrow : 2 ^ (8 * as.length) ≤ 2 ^ (w - 8) :=
        Nat.pow_le_pow_right (by decide) (by omega)
      have hDiff := toNat_xor_of_feed hPoly hWide (hRest.trans_le hNarrow)
      have hByte := (a ^^^ b).toNat_lt
      rw [BitVec.xor_self, BitVec.zero_xor, toNat_setWidth_byte hWide] at hDiff
      have hEq : a = b := by
        have hZero : (a ^^^ b).toNat = 0 := by omega
        exact UInt8.xor_eq_zero_iff.1 (UInt8.toNat_inj.1 hZero)
      subst hEq
      rw [ih (Nat.succ.inj hLength) (by omega) h]

theorem run_injective (hWide : 8 ≤ w) (bytes : List UInt8) :
    Function.Injective fun x => run poly x bytes := by
  induction bytes with
  | nil => exact fun _ _ h => h
  | cons byte bytes ih =>
    intro x y h
    have hFeed : feed poly x byte = feed poly y byte := ih h
    exact (BitVec.xor_left_inj _).1 (iterate_step_injective hPoly hWide hFeed)

/-- A burst of changes that fits in the register changes what it ends with. -/
theorem run_burst_ne {front back as bs : List UInt8} (hLength : as.length = bs.length)
    (hFits : 8 * as.length ≤ w) (hNe : as ≠ bs) :
    run poly x (front ++ as ++ back) ≠ run poly x (front ++ bs ++ back) := by
  intro h
  apply hNe
  cases as with
  | nil => exact (eq_nil_of_length_eq_zero hLength.symm).symm
  | cons a as =>
    have hWide : 8 ≤ w := by
      rw [length_cons] at hFits
      omega
    simp only [run, foldl_append] at h
    exact eq_of_run_eq hPoly hLength hFits (run_injective hPoly hWide back h)

end Invertible

/-- Two strings that differ, but only within a window. -/
structure DiffersWithin (original changed : List UInt8) (start width : Nat) : Prop where
  length : changed.length = original.length
  ne : changed ≠ original
  same : ∀ i, i < start ∨ start + width ≤ i → changed[i]? = original[i]?

namespace DiffersWithin

variable {original changed : List UInt8} {start width : Nat}

/-- What the two strings have in common around what they differ in. -/
theorem split (h : DiffersWithin original changed start width) :
    ∃ front back as bs, original = front ++ as ++ back ∧ changed = front ++ bs ++ back ∧
      as.length = bs.length ∧ as.length ≤ width ∧ as ≠ bs := by
  have hFront : changed.take start = original.take start := by
    apply ext_getElem?
    intro i
    simp only [getElem?_take]
    split
    · exact h.same i (.inl ‹_›)
    · rfl
  have hBack : changed.drop (start + width) = original.drop (start + width) := by
    apply ext_getElem?
    intro i
    simp only [getElem?_drop]
    exact h.same _ (.inr (Nat.le_add_right _ _))
  have hParts : ∀ bytes : List UInt8, bytes =
      bytes.take start ++ (bytes.drop start).take width ++ bytes.drop (start + width) := by
    intro bytes
    rw [append_assoc, ← drop_drop, take_append_drop, take_append_drop]
  refine ⟨original.take start, original.drop (start + width), (original.drop start).take width,
    (changed.drop start).take width, hParts original, ?_, ?_, length_take_le _ _, ?_⟩
  · rw [← hFront, ← hBack]
    exact hParts changed
  · simp [h.length]
  · intro hSame
    apply h.ne
    rw [hParts changed, hParts original, hFront, hBack, hSame]

end DiffersWithin

end Stoneleaf.Library.Crc
