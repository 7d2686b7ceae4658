import Mathlib.Data.Nat.Digits.Defs
import Mathlib.Data.Nat.Digits.Lemmas

/-!
Decimal numbers as text. A number is written without leading zeros; reading takes any string of
digits, so that what was written is read back.
-/

namespace Stoneleaf.Library

open List

def digitByte (digit : Nat) : UInt8 :=
  UInt8.ofNat (48 + digit)

def isDigit (byte : UInt8) : Bool :=
  48 ≤ byte.toNat && byte.toNat ≤ 57

/-- The decimal digits of a number, most significant first. -/
def decimal (n : Nat) : List UInt8 :=
  if n = 0 then [digitByte 0] else (Nat.digits 10 n).reverse.map digitByte

/-- The number that a string of digits denotes. -/
def ofDecimal (text : List UInt8) : Nat :=
  text.foldl (fun n byte => 10 * n + (byte.toNat - 48)) 0

theorem toNat_digitByte {digit : Nat} (h : digit < 10) : (digitByte digit).toNat = 48 + digit := by
  rw [digitByte, UInt8.toNat_ofNat']
  omega

theorem isDigit_digitByte {digit : Nat} (h : digit < 10) : isDigit (digitByte digit) = true := by
  simp only [isDigit, toNat_digitByte h, Bool.and_eq_true, decide_eq_true_eq]
  omega

theorem decimal_ne_nil (n : Nat) : decimal n ≠ [] := by
  unfold decimal
  split
  · simp
  · next hPos => simpa [Nat.digits_eq_nil_iff_eq_zero] using hPos

theorem isDigit_of_mem_decimal {n : Nat} {byte : UInt8} (h : byte ∈ decimal n) :
    isDigit byte = true := by
  unfold decimal at h
  split at h
  · obtain rfl := mem_singleton.1 h
    exact isDigit_digitByte (by decide)
  · obtain ⟨digit, hDigit, rfl⟩ := mem_map.1 h
    exact isDigit_digitByte (Nat.digits_lt_base (by decide) (mem_reverse.1 hDigit))

theorem ofDecimal_map_digitByte {digits : List Nat} (h : ∀ digit ∈ digits, digit < 10) :
    ofDecimal (digits.reverse.map digitByte) = Nat.ofDigits 10 digits := by
  induction digits with
  | nil => rfl
  | cons digit digits ih =>
    have hRest := ih fun d hd => h d (mem_cons_of_mem _ hd)
    have hDigit := toNat_digitByte (h digit mem_cons_self)
    rw [ofDecimal] at hRest ⊢
    rw [reverse_cons, map_append, foldl_append, hRest, Nat.ofDigits_cons]
    simp only [map_cons, map_nil, foldl_cons, foldl_nil, hDigit]
    omega

@[simp] theorem ofDecimal_decimal (n : Nat) : ofDecimal (decimal n) = n := by
  unfold decimal
  split
  · next hZero =>
      subst hZero
      rfl
  · rw [ofDecimal_map_digitByte fun digit hDigit => Nat.digits_lt_base (by decide) hDigit,
      Nat.ofDigits_digits]

theorem decimal_injective : Function.Injective decimal := by
  intro n m h
  rw [← ofDecimal_decimal n, h, ofDecimal_decimal]

/-- Digits as they are written: no leading zero, unless it is the only digit. -/
def PlainDecimal (text : List UInt8) : Prop :=
  text.length ≤ 1 ∨ text.head? ≠ some (digitByte 0)

instance (text : List UInt8) : Decidable (PlainDecimal text) :=
  inferInstanceAs (Decidable (_ ∨ _))

theorem digitByte_sub {byte : UInt8} (h : isDigit byte = true) :
    byte.toNat - 48 < 10 ∧ digitByte (byte.toNat - 48) = byte := by
  simp only [isDigit, Bool.and_eq_true, decide_eq_true_eq] at h
  refine ⟨by omega, ?_⟩
  rw [digitByte, Nat.add_sub_cancel' h.1, UInt8.ofNat_toNat]

/-- The values of the digits, least significant first. -/
theorem eq_map_digitByte {text : List UInt8} (h : ∀ byte ∈ text, isDigit byte = true) :
    ∃ digits : List Nat, (∀ digit ∈ digits, digit < 10) ∧ text = digits.reverse.map digitByte := by
  refine ⟨(text.map fun byte => byte.toNat - 48).reverse, ?_, ?_⟩
  · intro digit hDigit
    obtain ⟨byte, hByte, rfl⟩ := mem_map.1 (mem_reverse.1 hDigit)
    exact (digitByte_sub (h byte hByte)).1
  · rw [reverse_reverse, map_map]
    conv_lhs => rw [← map_id text]
    exact map_congr_left fun byte hByte => (digitByte_sub (h byte hByte)).2.symm

theorem digitByte_inj {a b : Nat} (ha : a < 10) (hb : b < 10) (h : digitByte a = digitByte b) :
    a = b := by
  have hNat := congrArg UInt8.toNat h
  rw [toNat_digitByte ha, toNat_digitByte hb] at hNat
  omega

theorem head?_map_digitByte {digits : List Nat} (hSome : digits ≠ []) :
    (digits.reverse.map digitByte).head? = some (digitByte (digits.getLast hSome)) := by
  rw [head?_map, head?_reverse, getLast?_eq_some_getLast hSome]
  rfl

/-- The first digit of a number that is written is not zero, unless the number is. -/
theorem head?_decimal {n : Nat} (hn : n ≠ 0) : (decimal n).head? ≠ some (digitByte 0) := by
  have hSome : Nat.digits 10 n ≠ [] := by simpa [Nat.digits_eq_nil_iff_eq_zero] using hn
  rw [decimal, if_neg hn, head?_map_digitByte hSome]
  intro hEq
  have hLast := digitByte_inj (Nat.digits_lt_base (by decide) (getLast_mem hSome))
    (by decide) (Option.some.inj hEq)
  exact Nat.getLast_digit_ne_zero 10 hn hLast

/-- Writing the number that was read gives the digits back exactly if they are plain. -/
theorem decimal_ofDecimal_iff {text : List UInt8} (h : ∀ byte ∈ text, isDigit byte = true)
    (hSome : text ≠ []) : decimal (ofDecimal text) = text ↔ PlainDecimal text := by
  obtain ⟨digits, hDigits, rfl⟩ := eq_map_digitByte h
  have hNonempty : digits ≠ [] := by
    rintro rfl
    exact hSome rfl
  constructor
  · intro hSame
    by_cases hZero : ofDecimal (digits.reverse.map digitByte) = 0
    · rw [hZero] at hSame
      exact .inl (hSame ▸ Nat.le_refl 1)
    · rw [← hSame]
      exact .inr (head?_decimal hZero)
  · intro hPlain
    rw [ofDecimal_map_digitByte hDigits]
    by_cases hLast : digits.getLast hNonempty = 0
    · rcases hPlain with hShort | hHead
      · obtain ⟨digit, rfl⟩ : ∃ digit, digits = [digit] := by
          refine length_eq_one_iff.1 (Nat.le_antisymm ?_ ?_)
          · simpa using hShort
          · exact length_pos_of_ne_nil hNonempty
        obtain rfl : digit = 0 := hLast
        rfl
      · exact absurd (by rw [head?_map_digitByte hNonempty, hLast]) hHead
    · have hBack : Nat.digits 10 (Nat.ofDigits 10 digits) = digits :=
        Nat.digits_ofDigits 10 (by decide) digits hDigits fun _ => hLast
      have hPos : Nat.ofDigits 10 digits ≠ 0 := by
        intro hZero
        rw [hZero, Nat.digits_zero] at hBack
        exact hNonempty hBack.symm
      rw [decimal, if_neg hPos, hBack]

end Stoneleaf.Library
