import Mathlib.Data.List.TakeWhile
import Stoneleaf.Library.Decimal
import Stoneleaf.Storage.Disk

/-!
Addresses of nodes and their text form. A node is identified by its address, and the text form
is what the hard state stores and what the messages carry. The text is split at its last colon,
so that a host may contain colons itself; only an empty host cannot be read back.
-/

namespace Stoneleaf

open Library List

structure NodeAddress where
  host : List UInt8
  port : UInt16
deriving DecidableEq, Repr

namespace NodeAddress

def colon : UInt8 := 58

def toString (address : NodeAddress) : List UInt8 :=
  address.host ++ colon :: decimal address.port.toNat

/-- The position of the last occurrence of a byte. -/
def rfind (byte : UInt8) (text : List UInt8) : Option Nat :=
  (text.reverse.idxOf? byte).map fun fromEnd => text.length - 1 - fromEnd

/-- Read an unsigned number from the front of a text, as far as there are digits. -/
def fromChars (text : List UInt8) : Option (Nat × List UInt8) :=
  let digits := text.takeWhile isDigit
  if digits.isEmpty then none
  else if ofDecimal digits ≥ 2 ^ 32 then none
  else some (ofDecimal digits, text.dropWhile isDigit)

def fromString (text : List UInt8) : Except Exception NodeAddress :=
  match rfind colon text with
  | none => .error (.invalidArgument "Error: Expected host:port!")
  | some separator =>
    if separator = 0 ∨ separator + 1 = text.length then
      .error (.invalidArgument "Error: Expected host:port!")
    else
      match fromChars (text.drop (separator + 1)) with
      | some (port, []) =>
        if port > 65535 then .error (.invalidArgument "Error: Invalid port string")
        else .ok ⟨text.take separator, .ofNat port⟩
      | _ => .error (.invalidArgument "Error: Invalid port string")

theorem rfind_append {byte : UInt8} (front : List UInt8) {back : List UInt8} (h : byte ∉ back) :
    rfind byte (front ++ byte :: back) = some front.length := by
  have hIdx : (front ++ byte :: back).reverse.idxOf? byte = some back.length := by
    have hNone : back.reverse.idxOf? byte = none := by
      rw [idxOf?_eq_none_iff]
      simpa using h
    rw [reverse_append, reverse_cons, append_assoc]
    unfold List.idxOf? at hNone ⊢
    rw [findIdx?_append, hNone]
    simp [findIdx?_cons]
  rw [rfind, hIdx]
  simp

theorem fromChars_decimal {n : Nat} (h : n < 2 ^ 32) : fromChars (decimal n) = some (n, []) := by
  have hTake : (decimal n).takeWhile isDigit = decimal n :=
    takeWhile_eq_self_iff.2 fun _ hMem => isDigit_of_mem_decimal hMem
  have hDrop : (decimal n).dropWhile isDigit = [] :=
    dropWhile_eq_nil_iff.2 fun _ hMem => isDigit_of_mem_decimal hMem
  have hSome : (decimal n).isEmpty = false := by simp [decimal_ne_nil]
  have hSmall : ¬n ≥ 2 ^ 32 := Nat.not_le.2 h
  simp only [fromChars, hTake, hDrop, hSome, ofDecimal_decimal, Bool.false_eq_true, if_false,
    if_neg hSmall]

theorem colon_not_mem_decimal (n : Nat) : colon ∉ decimal n := by
  intro hMem
  have hDigit := isDigit_of_mem_decimal hMem
  revert hDigit
  decide

theorem fromString_toString (address : NodeAddress) (hHost : address.host ≠ []) :
    fromString address.toString = .ok address := by
  obtain ⟨host, port⟩ := address
  have hFind : rfind colon (toString ⟨host, port⟩) = some host.length :=
    rfind_append host (colon_not_mem_decimal _)
  have hPort := port.toNat_lt
  have hMiddle : ¬(host.length = 0 ∨ host.length + 1 = (toString ⟨host, port⟩).length) := by
    have hDigits := length_pos_of_ne_nil (decimal_ne_nil port.toNat)
    have hLength : 0 < host.length := length_pos_of_ne_nil hHost
    simp only [toString, length_append, length_cons]
    omega
  have hDrop : (toString ⟨host, port⟩).drop (host.length + 1) = decimal port.toNat := by
    simp [toString]
  have hTake : (toString ⟨host, port⟩).take host.length = host := by
    simp [toString]
  have hSmall : ¬port.toNat > 65535 := by omega
  simp only [fromString, hFind, if_neg hMiddle, hDrop, hTake, if_neg hSmall,
    fromChars_decimal (show port.toNat < 2 ^ 32 by omega), UInt16.ofNat_toNat]

theorem fromString_toString_nil (port : UInt16) :
    fromString (toString ⟨[], port⟩) = .error (.invalidArgument "Error: Expected host:port!") := by
  have hFind : rfind colon (toString ⟨[], port⟩) = some 0 :=
    rfind_append [] (colon_not_mem_decimal port.toNat)
  simp [fromString, hFind]

theorem toString_injective : Function.Injective toString := by
  rintro ⟨host, port⟩ ⟨host', port'⟩ h
  have hFind := rfind_append host (colon_not_mem_decimal port.toNat)
  have hFind' := rfind_append host' (colon_not_mem_decimal port'.toNat)
  change host ++ colon :: decimal port.toNat = host' ++ colon :: decimal port'.toNat at h
  rw [h, hFind'] at hFind
  obtain ⟨hHost, hRest⟩ := append_inj h (Option.some.inj hFind).symm
  have hPort : port.toNat = port'.toNat := decimal_injective (List.cons.inj hRest).2
  rw [hHost, UInt16.toNat_inj.1 hPort]

/-- The text after the last colon. -/
def portText (text : List UInt8) : List UInt8 :=
  match rfind colon text with
  | none => []
  | some separator => text.drop (separator + 1)

variable {text : List UInt8} {address : NodeAddress}

theorem eq_append_of_rfind {byte : UInt8} {position : Nat} (h : rfind byte text = some position) :
    text = text.take position ++ byte :: text.drop (position + 1) := by
  obtain ⟨fromEnd, hIdx, rfl⟩ := Option.map_eq_some_iff.1 h
  obtain ⟨hLt, hAt, -⟩ := findIdx?_eq_some_iff_getElem.1 hIdx
  rw [length_reverse] at hLt
  rw [getElem_reverse, beq_iff_eq] at hAt
  have hIn : text.length - 1 - fromEnd < text.length := by omega
  conv_lhs => rw [← take_append_drop (text.length - 1 - fromEnd) text]
  rw [drop_eq_getElem_cons hIn, hAt]

theorem eq_of_fromString (h : fromString text = .ok address) :
    ∃ digits, text = address.host ++ colon :: digits ∧ portText text = digits ∧ digits ≠ [] ∧
      (∀ byte ∈ digits, isDigit byte = true) ∧ address.port.toNat = ofDecimal digits := by
  unfold fromString at h
  split at h
  · cases h
  · rename_i separator hFind
    split at h
    · cases h
    · split at h
      · rename_i port hChars
        split at h
        · cases h
        · rename_i hPort
          cases h
          refine ⟨text.drop (separator + 1), eq_append_of_rfind hFind, ?_, ?_, ?_, ?_⟩
          · rw [portText, hFind]
          all_goals
            unfold fromChars at hChars
            simp only [Option.ite_none_left_eq_some, Option.some.injEq, Prod.mk.injEq,
              dropWhile_eq_nil_iff] at hChars
            obtain ⟨hSome, hSmall, hValue, hAll⟩ := hChars
            have hTake := takeWhile_eq_self_iff.2 hAll
            rw [hTake] at hSome hValue
          · simpa using hSome
          · exact hAll
          · rw [hValue]
            exact UInt16.toNat_ofNat_of_lt' (show port < 2 ^ 16 by omega)
      · cases h

/-- An accepted text is written again as it was exactly if its port is plain. -/
theorem toString_eq_iff (h : fromString text = .ok address) :
    address.toString = text ↔ PlainDecimal (portText text) := by
  obtain ⟨digits, hText, hPort, hSome, hDigits, hValue⟩ := eq_of_fromString h
  rw [hPort, ← decimal_ofDecimal_iff hDigits hSome, toString, hValue, hText,
    append_cancel_left_eq, List.cons.injEq]
  exact and_iff_right rfl

end NodeAddress

end Stoneleaf
