import Mathlib.Tactic.ByContra

/-!
Stored values, with the validation rules of the value codec. A `Value` is a raw value the
codec accepts, in the same way as a key.
-/

namespace Stoneleaf

inductive ValueType where
  | varUInt
  | varInt
  | bool
  | char
deriving DecidableEq, Repr

namespace ValueType

/-- The byte the enumeration value is stored as. -/
def toByte : ValueType → Nat
  | varUInt => 0
  | varInt => 1
  | bool => 2
  | char => 3

def ofByte : Nat → Option ValueType
  | 0 => some varUInt
  | 1 => some varInt
  | 2 => some bool
  | 3 => some char
  | _ => none

@[simp] theorem ofByte_toByte (t : ValueType) : ofByte t.toByte = some t := by
  cases t <;> rfl

theorem toByte_lt (t : ValueType) : t.toByte < 256 := by
  cases t <;> decide

end ValueType

/-- The value record as it is passed around, before validation. -/
structure RawValue where
  type : ValueType
  size : Nat
  data : List UInt8
deriving DecidableEq, Repr

namespace ValueCodec

def maxPayloadSize : Nat := 65535

/-- The loop of `decode_varuint_bytes`, from the bytes not yet read. Seven payload bits per
byte, high bit set while more bytes follow; bits shifted past the word are dropped. -/
def decodeVaruintLoop (value shift : Nat) : List UInt8 → Option Nat
  | [] => none
  | byte :: rest =>
    let payload := byte.toNat % 128
    if shift ≥ 64 ∧ payload ≠ 0 then none
    else
      let value := value ||| (payload <<< shift) % 2 ^ 64
      if byte.toNat < 128 then
        if rest.isEmpty then some value else none
      else if shift + 7 > 63 ∧ ¬rest.isEmpty then none
      else decodeVaruintLoop value (shift + 7) rest

def decodeVaruintBytes (bytes : List UInt8) : Option Nat :=
  decodeVaruintLoop 0 0 bytes

def validateValue (value : RawValue) : Bool :=
  if value.size ≠ value.data.length then false
  else if value.size > maxPayloadSize then false
  else
    match value.type with
    | .varUInt => (decodeVaruintBytes value.data).isSome
    | .varInt => (decodeVaruintBytes value.data).isSome
    | .bool => value.size == 1 && (value.data.getD 0 0 == 0 || value.data.getD 0 0 == 1)
    | .char => true

theorem size_eq_of_validateValue {value : RawValue} (h : validateValue value = true) :
    value.size = value.data.length := by
  by_contra hSize
  simp [validateValue, hSize] at h

theorem size_le_of_validateValue {value : RawValue} (h : validateValue value = true) :
    value.size ≤ maxPayloadSize := by
  by_contra hSize
  have hEq := size_eq_of_validateValue h
  simp [validateValue, hEq] at h
  omega

end ValueCodec

/-- A value that the codec accepts. -/
structure Value where
  raw : RawValue
  valid : ValueCodec.validateValue raw = true
deriving DecidableEq

namespace Value

def type (value : Value) : ValueType := value.raw.type

def size (value : Value) : Nat := value.raw.size

def data (value : Value) : List UInt8 := value.raw.data

end Value

namespace ValueCodec

def makeBool (value : Bool) : Value where
  raw := ⟨.bool, 1, [if value then 1 else 0]⟩
  valid := by cases value <;> rfl

end ValueCodec

end Stoneleaf
