import Stoneleaf.Encoding.KeyCodec
import Stoneleaf.Encoding.ValueCodec
import Stoneleaf.Library.Codec

/-!
Keys and values as tagged strings inside larger encodings. The log, the replicated log and the
network all use the same bytes and differ in the errors they report.
-/

namespace Stoneleaf

open Library

variable {ε : Type}

namespace KeyType

theorem toByte_of_ofByte {byte : Nat} {type : KeyType} (h : ofByte byte = some type) :
    type.toByte = byte := by
  unfold ofByte at h
  split at h <;> cases h <;> rfl

end KeyType

namespace ValueType

theorem toByte_of_ofByte {byte : Nat} {type : ValueType} (h : ofByte byte = some type) :
    type.toByte = byte := by
  unfold ofByte at h
  split at h <;> cases h <;> rfl

end ValueType

namespace KeyCodec

def frame (key : RawKey) : List UInt8 :=
  Reader.frame key.type.toByte key.size key.data

/-- The frames of keys, as every encoder writes them after the check of the key. -/
theorem write_frame_iff {refused : ε} {key : RawKey} {input : List UInt8} :
    (if validateKey key then .ok (frame key) else .error refused) = Except.ok input ↔
      Reader.IsFrame KeyType.ofByte RawKey.mk validateKey key input := by
  constructor
  · intro h
    split at h
    · rename_i hValid
      cases h
      have hSize := size_eq_of_validateKey hValid
      have hSmall := size_le_of_validateKey hValid
      rw [maxPayloadSize] at hSmall
      refine ⟨key.type.toByte, key.type, key.data, key.type.toByte_lt, by omega,
        KeyType.ofByte_toByte _, ?_, ?_, hValid⟩
      · rw [← hSize]
        rfl
      · rw [← hSize]
    · cases h
  · rintro ⟨tag, type, data, -, -, hType, rfl, rfl, hValid⟩
    rw [if_pos hValid, ← KeyType.toByte_of_ofByte hType]
    rfl

end KeyCodec

namespace ValueCodec

def frame (value : RawValue) : List UInt8 :=
  Reader.frame value.type.toByte value.size value.data

theorem write_frame_iff {refused : ε} {value : RawValue} {input : List UInt8} :
    (if validateValue value then .ok (frame value) else .error refused) = Except.ok input ↔
      Reader.IsFrame ValueType.ofByte RawValue.mk validateValue value input := by
  constructor
  · intro h
    split at h
    · rename_i hValid
      cases h
      have hSize := size_eq_of_validateValue hValid
      have hSmall := size_le_of_validateValue hValid
      rw [maxPayloadSize] at hSmall
      refine ⟨value.type.toByte, value.type, value.data, value.type.toByte_lt, by omega,
        ValueType.ofByte_toByte _, ?_, ?_, hValid⟩
      · rw [← hSize]
        rfl
      · rw [← hSize]
    · cases h
  · rintro ⟨tag, type, data, -, -, hType, rfl, rfl, hValid⟩
    rw [if_pos hValid, ← ValueType.toByte_of_ofByte hType]
    rfl

end ValueCodec

end Stoneleaf
