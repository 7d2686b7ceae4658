import Stoneleaf.Library.Crc
import Stoneleaf.Log.WalRecordCodec
import Stoneleaf.Storage.PageImage

/-!
Detection of damaged pages and records. Both carry a checksum of their own bytes with the checksum
field read as zero. A change of up to four neighbouring bytes, either of the field or of the rest,
leaves the two in disagreement.
-/

namespace Stoneleaf

open WalRecordCodec

open Library Library.Crc List V2PageCodec

/-! ### The checksum as a division -/

theorem toBitVec_crc32cBit (crc : UInt32) :
    (crc32cBit crc).toBitVec = Crc.step 0x82F63B78#32 crc.toBitVec := by
  have hMask : (0x82F63B78 &&& (0 - (crc &&& 1))).toBitVec =
      if crc.toBitVec.getLsbD 0 then 0x82F63B78#32 else 0 := by
    have hBit : (crc &&& 1).toBitVec =
        BitVec.setWidth 32 (BitVec.ofBool (crc.toBitVec.getLsbD 0)) := by
      rw [UInt32.toBitVec_and]
      exact BitVec.and_one_eq_setWidth_ofBool_getLsbD
    rw [UInt32.toBitVec_and, UInt32.toBitVec_sub, hBit]
    cases crc.toBitVec.getLsbD 0 <;> rfl
  rw [crc32cBit, UInt32.toBitVec_xor, hMask]
  rfl

theorem toBitVec_crc32cByte (crc : UInt32) (byte : UInt8) :
    (crc32cByte crc byte).toBitVec = Crc.feed 0x82F63B78#32 crc.toBitVec byte := by
  have hIterate : ∀ n (x : UInt32), (crc32cBit^[n] x).toBitVec =
      (Crc.step 0x82F63B78#32)^[n] x.toBitVec := by
    intro n
    induction n with
    | zero => exact fun _ => rfl
    | succ n ih =>
      intro x
      rw [Function.iterate_succ_apply, ih, toBitVec_crc32cBit]
      rfl
  rw [crc32cByte, hIterate]
  rfl

theorem toBitVec_foldl_crc32cByte (data : List UInt8) (crc : UInt32) :
    (data.foldl crc32cByte crc).toBitVec = Crc.run 0x82F63B78#32 crc.toBitVec data := by
  induction data generalizing crc with
  | nil => rfl
  | cons byte data ih =>
    rw [foldl_cons, ih, toBitVec_crc32cByte]
    rfl

/-- Four neighbouring bytes cannot change without changing the checksum. -/
theorem crc32c_ne {original changed : List UInt8} {start width : Nat} (hWidth : width ≤ 4)
    (h : DiffersWithin original changed start width) : crc32c changed ≠ crc32c original := by
  obtain ⟨front, back, as, bs, rfl, rfl, hLength, hShort, hNe⟩ := h.split
  intro hSame
  have hFold := (UInt32.xor_left_inj _).1 hSame
  have hRun := congrArg UInt32.toBitVec hFold
  rw [toBitVec_foldl_crc32cByte, toBitVec_foldl_crc32cByte] at hRun
  exact run_burst_ne (by decide) hLength (by omega) hNe hRun.symm

/-! ### Bytes that carry their own checksum -/

/-- The bytes with the four of the checksum field read as zero. -/
def unsealed (offset : Nat) (bytes : List UInt8) : List UInt8 :=
  bytes.take offset ++ bigEndian 4 0 ++ bytes.drop (offset + 4)

/-- The checksum field holds the checksum of the rest. -/
def Sealed (offset : Nat) (bytes : List UInt8) : Prop :=
  ofBigEndian ((bytes.drop offset).take 4) = (crc32c (unsealed offset bytes)).toNat

/-- A window of bytes that does not cut the checksum field. -/
def ClearOf (offset start width : Nat) : Prop :=
  (start + width ≤ offset ∨ offset + 4 ≤ start) ∨ (offset ≤ start ∧ start + width ≤ offset + 4)

section Sealed

variable {offset start width : Nat} {original changed : List UInt8}

theorem getElem?_unsealed {bytes : List UInt8} (hSize : offset + 4 ≤ bytes.length) (i : Nat) :
    (unsealed offset bytes)[i]? = if offset ≤ i ∧ i < offset + 4 then some 0 else bytes[i]? := by
  have hFront : (bytes.take offset).length = offset := length_take_of_le (by omega)
  have hZeros : bigEndian 4 0 = List.replicate 4 0 := rfl
  rw [unsealed, append_assoc]
  rcases Nat.lt_or_ge i offset with hLow | hHigh
  · rw [if_neg (by omega), getElem?_append_left (by omega), getElem?_take_of_lt hLow]
  · rw [getElem?_append_right (by omega), hFront]
    rcases Nat.lt_or_ge i (offset + 4) with hIn | hOut
    · rw [if_pos ⟨hHigh, hIn⟩, getElem?_append_left (by simpa using by omega), hZeros,
        getElem?_replicate_of_lt (by omega)]
    · rw [if_neg (by omega), getElem?_append_right (by simpa using by omega),
        getElem?_drop, length_bigEndian]
      congr 1
      omega

theorem length_unsealed {bytes : List UInt8} (hSize : offset + 4 ≤ bytes.length) :
    (unsealed offset bytes).length = bytes.length := by
  simp [unsealed]
  omega

section

variable (h : DiffersWithin original changed start width)
include h

section

variable (hSize : offset + 4 ≤ original.length)
include hSize

/-- A change outside of the field is a change of what the checksum is taken of. -/
theorem differsWithin_unsealed (hOut : start + width ≤ offset ∨ offset + 4 ≤ start) :
    DiffersWithin (unsealed offset original) (unsealed offset changed) start width := by
  have hSize' : offset + 4 ≤ changed.length := by rwa [h.length]
  refine ⟨?_, fun hSame => h.ne ?_, fun i hi => ?_⟩
  · rw [length_unsealed hSize, length_unsealed hSize', h.length]
  · apply ext_getElem?
    intro i
    by_cases hField : offset ≤ i ∧ i < offset + 4
    · exact h.same i (by omega)
    · have hAt := congrArg (fun bytes => bytes[i]?) hSame
      simpa only [getElem?_unsealed hSize, getElem?_unsealed hSize', if_neg hField] using hAt
  · rw [getElem?_unsealed hSize, getElem?_unsealed hSize', h.same i hi]

variable (hIn : offset ≤ start ∧ start + width ≤ offset + 4)
include hIn

/-- A change inside of the field is no change of what the checksum is taken of. -/
theorem unsealed_eq_of_inside : unsealed offset changed = unsealed offset original := by
  have hSize' : offset + 4 ≤ changed.length := by rwa [h.length]
  apply ext_getElem?
  intro i
  rw [getElem?_unsealed hSize, getElem?_unsealed hSize']
  split
  · rfl
  · exact h.same i (by omega)

/-- The field has the bytes of the number it holds. -/
theorem field_ne_of_inside :
    ofBigEndian ((changed.drop offset).take 4) ≠ ofBigEndian ((original.drop offset).take 4) := by
  intro hSame
  have hLength : ∀ bytes : List UInt8, offset + 4 ≤ bytes.length →
      ((bytes.drop offset).take 4).length = 4 := by
    intro bytes hBytes
    rw [length_take, length_drop]
    omega
  have hField : (changed.drop offset).take 4 = (original.drop offset).take 4 := by
    rw [← bigEndian_ofBigEndian ((changed.drop offset).take 4),
      ← bigEndian_ofBigEndian ((original.drop offset).take 4), hSame, hLength _ hSize,
      hLength _ (by rwa [h.length])]
  apply h.ne
  apply ext_getElem?
  intro i
  by_cases hi : offset ≤ i ∧ i < offset + 4
  · have hAt := congrArg (fun bytes => bytes[i - offset]?) hField
    have hLow : i - offset < 4 := by omega
    have hBack : offset + (i - offset) = i := by omega
    simpa only [getElem?_take_of_lt hLow, getElem?_drop, hBack] using hAt
  · exact h.same i (by omega)

end

theorem field_eq_of_outside (hOut : start + width ≤ offset ∨ offset + 4 ≤ start) :
    (changed.drop offset).take 4 = (original.drop offset).take 4 := by
  apply ext_getElem?
  intro i
  simp only [getElem?_take, getElem?_drop]
  split
  · exact h.same _ (by omega)
  · rfl

end

/-- Sealed bytes are no longer sealed after a small change. -/
theorem Sealed.broken (hSealed : Sealed offset original) (hSize : offset + 4 ≤ original.length)
    (h : DiffersWithin original changed start width) (hWidth : width ≤ 4)
    (hClear : ClearOf offset start width) : ¬Sealed offset changed := by
  intro hAgain
  unfold Sealed at hSealed hAgain
  rcases hClear with hOut | hIn
  · rw [field_eq_of_outside h hOut, hSealed] at hAgain
    exact crc32c_ne hWidth (differsWithin_unsealed h hSize hOut) (UInt32.toNat_inj.1 hAgain.symm)
  · rw [unsealed_eq_of_inside h hSize hIn, ← hSealed] at hAgain
    exact field_ne_of_inside h hSize hIn hAgain

end Sealed

theorem V2PageCodec.sealed_of_validate {page : List UInt8}
    (h : validate page = .success) :
    page.length = pageSize ∧ Sealed pageChecksumOffset page := by
  unfold validate at h
  split at h
  · exact absurd h ‹_›
  · rename_i hStructure
    rw [Classical.not_not] at hStructure
    split at h
    · cases h
    · rename_i hSum
      rw [Classical.not_not] at hSum
      refine ⟨?_, ?_⟩
      · by_contra hSize
        rw [validateStructure, if_pos hSize] at hStructure
        cases hStructure
      · have hLt : ofBigEndian ((page.drop pageChecksumOffset).take 4) < 2 ^ 32 := by
          refine (ofBigEndian_lt _).trans_le ?_
          exact Nat.pow_le_pow_right (show 0 < 256 by decide) (length_take_le 4 _)
        have hNat := congrArg UInt32.toNat hSum
        rw [getU32, UInt32.toNat_ofNat_of_lt' hLt] at hNat
        exact hNat

theorem WalRecordCodec.sealed_of_decode {encoded : List UInt8} {record : LogRecord}
    (h : decode encoded = .ok record) :
    headerSize ≤ encoded.length ∧ Sealed checksumOffset encoded := by
  unfold decode at h
  simp only [guard_eq_ok_iff, ne_eq, Classical.not_not, Nat.not_lt] at h
  obtain ⟨hLength, -, -, -, hSum, -⟩ := h
  exact ⟨hLength, hSum⟩

/-- Damage of up to four neighbouring bytes, all of the checksum field or none of it, is found:
a page is not valid and a record does not decode afterwards. -/
theorem small_damage_detected :
    (∀ (page changed : List UInt8) (start width : Nat), V2PageCodec.validate page = .success →
      DiffersWithin page changed start width → width ≤ 4 →
      ClearOf V2PageCodec.pageChecksumOffset start width →
      V2PageCodec.validate changed ≠ .success) ∧
    (∀ (encoded changed : List UInt8) (record : LogRecord) (start width : Nat),
      WalRecordCodec.decode encoded = .ok record →
      DiffersWithin encoded changed start width → width ≤ 4 →
      ClearOf WalRecordCodec.checksumOffset start width →
      ∀ other, WalRecordCodec.decode changed ≠ .ok other) := by
  constructor
  · intro page changed start width hValid hDiffers hWidth hClear hAgain
    obtain ⟨hSize, hSealed⟩ := V2PageCodec.sealed_of_validate hValid
    have hField : V2PageCodec.pageChecksumOffset + 4 ≤ page.length := by
      rw [hSize]
      decide
    exact hSealed.broken hField hDiffers hWidth hClear (V2PageCodec.sealed_of_validate hAgain).2
  · intro encoded changed record start width hDecode hDiffers hWidth hClear other hAgain
    obtain ⟨hSize, hSealed⟩ := WalRecordCodec.sealed_of_decode hDecode
    have hField : WalRecordCodec.checksumOffset + 4 ≤ encoded.length :=
      Nat.le_trans (by decide) hSize
    exact hSealed.broken hField hDiffers hWidth hClear (WalRecordCodec.sealed_of_decode hAgain).2

end Stoneleaf
