import Stoneleaf.Encoding.Crc32c
import Stoneleaf.Library.Codec
import Stoneleaf.Log.SegmentSpec

/-!
The bytes of a write-ahead log record: a header of forty bytes with a checksum, and the payload.
At this level a payload is a string of bytes. The fields of a record are 64-bit words.
-/

namespace Stoneleaf

open Library List

inductive WalRecordType where
  | txnBegin
  | btreeAction
  | compensation
  | systemAction
  | txnCommit
  | txnAbort
  | txnEnd
deriving DecidableEq, Repr

namespace WalRecordType

def toCode : WalRecordType → Nat
  | txnBegin => 1
  | btreeAction => 2
  | compensation => 3
  | systemAction => 4
  | txnCommit => 5
  | txnAbort => 6
  | txnEnd => 7

def ofCode : Nat → Option WalRecordType
  | 1 => some txnBegin
  | 2 => some btreeAction
  | 3 => some compensation
  | 4 => some systemAction
  | 5 => some txnCommit
  | 6 => some txnAbort
  | 7 => some txnEnd
  | _ => none

@[simp] theorem ofCode_toCode (type : WalRecordType) : ofCode type.toCode = some type := by
  cases type <;> rfl

theorem toCode_of_ofCode {code : Nat} {type : WalRecordType} (h : ofCode code = some type) :
    type.toCode = code := by
  unfold ofCode at h
  split at h <;> cases h <;> rfl

theorem toCode_lt (type : WalRecordType) : type.toCode < 256 ^ 2 := by
  cases type <;> decide

end WalRecordType

/-- A record as it is passed to the log, before it has a number. -/
structure PendingLogRecord where
  type : WalRecordType
  transactionId : UInt64
  prevLsn : UInt64
  data : List UInt8
deriving DecidableEq

/-- A record of the log, with its payload still encoded. -/
structure LogRecord where
  lsn : UInt64
  type : WalRecordType
  transactionId : UInt64
  prevLsn : UInt64
  data : List UInt8
deriving DecidableEq

namespace WalRecordCodec

def headerSize : Nat := 40

def formatVersion : Nat := 1

def checksumOffset : Nat := 12

/-- The letters `SLWL`. -/
def walMagic : List UInt8 :=
  [0x53, 0x4C, 0x57, 0x4C]

/-- The rules that tie the fields of a record together. Encoding and decoding throw different
exceptions with the same texts. -/
def validateFields (throws : String → Exception) (record : LogRecord) : Except Exception Unit :=
  if record.lsn = 0 then .error (throws "WAL record LSN zero is reserved for none")
  else if record.type = .systemAction then
    if record.transactionId ≠ 0 ∨ record.prevLsn ≠ 0 then
      .error (throws "System action must not belong to a transaction")
    else .ok ()
  else if record.transactionId = 0 then
    .error (throws "Transactional WAL record requires a transaction ID")
  else if record.type = .txnBegin then
    if record.prevLsn ≠ 0 then .error (throws "Transaction begin must have prevLSN zero")
    else .ok ()
  else if record.prevLsn = 0 then
    .error (throws "Transactional WAL record requires a nonzero prevLSN")
  else .ok ()

/-- The bytes of a record around a given checksum. -/
def bytes (record : LogRecord) (checksum : Nat) : List UInt8 :=
  walMagic ++ (bigEndian 2 formatVersion ++ (bigEndian 2 record.type.toCode ++
    (bigEndian 4 (headerSize + record.data.length) ++ (bigEndian 4 checksum ++
      (bigEndian 8 record.lsn.toNat ++ (bigEndian 8 record.transactionId.toNat ++
        (bigEndian 8 record.prevLsn.toNat ++ record.data)))))))

/-- The checksum of an encoded record is that of its bytes with a zero checksum field. -/
def recordChecksum (encoded : List UInt8) : Nat :=
  (crc32c (encoded.take checksumOffset ++ bigEndian 4 0 ++ encoded.drop (checksumOffset + 4))).toNat

def encode (record : LogRecord) : Except Exception (List UInt8) := do
  validateFields .invalidArgument record
  if record.data.length > 2 ^ 32 - 1 - headerSize then
    .error (.invalidArgument "WAL record is too large")
  return bytes record (recordChecksum (bytes record 0))

/-- The number in a field of the header. -/
def field (encoded : List UInt8) (offset width : Nat) : Nat :=
  ofBigEndian ((encoded.drop offset).take width)

def decode (encoded : List UInt8) : Except Exception LogRecord :=
  if encoded.length < headerSize then .error (.runtimeError "Encoded WAL record is truncated")
  else if encoded.take 4 ≠ walMagic then
    .error (.runtimeError "Encoded WAL record has invalid magic")
  else if field encoded 4 2 ≠ formatVersion then
    .error (.runtimeError "Encoded WAL record has unsupported version")
  else if field encoded 8 4 ≠ encoded.length then
    .error (.runtimeError "Encoded WAL record size disagrees with framing")
  else if field encoded checksumOffset 4 ≠ recordChecksum encoded then
    .error (.runtimeError "Encoded WAL record checksum mismatch")
  else if field encoded 16 8 = 0 then
    .error (.runtimeError "WAL record LSN zero is reserved for none")
  else
    match WalRecordType.ofCode (field encoded 6 2) with
    | none => .error (.runtimeError "WAL record type is unknown")
    | some type => do
      let record : LogRecord := {
        lsn := .ofNat (field encoded 16 8)
        type := type
        transactionId := .ofNat (field encoded 24 8)
        prevLsn := .ofNat (field encoded 32 8)
        data := encoded.drop headerSize }
      validateFields .runtimeError record
      return record

section RoundTrip

variable (record : LogRecord) (checksum : Nat) {encoded : List UInt8}

theorem field_append (before after : List UInt8) (width n : Nat) :
    field (before ++ (bigEndian width n ++ after)) before.length width = n % 256 ^ width := by
  rw [field, drop_left, take_left' (length_bigEndian width n), ofBigEndian_bigEndian]

@[simp] theorem length_bytes :
    (bytes record checksum).length = headerSize + record.data.length := by
  simp [bytes, walMagic, headerSize]
  omega

/-- Each number of the header is read back from where it was written. -/
theorem field_bytes :
    field (bytes record checksum) 4 2 = formatVersion ∧
      field (bytes record checksum) 6 2 = record.type.toCode ∧
      field (bytes record checksum) 8 4 = (headerSize + record.data.length) % 256 ^ 4 ∧
      field (bytes record checksum) checksumOffset 4 = checksum % 256 ^ 4 ∧
      field (bytes record checksum) 16 8 = record.lsn.toNat ∧
      field (bytes record checksum) 24 8 = record.transactionId.toNat ∧
      field (bytes record checksum) 32 8 = record.prevLsn.toNat := by
  have hWord : ∀ word : UInt64, word.toNat % 256 ^ 8 = word.toNat := fun word =>
    Nat.mod_eq_of_lt word.toNat_lt
  let version := walMagic ++ bigEndian 2 formatVersion
  let type := version ++ bigEndian 2 record.type.toCode
  let size := type ++ bigEndian 4 (headerSize + record.data.length)
  let sum := size ++ bigEndian 4 checksum
  let lsn := sum ++ bigEndian 8 record.lsn.toNat
  let transaction := lsn ++ bigEndian 8 record.transactionId.toNat
  refine ⟨field_append walMagic _ 2 _, ?_, field_append type _ 4 _, field_append size _ 4 _, ?_,
    ?_, ?_⟩
  · exact (field_append version _ 2 _).trans (Nat.mod_eq_of_lt record.type.toCode_lt)
  · exact (field_append sum _ 8 _).trans (hWord _)
  · exact (field_append lsn _ 8 _).trans (hWord _)
  · exact (field_append transaction _ 8 _).trans (hWord _)

theorem drop_bytes : (bytes record checksum).drop headerSize = record.data := by
  rfl

/-- The checksum field does not enter the checksum. -/
theorem recordChecksum_bytes :
    recordChecksum (bytes record checksum) = recordChecksum (bytes record 0) :=
  rfl

theorem recordChecksum_lt (encoded : List UInt8) : recordChecksum encoded < 256 ^ 4 :=
  (crc32c _).toNat_lt

theorem validateFields_ok_iff (f g : String → Exception) :
    validateFields f record = .ok () ↔ validateFields g record = .ok () := by
  unfold validateFields
  split_ifs <;> simp

theorem lsn_ne_zero_of_validateFields {throws : String → Exception}
    (h : validateFields throws record = .ok ()) : record.lsn ≠ 0 := by
  intro hZero
  rw [validateFields, if_pos hZero] at h
  cases h

theorem encode_eq_ok_iff :
    encode record = .ok encoded ↔ validateFields .invalidArgument record = .ok () ∧
      record.data.length ≤ 2 ^ 32 - 1 - headerSize ∧
        encoded = bytes record (recordChecksum (bytes record 0)) := by
  unfold encode
  cases hValid : validateFields .invalidArgument record with
  | error e => simp [bind, Except.bind]
  | ok =>
    by_cases hLarge : record.data.length > 2 ^ 32 - 1 - headerSize
    · simp only [bind, Except.bind, if_pos hLarge]
      constructor
      · intro h
        cases h
      · intro h
        omega
    · simp only [bind, Except.bind, if_neg hLarge, pure, Except.pure, true_and, Except.ok.injEq]
      exact ⟨fun h => ⟨Nat.le_of_not_gt hLarge, h.symm⟩, fun h => h.2.symm⟩

theorem decode_encode (h : encode record = .ok encoded) :
    decode encoded = .ok record := by
  obtain ⟨hValid, hSize, rfl⟩ := (encode_eq_ok_iff record).1 h
  obtain ⟨hVersion, hType, hLength, hSum, hLsn, hTransaction, hPrev⟩ :=
    field_bytes record (recordChecksum (bytes record 0))
  have hLsnPos : record.lsn.toNat ≠ 0 := fun hZero =>
    lsn_ne_zero_of_validateFields record hValid (UInt64.toNat_inj.1 hZero)
  rw [Nat.mod_eq_of_lt (recordChecksum_lt _)] at hSum
  rw [headerSize] at hSize
  have hFits : (headerSize + record.data.length) % 256 ^ 4 = headerSize + record.data.length :=
    Nat.mod_eq_of_lt (by rw [headerSize]; omega)
  unfold decode
  rw [length_bytes, if_neg (by omega), if_neg (fun hMagic => hMagic rfl), hVersion,
    if_neg (fun hNe => hNe rfl), hLength, hFits, if_neg (fun hNe => hNe rfl), hSum,
    recordChecksum_bytes, if_neg (fun hNe => hNe rfl), hLsn, if_neg hLsnPos, hType,
    WalRecordType.ofCode_toCode]
  simp only [hTransaction, hPrev, drop_bytes, UInt64.ofNat_toNat]
  rw [(validateFields_ok_iff record _ _).1 hValid]
  rfl

end RoundTrip

section Canonical

variable {encoded : List UInt8} {record : LogRecord}

theorem field_lt (encoded : List UInt8) (offset width : Nat) :
    field encoded offset width < 256 ^ width := by
  refine (ofBigEndian_lt _).trans_le (Nat.pow_le_pow_right (by decide) ?_)
  exact (length_take_le _ _)

/-- A field is written where it was read. -/
theorem drop_eq_field {offset width : Nat} (hEnd : offset + width ≤ encoded.length) :
    encoded.drop offset =
      bigEndian width (field encoded offset width) ++ encoded.drop (offset + width) := by
  have hLength : ((encoded.drop offset).take width).length = width := by
    rw [length_take, length_drop]
    omega
  have hField := bigEndian_ofBigEndian ((encoded.drop offset).take width)
  rw [hLength] at hField
  rw [field, hField, ← drop_drop, take_append_drop]

/-- An encoding is its magic, its fields and its payload. -/
theorem eq_fields (hLength : headerSize ≤ encoded.length) (hMagic : encoded.take 4 = walMagic) :
    encoded = walMagic ++ (bigEndian 2 (field encoded 4 2) ++ (bigEndian 2 (field encoded 6 2) ++
      (bigEndian 4 (field encoded 8 4) ++ (bigEndian 4 (field encoded checksumOffset 4) ++
        (bigEndian 8 (field encoded 16 8) ++ (bigEndian 8 (field encoded 24 8) ++
          (bigEndian 8 (field encoded 32 8) ++ encoded.drop headerSize))))))) := by
  rw [headerSize] at hLength
  have hSplit := (take_append_drop 4 encoded).symm
  rw [hMagic, drop_eq_field (show 4 + 2 ≤ encoded.length by omega),
    drop_eq_field (show 6 + 2 ≤ encoded.length by omega),
    drop_eq_field (show 8 + 4 ≤ encoded.length by omega),
    drop_eq_field (show 12 + 4 ≤ encoded.length by omega),
    drop_eq_field (show 16 + 8 ≤ encoded.length by omega),
    drop_eq_field (show 24 + 8 ≤ encoded.length by omega),
    drop_eq_field (show 32 + 8 ≤ encoded.length by omega)] at hSplit
  exact hSplit

/-- The bytes of a record are the only ones that decode to it. -/
theorem encode_decode (h : decode encoded = .ok record) : encode record = .ok encoded := by
  unfold decode at h
  simp only [guard_eq_ok_iff, ne_eq, Classical.not_not, Nat.not_lt] at h
  obtain ⟨hLength, hMagic, hVersion, hSize, hSum, -, h⟩ := h
  cases hType : WalRecordType.ofCode (field encoded 6 2) with
  | none => simp [hType] at h
  | some type =>
    simp only [hType, bind_eq_ok_iff] at h
    obtain ⟨_, hValid, hRecord⟩ := h
    have hWord : ∀ offset, (UInt64.ofNat (field encoded offset 8)).toNat =
        field encoded offset 8 := fun offset => UInt64.toNat_ofNat_of_lt' (field_lt encoded _ 8)
    have hBytes : encoded = bytes record (field encoded checksumOffset 4) := by
      have hFields := eq_fields hLength hMagic
      rw [hVersion, ← WalRecordType.toCode_of_ofCode hType, hSize] at hFields
      cases hRecord
      simp only [bytes, hWord, length_drop, Nat.add_sub_cancel' hLength]
      exact hFields
    have hSame : recordChecksum encoded = recordChecksum (bytes record 0) := by
      rw [hBytes, recordChecksum_bytes]
    have hSmall := field_lt encoded 8 4
    have hData : headerSize + record.data.length = encoded.length := by
      rw [hBytes, length_bytes]
    rw [headerSize] at hData hLength
    refine (encode_eq_ok_iff record).2 ⟨?_, ?_, ?_⟩
    · cases hRecord
      exact (validateFields_ok_iff _ _ _).1 hValid
    · rw [headerSize]
      omega
    · rw [← hSame, ← hSum]
      exact hBytes

end Canonical

end WalRecordCodec

/-- The records of the write-ahead log, as its segments see them. -/
def walFormat : RecordFormat LogRecord where
  encode := WalRecordCodec.encode
  decode := WalRecordCodec.decode
  number record := record.lsn.toNat
  texts := {
    wrongNumber := "WAL record LSN must equal Segment next_lsn"
    ordinalTooLarge := "Segment relative LSN exceeds the Index representation"
    outsideSegment := "Absolute LSN is outside this Segment"
    wrongRecordRead := "Index entry points to a Store record with a different LSN"
    corruptIndex := "Index contains a corrupt complete entry"
    wrongIndexEntry := "Index entry does not identify the expected Store record"
    notDense := "Store records do not form a dense absolute-LSN sequence"
    tooManyRecords := "Segment contains more records than its Index can represent"
    countDisagrees := "Store framing count disagrees with recovered WAL records" }

theorem walFormat_lawful : walFormat.Lawful :=
  ⟨fun record _ h => WalRecordCodec.decode_encode record h⟩

end Stoneleaf
