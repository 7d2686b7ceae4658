import Stoneleaf.Encoding.Frames
import Stoneleaf.Library.Codec
import Stoneleaf.Log.SegmentSpec

/-!
Entries of the replicated log and their bytes. An operation carries its kind, so that a kind
never disagrees with its payload. Keys and values are those of the source before validation;
encoding and decoding validate them.
-/

namespace Stoneleaf

open Library List

inductive MutationOp where
  | put (key : RawKey) (value : RawValue)
  | delete (key : RawKey)
deriving DecidableEq, Repr

structure RaftMutationEntry where
  term : UInt64
  idx : UInt64
  operations : List MutationOp
deriving DecidableEq, Repr

namespace RaftEntryCodec

/-- The smallest encoding of an operation. -/
def minimumOperationSize : Nat := 1 + 1 + 4

/-- The checks of `validate_header`, which throw one kind of exception for each direction. -/
def validateHeader (throws : String → Exception) (term idx : UInt64) : Except Exception Unit :=
  if term = 0 then .error (throws "Raft entry term zero is invalid")
  else if idx = 0 then .error (throws "Raft entry index zero is reserved for none")
  else .ok ()

section Write

def writeKey (key : RawKey) : Except Exception (List UInt8) :=
  if KeyCodec.validateKey key then .ok (KeyCodec.frame key)
  else .error (.invalidArgument "Raft mutation contains an invalid key")

def writeValue (value : RawValue) : Except Exception (List UInt8) :=
  if ValueCodec.validateValue value then .ok (ValueCodec.frame value)
  else .error (.invalidArgument "Raft put contains an invalid value")

def writeOperation : MutationOp → Except Exception (List UInt8)
  | .put key value => do
    let keyPart ← writeKey key
    let valuePart ← writeValue value
    return bigEndian 1 0 ++ (keyPart ++ valuePart)
  | .delete key => do
    let keyPart ← writeKey key
    return bigEndian 1 1 ++ keyPart

def encode (entry : RaftMutationEntry) : Except Exception (List UInt8) := do
  validateHeader .invalidArgument entry.term entry.idx
  if entry.operations.length > 2 ^ 32 - 1 then
    .error (.invalidArgument "Raft entry contains too many mutations")
  let parts ← entry.operations.mapM writeOperation
  return bigEndian 8 entry.term.toNat ++ (bigEndian 8 entry.idx.toNat ++
    (bigEndian 4 entry.operations.length ++ parts.flatten))

end Write

section Read

def truncated : Exception :=
  .runtimeError "Raft entry is truncated"

def readKey : Reader Exception RawKey :=
  Reader.readFrame KeyType.ofByte RawKey.mk KeyCodec.validateKey truncated
    (.runtimeError "Raft entry contains an invalid key")

def readValue : Reader Exception RawValue :=
  Reader.readFrame ValueType.ofByte RawValue.mk ValueCodec.validateValue truncated
    (.runtimeError "Raft entry contains an invalid value")

def readOperation : Reader Exception MutationOp := do
  let type ← Reader.number truncated 1
  if type = 0 then
    let key ← readKey
    let value ← readValue
    return .put key value
  else if type = 1 then
    let key ← readKey
    return .delete key
  else Reader.ofExcept (.error (.runtimeError "Raft entry contains an unknown mutation type"))

def readEntry : Reader Exception RaftMutationEntry := do
  let term ← Reader.number truncated 8
  let idx ← Reader.number truncated 8
  Reader.ofExcept (validateHeader .runtimeError (.ofNat term) (.ofNat idx))
  let operationCount ← Reader.number truncated 4
  let remaining ← Reader.remaining
  if operationCount > remaining / minimumOperationSize then
    Reader.ofExcept (.error (.runtimeError "Raft mutation count exceeds entry size"))
  else
    let operations ← Reader.times operationCount readOperation
    return ⟨.ofNat term, .ofNat idx, operations⟩

def decode (encoded : List UInt8) : Except Exception RaftMutationEntry :=
  readEntry.runAll (.runtimeError "Raft entry has trailing bytes") encoded

end Read

section RoundTrip

open Reader

variable {bytes : List UInt8} {entry : RaftMutationEntry} {key : RawKey}

theorem validateHeader_ok_iff (f g : String → Exception) {term idx : UInt64} :
    validateHeader f term idx = .ok () ↔ validateHeader g term idx = .ok () := by
  unfold validateHeader
  split_ifs <;> simp

theorem inverts_readKey : readKey.Inverts writeKey :=
  inverts_readFrame KeyCodec.write_frame_iff _ _

theorem inverts_readValue : readValue.Inverts writeValue :=
  inverts_readFrame ValueCodec.write_frame_iff _ _

theorem length_writeKey (hWrite : writeKey key = .ok bytes) : 5 ≤ bytes.length := by
  unfold writeKey at hWrite
  split at hWrite
  · cases hWrite
    simp [KeyCodec.frame, Reader.frame]
    omega
  · cases hWrite

theorem writeOperation_put_eq_ok_iff {value : RawValue} :
    writeOperation (.put key value) = .ok bytes ↔ ∃ keyPart valuePart,
      writeKey key = .ok keyPart ∧ writeValue value = .ok valuePart ∧
        bytes = bigEndian 1 0 ++ (keyPart ++ valuePart) := by
  simp only [writeOperation, bind_eq_ok_iff]
  constructor
  · rintro ⟨keyPart, hKey, valuePart, hValue, hJoin⟩
    exact ⟨keyPart, valuePart, hKey, hValue, (Except.ok.inj hJoin).symm⟩
  · rintro ⟨keyPart, valuePart, hKey, hValue, rfl⟩
    exact ⟨keyPart, hKey, valuePart, hValue, rfl⟩

theorem writeOperation_delete_eq_ok_iff :
    writeOperation (.delete key) = .ok bytes ↔ ∃ keyPart,
      writeKey key = .ok keyPart ∧ bytes = bigEndian 1 1 ++ keyPart := by
  simp only [writeOperation, bind_eq_ok_iff]
  exact exists_congr fun keyPart => and_congr_right fun _ =>
    ⟨fun h => (Except.ok.inj h).symm, fun h => h ▸ rfl⟩

theorem inverts_readOperation : readOperation.Inverts writeOperation where
  reads {operation bytes} hWrite := by
    cases operation with
    | put key value =>
      obtain ⟨keyPart, valuePart, hKey, hValue, rfl⟩ := writeOperation_put_eq_ok_iff.1 hWrite
      refine (Reads.number _ (by decide)).bind ?_
      rw [if_pos rfl]
      exact (inverts_readKey.reads hKey).bind ((inverts_readValue.reads hValue).map _)
    | delete key =>
      obtain ⟨keyPart, hKey, rfl⟩ := writeOperation_delete_eq_ok_iff.1 hWrite
      refine (Reads.number _ (by decide)).bind ?_
      rw [if_neg (by decide), if_pos rfl]
      exact (inverts_readKey.reads hKey).map _
  consumes := by
    refine (Consumes.number truncated 1).bind fun type _ hType => ?_
    obtain ⟨rfl, -⟩ := hType
    split
    · rename_i hPut
      subst hPut
      refine inverts_readKey.consumes.bind fun key keyPart hKey =>
        inverts_readValue.consumes.bind fun value valuePart hValue => Consumes.pure ?_
      rw [append_nil]
      exact writeOperation_put_eq_ok_iff.2 ⟨keyPart, valuePart, hKey, hValue, rfl⟩
    · split
      · rename_i hDelete
        subst hDelete
        refine inverts_readKey.consumes.bind fun key keyPart hKey => Consumes.pure ?_
        rw [append_nil]
        exact writeOperation_delete_eq_ok_iff.2 ⟨keyPart, hKey, rfl⟩
      · exact Consumes.ofExcept fun _ h => by cases h

theorem length_writeOperation {operation : MutationOp}
    (hWrite : writeOperation operation = .ok bytes) : minimumOperationSize ≤ bytes.length := by
  cases operation with
  | put key value =>
    obtain ⟨keyPart, valuePart, hKey, -, rfl⟩ := writeOperation_put_eq_ok_iff.1 hWrite
    have hLength := length_writeKey hKey
    simp only [minimumOperationSize, length_append, length_bigEndian]
    omega
  | delete key =>
    obtain ⟨keyPart, hKey, rfl⟩ := writeOperation_delete_eq_ok_iff.1 hWrite
    have hLength := length_writeKey hKey
    simp only [minimumOperationSize, length_append, length_bigEndian]
    omega

theorem encode_eq_ok_iff :
    encode entry = .ok bytes ↔ validateHeader .invalidArgument entry.term entry.idx = .ok () ∧
      entry.operations.length ≤ 2 ^ 32 - 1 ∧ ∃ parts,
        writeAll writeOperation entry.operations = .ok parts ∧
        bytes = bigEndian 8 entry.term.toNat ++ (bigEndian 8 entry.idx.toNat ++
          (bigEndian 4 entry.operations.length ++ parts)) := by
  unfold encode writeAll
  rw [bind_eq_ok_iff]
  constructor
  · rintro ⟨⟨⟩, hHeader, hRest⟩
    obtain ⟨hCount, hRest⟩ := guard_eq_ok_iff.1 hRest
    obtain ⟨parts, hParts, hBytes⟩ := bind_eq_ok_iff.1 hRest
    exact ⟨hHeader, Nat.not_lt.1 hCount, _, bind_eq_ok_iff.2 ⟨parts, hParts, rfl⟩,
      (Except.ok.inj hBytes).symm⟩
  · rintro ⟨hHeader, hCount, _, hJoined, rfl⟩
    obtain ⟨parts, hParts, hFlatten⟩ := bind_eq_ok_iff.1 hJoined
    cases hFlatten
    exact ⟨(), hHeader, guard_eq_ok_iff.2 ⟨Nat.not_lt.2 hCount,
      bind_eq_ok_iff.2 ⟨parts, hParts, rfl⟩⟩⟩

theorem inverts_readEntry : readEntry.Inverts encode where
  reads {entry bytes} hWrite := by
    obtain ⟨hHeader, hCount, parts, hParts, rfl⟩ := encode_eq_ok_iff.1 hWrite
    have hSize := le_length_writeAll length_writeOperation hParts
    have hWord : ∀ word : UInt64, word.toNat < 256 ^ 8 := fun word => word.toNat_lt
    refine (Reads.number _ (hWord _)).bind ((Reads.number _ (hWord _)).bind ?_)
    rw [UInt64.ofNat_toNat, UInt64.ofNat_toNat]
    refine (Reads.ofExcept ((validateHeader_ok_iff _ _).1 hHeader)).bind_nil
      ((Reads.number _ (by omega)).bind ?_)
    refine Reads.bind_remaining fun more => ?_
    rw [if_neg]
    · exact (inverts_readOperation.reads_times hParts).map _
    · rw [Nat.not_lt, Nat.le_div_iff_mul_le (by decide)]
      omega
  consumes := by
    refine (Consumes.number truncated 8).bind fun term _ hTerm =>
      (Consumes.number truncated 8).bind fun idx _ hIdx => ?_
    obtain ⟨rfl, hTermLt⟩ := hTerm
    obtain ⟨rfl, hIdxLt⟩ := hIdx
    refine (Consumes.ofExcept (R := fun _ used => used = [] ∧
      validateHeader .runtimeError (.ofNat term) (.ofNat idx) = .ok ()) fun _ h => ⟨rfl, h⟩).bind
        fun _ _ hHeader => (Consumes.number truncated 4).bind fun count _ hCount =>
          (Consumes.remaining (R := fun _ used => used = []) fun _ => rfl).bind
            fun remaining _ hRemaining => ?_
    obtain ⟨rfl, hHeader⟩ := hHeader
    obtain ⟨rfl, hCountLt⟩ := hCount
    cases hRemaining
    split
    · exact Consumes.ofExcept fun _ h => by cases h
    · refine (inverts_readOperation.consumes_times count).bind fun operations parts h =>
        Consumes.pure (encode_eq_ok_iff.2 ?_)
      obtain ⟨rfl, hParts⟩ := h
      refine ⟨(validateHeader_ok_iff _ _).1 hHeader, Nat.le_of_lt_succ hCountLt, parts, hParts, ?_⟩
      rw [UInt64.toNat_ofNat_of_lt' hTermLt, UInt64.toNat_ofNat_of_lt' hIdxLt]
      simp only [append_nil, nil_append]

theorem decode_eq_ok_iff :
    decode bytes = .ok entry ↔ encode entry = .ok bytes :=
  inverts_readEntry.runAll_iff _

theorem decode_encode (hEncode : encode entry = .ok bytes) :
    decode bytes = .ok entry :=
  decode_eq_ok_iff.2 hEncode

end RoundTrip

end RaftEntryCodec

/-- The records of the replicated log. -/
def raftFormat : RecordFormat RaftMutationEntry where
  encode := RaftEntryCodec.encode
  decode := RaftEntryCodec.decode
  number := fun entry => entry.idx.toNat
  texts :=
    { wrongNumber := "Raft entry index must equal segment next index"
      ordinalTooLarge := "Raft segment exceeds the Index representation"
      outsideSegment := "Raft index is outside this segment"
      wrongRecordRead := "Raft Index points to an entry with a different index"
      corruptIndex := "Raft Index contains a corrupt complete entry"
      wrongIndexEntry := "Raft Index does not identify the expected Store entry"
      notDense := "Raft Store entries are not a dense index sequence"
      tooManyRecords := "Raft segment exceeds the Index representation"
      countDisagrees := "Raft Store framing count disagrees with decoded entries" }

theorem raftFormat_lawful : raftFormat.Lawful :=
  ⟨fun _ _ hEncode => RaftEntryCodec.decode_encode hEncode⟩

end Stoneleaf
