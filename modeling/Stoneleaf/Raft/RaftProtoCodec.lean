import Stoneleaf.Log.Rebuild
import Stoneleaf.Raft.RaftLogSpec

/-!
The messages that nodes exchange, and how the entries in them are read. A message keeps its fields
as they were sent, so that types arrive as numbers that this build may not know.
-/

namespace Stoneleaf

open RaftEntryCodec

/-- A key on the wire: the type is any number, and there is no size. -/
structure ProtoKey where
  type : UInt32
  data : List UInt8
deriving DecidableEq, Repr

/-- A value on the wire, likewise. -/
structure ProtoValue where
  type : UInt32
  data : List UInt8
deriving DecidableEq, Repr

/-- An operation on the wire. A key that is absent is read as the default one. -/
structure ProtoMutation where
  type : Int
  key : ProtoKey
  value : Option ProtoValue
deriving DecidableEq, Repr

/-- An entry on the wire. Its operations are not checked until it is read. -/
structure ProtoEntry where
  term : UInt64
  idx : UInt64
  operations : List ProtoMutation
deriving DecidableEq, Repr

structure AppendEntriesRequest where
  term : UInt64
  leader : List UInt8
  prevLogIdx : UInt64
  prevLogTerm : UInt64
  entries : List ProtoEntry
  leaderCommitIdx : UInt64
deriving DecidableEq, Repr

structure AppendEntriesResponse where
  term : UInt64
  success : Bool
deriving DecidableEq, Repr

structure RequestVoteRequest where
  term : UInt64
  candidate : List UInt8
  lastLogIdx : UInt64
  lastLogTerm : UInt64
deriving DecidableEq, Repr

structure RequestVoteResponse where
  term : UInt64
  voteGranted : Bool
deriving DecidableEq, Repr

namespace RaftProtoCodec

def mutationUnspecified : Int := 0

def mutationPut : Int := 1

def mutationDelete : Int := 2

/-- `MutationType_IsValid`: the numbers that the enumeration of this build has. -/
def mutationTypeIsValid (type : Int) : Bool :=
  type == mutationUnspecified || type == mutationPut || type == mutationDelete

/-- The size is recomputed and never taken from the wire. -/
def keyFromProto (key : ProtoKey) : Except Exception RawKey :=
  match KeyType.ofByte key.type.toNat with
  | none => .error (.outOfRange "Raft entry carries an unknown KeyType")
  | some type =>
    if key.data.length > 2 ^ 32 - 1 then .error (.lengthError "Raft entry key is too large")
    else
      let decoded : RawKey := ⟨type, key.data.length, key.data⟩
      if KeyCodec.validateKey decoded then .ok decoded
      else .error (.invalidArgument "Raft entry carries an invalid key")

def valueFromProto (value : ProtoValue) : Except Exception RawValue :=
  match ValueType.ofByte value.type.toNat with
  | none => .error (.outOfRange "Raft entry carries an unknown ValueType")
  | some type =>
    if value.data.length > 2 ^ 32 - 1 then .error (.lengthError "Raft entry value is too large")
    else
      let decoded : RawValue := ⟨type, value.data.length, value.data⟩
      if ValueCodec.validateValue decoded then .ok decoded
      else .error (.invalidArgument "Raft entry carries an invalid value")

/-- A value on a delete is ignored. -/
def mutationFromProto (operation : ProtoMutation) : Except Exception MutationOp :=
  if mutationTypeIsValid operation.type = false then
    .error (.outOfRange "Raft entry carries an operation with an unknown type")
  else do
    let key ← keyFromProto operation.key
    if operation.type = mutationPut then
      match operation.value with
      | none => .error (.invalidArgument "Raft entry carries a put with no value")
      | some value => return .put key (← valueFromProto value)
    else if operation.type = mutationDelete then return .delete key
    else .error (.outOfRange "Raft entry carries an operation with an unhandled type")

def entryFromProto (entry : ProtoEntry) : Except Exception RaftMutationEntry := do
  return ⟨entry.term, entry.idx, ← entry.operations.mapM mutationFromProto⟩

/-! ### Sending -/

def keyToProto (key : RawKey) : ProtoKey :=
  ⟨.ofNat key.type.toByte, key.data⟩

def valueToProto (value : RawValue) : ProtoValue :=
  ⟨.ofNat value.type.toByte, value.data⟩

def mutationToProto : MutationOp → ProtoMutation
  | .put key value => ⟨mutationPut, keyToProto key, some (valueToProto value)⟩
  | .delete key => ⟨mutationDelete, keyToProto key, none⟩

def entryToProto (entry : RaftMutationEntry) : ProtoEntry :=
  ⟨entry.term, entry.idx, entry.operations.map mutationToProto⟩

/-- The size that is not sent is recomputed as it was. -/
theorem keyFromProto_keyToProto {key : RawKey} (hValid : KeyCodec.validateKey key = true) :
    keyFromProto (keyToProto key) = .ok key := by
  have hType : (UInt32.ofNat key.type.toByte).toNat = key.type.toByte :=
    UInt32.toNat_ofNat_of_lt' (key.type.toByte_lt.trans (by decide))
  have hSize := KeyCodec.size_eq_of_validateKey hValid
  have hSmall := KeyCodec.size_le_of_validateKey hValid
  have hSame : (⟨key.type, key.data.length, key.data⟩ : RawKey) = key := by rw [← hSize]
  rw [KeyCodec.maxPayloadSize] at hSmall
  unfold keyFromProto keyToProto
  simp only [hType, KeyType.ofByte_toByte, hSame]
  exact Library.guard_eq_ok_iff.2 ⟨by omega, if_pos hValid⟩

theorem valueFromProto_valueToProto {value : RawValue}
    (hValid : ValueCodec.validateValue value = true) :
    valueFromProto (valueToProto value) = .ok value := by
  have hType : (UInt32.ofNat value.type.toByte).toNat = value.type.toByte :=
    UInt32.toNat_ofNat_of_lt' (value.type.toByte_lt.trans (by decide))
  have hSize := ValueCodec.size_eq_of_validateValue hValid
  have hSmall := ValueCodec.size_le_of_validateValue hValid
  have hSame : (⟨value.type, value.data.length, value.data⟩ : RawValue) = value := by rw [← hSize]
  rw [ValueCodec.maxPayloadSize] at hSmall
  unfold valueFromProto valueToProto
  simp only [hType, ValueType.ofByte_toByte, hSame]
  exact Library.guard_eq_ok_iff.2 ⟨by omega, if_pos hValid⟩

variable {bytes : List UInt8}

theorem validateKey_of_writeKey {key : RawKey} (h : writeKey key = .ok bytes) :
    KeyCodec.validateKey key = true := by
  by_contra hInvalid
  simp [writeKey, hInvalid] at h

theorem validateValue_of_writeValue {value : RawValue} (h : writeValue value = .ok bytes) :
    ValueCodec.validateValue value = true := by
  by_contra hInvalid
  simp [writeValue, hInvalid] at h

theorem mutationFromProto_mutationToProto {operation : MutationOp}
    (hWrite : writeOperation operation = .ok bytes) :
    mutationFromProto (mutationToProto operation) = .ok operation := by
  cases operation with
  | put key value =>
    obtain ⟨_, _, hKey, hValue, -⟩ := writeOperation_put_eq_ok_iff.1 hWrite
    have hKeyBack := keyFromProto_keyToProto (validateKey_of_writeKey hKey)
    have hValueBack := valueFromProto_valueToProto (validateValue_of_writeValue hValue)
    simp only [mutationFromProto, mutationToProto, hKeyBack, hValueBack]
    rfl
  | delete key =>
    obtain ⟨_, hKey, -⟩ := writeOperation_delete_eq_ok_iff.1 hWrite
    have hKeyBack := keyFromProto_keyToProto (validateKey_of_writeKey hKey)
    simp only [mutationFromProto, mutationToProto, hKeyBack]
    rfl

theorem mapM_mutationFromProto {operations : List MutationOp} {parts : List UInt8}
    (hWrite : Library.writeAll writeOperation operations = .ok parts) :
    (operations.map mutationToProto).mapM mutationFromProto = .ok operations := by
  induction operations generalizing parts with
  | nil => rfl
  | cons operation operations ih =>
    obtain ⟨first, rest, hFirst, hRest, -⟩ := Library.writeAll_cons_eq_ok_iff.1 hWrite
    rw [List.map_cons, List.mapM_cons, mutationFromProto_mutationToProto hFirst, ih hRest]
    rfl

theorem entryFromProto_entryToProto {entry : RaftMutationEntry}
    (hEncode : encode entry = .ok bytes) :
    entryFromProto (entryToProto entry) = .ok entry := by
  obtain ⟨-, -, _, hParts, -⟩ := encode_eq_ok_iff.1 hEncode
  simp only [entryFromProto, entryToProto, mapM_mutationFromProto hParts]
  rfl

/-- Entries are the same after they were stored and read, and after they were sent and received.
Stored bytes are those of their entry, and a term is read from their beginning alone, unless the
next index of the segment object has run over. -/
theorem entries_survive_encodings :
    (∀ (entry : RaftMutationEntry) (bytes : List UInt8), RaftEntryCodec.encode entry = .ok bytes →
      RaftEntryCodec.decode bytes = .ok entry ∧ entryFromProto (entryToProto entry) = .ok entry ∧
        UInt64.ofNat (Library.ofBigEndian (bytes.take 8)) = entry.term) ∧
    (∀ (bytes : List UInt8) (entry : RaftMutationEntry),
      RaftEntryCodec.decode bytes = .ok entry → RaftEntryCodec.encode entry = .ok bytes) ∧
    (∀ (disk : Disk) (extent : Extent RaftMutationEntry) (index : Nat) (entry : RaftMutationEntry),
      Held raftFormat disk.directory extent → extent.next < 2 ^ 64 → extent.base ≤ index →
      extent.records[index - extent.base]? = some entry →
      RaftSegment.termAt extent.segment.wrapped index disk = .ok entry.term disk) := by
  refine ⟨?_, fun _ _ => RaftEntryCodec.decode_eq_ok_iff.1, ?_⟩
  · intro entry bytes hEncode
    refine ⟨RaftEntryCodec.decode_encode hEncode, entryFromProto_entryToProto hEncode, ?_⟩
    obtain ⟨-, -, parts, -, rfl⟩ := RaftEntryCodec.encode_eq_ok_iff.1 hEncode
    rw [List.take_left' (Library.length_bigEndian 8 _), Library.ofBigEndian_bigEndian,
      Nat.mod_eq_of_lt (show entry.term.toNat < 256 ^ 8 from entry.term.toNat_lt),
      UInt64.ofNat_toNat]
  · intro disk extent index entry hHeld hNext hLow hEntry
    rw [Segment.wrapped_of_lt hNext]
    exact RaftSegment.termAt_spec hHeld hLow hEntry

end RaftProtoCodec

end Stoneleaf
