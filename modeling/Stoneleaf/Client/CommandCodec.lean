import Stoneleaf.Encoding.Frames
import Stoneleaf.Library.Codec
import Stoneleaf.Storage.Disk

/-!
Commands of clients and the packets they travel in. A packet has a size, two operator bytes and
the operands, each with a size of its own around the frame of a key or a value.
-/

namespace Stoneleaf

open Library List EnumCode ValueCodec

namespace NetCodec

def headerSize : Nat := 5

/-- What the two kinds of frames are called in errors. -/
structure FrameTexts where
  small : String
  mismatch : String
  unknown : String
  invalid : String

def keyTexts : FrameTexts where
  small := "Key buffer is smaller than its header"
  mismatch := "Key payload size does not match buffer size"
  unknown := "Unknown network key type"
  invalid := "Network bytes contain an invalid key"

def valueTexts : FrameTexts where
  small := "Value buffer is smaller than its header"
  mismatch := "Value payload size does not match buffer size"
  unknown := "Unknown network value type"
  invalid := "Network bytes contain an invalid value"

/-- The common body of `deserialize_key` and `deserialize_value`: one type byte, four bytes of
size and as many bytes of payload. -/
def deserializeFrame {τ α : Type} (texts : FrameTexts) (ofByte : Nat → Option τ)
    (make : τ → Nat → List UInt8 → α) (valid : α → Bool) (buffer : List UInt8) :
    Except Exception α :=
  let hostPayloadSize := ofBigEndian ((buffer.drop 1).take 4)
  if buffer.length < headerSize then .error (.runtimeError texts.small)
  else if hostPayloadSize ≠ buffer.length - headerSize then .error (.runtimeError texts.mismatch)
  else
    match ofByte (ofBigEndian (buffer.take 1)) with
    | none => .error (.runtimeError texts.unknown)
    | some type =>
      if valid (make type hostPayloadSize (buffer.drop headerSize)) then
        .ok (make type hostPayloadSize (buffer.drop headerSize))
      else .error (.runtimeError texts.invalid)

def serializeKey (key : RawKey) : Except Exception (List UInt8) :=
  if KeyCodec.validateKey key then .ok (KeyCodec.frame key)
  else .error (.invalidArgument "Cannot serialize invalid key")

def deserializeKey (buffer : List UInt8) : Except Exception RawKey :=
  deserializeFrame keyTexts KeyType.ofByte RawKey.mk KeyCodec.validateKey buffer

def serializeValue (value : RawValue) : Except Exception (List UInt8) :=
  if ValueCodec.validateValue value then .ok (ValueCodec.frame value)
  else .error (.invalidArgument "Cannot serialize invalid value")

def deserializeValue (buffer : List UInt8) : Except Exception RawValue :=
  deserializeFrame valueTexts ValueType.ofByte RawValue.mk ValueCodec.validateValue buffer

variable {buffer : List UInt8}

/-- A buffer of at least five bytes is a frame with some type and size. -/
theorem eq_frame (hLength : headerSize ≤ buffer.length) :
    buffer = Reader.frame (ofBigEndian (buffer.take 1)) (ofBigEndian ((buffer.drop 1).take 4))
      (buffer.drop headerSize) := by
  rw [headerSize] at hLength
  have hType := bigEndian_ofBigEndian (buffer.take 1)
  have hSize := bigEndian_ofBigEndian ((buffer.drop 1).take 4)
  rw [length_take_of_le (by omega)] at hType
  rw [length_take_of_le (by rw [length_drop]; omega)] at hSize
  rw [Reader.frame, hType, hSize, headerSize, ← drop_drop (i := 4) (j := 1),
    take_append_drop, take_append_drop]

theorem frame_parts {tag size : Nat} {data : List UInt8} (hTag : tag < 256)
    (hSize : size < 2 ^ 32) :
    ofBigEndian ((Reader.frame tag size data).take 1) = tag ∧
      ofBigEndian (((Reader.frame tag size data).drop 1).take 4) = size ∧
      (Reader.frame tag size data).drop headerSize = data ∧
      (Reader.frame tag size data).length = headerSize + data.length := by
  refine ⟨?_, ?_, rfl, ?_⟩
  · rw [Reader.frame, take_left' (length_bigEndian 1 tag), ofBigEndian_bigEndian]
    exact Nat.mod_eq_of_lt hTag
  · rw [Reader.frame, drop_left' (length_bigEndian 1 tag),
      take_left' (length_bigEndian 4 size), ofBigEndian_bigEndian]
    exact Nat.mod_eq_of_lt hSize
  · simp [Reader.frame, headerSize]
    omega

/-- A frame is accepted exactly if it is the frame of a valid key or value. -/
theorem deserializeFrame_eq_ok_iff {τ α : Type} {texts : FrameTexts} {ofByte : Nat → Option τ}
    {make : τ → Nat → List UInt8 → α} {valid : α → Bool} {a : α} :
    deserializeFrame texts ofByte make valid buffer = .ok a ↔
      Reader.IsFrame ofByte make valid a buffer := by
  unfold deserializeFrame
  simp only [guard_eq_ok_iff, ne_eq, Classical.not_not, Nat.not_lt]
  constructor
  · rintro ⟨hLength, hSize, hRest⟩
    have hBuffer := eq_frame hLength
    have hTag := ofBigEndian_lt (buffer.take 1)
    have hWord := ofBigEndian_lt ((buffer.drop 1).take 4)
    have hData : (buffer.drop headerSize).length = ofBigEndian ((buffer.drop 1).take 4) := by
      rw [length_drop, hSize]
    rw [headerSize] at hLength
    rw [length_take_of_le (by omega)] at hTag
    rw [length_take_of_le (by rw [length_drop]; omega)] at hWord
    cases hType : ofByte (ofBigEndian (buffer.take 1)) with
    | none => simp [hType] at hRest
    | some type =>
      simp only [hType] at hRest
      split at hRest
      · rename_i hValid
        cases hRest
        refine ⟨_, type, buffer.drop headerSize, hTag, by rwa [hData], hType, ?_, ?_, hValid⟩
        · rw [hData]
          exact hBuffer
        · rw [hData]
      · cases hRest
  · rintro ⟨tag, type, data, hTag, hSize, hType, rfl, rfl, hValid⟩
    obtain ⟨hTagBack, hSizeBack, hDataBack, hLength⟩ := @frame_parts tag data.length data hTag hSize
    rw [hTagBack, hSizeBack, hDataBack, hLength, hType]
    exact ⟨Nat.le_add_right _ _, (Nat.add_sub_cancel_left _ _).symm, if_pos hValid⟩

theorem deserializeKey_eq_ok_iff {key : RawKey} :
    deserializeKey buffer = .ok key ↔ serializeKey key = .ok buffer :=
  deserializeFrame_eq_ok_iff.trans KeyCodec.write_frame_iff.symm

theorem deserializeValue_eq_ok_iff {value : RawValue} :
    deserializeValue buffer = .ok value ↔ serializeValue value = .ok buffer :=
  deserializeFrame_eq_ok_iff.trans ValueCodec.write_frame_iff.symm

theorem length_serializeKey {key : RawKey} (h : serializeKey key = .ok buffer) :
    buffer.length ≤ headerSize + KeyCodec.maxPayloadSize := by
  unfold serializeKey at h
  split at h
  · rename_i hValid
    cases h
    have hSize := KeyCodec.size_eq_of_validateKey hValid
    have hSmall := KeyCodec.size_le_of_validateKey hValid
    simp [KeyCodec.frame, Reader.frame, headerSize]
    omega
  · cases h

theorem length_serializeValue {value : RawValue} (h : serializeValue value = .ok buffer) :
    buffer.length ≤ headerSize + maxPayloadSize := by
  unfold serializeValue at h
  split at h
  · rename_i hValid
    cases h
    have hSize := size_eq_of_validateValue hValid
    have hSmall := size_le_of_validateValue hValid
    simp [frame, Reader.frame, headerSize]
    omega
  · cases h

end NetCodec

inductive OperatorType where
  | nullary
  | unary
  | binary
deriving DecidableEq, Repr

inductive Operator where
  | get
  | put
  | delete
  | beginTxn
  | commit
  | rollback
deriving DecidableEq, Repr

def OperatorType.enumCode : EnumCode OperatorType where
  code
    | .nullary => 0
    | .unary => 1
    | .binary => 2
  ofCode
    | 0 => some .nullary
    | 1 => some .unary
    | 2 => some .binary
    | _ => none
  code_lt a := by cases a <;> decide
  ofCode_eq_some_iff {n a} := by
    split <;> cases a <;> simp_all

def Operator.enumCode : EnumCode Operator where
  code
    | .get => 0
    | .put => 1
    | .delete => 2
    | .beginTxn => 3
    | .commit => 4
    | .rollback => 5
  ofCode
    | 0 => some .get
    | 1 => some .put
    | 2 => some .delete
    | 3 => some .beginTxn
    | 4 => some .commit
    | 5 => some .rollback
    | _ => none
  code_lt a := by cases a <;> decide
  ofCode_eq_some_iff {n a} := by
    split <;> cases a <;> simp_all

structure Command where
  operatorType : OperatorType
  op : Operator
  key : Option RawKey
  value : Option RawValue
deriving DecidableEq

namespace CommandCodec

def payloadSizeBytes : Nat := 4

def operatorBytes : Nat := 2

def commandHeaderBytes : Nat := payloadSizeBytes + operatorBytes

def isNullaryOperator (op : Operator) : Bool :=
  op == .beginTxn || op == .commit || op == .rollback

def isUnaryOperator (op : Operator) : Bool :=
  op == .get || op == .delete

def checkedSize (size : Nat) (fieldName : String) : Except Exception Nat :=
  if size > 2 ^ 32 - 1 then .error (.lengthError fieldName) else .ok size

section Serialize

def writeCommandHeader (hostPayloadSize : Nat) (command : Command) : List UInt8 :=
  bigEndian 4 hostPayloadSize ++
    (OperatorType.enumCode.write command.operatorType ++ Operator.enumCode.write command.op)

def writeOperand (bytes : List UInt8) : List UInt8 :=
  bigEndian 4 bytes.length ++ bytes

def serializeNullary (command : Command) : Except Exception (List UInt8) :=
  if !isNullaryOperator command.op ∨ command.key ≠ none ∨ command.value ≠ none then
    .error (.invalidArgument "Invalid nullary command")
  else .ok (writeCommandHeader operatorBytes command)

def serializeUnary (command : Command) : Except Exception (List UInt8) :=
  match isUnaryOperator command.op, command.key, command.value with
  | true, some key, none => do
    let networkKey ← NetCodec.serializeKey key
    let _ ← checkedSize networkKey.length "Serialized key is too large"
    let hostPayloadSize ← checkedSize (operatorBytes + 4 + networkKey.length)
      "Unary command payload is too large"
    return writeCommandHeader hostPayloadSize command ++ writeOperand networkKey
  | _, _, _ => .error (.invalidArgument "Invalid unary command")

def serializeBinary (command : Command) : Except Exception (List UInt8) :=
  match command.op, command.key, command.value with
  | .put, some key, some value => do
    let networkKey ← NetCodec.serializeKey key
    let networkValue ← NetCodec.serializeValue value
    let _ ← checkedSize networkKey.length "Serialized key is too large"
    let _ ← checkedSize networkValue.length "Serialized value is too large"
    let operandBytes := 4 + networkKey.length + 4 + networkValue.length
    let hostPayloadSize ← checkedSize (operatorBytes + operandBytes)
      "Binary command payload is too large"
    return writeCommandHeader hostPayloadSize command ++
      (writeOperand networkKey ++ writeOperand networkValue)
  | _, _, _ => .error (.invalidArgument "Invalid binary command")

def serialize (command : Command) : Except Exception (List UInt8) :=
  match command.operatorType with
  | .nullary => serializeNullary command
  | .unary => serializeUnary command
  | .binary => serializeBinary command

end Serialize

section Deserialize

def noByte : Exception :=
  .runtimeError "Command buffer ended before the next byte"

def noSize : Exception :=
  .runtimeError "Command buffer ended before the next size field"

def readSize : Reader Exception Nat :=
  Reader.number noSize 4

/-- The size of the payload has to be that of the buffer. -/
def readHeader (bufferSize : Nat) : Reader Exception (OperatorType × Operator) := do
  let hostPayloadSize ← readSize
  if hostPayloadSize ≠ bufferSize - payloadSizeBytes then
    Reader.ofExcept (.error (.runtimeError "Command payload size does not match buffer size"))
  else
    let operatorType ← OperatorType.enumCode.read noByte
      (.runtimeError "Unknown command operator type")
    let op ← Operator.enumCode.read noByte (.runtimeError "Unknown command operator")
    return (operatorType, op)

def readOperand : Reader Exception (List UInt8) := do
  let size ← readSize
  Reader.bytes (.runtimeError "Command operand size exceeds the remaining buffer") size

def deserializeNullary (rest : List UInt8) (op : Operator) : Except Exception Command :=
  if !isNullaryOperator op ∨ rest ≠ [] then
    .error (.runtimeError "Invalid nullary command packet")
  else .ok ⟨.nullary, op, none, none⟩

def deserializeUnary (rest : List UInt8) (op : Operator) : Except Exception Command :=
  if !isUnaryOperator op then .error (.runtimeError "Invalid unary command operator")
  else do
    let networkKey ← readOperand.runAll
      (.runtimeError "Unary command packet has trailing bytes") rest
    return ⟨.unary, op, some (← NetCodec.deserializeKey networkKey), none⟩

def readOperands : Reader Exception (List UInt8 × List UInt8) := do
  let networkKey ← readOperand
  let networkValue ← readOperand
  return (networkKey, networkValue)

def deserializeBinary (rest : List UInt8) (op : Operator) : Except Exception Command :=
  if op ≠ .put then .error (.runtimeError "Invalid binary command operator")
  else do
    let operands ← readOperands.runAll
      (.runtimeError "Binary command packet has trailing bytes") rest
    let key ← NetCodec.deserializeKey operands.1
    let value ← NetCodec.deserializeValue operands.2
    return ⟨.binary, op, some key, some value⟩

/-- What follows the header, by the operator type. -/
def deserializeOperands (operatorType : OperatorType) (op : Operator) (rest : List UInt8) :
    Except Exception Command :=
  match operatorType with
  | .nullary => deserializeNullary rest op
  | .unary => deserializeUnary rest op
  | .binary => deserializeBinary rest op

def deserialize (buffer : List UInt8) : Except Exception Command :=
  if buffer.length < commandHeaderBytes then
    .error (.runtimeError "Command buffer is smaller than its header")
  else do
    let header ← readHeader buffer.length buffer
    deserializeOperands header.1.1 header.1.2 header.2

end Deserialize

section OneToOne

open Reader

variable {command : Command} {op : Operator} {packet operands : List UInt8}

theorem reads_readOperand {bytes : List UInt8} (hSize : bytes.length < 2 ^ 32) :
    readOperand.Reads (writeOperand bytes) bytes :=
  (Reads.number noSize hSize).bind (Reads.bytes _ bytes)

theorem consumes_readOperand :
    readOperand.Consumes fun bytes used => bytes.length < 2 ^ 32 ∧ used = writeOperand bytes := by
  refine (Consumes.number noSize 4).bind fun size _ hSize =>
    (Consumes.bytes _ size).mono fun bytes used hUsed => ?_
  obtain ⟨rfl, hLt⟩ := hSize
  obtain ⟨rfl, rfl⟩ := hUsed
  exact ⟨hLt, rfl⟩

theorem reads_readHeader (hSize : operands.length + operatorBytes < 2 ^ 32) :
    (readHeader (commandHeaderBytes + operands.length)).Reads
      (writeCommandHeader (operatorBytes + operands.length) command)
      (command.operatorType, command.op) := by
  refine (Reads.number noSize (by rwa [Nat.add_comm])).bind ?_
  rw [if_neg]
  · exact ((inverts_read _ _ _).reads rfl).bind
      (((inverts_read _ _ _).reads rfl).map _)
  · simp only [commandHeaderBytes, payloadSizeBytes, operatorBytes]
    omega

theorem consumes_readHeader (bufferSize : Nat) :
    (readHeader bufferSize).Consumes fun header used =>
      bufferSize - payloadSizeBytes < 2 ^ 32 ∧ used = writeCommandHeader
        (bufferSize - payloadSizeBytes) ⟨header.1, header.2, none, none⟩ := by
  refine (Consumes.number noSize 4).bind fun size _ hSize => ?_
  obtain ⟨rfl, hLt⟩ := hSize
  split
  · exact Consumes.ofExcept fun _ h => by cases h
  · rename_i hSame
    rw [Classical.not_not] at hSame
    subst hSame
    refine (inverts_read _ _ _).consumes.bind fun operatorType _ hType =>
      (inverts_read _ _ _).consumes.bind fun op _ hOp => Consumes.pure ?_
    cases hType
    cases hOp
    rw [append_nil]
    exact ⟨hLt, rfl⟩

theorem deserializeNullary_eq_ok_iff :
    deserializeNullary operands op = .ok command ↔
      isNullaryOperator op = true ∧ operands = [] ∧ command = ⟨.nullary, op, none, none⟩ := by
  rw [deserializeNullary, guard_eq_ok_iff, not_or, Classical.not_not, Bool.not_eq_true',
    Bool.not_eq_false, and_assoc]
  exact and_congr_right fun _ => and_congr_right fun _ =>
    ⟨fun h => (Except.ok.inj h).symm, fun h => h ▸ rfl⟩

theorem deserializeUnary_eq_ok_iff :
    deserializeUnary operands op = .ok command ↔ isUnaryOperator op = true ∧ ∃ key networkKey,
      NetCodec.serializeKey key = .ok networkKey ∧ operands = writeOperand networkKey ∧
        command = ⟨.unary, op, some key, none⟩ := by
  rw [deserializeUnary, guard_eq_ok_iff]
  simp only [bind_eq_ok_iff, Bool.not_eq_true', Bool.not_eq_false]
  refine and_congr_right fun _ => ?_
  constructor
  · rintro ⟨networkKey, hRead, key, hKey, hCommand⟩
    obtain ⟨-, rfl⟩ := consumes_readOperand.of_runAll hRead
    exact ⟨key, networkKey, NetCodec.deserializeKey_eq_ok_iff.1 hKey, rfl,
      (Except.ok.inj hCommand).symm⟩
  · rintro ⟨key, networkKey, hKey, rfl, rfl⟩
    have hLength := NetCodec.length_serializeKey hKey
    rw [NetCodec.headerSize, KeyCodec.maxPayloadSize] at hLength
    exact ⟨networkKey, (reads_readOperand (by omega)).runAll _, key,
      NetCodec.deserializeKey_eq_ok_iff.2 hKey, rfl⟩

theorem deserializeBinary_eq_ok_iff :
    deserializeBinary operands op = .ok command ↔ op = .put ∧
      ∃ key value networkKey networkValue, NetCodec.serializeKey key = .ok networkKey ∧
        NetCodec.serializeValue value = .ok networkValue ∧
        operands = writeOperand networkKey ++ writeOperand networkValue ∧
        command = ⟨.binary, op, some key, some value⟩ := by
  rw [deserializeBinary, guard_eq_ok_iff]
  simp only [bind_eq_ok_iff, ne_eq, Classical.not_not]
  refine and_congr_right fun _ => ?_
  constructor
  · rintro ⟨parts, hRead, key, hKey, value, hValue, hCommand⟩
    have hConsumes : readOperands.Consumes fun parts used =>
        used = writeOperand parts.1 ++ writeOperand parts.2 := by
      refine consumes_readOperand.bind fun first _ hFirst =>
        consumes_readOperand.bind fun second _ hSecond => Consumes.pure ?_
      rw [hFirst.2, hSecond.2, append_nil]
    exact ⟨key, value, parts.1, parts.2, NetCodec.deserializeKey_eq_ok_iff.1 hKey,
      NetCodec.deserializeValue_eq_ok_iff.1 hValue, hConsumes.of_runAll hRead,
      (Except.ok.inj hCommand).symm⟩
  · rintro ⟨key, value, networkKey, networkValue, hKey, hValue, rfl, rfl⟩
    have hKeyLength := NetCodec.length_serializeKey hKey
    have hValueLength := NetCodec.length_serializeValue hValue
    rw [NetCodec.headerSize, KeyCodec.maxPayloadSize] at hKeyLength
    rw [NetCodec.headerSize, maxPayloadSize] at hValueLength
    have hReads : readOperands.Reads (writeOperand networkKey ++ writeOperand networkValue)
        (networkKey, networkValue) :=
      (reads_readOperand (by omega)).bind ((reads_readOperand (by omega)).map _)
    exact ⟨_, hReads.runAll _, key, NetCodec.deserializeKey_eq_ok_iff.2 hKey, value,
      NetCodec.deserializeValue_eq_ok_iff.2 hValue, rfl⟩

/-- The operators of a decoded command are those of the header. -/
theorem operators_of_deserializeOperands {operatorType : OperatorType}
    (h : deserializeOperands operatorType op operands = .ok command) :
    command.operatorType = operatorType ∧ command.op = op := by
  cases operatorType with
  | nullary =>
    obtain ⟨-, -, rfl⟩ := deserializeNullary_eq_ok_iff.1 h
    exact ⟨rfl, rfl⟩
  | unary =>
    obtain ⟨-, _, _, -, -, rfl⟩ := deserializeUnary_eq_ok_iff.1 h
    exact ⟨rfl, rfl⟩
  | binary =>
    obtain ⟨-, _, _, _, _, -, -, -, rfl⟩ := deserializeBinary_eq_ok_iff.1 h
    exact ⟨rfl, rfl⟩

/-- The packet of a command with these operands. -/
def Packs (command : Command) (packet : List UInt8) : Prop :=
  ∃ operands, operands.length + operatorBytes < 2 ^ 32 ∧
    packet = writeCommandHeader (operatorBytes + operands.length) command ++ operands ∧
      deserializeOperands command.operatorType command.op operands = .ok command

theorem length_writeCommandHeader (size : Nat) (command : Command) :
    (writeCommandHeader size command).length = commandHeaderBytes := by
  simp [writeCommandHeader, commandHeaderBytes, payloadSizeBytes, operatorBytes]

theorem deserialize_eq_ok_iff : deserialize packet = .ok command ↔ Packs command packet := by
  rw [deserialize, guard_eq_ok_iff, bind_eq_ok_iff, Nat.not_lt]
  constructor
  · rintro ⟨-, ⟨⟨operatorType, op⟩, operands⟩, hHeader, hOperands⟩
    obtain ⟨header, hPacket, hSize, hUsed⟩ := consumes_readHeader _ _ _ _ hHeader
    obtain ⟨rfl, rfl⟩ := operators_of_deserializeOperands hOperands
    have hCount : packet.length - payloadSizeBytes = operatorBytes + operands.length := by
      rw [hPacket, length_append, hUsed, length_writeCommandHeader]
      simp only [commandHeaderBytes, payloadSizeBytes, operatorBytes]
      omega
    rw [hCount] at hSize hUsed
    refine ⟨operands, by omega, ?_, hOperands⟩
    rw [hPacket, hUsed]
    rfl
  · rintro ⟨operands, hSize, rfl, hOperands⟩
    have hRead := @reads_readHeader command operands hSize operands
    rw [length_append, length_writeCommandHeader]
    exact ⟨Nat.le_add_right _ _, ((command.operatorType, command.op), operands), hRead, hOperands⟩

theorem checkedSize_eq_ok_iff {size checked : Nat} {fieldName : String} :
    checkedSize size fieldName = .ok checked ↔ size < 2 ^ 32 ∧ size = checked := by
  rw [checkedSize, guard_eq_ok_iff, Except.ok.injEq]
  omega

theorem serializeNullary_eq_ok_iff (hType : command.operatorType = .nullary) :
    serializeNullary command = .ok packet ↔ Packs command packet := by
  obtain ⟨operatorType, op, key, value⟩ := command
  cases hType
  rw [serializeNullary, guard_eq_ok_iff, Packs]
  simp only [deserializeOperands, deserializeNullary_eq_ok_iff]
  constructor
  · rintro ⟨hShape, hPacket⟩
    simp only [not_or, Classical.not_not, Bool.not_eq_true', Bool.not_eq_false, ne_eq] at hShape
    obtain ⟨hOp, rfl, rfl⟩ := hShape
    cases hPacket
    exact ⟨[], by decide, (append_nil _).symm, hOp, rfl, rfl⟩
  · rintro ⟨operands, -, rfl, hOp, rfl, hCommand⟩
    cases hCommand
    simp [hOp]

theorem length_writeOperand (bytes : List UInt8) :
    (writeOperand bytes).length = 4 + bytes.length := by
  simp [writeOperand]

/-- The sizes that are checked are never too large for a valid key. -/
theorem serializeUnary_eq_ok_iff (hType : command.operatorType = .unary) :
    serializeUnary command = .ok packet ↔ Packs command packet := by
  obtain ⟨operatorType, op, key, value⟩ := command
  cases hType
  simp only [Packs, deserializeOperands, deserializeUnary_eq_ok_iff, serializeUnary]
  split
  · rename_i key hOp
    simp only [bind_eq_ok_iff, checkedSize_eq_ok_iff]
    constructor
    · rintro ⟨networkKey, hNetwork, _, -, _, ⟨hSize, rfl⟩, hPacket⟩
      cases hPacket
      refine ⟨writeOperand networkKey, ?_, ?_, hOp, key, networkKey, hNetwork, rfl, rfl⟩
      · rw [length_writeOperand]
        omega
      · rw [length_writeOperand, Nat.add_assoc]
    · rintro ⟨operands, hSize, rfl, -, key, networkKey, hNetwork, rfl, hCommand⟩
      cases hCommand
      rw [length_writeOperand] at hSize
      refine ⟨networkKey, hNetwork, _, ⟨by omega, rfl⟩, _, ⟨by omega, rfl⟩, ?_⟩
      rw [length_writeOperand, ← Nat.add_assoc]
      rfl
  · rename_i hShape
    refine iff_of_false (fun h => by cases h) ?_
    rintro ⟨_, -, -, hOp, key, _, -, -, hCommand⟩
    cases hCommand
    exact hShape key hOp rfl rfl

theorem serializeBinary_eq_ok_iff (hType : command.operatorType = .binary) :
    serializeBinary command = .ok packet ↔ Packs command packet := by
  obtain ⟨operatorType, op, key, value⟩ := command
  cases hType
  simp only [Packs, deserializeOperands, deserializeBinary_eq_ok_iff, serializeBinary]
  split
  · rename_i key value
    have hCount : ∀ networkKey networkValue : List UInt8,
        (writeOperand networkKey ++ writeOperand networkValue).length =
          4 + networkKey.length + 4 + networkValue.length := by
      intro networkKey networkValue
      rw [length_append, length_writeOperand, length_writeOperand]
      omega
    simp only [bind_eq_ok_iff, checkedSize_eq_ok_iff]
    constructor
    · rintro ⟨networkKey, hKey, networkValue, hValue, _, -, _, -, _, ⟨hSize, rfl⟩, hPacket⟩
      cases hPacket
      refine ⟨writeOperand networkKey ++ writeOperand networkValue, ?_, ?_, trivial, key, value,
        networkKey, networkValue, hKey, hValue, rfl, rfl⟩
      · rwa [hCount, Nat.add_comm]
      · rw [hCount]
    · rintro ⟨operands, hSize, rfl, -, key, value, networkKey, networkValue, hKey, hValue, rfl,
        hCommand⟩
      cases hCommand
      rw [hCount] at hSize
      refine ⟨networkKey, hKey, networkValue, hValue, _, ⟨by omega, rfl⟩, _, ⟨by omega, rfl⟩, _,
        ⟨by omega, rfl⟩, ?_⟩
      rw [hCount]
      rfl
  · rename_i hShape
    refine iff_of_false (fun h => by cases h) ?_
    rintro ⟨_, -, -, rfl, key, value, _, _, -, -, -, hCommand⟩
    cases hCommand
    exact hShape key value rfl rfl rfl

theorem serialize_eq_ok_iff : serialize command = .ok packet ↔ Packs command packet := by
  unfold serialize
  split
  · rename_i hType
    exact serializeNullary_eq_ok_iff hType
  · rename_i hType
    exact serializeUnary_eq_ok_iff hType
  · rename_i hType
    exact serializeBinary_eq_ok_iff hType

/-- Accepted packets and valid commands correspond one to one: a packet is read as the command it
was written for, and an accepted packet is written again byte for byte. -/
theorem packets_match_commands :
    (∀ (command : Command) (packet : List UInt8), serialize command = .ok packet →
      deserialize packet = .ok command) ∧
    (∀ (packet : List UInt8) (command : Command), deserialize packet = .ok command →
      serialize command = .ok packet) :=
  ⟨fun _ _ h => deserialize_eq_ok_iff.2 (serialize_eq_ok_iff.1 h),
    fun _ _ h => serialize_eq_ok_iff.2 (deserialize_eq_ok_iff.1 h)⟩

end OneToOne

end CommandCodec

end Stoneleaf
