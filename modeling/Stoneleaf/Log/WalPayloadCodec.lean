import Stoneleaf.Encoding.Frames
import Stoneleaf.Log.WalRecordCodec
import Stoneleaf.Storage.PageImage

/-!
The bytes of the payloads of write-ahead log records. Payloads are in the widths of the source,
with keys and values before validation and pages as raw images; writing checks them. The reader
accepts exactly what the writer produces.
-/

namespace Stoneleaf

open Library List EnumCode

/-- The logical inverse of an operation, as it is handed to the codec. -/
inductive LogUndo where
  | insertUndo (key : RawKey)
  | updateUndo (key : RawKey) (oldValue : RawValue)
  | deleteUndo (key : RawKey) (oldValue : RawValue)
deriving DecidableEq

structure LogEffect where
  kind : PageEffectKind
  pageNum : UInt32
  afterImage : PageImage
deriving DecidableEq

inductive LogPayload where
  | txnBegin
  | btreeAction (undo : LogUndo) (effects : List LogEffect)
  | compensation (undoOfLsn undoNextLsn : UInt64) (effects : List LogEffect)
  | systemAction (kind : SystemActionKind) (effects : List LogEffect)
  | txnCommit (raftIndex : UInt64)
  | txnAbort (reason : AbortReason)
  | txnEnd
deriving DecidableEq

/-- The record type that goes with the alternative of a payload. -/
def LogPayload.type : LogPayload → WalRecordType
  | txnBegin => .txnBegin
  | btreeAction _ _ => .btreeAction
  | compensation _ _ _ => .compensation
  | systemAction _ _ => .systemAction
  | txnCommit _ => .txnCommit
  | txnAbort _ => .txnAbort
  | txnEnd => .txnEnd

inductive BTreeActionKind where
  | insert
  | update
  | delete
deriving DecidableEq, Repr

def PageEffectKind.enumCode : EnumCode PageEffectKind where
  code
    | .write => 1
    | .allocate => 2
    | .free => 3
  ofCode
    | 1 => some .write
    | 2 => some .allocate
    | 3 => some .free
    | _ => none
  code_lt a := by cases a <;> decide
  ofCode_eq_some_iff {n a} := by
    split <;> cases a <;> simp_all

def AbortReason.enumCode : EnumCode AbortReason where
  code
    | .clientRequest => 1
    | .deadlockVictim => 2
    | .statementFailure => 3
    | .internalError => 4
  ofCode
    | 1 => some .clientRequest
    | 2 => some .deadlockVictim
    | 3 => some .statementFailure
    | 4 => some .internalError
    | _ => none
  code_lt a := by cases a <;> decide
  ofCode_eq_some_iff {n a} := by
    split <;> cases a <;> simp_all

def SystemActionKind.enumCode : EnumCode SystemActionKind where
  code
    | .btreeSplit => 1
    | .btreeMerge => 2
    | .pageMaintenance => 3
  ofCode
    | 1 => some .btreeSplit
    | 2 => some .btreeMerge
    | 3 => some .pageMaintenance
    | _ => none
  code_lt a := by cases a <;> decide
  ofCode_eq_some_iff {n a} := by
    split <;> cases a <;> simp_all

def BTreeActionKind.enumCode : EnumCode BTreeActionKind where
  code
    | .insert => 1
    | .update => 2
    | .delete => 3
  ofCode
    | 1 => some .insert
    | 2 => some .update
    | 3 => some .delete
    | _ => none
  code_lt a := by cases a <;> decide
  ofCode_eq_some_iff {n a} := by
    split <;> cases a <;> simp_all

def actionKind : LogUndo → BTreeActionKind
  | .insertUndo _ => .insert
  | .updateUndo _ _ => .update
  | .deleteUndo _ _ => .delete

namespace WalPayloadCodec

section Write

def writeKey (key : RawKey) : Except Exception (List UInt8) :=
  if KeyCodec.validateKey key then .ok (KeyCodec.frame key)
  else .error (.invalidArgument "B-tree undo contains an invalid key")

def writeValue (value : RawValue) : Except Exception (List UInt8) :=
  if ValueCodec.validateValue value then .ok (ValueCodec.frame value)
  else .error (.invalidArgument "B-tree undo contains an invalid value")

/-- What ties the image of an effect to its page. -/
def imageMatches (image : PageImage) (pageNum : UInt32) : Bool :=
  V2PageCodec.validateStructure image.bytes == .success &&
    V2PageCodec.pageNum image.bytes == pageNum

def writeEffect (effect : LogEffect) : Except Exception (List UInt8) :=
  if imageMatches effect.afterImage effect.pageNum then
    .ok (PageEffectKind.enumCode.write effect.kind ++
      (bigEndian 4 effect.pageNum.toNat ++ effect.afterImage.bytes))
  else .error (.invalidArgument "Page effect image does not match its page number")

def writeEffects (effects : List LogEffect) : Except Exception (List UInt8) :=
  if effects = [] then .error (.invalidArgument "WAL mutation payload requires a page effect")
  else if effects.length > 2 ^ 32 - 1 then .error (.invalidArgument "Too many page effects")
  else do
    let parts ← writeAll writeEffect effects
    return bigEndian 4 effects.length ++ parts

def writeOperands : LogUndo → Except Exception (List UInt8)
  | .insertUndo key => writeKey key
  | .updateUndo key oldValue => return (← writeKey key) ++ (← writeValue oldValue)
  | .deleteUndo key oldValue => return (← writeKey key) ++ (← writeValue oldValue)

def writeUndo (undo : LogUndo) : Except Exception (List UInt8) := do
  return BTreeActionKind.enumCode.write (actionKind undo) ++ (← writeOperands undo)

def encode (type : WalRecordType) (payload : LogPayload) : Except Exception (List UInt8) :=
  if payload.type ≠ type then
    .error (.invalidArgument "Payload variant does not match WAL record type")
  else
    match payload with
    | .txnBegin => .ok []
    | .txnEnd => .ok []
    | .txnCommit raftIndex => .ok (bigEndian 8 raftIndex.toNat)
    | .txnAbort reason => .ok (AbortReason.enumCode.write reason)
    | .btreeAction undo effects => return (← writeUndo undo) ++ (← writeEffects effects)
    | .compensation undoOfLsn undoNextLsn effects => do
      return bigEndian 8 undoOfLsn.toNat ++
        (bigEndian 8 undoNextLsn.toNat ++ (← writeEffects effects))
    | .systemAction kind effects => do
      return SystemActionKind.enumCode.write kind ++ (← writeEffects effects)

end Write

section Read

def truncated : Exception :=
  .runtimeError "WAL payload is truncated"

def readWord : Reader Exception UInt64 := do
  return .ofNat (← Reader.number truncated 8)

def checkedEnum {α : Type} (enum : EnumCode α) (message : String) : Reader Exception α :=
  enum.read truncated (.runtimeError message)

def readKey : Reader Exception RawKey :=
  Reader.readFrame KeyType.ofByte RawKey.mk KeyCodec.validateKey truncated
    (.runtimeError "WAL payload contains an invalid key")

def readValue : Reader Exception RawValue :=
  Reader.readFrame ValueType.ofByte RawValue.mk ValueCodec.validateValue truncated
    (.runtimeError "WAL payload contains an invalid value")

def checkEffect (kind : PageEffectKind) (pageNum : UInt32) (bytes : List UInt8) :
    Except Exception LogEffect :=
  if hSize : bytes.length = V2PageCodec.pageSize then
    if imageMatches ⟨bytes, hSize⟩ pageNum then .ok ⟨kind, pageNum, ⟨bytes, hSize⟩⟩
    else .error (.runtimeError "Invalid page effect image")
  else .error truncated

def readEffect : Reader Exception LogEffect := do
  let kind ← checkedEnum PageEffectKind.enumCode "Unknown page effect kind"
  let pageNum ← Reader.number truncated 4
  let bytes ← Reader.bytes truncated V2PageCodec.pageSize
  Reader.ofExcept (checkEffect kind (.ofNat pageNum) bytes)

def readEffects : Reader Exception (List LogEffect) := do
  let count ← Reader.number truncated 4
  if count = 0 then
    Reader.ofExcept (.error (.runtimeError "WAL mutation payload has no page effects"))
  else
    let remaining ← Reader.remaining
    if count > remaining / (1 + 4 + V2PageCodec.pageSize) then
      Reader.ofExcept (.error (.runtimeError "Page effect count exceeds payload size"))
    else Reader.times count readEffect

def readUndo : Reader Exception LogUndo := do
  let kind ← checkedEnum BTreeActionKind.enumCode "Unknown B-tree action kind"
  let key ← readKey
  match kind with
  | .insert => return .insertUndo key
  | .update => return .updateUndo key (← readValue)
  | .delete => return .deleteUndo key (← readValue)

def readPayload : WalRecordType → Reader Exception LogPayload
  | .txnBegin => return .txnBegin
  | .txnCommit => return .txnCommit (← readWord)
  | .txnEnd => return .txnEnd
  | .txnAbort => return .txnAbort (← checkedEnum AbortReason.enumCode "Unknown abort reason")
  | .btreeAction => return .btreeAction (← readUndo) (← readEffects)
  | .compensation => return .compensation (← readWord) (← readWord) (← readEffects)
  | .systemAction => do
    let kind ← checkedEnum SystemActionKind.enumCode "Unknown system action kind"
    return .systemAction kind (← readEffects)

def decode (type : WalRecordType) (payload : List UInt8) : Except Exception LogPayload :=
  (readPayload type).runAll (.runtimeError "WAL payload has trailing bytes") payload

end Read

section Inverse

open Reader

theorem inverts_readWord :
    readWord.Inverts fun word : UInt64 => (.ok (bigEndian 8 word.toNat) : Except Exception _) where
  reads {word bytes} hWrite := by
    cases hWrite
    have hRead := (Reads.number truncated (show word.toNat < 256 ^ 8 from word.toNat_lt)).map
      UInt64.ofNat
    rwa [UInt64.ofNat_toNat] at hRead
  consumes := by
    refine (Consumes.number truncated 8).bind fun n used hUsed => Consumes.pure ?_
    obtain ⟨rfl, hLt⟩ := hUsed
    rw [append_nil, UInt64.toNat_ofNat_of_lt' hLt]

theorem inverts_readKey : readKey.Inverts writeKey :=
  inverts_readFrame KeyCodec.write_frame_iff _ _

theorem inverts_readValue : readValue.Inverts writeValue :=
  inverts_readFrame ValueCodec.write_frame_iff _ _

variable {bytes : List UInt8}

theorem checkEffect_eq_ok_iff {kind : PageEffectKind} {pageNum : UInt32} {effect : LogEffect} :
    checkEffect kind pageNum bytes = .ok effect ↔
      imageMatches effect.afterImage effect.pageNum = true ∧ effect.kind = kind ∧
        effect.pageNum = pageNum ∧ effect.afterImage.bytes = bytes := by
  unfold checkEffect
  constructor
  · intro h
    split at h
    · split at h
      · rename_i hSize hMatches
        cases h
        exact ⟨hMatches, rfl, rfl, rfl⟩
      · cases h
    · cases h
  · rintro ⟨hMatches, rfl, rfl, rfl⟩
    rw [dif_pos effect.afterImage.size]
    exact if_pos hMatches

theorem inverts_readEffect : readEffect.Inverts writeEffect where
  reads {effect bytes} hWrite := by
    unfold writeEffect at hWrite
    split at hWrite
    · rename_i hMatches
      cases hWrite
      have hPage : effect.pageNum.toNat < 256 ^ 4 := effect.pageNum.toNat_lt
      have hImage := Reads.bytes truncated effect.afterImage.bytes
      rw [effect.afterImage.size] at hImage
      refine ((inverts_read _ _ _).reads rfl).bind ((Reads.number truncated hPage).bind ?_)
      rw [UInt32.ofNat_toNat]
      have hCheck := checkEffect_eq_ok_iff.2 ⟨hMatches, rfl, rfl, rfl⟩
      have hRead := hImage.bind
        (f := fun bytes => ofExcept (checkEffect effect.kind effect.pageNum bytes))
        (Reads.ofExcept hCheck)
      rwa [append_nil] at hRead
    · cases hWrite
  consumes := by
    refine (inverts_read _ _ _).consumes.bind fun kind _ hKind =>
      (Consumes.number truncated 4).bind fun pageNum _ hPage =>
        (Consumes.bytes truncated _).bind fun bytes _ hBytes => Consumes.ofExcept fun effect h => ?_
    cases hKind
    obtain ⟨rfl, hLt⟩ := hPage
    obtain ⟨rfl, -⟩ := hBytes
    obtain ⟨hMatches, rfl, hNumber, rfl⟩ := checkEffect_eq_ok_iff.1 h
    rw [writeEffect, if_pos hMatches, hNumber, UInt32.toNat_ofNat_of_lt' hLt, append_nil]

/-- Every effect takes the same number of bytes. -/
theorem length_writeEffect {effect : LogEffect} (hWrite : writeEffect effect = .ok bytes) :
    1 + 4 + V2PageCodec.pageSize ≤ bytes.length := by
  unfold writeEffect at hWrite
  split at hWrite
  · cases hWrite
    simp [effect.afterImage.size]
    omega
  · cases hWrite

theorem writeEffects_eq_ok_iff {effects : List LogEffect} :
    writeEffects effects = .ok bytes ↔ effects ≠ [] ∧ effects.length ≤ 2 ^ 32 - 1 ∧
      ∃ parts, writeAll writeEffect effects = .ok parts ∧
        bytes = bigEndian 4 effects.length ++ parts := by
  unfold writeEffects
  rw [guard_eq_ok_iff, guard_eq_ok_iff, bind_eq_ok_iff, Nat.not_lt]
  refine and_congr_right fun _ => and_congr_right fun _ => exists_congr fun parts => ?_
  exact and_congr_right fun _ => ⟨fun h => (Except.ok.inj h).symm, fun h => h ▸ rfl⟩

theorem inverts_readEffects : readEffects.Inverts writeEffects where
  reads {effects bytes} hWrite := by
    obtain ⟨hSome, hCount, parts, hParts, rfl⟩ := writeEffects_eq_ok_iff.1 hWrite
    have hLength := le_length_writeAll length_writeEffect hParts
    refine (Reads.number truncated (show effects.length < 256 ^ 4 by omega)).bind ?_
    rw [if_neg (fun h => hSome (eq_nil_of_length_eq_zero h))]
    refine Reads.bind_remaining fun more => ?_
    rw [if_neg]
    · exact inverts_readEffect.reads_times hParts
    · rw [Nat.not_lt, Nat.le_div_iff_mul_le (by decide)]
      omega
  consumes := by
    refine (Consumes.number truncated 4).bind fun count _ hCount => ?_
    obtain ⟨rfl, hLt⟩ := hCount
    split
    · exact Consumes.ofExcept fun _ h => by cases h
    · rename_i hNone
      refine (Consumes.remaining (R := fun _ used => used = []) fun _ => rfl).bind
        fun remaining _ hRemaining => ?_
      cases hRemaining
      split
      · exact Consumes.ofExcept fun _ h => by cases h
      · refine (inverts_readEffect.consumes_times count).mono fun effects parts h => ?_
        obtain ⟨rfl, hParts⟩ := h
        refine writeEffects_eq_ok_iff.2 ⟨fun h => hNone (h ▸ rfl), by omega, parts, hParts, ?_⟩
        rw [nil_append]

theorem inverts_readUndo : readUndo.Inverts writeUndo where
  reads {undo bytes} hWrite := by
    obtain ⟨operands, hOperands, hBytes⟩ := bind_eq_ok_iff.1 hWrite
    cases hBytes
    refine ((inverts_read _ _ _).reads rfl).bind ?_
    cases undo with
    | insertUndo key => exact (inverts_readKey.reads hOperands).map _
    | updateUndo key oldValue | deleteUndo key oldValue =>
      obtain ⟨first, second, hKey, hValue, rfl⟩ := append_eq_ok_iff.1 hOperands
      exact (inverts_readKey.reads hKey).bind ((inverts_readValue.reads hValue).map _)
  consumes := by
    refine (inverts_read _ _ _).consumes.bind fun kind _ hKind =>
      inverts_readKey.consumes.bind fun key first hKey => ?_
    cases hKind
    cases kind with
    | insert =>
      refine Consumes.pure (bind_eq_ok_iff.2 ⟨first, hKey, ?_⟩)
      rw [append_nil]
      rfl
    | update | delete =>
      refine inverts_readValue.consumes.bind fun value second hValue => Consumes.pure ?_
      refine bind_eq_ok_iff.2 ⟨first ++ second, ?_, ?_⟩
      · exact append_eq_ok_iff.2 ⟨first, second, hKey, hValue, rfl⟩
      · rw [append_nil]
        rfl

/-- The reader for a record type accepts the payloads of that type only. -/
theorem inverts_readPayload (type : WalRecordType) :
    (readPayload type).Inverts (encode type) where
  reads {payload bytes} hWrite := by
    obtain ⟨hType, hWrite⟩ := guard_eq_ok_iff.1 hWrite
    rw [Classical.not_not] at hType
    subst hType
    cases payload with
    | txnBegin | txnEnd =>
      cases hWrite
      exact Reads.pure _
    | txnCommit raftIndex => exact (inverts_readWord.reads hWrite).map _
    | txnAbort reason => exact ((inverts_read _ _ _).reads hWrite).map _
    | btreeAction undo effects =>
      obtain ⟨first, second, hUndo, hEffects, rfl⟩ := append_eq_ok_iff.1 hWrite
      exact (inverts_readUndo.reads hUndo).bind ((inverts_readEffects.reads hEffects).map _)
    | compensation undoOfLsn undoNextLsn effects =>
      obtain ⟨last, hEffects, hJoin⟩ := bind_eq_ok_iff.1 hWrite
      cases hJoin
      exact (inverts_readWord.reads rfl).bind ((inverts_readWord.reads rfl).bind
        ((inverts_readEffects.reads hEffects).map _))
    | systemAction kind effects =>
      obtain ⟨last, hEffects, hJoin⟩ := bind_eq_ok_iff.1 hWrite
      cases hJoin
      exact ((inverts_read _ _ _).reads rfl).bind
        ((inverts_readEffects.reads hEffects).map _)
  consumes := by
    cases type with
    | txnBegin | txnEnd => exact Consumes.pure rfl
    | txnCommit =>
      refine inverts_readWord.consumes.bind fun word used h => Consumes.pure ?_
      rw [append_nil]
      exact h
    | txnAbort =>
      refine (inverts_read _ _ _).consumes.bind fun reason used h => Consumes.pure ?_
      rw [append_nil]
      exact h
    | btreeAction =>
      refine inverts_readUndo.consumes.bind fun undo first hUndo =>
        inverts_readEffects.consumes.bind fun effects second hEffects => Consumes.pure ?_
      rw [append_nil]
      exact append_eq_ok_iff.2 ⟨first, second, hUndo, hEffects, rfl⟩
    | compensation =>
      refine inverts_readWord.consumes.bind fun undoOf _ hOf =>
        inverts_readWord.consumes.bind fun undoNext _ hNext =>
          inverts_readEffects.consumes.bind fun effects last hEffects => Consumes.pure ?_
      cases hOf
      cases hNext
      rw [append_nil]
      exact bind_eq_ok_iff.2 ⟨last, hEffects, rfl⟩
    | systemAction =>
      refine (inverts_read _ _ _).consumes.bind fun kind _ hKind =>
        inverts_readEffects.consumes.bind fun effects last hEffects => Consumes.pure ?_
      cases hKind
      rw [append_nil]
      exact bind_eq_ok_iff.2 ⟨last, hEffects, rfl⟩

theorem decode_eq_ok_iff {type : WalRecordType} {payload : LogPayload} :
    decode type bytes = .ok payload ↔ encode type payload = .ok bytes :=
  (inverts_readPayload type).runAll_iff _

end Inverse

theorem type_of_encode {type : WalRecordType} {payload : LogPayload} {data : List UInt8}
    (h : encode type payload = .ok data) : payload.type = type :=
  Classical.not_not.1 (guard_eq_ok_iff.1 h).1

/-- Records and payloads are read back from the bytes written for them, and accepted bytes are
written again as they were. Different accepted bytes never stand for the same record. -/
theorem wal_format_one_to_one :
    (∀ (lsn transactionId prevLsn : UInt64) (type : WalRecordType) (payload : LogPayload)
      (data encoded : List UInt8), encode type payload = .ok data →
      WalRecordCodec.encode ⟨lsn, type, transactionId, prevLsn, data⟩ = .ok encoded →
      WalRecordCodec.decode encoded = .ok ⟨lsn, type, transactionId, prevLsn, data⟩ ∧
        decode type data = .ok payload) ∧
    (∀ (encoded : List UInt8) (record : LogRecord), WalRecordCodec.decode encoded = .ok record →
      WalRecordCodec.encode record = .ok encoded) ∧
    (∀ (type : WalRecordType) (data : List UInt8) (payload : LogPayload),
      decode type data = .ok payload → encode type payload = .ok data) ∧
    (∀ (first second : List UInt8) (record other : LogRecord) (payload : LogPayload),
      WalRecordCodec.decode first = .ok record → decode record.type record.data = .ok payload →
      WalRecordCodec.decode second = .ok other → decode other.type other.data = .ok payload →
      record.lsn = other.lsn → record.transactionId = other.transactionId →
      record.prevLsn = other.prevLsn → first = second) := by
  refine ⟨?_, fun _ _ => WalRecordCodec.encode_decode, fun _ _ _ => decode_eq_ok_iff.1, ?_⟩
  · intro lsn transactionId prevLsn type payload data encoded hData hEncoded
    exact ⟨WalRecordCodec.decode_encode _ hEncoded, decode_eq_ok_iff.2 hData⟩
  · intro first second record other payload hFirst hPayload hSecond hOther hLsn hTxn hPrev
    have hWrite := decode_eq_ok_iff.1 hPayload
    have hAgain := decode_eq_ok_iff.1 hOther
    have hType : record.type = other.type :=
      (type_of_encode hWrite).symm.trans (type_of_encode hAgain)
    have hData : record.data = other.data := by
      rw [hType] at hWrite
      exact Except.ok.inj (hWrite.symm.trans hAgain)
    have hRecord : record = other := by
      cases record
      cases other
      simp_all
    have hBytes := WalRecordCodec.encode_decode hFirst
    rw [hRecord] at hBytes
    exact Except.ok.inj (hBytes.symm.trans (WalRecordCodec.encode_decode hSecond))

end WalPayloadCodec

end Stoneleaf
