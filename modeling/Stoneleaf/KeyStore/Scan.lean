import Stoneleaf.BTree.CursorSpec

/-!
Scans of the key store: cursors over the tree with bounds attached. A scan stops at the first
key outside its bounds, so that it is complete only because the keys it wants follow each other
in the order of the tree, from the one it seeks on.
-/

namespace Stoneleaf

open Library Program

inductive KeyStoreStatus where
  | success
  | failedToOpen
  | failedToClose
  | keyNotFound
  | invalidKey
  | invalidValue
  | invalidRange
  | noActiveTransaction
  | transactionAlreadyActive
  | transactionNeedsRollback
  | writeTransactionActive
  | cursorActive
  | writeFailed
  | commitFailed
  | rollbackFailed
  | scanFailed
  | notOpen
  | alreadyOpen
  | readFailed
  | decodeFailed
  | deadlock
  | transactionNotFound
deriving DecidableEq, Repr

inductive KeyStoreCursorStatus where
  | success
  | endOfScan
  | notPositioned
  | closed
  | decodeFailed
  | storageError
deriving DecidableEq, Repr

structure KeyStoreCursorResult where
  status : KeyStoreCursorStatus
  entry : Option (Key × Value)
deriving DecidableEq

structure KeyStoreCursor where
  cursor : BTreeCursor
  exclusiveEnd : Option Key
  requiredPrefix : Option Key
  exhaustedByBound : Bool
deriving DecidableEq

structure KeyStoreScanResult where
  status : KeyStoreStatus
  cursor : Option KeyStoreCursor

variable {P : Type} (env : PagerEnv P)

/-- The prefix check of `current_key_is_in_bounds`: same family, and the first bytes agree. -/
def hasPrefix (text key : Key) : Bool :=
  if key.type ≠ text.type then false
  else if key.data.length < text.data.length then false
  else text.data == key.data.take text.data.length

/-- `current_key_is_in_bounds`. -/
def keyIsInBounds (exclusiveEnd requiredPrefix : Option Key) (key : Key) : Bool :=
  if exclusiveEnd.any fun stop => KeyCodec.compare key stop ≥ 0 then false
  else requiredPrefix.all fun text => hasPrefix text key

namespace KeyStoreCursor

def currentKeyIsInBounds (cursor : KeyStoreCursor) (key : Key) : Bool :=
  keyIsInBounds cursor.exclusiveEnd cursor.requiredPrefix key

def translateCursorStatus : BTreeCursorStatus → KeyStoreCursorStatus
  | .success => .success
  | .endOfTree => .endOfScan
  | .notPositioned => .notPositioned
  | .closed => .closed
  | .failedToRead => .storageError

/-- The constructor: a seek may have landed outside the bounds already. -/
def wrap (cursor : BTreeCursor) (exclusiveEnd requiredPrefix : Option Key) :
    Op P KeyStoreCursor := do
  if ¬cursor.valid then return ⟨cursor, exclusiveEnd, requiredPrefix, false⟩
  else
    let result ← cursor.current env
    match result.status, result.entry with
    | .success, some (key, _) =>
      return ⟨cursor, exclusiveEnd, requiredPrefix, !keyIsInBounds exclusiveEnd requiredPrefix key⟩
    | _, _ => return ⟨cursor, exclusiveEnd, requiredPrefix, false⟩

def current (cursor : KeyStoreCursor) : Op P KeyStoreCursorResult := do
  if cursor.exhaustedByBound then return ⟨.endOfScan, none⟩
  else
    let result ← cursor.cursor.current env
    match result.status, result.entry with
    | .success, some (key, value) =>
      if ¬cursor.currentKeyIsInBounds key then return ⟨.endOfScan, none⟩
      else if ¬(KeyCodec.validateKey key.raw ∧ ValueCodec.validateValue value.raw) then
        return ⟨.decodeFailed, none⟩
      else return ⟨.success, some (key, value)⟩
    | status, _ => return ⟨translateCursorStatus status, none⟩

def next (cursor : KeyStoreCursor) : Op P (KeyStoreCursorStatus × KeyStoreCursor) := do
  if cursor.exhaustedByBound then return (.endOfScan, cursor)
  else
    let (status, inner) ← cursor.cursor.next env
    let cursor := { cursor with cursor := inner }
    if status ≠ .success then return (translateCursorStatus status, cursor)
    else
      let result ← inner.current env
      match result.status, result.entry with
      | .success, some (key, _) =>
        if ¬cursor.currentKeyIsInBounds key then
          return (.endOfScan, { cursor with exhaustedByBound := true })
        else return (.success, cursor)
      | status, _ => return (translateCursorStatus status, cursor)

def close (cursor : KeyStoreCursor) : Op P KeyStoreCursor := do
  let inner ← cursor.cursor.close
  return { cursor with cursor := inner, exhaustedByBound := false }

end KeyStoreCursor

/-- The part of a key store that scans look at, beside its tree. -/
structure KeyStore where
  isOpen : Bool

namespace KeyStore

variable (store : KeyStore)

/-- What the four scans have in common: a cursor is opened and positioned, and closed again by
its destructor when it could not be. -/
def scanWith (start : Option Key) (exclusiveEnd requiredPrefix : Option Key) :
    Op P KeyStoreScanResult := do
  let cursor ← BTreeCursor.openCursor
  let (seekStatus, cursor) ← cursor.seekTo env start
  if seekStatus ≠ .success ∧ seekStatus ≠ .endOfTree then
    let _ ← cursor.close
    return ⟨.scanFailed, none⟩
  else
    let wrapped ← KeyStoreCursor.wrap env cursor exclusiveEnd requiredPrefix
    return ⟨.success, some wrapped⟩

def scan : Op P KeyStoreScanResult :=
  if ¬store.isOpen then return ⟨.notOpen, none⟩
  else scanWith env none none none

def scanFrom (start : RawKey) : Op P KeyStoreScanResult :=
  if ¬store.isOpen then return ⟨.notOpen, none⟩
  else if hStart : KeyCodec.validateKey start = true then
    scanWith env (some ⟨start, hStart⟩) none none
  else return ⟨.invalidKey, none⟩

def scanRange (start stop : RawKey) : Op P KeyStoreScanResult :=
  if ¬store.isOpen then return ⟨.notOpen, none⟩
  else if hKeys : KeyCodec.validateKey start = true ∧ KeyCodec.validateKey stop = true then
    if KeyCodec.compare ⟨start, hKeys.1⟩ ⟨stop, hKeys.2⟩ > 0 then return ⟨.invalidRange, none⟩
    else scanWith env (some ⟨start, hKeys.1⟩) (some ⟨stop, hKeys.2⟩) none
  else return ⟨.invalidKey, none⟩

def scanPrefix (text : RawKey) : Op P KeyStoreScanResult :=
  if ¬store.isOpen then return ⟨.notOpen, none⟩
  else if hText : KeyCodec.validateKey text = true ∧ (text.type = .string ∨ text.type = .bytes) then
    scanWith env (some ⟨text, hText.1⟩) none (some ⟨text, hText.1⟩)
  else return ⟨.invalidKey, none⟩

end KeyStore

end Stoneleaf
