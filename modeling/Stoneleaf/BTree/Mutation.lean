import Stoneleaf.BTree.Split
import Stoneleaf.BTree.Merge

/-!
The tree operations: lookup, insert, remove, and the logical undo of either mutation. A
mutation ends by appending one log record with all of its page effects and stamping the
record's number into the pages. The caller says what else the record holds: the undo of an
action of a running transaction, or what a compensation undoes during rollback.
-/

namespace Stoneleaf

open Library Program

variable {P : Type} (env : PagerEnv P)

/-- The record of a mutation, but for its page effects. -/
inductive PendingMutation where
  | action (transactionId : TransactionId) (prevLsn : Lsn) (undo : UndoDescriptor)
  | compensation (transactionId : TransactionId) (prevLsn undoOfLsn undoNextLsn : Lsn)
deriving DecidableEq

def PendingMutation.build (effects : List (PageEffect P)) : PendingMutation → PendingWalRecord P
  | action transactionId prevLsn undo => ⟨transactionId, prevLsn, .btreeAction undo effects⟩
  | compensation transactionId prevLsn undoOfLsn undoNextLsn =>
    ⟨transactionId, prevLsn, .compensation undoOfLsn undoNextLsn effects⟩

@[simp] theorem PendingMutation.effects_build (effects : List (PageEffect P))
    (pending : PendingMutation) : (pending.build effects).payload.effects = effects := by
  cases pending <;> rfl

/-- `Log::append` of a record with page effects; encoding rejects an empty list. -/
def appendRecord (pending : PendingWalRecord P) : Op P Lsn := do
  if pending.payload.effects.isEmpty then fail .exception
  if ← ioFault env then fail .exception
  let lsn := (← read fun s => s.wal).nextLsn
  modify fun s => { s with wal := s.wal.append pending }
  return lsn

def OpState.poison (s : OpState P) : OpState P :=
  { s with storagePoisoned := true }

/-- Stamp the record number into every page the action changed. -/
def installLsns (lsn : Lsn) : List (PageEffect P) → Op P Bool
  | [] => return true
  | effect :: rest => do
    if ¬(← installPageLsn env effect.pageNum lsn) then
      modify OpState.poison
      return false
    installLsns lsn rest

/-- `finalize_action` and `finalize_compensation`. -/
def finalizeMutation (pending : PendingMutation) : Op P Bool := do
  let effects ← read fun s => s.effects
  let lsn ← (appendRecord env (pending.build effects)).onFail OpState.poison
  installLsns env lsn effects

def OpState.releaseLatches (s : OpState P) : OpState P :=
  { s with latches := fun _ => none }

/-- The lifetime of one `BTreeOperation`: it starts without latches and drops all it holds. -/
def withOperation {α : Type} (body : Op P α) : Op P α := do
  modify OpState.releaseLatches
  body.ensuring OpState.releaseLatches

/-- A fresh pending action has no effects. -/
def beginAction : Op P Unit :=
  modify fun s => { s with effects := [] }

def insertFinish (pending : PendingMutation) : Op P Unit := do
  if ¬(← finalizeMutation env pending) then fail .failedToInsert

/-- The first half of an insert into an empty tree: a leaf with one entry becomes the root. -/
def createRootLeaf (key : Key) (value : Value) : Op P Unit := do
  let some (root, effects) ← allocatePage env .btreeLeaf
    | fail .failedToInsert
  recordPagerEffects effects
  setFrame root (env.format.fillInitialLeaf (← frame root))
  let page ← decodeLeaf env root
  let some page := page.insertAt 0 key value
    | do
      unrefPage root
      fail .failedToInsert
  writeBack env root (.leaf page)
  recordPageEffect .write root
  let setRoot ← setBtreeRoot env root
  unrefPage root
  let some effects := setRoot
    | fail .failedToInsert
  recordPagerEffects effects

def insertIntoEmptyTree (pending : PendingMutation) (key : Key) (value : Value) : Op P Unit := do
  createRootLeaf env key value
  insertFinish env pending

def insertIntoLeaf (pending : PendingMutation) (key : Key) (value : Value) (descent : LeafDescent) :
    Op P Unit := do
  let leaf := descent.leafPageNum
  if ¬(← beginWalWrite leaf) then
    unrefPage leaf
    fail .failedToInsert
  let page ← decodeLeaf env leaf
  if page.keyExists key then
    let some page := page.set key value
      | do
        unrefPage leaf
        fail .failedToInsert
    writeBack env leaf (.leaf page)
    recordPageEffect .write leaf
    unrefPage leaf
    insertFinish env pending
  else
    let some page := page.insertAt (lowerBoundKey page.keys key) key value
      | do
        unrefPage leaf
        fail .failedToInsert
    writeBack env leaf (.leaf page)
    recordPageEffect .write leaf
    if page.getKeyCount > maxKeys btreeOrder then
      (propagateSplitting env descent.path leaf).ensuring (OpState.unref leaf)
      insertFinish env pending
    else
      unrefPage leaf
      insertFinish env pending

def insertImpl (pending : PendingMutation) (key : Key) (value : Value) : Op P Unit := do
  if ← read fun s => s.storagePoisoned then fail .failedToInsert
  if (← read fun s => s.activeCursorCount) > 0 then fail .cursorActive
  beginAction
  withOperation do
    match ← descendForMutation env key .insert with
    | none => insertIntoEmptyTree env pending key value
    | some descent => insertIntoLeaf env pending key value descent

def removeFinish (pending : PendingMutation) : Op P Unit := do
  if ¬(← finalizeMutation env pending) then fail .failedToRemove

def removeFromLeaf (pending : PendingMutation) (key : Key) (descent : LeafDescent) :
    Op P Value := do
  let leaf := descent.leafPageNum
  let page ← decodeLeaf env leaf
  let keyIdx := lowerBoundKey page.keys key
  if ¬page.keyExists key then
    unrefPage leaf
    fail .keyNotInTree
  let value ← orHalt (page.getAt keyIdx)
  if ¬(← beginWalWrite leaf) then
    unrefPage leaf
    fail .failedToRemove
  let some page := page.removeAt keyIdx
    | do
      unrefPage leaf
      fail .failedToRemove
  writeBack env leaf (.leaf page)
  recordPageEffect .write leaf
  if page.getKeyCount < minKeys btreeOrder then
    (propagateMerging env descent.path leaf).ensuring (OpState.unref leaf)
    removeFinish env pending
    return value
  else if keyIdx = 0 then
    let newMin ← orHalt (page.keyAt 0)
    (propagateSeparatorChangeUpward env newMin descent.path).ensuring (OpState.unref leaf)
    removeFinish env pending
    return value
  else
    unrefPage leaf
    removeFinish env pending
    return value

def removeImpl (pending : PendingMutation) (key : Key) : Op P Value := do
  if ← read fun s => s.storagePoisoned then fail .failedToRemove
  if (← read fun s => s.activeCursorCount) > 0 then fail .cursorActive
  beginAction
  withOperation do
    match ← descendForMutation env key .remove with
    | none => fail .keyNotInTree
    | some descent => removeFromLeaf env pending key descent

/-- `BTree::get`. -/
def lookup (key : Key) : Op P Value := do
  if ← read fun s => s.storagePoisoned then fail .failedToRead
  withOperation do
    match ← descendFromRootToLeaf env key .shared .none .optimistic with
    | none => fail .keyNotInTree
    | some descent => do
      let page ← decodeLeaf env descent.leafPageNum
      if ¬page.keyExists key then
        unrefPage descent.leafPageNum
        fail .keyNotInTree
      let value ← orHalt (page.get key)
      unrefPage descent.leafPageNum
      return value

/-- `apply_undo`: every status other than success is reported as `false` by the source. -/
def applyUndo (pending : PendingMutation) : UndoDescriptor → Op P Unit
  | .insertUndo key => do
    let _ ← removeImpl env pending key
    return ()
  | .updateUndo key oldValue => insertImpl env pending key oldValue
  | .deleteUndo key oldValue => insertImpl env pending key oldValue

end Stoneleaf
