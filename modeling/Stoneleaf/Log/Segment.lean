import Stoneleaf.Log.Store
import Stoneleaf.Log.Index

/-!
A segment of a log: a store with consecutively numbered records and its index. The write-ahead
log and the replicated log have one segment class each; they differ in what a record is and in
the texts of their exceptions, so both are this definition over a record format.
-/

namespace Stoneleaf

open Library

/-- Limits of a segment and the number of the first record of a log. That number is a `uint64_t` in
the source and has no such bound here; the records have one, in their `UInt64` numbers. -/
structure Config where
  maxIndexBytes : Nat
  maxStoreBytes : Nat
  initialLsn : Nat
  maxIndexBytes_lt : maxIndexBytes < 2 ^ 64
  maxStoreBytes_lt : maxStoreBytes < 2 ^ 64
  maxIndexBytes_valid : maxIndexBytes ≠ 0 ∧ maxIndexBytes % Index.entrySize = 0
  maxStoreBytes_valid : maxStoreBytes ≠ 0
  initialLsn_valid : initialLsn ≠ 0

structure SegmentTexts where
  wrongNumber : String
  ordinalTooLarge : String
  outsideSegment : String
  wrongRecordRead : String
  corruptIndex : String
  wrongIndexEntry : String
  notDense : String
  tooManyRecords : String
  countDisagrees : String

/-- What a segment needs to know about its records. -/
structure RecordFormat (R : Type) where
  encode : R → Except Exception (List UInt8)
  decode : List UInt8 → Except Exception R
  number : R → Nat
  texts : SegmentTexts

/-- The segment object: the number of its first record and the next one to append. Its flag for
a failed append is set together with the flag of the log it belongs to. -/
structure Segment where
  base : Nat
  next : Nat
deriving DecidableEq, Repr

namespace Segment

variable {R : Type} (format : RecordFormat R)

/-- The checks of `append` before anything is written; the result is the encoded record. -/
def prepare (segment : Segment) (record : R) : Except Exception (List UInt8) := do
  if format.number record ≠ segment.next then .error (.invalidArgument format.texts.wrongNumber)
  if format.number record - segment.base > 2 ^ 32 - 1 then
    .error (.lengthError format.texts.ordinalTooLarge)
  format.encode record

/-- The writes of `append`: the authoritative store first. -/
def writeRecord (segment : Segment) (encoded : List UInt8) : DiskOp Segment := do
  let offset ← Store.append segment.base encoded
  Index.append segment.base (segment.next - segment.base) offset
  return { segment with next := segment.next + 1 }

def read (segment : Segment) (number : Nat) : DiskOp R := do
  if number < segment.base ∨ number ≥ segment.next then
    Program.fail (.outOfRange format.texts.outsideSegment)
  let offset ← orThrow (Index.read (← readFile ⟨segment.base, .index⟩) (number - segment.base))
  let encoded ← orThrow (Store.read (← readFile ⟨segment.base, .store⟩) offset)
  let record ← orThrow (format.decode encoded)
  if format.number record ≠ number then
    Program.fail (.runtimeError format.texts.wrongRecordRead)
  return record

def sync (segment : Segment) : DiskOp Unit := do
  Store.sync segment.base
  Index.sync segment.base

/-- The synchronization loop of both logs, on the files and the last durable number: whole
segments, in order, until the target is durable. -/
def syncLoop (target : Nat) : List Segment → Program (Disk × Nat) Exception Unit
  | [] => pure ()
  | segment :: rest => do
    if segment.next = segment.base ∨ segment.next - 1 ≤ (← Program.read Prod.snd) then
      syncLoop target rest
    else
      segment.sync.zoom Prod.fst fun disk synced => (disk, synced.2)
      Program.modify fun synced => (synced.1, segment.next - 1)
      if segment.next - 1 ≥ target then pure () else syncLoop target rest

/-- Equality with a limit is allowed: the record that crosses it stays in the segment. -/
def isMaxed (config : Config) (segment : Segment) : DiskOp Bool := do
  let store ← readFile ⟨segment.base, .store⟩
  let index ← readFile ⟨segment.base, .index⟩
  return decide (store.length > config.maxStoreBytes ∨ index.length > config.maxIndexBytes)

section Recover

/-- Where the records that the index does not know begin: behind the last record it knows. -/
def suffixOffset (base : Nat) (store index : List UInt8) (commonCount : Nat) :
    Except Exception Nat := do
  if commonCount = 0 then return 0
  let indexedOffset ← Index.read index (commonCount - 1)
  let encoded ← Store.read store indexedOffset
  let record ← format.decode encoded
  let nextOffset := indexedOffset + Store.recordLengthSize + encoded.length
  if format.number record ≠ base + (commonCount - 1) ∨
      nextOffset > (Store.inspectFile store).validSize then
    .error (.runtimeError format.texts.wrongIndexEntry)
  return nextOffset

/-- The offsets of the records from a cursor on, which must be numbered consecutively. -/
def missingOffsets (base : Nat) (store : List UInt8) (ordinal cursor : Nat) :
    Except Exception (List Nat) :=
  if cursor < (Store.inspectFile store).validSize then
    match Store.read store cursor with
    | .error e => .error e
    | .ok encoded =>
      match format.decode encoded with
      | .error e => .error e
      | .ok record =>
        if format.number record ≠ base + ordinal then
          .error (.runtimeError format.texts.notDense)
        else if ordinal > 2 ^ 32 - 1 then
          .error (.lengthError format.texts.tooManyRecords)
        else
          (missingOffsets base store (ordinal + 1)
            (cursor + (Store.recordLengthSize + encoded.length))).map (cursor :: ·)
  else .ok []
termination_by (Store.inspectFile store).validSize - cursor
decreasing_by
  simp only [Store.recordLengthSize]
  omega

/-- Cut the store behind its last complete record; the result says whether it was cut. -/
def repairStore (base : Nat) : DiskOp Bool := do
  let scan := Store.inspectFile (← readFile ⟨base, .store⟩)
  if scan.status = .incompleteTail then
    Store.repairTail base
    return true
  else return false

/-- How the index has to change: how many of its entries stay, whether anything behind them is
cut off, and the offsets that are missing. -/
structure Reconciliation where
  recordCount : Nat
  commonCount : Nat
  truncates : Bool
  missing : List Nat

def Reconciliation.indexChanged (plan : Reconciliation) : Bool :=
  plan.truncates || !plan.missing.isEmpty

/-- Compare the two files before anything of the index is rewritten. -/
def reconcile (base : Nat) (store index : List UInt8) : Except Exception Reconciliation := do
  let storeScan := Store.inspectFile store
  let indexScan := Index.inspectFile index
  if indexScan.status = .corrupt then .error (.runtimeError format.texts.corruptIndex)
  let commonCount := min indexScan.entryCount storeScan.recordCount
  let cursor ← suffixOffset format base store index commonCount
  let missing ← missingOffsets format base store commonCount cursor
  if commonCount + missing.length ≠ storeScan.recordCount then
    .error (.runtimeError format.texts.countDisagrees)
  let truncates := decide (indexScan.status ≠ .complete ∨ indexScan.entryCount ≠ commonCount)
  return ⟨storeScan.recordCount, commonCount, truncates, missing⟩

def appendMissing (base : Nat) : Nat → List Nat → DiskOp Unit
  | _, [] => pure ()
  | ordinal, offset :: offsets => do
    Index.append base ordinal offset
    appendMissing base (ordinal + 1) offsets

def rebuildIndex (base : Nat) (plan : Reconciliation) : DiskOp Unit := do
  if plan.truncates then
    Index.truncateTo base plan.commonCount
    appendMissing base plan.commonCount plan.missing
  else appendMissing base plan.commonCount plan.missing

/-- The store is synchronized first, also when only the index changed. -/
def syncRepaired (base : Nat) (storeChanged indexChanged : Bool) : DiskOp Unit :=
  if indexChanged then do
    Store.sync base
    Index.sync base
  else if storeChanged then Store.sync base
  else pure ()

/-- Opening a segment: cut the store behind its last complete record and bring the index into
agreement with it. -/
def recover (base : Nat) : DiskOp Segment := do
  let storeChanged ← repairStore base
  let store ← readFile ⟨base, .store⟩
  let index ← readFile ⟨base, .index⟩
  let plan ← orThrow (reconcile format base store index)
  rebuildIndex base plan
  syncRepaired base storeChanged plan.indexChanged
  return ⟨base, base + plan.recordCount⟩

end Recover

section Scan

/-- The records of a store from an offset on. -/
def scanFrom (store : List UInt8) (expected offset : Nat) : Except Exception (List R) :=
  if offset < (Store.inspectFile store).validSize then
    match Store.read store offset with
    | .error e => .error e
    | .ok encoded =>
      match format.decode encoded with
      | .error e => .error e
      | .ok record =>
        if format.number record ≠ expected then .error (.runtimeError format.texts.notDense)
        else
          (scanFrom store (expected + 1)
            (offset + (Store.recordLengthSize + encoded.length))).map (record :: ·)
  else .ok []
termination_by (Store.inspectFile store).validSize - offset
decreasing_by
  simp only [Store.recordLengthSize]
  omega

def scan (segment : Segment) : DiskOp (List R) := do
  orThrow (scanFrom format (← readFile ⟨segment.base, .store⟩) segment.base 0)

end Scan

section Open

/-- The files of a new segment, which is opened like any other. -/
def create (base : Nat) : DiskOp Segment := do
  createFile ⟨base, .store⟩
  createFile ⟨base, .index⟩
  fileOp .syncDirectory
  recover format base

/-- Open one segment found in a directory; a missing index is created. -/
def openFound (base : Nat) (files : SegmentFiles) : DiskOp Segment := do
  openOrCreateFile ⟨base, .index⟩
  let segment ← recover format base
  if files.index = none then fileOp .syncDirectory
  return segment

/-- Open the segments that were found in a directory, in increasing order. The base of each must
be the number after the last record of the one before; `check` looks at the files found. -/
def openAll (gap : String) (check : SegmentFiles → Except Exception Unit) :
    Nat → List (Nat × SegmentFiles) → DiskOp (List Segment)
  | _, [] => return []
  | expected, (base, files) :: rest => do
    if base ≠ expected then Program.fail (.runtimeError gap)
    orThrow (check files)
    let segment ← openFound format base files
    return segment :: (← openAll gap check segment.next rest)

end Open

end Segment

end Stoneleaf
