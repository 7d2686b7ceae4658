import Stoneleaf.Log.WalRecordCodec

/-!
The write-ahead log over its segments. A log without segments is closed. The lock of the source
serializes its calls, so each call is one step here. File operations succeed.
-/

namespace Stoneleaf

open Library Program

structure Log where
  config : Config
  segments : List Segment
  nextLsn : Nat
  durableLsn : Nat
  recoveryRequired : Bool
  disk : Disk

abbrev LogOp : Type → Type :=
  Program Log Exception

namespace Log

/-- A log object that was not opened yet, on a directory as a previous process left it. -/
def closed (config : Config) (directory : Directory) : Log where
  config := config
  segments := []
  nextLsn := 0
  durableLsn := 0
  recoveryRequired := false
  disk := ⟨directory, []⟩

def onDisk {α : Type} (x : DiskOp α) : LogOp α :=
  x.zoom Log.disk fun disk log => { log with disk := disk }

def createSegment (base : Nat) : LogOp Unit := do
  let segment ← onDisk (Segment.create walFormat base)
  modify fun log => { log with segments := log.segments ++ [segment] }

/-- A store must exist; an index can be rebuilt. -/
def checkFiles (files : SegmentFiles) : Except Exception Unit :=
  if files.store = none then
    .error (.runtimeError "WAL Index exists without its authoritative Store")
  else .ok ()

def openSegments : LogOp Unit := do
  let entries ← read fun log => log.disk.directory.entries
  let initialLsn ← read fun log => log.config.initialLsn
  if entries.isEmpty then createSegment initialLsn
  else
    let segments ← onDisk (Segment.openAll walFormat
      "WAL segments do not form a continuous LSN sequence" checkFiles initialLsn entries)
    modify fun log => { log with segments := segments }

/-- `Log::open`: everything found in the directory counts as durable. -/
def openLog : LogOp Unit := do
  if ¬(← read fun log => log.segments.isEmpty) then
    fail (.runtimeError "Log is already open")
  openSegments.onFail fun log => { log with segments := [], nextLsn := 0, durableLsn := 0 }
  modify fun log =>
    let next := (log.segments.getLast?.map Segment.next).getD 0
    { log with nextLsn := next, durableLsn := next - 1, recoveryRequired := false }

/-- The checks that append and synchronization start with. -/
def requireUsable (text : String) : LogOp Unit := do
  if ← read fun log => log.segments.isEmpty then
    fail (.runtimeError "Log is not open")
  if ← read fun log => log.recoveryRequired then fail (.runtimeError text)

theorem wp_requireUsable {log : Log} {text : String} {okay : Unit → Log → Prop}
    {failed : Exception → Log → Prop} {halted : Log → Prop}
    (hClosed : log.segments.isEmpty = true → failed (.runtimeError "Log is not open") log)
    (hFail : log.recoveryRequired = true → failed (.runtimeError text) log)
    (hOkay : log.segments.isEmpty = false → log.recoveryRequired = false → okay () log) :
    (requireUsable text).wp log okay failed halted := by
  unfold requireUsable
  simp only [wp_bind, wp_read, wp_ite, wp_fail, wp_pure,
    Bool.not_eq_true]
  exact ⟨hClosed, fun hOpen => ⟨hFail, hOkay hOpen⟩⟩

/-- The segment that records are appended to. -/
def active (log : Log) : Segment :=
  log.segments.getLast?.getD ⟨0, 0⟩

def number (pending : PendingLogRecord) (lsn : Nat) : LogRecord where
  lsn := .ofNat lsn
  type := pending.type
  transactionId := pending.transactionId
  prevLsn := pending.prevLsn
  data := pending.data

/-- Write to the active segment. Only a failure after writing began makes the log unusable. -/
def appendToActive (record : LogRecord) : LogOp Unit := do
  let segment ← read active
  let encoded ← orThrow (segment.prepare walFormat record)
  let segment ← (onDisk (segment.writeRecord encoded)).onFail
    fun log => { log with recoveryRequired := true }
  modify fun log =>
    { log with segments := log.segments.dropLast ++ [segment], nextLsn := log.nextLsn + 1 }

/-- `Log::append`. A record that crosses a limit stays in its segment, and the next one starts
a new segment. -/
def append (pending : PendingLogRecord) : LogOp UInt64 := do
  requireUsable "Log must be reopened and recovered before appending"
  let nextLsn ← read Log.nextLsn
  let record := number pending nextLsn
  let _ ← orThrow (WalRecordCodec.encode record)
  let config ← read Log.config
  if ← onDisk ((← read active).isMaxed config) then createSegment nextLsn
  appendToActive record
  return record.lsn

def syncSegments (targetLsn : Nat) (segments : List Segment) : LogOp Unit :=
  (Segment.syncLoop targetLsn segments).zoom (fun log => (log.disk, log.durableLsn))
    fun synced log => { log with disk := synced.1, durableLsn := synced.2 }

def syncThrough (targetLsn : Nat) : LogOp Unit := do
  requireUsable "Log must be reopened and recovered before synchronization"
  let initialLsn ← read fun log => log.config.initialLsn
  if targetLsn < initialLsn ∨ targetLsn ≥ (← read Log.nextLsn) then
    fail (.outOfRange "Target LSN is not present in Log")
  if targetLsn ≤ (← read Log.durableLsn) then return ()
  syncSegments targetLsn (← read Log.segments)

def scanSegments : List Segment → LogOp (List LogRecord)
  | [] => return []
  | segment :: rest => do
    let part ← onDisk (segment.scan walFormat)
    return part ++ (← scanSegments rest)

/-- `Log::scan`: the records of all segments. -/
def scan : LogOp (List LogRecord) := do
  if ← read fun log => log.segments.isEmpty then
    fail (.runtimeError "Log is not open")
  scanSegments (← read Log.segments)

end Log

end Stoneleaf
