import Stoneleaf.Raft.RaftEntryCodec

/-!
The replicated log over its segments. A log without segments is closed. As in the write-ahead
log the lock serializes the calls, and file operations succeed. In addition to appending, the
log can be cut: the segment with the first entry to go is shortened, and the later segments are
removed file by file.
-/

namespace Stoneleaf

open Library Program

/-- The constructor only accepts logs that begin at index one. -/
structure RaftConfig extends Config where
  initialLsn_one : initialLsn = 1

structure RaftLog where
  config : RaftConfig
  segments : List Segment
  nextIndex : Nat
  lastTerm : UInt64
  durableIndex : Nat
  recoveryRequired : Bool
  directoryDirty : Bool
  disk : Disk

abbrev RaftOp : Type → Type :=
  Program RaftLog Exception

namespace RaftSegment

/-- The term is read from the first bytes of the entry, without decoding it. -/
def termAt (segment : Segment) (index : Nat) : DiskOp UInt64 := do
  if index < segment.base ∨ index ≥ segment.next then
    fail (.outOfRange raftFormat.texts.outsideSegment)
  let offset ← orThrow (Index.read (← readFile ⟨segment.base, .index⟩) (index - segment.base))
  let leading ← orThrow (Store.readPrefix (← readFile ⟨segment.base, .store⟩) offset 8)
  return .ofNat (ofBigEndian leading)

/-- The store is cut before its index. -/
def truncateSuffix (segment : Segment) (fromIndex : Nat) : DiskOp Segment := do
  if fromIndex < segment.base ∨ fromIndex > segment.next then
    fail (.outOfRange "Raft truncation boundary is outside this segment")
  if fromIndex = segment.next then return segment
  Store.truncateTo segment.base (fromIndex - segment.base)
  Index.truncateTo segment.base (fromIndex - segment.base)
  return { segment with next := fromIndex }

end RaftSegment

namespace RaftLog

/-- A log object that was not opened yet, on a directory as a previous process left it. -/
def closed (config : RaftConfig) (directory : Directory) : RaftLog where
  config := config
  segments := []
  nextIndex := 0
  lastTerm := 0
  durableIndex := 0
  recoveryRequired := false
  directoryDirty := false
  disk := ⟨directory, []⟩

def onDisk {α : Type} (x : DiskOp α) : RaftOp α :=
  x.zoom RaftLog.disk fun disk log => { log with disk := disk }

def createSegment (base : Nat) : RaftOp Unit := do
  let segment ← onDisk (Segment.create raftFormat base)
  modify fun log => { log with segments := log.segments ++ [segment] }

section Open

def removeIndexes : List Nat → DiskOp Unit
  | [] => pure ()
  | base :: bases => do
    fileOp (.remove ⟨base, .index⟩)
    removeIndexes bases

/-- An index without its store is what a removal leaves that was interrupted. -/
def removeOrphans (entries : List (Nat × SegmentFiles)) : DiskOp Unit := do
  let orphans := (entries.filter fun entry => entry.2.store.isNone).map Prod.fst
  if orphans.isEmpty then pure ()
  else
    removeIndexes orphans
    fileOp .syncDirectory

def openSegments : RaftOp Unit := do
  let entries ← Program.read fun log => log.disk.directory.entries
  onDisk (removeOrphans entries)
  let found := entries.filter fun entry => entry.2.store.isSome
  if found.isEmpty then createSegment 1
  else
    let segments ← onDisk (Segment.openAll raftFormat
      "Raft segments do not form a continuous index sequence" (fun _ => .ok ()) 1 found)
    modify fun log => { log with segments := segments }

/-- The term of the last entry, looking at the given segments from the back. -/
def lastTermOf : List Segment → DiskOp UInt64
  | [] => return 0
  | segment :: rest =>
    if segment.next > segment.base then RaftSegment.termAt segment (segment.next - 1)
    else lastTermOf rest

/-- The part of `RaftLog::open` inside of its try block: everything found in the directory
counts as durable. -/
def openAndCount : RaftOp Unit := do
  openSegments
  let segments ← Program.read RaftLog.segments
  let next := (segments.getLast?.map Segment.next).getD 0
  let lastTerm ← if next > 1 then onDisk (lastTermOf segments.reverse) else pure 0
  modify fun log =>
    { log with
      nextIndex := next, lastTerm := lastTerm, durableIndex := next - 1,
      recoveryRequired := false, directoryDirty := false }

def openLog : RaftOp Unit := do
  if ¬(← Program.read fun log => log.segments.isEmpty) then
    fail (.runtimeError "Raft log is already open")
  openAndCount.onFail fun log =>
    { log with
      segments := [], nextIndex := 0, lastTerm := 0, durableIndex := 0,
      recoveryRequired := false, directoryDirty := false }

end Open

/-- The check that every call starts with. -/
def requireOpen : RaftOp Unit := do
  if ← Program.read fun log => log.segments.isEmpty then
    fail (.runtimeError "Raft log is not open")

def requireUsable (text : String) : RaftOp Unit := do
  requireOpen
  if ← Program.read RaftLog.recoveryRequired then fail (.runtimeError text)

theorem wp_requireUsable {log : RaftLog} {text : String} {okay : Unit → RaftLog → Prop}
    {failed : Exception → RaftLog → Prop} {halted : RaftLog → Prop}
    (hClosed : log.segments.isEmpty = true → failed (.runtimeError "Raft log is not open") log)
    (hFail : log.recoveryRequired = true → failed (.runtimeError text) log)
    (hOkay : log.segments.isEmpty = false → log.recoveryRequired = false → okay () log) :
    (requireUsable text).wp log okay failed halted := by
  unfold requireUsable requireOpen
  simp only [wp_bind, wp_read, wp_ite, wp_fail, wp_pure,
    Bool.not_eq_true]
  exact ⟨hClosed, fun hOpen => ⟨hFail, hOkay hOpen⟩⟩

/-- The segment that entries are appended to. -/
def active (log : RaftLog) : Segment :=
  log.segments.getLast?.getD ⟨0, 0⟩

section Append

/-- Write to the active segment. Only a failure after writing began makes the log unusable. -/
def appendToActive (entry : RaftMutationEntry) : RaftOp Unit := do
  let segment ← Program.read active
  let encoded ← orThrow (segment.prepare raftFormat entry)
  let segment ← (onDisk (segment.writeRecord encoded)).onFail
    fun log => { log with recoveryRequired := true }
  modify fun log =>
    { log with
      segments := log.segments.dropLast ++ [segment], nextIndex := log.nextIndex + 1,
      lastTerm := entry.term }

/-- An entry that crosses a limit stays in its segment, and the next one starts a new one. -/
def appendEntry (entry : RaftMutationEntry) : RaftOp Unit := do
  let config ← Program.read RaftLog.config
  let nextIndex ← Program.read RaftLog.nextIndex
  if ← onDisk ((← Program.read active).isMaxed config.toConfig) then createSegment nextIndex
  appendToActive entry

def append (term : UInt64) (operations : List MutationOp) : RaftOp UInt64 := do
  requireUsable "Raft log must be reopened before appending"
  let nextIndex ← Program.read RaftLog.nextIndex
  let entry : RaftMutationEntry := ⟨term, .ofNat nextIndex, operations⟩
  let _ ← orThrow (RaftEntryCodec.encode entry)
  appendEntry entry
  return entry.idx

/-- All entries of a batch are looked at before the first one is written. -/
def checkBatch (expected : UInt64) : List RaftMutationEntry → Except Exception Unit
  | [] => .ok ()
  | entry :: entries =>
    if entry.idx ≠ expected then
      .error (.invalidArgument "Leader batch indexes must be dense and match first_index")
    else
      match RaftEntryCodec.encode entry with
      | .error e => .error e
      | .ok _ => checkBatch (expected + 1) entries

def appendEntries : List RaftMutationEntry → RaftOp Unit
  | [] => pure ()
  | entry :: entries => do
    appendEntry entry
    appendEntries entries

def appendFromLeader (firstIndex : UInt64) (entries : List RaftMutationEntry) : RaftOp Unit := do
  requireUsable "Raft log must be reopened before appending"
  if firstIndex.toNat ≠ (← Program.read RaftLog.nextIndex) then
    fail (.invalidArgument "Leader batch must begin at the next Raft index")
  orThrow (checkBatch firstIndex entries)
  appendEntries entries

end Append

section Read

/-- The segment with a given index. -/
def segmentOf (segments : List Segment) (index : Nat) : Option Segment :=
  segments.find? fun segment => segment.base ≤ index && index < segment.next

def scanSegments (index : Nat) : List Segment → RaftOp (List RaftMutationEntry)
  | [] => return []
  | segment :: rest => do
    if segment.next ≤ index then scanSegments index rest
    else
      let part ← onDisk (segment.scan raftFormat)
      return part.drop (max index segment.base - segment.base) ++ (← scanSegments index rest)

def read (index : Nat) : RaftOp RaftMutationEntry := do
  requireOpen
  if index = 0 ∨ index ≥ (← Program.read RaftLog.nextIndex) then
    fail (.outOfRange "Raft index is not present in log")
  match segmentOf (← Program.read RaftLog.segments) index with
  | some segment => onDisk (segment.read raftFormat index)
  | none => fail (.outOfRange "Raft index is not present in log")

/-- `RaftLog::scan_from`: the entries from an index on. -/
def scanFrom (index : Nat) : RaftOp (List RaftMutationEntry) := do
  requireOpen
  if index = 0 ∨ index > (← Program.read RaftLog.nextIndex) then
    fail (.outOfRange "Raft scan index is outside the log")
  scanSegments index (← Program.read RaftLog.segments)

def lastIndex (log : RaftLog) : Nat :=
  if log.nextIndex = 0 then 0 else log.nextIndex - 1

/-- Zero outside of the log. -/
def termAt (index : Nat) : RaftOp UInt64 := do
  requireOpen
  if index = 0 ∨ index ≥ (← Program.read RaftLog.nextIndex) then return 0
  match segmentOf (← Program.read RaftLog.segments) index with
  | some segment => onDisk (RaftSegment.termAt segment index)
  | none => return 0

end Read

section Truncate

/-- The first segment that can end before an index, with the segments around it. -/
def targetOf (fromIndex : Nat) : List Segment → Option (List Segment × Segment × List Segment)
  | [] => none
  | segment :: rest =>
    if segment.base ≤ fromIndex ∧ fromIndex ≤ segment.next then some ([], segment, rest)
    else (targetOf fromIndex rest).map fun found => (segment :: found.1, found.2)

/-- Remove the files of the given segments, each store before its index. -/
def removeSegments : List Segment → RaftOp Unit
  | [] => pure ()
  | segment :: rest => do
    onDisk (fileOp (.remove ⟨segment.base, .store⟩))
    onDisk (fileOp (.remove ⟨segment.base, .index⟩))
    modify fun log => { log with directoryDirty := true }
    removeSegments rest

/-- The term of the last entry that a truncation keeps. -/
def retainedTerm (fromIndex : Nat) (segments : List Segment) : DiskOp UInt64 :=
  if fromIndex > 1 then
    match segmentOf segments (fromIndex - 1) with
    | some segment => RaftSegment.termAt segment (fromIndex - 1)
    | none => return 0
  else return 0

def truncateSegments (fromIndex : Nat) (before : List Segment) (target : Segment)
    (later : List Segment) : RaftOp Unit := do
  let target ← onDisk (RaftSegment.truncateSuffix target fromIndex)
  modify fun log => { log with segments := before ++ [target] }
  removeSegments later

def truncateSuffix (fromIndex : Nat) : RaftOp Unit := do
  requireUsable "Raft log must be reopened before truncating"
  let nextIndex ← Program.read RaftLog.nextIndex
  if fromIndex = 0 ∨ fromIndex > nextIndex then
    fail (.outOfRange "Raft truncation boundary is outside the log")
  if fromIndex = nextIndex then return ()
  let segments ← Program.read RaftLog.segments
  let retained ← onDisk (retainedTerm fromIndex segments)
  match targetOf fromIndex segments with
  | none => fail (.runtimeError "Raft truncation boundary has no containing segment")
  | some (before, target, later) =>
    (truncateSegments fromIndex before target later).onFail
      fun log => { log with recoveryRequired := true }
    modify fun log =>
      { log with
        nextIndex := fromIndex, lastTerm := retained,
        durableIndex := min log.durableIndex (fromIndex - 1) }

end Truncate

section Sync

def syncSegments (index : Nat) (segments : List Segment) : RaftOp Unit :=
  (Segment.syncLoop index segments).zoom (fun log => (log.disk, log.durableIndex))
    fun synced log => { log with disk := synced.1, durableIndex := synced.2 }

def syncThrough (index : Nat) : RaftOp Unit := do
  requireUsable "Raft log must be reopened before synchronization"
  if index = 0 ∨ index ≥ (← Program.read RaftLog.nextIndex) then
    fail (.outOfRange "Raft durability target is not present in log")
  let dirty ← Program.read RaftLog.directoryDirty
  if index ≤ (← Program.read RaftLog.durableIndex) ∧ ¬dirty then return ()
  syncSegments index (← Program.read RaftLog.segments)
  if dirty then
    onDisk (fileOp .syncDirectory)
    modify fun log => { log with directoryDirty := false }

end Sync

section Close

def syncAll : List Segment → DiskOp Unit
  | [] => pure ()
  | segment :: rest => do
    segment.sync
    syncAll rest

/-- Nothing happens to a log that is closed already. -/
def close : RaftOp Unit := do
  let segments ← Program.read RaftLog.segments
  if segments.isEmpty then pure ()
  else
    if ← Program.read RaftLog.recoveryRequired then
      fail (.runtimeError "Raft log must be reopened before close")
    onDisk (syncAll segments)
    if ← Program.read RaftLog.directoryDirty then onDisk (fileOp .syncDirectory)
    modify fun log =>
      { log with
        segments := [], nextIndex := 0, lastTerm := 0, durableIndex := 0, directoryDirty := false }

end Close

end RaftLog

end Stoneleaf
