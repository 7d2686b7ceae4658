import Stoneleaf.Log.LogLoss
import Stoneleaf.Raft.RaftLogList

/-!
Appends in which one file operation fails. A failing write may still have written some of its
bytes, which the store or the index then cuts off again; a failing creation leaves no file. Rolling
over creates two files and synchronizes the directory before the new segment is registered, and
nothing takes the files back: after a failure in between, the next attempt finds them.
-/

namespace Stoneleaf

open Library Program Segment RaftEntryCodec Directory FileOp WalRecordCodec

/-- The file operations of an append. -/
inductive FaultPoint where
  | storeCreation
  | indexCreation
  | directorySync
  | lengthWrite
  | recordWrite
  | indexWrite
deriving DecidableEq, Repr

namespace FaultPoint

/-- The operation is a write to the store or to the index. -/
def isWrite : FaultPoint → Bool
  | lengthWrite | recordWrite | indexWrite => true
  | storeCreation | indexCreation | directorySync => false

end FaultPoint

/-- The operation that fails, and how many bytes it still writes if it is a write. -/
structure Fault where
  point : FaultPoint
  written : Nat
deriving DecidableEq, Repr

/-- The exception of the failing operation. The source throws a `runtime_error` with a text for each
kind of operation; here it has a mark of its own, to tell it from the exceptions of other checks. -/
def ioError : Exception :=
  .systemError "Input/output error"

/-- A computation without file operations does not report an input or output error. -/
def FaultFree {α : Type} (x : Except Exception α) : Prop :=
  x ≠ .error ioError

namespace FaultFree

variable {α β : Type} {f : α → Except Exception β} {x : Except Exception α}

theorem ok (a : α) : FaultFree (.ok a) := by
  intro h
  cases h

theorem invalidArgument (text : String) :
    FaultFree (.error (.invalidArgument text) : Except Exception α) := by
  intro h
  cases h

theorem bind (hx : FaultFree x) (hf : ∀ a, FaultFree (f a)) : FaultFree (x >>= f) := by
  cases x with
  | error e => exact fun h => hx (congrArg Except.error (Except.error.inj h))
  | ok a => exact hf a

theorem ite {c : Prop} [Decidable c] {x y : Except Exception α} (hx : FaultFree x)
    (hy : FaultFree y) :
    FaultFree (if c then x else y) := by
  split
  · exact hx
  · exact hy

theorem wp_orThrow {σ : Type} {s : σ} {okay : α → σ → Prop} {failed : Exception → σ → Prop}
    {halted : σ → Prop} (hx : FaultFree x) (hOkay : ∀ a, x = .ok a → okay a s) :
    (orThrow x).wp s okay (fun e s' => e = ioError → failed e s') halted := by
  cases x with
  | ok a => exact hOkay a rfl
  | error e => exact fun hError => absurd (congrArg Except.error hError) hx

theorem mapM (hf : ∀ a, FaultFree (f a)) (items : List α) :
    FaultFree (items.mapM f) := by
  induction items with
  | nil => exact ok []
  | cons item items ih =>
    rw [List.mapM_cons]
    exact (hf item).bind fun _ => ih.bind fun _ => ok _

theorem walEncode (record : LogRecord) : FaultFree (encode record) := by
  have hFields : FaultFree (validateFields .invalidArgument record) :=
    .ite (invalidArgument _) (.ite (.ite (invalidArgument _) (ok _)) (.ite (invalidArgument _)
      (.ite (.ite (invalidArgument _) (ok _)) (.ite (invalidArgument _) (ok _)))))
  exact hFields.bind fun _ => .ite ((invalidArgument _).bind fun _ => ok _) (ok _)

theorem raftEncode (entry : RaftMutationEntry) : FaultFree (encode entry) := by
  have hKey : ∀ key, FaultFree (writeKey key) := fun _ => .ite (ok _) (invalidArgument _)
  have hValue : ∀ value, FaultFree (writeValue value) :=
    fun _ => .ite (ok _) (invalidArgument _)
  have hOperation : ∀ operation, FaultFree (writeOperation operation) := by
    intro operation
    cases operation with
    | put key value => exact (hKey key).bind fun _ => (hValue value).bind fun _ => ok _
    | delete key => exact (hKey key).bind fun _ => ok _
  have hHeader : FaultFree (validateHeader .invalidArgument entry.term entry.idx) :=
    .ite (invalidArgument _) (.ite (invalidArgument _) (ok _))
  have hParts := (mapM hOperation entry.operations).bind fun parts => ok (bigEndian 8
    entry.term.toNat ++ (bigEndian 8 entry.idx.toNat ++ (bigEndian 4 entry.operations.length ++
      parts.flatten)))
  exact hHeader.bind fun _ => .ite ((invalidArgument _).bind fun _ => hParts) hParts

end FaultFree

namespace Fault

/-- The fault, if it strikes at a point. -/
def strikes (fault : Option Fault) (point : FaultPoint) : Option Fault :=
  fault.filter fun fault => fault.point = point

def failAt (fault : Option Fault) (point : FaultPoint) : DiskOp Unit :=
  if (strikes fault point).isSome then fail ioError else pure ()

/-- Append to a file, or cut off again what a failing write has left. -/
def writeAt (fault : Option Fault) (point : FaultPoint) (name : FileName) (offset : Nat)
    (bytes : List UInt8) : DiskOp Unit :=
  match strikes fault point with
  | none => fileOp (.write name (.append bytes))
  | some fault => do
    fileOp (.write name (.append (bytes.take fault.written)))
    fileOp (.write name (.truncate offset))
    fail ioError

end Fault

variable {name : FileName}

namespace Fault

section Spec

variable {fault : Option Fault} {point : FaultPoint} {disk : Disk} {okay : Unit → Disk → Prop}
  {failed : Exception → Disk → Prop} {halted : Disk → Prop}

/-- The fault strikes at a point. -/
def Hits (fault : Option Fault) (point : FaultPoint) : Prop :=
  fault.map Fault.point = some point

theorem hits_some {fault : Fault} : Hits (some fault) point ↔ fault.point = point := by
  simp [Hits]

theorem not_hits_none : ¬Hits none point := by
  simp [Hits]

theorem strikes_of_hits (h : Hits fault point) : ∃ struck, strikes fault point = some struck := by
  cases fault with
  | none => exact absurd h not_hits_none
  | some fault => exact ⟨fault, by simp [strikes, hits_some.1 h]⟩

theorem strikes_of_not_hits (h : ¬Hits fault point) : strikes fault point = none := by
  cases fault with
  | none => rfl
  | some fault => simp [strikes, hits_some.not.1 h]

theorem wp_failAt :
    (failAt fault point).wp disk okay failed halted ↔
      (Hits fault point → failed ioError disk) ∧ (¬Hits fault point → okay () disk) := by
  unfold failAt
  by_cases h : Hits fault point
  · obtain ⟨struck, hStruck⟩ := strikes_of_hits h
    simp [hStruck, h]
  · simp [strikes_of_not_hits h, h]

theorem wp_writeAt {offset : Nat} {bytes : List UInt8}
    (hFail : ∀ disk', Hits fault point → failed ioError disk')
    (hOkay : okay () (disk.perform (.write name (.append bytes)))) :
    (writeAt fault point name offset bytes).wp disk okay failed halted := by
  unfold writeAt
  by_cases h : Hits fault point
  · obtain ⟨struck, hStruck⟩ := strikes_of_hits h
    simp only [hStruck, wp_bind, wp_fileOp, wp_fail]
    exact hFail _ h
  · simp only [strikes_of_not_hits h, wp_fileOp]
    exact hOkay

/-- The fault strikes at a write. -/
def HitsWrite (fault : Option Fault) : Prop :=
  ∃ point, point.isWrite = true ∧ Hits fault point

theorem hitsWrite_some {fault : Fault} : HitsWrite (some fault) ↔ fault.point.isWrite = true := by
  constructor
  · rintro ⟨point, hWrite, hHits⟩
    rwa [hits_some.1 hHits]
  · exact fun hWrite => ⟨_, hWrite, hits_some.2 rfl⟩

theorem not_hitsWrite (hHits : Hits fault point) (hOther : point.isWrite = false) :
    ¬HitsWrite fault := by
  rintro ⟨other, hWrite, hHits'⟩
  obtain rfl : point = other := Option.some.inj (hHits.symm.trans hHits')
  rw [hOther] at hWrite
  cases hWrite

end Spec

end Fault

open Fault

def Store.appendFaulty (fault : Option Fault) (base : Nat) (record : List UInt8) : DiskOp Nat := do
  if record.length > 2 ^ 32 - 1 then
    fail (.lengthError "Store record exceeds the four-byte length field")
  let content ← readFile ⟨base, .store⟩
  if (inspectFile content).status = .incompleteTail then
    fail (.runtimeError "Store has an incomplete tail; repair it before appending")
  writeAt fault .lengthWrite ⟨base, .store⟩ content.length (bigEndian 4 record.length)
  writeAt fault .recordWrite ⟨base, .store⟩ content.length record
  return content.length

def Index.appendFaulty (fault : Option Fault) (base ordinal storeOffset : Nat) : DiskOp Unit := do
  let content ← readFile ⟨base, .index⟩
  if (inspectFile content).status ≠ .complete then
    fail (.runtimeError "Index must be repaired or rebuilt before appending")
  writeAt fault .indexWrite ⟨base, .index⟩ content.length (entry ordinal storeOffset)

namespace Segment

def writeRecordFaulty (fault : Option Fault) (segment : Segment) (encoded : List UInt8) :
    DiskOp Segment := do
  let offset ← Store.appendFaulty fault segment.base encoded
  Index.appendFaulty fault segment.base (segment.next - segment.base) offset
  return { segment with next := segment.next + 1 }

def createFaulty {R : Type} (format : RecordFormat R) (fault : Option Fault) (base : Nat) :
    DiskOp Segment := do
  failAt fault .storeCreation
  createFile ⟨base, .store⟩
  failAt fault .indexCreation
  createFile ⟨base, .index⟩
  failAt fault .directorySync
  fileOp .syncDirectory
  recover format base

section Spec

variable {R : Type} {format : RecordFormat R} {disk : Disk} {fault : Option Fault}
  {segment : Segment} {failed : Exception → Disk → Prop} {halted : Disk → Prop}

/-- The store of a new segment is there, and every file reads as before. -/
structure Residue (base : Nat) (disk disk' : Disk) : Prop where
  exists_store : (disk'.directory.file ⟨base, .store⟩).isSome
  content : disk'.directory.content = disk.directory.content

theorem content_create {directory : Directory} (h : directory.file name = none) :
    (apply directory (.create name)).content = directory.content := by
  funext other
  by_cases hOther : other = name
  · simp [content, apply, hOther, h]
  · simp [content, apply, hOther]

theorem content_syncDirectory (directory : Directory) :
    (apply directory .syncDirectory).content = directory.content := by
  funext name
  have hFile : directory.link.file name = (directory.file name).map File.link := by
    cases hKind : name.kind <;> simp [file, hKind, SegmentFiles.get, SegmentFiles.link]
  simp only [content, apply, hFile]
  cases directory.file name <;> rfl

theorem wp_createFile {okay : Unit → Disk → Prop} :
    (createFile name).wp disk okay failed halted ↔
      ((disk.directory.file name).isSome →
        failed (.runtimeError "Error (open_file): Failed to open file!") disk) ∧
        (disk.directory.file name = none → okay () (disk.perform (.create name))) := by
  unfold createFile
  cases hFile : disk.directory.file name <;> simp [wp_bind, hFile]

/-- A failed creation leaves nothing or the new files. -/
theorem createFaulty_spec (base : Nat) :
    (createFaulty format fault base).wp disk (fun _ _ => True)
      (fun e disk' => e = ioError → Hits fault .storeCreation ∧ disk' = disk ∨
        (Hits fault .indexCreation ∨ Hits fault .directorySync) ∧ Residue base disk disk')
      fun _ => False := by
  unfold createFaulty
  simp only [wp_bind, wp_failAt, wp_createFile]
  have hExists : Exception.runtimeError "Error (open_file): Failed to open file!" ≠ ioError := by
    decide
  refine ⟨fun hPoint _ => .inl ⟨hPoint, trivial⟩, fun _ => ⟨fun _ hError => absurd hError hExists,
    fun hStore => ?_⟩⟩
  have hFirst := content_create hStore
  have hResidue : Residue base disk (disk.perform (.create ⟨base, .store⟩)) :=
    ⟨by simp [Disk.perform, apply], hFirst⟩
  refine ⟨fun hPoint _ => .inr ⟨.inl hPoint, hResidue⟩, fun _ => ⟨fun _ hError =>
    absurd hError hExists, fun hIndex => ?_⟩⟩
  have hSecond := (content_create hIndex).trans hFirst
  have hResidue₂ : Residue base disk
      ((disk.perform (.create ⟨base, .store⟩)).perform (.create ⟨base, .index⟩)) :=
    ⟨by simp [Disk.perform, apply], hSecond⟩
  refine ⟨fun hPoint _ => .inr ⟨.inr hPoint, hResidue₂⟩, fun _ => ?_⟩
  have hThird := (content_syncDirectory _).trans hSecond
  have hNew : disk.directory.file ⟨base, .index⟩ = none := by
    simpa [Disk.perform, apply] using hIndex
  rw [wp_fileOp]
  refine wp_of_ok (recover_empty ?_ ?_) trivial
  · exact (congrFun hThird _).trans (by simp [content, hStore])
  · exact (congrFun hThird _).trans (by simp [content, hNew])

/-- A record that is refused by an input or output error was being written. -/
theorem writeRecordFaulty_spec (segment : Segment) (encoded : List UInt8) :
    (writeRecordFaulty fault segment encoded).wp disk (fun _ _ => True)
      (fun e _ => e = ioError → HitsWrite fault) fun _ => False := by
  unfold writeRecordFaulty Store.appendFaulty Index.appendFaulty
  simp only [wp_bind, wp_ite, wp_fail, wp_pure, wp_readFile]
  refine ⟨fun _ hError => absurd hError (by decide), fun _ => ⟨fun _ hError =>
    absurd hError (by decide), fun _ => ?_⟩⟩
  refine wp_writeAt (fun _ hPoint _ => ⟨_, rfl, hPoint⟩) ?_
  refine wp_writeAt (fun _ hPoint _ => ⟨_, rfl, hPoint⟩) ?_
  refine ⟨fun _ hError => absurd hError (by decide), fun _ => ?_⟩
  exact wp_writeAt (fun _ hPoint _ => ⟨_, rfl, hPoint⟩) trivial

theorem create_of_residue {base : Nat} (h : (disk.directory.file ⟨base, .store⟩).isSome) :
    (create format base).wp disk (fun _ _ => False) (fun _ _ => True) fun _ => False := by
  unfold create
  rw [wp_bind, wp_createFile]
  refine ⟨fun _ => trivial, fun hNone => ?_⟩
  rw [hNone] at h
  cases h

theorem faultFree_prepare {record : R} (h : FaultFree (format.encode record)) :
    FaultFree (segment.prepare format record) :=
  .ite (.invalidArgument _) (.ite (fun hError => by cases hError) h)

/-- The answer of `isMaxed`. -/
def maxedIn (config : Config) (segment : Segment) (disk : Disk) : Bool :=
  decide ((disk.directory.content ⟨segment.base, .store⟩).length > config.maxStoreBytes ∨
    (disk.directory.content ⟨segment.base, .index⟩).length > config.maxIndexBytes)

theorem wp_isMaxed {config : Config} {okay : Bool → Disk → Prop} :
    (segment.isMaxed config).wp disk okay failed halted ↔
      okay (segment.maxedIn config disk) disk :=
  Iff.rfl

theorem maxedIn_congr {config : Config} {disk' : Disk}
    (h : disk'.directory.content = disk.directory.content) :
    segment.maxedIn config disk' = segment.maxedIn config disk := by
  rw [maxedIn, h, maxedIn]

end Spec

theorem writeRecordFaulty_none : writeRecordFaulty none = writeRecord :=
  rfl

theorem createFaulty_none {R : Type} (format : RecordFormat R) :
    createFaulty format none = create format :=
  rfl

end Segment

namespace Log

def createSegmentFaulty (fault : Option Fault) (base : Nat) : LogOp Unit := do
  let segment ← onDisk (Segment.createFaulty walFormat fault base)
  modify fun log => { log with segments := log.segments ++ [segment] }

def appendToActiveFaulty (fault : Option Fault) (record : LogRecord) : LogOp Unit := do
  let segment ← read active
  let encoded ← orThrow (segment.prepare walFormat record)
  let segment ← (onDisk (segment.writeRecordFaulty fault encoded)).onFail
    fun log => { log with recoveryRequired := true }
  modify fun log =>
    { log with segments := log.segments.dropLast ++ [segment], nextLsn := log.nextLsn + 1 }

def appendFaulty (fault : Option Fault) (pending : PendingLogRecord) : LogOp UInt64 := do
  requireUsable "Log must be reopened and recovered before appending"
  let nextLsn ← read Log.nextLsn
  let record := number pending nextLsn
  let _ ← orThrow (WalRecordCodec.encode record)
  let config ← read Log.config
  if ← onDisk ((← read active).isMaxed config) then createSegmentFaulty fault nextLsn
  appendToActiveFaulty fault record
  return record.lsn

theorem appendFaulty_none : appendFaulty none = append :=
  rfl

variable {log : Log} {fault : Option Fault}

theorem appendToActiveFaulty_spec (record : LogRecord) :
    (appendToActiveFaulty fault record).wp log (fun _ _ => True)
      (fun e after => e = ioError → HitsWrite fault ∧ after.recoveryRequired = true)
      fun _ => True := by
  unfold appendToActiveFaulty
  simp only [wp_bind, wp_read]
  refine (faultFree_prepare (FaultFree.walEncode record)).wp_orThrow fun encoded _ => ?_
  simp only [wp_onFail, onDisk, wp_zoom, wp_modify]
  refine wp_mono (writeRecordFaulty_spec log.active encoded) (fun _ _ _ => trivial) ?_
    fun _ _ => trivial
  exact fun _ _ hWhy hError => ⟨hWhy hError, trivial⟩

/-- A log that has to roll over does not get past a store that is there already. -/
theorem append_of_residue {pending : PendingLogRecord} {encoded : List UInt8} {disk : Disk}
    (hEncode : encode (number pending log.nextLsn) = .ok encoded)
    (hMaxed : log.active.maxedIn log.config log.disk = true)
    (hResidue : Segment.Residue log.nextLsn log.disk disk) :
    (append pending { log with disk }).isOk = false := by
  have hAgain : Segment.maxedIn log.config log.active disk = true :=
    (maxedIn_congr hResidue.content).trans hMaxed
  rw [active] at hAgain
  refine isOk_eq_false_of_wp ?_
  unfold append
  rw [wp_bind]
  refine wp_requireUsable (fun _ => trivial) (fun _ => trivial) fun _ _ => ?_
  simp only [wp_bind, wp_read, hEncode, wp_orThrow_ok, onDisk, wp_zoom, wp_isMaxed, active,
    hAgain, if_true]
  simp only [wp_bind, createSegment, onDisk, wp_zoom]
  exact wp_mono (create_of_residue hResidue.exists_store) (fun _ _ hFalse => hFalse.elim)
    (fun _ _ _ => trivial) fun _ _ => trivial

/-- What an append leaves that an input or output error has ended. -/
theorem appendFaulty_spec (pending : PendingLogRecord) :
    (appendFaulty fault pending).wp log (fun _ _ => True)
      (fun e after => e = ioError → HitsWrite fault ∧ after.recoveryRequired = true ∨
        Hits fault .storeCreation ∧ after = log ∧ log.recoveryRequired = false ∧
          (∃ encoded, encode (number pending log.nextLsn) = .ok encoded) ∧
          log.active.maxedIn log.config log.disk = true ∨
        (Hits fault .indexCreation ∨ Hits fault .directorySync) ∧
          after.recoveryRequired = false ∧ (append pending after).isOk = false)
      fun _ => True := by
  unfold appendFaulty
  rw [wp_bind]
  refine wp_requireUsable (fun _ hError => absurd hError (by decide))
    (fun _ hError => absurd hError (by decide)) fun _ hUsable => ?_
  simp only [wp_bind, wp_read]
  refine (FaultFree.walEncode _).wp_orThrow fun encoded hEncode => ?_
  simp only [onDisk, wp_zoom, wp_isMaxed]
  cases hMaxed : log.active.maxedIn log.config log.disk with
  | false =>
    rw [if_neg Bool.false_ne_true, wp_bind]
    exact wp_mono (appendToActiveFaulty_spec _) (fun _ _ _ => trivial)
      (fun _ _ hWhy hError => .inl (hWhy hError)) fun _ _ => trivial
  | true =>
    rw [if_pos rfl, wp_bind]
    simp only [createSegmentFaulty, wp_bind, onDisk, wp_zoom, wp_modify]
    refine wp_mono (createFaulty_spec _) (fun _ _ _ => ?_) ?_ fun _ hFalse => hFalse.elim
    · exact wp_mono (appendToActiveFaulty_spec _) (fun _ _ _ => trivial)
        (fun _ _ hWhy hError => .inl (hWhy hError)) fun _ _ => trivial
    · intro e disk hWhy hError
      rcases hWhy hError with ⟨hPoint, rfl⟩ | ⟨hPoint, hResidue⟩
      · exact .inr (.inl ⟨hPoint, rfl, hUsable, ⟨encoded, hEncode⟩, trivial⟩)
      · exact .inr (.inr ⟨hPoint, hUsable, append_of_residue hEncode hMaxed hResidue⟩)

end Log

namespace RaftLog

def createSegmentFaulty (fault : Option Fault) (base : Nat) : RaftOp Unit := do
  let segment ← onDisk (Segment.createFaulty raftFormat fault base)
  modify fun log => { log with segments := log.segments ++ [segment] }

def appendToActiveFaulty (fault : Option Fault) (entry : RaftMutationEntry) : RaftOp Unit := do
  let segment ← Program.read active
  let encoded ← orThrow (segment.prepare raftFormat entry)
  let segment ← (onDisk (segment.writeRecordFaulty fault encoded)).onFail
    fun log => { log with recoveryRequired := true }
  modify fun log =>
    { log with
      segments := log.segments.dropLast ++ [segment], nextIndex := log.nextIndex + 1,
      lastTerm := entry.term }

def appendEntryFaulty (fault : Option Fault) (entry : RaftMutationEntry) : RaftOp Unit := do
  let config ← Program.read RaftLog.config
  let nextIndex ← Program.read RaftLog.nextIndex
  if ← onDisk ((← Program.read active).isMaxed config.toConfig) then
    createSegmentFaulty fault nextIndex
  appendToActiveFaulty fault entry

def appendFaulty (fault : Option Fault) (term : UInt64) (operations : List MutationOp) :
    RaftOp UInt64 := do
  requireUsable "Raft log must be reopened before appending"
  let nextIndex ← Program.read RaftLog.nextIndex
  let entry : RaftMutationEntry := ⟨term, .ofNat nextIndex, operations⟩
  let _ ← orThrow (RaftEntryCodec.encode entry)
  appendEntryFaulty fault entry
  return entry.idx

/-- A batch in which the fault strikes at the entry with the given position. -/
def appendEntriesFaulty (fault : Option Fault) : Nat → List RaftMutationEntry → RaftOp Unit
  | _, [] => pure ()
  | 0, entry :: entries => do
    appendEntryFaulty fault entry
    appendEntries entries
  | position + 1, entry :: entries => do
    appendEntry entry
    appendEntriesFaulty fault position entries

def appendFromLeaderFaulty (fault : Option Fault) (position : Nat) (firstIndex : UInt64)
    (entries : List RaftMutationEntry) : RaftOp Unit := do
  requireUsable "Raft log must be reopened before appending"
  if firstIndex.toNat ≠ (← Program.read RaftLog.nextIndex) then
    fail (.invalidArgument "Leader batch must begin at the next Raft index")
  orThrow (checkBatch firstIndex entries)
  appendEntriesFaulty fault position entries

theorem appendEntryFaulty_none : appendEntryFaulty none = appendEntry :=
  rfl

theorem appendFaulty_none : appendFaulty none = append :=
  rfl

theorem appendEntriesFaulty_none (position : Nat) (entries : List RaftMutationEntry) :
    appendEntriesFaulty none position entries = appendEntries entries := by
  induction entries generalizing position with
  | nil => cases position <;> rfl
  | cons entry entries ih =>
    cases position with
    | zero => rw [appendEntriesFaulty, appendEntryFaulty_none, appendEntries]
    | succ position => rw [appendEntriesFaulty, appendEntries, ih position]

theorem appendFromLeaderFaulty_none (position : Nat) :
    appendFromLeaderFaulty none position = appendFromLeader := by
  funext firstIndex entries
  simp only [appendFromLeaderFaulty, appendFromLeader, appendEntriesFaulty_none]

variable {log : RaftLog} {fault : Option Fault} {entry : RaftMutationEntry}

/-- The active segment has crossed a limit. -/
def mustRoll (log : RaftLog) : Bool :=
  log.active.maxedIn log.config.toConfig log.disk

theorem appendToActiveFaulty_spec :
    (appendToActiveFaulty fault entry).wp log
      (fun _ after => after.nextIndex = log.nextIndex + 1 ∧
        after.recoveryRequired = log.recoveryRequired)
      (fun e after => e = ioError → HitsWrite fault ∧ after.recoveryRequired = true)
      fun _ => True := by
  unfold appendToActiveFaulty
  simp only [wp_bind, wp_read]
  refine (faultFree_prepare (FaultFree.raftEncode entry)).wp_orThrow fun encoded _ => ?_
  simp only [wp_onFail, onDisk, wp_zoom, wp_modify]
  refine wp_mono (writeRecordFaulty_spec log.active encoded)
    (fun _ _ _ => ⟨trivial, trivial⟩) ?_ fun _ _ => trivial
  exact fun _ _ hWhy hError => ⟨hWhy hError, trivial⟩

/-- What one entry of a call does when a file operation fails. -/
theorem appendEntryFaulty_spec :
    (appendEntryFaulty fault entry).wp log
      (fun _ after => after.nextIndex = log.nextIndex + 1 ∧
        after.recoveryRequired = log.recoveryRequired)
      (fun e after => e = ioError → HitsWrite fault ∧ after.recoveryRequired = true ∨
        Hits fault .storeCreation ∧ after = log ∨
        (Hits fault .indexCreation ∨ Hits fault .directorySync) ∧ log.mustRoll = true ∧
          ∃ disk, after = { log with disk } ∧ Segment.Residue log.nextIndex log.disk disk)
      fun _ => True := by
  unfold appendEntryFaulty
  simp only [wp_bind, wp_read, onDisk, wp_zoom, wp_isMaxed]
  cases hRoll : Segment.maxedIn log.config.toConfig log.active log.disk with
  | false =>
    rw [if_neg Bool.false_ne_true]
    exact wp_mono appendToActiveFaulty_spec (fun _ _ h => h)
      (fun _ _ hWhy hError => .inl (hWhy hError)) fun _ _ => trivial
  | true =>
    rw [if_pos rfl, wp_bind]
    simp only [createSegmentFaulty, wp_bind, onDisk, wp_zoom, wp_modify]
    refine wp_mono (createFaulty_spec _) (fun _ _ _ => ?_) ?_ fun _ hFalse => hFalse.elim
    · exact wp_mono appendToActiveFaulty_spec (fun _ _ h => h)
        (fun _ _ hWhy hError => .inl (hWhy hError)) fun _ _ => trivial
    · intro e disk hWhy hError
      rcases hWhy hError with ⟨hPoint, rfl⟩ | ⟨hPoint, hResidue⟩
      · exact .inr (.inl ⟨hPoint, rfl⟩)
      · exact .inr (.inr ⟨hPoint, hRoll, disk, rfl, hResidue⟩)

theorem appendEntry_of_residue {disk : Disk} (hRoll : log.mustRoll = true)
    (hResidue : Segment.Residue log.nextIndex log.disk disk) :
    (appendEntry entry).wp { log with disk } (fun _ _ => False) (fun _ _ => True)
      fun _ => True := by
  have hAgain : Segment.maxedIn log.config.toConfig log.active disk = true :=
    (maxedIn_congr hResidue.content).trans hRoll
  rw [active] at hAgain
  unfold appendEntry
  simp only [wp_bind, wp_read, onDisk, wp_zoom, wp_isMaxed, active, hAgain, if_true]
  simp only [wp_bind, createSegment, onDisk, wp_zoom]
  exact wp_mono (create_of_residue hResidue.exists_store) (fun _ _ hFalse => hFalse.elim)
    (fun _ _ _ => trivial) fun _ _ => trivial

/-- What an append leaves that an input or output error has ended. -/
theorem appendFaulty_spec (term : UInt64) (operations : List MutationOp) :
    (appendFaulty fault term operations).wp log (fun _ _ => True)
      (fun e after => e = ioError → HitsWrite fault ∧ after.recoveryRequired = true ∨
        Hits fault .storeCreation ∧ after = log ∧ log.recoveryRequired = false ∧
          (∃ encoded, encode ⟨term, .ofNat log.nextIndex, operations⟩ = .ok encoded) ∨
        (Hits fault .indexCreation ∨ Hits fault .directorySync) ∧
          after.recoveryRequired = false ∧ (append term operations after).isOk = false)
      fun _ => True := by
  unfold appendFaulty
  rw [wp_bind]
  refine wp_requireUsable (fun _ hError => absurd hError (by decide))
    (fun _ hError => absurd hError (by decide)) fun _ hUsable => ?_
  simp only [wp_bind, wp_read]
  refine (FaultFree.raftEncode _).wp_orThrow fun encoded hEncode => ?_
  refine wp_mono appendEntryFaulty_spec (fun _ _ _ => trivial) ?_ fun _ _ => trivial
  intro e after hWhy hError
  rcases hWhy hError with hWrite | ⟨hPoint, rfl⟩ | ⟨hPoint, hRoll, disk, rfl, hResidue⟩
  · exact .inl hWrite
  · exact .inr (.inl ⟨hPoint, rfl, hUsable, encoded, hEncode⟩)
  · refine .inr (.inr ⟨hPoint, hUsable, isOk_eq_false_of_wp ?_⟩)
    unfold append
    rw [wp_bind]
    refine wp_requireUsable (fun _ => trivial) (fun _ => trivial) fun _ _ => ?_
    simp only [wp_bind, wp_read, hEncode, wp_orThrow_ok]
    exact wp_mono (appendEntry_of_residue hRoll hResidue) (fun _ _ hFalse => hFalse.elim)
      (fun _ _ _ => trivial) fun _ _ => trivial

theorem appendEntry_quiet :
    (appendEntry entry).wp log
      (fun _ after => after.nextIndex = log.nextIndex + 1 ∧
        after.recoveryRequired = log.recoveryRequired)
      (fun e _ => e ≠ ioError) fun _ => True := by
  rw [← appendEntryFaulty_none]
  refine wp_mono appendEntryFaulty_spec (fun _ _ h => h) ?_ fun _ _ => trivial
  rintro e after hWhy hError
  rcases hWhy hError with ⟨⟨point, -, hHits⟩, -⟩ | ⟨hHits, -⟩ | ⟨hHits | hHits, -⟩ <;>
    exact not_hits_none hHits

theorem appendEntries_quiet (entries : List RaftMutationEntry) :
    (appendEntries entries).wp log (fun _ _ => True) (fun e _ => e ≠ ioError) fun _ => True := by
  induction entries generalizing log with
  | nil => trivial
  | cons entry entries ih =>
    rw [appendEntries, wp_bind]
    exact wp_conseq appendEntry_quiet (fun _ _ _ => ih)

/-- How a batch ends whose entry at a position meets the fault. -/
inductive BatchEnd (log after : RaftLog) (fault : Option Fault) (entries : List RaftMutationEntry) :
    Nat → Prop where
  | writing (position : Nat) (hits : HitsWrite fault) (flagged : after.recoveryRequired = true) :
      BatchEnd log after fault entries position
  | untouched (hits : Hits fault .storeCreation) (same : after = log) :
      BatchEnd log after fault entries 0
  | residue (hits : Hits fault .indexCreation ∨ Hits fault .directorySync)
      (rolls : log.mustRoll = true) (nonempty : entries ≠ []) (disk : Disk)
      (same : after = { log with disk }) (left : Segment.Residue log.nextIndex log.disk disk) :
      BatchEnd log after fault entries 0
  | partly (position : Nat) (quiet : ¬HitsWrite fault) (moved : log.nextIndex < after.nextIndex)
      (usable : after.recoveryRequired = log.recoveryRequired) :
      BatchEnd log after fault entries (position + 1)

theorem appendEntriesFaulty_spec (position : Nat) (entries : List RaftMutationEntry) :
    (appendEntriesFaulty fault position entries).wp log (fun _ _ => True)
      (fun e after => e = ioError → BatchEnd log after fault entries position) fun _ => True := by
  induction entries generalizing log position with
  | nil => cases position <;> trivial
  | cons entry entries ih =>
    cases position with
    | zero =>
      rw [appendEntriesFaulty, wp_bind]
      refine wp_mono appendEntryFaulty_spec ?_ ?_ fun _ _ => trivial
      · intro _ after _
        exact wp_mono (appendEntries_quiet entries) (fun _ _ _ => trivial)
          (fun _ _ hQuiet hError => absurd hError hQuiet) fun _ _ => trivial
      · intro e after hWhy hError
        rcases hWhy hError with ⟨hWrite, hFlag⟩ | ⟨hPoint, rfl⟩ | ⟨hPoint, hRoll, disk, rfl, hLeft⟩
        · exact .writing 0 hWrite hFlag
        · exact .untouched hPoint rfl
        · exact .residue hPoint hRoll (List.cons_ne_nil _ _) disk rfl hLeft
    | succ position =>
      rw [appendEntriesFaulty, wp_bind]
      refine wp_mono appendEntry_quiet ?_ (fun _ _ hQuiet hError => absurd hError hQuiet)
        fun _ _ => trivial
      rintro _ log₁ ⟨hNext, hUsable⟩
      refine wp_mono (ih position) (fun _ _ _ => trivial) ?_ fun _ _ => trivial
      intro e after hEnd hError
      -- Whatever ends the rest of the batch, the first entry stays appended.
      cases hEnd hError with
      | writing _ hWrite hFlag => exact .writing _ hWrite hFlag
      | untouched hHits hSame =>
        subst hSame
        exact .partly _ (not_hitsWrite hHits rfl) (by omega) hUsable
      | residue hHits _ _ disk hSame _ =>
        subst hSame
        have hQuiet : ¬HitsWrite fault := by
          rcases hHits with hHits | hHits <;> exact not_hitsWrite hHits rfl
        exact .partly _ hQuiet (by change _ < log₁.nextIndex; omega) hUsable
      | partly position hQuiet hMoved hSame =>
        exact .partly _ hQuiet (by omega) (hSame.trans hUsable)

theorem appendFromLeader_of_residue {entries : List RaftMutationEntry} {disk : Disk}
    (firstIndex : UInt64) (hSome : entries ≠ []) (hRoll : log.mustRoll = true)
    (hResidue : Segment.Residue log.nextIndex log.disk disk) :
    (appendFromLeader firstIndex entries { log with disk }).isOk = false := by
  obtain ⟨entry, rest, rfl⟩ := List.exists_cons_of_ne_nil hSome
  have hEntry : (appendEntry entry).wp { log with disk } (fun _ _ => False) (fun _ _ => True)
      fun _ => True := appendEntry_of_residue hRoll hResidue
  refine isOk_eq_false_of_wp ?_
  unfold appendFromLeader
  rw [wp_bind]
  refine wp_requireUsable (fun _ => trivial) (fun _ => trivial) fun _ _ => ?_
  simp only [wp_bind, wp_read, wp_ite, wp_fail, implies_true, true_and]
  intro _
  cases checkBatch firstIndex (entry :: rest) with
  | error e => trivial
  | ok _ =>
    rw [wp_orThrow_ok, appendEntries, wp_bind]
    exact wp_conseq hEntry (fun _ _ hFalse => hFalse.elim)

theorem faultFree_checkBatch (expected : UInt64) (entries : List RaftMutationEntry) :
    FaultFree (checkBatch expected entries) := by
  induction entries generalizing expected with
  | nil => exact .ok _
  | cons entry entries ih =>
    rw [checkBatch]
    refine .ite (.invalidArgument _) ?_
    cases hEncode : encode entry with
    | error e =>
      intro hError
      obtain rfl := Except.error.inj hError
      exact FaultFree.raftEncode entry hEncode
    | ok _ => exact ih _

/-- What a batch leaves that an input or output error has ended. -/
theorem appendFromLeaderFaulty_spec (position : Nat) (firstIndex : UInt64)
    (entries : List RaftMutationEntry) :
    (appendFromLeaderFaulty fault position firstIndex entries).wp log (fun _ _ => True)
      (fun e after => e = ioError → (log.recoveryRequired = false ∧
        firstIndex.toNat = log.nextIndex ∧ checkBatch firstIndex entries = .ok ()) ∧
        BatchEnd log after fault entries position) fun _ => True := by
  unfold appendFromLeaderFaulty
  rw [wp_bind]
  refine wp_requireUsable (fun _ hError => absurd hError (by decide))
    (fun _ hError => absurd hError (by decide)) fun _ hUsable => ?_
  simp only [wp_bind, wp_read, wp_ite, wp_fail]
  refine ⟨fun _ hError => absurd hError (by decide), fun hFirst => ?_⟩
  refine (faultFree_checkBatch firstIndex entries).wp_orThrow fun _ hCheck => ?_
  exact wp_mono (appendEntriesFaulty_spec position entries) (fun _ _ _ => trivial)
    (fun _ _ hEnd hError => ⟨⟨hUsable, not_not.1 hFirst, hCheck⟩, hEnd hError⟩) fun _ _ => trivial

/-- An append to the replicated log that an input or output error has ended. -/
structure FailedAppend where
  log : RaftLog
  term : UInt64
  operations : List MutationOp
  fault : Fault
  after : RaftLog
  failed : RaftLog.appendFaulty (some fault) term operations log = .fail ioError after

/-- The log asks for recovery, or it is as before and the same append succeeds now. -/
def FailedAppend.Tolerated (call : FailedAppend) : Prop :=
  call.after.recoveryRequired = true ∨
    (RaftLog.scanFrom 1 call.after).value? = (RaftLog.scanFrom 1 call.log).value? ∧
      call.after.nextIndex = call.log.nextIndex ∧
      (RaftLog.append call.term call.operations call.after).isOk = true

/-- A batch of which an input or output error has ended the entry at a position. -/
structure FailedBatch where
  log : RaftLog
  firstIndex : UInt64
  entries : List RaftMutationEntry
  position : Nat
  fault : Fault
  after : RaftLog
  failed : RaftLog.appendFromLeaderFaulty (some fault) position firstIndex entries log =
    .fail ioError after

def FailedBatch.Tolerated (call : FailedBatch) : Prop :=
  call.after.recoveryRequired = true ∨
    (RaftLog.scanFrom 1 call.after).value? = (RaftLog.scanFrom 1 call.log).value? ∧
      call.after.nextIndex = call.log.nextIndex ∧
      (RaftLog.appendFromLeader call.firstIndex call.entries call.after).isOk = true

theorem FailedAppend.tolerated_iff (call : FailedAppend) :
    call.Tolerated ↔ call.fault.point.isWrite = true ∨ call.fault.point = .storeCreation ∧
      (RaftLog.append call.term call.operations call.log).isOk = true := by
  have hEnd := fail_of_wp call.failed (appendFaulty_spec call.term call.operations) rfl
  simp only [hitsWrite_some, hits_some] at hEnd
  rw [Tolerated]
  rcases hEnd with ⟨hWrite, hFlag⟩ | ⟨hPoint, hSame, hUsable, -⟩ | ⟨hPoint, hUsable, hRetry⟩
  · simp [hWrite, hFlag]
  · simp [hPoint, hSame, hUsable, FaultPoint.isWrite]
  · rcases hPoint with hPoint | hPoint <;> simp [hPoint, hUsable, hRetry, FaultPoint.isWrite]

theorem FailedBatch.tolerated_iff (call : FailedBatch) :
    call.Tolerated ↔ call.fault.point.isWrite = true ∨ call.fault.point = .storeCreation ∧
      call.position = 0 ∧
      (RaftLog.appendFromLeader call.firstIndex call.entries call.log).isOk = true := by
  obtain ⟨log, firstIndex, entries, position, fault, after, failed⟩ := call
  obtain ⟨⟨hUsable, -⟩, hEnd⟩ :=
    fail_of_wp failed (appendFromLeaderFaulty_spec position firstIndex entries) rfl
  rw [Tolerated]
  dsimp only
  cases hEnd with
  | writing _ hWrite hFlag => simp [hitsWrite_some.1 hWrite, hFlag]
  | untouched hHits hSame => simp [hits_some.1 hHits, hSame, hUsable, FaultPoint.isWrite]
  | residue hHits hRoll hSome disk hSame hLeft =>
    have hRetry := appendFromLeader_of_residue firstIndex hSome hRoll hLeft
    subst hSame
    simp only [hits_some] at hHits
    rw [hRetry]
    rcases hHits with hPoint | hPoint <;> simp [hPoint, hUsable, FaultPoint.isWrite]
  | partly position hQuiet hMoved hSame =>
    have hFlag : after.recoveryRequired = false := hSame.trans hUsable
    rw [hitsWrite_some] at hQuiet
    simp [hQuiet, hFlag, Nat.ne_of_gt hMoved]

section Opened

variable {before : List (Extent RaftMutationEntry)} {last : Extent RaftMutationEntry}

/-- In an open log without left-over files the entry only has to fit. -/
theorem FailedAppend.tolerated_iff_of_opened (call : FailedAppend)
    (h : Opened call.log before last) :
    call.Tolerated ↔ call.fault.point.isWrite = true ∨ call.fault.point = .storeCreation ∧
      Takes (roomIn call.log.config.toConfig last)
        ⟨call.term, .ofNat call.log.nextIndex, call.operations⟩ := by
  rw [call.tolerated_iff]
  refine or_congr_right (and_congr_right fun hPoint => isOk_iff_of_wp ?_)
  have hEnd := fail_of_wp call.failed (appendFaulty_spec call.term call.operations) rfl
  simp only [hitsWrite_some, hits_some, hPoint, FaultPoint.isWrite] at hEnd
  obtain ⟨-, hUsable, encoded, hEncode⟩ := by simpa using hEnd
  unfold append
  rw [wp_bind]
  refine h.wp_requireUsable (fun hFlag => by simp [hUsable] at hFlag) fun _ => ?_
  simp only [wp_bind, wp_read, hEncode, wp_orThrow_ok]
  exact wp_mono (appendEntry_opened h (h.toNat_nextIndex hEncode) hEncode) (fun _ _ h => h.1)
    (fun _ _ h => h.1) fun _ hFalse => hFalse

theorem FailedBatch.tolerated_iff_of_opened (call : FailedBatch)
    (h : Opened call.log before last) :
    call.Tolerated ↔ call.fault.point.isWrite = true ∨ call.fault.point = .storeCreation ∧
      call.position = 0 ∧
      fitting call.log.config.toConfig last call.entries = call.entries.length := by
  rw [call.tolerated_iff]
  refine or_congr_right (and_congr_right fun _ => and_congr_right fun _ => isOk_iff_of_wp ?_)
  obtain ⟨⟨hUsable, hFirst, hCheck⟩, -⟩ :=
    fail_of_wp call.failed (appendFromLeaderFaulty_spec _ call.firstIndex call.entries) rfl
  unfold appendFromLeader
  rw [wp_bind]
  refine h.wp_requireUsable (fun hFlag => by simp [hUsable] at hFlag) fun _ => ?_
  simp only [wp_bind, wp_read, if_neg (not_not.2 hFirst), hCheck, wp_orThrow_ok]
  have hDense := dense_of_checkBatch hCheck
  rw [hFirst] at hDense
  exact wp_mono (appendEntries_opened h hDense) (fun _ _ h => h.1) (fun _ _ h => h.1.ne)
    fun _ hFalse => hFalse

end Opened

end RaftLog

/-- An append to the write-ahead log that an input or output error has ended. -/
structure Log.FailedAppend where
  log : Log
  pending : PendingLogRecord
  fault : Fault
  after : Log
  failed : Log.appendFaulty (some fault) pending log = .fail ioError after

/-- The log asks for recovery, or it is as before and the same append succeeds now. -/
def Log.FailedAppend.Tolerated (call : Log.FailedAppend) : Prop :=
  call.after.recoveryRequired = true ∨
    (Log.scan call.after).value? = (Log.scan call.log).value? ∧
      call.after.nextLsn = call.log.nextLsn ∧ (Log.append call.pending call.after).isOk = true

theorem Log.FailedAppend.tolerated_iff (call : Log.FailedAppend) :
    call.Tolerated ↔ call.fault.point.isWrite = true ∨ call.fault.point = .storeCreation ∧
      (Log.append call.pending call.log).isOk = true := by
  have hEnd := fail_of_wp call.failed (Log.appendFaulty_spec call.pending) rfl
  simp only [hitsWrite_some, hits_some] at hEnd
  rw [Tolerated]
  rcases hEnd with ⟨hWrite, hFlag⟩ | ⟨hPoint, hSame, hUsable, -⟩ | ⟨hPoint, hUsable, hRetry⟩
  · simp [hWrite, hFlag]
  · simp [hPoint, hSame, hUsable, FaultPoint.isWrite]
  · rcases hPoint with hPoint | hPoint <;> simp [hPoint, hUsable, hRetry, FaultPoint.isWrite]

/-- In an open log without left-over files the failing operation alone decides. -/
theorem Log.FailedAppend.tolerated_iff_of_ready (call : Log.FailedAppend)
    {before : List (Extent LogRecord)} {last : Extent LogRecord}
    (h : Log.Ready call.log before last) :
    call.Tolerated ↔ call.fault.point.isWrite = true ∨ call.fault.point = .storeCreation := by
  rw [call.tolerated_iff]
  refine or_congr_right (and_iff_left_of_imp fun hPoint => ?_)
  have hEnd := fail_of_wp call.failed (Log.appendFaulty_spec call.pending) rfl
  simp only [hitsWrite_some, hits_some, hPoint, FaultPoint.isWrite] at hEnd
  obtain ⟨-, -, ⟨encoded, hEncode⟩, hMaxed⟩ := by simpa using hEnd
  have hSame : maxedIn call.log.config last.segment call.log.disk = decide _ :=
    (Outcome.ok.inj (isMaxed_eq (h.running.held last Laid.mem_last) call.log.config)).1
  rw [h.active_eq, hSame, decide_eq_true_eq] at hMaxed
  refine (isOk_iff_of_wp ?_).2 trivial
  exact wp_mono (Log.append_spec h call.pending) (fun _ _ _ => trivial)
    (fun _ _ hWhy => absurd hMaxed (hWhy.2 encoded hEncode)) fun _ hFalse => hFalse.elim

/-- For every state of either log and every file operation that fails inside of an append: it is
tolerated exactly if it was a write, or the creation of a store for the first record of a call
that has nothing else against it. -/
theorem failed_append_tolerated_iff (wal : Log.FailedAppend) (raft : RaftLog.FailedAppend)
    (batch : RaftLog.FailedBatch) :
    (wal.Tolerated ↔ wal.fault.point.isWrite = true ∨ wal.fault.point = .storeCreation ∧
        (Log.append wal.pending wal.log).isOk = true) ∧
    (raft.Tolerated ↔ raft.fault.point.isWrite = true ∨ raft.fault.point = .storeCreation ∧
        (RaftLog.append raft.term raft.operations raft.log).isOk = true) ∧
    (batch.Tolerated ↔
      batch.fault.point.isWrite = true ∨ batch.fault.point = .storeCreation ∧ batch.position = 0 ∧
        (RaftLog.appendFromLeader batch.firstIndex batch.entries batch.log).isOk = true) :=
  ⟨wal.tolerated_iff, raft.tolerated_iff, batch.tolerated_iff⟩

section Rollover

/-- A log whose only segment is full. -/
def fullLog : Log :=
  ((Log.openLog >>= fun _ => Log.append ⟨.txnBegin, 1, 0, []⟩)
    (Log.closed Log.tinyConfig .empty)).state

def rolloverRun : Outcome Log Exception UInt64 :=
  Log.appendFaulty (some ⟨.indexCreation, 0⟩) ⟨.txnBegin, 2, 0, []⟩ fullLog

/-- The index of the next segment cannot be created. -/
def brokenRollover : Log.FailedAppend where
  log := fullLog
  pending := ⟨.txnBegin, 2, 0, []⟩
  fault := ⟨.indexCreation, 0⟩
  after := rolloverRun.state
  failed := by
    have hError : rolloverRun.error? = some ioError := by decide +kernel
    change rolloverRun = _
    cases hRun : rolloverRun with
    | ok lsn log => rw [hRun] at hError; cases hError
    | fail e log =>
      rw [hRun] at hError
      obtain rfl := Option.some.inj hError
      rfl
    | halt log => rw [hRun] at hError; cases hError

theorem brokenRollover_not_tolerated : ¬brokenRollover.Tolerated := by
  rw [brokenRollover.tolerated_iff]
  decide +kernel

end Rollover

end Stoneleaf
