import Stoneleaf.Log.WriteSpec
import Stoneleaf.Log.WalRecordCodec
import Stoneleaf.Raft.RaftEntryCodec

/-!
A segment whose two files lost their ends. Records are appended to a new segment, the files are cut
at any two lengths, and a new object is constructed on what is left. The objects keep their next
number in 64 bits: a segment that holds the record with the greatest number answers no reads.
-/

namespace Stoneleaf

open Library Program List Segment

variable {R : Type} (format : RecordFormat R)

namespace Segment

/-- The object as it is kept: the next number has 64 bits. -/
def wrapped (segment : Segment) : Segment :=
  { segment with next := segment.next % 2 ^ 64 }

def append (segment : Segment) (record : R) : DiskOp Segment := do
  let encoded ← orThrow (segment.prepare format record)
  let segment ← segment.writeRecord encoded
  return segment.wrapped

def appendAll : Segment → List R → DiskOp Segment
  | segment, [] => return segment
  | segment, record :: records => do
    let segment ← segment.append format record
    appendAll segment records

/-- The constructor, on files that exist. -/
def construct (base : Nat) : DiskOp Segment := do
  let segment ← recover format base
  return segment.wrapped

end Segment

/-- The records whose frames end within the first bytes of a store. -/
def completeRecords : Nat → List R → List R
  | _, [] => []
  | size, record :: records =>
    if (frameOf (format.payload record)).length ≤ size then
      record :: completeRecords (size - (frameOf (format.payload record)).length) records
    else []

/-- Records are numbered with 64 bits, and zero is no number. -/
structure RecordFormat.Numbered : Prop extends format.Lawful where
  number_lt : ∀ record, format.number record < 2 ^ 64
  number_ne_zero : ∀ record bytes, format.encode record = .ok bytes → format.number record ≠ 0

theorem walFormat_numbered : walFormat.Numbered where
  decode_encode := walFormat_lawful.decode_encode
  number_lt record := record.lsn.toNat_lt
  number_ne_zero record bytes hEncode hZero := by
    obtain ⟨hValid, -⟩ := (WalRecordCodec.encode_eq_ok_iff record).1 hEncode
    have hLsn : record.lsn = 0 := UInt64.toNat.inj hZero
    rw [WalRecordCodec.validateFields, if_pos hLsn] at hValid
    cases hValid

theorem raftFormat_numbered : raftFormat.Numbered where
  decode_encode := raftFormat_lawful.decode_encode
  number_lt entry := entry.idx.toNat_lt
  number_ne_zero entry bytes hEncode hZero := by
    obtain ⟨hValid, -⟩ := RaftEntryCodec.encode_eq_ok_iff.1 hEncode
    have hIdx : entry.idx = 0 := UInt64.toNat.inj hZero
    rw [RaftEntryCodec.validateHeader, if_pos hIdx] at hValid
    split at hValid <;> cases hValid

section Cut

variable {format} {base : Nat} {records : List R}

theorem completeRecords_isPrefix (size : Nat) (records : List R) :
    completeRecords format size records <+: records := by
  induction records generalizing size with
  | nil => exact prefix_rfl
  | cons record records ih =>
    rw [completeRecords]
    split
    · exact (prefix_cons_inj record).2 (ih _)
    · exact nil_prefix

/-- The first bytes of a store are its complete records and a beginning of the next one. -/
theorem take_storeImage (hFramable : ∀ record ∈ records, Framable (format.payload record))
    (size : Nat) :
    ∃ tail, (storeImage format records).take size =
        storeImage format (completeRecords format size records) ++ tail ∧
      splitFrame tail = none := by
  induction records generalizing size with
  | nil => exact ⟨[], by simp [storeImage, completeRecords], rfl⟩
  | cons record records ih =>
    have hPayload := hFramable record mem_cons_self
    have hCons : storeImage format (record :: records) =
        frameOf (format.payload record) ++ storeImage format records := by
      simp [storeImage]
    rw [completeRecords, hCons]
    split
    · rename_i hFits
      obtain ⟨tail, hTake, hTail⟩ := ih (fun r hr => hFramable r (mem_cons_of_mem _ hr))
        (size - (frameOf (format.payload record)).length)
      refine ⟨tail, ?_, hTail⟩
      rw [take_append, take_of_length_le hFits, hTake]
      simp [storeImage]
    · rename_i hShort
      rw [not_le] at hShort
      refine ⟨(frameOf (format.payload record)).take size, ?_, ?_⟩
      · rw [take_append_of_le_length hShort.le]
        simp [storeImage]
      · refine splitFrame_eq_none_of_short hPayload (List.take_prefix _ _) ?_
        rw [length_frame] at hShort
        rw [length_take, length_frame]
        omega

theorem index_read_take (hSound : Extent.Sound format ⟨base, records⟩) {ordinal : Nat}
    (hShort : ordinal < records.length) :
    Index.read (indexImage format records) ordinal =
      .ok (storeImage format (records.take ordinal)).length := by
  have hCut : records = records.take ordinal ++ records[ordinal] :: records.drop (ordinal + 1) := by
    rw [getElem_cons_drop, take_append_drop]
  have hLength : (records.take ordinal).length = ordinal := by
    rw [length_take]
    omega
  rw [hCut] at hSound
  have hRead := index_read hSound (show ([] : List UInt8).length < _ by decide)
  rwa [append_nil, ← hCut, hLength] at hRead

end Cut

namespace Segment

variable {format} {extent : Extent R} {record : R} {disk : Disk} {segment : Segment}

/-- Nothing has to be done to open a segment whose files agree. -/
theorem recover_held (hLawful : format.Lawful) (hHeld : Held format disk.directory extent) :
    recover format extent.base disk = .ok extent.segment disk := by
  have hScan := store_inspectFile_image hHeld.sound
  have hPlan := reconcile_spec hLawful hHeld.sound (le_refl extent.records.length)
    (le_refl extent.records.length) (show ([] : List UInt8).length < _ by decide)
  rw [take_length, append_nil, Nat.min_self, drop_length] at hPlan
  refine eq_ok_of_wp ?_
  unfold recover repairStore
  simp only [wp_bind, wp_readFile, hHeld.content_store, hHeld.content_index, hScan, reduceCtorEq,
    if_false, wp_pure, hPlan, wp_orThrow_ok]
  simp [rebuildIndex, appendMissing, syncRepaired, Reconciliation.indexChanged, offsetsFrom,
    Extent.segment, Extent.next]

theorem wrapped_of_lt (h : segment.next < 2 ^ 64) : segment.wrapped = segment := by
  rw [wrapped, Nat.mod_eq_of_lt h]

/-- What an append that returns has checked. -/
theorem prepare_eq_ok {encoded : List UInt8} (h : segment.prepare format record = .ok encoded) :
    format.number record = segment.next ∧ format.number record - segment.base ≤ 2 ^ 32 - 1 ∧
      format.encode record = .ok encoded := by
  unfold prepare at h
  by_cases hNumber : format.number record = segment.next
  · by_cases hLarge : format.number record - segment.base > 2 ^ 32 - 1
    · rw [if_neg (not_not.2 hNumber), if_pos hLarge] at h
      cases h
    · rw [if_neg (not_not.2 hNumber), if_neg hLarge] at h
      exact ⟨hNumber, not_lt.1 hLarge, h⟩
  · rw [if_pos hNumber] at h
    cases h

variable (hNumbered : format.Numbered) (hHeld : Held format disk.directory extent)
include hNumbered hHeld

/-- One append that returns: the files hold the record too. -/
theorem append_spec (hSize : (storeImage format extent.records).length < 2 ^ 63)
    (hNext : extent.next ≤ 2 ^ 64) {disk' : Disk}
    (hRun : extent.segment.wrapped.append format record disk = .ok segment disk') :
    extent.next < 2 ^ 64 ∧ segment = (extent.push record).segment.wrapped ∧
      Held format disk'.directory (extent.push record) := by
  unfold append at hRun
  cases hPrepare : extent.segment.wrapped.prepare format record with
  | error e =>
    rw [hPrepare] at hRun
    cases hRun
  | ok encoded =>
    rw [hPrepare] at hRun
    obtain ⟨hNumber, hOrdinal, hEncode⟩ := prepare_eq_ok hPrepare
    have hLt : extent.next < 2 ^ 64 := by
      refine lt_of_le_of_ne hNext fun hEq => hNumbered.number_ne_zero record encoded hEncode ?_
      rw [hNumber]
      change extent.next % 2 ^ 64 = 0
      rw [hEq, Nat.mod_self]
    have hSame : extent.segment.wrapped = extent.segment := wrapped_of_lt hLt
    rw [hSame] at hRun hNumber hOrdinal
    change (extent.segment.writeRecord encoded >>= fun segment => pure segment.wrapped) disk = _
      at hRun
    by_cases hLarge : encoded.length > 2 ^ 32 - 1
    · obtain ⟨e, hFails⟩ := writeRecord_tooLarge extent.segment disk hLarge
      rw [bind_fail hFails] at hRun
      cases hRun
    · have hPayload : format.payload record = encoded := by
        rw [RecordFormat.payload, hEncode]
      have hStorable : format.Storable record := ⟨encoded, hEncode, by rw [Framable]; omega⟩
      have hCount : extent.records.length < 256 ^ 4 := by
        rw [hNumber] at hOrdinal
        simp only [Extent.segment, Extent.next] at hOrdinal
        omega
      have hPush : (extent.push record).Sound format :=
        hHeld.sound.push hStorable hNumber hCount (by omega)
      rw [← hPayload, bind_ok (writeRecord_eq hHeld hPush)] at hRun
      obtain ⟨-, ⟨store, index, hWritten⟩, -⟩ :=
        okay_of_wp (writeRecord_eq hHeld hPush) (writeRecord_spec hHeld hPush)
      cases hRun
      exact ⟨hLt, rfl, hPush, store, index, hWritten.at_base.files_base, hWritten.store_content,
        hWritten.index_content⟩

theorem appendAll_spec {records : List R} (hNext : extent.next ≤ 2 ^ 64)
    (hSize : (storeImage format (extent.records ++ records)).length < 2 ^ 63) {disk' : Disk}
    (hRun : extent.segment.wrapped.appendAll format records disk = .ok segment disk') :
    Held format disk'.directory ⟨extent.base, extent.records ++ records⟩ ∧
      extent.next + records.length ≤ 2 ^ 64 := by
  induction records generalizing extent disk with
  | nil =>
    cases hRun
    simpa using ⟨hHeld, hNext⟩
  | cons record records ih =>
    have hShort : (storeImage format extent.records).length < 2 ^ 63 := by
      rw [storeImage_append, length_append] at hSize
      omega
    cases hFirst : extent.segment.wrapped.append format record disk with
    | fail e s =>
      rw [appendAll, bind_fail hFirst] at hRun
      cases hRun
    | halt s =>
      rw [appendAll, bind_halt hFirst] at hRun
      cases hRun
    | ok next disk₁ =>
      obtain ⟨hLt, rfl, hPushed⟩ := append_spec hNumbered hHeld hShort hNext hFirst
      rw [appendAll, bind_ok hFirst] at hRun
      have hLength : (extent.push record).next = extent.next + 1 := by
        simp [Extent.push, Extent.next, Nat.add_assoc]
      have hRest := ih hPushed (by omega) (by simpa [Extent.push] using hSize) hRun
      rw [hLength] at hRest
      simpa [Extent.push, Nat.add_assoc, Nat.add_comm 1] using hRest

end Segment

/-- Records that were appended to a new segment, and how much of its files is left. A file has
fewer than `2 ^ 63` bytes. -/
structure CutSegment where
  directory : Directory
  base : UInt64
  records : List R
  storeLength : Nat
  indexLength : Nat
  segment : Segment
  disk : Disk
  base_ne_zero : base ≠ 0
  fresh : directory.files base.toNat = .absent
  appended : (Segment.create format base.toNat >>= fun segment =>
    segment.appendAll format records) ⟨directory, []⟩ = .ok segment disk
  size_lt : (storeImage format records).length < 2 ^ 63

namespace CutSegment

variable {format} (cut : CutSegment format)

/-- What is left of the segment's files. -/
def left : Directory :=
  cut.disk.directory.setFiles cut.base.toNat
    ⟨some (.durable ((cut.disk.directory.content ⟨cut.base.toNat, .store⟩).take cut.storeLength)),
      some (.durable ((cut.disk.directory.content ⟨cut.base.toNat, .index⟩).take cut.indexLength))⟩

/-- The records of which everything is left. -/
def kept : List R :=
  completeRecords format cut.storeLength cut.records

/-- The segment holds exactly the complete records, and finds every one of them. -/
structure Rebuilt (segment : Segment) (disk : Disk) : Prop where
  base : segment.base = cut.base.toNat
  next : segment.next = (cut.base.toNat + cut.kept.length) % 2 ^ 64
  store : disk.directory.content ⟨cut.base.toNat, .store⟩ = storeImage format cut.kept
  index : disk.directory.content ⟨cut.base.toNat, .index⟩ = indexImage format cut.kept
  offset : ∀ ordinal < cut.kept.length,
    Index.read (disk.directory.content ⟨cut.base.toNat, .index⟩) ordinal =
      .ok (storeImage format (cut.kept.take ordinal)).length
  scan : segment.scan format disk = .ok cut.kept disk
  read : ∀ ordinal record, cut.kept[ordinal]? = some record →
    segment.read format (cut.base.toNat + ordinal) disk = .ok record disk
  again : Segment.construct format cut.base.toNat disk = .ok segment disk

def Rebuilds : Prop :=
  ∃ segment disk, Segment.construct format cut.base.toNat ⟨cut.left, []⟩ = .ok segment disk ∧
    cut.Rebuilt segment disk

section Result

variable {cut : CutSegment format}

/-- The files before they were cut. -/
theorem held (cut : CutSegment format) (hNumbered : format.Numbered) :
    Held format cut.disk.directory ⟨cut.base.toNat, cut.records⟩ ∧
      cut.base.toNat + cut.records.length ≤ 2 ^ 64 := by
  have hBase : 0 < cut.base.toNat := by
    have hNe : cut.base.toNat ≠ 0 := fun hZero => cut.base_ne_zero (UInt64.toNat.inj hZero)
    omega
  have hLt := cut.base.toNat_lt
  obtain ⟨segment, disk, hCreate, rfl, -, hFiles, -⟩ := exists_ok_of_wp
    (create_spec (show (⟨cut.directory, []⟩ : Disk).directory.files _ = _ from cut.fresh))
  have hEmpty : Held format disk.directory ⟨cut.base.toNat, []⟩ := by
    refine ⟨⟨hBase, by simp, by simp, by simp, by simp [offsetsFrom]⟩, .durable [], .durable [], ?_,
      rfl, rfl⟩
    rw [hFiles, Function.update_self]
  have hRun := cut.appended
  rw [bind_ok hCreate] at hRun
  have hStart : (⟨cut.base.toNat, cut.base.toNat⟩ : Segment) =
      (⟨cut.base.toNat, []⟩ : Extent R).segment.wrapped :=
    (wrapped_of_lt hLt).symm
  rw [hStart] at hRun
  exact appendAll_spec hNumbered hEmpty hLt.le cut.size_lt hRun

/-- What is constructed on the files that are left, apart from what reads answer. -/
theorem construct_spec (cut : CutSegment format) (hNumbered : format.Numbered) :
    ∃ disk, Segment.construct format cut.base.toNat ⟨cut.left, []⟩ =
        .ok (⟨cut.base.toNat, cut.kept⟩ : Extent R).segment.wrapped disk ∧
      Held format disk.directory ⟨cut.base.toNat, cut.kept⟩ ∧
      cut.base.toNat + cut.kept.length ≤ 2 ^ 64 := by
  obtain ⟨hHeld, hNext⟩ := cut.held hNumbered
  have hPrefix : cut.kept <+: cut.records := completeRecords_isPrefix cut.storeLength cut.records
  have hTake : cut.records.take cut.kept.length = cut.kept := (prefix_iff_eq_take.1 hPrefix).symm
  obtain ⟨tail, hCut, hTail⟩ : ∃ tail, (storeImage format cut.records).take cut.storeLength =
      storeImage format cut.kept ++ tail ∧ splitFrame tail = none :=
    take_storeImage (fun record hr => (hHeld.sound.storable record hr).framable) cut.storeLength
  have hStore : cut.disk.directory.content ⟨cut.base.toNat, .store⟩ = _ := hHeld.content_store
  have hIndex : cut.disk.directory.content ⟨cut.base.toNat, .index⟩ = _ := hHeld.content_index
  have hLeft : cut.left.files cut.base.toNat =
      ⟨some (.durable ((storeImage format cut.records).take cut.storeLength)),
        some (.durable ((indexImage format cut.records).take cut.indexLength))⟩ := by
    rw [left, Directory.files_setFiles, Function.update_self, hStore, hIndex]
  obtain ⟨segment, disk, hRun, rfl, ⟨store', index', hRecovered⟩, -⟩ := exists_ok_of_wp
    (recover_spec hNumbered.toLawful hHeld.sound
      (show (⟨cut.left, []⟩ : Disk).directory.files _ = _ from hLeft) hPrefix.length_le
      (by rw [File.content_durable, hTake]; exact hCut) hTail (List.take_prefix _ _)
      (List.take_prefix _ _))
  have hStoreContent := hRecovered.store_content
  have hIndexContent := hRecovered.index_content
  rw [hTake] at hStoreContent hIndexContent
  have hSound := hHeld.sound.take cut.kept.length
  rw [Extent.take, hTake] at hSound
  refine ⟨disk, ?_, ⟨hSound, store', index', hRecovered.at_base.files_base, hStoreContent,
    hIndexContent⟩, ?_⟩
  · rw [Segment.construct, bind_ok hRun]
    rfl
  · have hShort := hPrefix.length_le
    omega

/-- Every part but the reads holds of whatever is left. -/
theorem rebuilt_iff (cut : CutSegment format) (hNumbered : format.Numbered) {disk : Disk}
    (hHeld : Held format disk.directory ⟨cut.base.toNat, cut.kept⟩)
    (hNext : cut.base.toNat + cut.kept.length ≤ 2 ^ 64) :
    cut.Rebuilt (⟨cut.base.toNat, cut.kept⟩ : Extent R).segment.wrapped disk ↔
      cut.base.toNat + cut.kept.length < 2 ^ 64 := by
  have hBase := cut.base.toNat_lt
  constructor
  · intro hRebuilt
    refine lt_of_le_of_ne hNext fun hFull => ?_
    -- A segment that ends at the greatest number has a record, and does not find it.
    have hSome : cut.kept ≠ [] := by
      intro hNone
      rw [hNone, length_nil] at hFull
      omega
    obtain ⟨record, rest, hKept⟩ := exists_cons_of_ne_nil hSome
    have hRead := hRebuilt.read 0 record (by rw [hKept]; rfl)
    have hOutside : (⟨cut.base.toNat, cut.kept⟩ : Extent R).segment.wrapped.next = 0 := by
      change (cut.base.toNat + cut.kept.length) % 2 ^ 64 = 0
      rw [hFull, Nat.mod_self]
    rw [Segment.read, hOutside, if_pos (Or.inr (Nat.zero_le _))] at hRead
    cases hRead
  · intro hLt
    have hSame : (⟨cut.base.toNat, cut.kept⟩ : Extent R).segment.wrapped =
        (⟨cut.base.toNat, cut.kept⟩ : Extent R).segment := wrapped_of_lt hLt
    have hIndex : disk.directory.content ⟨cut.base.toNat, .index⟩ = _ := hHeld.content_index
    refine ⟨rfl, rfl, hHeld.content_store, hIndex, ?_, ?_, ?_, ?_⟩
    · intro ordinal hShort
      rw [hIndex]
      exact index_read_take hHeld.sound hShort
    · exact eq_ok_of_wp (scan_spec hNumbered.toLawful hHeld _)
    · intro ordinal record hRecord
      rw [hSame]
      exact read_spec hNumbered.toLawful hHeld (Nat.le_add_right _ _)
        (by simpa using hRecord)
    · rw [Segment.construct, bind_ok (recover_held hNumbered.toLawful hHeld)]
      rfl

theorem rebuilds_iff (cut : CutSegment format) (hNumbered : format.Numbered) :
    cut.Rebuilds ↔ cut.base.toNat + cut.kept.length < 2 ^ 64 := by
  obtain ⟨disk, hRun, hHeld, hNext⟩ := cut.construct_spec hNumbered
  rw [← cut.rebuilt_iff hNumbered hHeld hNext]
  constructor
  · rintro ⟨segment, disk', hRun', hRebuilt⟩
    obtain ⟨rfl, rfl⟩ := Outcome.ok.inj (hRun.symm.trans hRun')
    exact hRebuilt
  · exact fun hRebuilt => ⟨_, disk, hRun, hRebuilt⟩

/-- For both kinds of segments, any records and any two lengths of what is left of the files:
recovery does all it should exactly if the record with the greatest number of all is not among
those that are left. -/
theorem recovery_rebuilds_iff (wal : CutSegment walFormat) (raft : CutSegment raftFormat) :
    (wal.Rebuilds ↔ wal.base.toNat + wal.kept.length < 2 ^ 64) ∧
      (raft.Rebuilds ↔ raft.base.toNat + raft.kept.length < 2 ^ 64) :=
  ⟨wal.rebuilds_iff walFormat_numbered, raft.rebuilds_iff raftFormat_numbered⟩

end Result

section LastNumber

/-- The begin of a transaction, under the greatest number. -/
def lastRecord : LogRecord :=
  ⟨.ofNat (2 ^ 64 - 1), .txnBegin, 1, 0, []⟩

def lastRun : Outcome Disk Exception Segment :=
  (Segment.create walFormat (2 ^ 64 - 1) >>= fun segment =>
    segment.appendAll walFormat [lastRecord]) ⟨.empty, []⟩

/-- A segment with this record only, of which nothing was lost. -/
def lastNumber : CutSegment walFormat where
  directory := .empty
  base := .ofNat (2 ^ 64 - 1)
  records := [lastRecord]
  storeLength := 100
  indexLength := 100
  segment := lastRun.value?.getD ⟨0, 0⟩
  disk := lastRun.state
  base_ne_zero := by decide
  fresh := by decide +kernel
  appended := by
    have hOk : lastRun.isOk = true := by decide +kernel
    change lastRun = _
    cases hRun : lastRun with
    | ok segment disk => rfl
    | fail e disk | halt disk => rw [hRun] at hOk; cases hOk
  size_lt := by decide +kernel

theorem lastNumber_not_rebuilds : ¬lastNumber.Rebuilds := by
  rw [lastNumber.rebuilds_iff walFormat_numbered]
  decide +kernel

end LastNumber

end CutSegment

end Stoneleaf
