import Stoneleaf.Log.OpenSpec

/-!
What the operations on an open segment do to its files: appending a record, synchronizing, and
starting a new segment. Appending passes through the directories in which the new record is
partly written.
-/

namespace Stoneleaf

open Library Program List FileWrite Directory Function

variable {R : Type} {format : RecordFormat R} {extent : Extent R}

/-- The segment object of an extent. -/
def Extent.segment (extent : Extent R) : Segment :=
  ⟨extent.base, extent.next⟩

/-- The extent with one more record. -/
def Extent.push (extent : Extent R) (record : R) : Extent R :=
  { extent with records := extent.records ++ [record] }

theorem Extent.Sound.push {record : R} (h : extent.Sound format)
    (hStorable : format.Storable record) (hNumber : format.number record = extent.next)
    (hCount : extent.records.length < 256 ^ 4)
    (hOffset : (storeImage format extent.records).length < 256 ^ 8) :
    (extent.push record).Sound format where
  base_pos := h.base_pos
  storable r hr := by
    rcases mem_append.1 hr with hOld | hNew
    · exact h.storable r hOld
    · rwa [mem_singleton.1 hNew]
  numbered k r hr := by
    rw [Extent.push, getElem?_append] at hr
    split at hr
    · exact h.numbered k r hr
    · rename_i hAbove
      obtain ⟨hZero, rfl⟩ : k - extent.records.length = 0 ∧ record = r := by
        cases hIndex : k - extent.records.length with
        | zero => simpa [hIndex] using hr
        | succ n => simp [hIndex] at hr
      rw [hNumber, Extent.next, Extent.push]
      simp only
      omega
  count_le := by
    simp only [Extent.push, length_append, length_singleton]
    omega
  offsets_lt offset ho := by
    rw [Extent.push, offsetsFrom_append] at ho
    rcases mem_append.1 ho with hOld | hNew
    · exact h.offsets_lt offset hOld
    · have hEq : offset = (storeImage format extent.records).length := by
        simpa [offsetsFrom] using hNew
      rwa [hEq]

/-- The checks before a record is written to a segment. -/
theorem Segment.prepare_cases (extent : Extent R) (record : R) :
    (extent.segment.prepare format record = format.encode record ∧
      format.number record = extent.next ∧ extent.records.length < 256 ^ 4) ∨
    (∃ e, extent.segment.prepare format record = .error e) ∧
      (format.number record ≠ extent.next ∨ 256 ^ 4 ≤ extent.records.length) := by
  have hNext : extent.segment.next = extent.segment.base + extent.records.length := rfl
  unfold prepare
  by_cases hNumber : format.number record = extent.segment.next
  · rw [if_neg (not_not.2 hNumber)]
    by_cases hLarge : format.number record - extent.segment.base > 2 ^ 32 - 1
    · rw [if_pos hLarge]
      exact Or.inr ⟨⟨_, rfl⟩, Or.inr (by omega)⟩
    · rw [if_neg hLarge]
      exact Or.inl ⟨rfl, hNumber, by omega⟩
  · rw [if_pos hNumber]
    exact Or.inr ⟨⟨_, rfl⟩, Or.inl hNumber⟩

/-- The segment has crossed one of its limits. -/
def Extent.Full (format : RecordFormat R) (config : Config) (extent : Extent R) : Prop :=
  (storeImage format extent.records).length > config.maxStoreBytes ∨
    extent.records.length * Index.entrySize > config.maxIndexBytes

instance (config : Config) (extent : Extent R) : Decidable (extent.Full format config) :=
  inferInstanceAs (Decidable (_ ∨ _))

theorem Extent.Full.records_ne_nil {config : Config} (h : extent.Full format config) :
    extent.records ≠ [] := by
  intro hNone
  rw [Full, hNone] at h
  simp [storeImage] at h

/-- A segment that is not full can address one more record. -/
theorem Extent.offset_lt {config : Config} (h : ¬extent.Full format config) :
    (storeImage format extent.records).length < 256 ^ 8 := by
  have hLimit := config.maxStoreBytes_lt
  rw [Full, not_or] at h
  omega

/-- A whole segment, seen as one of which everything was kept. -/
theorem Held.partly {directory : Directory} {store index : File}
    (hFiles : directory.files extent.base = ⟨some store, some index⟩) {whole : Extent R}
    (hBase : whole.base = extent.base) (hPrefix : extent.records <+: whole.records)
    (hStore : store.content = storeImage format extent.records)
    (hIndex : index.content = indexImage format extent.records) :
    Partly format whole extent.records.length directory directory store index := by
  rw [← hBase] at hFiles
  have hTake : whole.records.take extent.records.length = extent.records :=
    (prefix_iff_eq_take.1 hPrefix).symm
  refine ⟨⟨?_, rfl⟩, ?_, ?_, ?_, ?_, ?_⟩
  · rw [← hFiles, update_eq_self]
  · rw [hStore]
    exact storeImage_isPrefix format hPrefix
  · rw [hTake, hStore]
  · rw [hIndex]
    exact indexImage_isPrefix format hPrefix
  · intro older hOlder
    obtain rfl : store = older := by simpa [hFiles] using hOlder
    exact .refl store
  · intro older hOlder
    obtain rfl : index = older := by simpa [hFiles] using hOlder
    exact .refl index

/-- The directory after the files of a segment were brought to hold exactly an extent. -/
structure Written (format : RecordFormat R) (extent : Extent R) (kept : Nat)
    (old directory : Directory) (store index : File) : Prop
    extends Partly format extent kept old directory store index where
  store_content : store.content = storeImage format extent.records
  index_content : index.content = indexImage format extent.records

namespace Segment

variable {extent : Extent R} {record : R} {disk : Disk} {store index : File}

/-- The operations that append a record: its length and its bytes to the store, and then its
place to the index. -/
def recordOps (format : RecordFormat R) (extent : Extent R) (record : R) : List FileOp :=
  [.write ⟨extent.base, .store⟩ (.append (bigEndian 4 (format.payload record).length)),
    .write ⟨extent.base, .store⟩ (.append (format.payload record)),
    .write ⟨extent.base, .index⟩ (.append (Index.entry extent.records.length
      (storeImage format extent.records).length))]

section

variable (hHeld : Held format disk.directory extent) (hSound : (extent.push record).Sound format)
include hHeld hSound

theorem writeRecord_eq :
    extent.segment.writeRecord (format.payload record) disk =
      .ok (extent.push record).segment (disk.performAll (recordOps format extent record)) := by
  obtain ⟨store, index, hFiles, hStore, hIndex⟩ := hHeld.files
  have hAt : Directory.At disk.directory extent.base disk.directory store index :=
    ⟨by rw [← hFiles, update_eq_self], rfl⟩
  have hFramable : Framable (format.payload record) :=
    (hSound.storable record (by simp [Extent.push])).framable
  have hScan := store_inspectFile_image hHeld.sound
  have hIndexScan := index_inspectFile hHeld.sound (show ([] : List UInt8).length < _ by decide)
  rw [append_nil, if_pos rfl] at hIndexScan
  have hContent : disk.directory.content ⟨extent.segment.base, .store⟩ =
      storeImage format extent.records := hAt.content_store.trans hStore
  have hIndexContent :=
    ((hAt.write_store (.append (bigEndian 4 (format.payload record).length))).write_store
    (.append (format.payload record))).content_index.trans hIndex
  rw [Framable] at hFramable
  refine eq_ok_of_wp ?_
  unfold writeRecord Store.append Index.append
  simp only [wp_bind, if_neg
    (Nat.not_lt_of_le (show (format.payload record).length ≤ 2 ^ 32 - 1 by omega)),
    wp_pure, wp_readFile, hContent, hScan, reduceCtorEq, if_false, wp_fileOp]
  have hComplete :=
    (congrArg (fun content => (Index.inspectFile content).status) hIndexContent).trans
    (congrArg IndexScanResult.status hIndexScan)
  have hOrdinal : extent.segment.next - extent.segment.base = extent.records.length :=
    Nat.add_sub_cancel_left _ _
  rw [if_neg (fun hNot => hNot hComplete), wp_fileOp, hOrdinal]
  refine ⟨?_, rfl⟩
  simp [Extent.segment, Extent.push, Extent.next, Nat.add_assoc]

theorem writeRecord_spec :
    (extent.segment.writeRecord (format.payload record)).Returns disk
      fun segment disk' => segment = (extent.push record).segment ∧
        (∃ store index, Written format (extent.push record) extent.records.length disk.directory
          disk'.directory store index) ∧
        Disk.Passes (PartlyHeld format (extent.push record) extent.records.length disk.directory)
          disk disk' := by
  obtain ⟨store, index, hFiles, hStore, hIndex⟩ := hHeld.files
  have hStart : Partly format (extent.push record) extent.records.length disk.directory
      disk.directory store index := Held.partly hFiles rfl (prefix_append _ _) hStore hIndex
  have hImage : storeImage format (extent.push record).records =
      storeImage format extent.records ++ (bigEndian 4 (format.payload record).length ++
        format.payload record) := by
    simp [Extent.push, storeImage, frameOf]
  have hTake : (extent.push record).records.take extent.records.length = extent.records := by
    simp [Extent.push]
  have hLength :
      Partly format (extent.push record) extent.records.length disk.directory _ _ index :=
    hStart.write_store (w := .append (bigEndian 4 (format.payload record).length))
      (by rw [hTake, apply, hStore]; exact prefix_append _ _)
      (by
        rw [hImage, apply, hStore, ← append_assoc]
        exact prefix_append _ _)
  have hPayload :
      Partly format (extent.push record) extent.records.length disk.directory _ _ index :=
    hLength.write_store (w := .append (format.payload record))
      (by
        rw [hTake, apply, File.content_write, apply, hStore, append_assoc]
        exact prefix_append _ _)
      (by
        rw [hImage, apply, File.content_write, apply, hStore, append_assoc])
  have hEntry : indexImage format extent.records ++
      Index.entry extent.records.length (storeImage format extent.records).length =
        indexImage format (extent.push record).records := by
    rw [Extent.push, indexImage_append]
    simp [offsetsFrom, Index.entriesFrom]
  have hLast : Partly format (extent.push record) extent.records.length disk.directory _ _ _ :=
    hPayload.write_index (w := .append (Index.entry extent.records.length
      (storeImage format extent.records).length))
      (by rw [apply, hIndex, hEntry])
  refine wp_of_ok (writeRecord_eq hHeld hSound) ⟨rfl, ⟨_, _, hLast, ?_, ?_⟩, ?_⟩
  · rw [File.content_write, File.content_write, hStore, hImage]
    simp [apply]
  · rw [File.content_write, hIndex, apply, hEntry]
  · exact (((Disk.Passes.refl disk).perform ⟨store, index, hStart⟩ _).perform
      ⟨_, _, hLength⟩ _).perform ⟨_, _, hPayload⟩ _

end

/-- A record that no frame can hold is not written. -/
theorem writeRecord_tooLarge (segment : Segment) (disk : Disk) {encoded : List UInt8}
    (hLarge : encoded.length > 2 ^ 32 - 1) :
    ∃ e, segment.writeRecord encoded disk = .fail e disk := by
  refine ⟨.lengthError "Store record exceeds the four-byte length field", ?_⟩
  unfold writeRecord Store.append
  rw [if_pos hLarge]
  rfl

theorem sync_spec (hHeld : Held format disk.directory extent) :
    extent.segment.sync.Returns disk
      fun _ disk' => ∃ store index,
        Written format extent extent.records.length disk.directory disk'.directory store index ∧
          store.unsynced = [] ∧ index.unsynced = [] ∧
          Disk.Passes (PartlyHeld format extent extent.records.length disk.directory) disk
            disk' := by
  obtain ⟨store, index, hFiles, hStore, hIndex⟩ := hHeld.files
  have hStart :
      Partly format extent extent.records.length disk.directory disk.directory store index :=
    Held.partly hFiles rfl prefix_rfl hStore hIndex
  refine ⟨store.sync, index.sync, ⟨hStart.sync_store.sync_index, hStore, hIndex⟩, rfl, rfl, ?_⟩
  exact ((Disk.Passes.refl disk).perform ⟨store, index, hStart⟩ _).perform
    ⟨_, _, hStart.sync_store⟩ _

theorem isMaxed_eq (hHeld : Held format disk.directory extent) (config : Config) :
    extent.segment.isMaxed config disk = .ok (decide (extent.Full format config)) disk := by
  refine eq_ok_of_wp ?_
  unfold isMaxed
  simp only [wp_bind, wp_readFile, Extent.segment, hHeld.content_store, hHeld.content_index,
    wp_pure, length_indexImage, and_true]
  rfl

theorem recover_empty {base : Nat} (hStore : disk.directory.content ⟨base, .store⟩ = [])
    (hIndex : disk.directory.content ⟨base, .index⟩ = []) :
    recover format base disk = .ok ⟨base, base⟩ disk := by
  have hStoreScan : Store.inspectFile [] = ⟨.complete, 0, 0, 0⟩ := by
    rw [Store.inspectFile, Store.inspectFrom]
    rfl
  have hIndexScan : Index.inspectFile [] = ⟨.complete, 0, 0, 0⟩ := by
    rw [Index.inspectFile, Index.inspectFrom]
    rfl
  have hMissing : missingOffsets format base [] 0 0 = .ok [] := by
    rw [missingOffsets, hStoreScan]
    rfl
  have hPlan : reconcile format base [] [] = .ok ⟨0, 0, false, []⟩ := by
    simp [reconcile, suffixOffset, hMissing, hStoreScan, hIndexScan, bind, Except.bind, pure,
      Except.pure]
  refine eq_ok_of_wp ?_
  unfold recover repairStore
  simp only [wp_bind, wp_readFile, hStore]
  rw [if_neg (by simp [hStoreScan])]
  simp [hStore, hIndex, hPlan, rebuildIndex, appendMissing, syncRepaired,
    Reconciliation.indexChanged]

/-- The directories on the way to a new segment: none of its files, one or both exist. -/
def Creating (base : Nat) (old directory : Directory) : Prop :=
  directory = old ∨
    directory.removed = old.removed ∧ ∃ index, (index = none ∨ index = some .created) ∧
      directory.files = Function.update old.files base ⟨some .created, index⟩

theorem create_spec {base : Nat} (hAbsent : disk.directory.files base = .absent) :
    (create format base).Returns disk
      fun segment disk' => segment = ⟨base, base⟩ ∧ disk'.directory.removed = [] ∧
        disk'.directory.files = update (fun b => (disk.directory.files b).link) base
          ⟨some (.durable []), some (.durable [])⟩ ∧
        Disk.Passes (Creating base disk.directory) disk disk' := by
  let first := disk.perform (.create ⟨base, .store⟩)
  let second := first.perform (.create ⟨base, .index⟩)
  let third := second.perform .syncDirectory
  have hFirst : first.directory.files =
      update disk.directory.files base ⟨some .created, none⟩ := by
    simp [first, Disk.perform, FileOp.apply, setFile, hAbsent, SegmentFiles.absent,
      SegmentFiles.set]
  have hSecond : second.directory.files =
      update disk.directory.files base ⟨some .created, some .created⟩ := by
    simp [second, Disk.perform, FileOp.apply, setFile, hFirst, SegmentFiles.set]
  have hThird : third.directory.files =
      update (fun b => (disk.directory.files b).link) base
        ⟨some (.durable []), some (.durable [])⟩ := by
    funext b
    simp only [third, Disk.perform, FileOp.apply, files_link, hSecond]
    by_cases hb : b = base
    · simp [hb, SegmentFiles.link, File.link, File.created, File.durable]
    · simp [hb]
  have hRemoved : first.directory.removed = disk.directory.removed ∧
      second.directory.removed = disk.directory.removed := by
    simp [first, second, Disk.perform, FileOp.apply, setFile]
  have hOpened : recover format base third = .ok ⟨base, base⟩ third := by
    apply recover_empty <;> simp [content, file, hThird, SegmentFiles.get]
  unfold create createFile
  simp only [wp_bind, wp_read, file, hAbsent, SegmentFiles.absent, SegmentFiles.get,
    Option.isSome_none, Bool.false_eq_true, if_false, wp_fileOp]
  change wp (if (first.directory.files base).index.isSome = true then _ else _) first _ _ _
  rw [hFirst, if_neg (by simp), wp_fileOp]
  refine wp_of_ok hOpened ⟨rfl, rfl, hThird, ?_⟩
  have hPasses : Disk.Passes (Creating base disk.directory) disk first :=
    (Disk.Passes.refl disk).perform (Or.inl rfl) _
  have hBoth : Disk.Passes (Creating base disk.directory) disk second :=
    hPasses.perform (Or.inr ⟨hRemoved.1, none, Or.inl rfl, hFirst⟩) _
  exact hBoth.perform (Or.inr ⟨hRemoved.2, _, Or.inr rfl, hSecond⟩) _

end Segment

end Stoneleaf
