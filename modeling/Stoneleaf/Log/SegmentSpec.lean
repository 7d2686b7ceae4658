import Stoneleaf.Log.Segment
import Stoneleaf.Storage.PowerLoss

/-!
What the files of a segment hold, and what opening and extending it does. An extent is a run of
consecutively numbered records; its images are the contents of the two files that hold it.
Recovery is specified for any pair of prefixes of these images, however the two files were cut.
-/

namespace Stoneleaf

open Library Program List File Index

variable {R : Type} (format : RecordFormat R)

namespace RecordFormat

/-- The bytes of a record that can be encoded. -/
def payload (record : R) : List UInt8 :=
  match format.encode record with
  | .ok bytes => bytes
  | .error _ => []

/-- Decoding undoes encoding. -/
structure Lawful : Prop where
  decode_encode : ∀ record bytes, format.encode record = .ok bytes →
    format.decode bytes = .ok record

/-- A record that a store accepts. -/
def Storable (record : R) : Prop :=
  ∃ bytes, format.encode record = .ok bytes ∧ Framable bytes

variable {format} {record : R}

theorem Storable.encode_eq (h : format.Storable record) :
    format.encode record = .ok (format.payload record) := by
  obtain ⟨bytes, hBytes, -⟩ := h
  rw [payload, hBytes]

theorem Storable.framable (h : format.Storable record) :
    Framable (format.payload record) := by
  obtain ⟨bytes, hBytes, hFramable⟩ := h
  rwa [payload, hBytes]

theorem Storable.decode_payload (h : format.Storable record) (hLawful : format.Lawful) :
    format.decode (format.payload record) = .ok record :=
  hLawful.decode_encode record _ h.encode_eq

end RecordFormat

section Images

/-- The store that holds the given records. -/
def storeImage (records : List R) : List UInt8 :=
  frames (records.map format.payload)

/-- The offsets of the records, the first of which starts at a given offset. -/
def offsetsFrom (start : Nat) : List R → List Nat
  | [] => []
  | record :: records =>
    start :: offsetsFrom (start + (frameOf (format.payload record)).length) records

/-- The index of a store that holds the given records. -/
def indexImage (records : List R) : List UInt8 :=
  Index.entriesFrom 0 (offsetsFrom format 0 records)

variable (start : Nat) (a b records : List R)

@[simp] theorem length_offsetsFrom :
    (offsetsFrom format start records).length = records.length := by
  induction records generalizing start with
  | nil => rfl
  | cons record records ih => simp [offsetsFrom, ih]

theorem storeImage_append :
    storeImage format (a ++ b) = storeImage format a ++ storeImage format b := by
  simp [storeImage]

theorem offsetsFrom_append :
    offsetsFrom format start (a ++ b) =
      offsetsFrom format start a ++
        offsetsFrom format (start + (storeImage format a).length) b := by
  induction a generalizing start with
  | nil => simp [offsetsFrom, storeImage]
  | cons record a ih =>
    simp only [cons_append, offsetsFrom, ih]
    simp [storeImage, Nat.add_assoc]

theorem indexImage_append :
    indexImage format (a ++ b) = indexImage format a ++
      entriesFrom a.length (offsetsFrom format (storeImage format a).length b) := by
  rw [indexImage, offsetsFrom_append, entriesFrom_append]
  simp [indexImage]

theorem offsetsFrom_take (count : Nat) :
    offsetsFrom format start (records.take count) =
      (offsetsFrom format start records).take count := by
  induction records generalizing start count with
  | nil => simp [offsetsFrom]
  | cons record records ih =>
    cases count with
    | zero => simp [offsetsFrom]
    | succ count => simp [offsetsFrom, ih]

@[simp] theorem length_indexImage :
    (indexImage format records).length = records.length * entrySize := by
  simp [indexImage]

variable {a b}

theorem storeImage_isPrefix (h : a <+: b) : storeImage format a <+: storeImage format b := by
  obtain ⟨extra, rfl⟩ := h
  rw [storeImage_append]
  exact prefix_append _ _

theorem indexImage_isPrefix (h : a <+: b) : indexImage format a <+: indexImage format b := by
  obtain ⟨extra, rfl⟩ := h
  rw [indexImage_append]
  exact prefix_append _ _

/-- Whole entries of an index are cut off with their records. -/
theorem indexImage_take (records : List R) (count : Nat) :
    (indexImage format records).take (count * entrySize) =
      indexImage format (records.take count) := by
  rcases Nat.le_total count records.length with hLe | hLe
  · have hPrefix := indexImage_isPrefix format (List.take_prefix count records)
    rw [prefix_iff_eq_take, length_indexImage, length_take, Nat.min_eq_left hLe] at hPrefix
    exact hPrefix.symm
  · rw [take_of_length_le hLe, take_of_length_le]
    rw [length_indexImage]
    exact Nat.mul_le_mul_right _ hLe

end Images

/-- Consecutively numbered records. -/
structure Extent (R : Type) where
  base : Nat
  records : List R

namespace Extent

/-- The number after the last record. -/
def next (extent : Extent R) : Nat :=
  extent.base + extent.records.length

def take (extent : Extent R) (count : Nat) : Extent R :=
  { extent with records := extent.records.take count }

/-- Records that the two files of a segment can hold. -/
structure Sound (extent : Extent R) : Prop where
  base_pos : 0 < extent.base
  storable : ∀ record ∈ extent.records, format.Storable record
  numbered : ∀ k record, extent.records[k]? = some record →
    format.number record = extent.base + k
  count_le : extent.records.length ≤ 256 ^ 4
  offsets_lt : ∀ offset ∈ offsetsFrom format 0 extent.records, offset < 256 ^ 8

variable {format} {extent : Extent R}

theorem Sound.take (h : extent.Sound format) (count : Nat) : (extent.take count).Sound format where
  base_pos := h.base_pos
  storable record hr := h.storable record (mem_of_mem_take hr)
  numbered k record hr := h.numbered k record (by
    rw [Extent.take, getElem?_take] at hr
    split at hr
    · exact hr
    · simp at hr)
  count_le := (length_take_le' _ _).trans h.count_le
  offsets_lt offset ho := h.offsets_lt offset (by
    rw [Extent.take, offsetsFrom_take] at ho
    exact mem_of_mem_take ho)

theorem Sound.framable (h : extent.Sound format) :
    ∀ payload ∈ extent.records.map format.payload, Framable payload := by
  intro payload hp
  obtain ⟨record, hr, rfl⟩ := mem_map.1 hp
  exact (h.storable record hr).framable

end Extent

section Reading

variable {format} {base : Nat} {a b : List R} {record : R} {tail : List UInt8} {records : List R}

/-- A record of a store: what is read at its offset, its number, and that it could be stored. -/
theorem store_read (hSound : Extent.Sound format ⟨base, a ++ record :: b⟩) :
    Store.read (storeImage format (a ++ record :: b)) (storeImage format a).length =
        .ok (format.payload record) ∧
      format.number record = base + a.length ∧ format.Storable record := by
  refine ⟨?_, hSound.numbered a.length record (by simp), hSound.storable record (by simp)⟩
  have hMap : storeImage format (a ++ record :: b) =
      frames (a.map format.payload ++ format.payload record :: b.map format.payload) ++ [] := by
    simp [storeImage]
  rw [hMap]
  exact Store.read_frames (by simpa using hSound.framable) rfl

theorem store_inspectFile (hSound : Extent.Sound format ⟨base, records⟩)
    (hTail : splitFrame tail = none) :
    Store.inspectFile (storeImage format records ++ tail) =
      ⟨if tail = [] then .complete else .incompleteTail,
        (storeImage format records ++ tail).length, (storeImage format records).length,
        records.length⟩ := by
  rw [storeImage, Store.inspectFile_frames hSound.framable hTail, length_map]

theorem store_inspectFile_image (hSound : Extent.Sound format ⟨base, records⟩) :
    Store.inspectFile (storeImage format records) =
      ⟨.complete, (storeImage format records).length, (storeImage format records).length,
        records.length⟩ := by
  have hScan : Store.inspectFile (storeImage format records ++ []) = _ :=
    store_inspectFile hSound rfl
  simpa using hScan

theorem length_storeImage_concat (a : List R) (record : R) :
    (storeImage format (a ++ [record])).length =
      (storeImage format a).length + (Store.recordLengthSize + (format.payload record).length) := by
  simp [storeImage, Store.recordLengthSize]

theorem offsetsFrom_cut (a : List R) (record : R) (b : List R) :
    offsetsFrom format 0 (a ++ record :: b) =
      offsetsFrom format 0 a ++ (storeImage format a).length ::
        offsetsFrom format (storeImage format (a ++ [record])).length b := by
  rw [offsetsFrom_append, Nat.zero_add, length_storeImage_concat, offsetsFrom, length_frame,
    Store.recordLengthSize]

theorem index_inspectFile (hSound : Extent.Sound format ⟨base, records⟩)
    (hTail : tail.length < entrySize) :
    inspectFile (indexImage format records ++ tail) =
      ⟨if tail = [] then .complete else .incompleteTail,
        records.length * entrySize + tail.length, records.length * entrySize,
        records.length⟩ := by
  have hCount : (offsetsFrom format 0 records).length ≤ 256 ^ 4 := by
    simpa using hSound.count_le
  rw [indexImage, inspectFile_entriesFrom hCount hTail, length_offsetsFrom]

theorem index_read (hSound : Extent.Sound format ⟨base, a ++ record :: b⟩)
    (hTail : tail.length < entrySize) :
    read (indexImage format (a ++ record :: b) ++ tail) a.length =
      .ok (storeImage format a).length := by
  have hOffset : (storeImage format a).length < 256 ^ 8 := by
    apply hSound.offsets_lt
    rw [offsetsFrom_cut]
    simp
  have hCount : (offsetsFrom format 0 (a ++ record :: b)).length ≤ 256 ^ 4 := by
    simpa using hSound.count_le
  rw [offsetsFrom_cut] at hCount
  have hRead := read_entriesFrom hCount hOffset hTail
  rw [length_offsetsFrom] at hRead
  rw [indexImage, offsetsFrom_cut]
  exact hRead

end Reading

namespace Segment

section Recovery

variable {format} {base : Nat} {a b c : List R} {record : R} {tail : List UInt8}

/-- The walk over the records that the index lacks. -/
theorem missingOffsets_spec (hLawful : format.Lawful)
    (hSound : Extent.Sound format ⟨base, a ++ b⟩) :
    missingOffsets format base (storeImage format (a ++ b)) a.length (storeImage format a).length =
      .ok (offsetsFrom format (storeImage format a).length b) := by
  induction b generalizing a with
  | nil =>
    rw [missingOffsets, store_inspectFile_image hSound, if_neg (by simp)]
    rfl
  | cons record b ih =>
    have hMore : (storeImage format a).length < (storeImage format (a ++ record :: b)).length := by
      simp [storeImage]
    obtain ⟨hRead, hNumber, hStorable⟩ := store_read hSound
    have hCount := hSound.count_le
    simp only [length_append, length_cons] at hCount
    rw [missingOffsets, store_inspectFile_image hSound, if_pos hMore, hRead]
    simp only [hStorable.decode_payload hLawful, hNumber]
    rw [if_neg (by simp), if_neg (by omega), ← length_storeImage_concat]
    have hRest := ih (a := a ++ [record]) (by simpa using hSound)
    simp only [append_assoc, cons_append, nil_append, length_append,
      length_cons, length_nil, Nat.zero_add] at hRest
    rw [hRest, offsetsFrom, length_storeImage_concat, length_frame, Store.recordLengthSize]
    rfl

/-- The walk starts behind the last record that both files know. -/
theorem suffixOffset_spec (hLawful : format.Lawful)
    (hStore : Extent.Sound format ⟨base, a ++ record :: b⟩)
    (hIndex : Extent.Sound format ⟨base, a ++ record :: c⟩)
    (hTail : tail.length < entrySize) :
    suffixOffset format base (storeImage format (a ++ record :: b))
      (indexImage format (a ++ record :: c) ++ tail) (a.length + 1) =
        .ok (storeImage format (a ++ [record])).length := by
  obtain ⟨hRead, hNumber, hStorable⟩ := store_read hStore
  have hEnd : (storeImage format a).length + Store.recordLengthSize +
      (format.payload record).length ≤ (storeImage format (a ++ record :: b)).length := by
    simp [storeImage, Store.recordLengthSize]
    omega
  unfold suffixOffset
  rw [if_neg (by simp), Nat.add_sub_cancel, index_read hIndex hTail]
  simp only [bind, Except.bind, hRead, hStorable.decode_payload hLawful, hNumber,
    store_inspectFile_image hStore]
  rw [if_neg (by simpa using hEnd), length_storeImage_concat, Nat.add_assoc]
  rfl

/-- The first records of a list, cut before the last of them. -/
theorem exists_take_cut {all : List R} {n k : Nat} (hn : n < k) (hk : k ≤ all.length) :
    ∃ a record b, a.length = n ∧ all.take (n + 1) = a ++ [record] ∧
      all.take k = a ++ record :: b := by
  have hLt : n < all.length := by omega
  refine ⟨all.take n, all[n], (all.take k).drop (n + 1), by simp; omega, ?_, ?_⟩
  · exact (take_append_getElem hLt).symm
  · have hSplit := take_append_drop (n + 1) (all.take k)
    rw [take_take, Nat.min_eq_left hn, ← take_append_getElem hLt, append_assoc]
      at hSplit
    exact hSplit.symm

variable {all : List R} {stored indexed : Nat}

/-- What recovery finds out from a repaired store and any beginning of the index. -/
theorem reconcile_spec (hLawful : format.Lawful) (hSound : Extent.Sound format ⟨base, all⟩)
    (hStored : stored ≤ all.length) (hIndexed : indexed ≤ all.length)
    (hTail : tail.length < entrySize) :
    reconcile format base (storeImage format (all.take stored))
      (indexImage format (all.take indexed) ++ tail) =
        .ok ⟨stored, min indexed stored, decide (tail ≠ [] ∨ indexed ≠ min indexed stored),
          offsetsFrom format (storeImage format (all.take (min indexed stored))).length
            ((all.take stored).drop (min indexed stored))⟩ := by
  have hStoreSound : Extent.Sound format ⟨base, all.take stored⟩ := hSound.take stored
  have hIndexSound : Extent.Sound format ⟨base, all.take indexed⟩ := hSound.take indexed
  have hStoreScan := store_inspectFile_image hStoreSound
  have hIndexScan := index_inspectFile hIndexSound hTail
  rw [length_take, Nat.min_eq_left hStored] at hStoreScan
  rw [length_take, Nat.min_eq_left hIndexed] at hIndexScan
  generalize hCommon : min indexed stored = common
  have hCommonStored : common ≤ stored := hCommon ▸ Nat.min_le_right _ _
  have hCommonIndexed : common ≤ indexed := hCommon ▸ Nat.min_le_left _ _
  have hSplit : all.take stored = all.take common ++ (all.take stored).drop common := by
    conv_lhs => rw [← take_append_drop common (all.take stored)]
    rw [take_take, Nat.min_eq_left hCommonStored]
  have hCursor : suffixOffset format base (storeImage format (all.take stored))
      (indexImage format (all.take indexed) ++ tail) common =
        .ok (storeImage format (all.take common)).length := by
    cases common with
    | zero => simp [suffixOffset, storeImage, pure, Except.pure]
    | succ n =>
      obtain ⟨a, record, b, ha, hCut, hStoreCut⟩ := exists_take_cut hCommonStored hStored
      obtain ⟨a', record', c, ha', hCut', hIndexCut⟩ := exists_take_cut hCommonIndexed hIndexed
      obtain ⟨rfl, hLast⟩ := append_inj' (hCut'.symm.trans hCut) rfl
      obtain rfl : record' = record := by simpa using hLast
      rw [hStoreCut, hIndexCut, hCut, ← ha]
      rw [hStoreCut] at hStoreSound
      rw [hIndexCut] at hIndexSound
      exact suffixOffset_spec hLawful hStoreSound hIndexSound hTail
  have hMissing : missingOffsets format base (storeImage format (all.take stored)) common
      (storeImage format (all.take common)).length = .ok (offsetsFrom format
        (storeImage format (all.take common)).length ((all.take stored).drop common)) := by
    have hWalk := missingOffsets_spec hLawful (hSplit ▸ hStoreSound)
    rw [← hSplit, length_take, Nat.min_eq_left (hCommonStored.trans hStored)] at hWalk
    exact hWalk
  have hLength : common + ((all.take stored).drop common).length = stored := by
    simp
    omega
  have hScanned : (if tail = [] then IndexScanStatus.complete else .incompleteTail) ≠ .corrupt := by
    split <;> simp
  have hPartial : (if tail = [] then IndexScanStatus.complete else .incompleteTail) ≠ .complete ↔
      tail ≠ [] := by
    by_cases hEmpty : tail = [] <;> simp [hEmpty]
  unfold reconcile
  rw [hStoreScan, hIndexScan]
  simp only [hScanned, hCommon, hPartial, if_false, hCursor, bind, Except.bind, hMissing,
    length_offsetsFrom, hLength, ne_eq, not_true_eq_false, pure, Except.pure]

end Recovery

end Segment

/-- A directory in which a segment holds at least the first records of an extent, with both
files cut somewhere; everything else is as in an older directory. -/
structure Partly (extent : Extent R) (kept : Nat) (old directory : Directory) (store index : File) :
    Prop where
  at_base : old.At extent.base directory store index
  store_prefix : store.content <+: storeImage format extent.records
  kept_prefix : storeImage format (extent.records.take kept) <+: store.content
  index_prefix : index.content <+: indexImage format extent.records
  store_follows : ∀ older, (old.files extent.base).store = some older →
    File.Follows (storeImage format (extent.records.take kept)) (storeImage format extent.records)
      older store
  index_follows : ∀ older, (old.files extent.base).index = some older →
    File.Follows [] (indexImage format extent.records) older index

def PartlyHeld (extent : Extent R) (kept : Nat) (old directory : Directory) : Prop :=
  ∃ store index, Partly format extent kept old directory store index

namespace Partly

variable {format} {extent : Extent R} {kept : Nat} {old directory : Directory} {store index : File}

variable (h : Partly format extent kept old directory store index)
include h

theorem write_store {w : FileWrite}
    (hLow : storeImage format (extent.records.take kept) <+: w.apply store.content)
    (hHigh : w.apply store.content <+: storeImage format extent.records) :
    Partly format extent kept old (FileOp.apply directory (.write ⟨extent.base, .store⟩ w))
      (store.write w) index where
  at_base := h.at_base.write_store w
  store_prefix := by rwa [content_write]
  kept_prefix := by rwa [content_write]
  index_prefix := h.index_prefix
  store_follows older hOlder := (h.store_follows older hOlder).write h.kept_prefix hLow hHigh
  index_follows := h.index_follows

theorem write_index {w : FileWrite}
    (hHigh : w.apply index.content <+: indexImage format extent.records) :
    Partly format extent kept old (FileOp.apply directory (.write ⟨extent.base, .index⟩ w))
      store (index.write w) where
  at_base := h.at_base.write_index w
  store_prefix := h.store_prefix
  kept_prefix := h.kept_prefix
  index_prefix := by rwa [content_write]
  store_follows := h.store_follows
  index_follows older hOlder :=
    (h.index_follows older hOlder).write nil_prefix nil_prefix hHigh

theorem sync_store :
    Partly format extent kept old (FileOp.apply directory (.sync ⟨extent.base, .store⟩))
      store.sync index where
  at_base := h.at_base.sync_store
  store_prefix := h.store_prefix
  kept_prefix := h.kept_prefix
  index_prefix := h.index_prefix
  store_follows older hOlder := (h.store_follows older hOlder).sync h.kept_prefix h.store_prefix
  index_follows := h.index_follows

theorem sync_index :
    Partly format extent kept old (FileOp.apply directory (.sync ⟨extent.base, .index⟩))
      store index.sync where
  at_base := h.at_base.sync_index
  store_prefix := h.store_prefix
  kept_prefix := h.kept_prefix
  index_prefix := h.index_prefix
  store_follows := h.store_follows
  index_follows older hOlder := (h.index_follows older hOlder).sync nil_prefix h.index_prefix

end Partly

/-- The files after a recovery that kept the first records of an extent: they hold these
records exactly, and a file that was changed has been synchronized. -/
structure Recovered (extent : Extent R) (kept : Nat) (old directory : Directory)
    (store index store' index' : File) : Prop
    extends Partly format extent kept old directory store' index' where
  store_content : store'.content = storeImage format (extent.records.take kept)
  index_content : index'.content = indexImage format (extent.records.take kept)
  store_linked : store'.linked = store.linked
  index_linked : index'.linked = index.linked
  store_synced : store'.unsynced = [] ∨ store' = store
  index_synced : index'.unsynced = [] ∨ index' = index

namespace Segment

section Recovery

variable {format} {extent : Extent R} {kept indexed : Nat} {old : Directory} {start disk : Disk}
  {store index : File} {tail : List UInt8} {content : List UInt8}

theorem repairStore_spec (hSound : extent.Sound format)
    (h : Partly format extent kept old disk.directory store index)
    (hStore : store.content = storeImage format (extent.records.take kept) ++ tail)
    (hTail : splitFrame tail = none) :
    (repairStore extent.base).Returns disk
      fun changed disk' => ∃ store', Partly format extent kept old disk'.directory store' index ∧
        store'.content = storeImage format (extent.records.take kept) ∧
        store'.linked = store.linked ∧ (changed = false → store' = store) ∧
        Disk.Passes (PartlyHeld format extent kept old) disk disk' := by
  have hScan := store_inspectFile (hSound.take kept) hTail
  unfold repairStore
  simp only [wp_bind, wp_readFile, h.at_base.content_store, hStore, hScan]
  by_cases hEmpty : tail = []
  · rw [if_pos hEmpty, if_neg (by simp)]
    have hContent : store.content = storeImage format (extent.records.take kept) := by
      rw [hStore, hEmpty, append_nil]
    exact ⟨store, h, hContent, rfl, fun _ => rfl, .refl disk⟩
  · rw [if_neg hEmpty, if_pos rfl]
    unfold Store.repairTail
    simp only [wp_bind, wp_readFile, h.at_base.content_store, hStore, hScan, if_neg hEmpty]
    rw [if_neg (by simp)]
    have hCut : (store.write (.truncate (storeImage format
        (extent.records.take kept)).length)).content =
          storeImage format (extent.records.take kept) := by
      simp [FileWrite.apply, hStore]
    refine ⟨_, h.write_store ?_ ?_, hCut, rfl, by simp,
      (Disk.Passes.refl disk).perform ⟨store, index, h⟩ _⟩
    · rw [← content_write, hCut]
    · rw [← content_write, hCut]
      exact storeImage_isPrefix format (List.take_prefix _ _)

/-- Appending the entries of records that the index lacks. -/
theorem appendMissing_spec (hSound : extent.Sound format) {a b : List R}
    (hSplit : extent.records.take kept = a ++ b)
    (h : Partly format extent kept old disk.directory store index)
    (hIndex : index.content = indexImage format a) :
    (appendMissing extent.base a.length (offsetsFrom format (storeImage format a).length b)).Returns
      disk fun _ disk' => ∃ index', Partly format extent kept old disk'.directory store index' ∧
        index'.content = indexImage format (a ++ b) ∧ index'.linked = index.linked ∧
        (b = [] → index' = index) ∧ Disk.Passes (PartlyHeld format extent kept old) disk disk' := by
  induction b generalizing a disk index with
  | nil =>
    exact ⟨index, h, by simpa using hIndex, rfl, fun _ => rfl, .refl disk⟩
  | cons record b ih =>
    have hSplit' : extent.records.take kept = (a ++ [record]) ++ b := by simpa using hSplit
    have hPart : Extent.Sound format ⟨extent.base, a⟩ := by
      have hTake := hSound.take a.length
      have hRecords : extent.records.take a.length = a := by
        have hLength : a.length ≤ kept := by
          have hTakeLength := congrArg List.length hSplit
          simp only [length_take, length_append] at hTakeLength
          omega
        rw [← Nat.min_eq_left hLength, ← take_take, hSplit, take_left']
        rfl
      simpa only [Extent.take, hRecords] using hTake
    have hScan := index_inspectFile hPart (show ([] : List UInt8).length < _ by decide)
    rw [append_nil, if_pos rfl] at hScan
    have hEntry : (index.write (.append (entry a.length (storeImage format a).length))).content =
        indexImage format (a ++ [record]) := by
      rw [content_write, FileWrite.apply, hIndex, indexImage_append]
      simp [offsetsFrom, entriesFrom]
    have hNext : Partly format extent kept old
        (disk.perform (.write ⟨extent.base, .index⟩
          (.append (entry a.length (storeImage format a).length)))).directory store
        (index.write (.append (entry a.length (storeImage format a).length))) := by
      apply h.write_index
      rw [← content_write, hEntry]
      apply indexImage_isPrefix
      apply List.IsPrefix.trans _ (List.take_prefix kept extent.records)
      rw [hSplit']
      exact prefix_append _ _
    have hRest := ih hSplit' hNext hEntry
    simp only [length_storeImage_concat, length_append, length_cons, length_nil,
      Nat.zero_add] at hRest
    rw [Returns, offsetsFrom, appendMissing, wp_bind]
    unfold append
    simp only [wp_bind, wp_readFile, h.at_base.content_index, hIndex, hScan]
    rw [if_neg (by simp), wp_fileOp, length_frame]
    refine wp_conseq hRest ?_
    rintro _ disk' ⟨index', hPartly, hContent, hLinked, -, hPasses⟩
    refine ⟨index', hPartly, by simpa using hContent, hLinked, by simp, ?_⟩
    exact ((Disk.Passes.refl disk).perform ⟨store, index, h⟩ _).trans hPasses

/-- Bringing the index into agreement with a repaired store. -/
theorem rebuildIndex_spec (hSound : extent.Sound format) (hKept : kept ≤ extent.records.length)
    (hIndexed : indexed ≤ extent.records.length) (hTail : tail.length < entrySize)
    (h : Partly format extent kept old disk.directory store index)
    (hIndex : index.content = indexImage format (extent.records.take indexed) ++ tail)
    {plan : Reconciliation} (hCommon : plan.commonCount = min indexed kept)
    (hTruncates : plan.truncates = decide (tail ≠ [] ∨ indexed ≠ min indexed kept))
    (hMissing : plan.missing =
      offsetsFrom format (storeImage format (extent.records.take (min indexed kept))).length
        ((extent.records.take kept).drop (min indexed kept))) :
    (rebuildIndex extent.base plan).Returns disk
      fun _ disk' => ∃ index', Partly format extent kept old disk'.directory store index' ∧
        index'.content = indexImage format (extent.records.take kept) ∧
        index'.linked = index.linked ∧ (plan.indexChanged = false → index' = index) ∧
        Disk.Passes (PartlyHeld format extent kept old) disk disk' := by
  generalize hMin : min indexed kept = common at hCommon hTruncates hMissing
  have hCommonKept : common ≤ kept := hMin ▸ Nat.min_le_right _ _
  have hCommonIndexed : common ≤ indexed := hMin ▸ Nat.min_le_left _ _
  have hSplit : extent.records.take kept =
      extent.records.take common ++ (extent.records.take kept).drop common := by
    conv_lhs => rw [← take_append_drop common (extent.records.take kept)]
    rw [take_take, Nat.min_eq_left hCommonKept]
  have hLength : (extent.records.take common).length = common := by
    rw [length_take, Nat.min_eq_left (hCommonKept.trans hKept)]
  have hAppend : ∀ {disk₁ : Disk} {index₁ : File},
      Partly format extent kept old disk₁.directory store index₁ →
      index₁.content = indexImage format (extent.records.take common) →
      (appendMissing extent.base plan.commonCount plan.missing).Returns disk₁
        fun _ disk' => ∃ index', Partly format extent kept old disk'.directory store index' ∧
          index'.content = indexImage format (extent.records.take kept) ∧
          index'.linked = index₁.linked ∧ (plan.missing = [] → index' = index₁) ∧
          Disk.Passes (PartlyHeld format extent kept old) disk₁ disk' := by
    intro disk₁ index₁ hPartly hContent
    have hSpec := appendMissing_spec hSound hSplit hPartly hContent
    rw [hLength, ← hSplit] at hSpec
    rw [hCommon, hMissing]
    refine wp_conseq hSpec ?_
    rintro _ disk' ⟨index', hPartly', hContent', hLinked, hSame, hPasses⟩
    refine ⟨index', hPartly', hContent', hLinked, fun hEmpty => hSame ?_, hPasses⟩
    rw [← length_eq_zero_iff, ← length_offsetsFrom format, hEmpty, length_nil]
  unfold rebuildIndex
  by_cases hTrunc : plan.truncates = true
  · have hScan := index_inspectFile (hSound.take indexed) hTail
    have hEntries : (inspectFile index.content).entryCount = indexed := by
      rw [hIndex]
      refine (congrArg IndexScanResult.entryCount hScan).trans ?_
      simpa using hIndexed
    have hCut : (index.write (.truncate (common * entrySize))).content =
        indexImage format (extent.records.take common) := by
      have hPrefix : indexImage format (extent.records.take common) <+: index.content := by
        rw [hIndex]
        apply List.IsPrefix.trans _ (prefix_append _ _)
        exact indexImage_isPrefix format (take_prefix_take_left hCommonIndexed)
      have hSize : common * entrySize =
          (indexImage format (extent.records.take common)).length := by
        rw [length_indexImage, hLength]
      rw [content_write, FileWrite.apply, hSize]
      exact (prefix_iff_eq_take.1 hPrefix).symm
    have hNext : Partly format extent kept old
        (disk.perform (.write ⟨extent.base, .index⟩ (.truncate (common * entrySize)))).directory
        store (index.write (.truncate (common * entrySize))) := by
      apply h.write_index
      rw [← content_write, hCut]
      exact indexImage_isPrefix format (List.take_prefix _ _)
    rw [Returns, if_pos hTrunc, wp_bind]
    unfold truncateTo
    simp only [wp_bind, wp_readFile, h.at_base.content_index, hEntries, hCommon]
    rw [if_neg (by omega), wp_fileOp, ← hCommon]
    rw [← hCommon] at hNext hCut
    refine wp_conseq (hAppend hNext (hCut.trans (by rw [hCommon]))) ?_
    rintro _ disk' ⟨index', hPartly', hContent', hLinked, -, hPasses⟩
    refine ⟨index', hPartly', hContent', hLinked, fun hNone => ?_,
      ((Disk.Passes.refl disk).perform ⟨store, index, h⟩ _).trans hPasses⟩
    simp [Reconciliation.indexChanged, hTrunc] at hNone
  · have hKeep : tail = [] ∧ indexed = common := by
      rw [hTruncates] at hTrunc
      simpa using hTrunc
    rw [if_neg hTrunc]
    refine wp_conseq (hAppend h (by rw [hIndex, hKeep.1, hKeep.2, append_nil])) ?_
    rintro _ disk' ⟨index', hPartly', hContent', hLinked, hSame, hPasses⟩
    refine ⟨index', hPartly', hContent', hLinked, fun hNone => hSame ?_, hPasses⟩
    simpa [Reconciliation.indexChanged, hTrunc] using hNone

theorem syncRepaired_spec (storeChanged indexChanged : Bool)
    (h : Partly format extent kept old disk.directory store index) :
    (syncRepaired extent.base storeChanged indexChanged).Returns disk
      fun _ disk' => ∃ store' index', Partly format extent kept old disk'.directory store' index' ∧
        store'.content = store.content ∧ index'.content = index.content ∧
        store'.linked = store.linked ∧ index'.linked = index.linked ∧
        (store'.unsynced = [] ∨ storeChanged = false ∧ store' = store) ∧
        (index'.unsynced = [] ∨ indexChanged = false ∧ index' = index) ∧
        Disk.Passes (PartlyHeld format extent kept old) disk disk' := by
  have hStore : Partly format extent kept old
      (disk.perform (.sync ⟨extent.base, .store⟩)).directory store.sync index :=
    h.sync_store
  have hFirst : Disk.Passes (PartlyHeld format extent kept old) disk
      (disk.perform (.sync ⟨extent.base, .store⟩)) :=
    (Disk.Passes.refl disk).perform ⟨store, index, h⟩ _
  unfold syncRepaired
  cases indexChanged with
  | true =>
    refine ⟨store.sync, index.sync, hStore.sync_index, rfl, rfl, rfl, rfl, Or.inl rfl,
      Or.inl rfl, ?_⟩
    exact hFirst.perform ⟨store.sync, index, hStore⟩ _
  | false =>
    cases storeChanged with
    | true =>
      exact ⟨store.sync, index, hStore, rfl, rfl, rfl, rfl, Or.inl rfl, Or.inr ⟨rfl, rfl⟩, hFirst⟩
    | false =>
      exact ⟨store, index, h, rfl, rfl, rfl, rfl, Or.inr ⟨rfl, rfl⟩, Or.inr ⟨rfl, rfl⟩, .refl disk⟩

/-- What survives of a store: its first records and the beginning of the next one. -/
theorem exists_store_of_isPrefix (hSound : extent.Sound format)
    (hPrefix : content <+: storeImage format extent.records) :
    ∃ kept tail, kept ≤ extent.records.length ∧
      content = storeImage format (extent.records.take kept) ++ tail ∧ splitFrame tail = none ∧
        (kept = extent.records.length → tail = []) := by
  obtain ⟨kept, tail, hKept, hContent, hTail, hFull⟩ :=
    exists_frames_of_isPrefix hSound.framable hPrefix
  rw [length_map] at hKept hFull
  rw [← map_take] at hContent
  exact ⟨kept, tail, hKept, hContent, hTail, hFull⟩

theorem exists_index_of_isPrefix (hPrefix : content <+: indexImage format extent.records) :
    ∃ indexed tail, indexed ≤ extent.records.length ∧
      content = indexImage format (extent.records.take indexed) ++ tail ∧
        tail.length < entrySize := by
  obtain ⟨indexed, tail, hIndexed, hContent, hTail⟩ :=
    exists_entriesFrom_of_isPrefix hPrefix
  rw [length_offsetsFrom] at hIndexed
  rw [← offsetsFrom_take] at hContent
  exact ⟨indexed, tail, hIndexed, hContent, hTail⟩

/-- Opening a segment whose files were cut anywhere keeps exactly the records whose frames are
complete, and brings both files into agreement with them. -/
theorem recover_spec (hLawful : format.Lawful) (hSound : extent.Sound format)
    (hFiles : disk.directory.files extent.base = ⟨some store, some index⟩)
    (hKept : kept ≤ extent.records.length)
    (hStore : store.content = storeImage format (extent.records.take kept) ++ tail)
    (hTail : splitFrame tail = none) (hPrefix : store.content <+: storeImage format extent.records)
    (hIndex : index.content <+: indexImage format extent.records) :
    (recover format extent.base).Returns disk
      fun segment disk' => segment = ⟨extent.base, extent.base + kept⟩ ∧
        (∃ store' index', Recovered format extent kept disk.directory disk'.directory store index
          store' index') ∧
        Disk.Passes (PartlyHeld format extent kept disk.directory) disk disk' := by
  have hStart : Partly format extent kept disk.directory disk.directory store index := by
    refine ⟨⟨?_, rfl⟩, hPrefix, ?_, hIndex, ?_, ?_⟩
    · rw [← hFiles, Function.update_eq_self]
    · rw [hStore]
      exact prefix_append _ _
    · intro older hOlder
      obtain rfl : store = older := by simpa [hFiles] using hOlder
      exact .refl store
    · intro older hOlder
      obtain rfl : index = older := by simpa [hFiles] using hOlder
      exact .refl index
  obtain ⟨indexed, rest, hIndexed, hIndexContent, hRest⟩ := exists_index_of_isPrefix hIndex
  unfold recover
  refine wp_bind_of (repairStore_spec hSound hStart hStore hTail) ?_
  rintro storeChanged disk₁ ⟨store₁, h₁, hContent₁, hLinked₁, hSame₁, hPasses₁⟩
  have hPlan := reconcile_spec hLawful hSound hKept hIndexed hRest
  simp only [wp_bind, wp_readFile, h₁.at_base.content_store, h₁.at_base.content_index, hContent₁,
    hIndexContent, hPlan, wp_orThrow_ok]
  refine wp_conseq (rebuildIndex_spec hSound hKept hIndexed hRest h₁ hIndexContent rfl rfl rfl) ?_
  rintro _ disk₂ ⟨index₂, h₂, hContent₂, hLinked₂, hSame₂, hPasses₂⟩
  refine wp_conseq (syncRepaired_spec storeChanged _ h₂) ?_
  rintro _ disk₃ ⟨store₃, index₃, h₃, hStore₃, hIndex₃, hStoreLinked, hIndexLinked, hStoreSync,
    hIndexSync, hPasses₃⟩
  refine ⟨rfl, ⟨store₃, index₃, h₃, hStore₃.trans hContent₁, hIndex₃.trans hContent₂,
    hStoreLinked.trans hLinked₁, hIndexLinked.trans hLinked₂, ?_, ?_⟩,
    (hPasses₁.trans hPasses₂).trans hPasses₃⟩
  · rcases hStoreSync with hSync | ⟨hUnchanged, hSame⟩
    · exact Or.inl hSync
    · exact Or.inr (hSame.trans (hSame₁ hUnchanged))
  · rcases hIndexSync with hSync | ⟨hUnchanged, hSame⟩
    · exact Or.inl hSync
    · exact Or.inr (hSame.trans (hSame₂ hUnchanged))

end Recovery

end Segment

end Stoneleaf
