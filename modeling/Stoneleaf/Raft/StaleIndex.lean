import Stoneleaf.Raft.RaftLogRefinement

/-!
Power losses of a log in one segment. After a cut, entries of other sizes may follow, and a power
loss can leave the new store with the old index: opening trusts the places in the index that it
does not look at. Nothing of this happens while no write follows a cut that is not on disk yet.
-/

namespace Stoneleaf

open Library Program List Directory File Segment

namespace File

/-- The file was only appended to since its last `fsync`. -/
def Uncut (file : File) : Prop :=
  ∀ w ∈ file.unsynced, ∃ bytes, w = .append bytes

/-- No write was issued behind a truncation since the last `fsync`. -/
def Settling (file : File) : Prop :=
  file.unsynced.Pairwise fun earlier later =>
    (∃ size, earlier = .truncate size) → ∃ size, later = .truncate size

instance (w : FileWrite) : Decidable (∃ size, w = .truncate size) :=
  match w with
  | .truncate size => isTrue ⟨size, rfl⟩
  | .append _ => isFalse fun ⟨_, hCut⟩ => by cases hCut

instance (file : File) : Decidable file.Settling :=
  inferInstanceAs (Decidable (List.Pairwise _ _))

variable {file : File} {bytes : List UInt8} {size : Nat}

theorem Uncut.settling (h : file.Uncut) : file.Settling := by
  refine pairwise_of_forall_mem_list fun earlier hEarlier later _ hCut => ?_
  obtain ⟨size, rfl⟩ := hCut
  obtain ⟨bytes, hBytes⟩ := h _ hEarlier
  cases hBytes

theorem settling_append : (file.write (.append bytes)).Settling ↔ file.Uncut := by
  constructor
  · intro h w hMem
    have hCross := (pairwise_append.1 h).2.2 w hMem (.append bytes) mem_cons_self
    cases w with
    | append bytes => exact ⟨bytes, rfl⟩
    | truncate size =>
      obtain ⟨_, hCut⟩ := hCross ⟨size, rfl⟩
      cases hCut
  · intro h
    refine Uncut.settling fun w hMem => ?_
    rcases mem_append.1 hMem with hOld | hNew
    · exact h w hOld
    · exact ⟨bytes, mem_singleton.1 hNew⟩

theorem settling_truncate : (file.write (.truncate size)).Settling ↔ file.Settling := by
  constructor
  · exact fun h => (pairwise_append.1 h).1
  · intro h
    refine pairwise_append.2 ⟨h, pairwise_singleton _ _, fun _ _ later hLater _ => ?_⟩
    exact ⟨size, mem_singleton.1 hLater⟩

theorem uncut_append : (file.write (.append bytes)).Uncut ↔ file.Uncut := by
  constructor
  · exact fun h w hMem => h w (mem_append_left _ hMem)
  · intro h w hMem
    rcases mem_append.1 hMem with hOld | hNew
    · exact h w hOld
    · exact ⟨bytes, mem_singleton.1 hNew⟩

theorem not_uncut_truncate : ¬(file.write (.truncate size)).Uncut := by
  intro h
  obtain ⟨bytes, hBytes⟩ := h (.truncate size) (by simp [File.write])
  cases hBytes

theorem uncut_sync (file : File) : file.sync.Uncut :=
  fun _ hMem => absurd hMem not_mem_nil

/-- Of a file that was only appended to, a beginning survives. -/
theorem Uncut.within (h : file.Uncut) : Within [] file.content file := by
  obtain ⟨synced, unsynced, linked⟩ := file
  induction unsynced using List.reverseRecOn with
  | nil => exact within_of_synced rfl nil_prefix prefix_rfl
  | append_singleton unsynced w ih =>
    obtain ⟨bytes, rfl⟩ := h w (by simp)
    have hOld := ih fun w' hMem => h w' (mem_append_left _ hMem)
    have hContent : (⟨synced, unsynced ++ [.append bytes], linked⟩ : File) =
        (⟨synced, unsynced, linked⟩ : File).write (.append bytes) := rfl
    rw [hContent, content_write]
    refine (hOld.mono prefix_rfl (prefix_append _ bytes)).write nil_prefix ?_
    exact prefix_rfl

end File

/-- No file has a write behind a cut that is not on disk yet. -/
def Directory.Settling (directory : Directory) : Prop :=
  ∀ name file, directory.file name = some file → file.Settling

theorem Directory.settling_iff_entries {directory : Directory} :
    directory.Settling ↔ ∀ entry ∈ directory.entries,
      (∀ file ∈ entry.2.store, file.Settling) ∧ ∀ file ∈ entry.2.index, file.Settling := by
  rw [directory.entries_eq_map]
  constructor
  · intro h entry hMem
    obtain ⟨base, -, rfl⟩ := mem_map.1 hMem
    exact ⟨fun file hFile => h ⟨base, .store⟩ file hFile,
      fun file hFile => h ⟨base, .index⟩ file hFile⟩
  · rintro h ⟨base, kind⟩ file hFile
    have hPresent : base ∈ directory.bases := by
      rw [directory.mem_bases]
      intro hAbsent
      rw [Directory.file, hAbsent] at hFile
      cases kind <;> cases hFile
    have hEntry := h _ (mem_map_of_mem hPresent)
    cases kind with
    | store => exact hEntry.1 file hFile
    | index => exact hEntry.2 file hFile

instance (directory : Directory) : Decidable directory.Settling :=
  decidable_of_iff' _ settling_iff_entries

namespace RaftLog

variable {log : RaftLog} {last : Extent RaftMutationEntry} {directory : Directory}
  {store index : File} {entry : RaftMutationEntry} {whole : Extent RaftMutationEntry}

/-- What survives of the two files are beginnings of what one list of entries makes of them. -/
def Lies (store index : File) : Prop :=
  ∃ whole : Extent RaftMutationEntry, whole.base = 1 ∧ whole.Sound raftFormat ∧
    store.Within [] (storeImage raftFormat whole.records) ∧
    index.Within [] (indexImage raftFormat whole.records)

/-- A directory with one segment, that a power loss cannot hurt while it is settling. -/
def Guarded (directory : Directory) : Prop :=
  ∃ store index, Directory.At .empty 1 directory store index ∧ store.linked = true ∧
    index.linked = true ∧ (store.Settling → index.Settling → Lies store index)

/-- The same between two calls, when the two files have been cut and synchronized together. -/
structure Paired (directory : Directory) (store index : File) : Prop where
  at_first : Directory.At .empty 1 directory store index
  store_linked : store.linked = true
  index_linked : index.linked = true
  uncut : store.Uncut ↔ index.Uncut
  settling : store.Settling ↔ index.Settling
  lies : store.Settling → Lies store index

theorem Paired.guarded (h : Paired directory store index) : Guarded directory :=
  ⟨store, index, h.at_first, h.store_linked, h.index_linked, fun hSettling _ => h.lies hSettling⟩

/-- A log in one segment whose directory is guarded. -/
def Solo (log : RaftLog) : Prop :=
  log.directoryDirty = false ∧ ∃ last store index, Opened log [] last ∧
    Paired log.disk.directory store index

theorem Lies.of_uncut (hBase : whole.base = 1) (hSound : whole.Sound raftFormat)
    (hStore : store.Uncut) (hIndex : index.Uncut)
    (hStoreImage : store.content <+: storeImage raftFormat whole.records)
    (hIndexImage : index.content <+: indexImage raftFormat whole.records) : Lies store index :=
  ⟨whole, hBase, hSound, hStore.within.mono prefix_rfl hStoreImage,
    hIndex.within.mono prefix_rfl hIndexImage⟩

theorem Opened.base_one (h : Opened log [] last) : last.base = 1 :=
  h.chained.1

theorem Opened.contents (h : Opened log [] last) (hPaired : Paired log.disk.directory store index) :
    store.content = storeImage raftFormat last.records ∧
      index.content = indexImage raftFormat last.records := by
  obtain ⟨store', index', hFiles, hStore, hIndex⟩ := (h.held last (by simp)).files
  rw [h.base_one, hPaired.at_first.files_base] at hFiles
  cases hFiles
  exact ⟨hStore, hIndex⟩

section Steps

variable {disk : Disk}

variable (h : Paired disk.directory store index)
include h

/-- The three operations that append an entry. While the files are settling nothing is cut, and
what survives is a beginning. -/
theorem Paired.append {head payload place : List UInt8} (hBase : whole.base = 1)
    (hSound : whole.Sound raftFormat)
    (hStore : store.content ++ head ++ payload = storeImage raftFormat whole.records)
    (hIndex : index.content ++ place = indexImage raftFormat whole.records) :
    (∃ store' index', Paired (disk.performAll [.write ⟨1, .store⟩ (.append head),
      .write ⟨1, .store⟩ (.append payload), .write ⟨1, .index⟩ (.append place)]).directory
      store' index') ∧
      Disk.Passes Guarded disk (disk.performAll [.write ⟨1, .store⟩ (.append head),
        .write ⟨1, .store⟩ (.append payload), .write ⟨1, .index⟩ (.append place)]) := by
  have hHead := h.at_first.write_store (.append head)
  have hPayload := hHead.write_store (.append payload)
  have hPlace := hPayload.write_index (.append place)
  have hFirst : (store.write (.append head)).content <+: storeImage raftFormat whole.records := by
    rw [content_write, ← hStore]
    exact prefix_append _ _
  have hSecond : ((store.write (.append head)).write (.append payload)).content <+:
      storeImage raftFormat whole.records := by
    rw [content_write, content_write, ← hStore]
    exact prefix_rfl
  have hOldIndex : index.content <+: indexImage raftFormat whole.records :=
    hIndex ▸ prefix_append _ _
  have hNewIndex :
      (index.write (.append place)).content <+: indexImage raftFormat whole.records := by
    rw [content_write, ← hIndex]
    exact prefix_rfl
  refine ⟨⟨_, _, hPlace, h.store_linked, h.index_linked, ?_, ?_, fun hSettling => ?_⟩, ?_⟩
  · rw [uncut_append, uncut_append, uncut_append]
    exact h.uncut
  · rw [settling_append, settling_append, uncut_append]
    exact h.uncut
  · have hUncut := settling_append.1 hSettling
    have hStoreUncut := uncut_append.1 hUncut
    exact .of_uncut hBase hSound (uncut_append.2 hUncut)
      (uncut_append.2 (h.uncut.1 hStoreUncut)) hSecond hNewIndex
  · have hAfterHead : Guarded (disk.perform (.write ⟨1, .store⟩ (.append head))).directory := by
      refine ⟨_, index, hHead, h.store_linked, h.index_linked, fun hSettling _ => ?_⟩
      have hUncut := settling_append.1 hSettling
      exact .of_uncut hBase hSound (uncut_append.2 hUncut) (h.uncut.1 hUncut) hFirst hOldIndex
    have hAfterPayload : Guarded ((disk.perform (.write ⟨1, .store⟩ (.append head))).perform
        (.write ⟨1, .store⟩ (.append payload))).directory := by
      refine ⟨_, index, hPayload, h.store_linked, h.index_linked, fun hSettling _ => ?_⟩
      have hUncut := settling_append.1 hSettling
      exact .of_uncut hBase hSound (uncut_append.2 hUncut)
        (h.uncut.1 (uncut_append.1 hUncut)) hSecond hOldIndex
    exact (((Disk.Passes.refl disk).perform h.guarded _).perform hAfterHead _).perform
      hAfterPayload _

/-- The two operations that cut the segment. -/
theorem Paired.truncate (size size' : Nat) :
    (∃ store' index', Paired (disk.performAll [.write ⟨1, .store⟩ (.truncate size),
      .write ⟨1, .index⟩ (.truncate size')]).directory store' index') ∧
      Disk.Passes Guarded disk (disk.performAll [.write ⟨1, .store⟩ (.truncate size),
        .write ⟨1, .index⟩ (.truncate size')]) := by
  have hFirst := h.at_first.write_store (.truncate size)
  have hSecond := hFirst.write_index (.truncate size')
  have hCut : ∀ {file : File} {high : List UInt8} (n : Nat), file.Within [] high →
      (file.write (.truncate n)).Within [] high := fun n hWithin =>
    hWithin.write nil_prefix ((List.take_prefix _ _).trans hWithin.content.2)
  refine ⟨⟨_, _, hSecond, h.store_linked, h.index_linked, ?_, ?_, fun hSettling => ?_⟩, ?_⟩
  · exact iff_of_false not_uncut_truncate not_uncut_truncate
  · rw [settling_truncate, settling_truncate]
    exact h.settling
  · obtain ⟨whole, hBase, hSound, hStore, hIndex⟩ := h.lies (settling_truncate.1 hSettling)
    exact ⟨whole, hBase, hSound, hCut size hStore, hCut size' hIndex⟩
  · have hBetween : Guarded (disk.perform (.write ⟨1, .store⟩ (.truncate size))).directory := by
      refine ⟨_, index, hFirst, h.store_linked, h.index_linked, fun hSettling _ => ?_⟩
      obtain ⟨whole, hBase, hSound, hStore, hIndex⟩ := h.lies (settling_truncate.1 hSettling)
      exact ⟨whole, hBase, hSound, hCut size hStore, hIndex⟩
    exact ((Disk.Passes.refl disk).perform h.guarded _).perform hBetween _

/-- The two operations that synchronize the segment. -/
theorem Paired.sync (hBase : last.base = 1) (hSound : last.Sound raftFormat)
    (hStore : store.content = storeImage raftFormat last.records)
    (hIndex : index.content = indexImage raftFormat last.records) :
    (∃ store' index', Paired (disk.performAll [.sync ⟨1, .store⟩, .sync ⟨1, .index⟩]).directory
      store' index') ∧
      Disk.Passes Guarded disk (disk.performAll [.sync ⟨1, .store⟩, .sync ⟨1, .index⟩]) := by
  have hFirst := h.at_first.sync_store
  have hSecond := hFirst.sync_index
  have hUncut := uncut_sync store
  have hUncut' := uncut_sync index
  refine ⟨⟨_, _, hSecond, h.store_linked, h.index_linked, iff_of_true hUncut hUncut',
    iff_of_true hUncut.settling hUncut'.settling, fun _ => ?_⟩, ?_⟩
  · refine Lies.of_uncut hBase hSound hUncut hUncut' ?_ ?_
    · rw [content_sync, hStore]
    · rw [content_sync, hIndex]
  · have hBetween : Guarded (disk.perform (.sync ⟨1, .store⟩)).directory := by
      refine ⟨_, index, hFirst, h.store_linked, h.index_linked, fun _ hSettling => ?_⟩
      obtain ⟨whole, hWhole, hSoundWhole, hStoreIn, hIndexIn⟩ := h.lies (h.settling.2 hSettling)
      exact ⟨whole, hWhole, hSoundWhole, hStoreIn.sync, hIndexIn⟩
    exact ((Disk.Passes.refl disk).perform h.guarded _).perform hBetween _

end Steps

section Calls

/-- A call that left the log in one segment kept its directory guarded all the time. -/
def KeepsSolo (log log' : RaftLog) : Prop :=
  log'.segments.length = 1 → Solo log' ∧ Disk.Passes Guarded log.disk log'.disk

theorem Solo.keeps_self (h : Solo log) : KeepsSolo log log :=
  fun _ => ⟨h, .refl _⟩

/-- Only the files, the segments and the two cached values of a log matter. -/
theorem Solo.flagged (h : Solo log) (flag : Bool) :
    KeepsSolo log { log with recoveryRequired := flag } := by
  obtain ⟨hDirty, last, store, index, hOpened, hPaired⟩ := h
  exact fun _ => ⟨⟨hDirty, last, store, index, hOpened.flagged flag, hPaired⟩, .refl _⟩

theorem appendToActive_solo (hDirty : log.directoryDirty = false) (hOpened : Opened log [] last)
    (hPaired : Paired log.disk.directory store index)
    (hOffset : (storeImage raftFormat last.records).length < 256 ^ 8) (entry : RaftMutationEntry) :
    (appendToActive entry).Reaches log (KeepsSolo log) := by
  have h : Solo log := ⟨hDirty, last, store, index, hOpened, hPaired⟩
  have hHeld := hOpened.held last (by simp)
  refine wp_mono (appendToActive_cases hOpened hOffset (fun _ hSound => ?_)
    fun flag _ => h.flagged flag) (fun _ _ hKeeps => hKeeps) (fun _ _ hKeeps => hKeeps)
    fun _ hFalse => hFalse.elim
  have hPerformed : (last.segment.writeRecord (raftFormat.payload entry)).wp log.disk
      (fun _ disk' => disk' = log.disk.performAll (Segment.recordOps raftFormat last entry))
      (fun _ _ => True) fun _ => True :=
    wp_of_ok (writeRecord_eq hHeld hSound) rfl
  refine wp_mono (wp_and (writeRecord_spec hHeld hSound) hPerformed) ?_
    (fun _ _ hFalse => hFalse.1) fun _ hFalse => hFalse.1
  rintro segment disk' ⟨⟨rfl, ⟨_, _, hWritten⟩, -⟩, rfl⟩
  obtain ⟨hStore, hIndex⟩ := hOpened.contents hPaired
  have hImage : store.content ++ bigEndian 4 (raftFormat.payload entry).length ++
      raftFormat.payload entry = storeImage raftFormat (last.push entry).records := by
    simp [Extent.push, storeImage, frameOf, hStore]
  have hPlaces : index.content ++ Index.entry last.records.length
      (storeImage raftFormat last.records).length =
      indexImage raftFormat (last.push entry).records := by
    rw [hIndex, Extent.push, indexImage_append]
    simp [offsetsFrom, Index.entriesFrom]
  obtain ⟨⟨store', index', hPaired'⟩, hPasses⟩ :=
    hPaired.append (show (last.push entry).base = 1 from hOpened.base_one) hSound hImage hPlaces
  rw [← hOpened.base_one] at hPaired' hPasses
  exact fun _ => ⟨⟨hDirty, _, _, _, hOpened.push hSound hWritten, hPaired'⟩, hPasses⟩

theorem appendToActive_grows (entry : RaftMutationEntry) :
    (appendToActive entry).Reaches log
      fun log' => log.segments.length ≤ log'.segments.length := by
  unfold appendToActive onDisk
  simp only [wp_bind, wp_read, wp_onFail, wp_zoom, wp_modify]
  cases Segment.prepare raftFormat log.active entry with
  | error e => exact le_rfl
  | ok encoded =>
    simp only [wp_orThrow_ok]
    refine wp_mono (wp_true _ _) (fun _ _ _ => ?_) (fun _ _ _ => le_rfl) fun _ _ => le_rfl
    simp only [length_append, length_dropLast, length_singleton]
    omega

theorem appendEntry_grows (entry : RaftMutationEntry) :
    (appendEntry entry).Reaches log
      fun log' => log.segments.length ≤ log'.segments.length := by
  unfold appendEntry createSegment onDisk
  simp only [wp_bind, wp_read, wp_zoom]
  refine wp_mono (wp_true _ _) (fun maxed disk _ => ?_) (fun _ _ _ => le_rfl) fun _ _ => le_rfl
  cases maxed with
  | false => exact appendToActive_grows entry
  | true =>
    simp only [if_true, wp_bind, wp_zoom, wp_modify]
    refine wp_mono (wp_true _ _) (fun segment disk' _ => ?_) (fun _ _ _ => le_rfl) fun _ _ => le_rfl
    have hMore : log.segments.length ≤ (log.segments ++ [segment]).length := by simp
    exact (appendToActive_grows entry).mono fun _ hLe => hMore.trans hLe

theorem appendEntries_grows (entries : List RaftMutationEntry) :
    (appendEntries entries).Reaches log
      fun log' => log.segments.length ≤ log'.segments.length := by
  induction entries generalizing log with
  | nil => exact le_rfl
  | cons entry entries ih =>
    rw [appendEntries]
    refine wp_bind_of (appendEntry_grows entry) fun _ log₁ hLe => ?_
    exact ih.mono fun _ hLe' => hLe.trans hLe'

theorem Solo.segments_length (h : Solo log) : log.segments.length = 1 := by
  obtain ⟨-, last, store, index, hOpened, -⟩ := h
  rw [hOpened.segments]
  rfl

theorem KeepsSolo.of_two {log' : RaftLog} (hTwo : 2 ≤ log'.segments.length) : KeepsSolo log log' :=
  fun hOne => by omega

theorem KeepsSolo.trans {log₁ log₂ : RaftLog}
    (h : Solo log₁ ∧ Disk.Passes Guarded log.disk log₁.disk)
    (h' : KeepsSolo log₁ log₂) : KeepsSolo log log₂ :=
  fun hOne => ⟨(h' hOne).1, h.2.trans (h' hOne).2⟩

variable (h : Solo log)
include h

theorem appendEntry_solo (entry : RaftMutationEntry) :
    (appendEntry entry).Reaches log (KeepsSolo log) := by
  obtain ⟨hDirty, last, store, index, hOpened, hPaired⟩ := id h
  have hMaxed := isMaxed_eq (hOpened.held last (by simp)) log.config.toConfig
  unfold appendEntry
  simp only [wp_bind, wp_read, hOpened.active_eq]
  rw [onDisk, wp_zoom]
  refine wp_of_ok hMaxed ?_
  by_cases hFull : last.Full raftFormat log.config.toConfig
  · simp only [decide_eq_true hFull, if_true, wp_bind]
    unfold createSegment onDisk
    simp only [wp_bind, wp_zoom, wp_modify]
    rw [congrArg (Segment.create raftFormat) hOpened.next]
    refine wp_of_returns (create_spec (hOpened.files_next hFull.records_ne_nil)) ?_
    rintro segment disk₁ ⟨rfl, -, -, -⟩
    have hTwo : (log.segments ++ [(⟨last.next, last.next⟩ : Segment)]).length = 2 := by
      rw [length_append, h.segments_length, length_singleton]
    exact (appendToActive_grows entry).mono fun _ hLe => .of_two (hTwo.ge.trans hLe)
  · simp only [decide_eq_false hFull, Bool.false_eq_true, if_false]
    exact appendToActive_solo hDirty hOpened hPaired (Extent.offset_lt hFull) entry

theorem appendEntries_solo (entries : List RaftMutationEntry) :
    (appendEntries entries).Reaches log (KeepsSolo log) := by
  induction entries generalizing log with
  | nil => exact h.keeps_self
  | cons entry entries ih =>
    rw [Reaches, appendEntries, wp_bind]
    refine wp_mono (wp_and (appendEntry_solo h entry) (appendEntry_grows entry)) ?_
      (fun _ _ hKeeps => hKeeps.1) fun _ hKeeps => hKeeps.1
    rintro _ log₁ ⟨hKeeps, hGrows⟩
    rw [h.segments_length] at hGrows
    by_cases hOne : log₁.segments.length = 1
    · have hSolo := hKeeps hOne
      exact (ih hSolo.1).mono fun _ hNext => .trans hSolo hNext
    · have hTwo : 2 ≤ log₁.segments.length := by omega
      exact (appendEntries_grows entries).mono fun _ hLe => .of_two (hTwo.trans hLe)

theorem truncateSuffix_solo (fromIndex : Nat) :
    (truncateSuffix fromIndex).Reaches log (KeepsSolo log) := by
  obtain ⟨hDirty, last, store, index, hOpened, hPaired⟩ := id h
  by_cases hIdle : log.recoveryRequired = true ∨ fromIndex = 0 ∨ log.nextIndex ≤ fromIndex
  · refine wp_mono (truncateSuffix_idle hOpened hIdle) ?_ ?_ fun _ hFalse => hFalse.elim
    · rintro _ log' ⟨rfl, -⟩
      exact h.keeps_self
    · rintro _ log' rfl
      exact h.keeps_self
  · push Not at hIdle
    obtain ⟨hUsable, hPos, hHigh⟩ := hIdle
    obtain ⟨a, extent, b, hBoundary, hRun⟩ :=
      truncateSuffix_spec hOpened (by simpa using hUsable) (Nat.pos_of_ne_zero hPos) hHigh
    have hOnly : a = [] ∧ extent = last ∧ b = [] := by
      have hCut := hBoundary.cut
      cases a with
      | nil => simpa [eq_comm] using hCut
      | cons first rest => simp at hCut
    obtain ⟨rfl, rfl, rfl⟩ := hOnly
    refine wp_of_ok hRun fun _ => ?_
    have hAfter := hOpened.truncated hBoundary
    have hEnd : fromIndex ≠ extent.next := by
      rw [← hOpened.next]
      exact hHigh.ne
    obtain ⟨⟨store', index', hPaired'⟩, hPasses⟩ := hPaired.truncate
      (storeImage raftFormat (extent.records.take (fromIndex - extent.base))).length
      ((fromIndex - extent.base) * Index.entrySize)
    have hOps : cutOps extent fromIndex ++ removeOps (([] : List (Extent RaftMutationEntry)).map
        Extent.segment) = [.write ⟨1, .store⟩ (.truncate
          (storeImage raftFormat (extent.records.take (fromIndex - extent.base))).length),
        .write ⟨1, .index⟩ (.truncate ((fromIndex - extent.base) * Index.entrySize))] := by
      rw [cutOps, if_neg hEnd]
      simp [removeOps, hOpened.base_one]
    rw [← hOps] at hPaired' hPasses
    refine ⟨⟨?_, _, store', index', hAfter, hPaired'⟩, hPasses⟩
    simp [RaftLog.truncated, hDirty]

theorem syncThrough_solo (target : Nat) : (syncThrough target).Reaches log (KeepsSolo log) := by
  obtain ⟨hDirty, last, store, index, hOpened, hPaired⟩ := id h
  obtain ⟨hStore, hIndex⟩ := hOpened.contents hPaired
  obtain ⟨⟨store', index', hPaired'⟩, hPasses⟩ := hPaired.sync hOpened.base_one
    (hOpened.held last (by simp)).sound hStore hIndex
  refine wp_mono (syncThrough_spec hOpened target) ?_ ?_ fun _ hFalse => hFalse.elim
  · rintro _ log' ⟨-, -, -, done, durable, hDone, rfl⟩ _
    rw [hOpened.segments, nil_append, map_singleton, sublist_singleton] at hDone
    rw [hDirty, if_neg Bool.false_ne_true, append_nil]
    have hAfter : Opened { log with
        disk := log.disk.performAll (syncOps done)
        durableIndex := durable
        directoryDirty := false } [] last :=
      hOpened.alike (alike_syncOps done log.disk) rfl rfl rfl
    rcases hDone with rfl | rfl
    · exact ⟨⟨rfl, last, store, index, hAfter, hPaired⟩, .refl _⟩
    · rw [← hOpened.base_one] at hPaired' hPasses
      exact ⟨⟨rfl, last, store', index', hAfter, hPaired'⟩, hPasses⟩
  · rintro _ log' rfl
    exact h.keeps_self

end Calls

section Outage

/-- The calls on an open log that keep it open. -/
def Call.Works : Call → Prop
  | .openLog => False
  | .close => False
  | _ => True

theorem perform_solo (h : Solo log) {call : Call} (hWorks : call.Works) :
    KeepsSolo log (call.perform log).state := by
  obtain ⟨-, last, store, index, hOpened, -⟩ := id h
  apply state_of_wp
  cases call with
  | openLog => exact hWorks.elim
  | close => exact hWorks.elim
  | append term operations =>
    simp only [Call.perform, RaftLog.append, wp_bind, wp_read, wp_pure]
    refine hOpened.wp_requireUsable (fun _ => h.keeps_self) fun _ => ?_
    cases RaftEntryCodec.encode ⟨term, .ofNat log.nextIndex, operations⟩ with
    | error e => exact h.keeps_self
    | ok encoded => exact appendEntry_solo h _
  | appendFromLeader firstIndex entries =>
    simp only [Call.perform, RaftLog.appendFromLeader, wp_bind]
    refine hOpened.wp_requireUsable (fun _ => h.keeps_self) fun _ => ?_
    rw [wp_read]
    by_cases hFirst : firstIndex.toNat = log.nextIndex
    · rw [if_neg (not_not.2 hFirst)]
      cases checkBatch firstIndex entries with
      | error e => exact h.keeps_self
      | ok value => exact appendEntries_solo h entries
    · rw [if_pos hFirst]
      exact h.keeps_self
  | truncateSuffix fromIndex => exact truncateSuffix_solo h fromIndex
  | syncThrough index => exact syncThrough_solo h index

/-- The log at the beginning of a call, which has passed through no directory yet. -/
def resting (log : RaftLog) : RaftLog :=
  { log with disk := ⟨log.disk.directory, []⟩ }

/-- The log after calls on a log that was opened on an empty directory, whether they return or
not. -/
def run (config : RaftConfig) (calls : List Call) : RaftLog :=
  calls.foldl (fun log call => (call.perform log.resting).state)
    (openLog (closed config .empty)).state.resting

/-- The power fails between two calls or between two file operations of the last one. The log
was in one segment all the time. -/
structure SoloOutage (config : RaftConfig) where
  calls : List Call
  works : ∀ call ∈ calls, call.Works
  single : ∀ done, done <+: calls → (run config done).segments.length = 1
  directory : Directory
  reached : directory ∈ (run config calls).disk.passed ∨
    directory = (run config calls).disk.directory
  left : Directory
  loss : PowerLoss directory left

/-- The log opens again with the complete entries of the store, and reading finds every one of
them. -/
def SoloOutage.Recovers {config : RaftConfig} (outage : SoloOutage config) : Prop :=
  ∃ entries tail log, outage.left.content ⟨1, .store⟩ = storeImage raftFormat entries ++ tail ∧
    splitFrame tail = none ∧ openLog (closed config outage.left) = .ok () log ∧
    scanFrom 1 log = .ok entries log ∧
    ∀ index entry, entries[index]? = some entry →
      read (index + 1) log = .ok entry log ∧ entry.idx.toNat = index + 1

variable {config : RaftConfig}

theorem Solo.resting (h : Solo log) : Solo log.resting := by
  obtain ⟨hDirty, last, store, index, hOpened, hPaired⟩ := h
  exact ⟨hDirty, last, store, index, ⟨hOpened.segments, hOpened.next, hOpened.lastTerm,
    hOpened.nonempty, hOpened.chained, hOpened.held, hOpened.present⟩, hPaired⟩

/-- A log is in one segment when it was just opened, and nothing is in flight. -/
theorem solo_fresh (config : RaftConfig) : Solo (openLog (closed config .empty)).state := by
  have hOpen : openLog.wp (closed config .empty) _ _ _ := openLog_empty_spec rfl rfl
  obtain ⟨_, log, hOk, hStarted⟩ := exists_ok_of_wp hOpen
  rw [hOk]
  have hUncut : (File.durable []).Uncut := fun _ hMem => absurd hMem not_mem_nil
  have hSound : Extent.Sound raftFormat (⟨1, []⟩ : Extent RaftMutationEntry) :=
    ⟨Nat.one_pos, by simp, by simp, by simp, by simp [offsetsFrom]⟩
  refine ⟨hStarted.dirty, _, _, _, hStarted.opened, ⟨hStarted.files, hStarted.removed⟩, rfl,
    rfl, Iff.rfl, Iff.rfl, fun _ => ?_⟩
  exact Lies.of_uncut rfl hSound hUncut hUncut nil_prefix nil_prefix

theorem run_concat (config : RaftConfig) (calls : List Call) (call : Call) :
    run config (calls ++ [call]) = (call.perform (run config calls).resting).state := by
  rw [run, foldl_append]
  rfl

theorem run_solo (calls : List Call) (hWorks : ∀ call ∈ calls, call.Works)
    (hSingle : ∀ done, done <+: calls → (run config done).segments.length = 1) :
    Solo (run config calls) ∧ ∀ directory, directory ∈ (run config calls).disk.passed ∨
      directory = (run config calls).disk.directory → Guarded directory := by
  have hGuarded : ∀ {log : RaftLog}, Solo log → Guarded log.disk.directory := by
    rintro log ⟨-, last, store, index, -, hPaired⟩
    exact hPaired.guarded
  induction calls using List.reverseRecOn with
  | nil =>
    have hSolo : Solo (run config []) := (solo_fresh config).resting
    refine ⟨hSolo, fun directory hReached => ?_⟩
    rcases hReached with hPassed | rfl
    · cases hPassed
    · exact hGuarded hSolo
  | append_singleton calls call ih =>
    have hBefore := (ih (fun c hc => hWorks c (mem_append_left _ hc)) fun done hDone =>
      hSingle done (hDone.trans (prefix_append _ _))).1
    have hKeeps := perform_solo hBefore.resting (hWorks call (by simp))
    rw [← run_concat] at hKeeps
    obtain ⟨hSolo, hPasses⟩ := hKeeps (hSingle _ prefix_rfl)
    refine ⟨hSolo, fun directory hReached => ?_⟩
    rcases hReached with hPassed | rfl
    · exact (hPasses directory hPassed).resolve_left not_mem_nil
    · exact hGuarded hSolo

theorem file_first {name : FileName} {file : File}
    (hAt : Directory.At .empty 1 directory store index)
    (hFile : directory.file name = some file) :
    (name = ⟨1, .store⟩ ∧ store = file) ∨ (name = ⟨1, .index⟩ ∧ index = file) := by
  obtain ⟨base, kind⟩ := name
  rw [Directory.file, hAt.files] at hFile
  by_cases hBase : base = 1
  · subst hBase
    rw [Function.update_self] at hFile
    cases kind with
    | store => exact Or.inl ⟨rfl, Option.some.inj hFile⟩
    | index => exact Or.inr ⟨rfl, Option.some.inj hFile⟩
  · rw [Function.update_of_ne hBase] at hFile
    cases kind <;> cases hFile

/-- What is left of a guarded directory opens, and every entry can be read. -/
theorem Guarded.recovers (outage : SoloOutage config) (h : Guarded outage.directory)
    (hSettling : outage.directory.Settling) : outage.Recovers := by
  obtain ⟨store, index, hAt, hStoreLinked, hIndexLinked, hLies⟩ := h
  have hLoss := outage.loss
  obtain ⟨whole, hBase, hSound, hStore, hIndex⟩ :=
    hLies (hSettling _ _ hAt.file_store) (hSettling _ _ hAt.file_index)
  obtain ⟨bytes, hBytes, hStoreLeft⟩ := hLoss.kept _ _ hAt.file_store hStoreLinked
  obtain ⟨bytes', hBytes', hIndexLeft⟩ := hLoss.kept _ _ hAt.file_index hIndexLinked
  obtain ⟨kept, tail, hKept, hContent, hTail, -⟩ :=
    exists_store_of_isPrefix hSound (hStore bytes hBytes).2
  have hOnly : ∀ base, outage.left.files base ≠ .absent → base = 1 := by
    intro base hPresent
    by_contra hBase
    refine hPresent ?_
    have hNone : ∀ kind, outage.left.file ⟨base, kind⟩ = none := by
      intro kind
      by_contra hSome
      obtain ⟨left, hLeft⟩ := Option.ne_none_iff_exists'.1 hSome
      obtain ⟨file, -, hFile | hRemoved, -⟩ := hLoss.origin _ _ hLeft
      · rcases file_first hAt hFile with ⟨hName, -⟩ | ⟨hName, -⟩ <;>
          exact hBase (congrArg FileName.base hName)
      · rw [hAt.removed] at hRemoved
        cases hRemoved
    rw [files_eq, hNone, hNone]
    rfl
  have hStored : Preserved raftFormat outage.left [(whole, kept)] := by
    refine ⟨?_, ?_⟩
    · refine (outage.left.pairwise_bases.filter _).eq_of_mem_iff (pairwise_singleton _ _) ?_
      intro base
      rw [mem_filter, mem_bases, map_singleton, mem_singleton, hBase]
      constructor
      · exact fun hIn => hOnly base hIn.1
      · rintro rfl
        have hSome : (outage.left.files 1).store = some (.durable bytes) := hStoreLeft
        refine ⟨fun hAbsent => ?_, by rw [hSome]; rfl⟩
        rw [hAbsent] at hSome
        cases hSome
    · intro cut hCut
      rw [mem_singleton.1 hCut]
      refine ⟨hSound, hKept,
        ⟨.durable bytes, tail, ?_, hContent, hTail, (hStore bytes hBytes).2⟩, ?_⟩
      · rw [hBase]
        exact hStoreLeft
      · intro file hFile
        rw [hBase] at hFile
        obtain rfl : .durable bytes' = file := Option.some.inj (hIndexLeft.symm.trans hFile)
        exact (hIndex bytes' hBytes').2
  have hChained : Segment.Chained 1 ([(whole, kept)].map Segment.ofCut) := ⟨hBase, trivial⟩
  have hOpens : openLog.Returns (closed config outage.left)
      fun _ log => Opened log [] (Extent.ofCut (whole, kept)) := by
    refine wp_weaken (openLog_spec rfl hStored (by simp)) ?_ (fun _ _ hNot => hNot hChained)
    rintro _ log ⟨-, hReopened⟩
    have hCuts : [(whole, kept)] = [] ++ [(whole, kept)] := rfl
    rw [hCuts] at hReopened hStored hChained
    exact hReopened.opened_log hStored hChained (by simp)
  obtain ⟨_, log, hRun, hOpened⟩ := exists_ok_of_wp hOpens
  have hBehaves := hOpened.behaves
  have hRecords : chainRecords ([] ++ [Extent.ofCut (whole, kept)]) = whole.records.take kept := by
    simp [Extent.ofCut, Extent.take]
  refine ⟨whole.records.take kept, tail, log, ?_, hTail, hRun, ?_, ?_⟩
  · rw [Directory.content, hStoreLeft]
    exact hContent
  · have hScan := hBehaves.scanFrom_inside 0 (Nat.zero_le _)
    rwa [hRecords, drop_zero] at hScan
  · intro position entry hEntry
    rw [← hRecords] at hEntry
    exact ⟨hBehaves.read_inside position entry hEntry, hOpened.idx_eq hEntry⟩

/-- The log is recovered from a power loss that does not strike while a write is behind a cut
that is not on disk. -/
theorem soloOutage_recovers (outage : SoloOutage config) (hSettling : outage.directory.Settling) :
    outage.Recovers :=
  ((run_solo outage.calls outage.works outage.single).2 _ outage.reached).recovers outage hSettling

/-- What a power loss leaves of a directory with one segment. -/
theorem powerLoss_first {bytes bytes' : List UInt8}
    (hAt : Directory.At .empty 1 directory store index)
    (hStore : store.Keeps bytes) (hIndex : index.Keeps bytes') :
    PowerLoss directory (Directory.empty.setFiles 1
      ⟨some (.durable bytes), some (.durable bytes')⟩) := by
  have hLeft : Directory.At .empty 1 (Directory.empty.setFiles 1
      ⟨some (.durable bytes), some (.durable bytes')⟩) (.durable bytes) (.durable bytes') :=
    ⟨files_setFiles .., removed_setFiles ..⟩
  refine ⟨fun name file hFile _ => ?_, fun name left hFile => ?_, rfl⟩
  · rcases file_first hAt hFile with ⟨rfl, rfl⟩ | ⟨rfl, rfl⟩
    · exact ⟨bytes, hStore, hLeft.file_store⟩
    · exact ⟨bytes', hIndex, hLeft.file_index⟩
  · rcases file_first hLeft hFile with ⟨rfl, rfl⟩ | ⟨rfl, rfl⟩
    · exact ⟨store, bytes, Or.inl hAt.file_store, hStore, rfl⟩
    · exact ⟨index, bytes', Or.inl hAt.file_index, hIndex, rfl⟩

/-- A log that holds everything in one segment. -/
def roomyConfig : RaftConfig where
  maxIndexBytes := 1200
  maxStoreBytes := 10000
  initialLsn := 1
  maxIndexBytes_lt := by decide
  maxStoreBytes_lt := by decide
  maxIndexBytes_valid := by decide
  maxStoreBytes_valid := by decide
  initialLsn_valid := Nat.one_ne_zero
  initialLsn_one := rfl

/-- The second entry of three is replaced by a longer one. -/
def replacing : List Call :=
  [.append 1 [], .append 1 [], .append 1 [], .syncThrough 3, .truncateSuffix 2,
    .append 2 [.delete ⟨.bool, 1, [1]⟩], .append 2 []]

theorem replacing_works : ∀ call ∈ replacing, call.Works := by
  simp [replacing, Call.Works]

theorem replacing_single :
    ∀ done, done <+: replacing → (run roomyConfig done).segments.length = 1 := by
  intro done hDone
  have hAll : ∀ count ∈ List.range 8,
      (run roomyConfig (replacing.take count)).segments.length = 1 := by decide +kernel
  rw [prefix_iff_eq_take.1 hDone]
  exact hAll _ (mem_range.2 (Nat.lt_succ_of_le hDone.length_le))

/-- The store keeps everything, and of the index only what was synchronized is left. -/
def staleLeft (calls : List Call) : Directory :=
  Directory.empty.setFiles 1
    ⟨some (.durable ((run roomyConfig calls).disk.directory.content ⟨1, .store⟩)),
      some (.durable ((((run roomyConfig calls).disk.directory.file ⟨1, .index⟩).map
        File.synced).getD []))⟩

/-- The power fails after some of the calls. -/
def staleAfter (calls : List Call) (hDone : calls <+: replacing) : SoloOutage roomyConfig where
  calls
  works call hCall := replacing_works call (hDone.subset hCall)
  single done hEarlier := replacing_single done (hEarlier.trans hDone)
  directory := (run roomyConfig calls).disk.directory
  reached := Or.inr rfl
  left := staleLeft calls
  loss := by
    obtain ⟨⟨-, last, store, index, -, hPaired⟩, -⟩ := run_solo calls
      (fun call hCall => replacing_works call (hDone.subset hCall))
      fun done hEarlier => replacing_single done (hEarlier.trans hDone)
    have hLoss := powerLoss_first hPaired.at_first store.keeps_content index.keeps_synced
    rw [staleLeft, hPaired.at_first.content_store, hPaired.at_first.file_index]
    exact hLoss

/-- The store has the new entries and the index still the old ones. -/
def staleOutage : SoloOutage roomyConfig :=
  staleAfter replacing prefix_rfl

theorem staleOutage_not_recovers : ¬staleOutage.Recovers := by
  rintro ⟨entries, tail, log, -, -, hOpen, -⟩
  have hFails : (openLog (closed roomyConfig (staleLeft replacing))).isOk = false := by
    decide +kernel
  change openLog (closed roomyConfig (staleLeft replacing)) = _ at hOpen
  rw [hOpen] at hFails
  cases hFails

/-- The power fails right after the cut: the store has one entry, and the index still has three. -/
def cutOutage : SoloOutage roomyConfig :=
  staleAfter (replacing.take 5) <| take_prefix 5 replacing

theorem cutOutage_recovers : cutOutage.Recovers :=
  soloOutage_recovers cutOutage (by decide +kernel)

end Outage

end RaftLog

end Stoneleaf
