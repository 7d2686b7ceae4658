import Stoneleaf.Log.SegmentSpec

/-!
Opening the segments of a directory. A segment may have been cut in both files; opening all of
them succeeds exactly when the records that are complete in each reach up to the base of the
next one, and leaves every segment with these records.
-/

namespace Stoneleaf

open Library Program List Function Directory

variable {R : Type} (format : RecordFormat R) {check : SegmentFiles → Except Exception Unit}

/-- A segment whose files hold the beginning of an extent, as far as the two files go; the index
may be missing. -/
structure Cut (directory : Directory) (extent : Extent R) (kept : Nat) : Prop where
  sound : extent.Sound format
  kept_le : kept ≤ extent.records.length
  store : ∃ store tail, (directory.files extent.base).store = some store ∧
    store.content = storeImage format (extent.records.take kept) ++ tail ∧
      splitFrame tail = none ∧ store.content <+: storeImage format extent.records
  index : ∀ index, (directory.files extent.base).index = some index →
    index.content <+: indexImage format extent.records

/-- A segment whose files hold exactly the records of an extent. -/
structure Held (directory : Directory) (extent : Extent R) : Prop where
  sound : extent.Sound format
  files : ∃ store index, directory.files extent.base = ⟨some store, some index⟩ ∧
    store.content = storeImage format extent.records ∧
      index.content = indexImage format extent.records

/-- Nothing of the segment is in flight. -/
def SegmentFiles.Settled (files : SegmentFiles) : Prop :=
  ∀ kind file, files.get kind = some file → file.unsynced = [] ∧ file.linked = true

/-- The files of a segment are the same, but their names may have become durable. -/
def SegmentFiles.Resembles (files files' : SegmentFiles) : Prop :=
  files' = files ∨ files' = files.link

theorem SegmentFiles.link_link (files : SegmentFiles) : files.link.link = files.link := by
  obtain ⟨store, index⟩ := files
  cases store <;> cases index <;> rfl

namespace SegmentFiles.Resembles

variable {files files' files'' : SegmentFiles}

theorem refl (files : SegmentFiles) : Resembles files files :=
  Or.inl rfl

variable (h : Resembles files files')
include h

theorem trans (h' : Resembles files' files'') : Resembles files files'' := by
  rcases h with rfl | rfl <;> rcases h' with rfl | rfl
  · exact Or.inl rfl
  · exact Or.inr rfl
  · exact Or.inr rfl
  · exact Or.inr files.link_link

theorem store {file : File} (hStore : files.store = some file) :
    ∃ file', files'.store = some file' ∧ file'.content = file.content := by
  rcases h with rfl | rfl
  · exact ⟨file, hStore, rfl⟩
  · exact ⟨file.link, by simp [link, hStore], rfl⟩

theorem index_none_iff : files'.index = none ↔ files.index = none := by
  rcases h with rfl | rfl
  · rfl
  · simp [link]

theorem index {file' : File} (hIndex : files'.index = some file') :
    ∃ file, files.index = some file ∧ file'.content = file.content := by
  rcases h with rfl | rfl
  · exact ⟨file', hIndex, rfl⟩
  · obtain ⟨file, hFile, rfl⟩ := Option.map_eq_some_iff.1 hIndex
    exact ⟨file, hFile, rfl⟩

theorem settled (hSettled : files.Settled) : files'.Settled := by
  rcases h with rfl | rfl
  · exact hSettled
  · intro kind file' hFile
    cases kind with
    | store =>
      obtain ⟨file, hOld, rfl⟩ := Option.map_eq_some_iff.1 hFile
      exact ⟨(hSettled .store file hOld).1, rfl⟩
    | index =>
      obtain ⟨file, hOld, rfl⟩ := Option.map_eq_some_iff.1 hFile
      exact ⟨(hSettled .index file hOld).1, rfl⟩

end SegmentFiles.Resembles

section Congruence

variable {format} {directory directory' : Directory} {extent : Extent R} {kept : Nat}

theorem Cut.of_resembles (h : Cut format directory extent kept)
    (hSame : (directory.files extent.base).Resembles (directory'.files extent.base)) :
    Cut format directory' extent kept := by
  obtain ⟨store, tail, hStore, hContent, hTail, hPrefix⟩ := h.store
  obtain ⟨store', hStore', hSameContent⟩ := hSame.store hStore
  refine ⟨h.sound, h.kept_le, ⟨store', tail, hStore', ?_, hTail, ?_⟩, ?_⟩
  · rw [hSameContent, hContent]
  · rw [hSameContent]
    exact hPrefix
  · intro index' hIndex'
    obtain ⟨index, hIndex, hIndexContent⟩ := hSame.index hIndex'
    rw [hIndexContent]
    exact h.index index hIndex

variable (h : Held format directory extent)
include h

theorem Held.of_resembles
    (hSame : (directory.files extent.base).Resembles (directory'.files extent.base)) :
    Held format directory' extent := by
  obtain ⟨store, index, hFiles, hStore, hIndex⟩ := h.files
  rcases hSame with hEq | hEq
  · exact ⟨h.sound, store, index, by rw [hEq, hFiles], hStore, hIndex⟩
  · exact ⟨h.sound, store.link, index.link, by rw [hEq, hFiles]; rfl, hStore, hIndex⟩

theorem Held.content_store :
    directory.content ⟨extent.base, .store⟩ = storeImage format extent.records := by
  obtain ⟨store, index, hFiles, hStore, -⟩ := h.files
  simp [content, file, SegmentFiles.get, hFiles, hStore]

theorem Held.content_index :
    directory.content ⟨extent.base, .index⟩ = indexImage format extent.records := by
  obtain ⟨store, index, hFiles, -, hIndex⟩ := h.files
  simp [content, file, SegmentFiles.get, hFiles, hIndex]

/-- A whole segment is one of which nothing was cut. -/
theorem Held.cut : Cut format directory extent extent.records.length := by
  obtain ⟨store, index, hFiles, hStore, hIndex⟩ := h.files
  refine ⟨h.sound, le_rfl,
    ⟨store, [], by rw [hFiles], by simp [hStore], rfl, hStore ▸ prefix_rfl⟩, ?_⟩
  intro index' hIndex'
  rw [hFiles] at hIndex'
  obtain rfl : index = index' := Option.some.inj hIndex'
  rw [hIndex]

end Congruence

/-- The directory after one segment was opened. -/
structure Opened (directory : Directory) (extent : Extent R) (kept : Nat) (directory' : Directory) :
    Prop where
  held : Held format directory' (extent.take kept)
  settled : (directory.files extent.base).Settled → (directory'.files extent.base).Settled
  others : ∀ base ≠ extent.base, (directory.files base).Resembles (directory'.files base)
  removed : directory'.removed = directory.removed ∨ directory'.removed = []

/-- The directory after several segments were opened. -/
structure AllOpened (cuts : List (Extent R × Nat)) (directory directory' : Directory) : Prop where
  held : ∀ cut ∈ cuts, Held format directory' (cut.1.take cut.2)
  settled : ∀ cut ∈ cuts,
    (directory.files cut.1.base).Settled → (directory'.files cut.1.base).Settled
  others : ∀ base, (∀ cut ∈ cuts, cut.1.base ≠ base) →
    (directory.files base).Resembles (directory'.files base)
  removed : directory'.removed = directory.removed ∨ directory'.removed = []

namespace Segment

variable {format} {extent : Extent R} {kept : Nat} {disk : Disk}

/-- The segment object of an extent of which the first records were kept. -/
def ofCut (cut : Extent R × Nat) : Segment :=
  ⟨cut.1.base, cut.1.base + cut.2⟩

/-- A missing index is created, and the files are as recovery wants them. -/
theorem openOrCreateIndex_spec (hCut : Cut format disk.directory extent kept) :
    (openOrCreateFile ⟨extent.base, .index⟩).Returns disk
      fun _ disk' => ∃ store tail index,
        disk'.directory.files = Function.update disk.directory.files extent.base
          ⟨some store, some index⟩ ∧
        disk'.directory.removed = disk.directory.removed ∧
        (disk.directory.files extent.base).store = some store ∧
        store.content = storeImage format (extent.records.take kept) ++ tail ∧
        splitFrame tail = none ∧ store.content <+: storeImage format extent.records ∧
        index.content <+: indexImage format extent.records ∧
        ((disk.directory.files extent.base).index = some index ∨
          (disk.directory.files extent.base).index = none ∧ index.unsynced = []) := by
  obtain ⟨store, tail, hStore, hContent, hTail, hPrefix⟩ := hCut.store
  unfold openOrCreateFile
  simp only [wp_bind, wp_read]
  cases hIndex : (disk.directory.files extent.base).index with
  | some index =>
    rw [if_neg (by simp [file, SegmentFiles.get, hIndex])]
    have hFiles : disk.directory.files extent.base = ⟨some store, some index⟩ := by
      rw [← hStore, ← hIndex]
    refine ⟨store, tail, index, ?_, rfl, hStore, hContent, hTail, hPrefix,
      hCut.index index hIndex, Or.inl rfl⟩
    rw [← hFiles, update_eq_self]
  | none =>
    rw [if_pos (by simp [file, SegmentFiles.get, hIndex])]
    refine ⟨store, tail, .created, ?_, ?_, hStore, hContent, hTail, hPrefix, ?_, Or.inr ⟨rfl, rfl⟩⟩
    · simp [Disk.perform, FileOp.apply, setFile, SegmentFiles.set, hStore]
    · simp [Disk.perform, FileOp.apply, setFile]
    · exact nil_prefix

theorem openFound_spec (hLawful : format.Lawful) (hCut : Cut format disk.directory extent kept)
    {files : SegmentFiles} (hFound : files.index = none ↔
      (disk.directory.files extent.base).index = none) :
    (openFound format extent.base files).Returns disk
      fun segment disk' => segment = ofCut (extent, kept) ∧
        Opened format disk.directory extent kept disk'.directory := by
  unfold openFound
  refine wp_bind_of (openOrCreateIndex_spec hCut) ?_
  rintro _ disk₁ ⟨store, tail, index, hFiles, hRemoved, hStore, hContent, hTail, hPrefix, hIndex,
    hOrigin⟩
  have hBase : disk₁.directory.files extent.base = ⟨some store, some index⟩ := by
    rw [hFiles, update_self]
  refine wp_bind_of (wp_conseq (recover_spec hLawful hCut.sound hBase hCut.kept_le hContent hTail
    hPrefix hIndex) fun _ _ h => h) ?_
  rintro segment disk₂ ⟨rfl, ⟨store', index', hRecovered⟩, -⟩
  have hHeld : Held format disk₂.directory (extent.take kept) :=
    ⟨hCut.sound.take kept, store', index', hRecovered.at_base.files_base,
      hRecovered.store_content, hRecovered.index_content⟩
  have hOthers : ∀ base ≠ extent.base,
      disk₂.directory.files base = disk.directory.files base := by
    intro base hNe
    rw [hRecovered.at_base.files, update_of_ne hNe, hFiles, update_of_ne hNe]
  have hStoreSynced : store.unsynced = [] → store'.unsynced = [] := by
    intro hOld
    rcases hRecovered.store_synced with hSync | rfl
    · exact hSync
    · exact hOld
  have hIndexSynced : index.unsynced = [] → index'.unsynced = [] := by
    intro hOld
    rcases hRecovered.index_synced with hSync | rfl
    · exact hSync
    · exact hOld
  have hFiles' : disk₂.directory.files extent.base = ⟨some store', some index'⟩ :=
    hRecovered.at_base.files_base
  rcases hOrigin with hExisting | ⟨hMissing, hCreated⟩
  · rw [if_neg (by rw [hFound, hExisting]; simp)]
    refine ⟨rfl, hHeld, ?_, fun base hNe => Or.inl (hOthers base hNe), Or.inl ?_⟩
    · intro hSettled kind file hFile
      rw [hFiles'] at hFile
      cases kind with
      | store =>
        obtain rfl : store' = file := Option.some.inj hFile
        obtain ⟨hSync, hLinked⟩ := hSettled .store store hStore
        exact ⟨hStoreSynced hSync, hRecovered.store_linked.trans hLinked⟩
      | index =>
        obtain rfl : index' = file := Option.some.inj hFile
        obtain ⟨hSync, hLinked⟩ := hSettled .index index hExisting
        exact ⟨hIndexSynced hSync, hRecovered.index_linked.trans hLinked⟩
    · rw [hRecovered.at_base.removed, hRemoved]
  · rw [if_pos (hFound.2 hMissing)]
    have hLink : (disk₂.perform .syncDirectory).directory.files =
        fun base => (disk₂.directory.files base).link :=
      files_link _
    refine ⟨rfl, hHeld.of_resembles (Or.inr (by rw [hLink])), ?_, ?_, Or.inr rfl⟩
    · intro hSettled kind file hFile
      rw [hLink] at hFile
      simp only [hFiles'] at hFile
      cases kind with
      | store =>
        obtain rfl : store'.link = file := Option.some.inj hFile
        exact ⟨hStoreSynced (hSettled .store store hStore).1, rfl⟩
      | index =>
        obtain rfl : index'.link = file := Option.some.inj hFile
        exact ⟨hIndexSynced hCreated, rfl⟩
    · intro base hNe
      refine Or.inr ?_
      rw [hLink, ← hOthers base hNe]

/-- Each segment begins where the one before it ends. -/
def Chained : Nat → List Segment → Prop
  | _, [] => True
  | expected, segment :: rest => segment.base = expected ∧ Chained segment.next rest

/-- What opening looks at in the listing of a directory. -/
def Found (check : SegmentFiles → Except Exception Unit) (directory : Directory)
    (cut : Extent R × Nat) (entry : Nat × SegmentFiles) : Prop :=
  entry.1 = cut.1.base ∧ check entry.2 = .ok () ∧
    (entry.2.index = none ↔ (directory.files cut.1.base).index = none)

/-- Opening all segments of a directory succeeds exactly when they are chained. -/
theorem openAll_spec (hLawful : format.Lawful) {gap : String} {cuts : List (Extent R × Nat)}
    {entries : List (Nat × SegmentFiles)} {expected : Nat}
    (hCuts : ∀ cut ∈ cuts, Cut format disk.directory cut.1 cut.2)
    (hBases : cuts.Pairwise fun a b => a.1.base ≠ b.1.base)
    (hEntries : List.Forall₂ (Found check disk.directory) cuts entries) :
    (openAll format gap check expected entries).wp disk
      (fun segments disk' => Chained expected (cuts.map ofCut) ∧ segments = cuts.map ofCut ∧
        AllOpened format cuts disk.directory disk'.directory)
      (fun _ _ => ¬Chained expected (cuts.map ofCut)) fun _ => False := by
  induction cuts generalizing expected entries disk with
  | nil =>
    cases hEntries
    exact ⟨trivial, rfl, ⟨by simp, by simp, fun base _ => .refl _, Or.inl rfl⟩⟩
  | cons cut cuts ih =>
    obtain ⟨extent, kept⟩ := cut
    cases hEntries with
    | @cons _ entry _ entries hEntry hRest =>
    obtain ⟨base, files⟩ := entry
    obtain ⟨hBase, hCheck, hFound⟩ := hEntry
    obtain rfl : base = extent.base := hBase
    have hHeadNe : ∀ cut ∈ cuts, cut.1.base ≠ extent.base := fun cut hc =>
      ((pairwise_cons.1 hBases).1 cut hc).symm
    rw [openAll]
    by_cases hExpected : extent.base = expected
    · rw [if_neg (not_not.2 hExpected)]
      simp only [wp_bind, hCheck, wp_orThrow_ok]
      refine wp_of_returns (openFound_spec hLawful (hCuts _ mem_cons_self) hFound) ?_
      rintro segment disk₁ ⟨rfl, hOpened⟩
      have hCuts₁ : ∀ cut ∈ cuts, Cut format disk₁.directory cut.1 cut.2 := fun cut hc =>
        (hCuts cut (mem_cons_of_mem _ hc)).of_resembles
          (hOpened.others _ (hHeadNe cut hc))
      have hRest₁ : List.Forall₂ (Found check disk₁.directory) cuts entries := by
        refine List.forall₂_iff_get.2 ⟨hRest.length_eq, fun i hi hi' => ?_⟩
        obtain ⟨hBase, hOk, hIndex⟩ := hRest.get hi hi'
        refine ⟨hBase, hOk, hIndex.trans ?_⟩
        exact (hOpened.others _ (hHeadNe _ (get_mem cuts ⟨i, hi⟩))).index_none_iff.symm
      refine wp_weaken (ih hCuts₁ (pairwise_cons.1 hBases).2 hRest₁) ?_ ?_
      · rintro segments disk₂ ⟨hChained, rfl, hAll⟩
        have hKept : (disk₁.directory.files extent.base).Resembles
            (disk₂.directory.files extent.base) := hAll.others _ hHeadNe
        refine ⟨⟨hExpected, hChained⟩, rfl, ?_, ?_, ?_, ?_⟩
        · intro cut hc
          rcases mem_cons.1 hc with rfl | hc
          · exact hOpened.held.of_resembles hKept
          · exact hAll.held cut hc
        · intro cut hc hSettled
          rcases mem_cons.1 hc with rfl | hc
          · exact hKept.settled (hOpened.settled hSettled)
          · exact hAll.settled cut hc ((hOpened.others _ (hHeadNe cut hc)).settled hSettled)
        · intro base hBase
          exact (hOpened.others base (hBase _ mem_cons_self).symm).trans
            (hAll.others base fun cut hc => hBase cut (mem_cons_of_mem _ hc))
        · rcases hAll.removed with hEq | hEq
          · rw [hEq]
            exact hOpened.removed
          · exact Or.inr hEq
      · exact fun _ _ hNot hChained => hNot hChained.2
    · rw [if_pos hExpected]
      simp only [wp_bind, wp_fail]
      exact fun hChained => hExpected hChained.1

/-- Opening cannot get past files that fail the check. -/
theorem openAll_checked (gap : String) (check : SegmentFiles → Except Exception Unit)
    (expected : Nat) (entries : List (Nat × SegmentFiles)) (disk : Disk) :
    (openAll format gap check expected entries).wp disk
      (fun _ _ => ∀ entry ∈ entries, check entry.2 = .ok ()) (fun _ _ => True) fun _ => True := by
  induction entries generalizing expected disk with
  | nil => simp [openAll]
  | cons entry entries ih =>
    obtain ⟨base, files⟩ := entry
    rw [openAll]
    split
    · simp
    · cases hCheck : check files with
      | error e => simp
      | ok =>
        simp only [wp_bind, wp_orThrow_ok, wp_pure]
        refine wp_conseq (wp_true _ _) (fun segment disk₁ _ => ?_)
        refine wp_conseq (ih segment.next disk₁) fun _ _ hRest => ?_
        simpa [hCheck] using hRest

theorem scanFrom_spec (hLawful : format.Lawful) {base : Nat} {a b : List R}
    (hSound : Extent.Sound format ⟨base, a ++ b⟩) :
    scanFrom format (storeImage format (a ++ b)) (base + a.length) (storeImage format a).length =
      .ok b := by
  induction b generalizing a with
  | nil => rw [scanFrom, store_inspectFile_image hSound, if_neg (by simp)]
  | cons record b ih =>
    have hMore : (storeImage format a).length < (storeImage format (a ++ record :: b)).length := by
      simp [storeImage]
    obtain ⟨hRead, hNumber, hStorable⟩ := store_read hSound
    rw [scanFrom, store_inspectFile_image hSound, if_pos hMore, hRead]
    simp only [hStorable.decode_payload hLawful, hNumber]
    rw [if_neg (by simp), ← length_storeImage_concat]
    have hRest := ih (a := a ++ [record]) (by simpa using hSound)
    simp only [append_assoc, cons_append, nil_append, length_append,
      length_cons, length_nil, Nat.zero_add, ← Nat.add_assoc] at hRest
    rw [hRest]
    rfl

theorem scan_spec (hLawful : format.Lawful) (hHeld : Held format disk.directory extent)
    (next : Nat) :
    (scan format ⟨extent.base, next⟩).Returns disk
      fun records disk' => records = extent.records ∧ disk' = disk := by
  have hScan : scanFrom format (storeImage format ([] ++ extent.records)) _ _ = _ :=
    scanFrom_spec hLawful hHeld.sound
  unfold scan
  simp only [wp_bind, wp_readFile, hHeld.content_store]
  simp only [nil_append, length_nil, Nat.add_zero] at hScan
  rw [show scanFrom format (storeImage format extent.records) extent.base 0 =
    .ok extent.records from hScan]
  exact ⟨rfl, rfl⟩

/-- Where a record of a segment lies in its files. -/
theorem located (hHeld : Held format disk.directory extent) {ordinal : Nat} {record : R}
    (hRecord : extent.records[ordinal]? = some record) :
    ∃ a b, Extent.Sound format ⟨extent.base, a ++ record :: b⟩ ∧ a.length = ordinal ∧
      disk.directory.content ⟨extent.base, .store⟩ = storeImage format (a ++ record :: b) ∧
      Index.read (disk.directory.content ⟨extent.base, .index⟩) ordinal =
        .ok (storeImage format a).length := by
  obtain ⟨hShort, hGet⟩ := List.getElem?_eq_some_iff.1 hRecord
  have hCut : extent.records = extent.records.take ordinal ++ record ::
      extent.records.drop (ordinal + 1) := by
    rw [← hGet, getElem_cons_drop, take_append_drop]
  have hLength : (extent.records.take ordinal).length = ordinal := by
    rw [length_take]
    omega
  have hSound : Extent.Sound format ⟨extent.base, extent.records.take ordinal ++ record ::
      extent.records.drop (ordinal + 1)⟩ := by
    rw [← hCut]
    exact hHeld.sound
  have hOffset := index_read hSound (show ([] : List UInt8).length < _ by decide)
  rw [append_nil, hLength, ← hCut] at hOffset
  refine ⟨_, _, hSound, hLength, ?_, ?_⟩
  · rw [← hCut, hHeld.content_store]
  · rw [hHeld.content_index, hOffset]

theorem read_spec (hLawful : format.Lawful) (hHeld : Held format disk.directory extent)
    {number : Nat} (hLow : extent.base ≤ number) {record : R}
    (hRecord : extent.records[number - extent.base]? = some record) :
    read format ⟨extent.base, extent.next⟩ number disk = .ok record disk := by
  obtain ⟨a, b, hSound, hLength, hStore, hOffset⟩ := located hHeld hRecord
  obtain ⟨hShort, -⟩ := List.getElem?_eq_some_iff.1 hRecord
  obtain ⟨hRead, hNumber, hStorable⟩ := store_read hSound
  have hRange : ¬(number < extent.base ∨ number ≥ extent.next) := by
    rw [Extent.next]
    omega
  refine eq_ok_of_wp ?_
  unfold read
  rw [if_neg hRange]
  simp only [wp_bind, wp_readFile, hOffset, wp_orThrow_ok, hStore, hRead,
    hStorable.decode_payload hLawful]
  rw [if_neg (by omega)]
  exact ⟨rfl, rfl⟩

end Segment

/-- The records that were kept of each segment. -/
def surviving (cuts : List (Extent R × Nat)) : List R :=
  cuts.flatMap fun cut => cut.1.records.take cut.2

/-- A directory in which exactly the given segments were left, each with the beginning of its
extent. -/
structure Remains (directory : Directory) (cuts : List (Extent R × Nat)) : Prop where
  bases : directory.bases = cuts.map fun cut => cut.1.base
  cut : ∀ cut ∈ cuts, Cut format directory cut.1 cut.2

namespace Remains

variable {format} {directory : Directory} {cuts : List (Extent R × Nat)}

theorem pairwise (h : Remains format directory cuts) :
    cuts.Pairwise fun a b => a.1.base ≠ b.1.base := by
  have hSorted := directory.pairwise_bases
  rw [h.bases, pairwise_map] at hSorted
  exact hSorted.imp fun hLt => Nat.ne_of_lt hLt

theorem found (h : Remains format directory cuts)
    (hCheck : ∀ files, files.store ≠ none → check files = .ok ()) :
    List.Forall₂ (Segment.Found check directory) cuts directory.entries := by
  rw [directory.entries_eq_map, h.bases, map_map, List.forall₂_map_right_iff]
  refine List.forall₂_same.2 fun cut hc => ⟨rfl, hCheck _ ?_, Iff.rfl⟩
  obtain ⟨store, -, hStore, -⟩ := (h.cut cut hc).store
  simp [hStore]

end Remains

end Stoneleaf
