import Mathlib.Data.List.Induction
import Stoneleaf.Log.Reopening
import Stoneleaf.Raft.RaftLogSpec

/-!
Opening the replicated log. Indexes without a store are removed first. The log opens exactly
when the segments that have a store are chained from index one on, and then shows what survived
of them.
-/

namespace Stoneleaf

open Library Program List Directory Segment

/-- A directory whose stores are those of the given segments, each with the beginning of its
extent. There may be indexes without a store. -/
structure Preserved {R : Type} (format : RecordFormat R) (directory : Directory)
    (cuts : List (Extent R × Nat)) : Prop where
  bases : directory.bases.filter (fun base => (directory.files base).store.isSome) =
    cuts.map fun cut => cut.1.base
  cut : ∀ cut ∈ cuts, Cut format directory cut.1 cut.2

/-- The directory without the indexes that have no store. -/
def Directory.Cleaned (directory directory' : Directory) : Prop :=
  ∀ base, (directory.files base).store = none ∧ directory'.files base = .absent ∨
    (directory.files base).store ≠ none ∧
      (directory.files base).Resembles (directory'.files base)

namespace Preserved

variable {R : Type} {format : RecordFormat R} {directory directory' : Directory}
  {cuts : List (Extent R × Nat)}

variable (h : Preserved format directory cuts) (hCleaned : directory.Cleaned directory')
include h hCleaned

theorem remains : Remains format directory' cuts := by
  have hMem : ∀ base, base ∈ directory'.bases ↔ (directory.files base).store ≠ none := by
    intro base
    rw [directory'.mem_bases]
    rcases hCleaned base with ⟨hNone, hAbsent⟩ | ⟨hStore, hSame⟩
    · simp [hNone, hAbsent]
    · refine iff_of_true ?_ hStore
      obtain ⟨store, hStore⟩ := Option.ne_none_iff_exists'.1 hStore
      obtain ⟨store', hStore', -⟩ := hSame.store hStore
      intro hAbsent
      rw [hAbsent] at hStore'
      cases hStore'
  refine ⟨?_, fun cut hCut => ?_⟩
  · rw [← h.bases]
    refine directory'.pairwise_bases.eq_of_mem_iff (directory.pairwise_bases.filter _)
      fun base => ?_
    rw [hMem, mem_filter, Option.isSome_iff_ne_none, directory.mem_bases]
    refine ⟨fun hStore => ⟨?_, hStore⟩, fun hBoth => hBoth.2⟩
    intro hAbsent
    rw [hAbsent] at hStore
    exact hStore rfl
  · obtain ⟨store, -, hStore, -⟩ := (h.cut cut hCut).store
    rcases hCleaned cut.1.base with ⟨hNone, -⟩ | ⟨-, hSame⟩
    · rw [hNone] at hStore
      cases hStore
    · exact (h.cut cut hCut).of_resembles hSame

theorem found :
    List.Forall₂ (Segment.Found (fun _ => .ok ()) directory') cuts
      (directory.entries.filter fun entry => entry.2.store.isSome) := by
  have hList : (directory.entries.filter fun entry => entry.2.store.isSome) =
      (cuts.map fun cut => cut.1.base).map fun base => (base, directory.files base) := by
    rw [← h.bases, directory.entries_eq_map, filter_map]
    rfl
  rw [hList, map_map, List.forall₂_map_right_iff]
  refine List.forall₂_same.2 fun cut hCut => ⟨rfl, rfl, ?_⟩
  obtain ⟨store, -, hStore, -⟩ := (h.cut cut hCut).store
  rcases hCleaned cut.1.base with ⟨hNone, -⟩ | ⟨-, hSame⟩
  · rw [hNone] at hStore
    cases hStore
  · exact hSame.index_none_iff.symm

end Preserved

section Chain

variable {R : Type} {format : RecordFormat R} {directory : Directory}
  {cuts : List (Extent R × Nat)} {expected : Nat}

theorem chainRecords_ofCut (cuts : List (Extent R × Nat)) :
    chainRecords (cuts.map Extent.ofCut) = surviving cuts := by
  rw [chainRecords, flatMap_map]
  rfl

theorem Remains.map_ofCut (h : Remains format directory cuts) :
    cuts.map ofCut = (cuts.map Extent.ofCut).map Extent.segment := by
  rw [map_map]
  exact map_congr_left fun cut hCut => (h.segment_ofCut hCut).symm

/-- The end of a chain counts what survived in it. -/
theorem Remains.next_eq (h : Remains format directory cuts) (hSome : cuts ≠ [])
    (hChained : Segment.Chained expected (cuts.map ofCut)) :
    ((cuts.map ofCut).getLast?.map next).getD 0 =
      expected + (surviving cuts).length := by
  obtain ⟨others, final, hCuts⟩ := (eq_nil_or_concat cuts).resolve_left hSome
  rw [concat_eq_append] at hCuts
  rw [h.map_ofCut, hCuts, map_append] at hChained
  rw [h.map_ofCut, ← chainRecords_ofCut, hCuts, map_append, map_append,
    map_singleton, map_singleton, getLast?_concat]
  exact hChained.next_eq

end Chain

namespace RaftLog

variable {log : RaftLog} {cuts : List (Extent RaftMutationEntry × Nat)}
  {extents : List (Extent RaftMutationEntry)}

section Orphans

theorem removeIndexes_eq (bases : List Nat) (disk : Disk) :
    removeIndexes bases disk =
      .ok () (disk.performAll ((bases.map fun base => ⟨base, .index⟩).map FileOp.remove)) := by
  induction bases generalizing disk with
  | nil => rfl
  | cons base bases ih => exact ih _

theorem removeOrphans_spec (disk : Disk) :
    (removeOrphans disk.directory.entries).Returns disk
      fun _ disk' => disk.directory.Cleaned disk'.directory := by
  have hOrphan : ∀ base, base ∈ (disk.directory.entries.filter fun entry =>
      entry.2.store.isNone).map Prod.fst ↔
        disk.directory.files base ≠ .absent ∧ (disk.directory.files base).store = none := by
    intro base
    rw [disk.directory.entries_eq_map, filter_map, map_map]
    simp [mem_bases]
  unfold removeOrphans
  by_cases hNone : ((disk.directory.entries.filter fun entry => entry.2.store.isNone).map
      Prod.fst).isEmpty = true
  · simp only [hNone, if_true, wp_pure]
    intro base
    rw [List.isEmpty_iff] at hNone
    by_cases hStore : (disk.directory.files base).store = none
    · refine Or.inl ⟨hStore, ?_⟩
      by_contra hPresent
      have hMem := (hOrphan base).2 ⟨hPresent, hStore⟩
      rw [hNone] at hMem
      cases hMem
    · exact Or.inr ⟨hStore, .refl _⟩
  · simp only [hNone, if_false, wp_bind, Bool.false_eq_true]
    refine wp_of_ok (removeIndexes_eq _ _) ?_
    intro base
    have hFile : ∀ kind, ((disk.performAll ((((disk.directory.entries.filter fun entry =>
        entry.2.store.isNone).map Prod.fst).map fun base => (⟨base, .index⟩ : FileName)).map
        FileOp.remove)).directory).file ⟨base, kind⟩ =
        if kind = .index ∧ disk.directory.files base ≠ .absent ∧
          (disk.directory.files base).store = none then none
        else disk.directory.file ⟨base, kind⟩ := by
      intro kind
      rw [Disk.directory_performAll, file_removeAll]
      refine if_congr ?_ rfl rfl
      rw [← hOrphan base]
      cases kind <;> simp
    generalize disk.performAll _ = removed at hFile ⊢
    have hFiles : (removed.perform .syncDirectory).directory.files base =
        (⟨removed.directory.file ⟨base, .store⟩, removed.directory.file ⟨base, .index⟩⟩ :
          SegmentFiles).link := by
      simp only [Disk.perform, FileOp.apply, files_link]
      rfl
    rw [hFiles, hFile, hFile, if_neg (by simp)]
    by_cases hStore : (disk.directory.files base).store = none
    · refine Or.inl ⟨hStore, ?_⟩
      have hGone : (if FileKind.index = .index ∧ disk.directory.files base ≠ .absent ∧
          (disk.directory.files base).store = none then none
          else disk.directory.file ⟨base, .index⟩) = none := by
        by_cases hAbsent : disk.directory.files base = .absent
        · rw [if_neg (fun hIf => hIf.2.1 hAbsent), Directory.file, hAbsent]
          rfl
        · rw [if_pos ⟨rfl, hAbsent, hStore⟩]
      rw [hGone, Directory.file, SegmentFiles.get, hStore]
      rfl
    · refine Or.inr ⟨hStore, Or.inr ?_⟩
      rw [if_neg (fun hIf => hStore hIf.2.2)]
      rfl

end Orphans

theorem termOf_length (entries : List RaftMutationEntry) :
    termOf entries entries.length = (entries.getLast?.map RaftMutationEntry.term).getD 0 := by
  rcases eq_nil_or_concat entries with rfl | ⟨front, entry, rfl⟩
  · rfl
  · rw [concat_eq_append, length_append, length_singleton, termOf_concat]
    simp

/-- The term of the last entry is found behind empty segments. -/
theorem lastTermOf_eq {disk : Disk}
    (hHeld : ∀ extent ∈ extents, Held raftFormat disk.directory extent) :
    lastTermOf (extents.map Extent.segment).reverse disk =
      .ok (termOf (chainRecords extents) (chainRecords extents).length) disk := by
  induction extents using List.reverseRecOn with
  | nil => rfl
  | append_singleton extents extent ih =>
    have hLast := hHeld extent (by simp)
    rw [map_append, map_singleton, reverse_append, reverse_singleton,
      singleton_append, lastTermOf, termOf_length]
    rcases eq_nil_or_concat extent.records with hNone | ⟨front, entry, hRecords⟩
    · have hEmpty : ¬extent.segment.next > extent.segment.base := by
        simp [Extent.segment, Extent.next, hNone]
      rw [if_neg hEmpty, ih fun e he => hHeld e (mem_append_left _ he), termOf_length]
      simp [hNone]
    · rw [concat_eq_append] at hRecords
      have hNext : extent.segment.next = extent.base + (front.length + 1) := by
        simp [Extent.segment, Extent.next, hRecords]
      have hGet : extent.records[extent.segment.next - 1 - extent.base]? = some entry := by
        rw [hNext, hRecords, show extent.base + (front.length + 1) - 1 - extent.base =
          front.length by
          omega, getElem?_concat_length]
      have hSome : extent.segment.next > extent.segment.base := by
        change _ > extent.base
        omega
      rw [if_pos hSome, RaftSegment.termAt_spec hLast (by omega) hGet]
      simp [hRecords]

/-- Reading the segments from an index on. -/
theorem scanSegments_eq {expected index : Nat}
    (hChained : Segment.Chained expected (extents.map Extent.segment))
    (hHeld : ∀ extent ∈ extents, Held raftFormat log.disk.directory extent) :
    scanSegments index (extents.map Extent.segment) log =
      .ok ((chainRecords extents).drop (index - expected)) log := by
  induction extents generalizing expected with
  | nil => simp [scanSegments, pure]
  | cons extent rest ih =>
    have hBase : extent.base = expected := hChained.1
    have hRest := ih hChained.2 fun e he => hHeld e (mem_cons_of_mem _ he)
    have hNext : extent.segment.next = expected + extent.records.length := by
      rw [← hBase]
      rfl
    refine eq_ok_of_wp ?_
    rw [map_cons, scanSegments, chainRecords_cons]
    by_cases hSkip : extent.segment.next ≤ index
    · rw [if_pos hSkip]
      refine wp_of_ok hRest ⟨?_, rfl⟩
      rw [drop_append, drop_of_length_le (show extent.records.length ≤ _ by omega),
        nil_append, hNext]
      congr 1
      omega
    · rw [if_neg hSkip]
      simp only [wp_bind, onDisk, wp_zoom]
      refine wp_conseq (scan_spec raftFormat_lawful (hHeld extent mem_cons_self) _) ?_
      rintro part disk' ⟨rfl, rfl⟩
      refine wp_of_ok hRest ⟨?_, rfl⟩
      rw [drop_append, show index - expected - extent.records.length = 0 by omega,
        show index - extent.segment.next = 0 by omega]
      congr 2
      change max index extent.base - extent.base = _
      omega

theorem scanFrom_eq (hSegments : log.segments = extents.map Extent.segment) (hSome : extents ≠ [])
    (hChained : Segment.Chained 1 (extents.map Extent.segment))
    (hHeld : ∀ extent ∈ extents, Held raftFormat log.disk.directory extent) {index : Nat}
    (hPos : 0 < index) (hHigh : index ≤ log.nextIndex) :
    scanFrom index log = .ok ((chainRecords extents).drop (index - 1)) log := by
  have hScan : scanSegments index _ log = _ := scanSegments_eq hChained hHeld
  rw [← hSegments] at hScan
  have hOpen : log.segments.isEmpty = false := by
    rw [hSegments]
    simpa using hSome
  refine eq_ok_of_wp ?_
  unfold scanFrom requireOpen
  simp only [wp_bind, wp_read, hOpen, Bool.false_eq_true, if_false, wp_pure]
  rw [if_neg (by omega)]
  exact wp_of_ok hScan ⟨rfl, rfl⟩

/-- The log after its segments were found and opened. -/
structure Reopened (log : RaftLog) (cuts : List (Extent RaftMutationEntry × Nat))
    (log' : RaftLog) : Prop where
  config : log'.config = log.config
  segments : log'.segments = cuts.map Segment.ofCut
  opened : ∃ cleaned, log.disk.directory.Cleaned cleaned ∧
    AllOpened raftFormat cuts cleaned log'.disk.directory
  next : log'.nextIndex = 1 + (surviving cuts).length
  lastTerm : log'.lastTerm = termOf (surviving cuts) (surviving cuts).length
  durable : log'.durableIndex = log'.nextIndex - 1
  usable : log'.recoveryRequired = false
  dirty : log'.directoryDirty = false

/-- The indexes without a store are ignored, and then the segments have to be chained. -/
theorem openLog_spec (hClosed : log.segments = [])
    (hStored : Preserved raftFormat log.disk.directory cuts) (hSome : cuts ≠ []) :
    openLog.wp log
      (fun _ log' => Segment.Chained 1 (cuts.map ofCut) ∧ Reopened log cuts log')
      (fun _ _ => ¬Segment.Chained 1 (cuts.map ofCut)) fun _ => False := by
  unfold openLog
  simp only [wp_bind, wp_read, hClosed, isEmpty_nil, not_true, if_false, wp_onFail]
  unfold openAndCount openSegments
  simp only [wp_bind, wp_read, onDisk, wp_zoom]
  refine wp_of_returns (removeOrphans_spec log.disk) ?_
  intro _ cleaned hCleaned
  have hRemains := hStored.remains hCleaned
  have hFound := hStored.found hCleaned
  have hListed : (log.disk.directory.entries.filter fun entry => entry.2.store.isSome).isEmpty =
      false := by
    rw [isEmpty_eq_false_iff, ← length_pos_iff_ne_nil, ← hFound.length_eq]
    exact length_pos_iff_ne_nil.2 hSome
  simp only [hListed, Bool.false_eq_true, if_false, wp_bind, wp_zoom]
  refine wp_conseq (openAll_spec raftFormat_lawful hRemains.cut hRemains.pairwise hFound) ?_
  rintro segments disk' ⟨hChained, rfl, hAll⟩
  have hHeld : ∀ extent ∈ cuts.map Extent.ofCut, Held raftFormat disk'.directory extent := by
    intro extent hExtent
    obtain ⟨cut, hCut, rfl⟩ := mem_map.1 hExtent
    exact hAll.held cut hCut
  have hLast := lastTermOf_eq hHeld
  rw [← hRemains.map_ofCut, chainRecords_ofCut] at hLast
  have hEnd := hRemains.next_eq hSome hChained
  rw [wp_modify]
  by_cases hNext : ((cuts.map ofCut).getLast?.map next).getD 0 > 1
  · rw [if_pos hNext]
    simp only [wp_bind, wp_zoom, wp_modify]
    exact wp_of_ok hLast ⟨hChained, rfl, rfl, ⟨_, hCleaned, hAll⟩, hEnd, rfl, rfl, rfl, rfl⟩
  · rw [if_neg hNext]
    have hEmpty : (surviving cuts).length = 0 := by omega
    refine ⟨hChained, rfl, rfl, ⟨_, hCleaned, hAll⟩, hEnd, ?_, rfl, rfl, rfl⟩
    rw [hEmpty]
    rfl

/-- The log after its first segment was created. -/
structure Started (log log' : RaftLog) : Prop where
  config : log'.config = log.config
  durable : log'.durableIndex = 0
  usable : log'.recoveryRequired = false
  dirty : log'.directoryDirty = false
  removed : log'.disk.directory.removed = []
  files : log'.disk.directory.files = Function.update (fun _ => .absent) 1
    ⟨some (.durable []), some (.durable [])⟩
  opened : Opened log' [] ⟨1, []⟩

theorem openLog_empty_spec (hClosed : log.segments = [])
    (hEmpty : log.disk.directory.entries = []) :
    openLog.Returns log
      fun _ log' => Started log log' := by
  have hAbsent : log.disk.directory.files = fun _ => .absent := by
    funext base
    simp [Directory.files, hEmpty, valueOf]
  unfold openLog openAndCount openSegments createSegment onDisk removeOrphans
  simp only [wp_bind, wp_read, hClosed, isEmpty_nil, not_true_eq_false, if_false, hEmpty,
    wp_onFail, wp_zoom, wp_modify, if_true, filter_nil, map_nil, wp_pure]
  refine wp_conseq (create_spec (by rw [hAbsent])) ?_
  rintro segment disk' ⟨rfl, hRemoved, hFiles, -⟩
  have hCreated : disk'.directory.files = Function.update (fun _ => .absent) 1
      ⟨some (.durable []), some (.durable [])⟩ := by
    rw [hFiles, hAbsent]
    rfl
  have hRunning : Running raftFormat 1 0 disk'.directory [] ⟨1, []⟩ :=
    Running.of_created Nat.one_pos hRemoved hCreated
  exact ⟨rfl, rfl, rfl, rfl, hRemoved, hCreated, rfl, rfl, rfl, hRunning.nonempty, hRunning.chained,
    hRunning.held, fun base hPresent => (hRunning.present base hPresent).2⟩

theorem Reopened.scan {log' : RaftLog} (h : Reopened log cuts log')
    (hStored : Preserved raftFormat log.disk.directory cuts) (hSome : cuts ≠ [])
    (hChained : Segment.Chained 1 (cuts.map ofCut)) :
    scanFrom 1 log' = .ok (surviving cuts) log' := by
  obtain ⟨cleaned, hCleaned, hAll⟩ := h.opened
  have hRemains := hStored.remains hCleaned
  have hNext : 1 ≤ log'.nextIndex := by rw [h.next]; omega
  rw [hRemains.map_ofCut] at hChained
  rw [← chainRecords_ofCut]
  refine scanFrom_eq (h.segments.trans hRemains.map_ofCut) ?_ hChained ?_ Nat.one_pos hNext
  · simpa using hSome
  · intro extent hExtent
    obtain ⟨cut, hCut, rfl⟩ := mem_map.1 hExtent
    exact hAll.held cut hCut

/-- What a new log object shows of a directory: it opens, and reading it gives the entries. -/
def Exposes (config : RaftConfig) (directory : Directory) (entries : List RaftMutationEntry) :
    Prop :=
  ∃ log log', openLog (closed config directory) = .ok () log ∧ scanFrom 1 log = .ok entries log'

theorem exposes_iff {config : RaftConfig} {directory : Directory}
    (hStored : Preserved raftFormat directory cuts) (hSome : cuts ≠ [])
    {entries : List RaftMutationEntry} :
    Exposes config directory entries ↔
      Segment.Chained 1 (cuts.map ofCut) ∧ entries = surviving cuts := by
  have hOpen : openLog.wp (closed config directory) _ _ _ := openLog_spec rfl hStored hSome
  unfold Exposes
  cases hRun : openLog (closed config directory) with
  | halt log => exact (halt_of_wp hRun hOpen).elim
  | fail e log =>
    have hNot : ¬Segment.Chained 1 (cuts.map ofCut) := fail_of_wp hRun hOpen
    exact iff_of_false (fun ⟨_, _, hOk, _⟩ => by cases hOk) fun h => hNot h.1
  | ok value log =>
    obtain ⟨hChained, hReopened⟩ := okay_of_wp hRun hOpen
    have hScan := hReopened.scan hStored hSome hChained
    constructor
    · rintro ⟨_, log', hOk, hRead⟩
      cases hOk
      cases hRead.symm.trans hScan
      exact ⟨hChained, rfl⟩
    · rintro ⟨-, rfl⟩
      exact ⟨log, log, rfl, hScan⟩

section Whole

variable {before : List (Extent RaftMutationEntry)} {last : Extent RaftMutationEntry}

/-- A segment with all of its records. -/
def wholeCut (extent : Extent RaftMutationEntry) : Extent RaftMutationEntry × Nat :=
  (extent, extent.records.length)

theorem map_ofCut_wholeCut (extents : List (Extent RaftMutationEntry)) :
    (extents.map wholeCut).map ofCut = extents.map Extent.segment := by
  rw [map_map]
  rfl

theorem surviving_wholeCut (extents : List (Extent RaftMutationEntry)) :
    surviving (extents.map wholeCut) = chainRecords extents := by
  simp [surviving, chainRecords, wholeCut, flatMap_map]

/-- A directory that holds exactly the given segments. -/
structure Filed (before : List (Extent RaftMutationEntry)) (last : Extent RaftMutationEntry)
    (directory : Directory) : Prop where
  nonempty : ∀ extent ∈ before, extent.records ≠ []
  chained : Segment.Chained 1 ((before ++ [last]).map Extent.segment)
  held : ∀ extent ∈ before ++ [last], Held raftFormat directory extent
  present : ∀ base, directory.files base ≠ .absent → ∃ extent ∈ before ++ [last], extent.base = base

theorem Opened.filed (h : Opened log before last) : Filed before last log.disk.directory :=
  ⟨h.nonempty, h.chained, h.held, h.present⟩

namespace Filed

variable {directory : Directory}

theorem store_ne_none_iff (h : Filed before last directory) {base : Nat} :
    (directory.files base).store ≠ none ↔ ∃ e ∈ before ++ [last], e.base = base := by
  constructor
  · intro hStore
    refine h.present base fun hAbsent => hStore ?_
    rw [hAbsent]
    rfl
  · rintro ⟨e, hMem, rfl⟩
    obtain ⟨store, index, hFiles, -⟩ := (h.held e hMem).files
    simp [hFiles]

theorem stored (h : Filed before last directory) :
    Preserved raftFormat directory ((before ++ [last]).map wholeCut) := by
  refine ⟨?_, ?_⟩
  · rw [map_map]
    refine (directory.pairwise_bases.filter _).eq_of_mem_iff ?_ fun base => ?_
    · exact pairwise_map.2 ((Stoneleaf.pairwise_base h.chained h.nonempty).imp fun hBoth => hBoth.2)
    · rw [mem_filter, Option.isSome_iff_ne_none, h.store_ne_none_iff, mem_bases, mem_map]
      refine ⟨fun hBoth => hBoth.2, fun hIn => ⟨fun hAbsent => ?_, hIn⟩⟩
      refine h.store_ne_none_iff.2 hIn ?_
      rw [hAbsent]
      rfl
  · intro cut hCut
    obtain ⟨extent, hMem, rfl⟩ := mem_map.1 hCut
    exact (h.held extent hMem).cut

end Filed

/-- The log object over the segments that were found. -/
theorem Reopened.opened_log {log' : RaftLog} {others : List (Extent RaftMutationEntry × Nat)}
    {final : Extent RaftMutationEntry × Nat} (h : Reopened log (others ++ [final]) log')
    (hStored : Preserved raftFormat log.disk.directory (others ++ [final]))
    (hChained : Segment.Chained 1 ((others ++ [final]).map ofCut))
    (hNonempty : ∀ cut ∈ others, (Extent.ofCut cut).records ≠ []) :
    Opened log' (others.map Extent.ofCut) (Extent.ofCut final) := by
  obtain ⟨cleaned, hCleaned, hAll⟩ := h.opened
  have hRemains := hStored.remains hCleaned
  have hMap : others.map Extent.ofCut ++ [Extent.ofCut final] =
      (others ++ [final]).map Extent.ofCut := by simp
  rw [hRemains.map_ofCut, ← hMap] at hChained
  have hRecords : chainRecords (others.map Extent.ofCut ++ [Extent.ofCut final]) =
      surviving (others ++ [final]) := by
    rw [hMap, chainRecords_ofCut]
  have hNext := hChained.next_eq
  rw [hRecords] at hNext
  refine ⟨?_, ?_, ?_, ?_, hChained, ?_, ?_⟩
  · rw [h.segments, hRemains.map_ofCut, hMap]
  · rw [h.next, hNext]
  · rw [h.lastTerm, hRecords, hNext, Nat.add_sub_cancel_left]
  · intro extent hMem
    obtain ⟨cut, hCut, rfl⟩ := mem_map.1 hMem
    exact hNonempty cut hCut
  · intro extent hMem
    rw [hMap] at hMem
    obtain ⟨cut, hCut, rfl⟩ := mem_map.1 hMem
    exact hAll.held cut hCut
  · intro base hPresent
    by_contra hNone
    push Not at hNone
    rw [hMap] at hNone
    have hOut : ∀ cut ∈ others ++ [final], cut.1.base ≠ base := fun cut hCut =>
      hNone (Extent.ofCut cut) (mem_map_of_mem hCut)
    have hAbsent : cleaned.files base = .absent := by
      by_contra hThere
      have hBase := (cleaned.mem_bases base).2 hThere
      rw [hRemains.bases] at hBase
      obtain ⟨cut, hCut, hEq⟩ := mem_map.1 hBase
      exact hOut cut hCut hEq
    rcases hAll.others base hOut with hSame | hSame
    · rw [hSame, hAbsent] at hPresent
      exact hPresent rfl
    · rw [hSame, hAbsent] at hPresent
      exact hPresent rfl

theorem openLog_filed (hClosed : log.segments = []) (h : Filed before last log.disk.directory) :
    openLog.Returns log
      fun _ log' => Opened log' before last ∧ log'.config = log.config ∧
        log'.recoveryRequired = false ∧ log'.directoryDirty = false := by
  have hWhole : ∀ extents : List (Extent RaftMutationEntry),
      (extents.map wholeCut).map Extent.ofCut = extents := by
    intro extents
    rw [map_map]
    exact map_id'' (fun extent => by simp [Extent.ofCut, wholeCut, Extent.take]) extents
  have hStored := h.stored
  have hChained : Segment.Chained 1 (((before ++ [last]).map wholeCut).map ofCut) := by
    rw [map_ofCut_wholeCut]
    exact h.chained
  refine wp_weaken (openLog_spec hClosed hStored (by simp)) ?_ (fun _ _ hNot => hNot hChained)
  rintro _ log' ⟨-, hReopened⟩
  rw [map_append, map_singleton] at hReopened hStored hChained
  have hOpened := hReopened.opened_log hStored hChained fun cut hCut => by
    obtain ⟨extent, hMem, rfl⟩ := mem_map.1 hCut
    simpa [Extent.ofCut, wholeCut, Extent.take] using h.nonempty extent hMem
  have hLast : Extent.ofCut (wholeCut last) = last := by
    simp [Extent.ofCut, wholeCut, Extent.take]
  rw [hWhole, hLast] at hOpened
  exact ⟨hOpened, hReopened.config, hReopened.usable, hReopened.dirty⟩

/-- The entries that a log shows. -/
def entries (log : RaftLog) : List RaftMutationEntry :=
  match scanFrom 1 log with
  | .ok entries _ => entries
  | _ => []

theorem Opened.entries_eq (h : Opened log before last) :
    log.entries = chainRecords (before ++ [last]) := by
  have hScan := scanFrom_eq h.segments (by simp) h.chained h.held Nat.one_pos
    (show 1 ≤ log.nextIndex by rw [h.next_eq]; omega)
  rw [entries, hScan]
  rfl

/-- A directory with nothing cut shows the entries of the log. -/
theorem Opened.exposes (h : Opened log before last) :
    Exposes log.config log.disk.directory log.entries := by
  refine (exposes_iff h.filed.stored (by simp)).2 ⟨?_, ?_⟩
  · rw [map_ofCut_wholeCut]
    exact h.chained
  · rw [surviving_wholeCut, h.entries_eq]

end Whole

end RaftLog

end Stoneleaf
