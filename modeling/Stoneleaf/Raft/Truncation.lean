import Stoneleaf.Raft.RaftLogSpec

/-!
Cutting the replicated log. The file operations of a truncation are listed: the store and the
index of the segment with the boundary are shortened, and then the files of the later segments
are removed one by one.
-/

namespace Stoneleaf

open Library Program List Directory
open Extent (segment)

namespace RaftLog

variable {log : RaftLog} {before a b : List (Extent RaftMutationEntry)}
  {last extent : Extent RaftMutationEntry} {fromIndex : Nat}

/-- The operations that shorten a segment. -/
def cutOps (extent : Extent RaftMutationEntry) (fromIndex : Nat) : List FileOp :=
  if fromIndex = extent.next then []
  else
    [.write ⟨extent.base, .store⟩
      (.truncate (storeImage raftFormat (extent.records.take (fromIndex - extent.base))).length),
    .write ⟨extent.base, .index⟩ (.truncate ((fromIndex - extent.base) * Index.entrySize))]

/-- The operations that remove segments. -/
def removeOps (segments : List Segment) : List FileOp :=
  segments.flatMap fun segment =>
    [.remove ⟨segment.base, .store⟩, .remove ⟨segment.base, .index⟩]

/-- The first segment that ends at the boundary or behind it. -/
theorem targetOf_spec {extents : List (Extent RaftMutationEntry)} {expected : Nat}
    (hChained : Segment.Chained expected (extents.map segment)) (hSome : extents ≠ [])
    (hLow : expected ≤ fromIndex)
    (hHigh : fromIndex ≤ expected + (chainRecords extents).length) :
    ∃ a extent b, extents = a ++ extent :: b ∧
      targetOf fromIndex (extents.map segment) =
        some (a.map segment, extent.segment, b.map segment) ∧
      extent.base ≤ fromIndex ∧ fromIndex ≤ extent.next ∧ (a ≠ [] → extent.base < fromIndex) := by
  induction extents generalizing expected with
  | nil => exact absurd rfl hSome
  | cons first rest ih =>
    have hBase : first.base = expected := hChained.1
    have hNext : first.next = expected + first.records.length := by rw [← hBase, Extent.next]
    rw [chainRecords_cons, length_append] at hHigh
    by_cases hFirst : fromIndex ≤ first.next
    · refine ⟨[], first, rest, rfl, ?_, hBase.le.trans hLow, hFirst, fun hNone => absurd rfl hNone⟩
      rw [map_cons, targetOf, if_pos ⟨hBase.le.trans hLow, hFirst⟩]
      rfl
    · have hRest : rest ≠ [] := by
        rintro rfl
        simp at hHigh
        omega
      obtain ⟨a, extent, b, rfl, hTarget, hIn⟩ := ih hChained.2 hRest (Nat.le_of_not_le hFirst) (by
        change fromIndex ≤ first.next + _
        omega)
      refine ⟨first :: a, extent, b, rfl, ?_, hIn.1, hIn.2.1, fun _ => ?_⟩
      · rw [map_cons, targetOf, if_neg (fun hIn => hFirst hIn.2), hTarget]
        rfl
      · rcases eq_nil_or_concat a with rfl | ⟨front, previous, rfl⟩
        · have hFollows : extent.base = first.next := hChained.2.1
          omega
        · exact hIn.2.2 (by simp)

theorem performAll_append (disk : Disk) (ops more : List FileOp) :
    disk.performAll (ops ++ more) = (disk.performAll ops).performAll more :=
  foldl_append

theorem removeSegments_eq (segments : List Segment) (log : RaftLog) :
    removeSegments segments log = .ok () { log with
      disk := log.disk.performAll (removeOps segments)
      directoryDirty := log.directoryDirty || !segments.isEmpty } := by
  induction segments generalizing log with
  | nil => simp [removeSegments, removeOps, Disk.performAll, pure]
  | cons segment rest ih =>
    have hStep : removeSegments (segment :: rest) log = removeSegments rest { log with
        disk := (log.disk.perform (.remove ⟨segment.base, .store⟩)).perform
          (.remove ⟨segment.base, .index⟩)
        directoryDirty := true } := rfl
    rw [hStep, ih]
    simp [removeOps, Disk.performAll]

end RaftLog

namespace RaftSegment

variable {disk : Disk} {extent : Extent RaftMutationEntry} {fromIndex : Nat}

theorem truncateSuffix_eq (hHeld : Held raftFormat disk.directory extent)
    (hLow : extent.base ≤ fromIndex) (hHigh : fromIndex ≤ extent.next) :
    truncateSuffix extent.segment fromIndex disk =
      .ok (extent.take (fromIndex - extent.base)).segment
        (disk.performAll (RaftLog.cutOps extent fromIndex)) := by
  have hRange : ¬(fromIndex < extent.segment.base ∨ fromIndex > extent.segment.next) := by
    change ¬(fromIndex < extent.base ∨ fromIndex > extent.next)
    omega
  have hLength : fromIndex - extent.base ≤ extent.records.length := by
    rw [Extent.next] at hHigh
    omega
  have hSegment : (extent.take (fromIndex - extent.base)).segment = ⟨extent.base, fromIndex⟩ := by
    simp only [Extent.segment, Extent.next, Extent.take, length_take, Segment.mk.injEq, true_and]
    omega
  rw [hSegment]
  by_cases hEnd : fromIndex = extent.next
  · have hRun : truncateSuffix extent.segment fromIndex disk = .ok extent.segment disk := by
      unfold truncateSuffix
      rw [if_neg hRange, if_pos (show fromIndex = extent.segment.next from hEnd)]
      rfl
    rw [hRun, RaftLog.cutOps, if_pos hEnd, hEnd]
    rfl
  · obtain ⟨store, index, hFiles, hStore, hIndex⟩ := hHeld.files
    have hOffset : Store.offsetOf (storeImage raftFormat extent.records) (fromIndex - extent.base) =
        (storeImage raftFormat (extent.records.take (fromIndex - extent.base))).length := by
      have hFrames : Store.offsetOf (frames (extent.records.map raftFormat.payload) ++ [])
          (fromIndex - extent.base) = _ :=
        Store.offsetOf_frames hHeld.sound.framable (by rw [length_map]; exact hLength)
      rw [append_nil, ← map_take] at hFrames
      exact hFrames
    have hScan := store_inspectFile_image hHeld.sound
    have hIndexScan := index_inspectFile hHeld.sound (show ([] : List UInt8).length < _ by decide)
    rw [append_nil] at hIndexScan
    have hIndexContent : ∀ w, (disk.perform (.write ⟨extent.base, .store⟩ w)).directory.content
        ⟨extent.base, .index⟩ = indexImage raftFormat extent.records := by
      intro w
      have hFile : (disk.perform (.write ⟨extent.base, .store⟩ w)).directory.file
          ⟨extent.base, .index⟩ = some index := by
        rw [Disk.perform, FileOp.apply, file_setFile, if_neg (by simp)]
        simp [Directory.file, SegmentFiles.get, hFiles]
      rw [Directory.content, hFile]
      exact hIndex
    refine eq_ok_of_wp ?_
    unfold truncateSuffix Store.truncateTo Index.truncateTo
    rw [if_neg hRange, if_neg (show ¬fromIndex = extent.segment.next from hEnd)]
    simp only [Extent.segment, wp_bind, wp_readFile, hHeld.content_store, hScan, gt_iff_lt,
      if_neg (Nat.not_lt_of_le hLength), wp_fileOp, hIndexContent, hIndexScan, hOffset,
      RaftLog.cutOps, if_neg hEnd]
    exact ⟨rfl, rfl⟩

end RaftSegment

namespace RaftLog

variable {log : RaftLog} {before a b : List (Extent RaftMutationEntry)}
  {last extent : Extent RaftMutationEntry} {fromIndex count : Nat}

theorem retainedTerm_eq (h : Opened log before last) (hHigh : fromIndex ≤ log.nextIndex) :
    retainedTerm fromIndex log.segments log.disk =
      .ok (termOf (chainRecords (before ++ [last])) (fromIndex - 1)) log.disk := by
  unfold retainedTerm
  by_cases hFirst : fromIndex > 1
  · obtain ⟨segment, hSegment, hTerm⟩ :=
      h.termAt_segment (show 0 < fromIndex - 1 by omega) (by omega)
    rw [if_pos hFirst, hSegment]
    exact hTerm
  · rw [if_neg hFirst, termOf, if_pos (by omega)]
    rfl

/-- The log after it was cut in a segment, with the later ones removed. -/
def truncated (log : RaftLog) (fromIndex : Nat) (term : UInt64)
    (a : List (Extent RaftMutationEntry)) (extent : Extent RaftMutationEntry)
    (b : List (Extent RaftMutationEntry)) : RaftLog :=
  { log with
    segments := (a ++ [extent.take (fromIndex - extent.base)]).map Extent.segment
    nextIndex := fromIndex
    lastTerm := term
    durableIndex := min log.durableIndex (fromIndex - 1)
    directoryDirty := log.directoryDirty || !b.isEmpty
    disk := log.disk.performAll (cutOps extent fromIndex ++ removeOps (b.map Extent.segment)) }

/-- Where a boundary inside of the log lies. -/
structure Boundary (before : List (Extent RaftMutationEntry)) (last : Extent RaftMutationEntry)
    (fromIndex : Nat) (a : List (Extent RaftMutationEntry)) (extent : Extent RaftMutationEntry)
    (b : List (Extent RaftMutationEntry)) : Prop where
  cut : before ++ [last] = a ++ extent :: b
  low : extent.base ≤ fromIndex
  high : fromIndex ≤ extent.next
  inside : a ≠ [] → extent.base < fromIndex
  target : targetOf fromIndex ((before ++ [last]).map Extent.segment) =
    some (a.map Extent.segment, extent.segment, b.map Extent.segment)

/-- What lies before a boundary. -/
theorem Boundary.take_eq (hBoundary : Boundary before last fromIndex a extent b)
    (hChained : Segment.Chained 1 ((before ++ [last]).map segment)) :
    chainRecords (a ++ [extent.take (fromIndex - extent.base)]) =
      (chainRecords (before ++ [last])).take (fromIndex - 1) := by
  have hLow := hBoundary.low
  have hHigh := hBoundary.high
  rw [hBoundary.cut] at hChained
  have hBase := hChained.base_eq
  rw [Extent.next] at hHigh
  rw [hBoundary.cut, chainRecords_append, chainRecords_append, chainRecords_cons, chainRecords_cons,
    chainRecords_nil, append_nil, take_append,
    take_of_length_le (show (chainRecords a).length ≤ fromIndex - 1 by omega),
    take_append_of_le_length (by omega)]
  change chainRecords a ++ extent.records.take _ = chainRecords a ++ extent.records.take _
  congr 2
  omega

/-- What a truncation does, step by step. -/
theorem truncateSuffix_spec (h : Opened log before last) (hUsable : log.recoveryRequired = false)
    (hPos : 0 < fromIndex) (hHigh : fromIndex < log.nextIndex) :
    ∃ a extent b, Boundary before last fromIndex a extent b ∧
      truncateSuffix fromIndex log = .ok () (log.truncated fromIndex
        (termOf (chainRecords (before ++ [last])) (fromIndex - 1)) a extent b) := by
  have hNext := h.next_eq
  obtain ⟨a, extent, b, hCut, hTarget, hLow, hEnd, hInside⟩ :=
    targetOf_spec h.chained (by simp) (show 1 ≤ fromIndex from hPos) (by omega)
  refine ⟨a, extent, b, ⟨hCut, hLow, hEnd, hInside, hTarget⟩, ?_⟩
  have hRange : ¬(fromIndex = 0 ∨ fromIndex > log.nextIndex) := by omega
  have hHeld := h.held extent (by simp [hCut])
  refine eq_ok_of_wp ?_
  unfold truncateSuffix
  rw [Returns, wp_bind]
  refine h.wp_requireUsable (fun hNot => by simp [hUsable] at hNot) fun _ => ?_
  rw [wp_bind, wp_read, if_neg hRange, if_neg (Nat.ne_of_lt hHigh)]
  simp only [wp_bind, wp_read, onDisk, wp_zoom]
  refine wp_of_ok (retainedTerm_eq h hHigh.le) ?_
  rw [h.segments, hTarget]
  simp only [wp_bind, wp_onFail, truncateSegments, onDisk, wp_zoom, wp_modify]
  refine wp_of_ok (RaftSegment.truncateSuffix_eq hHeld hLow hEnd) ?_
  refine wp_of_ok (removeSegments_eq _ _) ?_
  simp [truncated, performAll_append]

/-- A truncation that has nothing to do, or is refused, leaves the log alone. -/
theorem truncateSuffix_idle (h : Opened log before last)
    (hIdle : log.recoveryRequired = true ∨ fromIndex = 0 ∨ log.nextIndex ≤ fromIndex) :
    (truncateSuffix fromIndex).wp log
      (fun _ log' => log' = log ∧ fromIndex = log.nextIndex ∧ log.recoveryRequired = false)
      (fun _ log' => log' = log) fun _ => False := by
  unfold truncateSuffix
  rw [wp_bind]
  refine h.wp_requireUsable (fun _ => rfl) fun hUsable => ?_
  rw [wp_bind, wp_read]
  by_cases hOutside : fromIndex = 0 ∨ fromIndex > log.nextIndex
  · rw [if_pos hOutside]
    rfl
  · have hEnd : fromIndex = log.nextIndex := by
      simp only [hUsable, Bool.false_eq_true, false_or] at hIdle
      omega
    rw [if_neg hOutside, if_pos hEnd]
    exact ⟨rfl, hEnd, hUsable⟩

section Removal

/-- The files that go with some segments. -/
def removedNames (segments : List Segment) : List FileName :=
  segments.flatMap fun segment => [⟨segment.base, .store⟩, ⟨segment.base, .index⟩]

theorem removeOps_eq (segments : List Segment) :
    removeOps segments = (removedNames segments).map FileOp.remove := by
  simp [removeOps, removedNames, map_flatMap]

/-- The number of stores among the first files that are removed. -/
def removedStores (count : Nat) : Nat :=
  (count + 1) / 2

theorem store_mem_take_removedNames (segments : List Segment) (base count : Nat) :
    (⟨base, .store⟩ : FileName) ∈ (removedNames segments).take count ↔
      base ∈ (segments.take (removedStores count)).map Segment.base := by
  induction segments generalizing count with
  | nil => simp [removedNames]
  | cons segment rest ih =>
    match count with
    | 0 => simp [removedStores]
    | 1 => simp [removedNames, removedStores]
    | count + 2 =>
      have hStores : removedStores (count + 2) = removedStores count + 1 := by
        simp only [removedStores]
        omega
      have hRest := ih count
      rw [removedNames] at hRest
      rw [removedNames, flatMap_cons, hStores]
      simp [hRest]

/-- An index goes after its store. -/
theorem store_of_index_mem_take_removedNames {segments : List Segment} {base count : Nat}
    (hIndex : (⟨base, .index⟩ : FileName) ∈ (removedNames segments).take count) :
    (⟨base, .store⟩ : FileName) ∈ (removedNames segments).take count := by
  induction segments generalizing count with
  | nil => simp [removedNames] at hIndex
  | cons segment rest ih =>
    rw [removedNames, flatMap_cons] at hIndex ⊢
    match count with
    | 0 => simp at hIndex
    | 1 => simp at hIndex
    | count + 2 =>
      have hIn : base = segment.base ∨
          (⟨base, .index⟩ : FileName) ∈ (removedNames rest).take count := by
        simpa [removedNames] using hIndex
      rcases hIn with rfl | hIn
      · simp
      · have hStore := ih hIn
        rw [removedNames] at hStore
        simp [hStore]

end Removal

section Left

/-- The directory after the first operations of shortening a segment. -/
def shortened (directory : Directory) (extent : Extent RaftMutationEntry) (fromIndex count : Nat) :
    Directory :=
  ((cutOps extent fromIndex).take count).foldl FileOp.apply directory

/-- The store of a segment is shortened at once, its index a step later. -/
theorem shortened_spec {directory : Directory} (fromIndex : Nat)
    (hHeld : Held raftFormat directory extent)
    (hStarted : 0 < count) :
    ∃ store index, Directory.At directory extent.base
      (shortened directory extent fromIndex count) store index ∧
      store.content = storeImage raftFormat (extent.records.take (fromIndex - extent.base)) ∧
      index.content <+: indexImage raftFormat extent.records ∧
      (2 ≤ count → index.content =
        indexImage raftFormat (extent.records.take (fromIndex - extent.base))) := by
  obtain ⟨store, index, hFiles, hStore, hIndex⟩ := hHeld.files
  have hAt : Directory.At directory extent.base directory store index :=
    ⟨by rw [← hFiles, Function.update_eq_self], rfl⟩
  by_cases hEnd : fromIndex = extent.next
  · have hAll : fromIndex - extent.base = extent.records.length := by
      rw [hEnd, Extent.next]
      omega
    rw [shortened, cutOps, if_pos hEnd, take_nil, hAll, take_length]
    exact ⟨store, index, hAt, hStore, hIndex ▸ prefix_rfl, fun _ => hIndex⟩
  · rw [shortened, cutOps, if_neg hEnd]
    have hPrefix : storeImage raftFormat (extent.records.take (fromIndex - extent.base)) <+:
        storeImage raftFormat extent.records := storeImage_isPrefix _ (List.take_prefix _ _)
    have hCut := hAt.write_store (.truncate
      (storeImage raftFormat (extent.records.take (fromIndex - extent.base))).length)
    have hContent : (store.write (.truncate (storeImage raftFormat
        (extent.records.take (fromIndex - extent.base))).length)).content =
        storeImage raftFormat (extent.records.take (fromIndex - extent.base)) := by
      rw [File.content_write, FileWrite.apply, hStore]
      exact (prefix_iff_eq_take.1 hPrefix).symm
    by_cases hOne : count = 1
    · subst hOne
      exact ⟨_, index, hCut, hContent, hIndex ▸ prefix_rfl, by simp⟩
    · have hLong : 2 ≤ count := by omega
      rw [take_of_length_le hLong]
      refine ⟨_, _, hCut.write_index _, hContent, ?_, fun _ => ?_⟩
      · rw [File.content_write, FileWrite.apply, hIndex]
        exact take_prefix _ _
      · rw [File.content_write, FileWrite.apply, hIndex]
        exact indexImage_take _ _ _

/-- What a crash after the first operations of a truncation leaves. -/
def leftBy (directory : Directory) (extent : Extent RaftMutationEntry)
    (b : List (Extent RaftMutationEntry)) (fromIndex count : Nat) : Directory :=
  ((cutOps extent fromIndex ++ removeOps (b.map Extent.segment)).take count).foldl FileOp.apply
    directory

/-- The number of segments behind the boundary whose stores are gone. -/
def gone (extent : Extent RaftMutationEntry) (fromIndex count : Nat) : Nat :=
  removedStores (count - (cutOps extent fromIndex).length)

theorem file_leftBy (directory : Directory) (name : FileName) :
    (leftBy directory extent b fromIndex count).file name =
      if name ∈ (removedNames (b.map segment)).take
        (count - (cutOps extent fromIndex).length) then none
      else (shortened directory extent fromIndex count).file name := by
  rw [leftBy, take_append, foldl_append, removeOps_eq, ← map_take, file_removeAll]
  rfl

theorem store_mem_removed_iff {base : Nat} :
    (⟨base, .store⟩ : FileName) ∈ (removedNames (b.map segment)).take
        (count - (cutOps extent fromIndex).length) ↔
      base ∈ (b.take (gone extent fromIndex count)).map Extent.base := by
  rw [store_mem_take_removedNames, ← map_take, map_map]
  rfl

theorem store_leftBy (directory : Directory) (base : Nat) :
    ((leftBy directory extent b fromIndex count).files base).store =
      if base ∈ (b.take (gone extent fromIndex count)).map Extent.base then none
      else ((shortened directory extent fromIndex count).files base).store := by
  refine (file_leftBy directory ⟨base, .store⟩).trans ?_
  simp only [store_mem_removed_iff]
  rfl

/-- A segment whose store is left has both of its files. -/
theorem files_leftBy (directory : Directory) {base : Nat}
    (hLeft : base ∉ (b.take (gone extent fromIndex count)).map Extent.base) :
    (leftBy directory extent b fromIndex count).files base =
      (shortened directory extent fromIndex count).files base := by
  rw [← store_mem_removed_iff] at hLeft
  rw [files_eq, files_eq, file_leftBy, file_leftBy, if_neg hLeft,
    if_neg fun hIndex => hLeft (store_of_index_mem_take_removedNames hIndex)]

end Left

end RaftLog

end Stoneleaf
