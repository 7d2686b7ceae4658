import Stoneleaf.Log.WriteSpec

/-!
How the records of a log lie on disk while it runs. All segments but the last are complete; the
last one may be under construction or have a record half written. The layout says what may
survive a power loss: of every store at least the records that count as durable. What survives
can be opened exactly when no store before a surviving segment was cut.
-/

namespace Stoneleaf

open Library Program List Segment Function Directory

variable {R : Type} {format : RecordFormat R} {extent : Extent R}

namespace Extent

/-- The records with numbers up to a given one. -/
def through (extent : Extent R) (number : Nat) : List R :=
  extent.records.take (number + 1 - extent.base)

theorem through_prefix (extent : Extent R) (number : Nat) :
    extent.through number <+: extent.records :=
  take_prefix _ _

end Extent

/-- The records of a log on disk, of which those up to a number are durable. -/
structure Laid (format : RecordFormat R) (initial durable : Nat) (directory : Directory)
    (before : List (Extent R)) (last : Extent R) : Prop where
  sound : ∀ extent ∈ before ++ [last], extent.Sound format
  nonempty : ∀ extent ∈ before, extent.records ≠ []
  chained : Segment.Chained initial ((before ++ [last]).map Extent.segment)
  present : ∀ base, directory.files base ≠ .absent →
    (directory.files base).store ≠ none ∧ ∃ extent ∈ before ++ [last], extent.base = base
  store : ∀ extent ∈ before ++ [last], ∀ file, (directory.files extent.base).store = some file →
    file.Within (storeImage format (extent.through durable)) (storeImage format extent.records)
  index : ∀ extent ∈ before ++ [last], ∀ file, (directory.files extent.base).index = some file →
    file.Within [] (indexImage format extent.records)
  whole : ∀ extent ∈ before, ∃ file, (directory.files extent.base).store = some file ∧
    file.linked = true ∧ file.content = storeImage format extent.records
  last_linked : last.base ≤ durable →
    ∃ file, (directory.files last.base).store = some file ∧ file.linked = true
  removed : directory.removed = []

namespace Segment

/-- Where the segment after the given ones has to begin. -/
def reach (expected : Nat) (segments : List Segment) : Nat :=
  segments.foldl (fun _ segment => segment.next) expected

theorem chained_append {a b : List Segment} {expected : Nat} :
    Chained expected (a ++ b) ↔ Chained expected a ∧ Chained (reach expected a) b := by
  induction a generalizing expected with
  | nil => simp [Chained, reach]
  | cons segment a ih =>
    rw [cons_append, Chained, Chained, ih, and_assoc]
    rfl

end Segment

namespace Segment.Chained

variable {segments : List Segment} {expected : Nat}

theorem le_base (hChained : Chained expected segments) (hOrder : ∀ s ∈ segments, s.base ≤ s.next)
    {segment : Segment} (hMem : segment ∈ segments) : expected ≤ segment.base := by
  induction segments generalizing expected with
  | nil => cases hMem
  | cons first rest ih =>
    rcases mem_cons.1 hMem with rfl | hRest
    · exact Nat.le_of_eq hChained.1.symm
    · have hNext := ih hChained.2 (fun s hs => hOrder s (mem_cons_of_mem _ hs)) hRest
      have hFirst := hOrder first mem_cons_self
      have hBase := hChained.1
      omega

end Segment.Chained

theorem Extent.base_le_next (extent : Extent R) : extent.segment.base ≤ extent.segment.next :=
  Nat.le_add_right _ _

/-- The bases of a chain of nonempty extents increase. -/
theorem pairwise_base {initial : Nat} {before : List (Extent R)} {last : Extent R}
    (hChained : Segment.Chained initial ((before ++ [last]).map Extent.segment))
    (hNonempty : ∀ extent ∈ before, extent.records ≠ []) :
    (before ++ [last]).Pairwise fun a b => a.next ≤ b.base ∧ a.base < b.base := by
  induction before generalizing initial with
  | nil => simp
  | cons first before ih =>
    rw [cons_append, map_cons] at hChained
    rw [cons_append, pairwise_cons]
    refine ⟨fun extent hMem => ?_, ih hChained.2 fun e he => hNonempty e (mem_cons_of_mem _ he)⟩
    have hLe : first.next ≤ extent.base := by
      refine hChained.2.le_base ?_ (mem_map.2 ⟨extent, hMem, rfl⟩)
      intro s hs
      obtain ⟨e, -, rfl⟩ := mem_map.1 hs
      exact e.base_le_next
    have hPos : 0 < first.records.length :=
      length_pos_iff.2 (hNonempty first mem_cons_self)
    rw [Extent.next] at hLe
    exact ⟨hLe, by omega⟩

namespace Laid

variable {initial durable : Nat} {directory directory' : Directory} {before : List (Extent R)}
  {last : Extent R}

theorem mem_last : last ∈ before ++ [last] := by
  simp

section

variable (h : Laid format initial durable directory before last) {a b : Extent R}
include h

theorem pairwise : (before ++ [last]).Pairwise fun a b => a.next ≤ b.base ∧ a.base < b.base :=
  pairwise_base h.chained h.nonempty

theorem base_lt_last (hMem : extent ∈ before) : extent.base < last.base :=
  ((pairwise_append.1 h.pairwise).2.2 extent hMem last mem_cons_self).2

/-- A segment with another one behind it is not the last. -/
theorem mem_before (ha : a ∈ before ++ [last]) (hb : b ∈ before ++ [last]) (hLt : a.base < b.base) :
    a ∈ before := by
  rcases mem_append.1 ha with hIn | hLast
  · exact hIn
  · rw [mem_singleton.1 hLast] at hLt
    rcases mem_append.1 hb with hIn | hEq
    · exact absurd (h.base_lt_last hIn) (Nat.lt_asymm hLt)
    · rw [mem_singleton.1 hEq] at hLt
      exact absurd hLt (Nat.lt_irrefl _)

/-- Of two segments one ends before the other begins. -/
theorem disjoint (ha : a ∈ before ++ [last]) (hb : b ∈ before ++ [last]) (hNe : a ≠ b) :
    (a.next ≤ b.base ∧ a.base < b.base) ∨ (b.next ≤ a.base ∧ b.base < a.base) := by
  obtain ⟨i, hi, rfl⟩ := getElem_of_mem ha
  obtain ⟨j, hj, rfl⟩ := getElem_of_mem hb
  have hOrder := pairwise_iff_getElem.1 h.pairwise
  rcases Nat.lt_trichotomy i j with hij | rfl | hij
  · exact Or.inl (hOrder i j hi hj hij)
  · exact absurd rfl hNe
  · exact Or.inr (hOrder j i hj hi hij)

theorem eq_of_base_eq (ha : a ∈ before ++ [last]) (hb : b ∈ before ++ [last])
    (hBase : a.base = b.base) : a = b := by
  by_contra hNe
  rcases h.disjoint ha hb hNe with hLt | hLt <;> omega

/-- Once every segment with records is durable, so is the last record. -/
theorem next_le_of_all {bound : Nat}
    (hAll : ∀ extent ∈ before ++ [last], extent.records ≠ [] → extent.next ≤ bound)
    (hInitial : initial ≤ bound) : last.next ≤ bound := by
  by_cases hNone : last.records = []
  · have hEmpty : last.next = last.base := by simp [Extent.next, hNone]
    have hChained := h.chained
    rw [map_append, chained_append] at hChained
    have hBase : last.base = reach initial (before.map Extent.segment) := hChained.2.1
    rcases eq_nil_or_concat before with rfl | ⟨front, previous, rfl⟩
    · rw [hEmpty, hBase]
      exact hInitial
    · have hReach : last.base = previous.next := by
        rw [hBase]
        simp [reach, Extent.segment]
      rw [hEmpty, hReach]
      exact hAll previous (by simp) (h.nonempty previous (by simp))
  · exact hAll last mem_last hNone

/-- Changing the files of one segment. -/
theorem update (hMem : extent ∈ before ++ [last]) {store : File} {index : Option File}
    (hFiles : directory'.files = Function.update directory.files extent.base ⟨some store, index⟩)
    (hRemoved : directory'.removed = [])
    (hStore : store.Within (storeImage format (extent.through durable))
      (storeImage format extent.records))
    (hIndex : ∀ file, index = some file → file.Within [] (indexImage format extent.records))
    (hWhole : extent ∈ before → store.linked = true ∧
      store.content = storeImage format extent.records)
    (hLinked : last.base ≤ durable → extent = last → store.linked = true) :
    Laid format initial durable directory' before last := by
  have hBase : directory'.files extent.base = ⟨some store, index⟩ := by
    rw [hFiles, update_self]
  have hOther : ∀ base, base ≠ extent.base → directory'.files base = directory.files base := by
    intro base hNe
    rw [hFiles, update_of_ne hNe]
  have hSame : ∀ e ∈ before ++ [last], e ≠ extent →
      directory'.files e.base = directory.files e.base := fun e he hNe =>
    hOther _ fun hEq => hNe (h.eq_of_base_eq he hMem hEq)
  refine ⟨h.sound, h.nonempty, h.chained, ?_, ?_, ?_, ?_, ?_, hRemoved⟩
  · intro base hPresent
    by_cases hEq : base = extent.base
    · subst hEq
      exact ⟨by simp [hBase], extent, hMem, rfl⟩
    · rw [hOther base hEq] at hPresent ⊢
      exact h.present base hPresent
  · intro e he file hFile
    by_cases hEq : e = extent
    · subst hEq
      obtain rfl : store = file := by simpa [hBase] using hFile
      exact hStore
    · exact h.store e he file (by rwa [hSame e he hEq] at hFile)
  · intro e he file hFile
    by_cases hEq : e = extent
    · subst hEq
      exact hIndex file (by simpa [hBase] using hFile)
    · exact h.index e he file (by rwa [hSame e he hEq] at hFile)
  · intro e he
    by_cases hEq : e = extent
    · subst hEq
      exact ⟨store, by rw [hBase], hWhole he⟩
    · rw [hSame e (mem_append_left _ he) hEq]
      exact h.whole e he
  · intro hDurable
    by_cases hEq : last = extent
    · subst hEq
      exact ⟨store, by rw [hBase], hLinked hDurable rfl⟩
    · rw [hSame last (by simp) hEq]
      exact h.last_linked hDurable

/-- Synchronizing the directory. -/
theorem link (hFiles : directory'.files = fun b => (directory.files b).link)
    (hRemoved : directory'.removed = []) : Laid format initial durable directory' before last := by
  have hStore : ∀ base file', (directory'.files base).store = some file' →
      ∃ file, (directory.files base).store = some file ∧ file' = file.link := by
    intro base file' hFile
    rw [hFiles] at hFile
    obtain ⟨file, hOld, rfl⟩ := Option.map_eq_some_iff.1 hFile
    exact ⟨file, hOld, rfl⟩
  have hLink : ∀ base file, (directory.files base).store = some file →
      (directory'.files base).store = some file.link := by
    intro base file hFile
    rw [hFiles]
    simp [SegmentFiles.link, hFile]
  refine ⟨h.sound, h.nonempty, h.chained, ?_, ?_, ?_, ?_, ?_, hRemoved⟩
  · intro base hPresent
    have hOld : directory.files base ≠ .absent := by
      intro hAbsent
      rw [hFiles] at hPresent
      exact hPresent (by simp [hAbsent, SegmentFiles.link, SegmentFiles.absent])
    obtain ⟨hSome, hExtent⟩ := h.present base hOld
    obtain ⟨file, hFile⟩ := Option.ne_none_iff_exists'.1 hSome
    exact ⟨by simp [hLink base file hFile], hExtent⟩
  · intro e he file' hFile
    obtain ⟨file, hOld, rfl⟩ := hStore _ _ hFile
    exact (h.store e he file hOld).link
  · intro e he file' hFile
    rw [hFiles] at hFile
    obtain ⟨file, hOld, rfl⟩ := Option.map_eq_some_iff.1 hFile
    exact (h.index e he file hOld).link
  · intro e he
    obtain ⟨file, hFile, -, hContent⟩ := h.whole e he
    exact ⟨file.link, hLink _ _ hFile, rfl, hContent⟩
  · intro hDurable
    obtain ⟨file, hFile, -⟩ := h.last_linked hDurable
    exact ⟨file.link, hLink _ _ hFile, rfl⟩

/-- A segment that is being repaired or extended. -/
theorem of_partly (hMem : extent ∈ before ++ [last]) {kept : Nat} {store index store' index' : File}
    (hFiles : directory.files extent.base = ⟨some store, some index⟩)
    (hPartly : Partly format extent kept directory directory' store' index')
    (hKept : min extent.records.length (durable + 1 - extent.base) ≤ kept)
    (hWhole : extent ∈ before → extent.records.length ≤ kept) :
    Laid format initial durable directory' before last := by
  have hStore := hPartly.store_follows store (by rw [hFiles])
  have hIndex := hPartly.index_follows index (by rw [hFiles])
  have hLow : storeImage format (extent.through durable) <+:
      storeImage format (extent.records.take kept) := by
    apply storeImage_isPrefix
    rw [Extent.through, take_eq_take_min, Nat.min_comm]
    exact take_prefix_take_left hKept
  have hOld : (directory.files extent.base).store = some store := by rw [hFiles]
  refine h.update hMem hPartly.at_base.files (hPartly.at_base.removed.trans h.removed) ?_ ?_ ?_ ?_
  · exact (h.store extent hMem store hOld).of_follows hStore hLow prefix_rfl
  · intro file hFile
    obtain rfl : index' = file := Option.some.inj hFile
    exact (h.index extent hMem index (by rw [hFiles])).of_follows hIndex prefix_rfl
      prefix_rfl
  · intro hBefore
    obtain ⟨file, hFile, hLinked, -⟩ := h.whole extent hBefore
    obtain rfl : store = file := by simpa [hFiles] using hFile
    refine ⟨hStore.linked.trans hLinked, ?_⟩
    have hAll := hPartly.kept_prefix
    rw [take_of_length_le (hWhole hBefore)] at hAll
    exact hPartly.store_prefix.eq_of_length_le hAll.length_le
  · rintro hDurable rfl
    obtain ⟨file, hFile, hLinked⟩ := h.last_linked hDurable
    obtain rfl : store = file := by simpa [hFiles] using hFile
    exact hStore.linked.trans hLinked

/-- The last segment is about to get one more record. -/
theorem grow {record : R} (hSound : (last.push record).Sound format)
    (hDurable : durable < last.next) :
    Laid format initial durable directory before (last.push record) := by
  have hCases : ∀ e ∈ before ++ [last.push record], e ∈ before ∨ e = last.push record := by
    intro e he
    simpa using he
  have hThrough : (last.push record).through durable = last.through durable := by
    rw [Extent.next] at hDurable
    change (last.records ++ [record]).take (durable + 1 - last.base) = _
    rw [take_append_of_le_length (by omega)]
    rfl
  have hRecords : last.records <+: (last.push record).records := prefix_append _ _
  refine ⟨?_, h.nonempty, ?_, ?_, ?_, ?_, h.whole, h.last_linked, h.removed⟩
  · intro e he
    rcases hCases e he with hBefore | rfl
    · exact h.sound e (mem_append_left _ hBefore)
    · exact hSound
  · have hChained := h.chained
    rw [map_append, chained_append] at hChained ⊢
    exact ⟨hChained.1, hChained.2.1, trivial⟩
  · intro base hPresent
    obtain ⟨hStore, e, he, rfl⟩ := h.present base hPresent
    refine ⟨hStore, ?_⟩
    rcases mem_append.1 he with hBefore | hLast
    · exact ⟨e, mem_append_left _ hBefore, rfl⟩
    · exact ⟨last.push record, by simp, by rw [mem_singleton.1 hLast]; rfl⟩
  · intro e he file hFile
    rcases hCases e he with hBefore | rfl
    · exact h.store e (mem_append_left _ hBefore) file hFile
    · rw [hThrough]
      exact (h.store last mem_last file hFile).mono prefix_rfl
        (storeImage_isPrefix format hRecords)
  · intro e he file hFile
    rcases hCases e he with hBefore | rfl
    · exact h.index e (mem_append_left _ hBefore) file hFile
    · exact (h.index last mem_last file hFile).mono prefix_rfl
        (indexImage_isPrefix format hRecords)

/-- A new segment is about to be started behind a complete one. -/
theorem roll {records : List R} (hSound : Extent.Sound format ⟨last.next, records⟩)
    (hDurable : durable < last.next) (hNonempty : last.records ≠ [])
    (hWhole : ∃ file, (directory.files last.base).store = some file ∧ file.linked = true ∧
      file.content = storeImage format last.records) :
    directory.files last.next = .absent ∧
      Laid format initial durable directory (before ++ [last]) ⟨last.next, records⟩ := by
  have hCases : ∀ e ∈ (before ++ [last]) ++ [⟨last.next, records⟩],
      e ∈ before ++ [last] ∨ e = ⟨last.next, records⟩ := by
    intro e he
    simpa [or_assoc] using he
  have hAbsent : directory.files last.next = .absent := by
    by_contra hPresent
    obtain ⟨-, e, he, hBase⟩ := h.present _ hPresent
    have hPos : 0 < last.records.length := length_pos_iff.2 hNonempty
    have hLt : last.base < last.next := by
      rw [Extent.next]
      omega
    rcases mem_append.1 he with hBefore | hLast
    · have hBelow := h.base_lt_last hBefore
      omega
    · rw [mem_singleton.1 hLast] at hBase
      omega
  refine ⟨hAbsent, ?_, ?_, ?_, ?_, ?_, ?_, ?_, ?_, h.removed⟩
  · intro e he
    rcases hCases e he with hOld | rfl
    · exact h.sound e hOld
    · exact hSound
  · intro e he
    rcases mem_append.1 he with hBefore | hLast
    · exact h.nonempty e hBefore
    · rwa [mem_singleton.1 hLast]
  · rw [map_append, chained_append]
    refine ⟨h.chained, ?_, trivial⟩
    simp [reach, Extent.segment]
  · intro base hPresent
    obtain ⟨hStore, e, he, hBase⟩ := h.present base hPresent
    exact ⟨hStore, e, mem_append_left _ he, hBase⟩
  · intro e he file hFile
    rcases hCases e he with hOld | rfl
    · exact h.store e hOld file hFile
    · simp [hAbsent, SegmentFiles.absent] at hFile
  · intro e he file hFile
    rcases hCases e he with hOld | rfl
    · exact h.index e hOld file hFile
    · simp [hAbsent, SegmentFiles.absent] at hFile
  · intro e he
    rcases mem_append.1 he with hBefore | hLast
    · exact h.whole e hBefore
    · rwa [mem_singleton.1 hLast]
  · intro hLe
    exact absurd hDurable (Nat.not_lt_of_le hLe)

/-- More records count as durable once their stores are synchronized. -/
theorem raise {durable' : Nat}
    (hStore : ∀ extent ∈ before ++ [last], ∀ file, (directory.files extent.base).store = some file →
      storeImage format (extent.through durable') <+: storeImage format (extent.through durable) ∨
      file.unsynced = [] ∧ file.content = storeImage format extent.records)
    (hLinked : last.base ≤ durable' →
      ∃ file, (directory.files last.base).store = some file ∧ file.linked = true) :
    Laid format initial durable' directory before last := by
  refine ⟨h.sound, h.nonempty, h.chained, h.present, ?_, h.index, h.whole, hLinked, h.removed⟩
  intro e he file hFile
  rcases hStore e he file hFile with hSame | ⟨hSynced, hContent⟩
  · exact (h.store e he file hFile).mono hSame prefix_rfl
  · apply File.within_of_synced hSynced
    · rw [hContent]
      exact storeImage_isPrefix format (e.through_prefix _)
    · rw [hContent]

end

section Survivors

/-- Records that are complete in a store are among the complete ones. -/
theorem le_of_storeImage_prefix (hSound : extent.Sound format) {count kept : Nat}
    {tail : List UInt8} (hTail : splitFrame tail = none)
    (hPrefix : storeImage format (extent.records.take count) <+:
      storeImage format (extent.records.take kept) ++ tail) :
    min extent.records.length count ≤ kept := by
  by_contra hMore
  have hLt : kept < extent.records.length := by omega
  have hFirst :
      extent.records.take kept ++ [extent.records[kept]] <+: extent.records.take count := by
    rw [take_append_getElem]
    exact take_prefix_take_left (by omega)
  have hFrame := (storeImage_isPrefix format hFirst).trans hPrefix
  rw [storeImage_append, prefix_append_right_inj] at hFrame
  obtain ⟨rest, hRest⟩ := hFrame
  have hFramable : Framable (format.payload extent.records[kept]) :=
    (hSound.storable _ (getElem_mem hLt)).framable
  rw [← hRest, storeImage, map_singleton, frames_cons, frames_nil, append_nil,
    splitFrame_frame_append hFramable] at hTail
  cases hTail

variable (h : Laid format initial durable directory before last)
  (hLoss : PowerLoss directory directory')
include h hLoss

theorem origin {name : FileName} {left : File} (hLeft : directory'.file name = some left) :
    ∃ file bytes, directory.file name = some file ∧ file.Keeps bytes ∧ left = .durable bytes := by
  obtain ⟨file, bytes, hFile, hKeeps, rfl⟩ := hLoss.origin _ _ hLeft
  rw [h.removed] at hFile
  exact ⟨file, bytes, hFile.resolve_right not_mem_nil, hKeeps, rfl⟩

/-- Only segments of the layout have a store. -/
theorem exists_extent {base : Nat} (hStore : (directory'.files base).store ≠ none) :
    ∃ extent ∈ before ++ [last], extent.base = base := by
  obtain ⟨left, hLeft⟩ := Option.ne_none_iff_exists'.1 hStore
  obtain ⟨file, -, hFile, -⟩ := h.origin hLoss (show directory'.file ⟨base, .store⟩ = _ from hLeft)
  refine (h.present base fun hAbsent => ?_).2
  simp [Directory.file, SegmentFiles.get, hAbsent, SegmentFiles.absent] at hFile

/-- What survives of one store. -/
theorem exists_cut (hMem : extent ∈ before ++ [last])
    (hStore : (directory'.files extent.base).store ≠ none) :
    ∃ kept, Cut format directory' extent kept ∧
      min extent.records.length (durable + 1 - extent.base) ≤ kept ∧
      (kept = extent.records.length ↔
        directory'.content ⟨extent.base, .store⟩ = storeImage format extent.records) := by
  have hSound := h.sound extent hMem
  obtain ⟨left, hLeft⟩ : ∃ left, directory'.file ⟨extent.base, .store⟩ = some left :=
    Option.ne_none_iff_exists'.1 hStore
  obtain ⟨file, bytes, hFile, hKeeps, rfl⟩ := h.origin hLoss hLeft
  obtain ⟨hLow, hHigh⟩ := h.store extent hMem file hFile bytes hKeeps
  obtain ⟨kept, tail, hKept, hContent, hTail, hFull⟩ :=
    exists_store_of_isPrefix hSound hHigh
  have hLeftContent : directory'.content ⟨extent.base, .store⟩ = bytes := by
    simp only [Directory.content, hLeft, File.content_durable]
  have hCount : (Store.inspectFile bytes).recordCount = kept := by
    have hScan := store_inspectFile (hSound.take kept) hTail
    rw [hContent, hScan]
    simpa using hKept
  refine ⟨kept, ⟨hSound, hKept, ⟨_, tail, hLeft, hContent, hTail, hHigh⟩, ?_⟩, ?_, ?_⟩
  · intro index' hIndex'
    obtain ⟨index, bytes', hIndex, hKeeps', rfl⟩ :=
      h.origin hLoss (show directory'.file ⟨extent.base, .index⟩ = _ from hIndex')
    exact (h.index extent hMem index hIndex bytes' hKeeps').2
  · rw [hContent] at hLow
    exact le_of_storeImage_prefix hSound hTail hLow
  · rw [hLeftContent]
    constructor
    · intro hAll
      rw [hContent, hFull hAll, hAll, take_length, append_nil]
    · intro hImage
      rw [hImage, store_inspectFile_image hSound] at hCount
      exact hCount.symm

end Survivors

end Laid

/-- What a power loss left of a log: the segments with a store, each with the number of its
complete records. -/
structure Survivors (format : RecordFormat R) (durable : Nat) (before : List (Extent R))
    (last : Extent R) (directory : Directory) (cuts : List (Extent R × Nat)) : Prop where
  remains : Remains format directory cuts
  extents : cuts.map Prod.fst = before ∨ cuts.map Prod.fst = before ++ [last]
  last_kept : last.base ≤ durable → cuts.map Prod.fst = before ++ [last]
  kept : ∀ cut ∈ cuts, min cut.1.records.length (durable + 1 - cut.1.base) ≤ cut.2
  whole : ∀ cut ∈ cuts, cut.2 = cut.1.records.length ↔
    directory.content ⟨cut.1.base, .store⟩ = storeImage format cut.1.records

section Loss

variable {initial durable : Nat} {directory directory' : Directory} {before : List (Extent R)}
  {last : Extent R} {cuts : List (Extent R × Nat)}

theorem Laid.survivors (h : Laid format initial durable directory before last)
    (hLoss : PowerLoss directory directory')
    (hStores : ∀ base, directory'.files base ≠ .absent → (directory'.files base).store ≠ none) :
    ∃ cuts, Survivors format durable before last directory' cuts := by
  choose! kept hKept using fun (extent : Extent R) hMem hStore => h.exists_cut hLoss hMem hStore
  have hWhole : ∀ extent ∈ before, (directory'.files extent.base).store ≠ none := by
    intro extent hMem
    obtain ⟨file, hFile, hLinked, -⟩ := h.whole extent hMem
    exact hLoss.store_ne_none hFile hLinked
  -- the segments left are all of them, or all but one that was just being created
  have hBuild : ∀ left : List (Extent R), left.Sublist (before ++ [last]) →
      (∀ extent, extent ∈ left ↔
        extent ∈ before ++ [last] ∧ (directory'.files extent.base).store ≠ none) →
      (left = before ∨ left = before ++ [last]) → (last.base ≤ durable → left = before ++ [last]) →
      Survivors format durable before last directory'
        (left.map fun extent => (extent, kept extent)) := by
    intro left hSub hLeft hExtents hLastKept
    have hFst : (left.map fun extent => (extent, kept extent)).map Prod.fst = left := by
      simp [comp_def]
    refine ⟨⟨?_, ?_⟩, by rwa [hFst], by rwa [hFst], ?_, ?_⟩
    · rw [map_map]
      apply bases_eq
      · rw [pairwise_map]
        exact (h.pairwise.sublist hSub).imp fun hLt => hLt.2
      · intro base
        simp only [mem_map, comp_apply]
        constructor
        · rintro ⟨extent, hMem, rfl⟩ hAbsent
          exact ((hLeft extent).1 hMem).2 (by rw [hAbsent]; rfl)
        · intro hPresent
          have hSome := hStores base hPresent
          obtain ⟨extent, hMem, rfl⟩ := h.exists_extent hLoss hSome
          exact ⟨extent, (hLeft extent).2 ⟨hMem, hSome⟩, rfl⟩
    all_goals
      intro cut hCut
      obtain ⟨extent, hMem, rfl⟩ := mem_map.1 hCut
      obtain ⟨hIn, hStore⟩ := (hLeft extent).1 hMem
      obtain ⟨hCutOff, hEnough, hFull⟩ := hKept extent hIn hStore
      assumption
  by_cases hLast : (directory'.files last.base).store = none
  · refine ⟨_, hBuild before (sublist_append_left _ _) ?_ (Or.inl rfl) ?_⟩
    · intro extent
      constructor
      · exact fun hMem => ⟨mem_append_left _ hMem, hWhole extent hMem⟩
      · rintro ⟨hMem, hSome⟩
        rcases mem_append.1 hMem with hBefore | hEq
        · exact hBefore
        · rw [mem_singleton.1 hEq] at hSome
          exact absurd hLast hSome
    · intro hDurable
      obtain ⟨file, hFile, hLinked⟩ := h.last_linked hDurable
      exact absurd hLast (hLoss.store_ne_none hFile hLinked)
  · refine ⟨_, hBuild (before ++ [last]) (List.Sublist.refl _) ?_ (Or.inr rfl) fun _ => rfl⟩
    intro extent
    refine ⟨fun hMem => ⟨hMem, ?_⟩, fun hMem => hMem.1⟩
    rcases mem_append.1 hMem with hBefore | hEq
    · exact hWhole extent hBefore
    · rwa [mem_singleton.1 hEq]

/-- Cut segments are chained when only the last of them was cut short. -/
theorem chained_cuts_iff
    (hChained : Segment.Chained initial ((cuts.map Prod.fst).map Extent.segment)) :
    Segment.Chained initial (cuts.map ofCut) ↔
      ∀ cut ∈ cuts.dropLast, cut.2 = cut.1.records.length := by
  induction cuts generalizing initial with
  | nil => simp [Segment.Chained]
  | cons cut rest ih =>
    obtain ⟨hBase, hRest⟩ := hChained
    cases rest with
    | nil => exact ⟨fun _ _ hNone => absurd hNone not_mem_nil, fun _ => ⟨hBase, trivial⟩⟩
    | cons next rest =>
      have hNext : next.1.base = cut.1.base + cut.1.records.length := hRest.1
      rw [map_cons, Segment.Chained, dropLast_cons_cons, forall_mem_cons]
      constructor
      · rintro ⟨-, hTail⟩
        have hReach : next.1.base = cut.1.base + cut.2 := hTail.1
        have hFull : cut.2 = cut.1.records.length := by omega
        refine ⟨hFull, (ih hRest).1 ?_⟩
        have hEnd : (ofCut cut).next = cut.1.segment.next := by
          simp [ofCut, Extent.segment, Extent.next, hFull]
        rwa [hEnd] at hTail
      · rintro ⟨hFull, hOthers⟩
        have hEnd : (ofCut cut).next = cut.1.segment.next := by
          simp [ofCut, Extent.segment, Extent.next, hFull]
        rw [hEnd]
        exact ⟨hBase, (ih hRest).2 hOthers⟩

/-- What a chain of cut segments holds is a beginning of what was written. -/
theorem surviving_isPrefix (hFull : ∀ cut ∈ cuts.dropLast, cut.2 = cut.1.records.length) :
    surviving cuts <+: (cuts.map Prod.fst).flatMap Extent.records := by
  induction cuts with
  | nil => exact prefix_rfl
  | cons cut rest ih =>
    cases rest with
    | nil => simpa [surviving] using take_prefix _ _
    | cons next rest =>
      rw [dropLast_cons_cons, forall_mem_cons] at hFull
      have hRest := ih hFull.2
      rw [surviving, flatMap_cons, hFull.1, take_length, map_cons, flatMap_cons]
      exact (prefix_append_right_inj _).2 hRest

namespace Survivors

variable (hSurvivors : Survivors format durable before last directory' cuts)
include hSurvivors

theorem mem_extents {cut : Extent R × Nat} (hCut : cut ∈ cuts) : cut.1 ∈ before ++ [last] := by
  have hMem : cut.1 ∈ cuts.map Prod.fst := mem_map.2 ⟨cut, hCut, rfl⟩
  rcases hSurvivors.extents with hEq | hEq
  · rw [hEq] at hMem
    exact mem_append_left _ hMem
  · rwa [hEq] at hMem

theorem exists_cut_of_mem_before (hMem : extent ∈ before) :
    ∃ cut ∈ cuts, cut.1 = extent := by
  apply mem_map.1
  rcases hSurvivors.extents with hEq | hEq
  · rwa [hEq]
  · rw [hEq]
    exact mem_append_left _ hMem

theorem chained_extents (h : Laid format initial durable directory before last) :
    Segment.Chained initial ((cuts.map Prod.fst).map Extent.segment) := by
  have hChained := h.chained
  rcases hSurvivors.extents with hEq | hEq
  · rw [map_append, chained_append] at hChained
    rw [hEq]
    exact hChained.1
  · rwa [hEq]

theorem mem_surviving (hMem : extent ∈ before ++ [last]) {record : R}
    (hRecord : record ∈ extent.through durable) : record ∈ surviving cuts := by
  have hCut : ∃ cut ∈ cuts, cut.1 = extent := by
    rcases mem_append.1 hMem with hBefore | hLast
    · exact hSurvivors.exists_cut_of_mem_before hBefore
    · obtain rfl := mem_singleton.1 hLast
      have hDurable : extent.base ≤ durable := by
        by_contra hAbove
        have hZero : durable + 1 - extent.base = 0 := by omega
        rw [Extent.through, hZero] at hRecord
        simp at hRecord
      apply mem_map.1
      rw [hSurvivors.last_kept hDurable]
      exact Laid.mem_last
  obtain ⟨cut, hIn, rfl⟩ := hCut
  refine mem_flatMap.2 ⟨cut, hIn, ?_⟩
  rw [Extent.through, take_eq_take_min, Nat.min_comm] at hRecord
  exact (take_prefix_take_left (hSurvivors.kept cut hIn)).subset hRecord

/-- The surviving segments are chained exactly when no store before one of them was cut. -/
theorem gapless_iff (h : Laid format initial durable directory before last)
    (hStores : ∀ base, directory'.files base ≠ .absent → (directory'.files base).store ≠ none) :
    Gapless directory directory' ↔ Segment.Chained initial (cuts.map ofCut) := by
  have hPairwise : cuts.Pairwise fun a b => a.1.base < b.1.base := by
    have hSorted := directory'.pairwise_bases
    rwa [hSurvivors.remains.bases, pairwise_map] at hSorted
  have hContent : ∀ extent ∈ before,
      directory.content ⟨extent.base, .store⟩ = storeImage format extent.records := by
    intro extent hMem
    obtain ⟨file, hFile, -, hImage⟩ := h.whole extent hMem
    simp only [Directory.content, Directory.file, SegmentFiles.get, hFile, hImage]
  have hPresent : ∀ cut ∈ cuts, directory'.files cut.1.base ≠ .absent := by
    intro cut hCut
    rw [← mem_bases, hSurvivors.remains.bases]
    exact mem_map.2 ⟨cut, hCut, rfl⟩
  rw [chained_cuts_iff (hSurvivors.chained_extents h)]
  rcases eq_nil_or_concat cuts with rfl | ⟨others, final, rfl⟩
  · refine ⟨fun _ _ hNone => absurd hNone not_mem_nil, fun _ base hBase => ?_⟩
    rw [← mem_bases, hSurvivors.remains.bases] at hBase
    cases hBase
  · simp only [concat_eq_append] at hSurvivors hPairwise hPresent ⊢
    rw [dropLast_concat]
    have hFinal : final ∈ others ++ [final] := by simp
    constructor
    · intro hGapless cut hCut
      have hIn : cut ∈ others ++ [final] := mem_append_left _ hCut
      have hLt : cut.1.base < final.1.base :=
        (pairwise_append.1 hPairwise).2.2 cut hCut final mem_cons_self
      have hMem := h.mem_before (hSurvivors.mem_extents hIn) (hSurvivors.mem_extents hFinal) hLt
      obtain ⟨file, hFile, -⟩ := h.whole cut.1 hMem
      have hOld : directory.files cut.1.base ≠ .absent := by
        intro hAbsent
        rw [hAbsent] at hFile
        cases hFile
      refine (hSurvivors.whole cut hIn).2 ?_
      rw [(hGapless final.1.base (hPresent final hFinal)).2 cut.1.base hLt hOld]
      exact hContent cut.1 hMem
    · intro hFull base hBase
      refine ⟨hStores base hBase, fun earlier hLt hEarlier => ?_⟩
      rw [← mem_bases, hSurvivors.remains.bases] at hBase
      obtain ⟨later, hLater, rfl⟩ := mem_map.1 hBase
      obtain ⟨-, extent, hExtent, rfl⟩ := h.present earlier hEarlier
      have hMem := h.mem_before hExtent (hSurvivors.mem_extents hLater) hLt
      obtain ⟨cut, hCut, rfl⟩ := hSurvivors.exists_cut_of_mem_before hMem
      have hOther : cut ∈ others := by
        rcases mem_append.1 hCut with hIn | hEq
        · exact hIn
        · rw [mem_singleton.1 hEq] at hLt
          rcases mem_append.1 hLater with hIn | hSame
          · have hBelow := (pairwise_append.1 hPairwise).2.2 later hIn final mem_cons_self
            exact absurd hBelow (Nat.lt_asymm hLt)
          · rw [mem_singleton.1 hSame] at hLt
            exact absurd hLt (Nat.lt_irrefl _)
      rw [(hSurvivors.whole cut hCut).1 (hFull cut hOther)]
      exact (hContent cut.1 hMem).symm

end Survivors

end Loss

end Stoneleaf
