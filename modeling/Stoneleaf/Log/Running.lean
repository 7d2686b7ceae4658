import Stoneleaf.Log.Layout

/-!
A log that is open for writing: its layout, with every segment complete. Each file operation
sequence of the segments (a new segment, a new record, a synchronization) leads from one such
state to another and passes only through layouts.
-/

namespace Stoneleaf

open Library Program List Function File Extent

variable {R : Type} {format : RecordFormat R} {directory : Directory}

/-- The directory of a log that is open. -/
structure Running (format : RecordFormat R) (initial durable : Nat) (directory : Directory)
    (before : List (Extent R)) (last : Extent R) : Prop
    extends Laid format initial durable directory before last where
  held : ∀ extent ∈ before ++ [last], Held format directory extent
  linked : ∃ file, (directory.files last.base).store = some file ∧ file.linked = true
  durable_lt : durable < last.next

/-- Fewer records may be asked to be durable. -/
theorem Laid.lower {initial durable durable' : Nat} {before : List (Extent R)} {last : Extent R}
    (h : Laid format initial durable directory before last) (hLe : durable' ≤ durable) :
    Laid format initial durable' directory before last := by
  refine ⟨h.sound, h.nonempty, h.chained, h.present, ?_, h.index, h.whole,
    fun hLast => h.last_linked (hLast.trans hLe), h.removed⟩
  intro extent hMem file hFile
  refine (h.store extent hMem file hFile).mono (storeImage_isPrefix format ?_) prefix_rfl
  exact take_prefix_take_left (by omega)

namespace Running

variable {initial durable : Nat} {before : List (Extent R)} {last : Extent R} {record : R}
  {disk : Disk}

theorem whole_last (h : Running format initial durable disk.directory before last) :
    ∃ file, (disk.directory.files last.base).store = some file ∧ file.linked = true ∧
      file.content = storeImage format last.records := by
  obtain ⟨file, hFile, hLinked⟩ := h.linked
  obtain ⟨store, index, hFiles, hStore, -⟩ := (h.held last Laid.mem_last).files
  obtain rfl : store = file := by simpa [hFiles] using hFile
  exact ⟨store, hFile, hLinked, hStore⟩

/-- When the last record is durable, all are. -/
theorem through_all (h : Running format initial (last.next - 1) directory before last)
    {extent : Extent R} (hMem : extent ∈ before ++ [last]) :
    extent.through (last.next - 1) = extent.records := by
  have hEnd : extent.next ≤ last.next := by
    rcases mem_append.1 hMem with hBefore | hLast
    · have hOrder := (pairwise_append.1 h.pairwise).2.2 extent hBefore last mem_cons_self
      exact hOrder.1.trans (Nat.le_add_right _ _)
    · rw [mem_singleton.1 hLast]
  apply take_of_length_le
  rw [Extent.next] at hEnd
  omega

/-- A directory with nothing but an empty first segment. -/
theorem of_created (hPos : 0 < initial) (hRemoved : directory.removed = [])
    (hFiles : directory.files = Function.update (fun _ => .absent) initial
      ⟨some (.durable []), some (.durable [])⟩) :
    Running format initial (initial - 1) directory [] ⟨initial, []⟩ := by
  have hSound : Extent.Sound format ⟨initial, []⟩ :=
    ⟨hPos, by simp, by simp, by simp, by simp [offsetsFrom]⟩
  have hBase : directory.files initial = ⟨some (.durable []), some (.durable [])⟩ := by
    rw [hFiles, update_self]
  have hLinked : ∃ file, (directory.files initial).store = some file ∧ file.linked = true :=
    ⟨_, by rw [hBase], rfl⟩
  have hOnly : ∀ extent ∈ ([] ++ [⟨initial, []⟩] : List (Extent R)), extent = ⟨initial, []⟩ := by
    simp
  have hLaid : Laid format initial (initial - 1) directory [] ⟨initial, []⟩ := by
    refine ⟨?_, by simp, ⟨rfl, trivial⟩, ?_, ?_, ?_, by simp, fun _ => hLinked, hRemoved⟩
    · intro extent hMem
      rw [hOnly extent hMem]
      exact hSound
    · intro base hPresent
      by_cases hEq : base = initial
      · subst hEq
        exact ⟨by simp [hBase], _, mem_singleton_self _, rfl⟩
      · rw [hFiles, update_of_ne hEq] at hPresent
        exact absurd rfl hPresent
    · intro extent hMem file hFile
      rw [hOnly extent hMem, hBase] at hFile
      obtain rfl : File.durable [] = file := Option.some.inj hFile
      rw [hOnly extent hMem]
      exact within_of_synced rfl (by simp [through, storeImage]) nil_prefix
    · intro extent hMem file hFile
      rw [hOnly extent hMem, hBase] at hFile
      obtain rfl : File.durable [] = file := Option.some.inj hFile
      exact within_of_synced rfl nil_prefix nil_prefix
  refine ⟨hLaid, ?_, hLinked, ?_⟩
  · intro extent hMem
    rw [hOnly extent hMem]
    exact ⟨hSound, _, _, hBase, rfl, rfl⟩
  · change _ < initial + 0
    omega

section

variable (h : Running format initial durable disk.directory before last)
include h

theorem create_spec (hNonempty : last.records ≠ []) {records : List R}
    (hSound : Extent.Sound format ⟨last.next, records⟩) :
    (Segment.create format last.next).Returns disk
      fun segment disk' => segment = ⟨last.next, last.next⟩ ∧
        Running format initial durable disk'.directory (before ++ [last]) ⟨last.next, []⟩ ∧
        Disk.Passes (fun directory => Laid format initial durable directory (before ++ [last])
          ⟨last.next, records⟩) disk disk' := by
  have hEmptySound : Extent.Sound format ⟨last.next, []⟩ := hSound.take 0
  obtain ⟨hAbsent, hRoll⟩ := h.roll hSound h.durable_lt hNonempty h.whole_last
  obtain ⟨-, hRollEmpty⟩ := h.roll hEmptySound h.durable_lt hNonempty h.whole_last
  have hLink := hRollEmpty.link disk.directory.files_link rfl
  refine wp_conseq (Segment.create_spec hAbsent) ?_
  rintro segment disk' ⟨rfl, hRemoved, hFiles, hPasses⟩
  have hNew : disk'.directory.files last.next = ⟨some (.durable []), some (.durable [])⟩ := by
    rw [hFiles, update_self]
  have hLaid : Laid format initial durable disk'.directory (before ++ [last]) ⟨last.next, []⟩ := by
    have hUpdated : disk'.directory.files = Function.update disk.directory.link.files last.next
        ⟨some (.durable []), some (.durable [])⟩ := by
      rw [hFiles, Directory.files_link]
    refine hLink.update Laid.mem_last hUpdated hRemoved ?_ ?_ ?_ ?_
    · exact within_of_synced rfl (by simp [through, storeImage]) nil_prefix
    · intro file hFile
      obtain rfl : File.durable [] = file := Option.some.inj hFile
      exact within_of_synced rfl nil_prefix nil_prefix
    · exact fun hMem => absurd (hLink.base_lt_last hMem) (Nat.lt_irrefl _)
    · exact fun _ _ => rfl
  refine ⟨rfl, ⟨hLaid, ?_, ⟨_, by rw [hNew], rfl⟩, h.durable_lt⟩, hPasses.mono ?_⟩
  · intro extent hMem
    rcases mem_append.1 hMem with hOld | hLast
    · refine (h.held extent hOld).of_resembles (Or.inr ?_)
      have hNe : extent.base ≠ last.next := Nat.ne_of_lt (hRoll.base_lt_last hOld)
      rw [hFiles, update_of_ne hNe]
    · rw [mem_singleton.1 hLast]
      exact ⟨hEmptySound, _, _, hNew, rfl, rfl⟩
  · rintro directory (rfl | ⟨hSame, index, hIndex, hCreating⟩)
    · exact hRoll
    · refine hRoll.update Laid.mem_last hCreating (hSame.trans h.removed) ?_ ?_ ?_ ?_
      · refine within_of_synced rfl ?_ nil_prefix
        have hZero : durable + 1 - last.next = 0 := by
          have hLt := h.durable_lt
          omega
        simp [through, hZero, storeImage]
      · rintro file rfl
        rcases hIndex with hNone | hSome
        · cases hNone
        · obtain rfl : file = .created := Option.some.inj hSome
          exact within_created _
      · exact fun hMem => absurd (hRoll.base_lt_last hMem) (Nat.lt_irrefl _)
      · exact fun hLe _ => absurd h.durable_lt (Nat.not_lt_of_le hLe)

theorem writeRecord_spec (hSound : (last.push record).Sound format) :
    (last.segment.writeRecord (format.payload record)).Returns disk
      fun segment disk' => segment = (last.push record).segment ∧
        Running format initial durable disk'.directory before (last.push record) ∧
        Disk.Passes (fun directory => Laid format initial durable directory before
          (last.push record)) disk disk' := by
  have hGrow := h.grow hSound h.durable_lt
  obtain ⟨store, index, hFiles, -⟩ := (h.held last Laid.mem_last).files
  have hLt := h.durable_lt
  rw [Extent.next] at hLt
  have hKept : min (last.push record).records.length (durable + 1 - last.base) ≤
      last.records.length := by omega
  have hNotBefore : last.push record ∈ before → (last.push record).records.length ≤
      last.records.length := fun hMem => absurd (hGrow.base_lt_last hMem) (Nat.lt_irrefl _)
  refine wp_conseq (Segment.writeRecord_spec (h.held last Laid.mem_last) hSound) ?_
  rintro segment disk' ⟨rfl, ⟨store', index', hWritten⟩, hPasses⟩
  have hNew : disk'.directory.files last.base = ⟨some store', some index'⟩ :=
    hWritten.at_base.files_base
  have hLaid := hGrow.of_partly Laid.mem_last hFiles hWritten.toPartly hKept hNotBefore
  refine ⟨rfl, ⟨hLaid, ?_, ?_, ?_⟩, hPasses.mono ?_⟩
  · intro extent hMem
    rcases mem_append.1 hMem with hBefore | hLast
    · refine (h.held extent (mem_append_left _ hBefore)).of_resembles (Or.inl ?_)
      rw [hWritten.at_base.files, update_of_ne (Nat.ne_of_lt (hGrow.base_lt_last hBefore))]
    · rw [mem_singleton.1 hLast]
      exact ⟨hSound, store', index', hNew, hWritten.store_content, hWritten.index_content⟩
  · obtain ⟨file, hFile, hLinked⟩ := h.linked
    refine ⟨store', congrArg SegmentFiles.store hNew, ?_⟩
    exact (hWritten.store_follows file hFile).linked.trans hLinked
  · rw [Extent.next, push, length_append]
    simp only [length_singleton]
    omega
  · rintro directory ⟨store'', index'', hPartly⟩
    exact hGrow.of_partly Laid.mem_last hFiles hPartly hKept hNotBefore

/-- Synchronizing a segment when all records before it are durable. -/
theorem sync_spec {extent : Extent R} (hMem : extent ∈ before ++ [last])
    (hNonempty : extent.records ≠ [])
    (hEarlier : ∀ earlier ∈ before ++ [last], earlier.base < extent.base →
      earlier.next ≤ durable + 1) :
    extent.segment.sync.Returns disk
      fun _ disk' => Running format initial (extent.next - 1) disk'.directory before last ∧
        Disk.Passes (fun directory => Laid format initial durable directory before last) disk
          disk' := by
  obtain ⟨store, index, hFiles, -⟩ := (h.held extent hMem).files
  have hPos : 0 < extent.records.length := length_pos_iff.2 hNonempty
  have hPass : ∀ {directory : Directory} {store' index' : File},
      Partly format extent extent.records.length disk.directory directory store' index' →
        Laid format initial durable directory before last := fun hPartly =>
    h.of_partly hMem hFiles hPartly (Nat.min_le_left _ _) fun _ => le_rfl
  refine wp_conseq (Segment.sync_spec (h.held extent hMem)) ?_
  rintro _ disk' ⟨store', index', hWritten, hStoreSynced, -, hPasses⟩
  have hNew : disk'.directory.files extent.base = ⟨some store', some index'⟩ :=
    hWritten.at_base.files_base
  have hOther : ∀ e ∈ before ++ [last], e ≠ extent →
      disk'.directory.files e.base = disk.directory.files e.base := by
    intro e he hNe
    rw [hWritten.at_base.files, update_of_ne]
    exact fun hEq => hNe (h.eq_of_base_eq he hMem hEq)
  have hLinked : ∃ file, (disk'.directory.files last.base).store = some file ∧
      file.linked = true := by
    obtain ⟨file, hFile, hLink⟩ := h.linked
    by_cases hEq : last = extent
    · subst hEq
      exact ⟨store', by rw [hNew], (hWritten.store_follows file hFile).linked.trans hLink⟩
    · rw [hOther last Laid.mem_last hEq]
      exact ⟨file, hFile, hLink⟩
  have hNext : extent.next = extent.base + extent.records.length := rfl
  have hLaid : Laid format initial (extent.next - 1) disk'.directory before last := by
    refine (hPass hWritten.toPartly).raise ?_ fun _ => hLinked
    intro e he file hFile
    by_cases hEq : e = extent
    · subst hEq
      obtain rfl : store' = file := by simpa [hNew] using hFile
      exact Or.inr ⟨hStoreSynced, hWritten.store_content⟩
    · refine Or.inl (storeImage_isPrefix format ?_)
      rcases h.disjoint he hMem hEq with hBelow | hAbove
      · -- all records of an earlier segment are durable already
        have hAll : e.base + e.records.length ≤ durable + 1 := hEarlier e he hBelow.2
        have hThrough : e.through durable = e.records := take_of_length_le (by omega)
        rw [hThrough]
        exact e.through_prefix _
      · have hZero : extent.next - 1 + 1 - e.base = 0 := by omega
        rw [through, hZero]
        exact nil_prefix
  refine ⟨⟨hLaid, ?_, hLinked, ?_⟩, hPasses.mono ?_⟩
  · intro e he
    by_cases hEq : e = extent
    · subst hEq
      exact ⟨h.sound e he, store', index', hNew, hWritten.store_content, hWritten.index_content⟩
    · exact (h.held e he).of_resembles (Or.inl (hOther e he hEq))
  · by_cases hEq : last = extent
    · subst hEq
      omega
    · have hIn : extent ∈ before :=
        (mem_append.1 hMem).resolve_right fun hLast => hEq (mem_singleton.1 hLast).symm
      have hLastNext : last.base ≤ last.next := Nat.le_add_right _ _
      have hOrder := (pairwise_append.1 h.pairwise).2.2 extent hIn last mem_cons_self
      omega
  · rintro directory ⟨store'', index'', hPartly⟩
    exact hPass hPartly

end

/-- The loop over the segments that are still to be looked at. -/
theorem syncLoop_spec (target : Nat)
    (h : Running format initial durable disk.directory before last)
    {done todo : List (Extent R)} (hSplit : before ++ [last] = done ++ todo)
    (hDone : ∀ extent ∈ done, extent.records ≠ [] → extent.next ≤ durable + 1) :
    (Segment.syncLoop target (todo.map segment)).Returns (disk, durable)
      fun _ synced => Running format initial synced.2 synced.1.directory before last ∧
        durable ≤ synced.2 ∧
        (target ≤ synced.2 ∨ ∀ extent ∈ before ++ [last], extent.records ≠ [] →
          extent.next ≤ synced.2 + 1) ∧
        Disk.Passes (fun directory => Laid format initial durable directory before last) disk
          synced.1 := by
  induction todo generalizing disk durable done with
  | nil =>
    rw [append_nil] at hSplit
    exact ⟨h, le_rfl, Or.inr (by rwa [hSplit]), .refl _⟩
  | cons extent todo ih =>
    have hMem : extent ∈ before ++ [last] := by simp [hSplit]
    have hSplit' : before ++ [last] = (done ++ [extent]) ++ todo := by simpa using hSplit
    have hNext : extent.segment.next = extent.segment.base + extent.records.length := rfl
    rw [map_cons, Segment.syncLoop]
    simp only [wp_bind, wp_read]
    by_cases hSkip : extent.segment.next = extent.segment.base ∨
        extent.segment.next - 1 ≤ durable
    · rw [if_pos hSkip]
      refine ih h hSplit' fun e he hSome => ?_
      rcases mem_append.1 he with hOld | hNew
      · exact hDone e hOld hSome
      · obtain rfl := mem_singleton.1 hNew
        have hPos : 0 < e.records.length := length_pos_iff.2 hSome
        change e.segment.next ≤ _
        omega
    · rw [if_neg hSkip]
      push Not at hSkip
      have hNonempty : extent.records ≠ [] := by
        rintro hNone
        rw [hNone] at hNext
        exact hSkip.1 hNext
      have hEarlier : ∀ earlier ∈ before ++ [last], earlier.base < extent.base →
          earlier.next ≤ durable + 1 := by
        intro earlier hIn hLt
        have hBefore : earlier ∈ before := h.mem_before hIn hMem hLt
        have hOrder := h.pairwise
        rw [hSplit] at hIn hOrder
        rcases mem_append.1 hIn with hOld | hNew
        · exact hDone earlier hOld (h.nonempty earlier hBefore)
        · rcases mem_cons.1 hNew with rfl | hTodo
          · exact absurd hLt (Nat.lt_irrefl _)
          · have hAfter := (pairwise_cons.1 (pairwise_append.1 hOrder).2.1).1 earlier hTodo
            exact absurd hAfter.2 (Nat.lt_asymm hLt)
      simp only [wp_bind, wp_zoom, wp_modify]
      refine wp_of_returns (h.sync_spec hMem hNonempty hEarlier) ?_
      rintro _ disk' ⟨hRunning, hPasses⟩
      by_cases hTarget : extent.segment.next - 1 ≥ target
      · rw [if_pos hTarget]
        exact ⟨hRunning, hSkip.2.le, Or.inl hTarget, hPasses⟩
      · rw [if_neg hTarget]
        refine wp_conseq (ih hRunning hSplit' fun e he hSome => ?_) ?_
        · rcases mem_append.1 he with hOld | hNew
          · have hLe := hDone e hOld hSome
            change e.next ≤ extent.segment.next - 1 + 1
            omega
          · rw [mem_singleton.1 hNew]
            change extent.segment.next ≤ extent.segment.next - 1 + 1
            omega
        · rintro _ synced ⟨hRunning', hLe, hAll, hMore⟩
          refine ⟨hRunning', hSkip.2.le.trans hLe, hAll, hPasses.trans (hMore.mono ?_)⟩
          exact fun directory hLaid => hLaid.lower hSkip.2.le

/-- Synchronizing until a number that the log has makes it durable. -/
theorem syncAll_spec {target : Nat}
    (h : Running format initial durable disk.directory before last) (hTarget : target < last.next)
    (hAbove : initial ≤ target) :
    (Segment.syncLoop target ((before ++ [last]).map segment)).Returns (disk, durable)
      fun _ synced => Running format initial synced.2 synced.1.directory before last ∧
        durable ≤ synced.2 ∧ target ≤ synced.2 ∧
        Disk.Passes (fun directory => Laid format initial durable directory before last) disk
          synced.1 := by
  have hLoop := h.syncLoop_spec target (nil_append _).symm
    fun extent hNone => absurd hNone not_mem_nil
  refine wp_conseq hLoop ?_
  rintro _ synced ⟨hRunning, hLe, hReached, hPasses⟩
  refine ⟨hRunning, hLe, ?_, hPasses⟩
  rcases hReached with hDone | hAll
  · exact hDone
  · have hEnd := h.next_le_of_all
      (fun e he hSome => (hAll e he hSome).trans (le_max_right initial _)) (le_max_left _ _)
    omega

end Running

end Stoneleaf
