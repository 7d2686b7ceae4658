import Stoneleaf.Log.Running

/-!
Power losses and reopening, seen as changes of the layout. A power loss that leaves no gap turns
a layout into a layout, possibly without a segment that was just being created. Opening the
segments passes only through layouts of the same records.
-/

namespace Stoneleaf

open Library Program List File

variable {R : Type} {format : RecordFormat R} {initial durable : Nat}
  {before : List (Extent R)} {last : Extent R} {directory : Directory}

/-- All files and names are on disk. -/
structure Directory.Settled (directory : Directory) : Prop where
  files : ∀ name file, directory.file name = some file → file.unsynced = [] ∧ file.linked = true
  removed : directory.removed = []

theorem Directory.settled_of_fsynced (h : directory.fsynced = directory) :
    directory.Settled := by
  have hLoss := directory.powerLoss_fsynced
  rw [h] at hLoss
  refine ⟨fun name file hFile => ?_, hLoss.removed⟩
  obtain ⟨_, _, -, -, rfl⟩ := hLoss.origin name file hFile
  exact ⟨rfl, rfl⟩

/-- A crash of the process alone is a power loss when nothing is in flight. -/
theorem Directory.Settled.powerLoss (h : directory.Settled) :
    PowerLoss directory directory := by
  have hDurable : ∀ name file, directory.file name = some file →
      file = .durable file.content := by
    intro name file hFile
    obtain ⟨hSynced, hLinked⟩ := h.files name file hFile
    obtain ⟨synced, unsynced, linked⟩ := file
    obtain rfl : unsynced = [] := hSynced
    obtain rfl : linked = true := hLinked
    rfl
  refine ⟨fun name file hFile _ => ?_, fun name file hFile => ?_, h.removed⟩
  · exact ⟨file.content, file.keeps_content, by rw [hFile, ← hDurable name file hFile]⟩
  · exact ⟨file, file.content, Or.inl hFile, file.keeps_content, hDurable name file hFile⟩

/-- The records up to a number that one layout has are also in another one. -/
def Retained (durable : Nat) (extents extents' : List (Extent R)) : Prop :=
  ∀ extent ∈ extents, ∀ record ∈ extent.through durable,
    ∃ extent' ∈ extents', record ∈ extent'.through durable

namespace Laid

variable {directory directory' : Directory}

variable (h : Laid format initial durable directory before last)
include h

/-- Nothing is missing from a directory compared with itself. -/
theorem gapless_self : Gapless directory directory :=
  fun base hPresent => ⟨(h.present base hPresent).1, fun _ _ _ => rfl⟩

variable (hLoss : PowerLoss directory directory') (hGapless : Gapless directory directory')
include hLoss hGapless

/-- The first segments of a layout are a layout of what survived, if no others did. -/
theorem of_survivors {before' : List (Extent R)} {last' : Extent R}
    (hPrefix : before' ++ [last'] <+: before ++ [last])
    (hOnly : ∀ base, directory'.files base ≠ .absent → ∃ extent ∈ before' ++ [last'],
      extent.base = base)
    (hLast : before' ≠ [] ∨ last'.base ≤ durable → (directory'.files last'.base).store ≠ none) :
    Laid format initial durable directory' before' last' := by
  have hSub : ∀ extent ∈ before' ++ [last'], extent ∈ before ++ [last] :=
    fun e he => hPrefix.subset he
  have hOrder := h.pairwise.sublist hPrefix.sublist
  have hBefore : ∀ extent ∈ before', extent ∈ before := fun e he =>
    h.mem_before (hSub e (mem_append_left _ he)) (hSub last' mem_last)
      ((pairwise_append.1 hOrder).2.2 e he last' mem_cons_self).2
  have hFile : ∀ extent kind left, directory'.file ⟨extent, kind⟩ = some left → _ :=
    fun _ _ _ hLeft => h.origin hLoss hLeft
  refine ⟨fun e he => h.sound e (hSub e he),
    fun e he => h.nonempty e (hBefore e he), ?_, ?_, ?_, ?_, ?_, ?_, hLoss.removed⟩
  · obtain ⟨rest, hRest⟩ := hPrefix
    have hChained := h.chained
    rw [← hRest, map_append, Segment.chained_append] at hChained
    exact hChained.1
  · exact fun base hPresent => ⟨(hGapless base hPresent).1, hOnly base hPresent⟩
  · intro e he left hLeft
    obtain ⟨file, bytes, hOld, hKeeps, rfl⟩ := hFile e.base .store left hLeft
    obtain ⟨hLow, hHigh⟩ := h.store e (hSub e he) file hOld bytes hKeeps
    exact within_of_synced rfl hLow hHigh
  · intro e he left hLeft
    obtain ⟨file, bytes, hOld, hKeeps, rfl⟩ := hFile e.base .index left hLeft
    obtain ⟨hLow, hHigh⟩ := h.index e (hSub e he) file hOld bytes hKeeps
    exact within_of_synced rfl hLow hHigh
  · intro e he
    obtain ⟨file, hOld, hLinked, hImage⟩ := h.whole e (hBefore e he)
    obtain ⟨bytes, -, hLeft⟩ := hLoss.kept ⟨e.base, .store⟩ file hOld hLinked
    refine ⟨.durable bytes, hLeft, rfl, ?_⟩
    have hLater : directory'.files last'.base ≠ .absent := by
      intro hAbsent
      exact hLast (Or.inl (ne_nil_of_mem he)) (by rw [hAbsent]; rfl)
    have hLt := ((pairwise_append.1 hOrder).2.2 e he last' mem_cons_self).2
    have hHere : directory.files e.base ≠ .absent := by
      intro hAbsent
      rw [hAbsent] at hOld
      cases hOld
    have hWhole := (hGapless last'.base hLater).2 e.base hLt hHere
    have hOldFile : directory.file ⟨e.base, .store⟩ = some file := hOld
    simp only [Directory.content, hLeft, hOldFile, hImage] at hWhole
    exact hWhole
  · intro hDurable
    obtain ⟨left, hLeft⟩ := Option.ne_none_iff_exists'.1 (hLast (Or.inr hDurable))
    obtain ⟨file, bytes, -, -, rfl⟩ := hFile last'.base .store left hLeft
    exact ⟨_, hLeft, rfl⟩

/-- What a power loss without gaps leaves is a layout of all durable records. -/
theorem after_loss :
    ∃ before' last', Laid format initial durable directory' before' last' ∧
      Retained durable (before ++ [last]) (before' ++ [last']) := by
  have hOnly : ∀ base, directory'.files base ≠ .absent →
      ∃ extent ∈ before ++ [last], extent.base = base := by
    exact fun base hPresent => h.exists_extent hLoss (hGapless base hPresent).1
  by_cases hLast : (directory'.files last.base).store = none
  · -- the last segment was just being created, and nothing of it is durable
    have hAbove : durable < last.base := by
      by_contra hDurable
      obtain ⟨file, hFile, hLinked⟩ := h.last_linked (Nat.le_of_not_lt hDurable)
      exact hLoss.store_ne_none hFile hLinked hLast
    have hNone : last.through durable = [] := by
      rw [Extent.through, Nat.sub_eq_zero_of_le hAbove, take_zero]
    have hGone : directory'.files last.base = .absent := by
      by_contra hPresent
      exact (hGapless last.base hPresent).1 hLast
    rcases eq_nil_or_concat before with rfl | ⟨front, final, rfl⟩
    · refine ⟨[], last, h.of_survivors hLoss hGapless prefix_rfl hOnly ?_, ?_⟩
      · rintro (hSome | hDurable)
        · exact absurd rfl hSome
        · exact absurd hAbove (Nat.not_lt_of_le hDurable)
      · exact fun e he r hr => ⟨e, he, hr⟩
    · rw [concat_eq_append] at h hOnly ⊢
      refine ⟨front, final, h.of_survivors hLoss hGapless (prefix_append _ _) ?_ ?_, ?_⟩
      · intro base hPresent
        obtain ⟨e, he, rfl⟩ := hOnly base hPresent
        rcases mem_append.1 he with hIn | hEq
        · exact ⟨e, hIn, rfl⟩
        · rw [mem_singleton.1 hEq] at hPresent
          exact absurd hGone hPresent
      · intro _
        obtain ⟨file, hFile, hLinked, -⟩ := h.whole final mem_last
        exact hLoss.store_ne_none hFile hLinked
      · intro e he r hr
        rcases mem_append.1 he with hIn | hEq
        · exact ⟨e, hIn, hr⟩
        · rw [mem_singleton.1 hEq, hNone] at hr
          cases hr
  · refine ⟨before, last, h.of_survivors hLoss hGapless prefix_rfl hOnly fun _ => hLast, ?_⟩
    exact fun e he r hr => ⟨e, he, hr⟩

end Laid

namespace Segment

variable {check : SegmentFiles → Except Exception Unit} {listed : List Nat} {disk : Disk}

/-- Whatever opening one segment after the other keeps, opening all of them keeps. -/
theorem openAll_passes (Good : Directory → Prop) {gap : String}
    {entries : List (Nat × SegmentFiles)}
    (hOpen : ∀ entry ∈ entries, ∀ disk : Disk, Good disk.directory →
      (openFound format entry.1 entry.2).Returns disk
        fun _ disk' => Good disk'.directory ∧ Disk.Passes Good disk disk')
    (hGood : Good disk.directory) (expected : Nat) :
    (openAll format gap check expected entries).wp disk
      (fun _ disk' => Good disk'.directory ∧ Disk.Passes Good disk disk')
      (fun _ disk' => Good disk'.directory ∧ Disk.Passes Good disk disk') fun _ => False := by
  induction entries generalizing expected disk with
  | nil => exact ⟨hGood, .refl disk⟩
  | cons entry entries ih =>
    obtain ⟨base, files⟩ := entry
    rw [openAll]
    by_cases hExpected : base = expected
    · rw [if_neg (not_not.2 hExpected)]
      cases hCheck : check files with
      | error e =>
        simp only [wp_bind, wp_orThrow_error]
        exact ⟨hGood, .refl disk⟩
      | ok =>
        simp only [wp_bind, wp_orThrow_ok]
        refine wp_of_returns (hOpen _ mem_cons_self disk hGood) ?_
        rintro segment disk₁ ⟨hGood₁, hPasses₁⟩
        refine wp_weaken (ih (fun e he => hOpen e (mem_cons_of_mem _ he)) hGood₁ _) ?_ ?_
        · exact fun _ disk₂ h => ⟨h.1, hPasses₁.trans h.2⟩
        · exact fun _ disk₂ h => ⟨h.1, hPasses₁.trans h.2⟩
    · rw [if_pos hExpected]
      simp only [wp_bind, wp_fail]
      exact ⟨hGood, .refl disk⟩

/-- A layout in which the listed segments exist. -/
def Listing (format : RecordFormat R) (initial durable : Nat) (before : List (Extent R))
    (last : Extent R) (listed : List Nat) (directory : Directory) : Prop :=
  Laid format initial durable directory before last ∧
    ∀ base ∈ listed, directory.files base ≠ .absent

theorem Listing.link (h : Listing format initial durable before last listed directory) :
    Listing format initial durable before last listed directory.link := by
  refine ⟨h.1.link directory.files_link rfl, fun base hMem => ?_⟩
  rw [Directory.files_link]
  exact SegmentFiles.link_ne_absent (h.2 base hMem)

theorem Listing.present_update {directory directory' : Directory}
    (h : Listing format initial durable before last listed directory) {base : Nat} {store : File}
    {index : Option File}
    (hFiles : directory'.files = Function.update directory.files base ⟨some store, index⟩) :
    ∀ base ∈ listed, directory'.files base ≠ .absent := by
  intro other hMem
  rw [hFiles]
  by_cases hEq : other = base
  · rw [hEq, Function.update_self]
    exact fun hAbsent => by cases congrArg SegmentFiles.store hAbsent
  · rw [Function.update_of_ne hEq]
    exact h.2 other hMem

/-- Opening a segment of a layout passes only through layouts of the same records. -/
theorem openFound_laid (hLawful : format.Lawful)
    (h : Listing format initial durable before last listed disk.directory) {extent : Extent R}
    (hMem : extent ∈ before ++ [last]) (hListed : extent.base ∈ listed) (files : SegmentFiles) :
    (openFound format extent.base files).Returns disk
      fun _ disk' => Listing format initial durable before last listed disk'.directory ∧
        Disk.Passes (Listing format initial durable before last listed) disk disk' := by
  have hPresent := h.2 extent.base hListed
  obtain ⟨store, hStore⟩ := Option.ne_none_iff_exists'.1 (h.1.present extent.base hPresent).1
  have hWithin := h.1.store extent hMem store hStore
  obtain ⟨kept, tail, hKept, hContent, hTail, -⟩ :=
    exists_store_of_isPrefix (h.1.sound extent hMem) hWithin.content.2
  have hEnough : min extent.records.length (durable + 1 - extent.base) ≤ kept := by
    have hLow := hWithin.content.1
    rw [hContent] at hLow
    exact Laid.le_of_storeImage_prefix (h.1.sound extent hMem) hTail hLow
  have hWhole : extent ∈ before → extent.records.length ≤ kept := by
    intro hBefore
    obtain ⟨file, hFile, -, hImage⟩ := h.1.whole extent hBefore
    obtain rfl : file = store := Option.some.inj (hFile.symm.trans hStore)
    have hAll : storeImage format (extent.records.take extent.records.length) <+:
        storeImage format (extent.records.take kept) ++ tail := by
      rw [← hContent, hImage, take_length]
    have hLe := Laid.le_of_storeImage_prefix (h.1.sound extent hMem) hTail hAll
    rwa [Nat.min_self] at hLe
  have hCreate : (openOrCreateFile ⟨extent.base, .index⟩).Returns disk
      fun _ disk' => Listing format initial durable before last listed disk'.directory ∧
        (∃ index, disk'.directory.files extent.base = ⟨some store, some index⟩) ∧
        Disk.Passes (Listing format initial durable before last listed) disk disk' := by
    unfold openOrCreateFile
    simp only [wp_bind, wp_read]
    cases hIndex : (disk.directory.files extent.base).index with
    | some index =>
      rw [if_neg (by simp [Directory.file, SegmentFiles.get, hIndex])]
      exact ⟨h, ⟨index, by rw [← hStore, ← hIndex]⟩, .refl disk⟩
    | none =>
      rw [if_pos (by simp [Directory.file, SegmentFiles.get, hIndex])]
      have hFiles : (disk.perform (.create ⟨extent.base, .index⟩)).directory.files =
          Function.update disk.directory.files extent.base ⟨some store, some .created⟩ := by
        simp [Disk.perform, FileOp.apply, Directory.setFile, SegmentFiles.set, hStore]
      have hRemoved : (disk.perform (.create ⟨extent.base, .index⟩)).directory.removed = [] := by
        simpa [Disk.perform, FileOp.apply, Directory.setFile] using h.1.removed
      refine ⟨⟨h.1.update hMem hFiles hRemoved hWithin ?_ ?_ ?_, h.present_update hFiles⟩,
        ⟨.created, by rw [hFiles, Function.update_self]⟩, (Disk.Passes.refl disk).perform h _⟩
      · intro file hFile
        obtain rfl : File.created = file := Option.some.inj hFile
        exact within_created _
      · intro hBefore
        obtain ⟨file, hFile, hLinked, hImage⟩ := h.1.whole extent hBefore
        obtain rfl : file = store := Option.some.inj (hFile.symm.trans hStore)
        exact ⟨hLinked, hImage⟩
      · rintro hDurable rfl
        obtain ⟨file, hFile, hLinked⟩ := h.1.last_linked hDurable
        obtain rfl : file = store := Option.some.inj (hFile.symm.trans hStore)
        exact hLinked
  unfold openFound
  refine wp_bind_of hCreate ?_
  rintro _ disk₁ ⟨h₁, ⟨index, hFiles₁⟩, hPasses₁⟩
  have hPass : ∀ {directory : Directory} {store' index' : File},
      Partly format extent kept disk₁.directory directory store' index' →
        Listing format initial durable before last listed directory := fun hPartly =>
    ⟨h₁.1.of_partly hMem hFiles₁ hPartly hEnough hWhole, h₁.present_update hPartly.at_base.files⟩
  have hIndexPrefix : index.content <+: indexImage format extent.records :=
    (h₁.1.index extent hMem index (by rw [hFiles₁])).content.2
  refine wp_bind_of (wp_conseq (recover_spec hLawful (h.1.sound extent hMem) hFiles₁ hKept hContent
    hTail hWithin.content.2 hIndexPrefix) fun _ _ hPost => hPost) ?_
  rintro segment disk₂ ⟨-, ⟨store', index', hRecovered⟩, hPasses₂⟩
  have h₂ := hPass hRecovered.toPartly
  have hBoth : Disk.Passes (Listing format initial durable before last listed) disk disk₂ :=
    hPasses₁.trans (hPasses₂.mono fun _ hPartly => hPass hPartly.choose_spec.choose_spec)
  by_cases hMissing : files.index = none
  · rw [if_pos hMissing]
    exact ⟨h₂.link, hBoth.perform h₂ _⟩
  · rw [if_neg hMissing]
    exact ⟨h₂, hBoth⟩

/-- Opening all segments of a layout, in the order of the directory. -/
theorem openAll_laid (hLawful : format.Lawful) {gap : String}
    (h : Laid format initial durable disk.directory before last) (expected : Nat) :
    (openAll format gap check expected disk.directory.entries).wp disk
      (fun _ disk' => Laid format initial durable disk'.directory before last ∧
        Disk.Passes (fun directory => Laid format initial durable directory before last) disk disk')
      (fun _ disk' => Laid format initial durable disk'.directory before last ∧
        Disk.Passes (fun directory => Laid format initial durable directory before last) disk disk')
      fun _ => False := by
  have hStart : Listing format initial durable before last disk.directory.bases disk.directory :=
    ⟨h, fun base hMem => (disk.directory.mem_bases base).1 hMem⟩
  refine wp_weaken (openAll_passes _ ?_ hStart expected) ?_ ?_
  · intro entry hMem disk' hListing
    have hBase : entry.1 ∈ disk.directory.bases := mem_map.2 ⟨entry, hMem, rfl⟩
    obtain ⟨-, extent, hExtent, hEq⟩ := h.present entry.1 ((disk.directory.mem_bases _).1 hBase)
    rw [← hEq] at hBase ⊢
    exact openFound_laid hLawful hListing hExtent hBase entry.2
  · exact fun _ disk' hPost => ⟨hPost.1.1, hPost.2.mono fun _ hGood => hGood.1⟩
  · exact fun _ disk' hPost => ⟨hPost.1.1, hPost.2.mono fun _ hGood => hGood.1⟩

end Segment

section Opened

variable {directory directory' : Directory} {others : List (Extent R × Nat)}
  {final : Extent R × Nat}

/-- The first segment of a log is created through layouts of no records. -/
theorem Laid.creating (hLaid : Laid format initial durable directory [] last)
    (hEmpty : directory.entries = []) (hCreating : Segment.Creating initial directory directory') :
    Laid format initial durable directory' [] last := by
  have hBase : last.base = initial := hLaid.chained.1
  have hAbsent : directory.files last.base = .absent := by
    simp [Directory.files, hEmpty, valueOf]
  have hAbove : durable < last.base := by
    by_contra hDurable
    obtain ⟨file, hFile, -⟩ := hLaid.last_linked (Nat.le_of_not_lt hDurable)
    rw [hAbsent] at hFile
    cases hFile
  rcases hCreating with rfl | ⟨hRemoved, index, hIndex, hFiles⟩
  · exact hLaid
  · rw [← hBase] at hFiles
    refine hLaid.update Laid.mem_last hFiles (hRemoved.trans hLaid.removed) ?_ ?_ (by simp) ?_
    · refine within_of_synced rfl ?_ nil_prefix
      rw [Extent.through, Nat.sub_eq_zero_of_le hAbove, take_zero]
      exact prefix_rfl
    · rintro file rfl
      rcases hIndex with hNone | hSome
      · cases hNone
      · obtain rfl : file = .created := Option.some.inj hSome
        exact within_created _
    · exact fun hLe _ => absurd hAbove (Nat.not_lt_of_le hLe)

/-- What is left of a segment. -/
def Extent.ofCut (cut : Extent R × Nat) : Extent R :=
  cut.1.take cut.2

open Extent (ofCut)

theorem Remains.segment_ofCut {cuts : List (Extent R × Nat)} (h : Remains format directory cuts)
    {cut : Extent R × Nat} (hMem : cut ∈ cuts) : (ofCut cut).segment = Segment.ofCut cut := by
  have hKept := (h.cut cut hMem).kept_le
  simp [ofCut, Extent.segment, Extent.next, Extent.take, Segment.ofCut, Nat.min_eq_left hKept]

/-- A log that was opened with nothing in flight is running, and all its records are durable. -/
theorem AllOpened.running (hOpened : AllOpened format (others ++ [final]) directory directory')
    (hRemains : Remains format directory (others ++ [final])) (hSettled : directory.Settled)
    (hChained : Segment.Chained initial ((others ++ [final]).map Segment.ofCut))
    (hNonempty : ∀ cut ∈ others, (ofCut cut).records ≠ []) :
    Running format initial ((ofCut final).next - 1) directory' (others.map ofCut)
      (ofCut final) := by
  have hCuts : others.map ofCut ++ [ofCut final] = (others ++ [final]).map ofCut := by simp
  have hHeld : ∀ extent ∈ others.map ofCut ++ [ofCut final],
      Held format directory' extent := by
    rw [hCuts]
    exact forall_mem_map.2 hOpened.held
  have hSettled' : ∀ extent ∈ others.map ofCut ++ [ofCut final],
      (directory'.files extent.base).Settled := by
    rw [hCuts]
    exact forall_mem_map.2 fun cut hCut => hOpened.settled cut hCut fun kind file hFile =>
      hSettled.files ⟨_, kind⟩ file hFile
  have hWhole : ∀ extent ∈ others.map ofCut ++ [ofCut final],
      ∃ file, (directory'.files extent.base).store = some file ∧ file.linked = true ∧
        file.content = storeImage format extent.records := by
    intro extent hIn
    obtain ⟨store, index, hFiles, hStore, -⟩ := (hHeld extent hIn).files
    have hFile : (directory'.files extent.base).store = some store := by rw [hFiles]
    exact ⟨store, hFile, (hSettled' extent hIn .store store hFile).2, hStore⟩
  have hLaid : Laid format initial ((ofCut final).next - 1) directory'
      (others.map ofCut) (ofCut final) := by
    refine ⟨fun e he => (hHeld e he).sound, ?_, ?_, ?_, ?_, ?_, ?_, ?_, ?_⟩
    · exact forall_mem_map.2 hNonempty
    · rw [hCuts, map_map]
      rwa [← map_congr_left fun cut hCut => hRemains.segment_ofCut hCut] at hChained
    · intro base hPresent
      by_cases hIn : ∃ cut ∈ others ++ [final], cut.1.base = base
      · obtain ⟨cut, hCut, rfl⟩ := hIn
        have hExtent : ofCut cut ∈ others.map ofCut ++ [ofCut final] := by
          rw [hCuts]
          exact mem_map_of_mem hCut
        obtain ⟨file, hFile, -⟩ := hWhole _ hExtent
        change (directory'.files cut.1.base).store = some file at hFile
        exact ⟨by rw [hFile]; simp, _, hExtent, rfl⟩
      · push Not at hIn
        have hAbsent : directory.files base = .absent := by
          by_contra hThere
          have hBase := (directory.mem_bases base).2 hThere
          rw [hRemains.bases] at hBase
          obtain ⟨cut, hCut, hEq⟩ := mem_map.1 hBase
          exact hIn cut hCut hEq
        rcases hOpened.others base hIn with hSame | hSame
        all_goals
          rw [hSame, hAbsent] at hPresent
          exact absurd rfl hPresent
    · intro e he file hFile
      obtain ⟨store, hStore, -, hImage⟩ := hWhole e he
      obtain rfl : store = file := Option.some.inj (hStore.symm.trans hFile)
      refine within_of_synced (hSettled' e he .store store hFile).1 ?_ ?_
      · rw [hImage]
        exact storeImage_isPrefix format (e.through_prefix _)
      · rw [hImage]
    · intro e he file hFile
      obtain ⟨store, index, hFiles, -, hIndex⟩ := (hHeld e he).files
      obtain rfl : index = file := by simpa [hFiles] using hFile
      refine within_of_synced (hSettled' e he .index index hFile).1 nil_prefix ?_
      rw [hIndex]
    · exact fun e he => hWhole e (mem_append_left _ he)
    · intro _
      obtain ⟨file, hFile, hLinked, -⟩ := hWhole _ Laid.mem_last
      exact ⟨file, hFile, hLinked⟩
    · rcases hOpened.removed with hSame | hNone
      · rw [hSame]
        exact hSettled.removed
      · exact hNone
  obtain ⟨file, hFile, hLinked, -⟩ := hWhole _ Laid.mem_last
  refine ⟨hLaid, hHeld, ⟨file, hFile, hLinked⟩, ?_⟩
  have hPos := (hLaid.sound _ Laid.mem_last).base_pos
  rw [Extent.next]
  omega

end Opened

end Stoneleaf
