import Stoneleaf.Storage.Disk
import Mathlib.Data.List.Infix

/-!
What a power loss leaves of a directory. Of each file the content at its last `fsync` survives,
and of what was written since a beginning, the last write of which may be torn. Names and
removals that were not synchronized may or may not be there. Everything that can survive of a
file is kept between two contents, and this is all that later reasoning needs to know about it.
-/

namespace Stoneleaf

open List

/-- The part of the next write that reached the disk. -/
def Torn (torn : List UInt8) : List FileWrite → Prop
  | .append bytes :: _ => torn <+: bytes
  | _ => torn = []

namespace File

/-- The given bytes may be what is left of a file. -/
def Keeps (file : File) (bytes : List UInt8) : Prop :=
  ∃ done rest torn, file.unsynced = done ++ rest ∧ Torn torn rest ∧
    bytes = done.foldl FileWrite.apply file.synced ++ torn

variable {file : File} {bytes : List UInt8}

theorem keeps_content (file : File) : file.Keeps file.content :=
  ⟨file.unsynced, [], [], by simp, rfl, by simp [content]⟩

theorem keeps_of_synced (hSynced : file.unsynced = []) (h : file.Keeps bytes) :
    bytes = file.content := by
  obtain ⟨done, rest, torn, hSplit, hTorn, rfl⟩ := h
  rw [hSynced] at hSplit
  obtain ⟨rfl, rfl⟩ := append_eq_nil_iff.1 hSplit.symm
  obtain rfl : torn = [] := hTorn
  simp [content, hSynced]

/-- After one more write, what survives is what could survive before it, or the old content with
a part of the write. -/
theorem keeps_write {w : FileWrite} (h : (file.write w).Keeps bytes) :
    file.Keeps bytes ∨ bytes = w.apply file.content ∨
      ∃ more torn, w = .append more ∧ torn <+: more ∧ bytes = file.content ++ torn := by
  obtain ⟨done, rest, torn, hSplit, hTorn, rfl⟩ := h
  rcases eq_nil_or_concat rest with rfl | ⟨rest, last, rfl⟩
  · obtain rfl : torn = [] := hTorn
    rw [append_nil] at hSplit
    refine Or.inr (Or.inl ?_)
    rw [append_nil, ← hSplit]
    simp [write, content]
  · rw [concat_eq_append, ← append_assoc] at hSplit
    obtain ⟨hUnsynced, hLast⟩ := append_inj' hSplit rfl
    obtain rfl : w = last := by simpa using hLast
    cases rest with
    | nil =>
      rw [append_nil] at hUnsynced
      cases w with
      | append more =>
        exact Or.inr (Or.inr ⟨more, torn, rfl, hTorn, by simp [content, write, hUnsynced]⟩)
      | truncate size =>
        obtain rfl : torn = [] := hTorn
        exact Or.inl ⟨done, [], [], by simpa using hUnsynced, rfl, rfl⟩
    | cons next rest =>
      refine Or.inl ⟨done, next :: rest, torn, hUnsynced, ?_, rfl⟩
      cases next <;> exact hTorn

/-- Whatever survives of a file lies between two contents. -/
def Within (low high : List UInt8) (file : File) : Prop :=
  ∀ bytes, file.Keeps bytes → low <+: bytes ∧ bytes <+: high

/-- Whatever survives of the newer state of a file could survive of the older one or lies
between two contents, and its name is as durable as before. -/
structure Follows (low high : List UInt8) (older newer : File) : Prop where
  keeps : ∀ bytes, newer.Keeps bytes → older.Keeps bytes ∨ low <+: bytes ∧ bytes <+: high
  linked : newer.linked = older.linked

section Between

variable {low high : List UInt8} {older newer : File}

theorem Follows.refl (file : File) : Follows low high file file :=
  ⟨fun _ h => Or.inl h, rfl⟩

theorem Follows.write (h : Follows low high older newer) (hContent : low <+: newer.content)
    {w : FileWrite} (hLow : low <+: w.apply newer.content)
    (hHigh : w.apply newer.content <+: high) :
    Follows low high older (newer.write w) := by
  refine ⟨fun bytes hKeeps => ?_, h.linked⟩
  rcases keeps_write hKeeps with hOld | rfl | ⟨more, torn, rfl, hTorn, rfl⟩
  · exact h.keeps bytes hOld
  · exact Or.inr ⟨hLow, hHigh⟩
  · refine Or.inr ⟨hContent.trans (prefix_append _ _), List.IsPrefix.trans ?_ hHigh⟩
    exact (prefix_append_right_inj _).2 hTorn

theorem Follows.sync (h : Follows low high older newer) (hLow : low <+: newer.content)
    (hHigh : newer.content <+: high) : Follows low high older newer.sync := by
  refine ⟨fun bytes hKeeps => ?_, h.linked⟩
  have hContent : bytes = newer.sync.content := keeps_of_synced rfl hKeeps
  rw [hContent]
  exact Or.inr ⟨hLow, hHigh⟩

theorem Within.of_follows (h : Within low high older) {low' high' : List UInt8}
    (hFollows : Follows low' high' older newer) (hLow : low <+: low') (hHigh : high' <+: high) :
    Within low high newer := by
  intro bytes hKeeps
  rcases hFollows.keeps bytes hKeeps with hOld | ⟨hAbove, hBelow⟩
  · exact h bytes hOld
  · exact ⟨hLow.trans hAbove, hBelow.trans hHigh⟩

section

variable (h : Within low high file)
include h

theorem Within.content : low <+: file.content ∧ file.content <+: high :=
  h _ file.keeps_content

theorem Within.mono {low' high' : List UInt8} (hLow : low' <+: low) (hHigh : high <+: high') :
    Within low' high' file :=
  fun bytes hKeeps => ⟨hLow.trans (h bytes hKeeps).1, (h bytes hKeeps).2.trans hHigh⟩

theorem Within.write {w : FileWrite} (hLow : low <+: w.apply file.content)
    (hHigh : w.apply file.content <+: high) :
    Within low high (file.write w) :=
  h.of_follows ((Follows.refl file).write h.content.1 hLow hHigh) prefix_rfl prefix_rfl

theorem Within.sync : Within low high file.sync :=
  h.of_follows ((Follows.refl file).sync h.content.1 h.content.2) prefix_rfl prefix_rfl

theorem Within.link : Within low high file.link :=
  h

end

theorem within_of_synced (hSynced : file.unsynced = []) (hLow : low <+: file.content)
    (hHigh : file.content <+: high) : Within low high file := by
  intro bytes hKeeps
  rw [keeps_of_synced hSynced hKeeps]
  exact ⟨hLow, hHigh⟩

theorem within_created (high : List UInt8) : Within [] high created :=
  within_of_synced rfl prefix_rfl nil_prefix

end Between

end File

/-- A directory before and after a power loss. -/
structure PowerLoss (before after : Directory) : Prop where
  kept : ∀ name file, before.file name = some file → file.linked = true →
    ∃ bytes, file.Keeps bytes ∧ after.file name = some (.durable bytes)
  origin : ∀ name left, after.file name = some left →
    ∃ file bytes, (before.file name = some file ∨ (name, file) ∈ before.removed) ∧
      file.Keeps bytes ∧ left = .durable bytes
  removed : after.removed = []

theorem PowerLoss.store_ne_none {before after : Directory} (h : PowerLoss before after) {base : Nat}
    {file : File} (hFile : (before.files base).store = some file) (hLinked : file.linked = true) :
    (after.files base).store ≠ none := by
  intro hNone
  obtain ⟨bytes, -, hLeft⟩ := h.kept ⟨base, .store⟩ file hFile hLinked
  rw [Directory.file, SegmentFiles.get, hNone] at hLeft
  cases hLeft

/-- Of every segment that survived the store survived, and all that was written to the stores of
the segments before it. -/
def Gapless (before after : Directory) : Prop :=
  ∀ base, after.files base ≠ .absent → (after.files base).store ≠ none ∧
    ∀ earlier < base, before.files earlier ≠ .absent →
      after.content ⟨earlier, .store⟩ = before.content ⟨earlier, .store⟩

/-- Only the segments in the two directories matter. -/
theorem gapless_iff_bases {before after : Directory} :
    Gapless before after ↔ ∀ base ∈ after.bases, (after.files base).store ≠ none ∧
      ∀ earlier ∈ before.bases, earlier < base →
        after.content ⟨earlier, .store⟩ = before.content ⟨earlier, .store⟩ := by
  simp only [Gapless, Directory.mem_bases]
  exact ⟨fun h base hPresent => ⟨(h base hPresent).1, fun e he hLt => (h base hPresent).2 e hLt he⟩,
    fun h base hPresent => ⟨(h base hPresent).1, fun e hLt he => (h base hPresent).2 e he hLt⟩⟩

instance (before after : Directory) : Decidable (Gapless before after) :=
  decidable_of_iff' _ gapless_iff_bases

section Fsynced

/-- What is left when nothing survives that was not synchronized, except for file names. -/
def SegmentFiles.fsynced (files : SegmentFiles) : SegmentFiles :=
  ⟨files.store.map fun file => .durable file.synced,
    files.index.map fun file => .durable file.synced⟩

def Directory.fsynced (directory : Directory) : Directory where
  entries := directory.entries.map fun entry => (entry.1, entry.2.fsynced)
  removed := []
  sorted := directory.sorted.map _ fun _ _ h => h
  nonempty entry he := by
    obtain ⟨old, hOld, rfl⟩ := mem_map.1 he
    have hPresent := directory.nonempty old hOld
    obtain ⟨base, store, index⟩ := old
    cases store <;> cases index <;> simp_all [SegmentFiles.fsynced, SegmentFiles.absent]

theorem Directory.file_fsynced (directory : Directory) (name : FileName) :
    directory.fsynced.file name = (directory.file name).map fun file => .durable file.synced := by
  have hMap : Library.valueOf directory.fsynced.entries name.base =
      (Library.valueOf directory.entries name.base).map SegmentFiles.fsynced :=
    Library.valueOf_map _ _ name.base
  rw [Directory.file, Directory.file, Directory.files, Directory.files, hMap]
  cases Library.valueOf directory.entries name.base with
  | none | some files => cases name.kind <;> rfl

theorem File.keeps_synced (file : File) : file.Keeps file.synced := by
  refine ⟨[], file.unsynced, [], rfl, ?_, by simp⟩
  cases file.unsynced with
  | nil => rfl
  | cons w rest =>
    cases w with
    | append bytes => exact nil_prefix
    | truncate size => rfl

theorem Directory.powerLoss_fsynced (directory : Directory) :
    PowerLoss directory directory.fsynced where
  kept name file hFile _ := ⟨file.synced, file.keeps_synced, by rw [file_fsynced, hFile]; rfl⟩
  origin name left hLeft := by
    rw [file_fsynced] at hLeft
    obtain ⟨file, hFile, rfl⟩ := Option.map_eq_some_iff.1 hLeft
    exact ⟨file, file.synced, Or.inl hFile, file.keeps_synced, rfl⟩
  removed := rfl

end Fsynced

end Stoneleaf
