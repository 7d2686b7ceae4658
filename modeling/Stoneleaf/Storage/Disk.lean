import Mathlib.Data.List.Sort
import Mathlib.Order.Nat
import Stoneleaf.Library.Program
import Stoneleaf.Library.SortedEntries

/-!
The directory of a segmented log. A file remembers its content at the last `fsync` and what was
written to it since; a directory entry is durable once the directory was synchronized. The
directory is kept as the ordered map from segment numbers to their two files that opening a log
builds from it. File names stand for themselves: a name is a segment number and a kind of file.
-/

namespace Stoneleaf

open Library List

/-- The exceptions that the log layers throw, with their texts. -/
inductive Exception where
  | invalidArgument (what : String)
  | runtimeError (what : String)
  | outOfRange (what : String)
  | lengthError (what : String)
  | systemError (what : String)
deriving DecidableEq, Repr

inductive FileKind where
  | store
  | index
deriving DecidableEq, Repr

structure FileName where
  base : Nat
  kind : FileKind
deriving DecidableEq, Repr

/-- A change of a file's content. Files are only written at their end. -/
inductive FileWrite where
  | append (bytes : List UInt8)
  | truncate (size : Nat)
deriving DecidableEq

def FileWrite.apply (content : List UInt8) : FileWrite → List UInt8
  | append bytes => content ++ bytes
  | truncate size => content.take size

/-- A file: its content at the last `fsync`, what was written since, and whether its name in
the directory is durable. -/
structure File where
  synced : List UInt8
  unsynced : List FileWrite
  linked : Bool
deriving DecidableEq

namespace File

def content (file : File) : List UInt8 :=
  file.unsynced.foldl FileWrite.apply file.synced

/-- A file as `open` with `O_CREAT` leaves it. -/
def created : File :=
  ⟨[], [], false⟩

/-- A file that was on disk before, with nothing in flight. -/
def durable (bytes : List UInt8) : File :=
  ⟨bytes, [], true⟩

def write (write : FileWrite) (file : File) : File :=
  { file with unsynced := file.unsynced ++ [write] }

def sync (file : File) : File :=
  { file with synced := file.content, unsynced := [] }

def link (file : File) : File :=
  { file with linked := true }

@[simp] theorem content_created : created.content = [] :=
  rfl

@[simp] theorem content_durable (bytes : List UInt8) : (durable bytes).content = bytes :=
  rfl

@[simp] theorem content_write (w : FileWrite) (file : File) :
    (file.write w).content = w.apply file.content := by
  simp [content, write]

@[simp] theorem content_sync (file : File) : file.sync.content = file.content :=
  rfl

end File

/-- The two files of one segment, as far as they exist. -/
structure SegmentFiles where
  store : Option File
  index : Option File
deriving DecidableEq

namespace SegmentFiles

/-- A segment that is not in the directory. -/
def absent : SegmentFiles :=
  ⟨none, none⟩

def get (files : SegmentFiles) : FileKind → Option File
  | .store => files.store
  | .index => files.index

def set (files : SegmentFiles) (kind : FileKind) (file : Option File) : SegmentFiles :=
  match kind with
  | .store => { files with store := file }
  | .index => { files with index := file }

def link (files : SegmentFiles) : SegmentFiles :=
  ⟨files.store.map File.link, files.index.map File.link⟩

theorem link_ne_absent {files : SegmentFiles} (h : files ≠ absent) : files.link ≠ absent := by
  obtain ⟨store, index⟩ := files
  cases store <;> cases index <;> simp_all [link, absent]

end SegmentFiles

/-- The segments in the directory by their numbers, and the files that were removed since the
directory was last synchronized. A segment without files is not in the directory. -/
@[ext]
structure Directory where
  entries : List (Nat × SegmentFiles)
  removed : List (FileName × File)
  sorted : entries.Pairwise fun a b => a.1 < b.1
  nonempty : ∀ entry ∈ entries, entry.2 ≠ .absent
deriving DecidableEq

namespace Directory

def empty : Directory :=
  ⟨[], [], .nil, by simp⟩

def bases (directory : Directory) : List Nat :=
  directory.entries.map Prod.fst

def files (directory : Directory) (base : Nat) : SegmentFiles :=
  (valueOf directory.entries base).getD .absent

def file (directory : Directory) (name : FileName) : Option File :=
  (directory.files name.base).get name.kind

def content (directory : Directory) (name : FileName) : List UInt8 :=
  match directory.file name with
  | some file => file.content
  | none => []

/-- Replace the files of one segment. -/
def setFiles (directory : Directory) (base : Nat) (files : SegmentFiles) : Directory :=
  if h : files = .absent then
    { directory with
      entries := removeEntry base directory.entries
      sorted := pairwise_removeEntry directory.sorted base
      nonempty := fun entry he => directory.nonempty entry (mem_of_mem_removeEntry he) }
  else
    { directory with
      entries := insertEntry base files directory.entries
      sorted := pairwise_insertEntry directory.sorted base files
      nonempty := fun entry he => by
        rcases eq_or_mem_of_mem_insertEntry he with rfl | hOld
        · exact h
        · exact directory.nonempty entry hOld }

def setFile (directory : Directory) (name : FileName) (file : Option File) : Directory :=
  directory.setFiles name.base ((directory.files name.base).set name.kind file)

/-- Every name in the directory is durable, and so is every removal. -/
def link (directory : Directory) : Directory where
  entries := directory.entries.map fun entry => (entry.1, entry.2.link)
  removed := []
  sorted := directory.sorted.map _ fun _ _ h => h
  nonempty entry he := by
    obtain ⟨old, hOld, rfl⟩ := mem_map.1 he
    exact SegmentFiles.link_ne_absent (directory.nonempty old hOld)

section Lookup

variable (directory : Directory) (base other : Nat) (segment : SegmentFiles)

theorem mem_bases : base ∈ directory.bases ↔ directory.files base ≠ .absent := by
  constructor
  · intro h hNone
    obtain ⟨files, hFiles⟩ := Option.ne_none_iff_exists'.1 (valueOf_eq_none_iff.not.2 (not_not.2 h))
    rw [Directory.files, hFiles] at hNone
    exact directory.nonempty _ (mem_of_valueOf_eq_some hFiles) hNone
  · intro h
    by_contra hOut
    exact h (by rw [Directory.files, valueOf_eq_none_iff.2 hOut]; rfl)

@[simp] theorem files_setFiles :
    (directory.setFiles base segment).files = Function.update directory.files base segment := by
  funext b
  unfold setFiles
  split
  · rename_i h
    by_cases hb : b = base <;> simp [Directory.files, valueOf_removeEntry, hb, h]
  · by_cases hb : b = base <;> simp [Directory.files, valueOf_insertEntry, hb]

@[simp] theorem removed_setFiles :
    (directory.setFiles base segment).removed = directory.removed := by
  unfold setFiles
  split <;> rfl

@[simp] theorem files_link : directory.link.files = fun b => (directory.files b).link := by
  funext b
  have hMap : valueOf directory.link.entries b = (valueOf directory.entries b).map .link :=
    valueOf_map _ _ b
  rw [Directory.files, Directory.files, hMap]
  cases valueOf directory.entries b <;> rfl

@[simp] theorem file_setFile (name other : FileName) (file : Option File) :
    (directory.setFile name file).file other =
      if other = name then file else directory.file other := by
  obtain ⟨base, kind⟩ := name
  obtain ⟨base', kind'⟩ := other
  by_cases hBase : base' = base
  · subst hBase
    cases kind <;> cases kind' <;>
      simp [Directory.file, setFile, SegmentFiles.get, SegmentFiles.set]
  · simp [Directory.file, setFile, hBase]

theorem file_link (name : FileName) :
    directory.link.file name = (directory.file name).map File.link := by
  rw [Directory.file, Directory.files_link, Directory.file]
  cases name.kind <;> rfl

theorem files_eq :
    directory.files base = ⟨directory.file ⟨base, .store⟩, directory.file ⟨base, .index⟩⟩ :=
  rfl

theorem pairwise_bases : directory.bases.Pairwise (· < ·) :=
  directory.sorted.map _ fun _ _ h => h

/-- The segments in a directory are listed in increasing order. -/
theorem bases_eq {bases : List Nat} (hSorted : bases.Pairwise (· < ·))
    (hMem : ∀ b, b ∈ bases ↔ directory.files b ≠ .absent) : directory.bases = bases :=
  directory.pairwise_bases.eq_of_mem_iff hSorted fun b =>
    (directory.mem_bases b).trans (hMem b).symm

theorem entries_eq_map :
    directory.entries = directory.bases.map fun b => (b, directory.files b) := by
  have hFiles : ∀ entry ∈ directory.entries, (entry.1, directory.files entry.1) = entry := by
    intro entry he
    obtain ⟨before, after, hCut⟩ := append_of_mem he
    have hBefore : ∀ e ∈ before, e.1 < entry.1 := by
      intro e heBefore
      have hSorted := directory.sorted
      rw [hCut] at hSorted
      exact (pairwise_append.1 hSorted).2.2 e heBefore entry mem_cons_self
    have hValue : valueOf directory.entries entry.1 = some entry.2 := by
      rw [hCut]
      exact valueOf_cut hBefore entry.2 after
    rw [Directory.files, hValue]
    rfl
  rw [bases, map_map]
  conv_lhs => rw [← map_id directory.entries]
  exact map_congr_left fun entry he => (hFiles entry he).symm

end Lookup

end Directory

/-- One call that reaches the operating system. -/
inductive FileOp where
  | create (name : FileName)
  | write (name : FileName) (write : FileWrite)
  | sync (name : FileName)
  | remove (name : FileName)
  | syncDirectory
deriving DecidableEq

/-- What a successful call does to the directory. -/
def FileOp.apply (directory : Directory) : FileOp → Directory
  | create name => directory.setFile name (some .created)
  | write name w => directory.setFile name ((directory.file name).map (File.write w))
  | sync name => directory.setFile name ((directory.file name).map File.sync)
  | remove name =>
    match directory.file name with
    | some file =>
      { directory.setFile name none with removed := directory.removed ++ [(name, file)] }
    | none => directory
  | syncDirectory => directory.link

/-- The directory, and every directory that a crash of the running call could have left: one
before each of its file operations and the one now. -/
structure Disk where
  directory : Directory
  passed : List Directory

abbrev DiskOp : Type → Type :=
  Program Disk Exception

def Disk.perform (op : FileOp) (disk : Disk) : Disk where
  directory := op.apply disk.directory
  passed := disk.passed ++ [disk.directory]

def Disk.performAll (ops : List FileOp) (disk : Disk) : Disk :=
  ops.foldl (fun disk op => disk.perform op) disk

/-- The directory that a crash leaves when it strikes after some number of the file operations
made so far. -/
def Disk.crashed (disk : Disk) (count : Nat) : Directory :=
  disk.passed.getD count disk.directory

/-- The directory that is left when the process crashes after some number of the file operations
of a call, or after all of them. -/
def crashAfter {α : Type} (x : DiskOp α) (directory : Directory) (count : Nat) : Directory :=
  (x ⟨directory, []⟩).state.crashed count

def fileOp (op : FileOp) : DiskOp Unit :=
  Program.modify (Disk.perform op)

def readFile (name : FileName) : DiskOp (List UInt8) :=
  Program.read fun disk => disk.directory.content name

/-- `open` with `O_CREAT | O_EXCL`. -/
def createFile (name : FileName) : DiskOp Unit := do
  if ← Program.read fun disk => (disk.directory.file name).isSome then
    Program.fail (.runtimeError "Error (open_file): Failed to open file!")
  fileOp (.create name)

/-- `open` with `O_CREAT`. -/
def openOrCreateFile (name : FileName) : DiskOp Unit := do
  if ¬(← Program.read fun disk => (disk.directory.file name).isSome) then
    fileOp (.create name)

/-- The value of a computation that may throw. -/
def orThrow {σ α : Type} : Except Exception α → Program σ Exception α
  | .ok a => pure a
  | .error e => Program.fail e

section Crash

theorem Disk.crashed_mem (disk : Disk) (count : Nat) :
    disk.crashed count ∈ disk.passed ∨ disk.crashed count = disk.directory := by
  rw [Disk.crashed, getD_eq_getElem?_getD]
  cases hGet : disk.passed[count]? with
  | none => exact Or.inr rfl
  | some directory => exact Or.inl (mem_of_getElem? hGet)

section

variable (ops : List FileOp) (disk : Disk)
include ops disk

theorem Disk.passed_performAll : disk.passed <+: (disk.performAll ops).passed := by
  induction ops generalizing disk with
  | nil => exact prefix_rfl
  | cons op ops ih => exact (prefix_append _ [disk.directory]).trans (ih (disk.perform op))

theorem Disk.directory_performAll :
    (disk.performAll ops).directory = ops.foldl FileOp.apply disk.directory := by
  induction ops generalizing disk with
  | nil => rfl
  | cons op ops ih => exact ih (disk.perform op)

/-- A crash among a list of operations leaves what the first of them made. -/
theorem Disk.crashed_performAll (count : Nat) :
    (disk.performAll ops).crashed (disk.passed.length + count) =
      (ops.take count).foldl FileOp.apply disk.directory := by
  induction ops generalizing disk count with
  | nil => simp [performAll, crashed]
  | cons op ops ih =>
    cases count with
    | zero =>
      obtain ⟨more, hMore⟩ := passed_performAll ops (disk.perform op)
      change ((disk.perform op).performAll ops).crashed _ = disk.directory
      rw [crashed, ← hMore]
      simp [perform]
    | succ count =>
      have hRest := ih (disk.perform op) count
      have hLength : (disk.perform op).passed.length + count =
          disk.passed.length + (count + 1) := by
        simp only [perform, length_append, length_singleton]
        omega
      rwa [hLength] at hRest

end

/-- Removing files takes exactly these from the directory. -/
theorem Directory.file_removeAll (removed : List FileName) (directory : Directory)
    (name : FileName) :
    ((removed.map FileOp.remove).foldl FileOp.apply directory).file name =
      if name ∈ removed then none else directory.file name := by
  induction removed generalizing directory with
  | nil => simp
  | cons first rest ih =>
    have hFirst : (FileOp.apply directory (.remove first)).file name =
        if name = first then none else directory.file name := by
      cases hFile : directory.file first with
      | none =>
        rw [FileOp.apply, hFile]
        by_cases hName : name = first <;> simp [hName, hFile]
      | some file =>
        rw [FileOp.apply, hFile]
        exact directory.file_setFile first name none
    rw [map_cons, foldl_cons, ih, hFirst]
    by_cases hName : name = first <;> by_cases hRest : name ∈ rest <;> simp [hName, hRest]

end Crash

section Rules

open Program

variable {disk : Disk} {name : FileName} {failed : Exception → Disk → Prop} {halted : Disk → Prop}

@[simp] theorem wp_fileOp {op : FileOp} {okay : Unit → Disk → Prop} :
    (fileOp op).wp disk okay failed halted ↔ okay () (disk.perform op) :=
  Iff.rfl

@[simp] theorem wp_readFile {okay : List UInt8 → Disk → Prop} :
    (readFile name).wp disk okay failed halted ↔ okay (disk.directory.content name) disk :=
  Iff.rfl

@[simp] theorem wp_orThrow_ok {σ α : Type} {s : σ} {a : α} {okay : α → σ → Prop}
    {failed : Exception → σ → Prop} {halted : σ → Prop} :
    (orThrow (.ok a) : Program σ Exception α).wp s okay failed halted ↔ okay a s :=
  Iff.rfl

@[simp] theorem wp_orThrow_error {σ α : Type} {s : σ} {e : Exception} {okay : α → σ → Prop}
    {failed : Exception → σ → Prop} {halted : σ → Prop} :
    (orThrow (.error e) : Program σ Exception α).wp s okay failed halted ↔ failed e s :=
  Iff.rfl

end Rules

/-- Every directory that was passed through since a point of the call is good. -/
def Disk.Passes (Good : Directory → Prop) (start disk : Disk) : Prop :=
  ∀ passed ∈ disk.passed, passed ∈ start.passed ∨ Good passed

namespace Disk.Passes

variable {Good : Directory → Prop} {start disk : Disk}

theorem refl (disk : Disk) : Passes Good disk disk :=
  fun _ h => Or.inl h

variable (h : Passes Good start disk)
include h

theorem perform (hGood : Good disk.directory) (op : FileOp) :
    Passes Good start (disk.perform op) := by
  intro passed hPassed
  rcases mem_append.1 hPassed with hOld | hLast
  · exact h passed hOld
  · rw [mem_singleton.1 hLast]
    exact Or.inr hGood

theorem trans {disk' : Disk} (h' : Passes Good disk disk') : Passes Good start disk' := by
  intro passed hPassed
  rcases h' passed hPassed with hOld | hGood
  · exact h passed hOld
  · exact Or.inr hGood

theorem mono {Better : Directory → Prop} (hBetter : ∀ d, Good d → Better d) :
    Passes Better start disk :=
  fun passed hPassed => (h passed hPassed).imp_right (hBetter passed)

end Disk.Passes

/-- One directory is another one in which a segment has the given two files. -/
structure Directory.At (old : Directory) (base : Nat) (directory : Directory) (store index : File) :
    Prop where
  files : directory.files = Function.update old.files base ⟨some store, some index⟩
  removed : directory.removed = old.removed

namespace Directory.At

variable {old directory : Directory} {base : Nat} {store index : File}

variable (h : At old base directory store index)
include h

theorem files_base : directory.files base = ⟨some store, some index⟩ := by
  rw [h.files, Function.update_self]

theorem file_store : directory.file ⟨base, .store⟩ = some store := by
  rw [file, h.files_base]
  rfl

theorem file_index : directory.file ⟨base, .index⟩ = some index := by
  rw [file, h.files_base]
  rfl

theorem content_store : directory.content ⟨base, .store⟩ = store.content := by
  rw [content, h.file_store]

theorem content_index : directory.content ⟨base, .index⟩ = index.content := by
  rw [content, h.file_index]

theorem setFiles (store' index' : File) :
    At old base (directory.setFiles base ⟨some store', some index'⟩) store' index' where
  files := by
    rw [files_setFiles, h.files, Function.update_idem]
  removed := by
    rw [removed_setFiles, h.removed]

theorem write_store (w : FileWrite) :
    At old base (FileOp.apply directory (.write ⟨base, .store⟩ w)) (store.write w) index := by
  have hNew := h.setFiles (store.write w) index
  simpa [FileOp.apply, setFile, file, h.files_base, SegmentFiles.get, SegmentFiles.set] using hNew

theorem write_index (w : FileWrite) :
    At old base (FileOp.apply directory (.write ⟨base, .index⟩ w)) store (index.write w) := by
  have hNew := h.setFiles store (index.write w)
  simpa [FileOp.apply, setFile, file, h.files_base, SegmentFiles.get, SegmentFiles.set] using hNew

theorem sync_store :
    At old base (FileOp.apply directory (.sync ⟨base, .store⟩)) store.sync index := by
  have hNew := h.setFiles store.sync index
  simpa [FileOp.apply, setFile, file, h.files_base, SegmentFiles.get, SegmentFiles.set] using hNew

theorem sync_index :
    At old base (FileOp.apply directory (.sync ⟨base, .index⟩)) store index.sync := by
  have hNew := h.setFiles store index.sync
  simpa [FileOp.apply, setFile, file, h.files_base, SegmentFiles.get, SegmentFiles.set] using hNew

end Directory.At

end Stoneleaf
