import Stoneleaf.Log.LogSpec

/-!
What the server does with the directory of its write-ahead log: before opening it, it takes the
smallest store as the beginning of the log; after recovery it removes every segment but the
active one. Both walk over the directory in whatever order the operating system lists it.
-/

namespace Stoneleaf

open Library Program List Directory

/-- A listing of a directory: every file once, in any order. -/
structure Enumeration (directory : Directory) where
  names : List FileName
  nodup : names.Nodup
  mem_iff : ∀ name, name ∈ names ↔ directory.file name ≠ none

namespace Server

/-- The walks for the smallest and for the greatest base: every store is compared with the best
one so far. -/
def bestBase (better : Nat → Nat → Bool) : Option Nat → List FileName → Option Nat
  | best, [] => best
  | best, name :: rest =>
    if name.kind = .store ∧ best.all (better name.base) then
      bestBase better (some name.base) rest
    else bestBase better best rest

def smallestBase (names : List FileName) : Option Nat :=
  bestBase (fun base best => decide (base < best)) none names

def activeBase (names : List FileName) : Option Nat :=
  bestBase (fun base best => decide (base > best)) none names

/-- The configuration for a listing of the directory, as the log accepts it. -/
def setupConfig (names : List FileName) : Except Exception Config :=
  let initialLsn := (smallestBase names).getD 1
  if h : initialLsn = 0 then .error (.invalidArgument "initial_lsn must be nonzero")
  else .ok {
    maxIndexBytes := 1024 * Index.entrySize
    maxStoreBytes := 64 * 1024 * 1024
    initialLsn := initialLsn
    maxIndexBytes_lt := by decide
    maxStoreBytes_lt := by decide
    maxIndexBytes_valid := by decide
    maxStoreBytes_valid := by decide
    initialLsn_valid := h }

def removeOthers (active : Nat) : List FileName → DiskOp Unit
  | [] => pure ()
  | name :: rest => do
    if name.base ≠ active then fileOp (.remove name)
    removeOthers active rest

/-- Remove the files of every segment that is not the active one. The directory is listed twice. -/
def cleanupFinalizedSegments (listed listedAgain : List FileName) : DiskOp Unit :=
  match activeBase listed with
  | none => pure ()
  | some active => removeOthers active listedAgain

end Server

namespace Server

section Bases

variable {better : Nat → Nat → Bool} {names : List FileName} {target : Nat}

/-- A walk that reaches the best base stays there. -/
theorem bestBase_of_best (hBest : ∀ base, ⟨base, .store⟩ ∈ names → better base target = false) :
    bestBase better (some target) names = some target := by
  induction names with
  | nil => rfl
  | cons name rest ih =>
    have hRest := ih fun base hMem => hBest base (mem_cons_of_mem _ hMem)
    obtain ⟨base, kind⟩ := name
    cases kind with
    | index => simpa [bestBase] using hRest
    | store => simpa [bestBase, hBest base mem_cons_self] using hRest

variable (hStore : ⟨target, .store⟩ ∈ names)
include hStore

/-- The walk finds a base that no other one beats and that beats every other one. -/
theorem bestBase_eq (hBest : ∀ base, ⟨base, .store⟩ ∈ names → better base target = false)
    (hBeats : ∀ base, base ≠ target → ⟨base, .store⟩ ∈ names → better target base = true)
    (best : Option Nat) (hStart : ∀ base ∈ best, base ≠ target → better target base = true) :
    bestBase better best names = some target := by
  induction names generalizing best with
  | nil => cases hStore
  | cons name rest ih =>
    have hBestRest : ∀ base, ⟨base, .store⟩ ∈ rest → better base target = false :=
      fun base hMem => hBest base (mem_cons_of_mem _ hMem)
    by_cases hHead : name = ⟨target, .store⟩
    · subst hHead
      by_cases hSame : best = some target
      · subst hSame
        have hSelf := hBest target mem_cons_self
        simpa [bestBase, hSelf] using bestBase_of_best hBestRest
      · have hAll : best.all (better target) = true := by
          cases best with
          | none => rfl
          | some base =>
            exact hStart base rfl fun hEq => hSame (by rw [hEq])
        simpa [bestBase, hAll] using bestBase_of_best hBestRest
    · have hMem : ⟨target, .store⟩ ∈ rest := (mem_cons.1 hStore).resolve_left (Ne.symm hHead)
      have hBeatsRest : ∀ base, base ≠ target → ⟨base, .store⟩ ∈ rest →
          better target base = true := fun base hNe hMem =>
        hBeats base hNe (mem_cons_of_mem _ hMem)
      rw [bestBase]
      split
      · rename_i hStoreName
        refine ih hMem hBestRest hBeatsRest (some name.base) ?_
        intro base hBase hNe
        obtain rfl : name.base = base := Option.some.inj hBase
        refine hBeats _ hNe (mem_cons.2 (Or.inl ?_))
        rw [← hStoreName.1]
      · exact ih hMem hBestRest hBeatsRest best hStart

theorem smallestBase_eq (hLeast : ∀ base, ⟨base, .store⟩ ∈ names → target ≤ base) :
    smallestBase names = some target := by
  refine bestBase_eq hStore ?_ ?_ none (by simp)
  · intro base hMem
    simpa using hLeast base hMem
  · intro base hNe hMem
    simpa using Nat.lt_of_le_of_ne (hLeast base hMem) (Ne.symm hNe)

theorem activeBase_eq (hGreatest : ∀ base, ⟨base, .store⟩ ∈ names → base ≤ target) :
    activeBase names = some target := by
  refine bestBase_eq hStore ?_ ?_ none (by simp)
  · intro base hMem
    simpa using hGreatest base hMem
  · intro base hNe hMem
    simpa using Nat.lt_of_le_of_ne (hGreatest base hMem) hNe

/-- The log is taken to begin at the least store. -/
theorem setupConfig_eq (hLeast : ∀ base, ⟨base, .store⟩ ∈ names →
    target ≤ base) (hPos : target ≠ 0) :
    ∃ config, setupConfig names = .ok config ∧ config.initialLsn = target := by
  have hSmallest : (smallestBase names).getD 1 = target := by
    rw [smallestBase_eq hStore hLeast]
    rfl
  unfold setupConfig
  rw [dif_neg (by rwa [hSmallest])]
  exact ⟨_, rfl, hSmallest⟩

end Bases

theorem removeOthers_run (active : Nat) (names : List FileName) (disk : Disk) :
    removeOthers active names disk =
      .ok () (disk.performAll ((names.filter (·.base ≠ active)).map .remove)) := by
  induction names generalizing disk with
  | nil => rfl
  | cons name rest ih =>
    by_cases hActive : name.base = active
    · simpa [removeOthers, hActive] using ih disk
    · have hRest := ih (disk.perform (.remove name))
      simp only [removeOthers, hActive, ne_eq, not_false_eq_true, if_true, decide_true,
        filter_cons_of_pos, map_cons]
      exact hRest

end Server

namespace Segment.Chained

variable {segments : List Segment} {first : Nat}

/-- Segments picked from a chain form a chain exactly when none is picked before one that is
not, as long as the last one is picked. -/
theorem filter_iff (hSorted : segments.Pairwise fun a b => a.base < b.base)
    (hChained : Chained first segments) {picks : Segment → Bool}
    (hLast : ∀ last ∈ segments.getLast?, picks last) :
    (∃ start, Chained start (segments.filter picks)) ↔
      segments.Pairwise fun a b => picks a → picks b := by
  induction segments generalizing first with
  | nil => simp [Chained]
  | cons a rest ih =>
    obtain ⟨hHead, hRestSorted⟩ := pairwise_cons.1 hSorted
    have hRestLast : ∀ last ∈ rest.getLast?, picks last := by
      intro last hMem
      cases rest with
      | nil => cases hMem
      | cons b rest => exact hLast last (by simpa [getLast?_cons_cons] using hMem)
    have hRest := ih hRestSorted hChained.2 hRestLast
    rw [pairwise_cons, ← hRest]
    by_cases hPicks : picks a = true
    · rw [filter_cons_of_pos hPicks]
      constructor
      · rintro ⟨start, -, hTail⟩
        have hLater := hRest.1 ⟨_, hTail⟩
        refine ⟨fun b hMem _ => ?_, _, hTail⟩
        cases rest with
        | nil => cases hMem
        | cons c rest =>
          have hNext : picks c = true := by
            -- otherwise a later segment would have to begin where `c` does
            by_contra hSkipped
            have hPicked : (rest.filter picks) ≠ [] := by
              intro hNone
              cases hEnd : (c :: rest).getLast? with
              | none => simp at hEnd
              | some last =>
                have hIn : last ∈ (c :: rest).filter picks :=
                  mem_filter.2 ⟨mem_of_getLast? hEnd, hRestLast last hEnd⟩
                rw [filter_cons_of_neg hSkipped, hNone] at hIn
                cases hIn
            rw [filter_cons_of_neg hSkipped] at hTail
            obtain ⟨d, tail, hFilter⟩ := exists_cons_of_ne_nil hPicked
            rw [hFilter] at hTail
            have hMemD : d ∈ rest :=
              (mem_filter.1 (hFilter ▸ mem_cons_self : d ∈ rest.filter picks)).1
            have hLt : c.base < d.base := (pairwise_cons.1 hRestSorted).1 d hMemD
            have hC : c.base = a.next := hChained.2.1
            have hD : d.base = a.next := hTail.1
            omega
          rcases mem_cons.1 hMem with rfl | hMem
          · exact hNext
          · exact (pairwise_cons.1 hLater).1 b hMem hNext
      · rintro ⟨hAll, -⟩
        refine ⟨first, hChained.1, ?_⟩
        rw [filter_eq_self.2 fun b hMem => hAll b hMem hPicks]
        exact hChained.2
    · rw [filter_cons_of_neg hPicks]
      exact ⟨fun h => ⟨fun b _ hTrue => absurd hTrue hPicks, h⟩, fun h => h.2⟩

end Segment.Chained

/-- The directory of a log that was opened and recovered: finalized segments and the active one. -/
structure WalDirectory where
  directory : Directory
  finalized : List (Extent LogRecord)
  active : Extent LogRecord
  first : Nat
  bases : directory.bases = (finalized ++ [active]).map Extent.base
  held : ∀ extent ∈ finalized ++ [active], Held walFormat directory extent
  chained : Segment.Chained first ((finalized ++ [active]).map Extent.segment)

namespace WalDirectory

variable (wal : WalDirectory)

def extents : List (Extent LogRecord) :=
  wal.finalized ++ [wal.active]

/-- The files that a crashed cleanup has removed. -/
def removed (names : List FileName) (count : Nat) : List FileName :=
  (names.filter (·.base ≠ wal.active.base)).take count

/-- What a crash after some number of removals of the cleanup leaves. -/
def left (listed listedAgain : Enumeration wal.directory) (count : Nat) : Directory :=
  crashAfter (Server.cleanupFinalizedSegments listed.names listedAgain.names) wal.directory count

/-- The next startup succeeds and the log it opens shows the records of the active segment. -/
def Restarts (directory : Directory) (names : List FileName) : Prop :=
  ∃ config records, Server.setupConfig names = .ok config ∧
    Log.Exposes config directory records ∧ ∀ record ∈ wal.active.records, record ∈ records

/-- Each segment's index goes no later than its store, and its store no earlier than the stores
of the segments before it. -/
def Orderly (removed : List FileName) : Prop :=
  ∀ base, ⟨base, .store⟩ ∈ removed → ⟨base, .index⟩ ∈ removed ∧
    ∀ earlier ∈ wal.directory.bases, earlier < base → ⟨earlier, .store⟩ ∈ removed

theorem mem_extents_active : wal.active ∈ wal.extents := by
  simp [extents]

theorem pairwise_extents : wal.extents.Pairwise fun a b => a.base < b.base := by
  have hSorted := wal.directory.pairwise_bases
  rwa [wal.bases, pairwise_map] at hSorted

variable {wal} {extent : Extent LogRecord}

theorem le_active (h : extent ∈ wal.extents) :
    extent.base ≤ wal.active.base := by
  rcases mem_append.1 h with hMem | hMem
  · exact Nat.le_of_lt
      ((pairwise_append.1 wal.pairwise_extents).2.2 extent hMem _ mem_cons_self)
  · rw [mem_singleton.1 hMem]

theorem mem_names (listed : Enumeration wal.directory) (base : Nat) :
    ⟨base, .store⟩ ∈ listed.names ↔ ∃ extent ∈ wal.extents, extent.base = base := by
  rw [listed.mem_iff]
  constructor
  · intro hFile
    have hBase : base ∈ wal.directory.bases := by
      rw [mem_bases, files_eq]
      intro hAbsent
      exact hFile (congrArg SegmentFiles.store hAbsent)
    rw [wal.bases] at hBase
    exact mem_map.1 hBase
  · rintro ⟨extent, hMem, rfl⟩
    obtain ⟨store, index, hFiles, -⟩ := (wal.held extent hMem).files
    simp [Directory.file, hFiles, SegmentFiles.get]

/-- The cleanup removes the files of all other segments in the order they are listed in. -/
theorem file_left (listed listedAgain : Enumeration wal.directory) (count : Nat) (name : FileName) :
    (wal.left listed listedAgain count).file name =
      if name ∈ wal.removed listedAgain.names count then none else wal.directory.file name := by
  have hActive : Server.activeBase listed.names = some wal.active.base := by
    refine Server.activeBase_eq ((mem_names listed _).2 ⟨_, wal.mem_extents_active, rfl⟩) ?_
    intro base hMem
    obtain ⟨extent, hExtent, rfl⟩ := (mem_names listed _).1 hMem
    exact le_active hExtent
  have hCrashed := Disk.crashed_performAll
    ((listedAgain.names.filter (·.base ≠ wal.active.base)).map .remove) ⟨wal.directory, []⟩ count
  rw [length_nil, Nat.zero_add, ← map_take] at hCrashed
  rw [left, crashAfter, Server.cleanupFinalizedSegments, hActive]
  simp only [Server.removeOthers_run, Outcome.state]
  rw [hCrashed]
  exact file_removeAll _ _ name

section Left

variable {listed listedAgain : Enumeration wal.directory} {count : Nat}

variable (wal) in
/-- The segments whose stores are still there. -/
def stored (removed : List FileName) : List (Extent LogRecord) :=
  wal.extents.filter fun extent => (⟨extent.base, .store⟩ : FileName) ∉ removed

/-- Nothing is cut off the segments that are still there. -/
def uncut (extents : List (Extent LogRecord)) : List (Extent LogRecord × Nat) :=
  extents.map fun extent => (extent, extent.records.length)

theorem mem_stored {removed : List FileName} :
    extent ∈ wal.stored removed ↔ extent ∈ wal.extents ∧ ⟨extent.base, .store⟩ ∉ removed := by
  simp [stored]

theorem active_mem_stored : wal.active ∈ wal.stored (wal.removed listedAgain.names count) := by
  refine mem_stored.2 ⟨wal.mem_extents_active, fun hRemoved => ?_⟩
  have hOther := (mem_filter.1 (mem_of_mem_take hRemoved)).2
  simp at hOther

theorem cut_left (hStored : extent ∈ wal.stored (wal.removed listedAgain.names count)) :
    Cut walFormat (wal.left listed listedAgain count) extent extent.records.length := by
  obtain ⟨hMem, hKept⟩ := mem_stored.1 hStored
  obtain ⟨store, index, hFiles, hStore, hIndex⟩ := (wal.held extent hMem).files
  refine ⟨(wal.held extent hMem).sound, le_rfl, ⟨store, [], ?_, ?_, rfl, ?_⟩, ?_⟩
  · change (wal.left listed listedAgain count).file ⟨extent.base, .store⟩ = some store
    rw [file_left, if_neg hKept]
    exact congrArg SegmentFiles.store hFiles
  · simp [hStore]
  · rw [hStore]
  · intro index' hIndex'
    rw [files_eq] at hIndex'
    simp only [file_left] at hIndex'
    split at hIndex'
    · cases hIndex'
    · obtain rfl : index = index' := by
        simpa [Directory.file, hFiles, SegmentFiles.get] using hIndex'
      rw [hIndex]

/-- Without a stray index, exactly the segments with a store are left. -/
theorem remains_left
    (hIndexes : ∀ base, ⟨base, .store⟩ ∈ wal.removed listedAgain.names count →
      ⟨base, .index⟩ ∈ wal.removed listedAgain.names count) :
    Remains walFormat (wal.left listed listedAgain count)
      (uncut (wal.stored (wal.removed listedAgain.names count))) := by
  constructor
  · rw [uncut, map_map]
    apply bases_eq
    · rw [pairwise_map]
      exact wal.pairwise_extents.filter _
    · intro base
      rw [files_eq]
      simp only [file_left, mem_map, Function.comp_apply]
      constructor
      · rintro ⟨extent, hStored, rfl⟩ hAbsent
        obtain ⟨hMem, hKept⟩ := mem_stored.1 hStored
        obtain ⟨store, index, hFiles, -⟩ := (wal.held extent hMem).files
        have hStore := congrArg SegmentFiles.store hAbsent
        simp [hKept, Directory.file, hFiles, SegmentFiles.get, SegmentFiles.absent] at hStore
      · intro hPresent
        by_cases hStore : ⟨base, .store⟩ ∈ wal.removed listedAgain.names count
        · exact absurd (by simp [hStore, hIndexes base hStore, SegmentFiles.absent]) hPresent
        · have hBase : base ∈ wal.directory.bases := by
            rw [mem_bases]
            intro hAbsent
            apply hPresent
            simp [Directory.file, hAbsent, SegmentFiles.absent, SegmentFiles.get]
          rw [wal.bases] at hBase
          obtain ⟨extent, hMem, rfl⟩ := mem_map.1 hBase
          exact ⟨extent, mem_stored.2 ⟨hMem, hStore⟩, rfl⟩
  · intro cut hMem
    obtain ⟨extent, hStored, rfl⟩ := mem_map.1 hMem
    exact cut_left hStored

/-- A listing of what is left begins the log at the first segment with a store. -/
theorem setupConfig_left (relisted : Enumeration (wal.left listed listedAgain count))
    {first : Extent LogRecord} {rest : List (Extent LogRecord)}
    (hStored : wal.stored (wal.removed listedAgain.names count) = first :: rest) :
    ∃ config, Server.setupConfig relisted.names = .ok config ∧ config.initialLsn = first.base := by
  have hNames : ∀ base, ⟨base, .store⟩ ∈ relisted.names ↔
      ∃ extent ∈ wal.stored (wal.removed listedAgain.names count), extent.base = base := by
    intro base
    rw [relisted.mem_iff, file_left]
    constructor
    · intro hFile
      split at hFile
      · exact absurd rfl hFile
      · rename_i hKept
        obtain ⟨extent, hMem, rfl⟩ := (mem_names listed base).1 ((listed.mem_iff _).2 hFile)
        exact ⟨extent, mem_stored.2 ⟨hMem, hKept⟩, rfl⟩
    · rintro ⟨extent, hMem, rfl⟩
      rw [if_neg (mem_stored.1 hMem).2]
      exact (listed.mem_iff _).1 ((mem_names listed _).2 ⟨extent, (mem_stored.1 hMem).1, rfl⟩)
  have hSorted : (first :: rest).Pairwise fun a b => a.base < b.base := by
    rw [← hStored]
    exact wal.pairwise_extents.filter _
  have hFirst : first ∈ wal.stored (wal.removed listedAgain.names count) := by
    rw [hStored]
    exact mem_cons_self
  refine Server.setupConfig_eq ((hNames _).2 ⟨first, hFirst, rfl⟩) ?_ ?_
  · intro base hMem
    obtain ⟨extent, hExtent, rfl⟩ := (hNames base).1 hMem
    rw [hStored] at hExtent
    rcases mem_cons.1 hExtent with rfl | hRest
    · exact le_rfl
    · exact Nat.le_of_lt ((pairwise_cons.1 hSorted).1 extent hRest)
  · exact Nat.pos_iff_ne_zero.1 (wal.held first (mem_stored.1 hFirst).1).sound.base_pos

/-- The segments with a store are chained exactly when the stores were removed in order. -/
theorem chained_stored_iff {removed : List FileName} (hActive : wal.active ∈ wal.stored removed) :
    (∃ start, Segment.Chained start ((uncut (wal.stored removed)).map Segment.ofCut)) ↔
      wal.extents.Pairwise fun a b =>
        (⟨b.base, .store⟩ : FileName) ∈ removed → (⟨a.base, .store⟩ : FileName) ∈ removed := by
  let picks : Segment → Bool := fun segment => (⟨segment.base, .store⟩ : FileName) ∉ removed
  have hMap : (uncut (wal.stored removed)).map Segment.ofCut =
      (wal.extents.map Extent.segment).filter picks := by
    rw [uncut, map_map, stored, filter_map]
    rfl
  have hSorted : (wal.extents.map Extent.segment).Pairwise fun a b => a.base < b.base := by
    rw [pairwise_map]
    exact wal.pairwise_extents
  rw [hMap, Segment.Chained.filter_iff hSorted wal.chained, pairwise_map]
  · simp [picks, Extent.segment, not_imp_not]
  · intro last hLast
    rw [extents, map_append, map_singleton, getLast?_append] at hLast
    obtain rfl : wal.active.segment = last := by simpa using hLast
    exact decide_eq_true (mem_stored.1 hActive).2

theorem exists_of_mem_removed {base : Nat}
    (hRemoved : ⟨base, .store⟩ ∈ wal.removed listedAgain.names count) :
    ∃ extent ∈ wal.extents, extent.base = base :=
  (mem_names listedAgain base).1 (mem_filter.1 (mem_of_mem_take hRemoved)).1

/-- The log does not open on an index whose store is gone. -/
theorem index_removed_of_exposes {config : Config} {records : List LogRecord}
    (hExposes : Log.Exposes config (wal.left listed listedAgain count) records) {base : Nat}
    (hRemoved : ⟨base, .store⟩ ∈ wal.removed listedAgain.names count) :
    ⟨base, .index⟩ ∈ wal.removed listedAgain.names count := by
  by_contra hStray
  obtain ⟨extent, hMem, rfl⟩ := exists_of_mem_removed hRemoved
  obtain ⟨store, index, hFiles, -⟩ := (wal.held extent hMem).files
  have hLeft : (wal.left listed listedAgain count).files extent.base = ⟨none, some index⟩ := by
    rw [files_eq, file_left, file_left, if_pos hRemoved, if_neg hStray]
    simp [Directory.file, hFiles, SegmentFiles.get]
  have hPresent : (wal.left listed listedAgain count).files extent.base ≠ .absent := by
    simp [hLeft, SegmentFiles.absent]
  exact Log.not_exposes_of_orphan hPresent (by rw [hLeft]) records hExposes

theorem orderly_of_restarts {names : List FileName}
    (hRestarts : wal.Restarts (wal.left listed listedAgain count) names) :
    wal.Orderly (wal.removed listedAgain.names count) := by
  obtain ⟨config, records, -, hExposes, -⟩ := hRestarts
  have hSome : uncut (wal.stored (wal.removed listedAgain.names count)) ≠ [] := by
    simpa [uncut] using ne_nil_of_mem active_mem_stored
  have hRemains : Remains walFormat (wal.left listed listedAgain count) _ :=
    remains_left fun _ => index_removed_of_exposes hExposes
  have hChained := ((Log.exposes_iff hRemains hSome).1 hExposes).1
  have hStores := (chained_stored_iff active_mem_stored).1 ⟨_, hChained⟩
  intro base hRemoved
  refine ⟨index_removed_of_exposes hExposes hRemoved, fun earlier hEarlier hLt => ?_⟩
  obtain ⟨b, hb, rfl⟩ := exists_of_mem_removed hRemoved
  rw [wal.bases] at hEarlier
  obtain ⟨a, ha, rfl⟩ := mem_map.1 hEarlier
  obtain ⟨i, hi, rfl⟩ := getElem_of_mem ha
  obtain ⟨j, hj, rfl⟩ := getElem_of_mem hb
  rcases Nat.lt_trichotomy i j with hij | rfl | hij
  · exact pairwise_iff_getElem.1 hStores i j hi hj hij hRemoved
  · exact absurd hLt (Nat.lt_irrefl _)
  · have hBefore := pairwise_iff_getElem.1 wal.pairwise_extents j i hj hi hij
    exact absurd hBefore (Nat.lt_asymm hLt)

theorem restarts_of_orderly (hOrderly : wal.Orderly (wal.removed listedAgain.names count))
    (relisted : Enumeration (wal.left listed listedAgain count)) :
    wal.Restarts (wal.left listed listedAgain count) relisted.names := by
  have hActive : wal.active ∈ wal.stored (wal.removed listedAgain.names count) := active_mem_stored
  obtain ⟨first, rest, hStored⟩ := exists_cons_of_ne_nil (ne_nil_of_mem hActive)
  obtain ⟨config, hConfig, hInitial⟩ := setupConfig_left relisted hStored
  have hSome : uncut (wal.stored (wal.removed listedAgain.names count)) ≠ [] := by
    simp [uncut, hStored]
  have hStores : wal.extents.Pairwise fun a b =>
      (⟨b.base, .store⟩ : FileName) ∈ wal.removed listedAgain.names count →
        (⟨a.base, .store⟩ : FileName) ∈ wal.removed listedAgain.names count := by
    refine wal.pairwise_extents.imp_of_mem fun {a b} ha hb hLt hRemoved => ?_
    refine (hOrderly b.base hRemoved).2 a.base ?_ hLt
    rw [wal.bases]
    exact mem_map.2 ⟨a, ha, rfl⟩
  obtain ⟨start, hChained⟩ := (chained_stored_iff hActive).2 hStores
  have hStart : start = config.initialLsn := by
    rw [hStored, uncut, map_cons, map_cons] at hChained
    exact hChained.1.symm.trans hInitial.symm
  rw [hStart] at hChained
  have hRemains : Remains walFormat (wal.left listed listedAgain count) _ :=
    remains_left fun base hRemoved => (hOrderly base hRemoved).1
  refine ⟨config, _, hConfig, (Log.exposes_iff hRemains hSome).2 ⟨hChained, rfl⟩, ?_⟩
  intro record hRecord
  refine mem_flatMap.2 ⟨(wal.active, wal.active.records.length), ?_, ?_⟩
  · exact mem_map.2 ⟨wal.active, hActive, rfl⟩
  · rwa [take_length]

variable (listed listedAgain count) in
/-- One listing of what is left. -/
def relisting : Enumeration (wal.left listed listedAgain count) where
  names := listed.names.filter (· ∉ wal.removed listedAgain.names count)
  nodup := listed.nodup.filter _
  mem_iff name := by
    rw [file_left, mem_filter, listed.mem_iff]
    by_cases hRemoved : name ∈ wal.removed listedAgain.names count <;> simp [hRemoved]

end Left

/-- After a crash in the middle of the cleanup the server starts again, with all records of the
active segment, exactly when the files were removed in an orderly way. -/
theorem cleanup_restarts_iff (wal : WalDirectory) (listed listedAgain : Enumeration wal.directory)
    (count : Nat) (relisted : Enumeration (wal.left listed listedAgain count)) :
    wal.Restarts (wal.left listed listedAgain count) relisted.names ↔
      wal.Orderly (wal.removed listedAgain.names count) :=
  ⟨orderly_of_restarts, fun hOrderly => restarts_of_orderly hOrderly relisted⟩

section TwoSegments

/-- The record that begins the first transaction. -/
def beginning (lsn : UInt64) : LogRecord :=
  ⟨lsn, .txnBegin, 1, 0, []⟩

theorem sound_beginning (lsn : UInt64) (hPos : lsn ≠ 0) :
    Extent.Sound walFormat ⟨lsn.toNat, [beginning lsn]⟩ where
  base_pos := Nat.pos_of_ne_zero fun hZero => hPos (UInt64.toNat_inj.1 hZero)
  storable record hr := by
    obtain rfl : record = beginning lsn := by simpa using hr
    refine ⟨_, (WalRecordCodec.encode_eq_ok_iff _).2 ⟨?_, by simp [beginning], rfl⟩, ?_⟩
    · simp [WalRecordCodec.validateFields, beginning, hPos]
    · simp [Framable, beginning, WalRecordCodec.headerSize]
  numbered k record hr := by
    cases k with
    | zero =>
      obtain rfl : beginning lsn = record := by simpa using hr
      rfl
    | succ k => simp at hr
  count_le := by simp
  offsets_lt := by simp [offsetsFrom]

def holding (records : List LogRecord) : SegmentFiles :=
  ⟨some (.durable (storeImage walFormat records)), some (.durable (indexImage walFormat records))⟩

/-- A log with one finalized segment. -/
def twoSegments : WalDirectory where
  directory := {
    entries := [(1, holding [beginning 1]), (2, holding [beginning 2])]
    removed := []
    sorted := by simp
    nonempty := by simp [holding, SegmentFiles.absent] }
  finalized := [⟨1, [beginning 1]⟩]
  active := ⟨2, [beginning 2]⟩
  first := 1
  bases := rfl
  held extent hMem := by
    rcases mem_pair.1 hMem with rfl | rfl
    · exact ⟨sound_beginning 1 (by decide), _, _, rfl, rfl, rfl⟩
    · exact ⟨sound_beginning 2 (by decide), _, _, rfl, rfl, rfl⟩
  chained := ⟨rfl, rfl, trivial⟩

/-- The operating system may list the store of the finalized segment first. -/
def storeFirst : Enumeration twoSegments.directory where
  names := [⟨1, .store⟩, ⟨1, .index⟩, ⟨2, .store⟩, ⟨2, .index⟩]
  nodup := by decide
  mem_iff name := by
    obtain ⟨base, kind⟩ := name
    have hFile : twoSegments.directory.file ⟨base, kind⟩ ≠ none ↔ base = 1 ∨ base = 2 := by
      by_cases hOne : base = 1
      · cases kind <;> simp [twoSegments, Directory.file, Directory.files, valueOf_cons, holding,
          SegmentFiles.get, hOne]
      · by_cases hTwo : base = 2
        · cases kind <;> simp [twoSegments, Directory.file, Directory.files, valueOf_cons, holding,
            SegmentFiles.get, hTwo]
        · have hAbsent : twoSegments.directory.files base = .absent := by
            by_contra hPresent
            have hBase := (mem_bases _ _).2 hPresent
            rw [twoSegments.bases] at hBase
            simp [twoSegments, hOne, hTwo] at hBase
          cases kind <;> simp [Directory.file, hAbsent, SegmentFiles.absent, SegmentFiles.get,
            hOne, hTwo]
    rw [hFile]
    cases kind <;> simp

/-- A crash right after that store was removed leaves a directory on which the server does not
start. -/
theorem cleanup_prevents_restart :
    ¬twoSegments.Restarts (twoSegments.left storeFirst storeFirst 1)
      (relisting storeFirst storeFirst 1).names := by
  intro hRestarts
  have hRemoved : twoSegments.removed storeFirst.names 1 = [⟨1, .store⟩] := by decide
  have hOrderly := orderly_of_restarts hRestarts 1
  rw [hRemoved] at hOrderly
  exact absurd (hOrderly (by decide)).1 (by decide)

end TwoSegments

end WalDirectory

end Stoneleaf
