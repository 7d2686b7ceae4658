import Stoneleaf.Log.LogLoss
import Stoneleaf.Raft.RaftLogList

/-!
A process crash during a truncation. The segment with the boundary is shortened first and the
later segments go one file at a time, from the front. Until the last of their stores is gone
there is a gap behind the boundary, and a log with a gap does not open.
-/

namespace Stoneleaf

open Library Program List

namespace RaftLog

variable {log : RaftLog} {before a b : List (Extent RaftMutationEntry)}
  {last extent : Extent RaftMutationEntry} {fromIndex count : Nat}

section Left

/-- The segments that are left by a crash, as far as they have a store. -/
def leftCuts (a : List (Extent RaftMutationEntry)) (extent : Extent RaftMutationEntry)
    (b : List (Extent RaftMutationEntry)) (fromIndex count : Nat) :
    List (Extent RaftMutationEntry × Nat) :=
  a.map wholeCut ++ (extent, fromIndex - extent.base) ::
    (b.drop (gone extent fromIndex count)).map wholeCut

theorem map_base_leftCuts :
    (leftCuts a extent b fromIndex count).map (fun cut => cut.1.base) =
      (a ++ extent :: b.drop (gone extent fromIndex count)).map Extent.base := by
  simp only [leftCuts, map_append, map_cons, map_map]
  rfl

theorem Opened.pairwise_base (h : Opened log before last)
    (hBoundary : Boundary before last fromIndex a extent b) :
    (a ++ extent :: b).Pairwise fun e e' => e.next ≤ e'.base ∧ e.base < e'.base := by
  rw [← hBoundary.cut]
  exact Stoneleaf.pairwise_base h.chained h.nonempty

/-- The stores that are not removed are those of the other segments. -/
theorem mem_remaining_iff {taken base : Nat}
    (hPairwise : (a ++ extent :: b).Pairwise fun e e' => e.next ≤ e'.base ∧ e.base < e'.base) :
    (base ∉ (b.take taken).map Extent.base ∧ ∃ e ∈ a ++ extent :: b, e.base = base) ↔
      base ∈ (a ++ extent :: b.drop taken).map Extent.base := by
  constructor
  · rintro ⟨hOut, e, he, rfl⟩
    rw [← take_append_drop taken b, ← cons_append, ← append_assoc] at he
    refine mem_map_of_mem ?_
    rcases mem_append.1 he with hFront | hBack
    · rcases mem_append.1 hFront with hIn | hIn
      · exact mem_append_left _ hIn
      · rcases mem_cons.1 hIn with rfl | hIn
        · simp
        · exact absurd (mem_map_of_mem hIn) hOut
    · simp [hBack]
  · intro hIn
    obtain ⟨e, he, rfl⟩ := mem_map.1 hIn
    have hSub : (a ++ extent :: b.drop taken).Sublist (a ++ extent :: b) :=
      ((drop_sublist taken b).cons_cons extent).append_left a
    refine ⟨fun hTaken => ?_, e, hSub.subset he, rfl⟩
    obtain ⟨e', he', hEq⟩ := mem_map.1 hTaken
    rw [← take_append_drop taken b, ← singleton_append, ← append_assoc] at hPairwise
    obtain ⟨-, hRest, hCross⟩ := pairwise_append.1 hPairwise
    have hIn : e ∈ a ++ [extent] ∨ e ∈ b.drop taken := by simpa [or_assoc] using he
    rcases hIn with hIn | hIn
    · have hLt := (hCross e hIn e' (mem_append_left _ he')).2
      omega
    · have hLt := ((pairwise_append.1 hRest).2.2 e' he' e hIn).2
      omega

variable (h : Opened log before last) (hBoundary : Boundary before last fromIndex a extent b)
include h hBoundary

theorem stored_leftBy (hStarted : 0 < count) :
    Preserved raftFormat (leftBy log.disk.directory extent b fromIndex count)
      (leftCuts a extent b fromIndex count) := by
  have hPairwise := h.pairwise_base hBoundary
  have hMem : extent ∈ before ++ [last] := by simp [hBoundary.cut]
  obtain ⟨store, index, hAt, hStore, hIndex, -⟩ :=
    shortened_spec fromIndex (h.held extent hMem) hStarted
  have hShort : ∀ base, ((shortened log.disk.directory extent fromIndex count).files base).store ≠
      none ↔ ∃ e ∈ a ++ extent :: b, e.base = base := by
    intro base
    rw [← hBoundary.cut, ← h.filed.store_ne_none_iff, hAt.files]
    by_cases hBase : base = extent.base
    · rw [hBase, Function.update_self]
      exact iff_of_true (by simp) (h.filed.store_ne_none_iff.2 ⟨extent, hMem, rfl⟩)
    · rw [Function.update_of_ne hBase]
  have hLeft : ∀ base, ((leftBy log.disk.directory extent b fromIndex count).files base).store ≠
      none ↔ base ∈ (a ++ extent :: b.drop (gone extent fromIndex count)).map Extent.base := by
    intro base
    rw [← mem_remaining_iff hPairwise, ← hShort, store_leftBy]
    simp
  have hSame : ∀ e ∈ a ++ extent :: b.drop (gone extent fromIndex count),
      (leftBy log.disk.directory extent b fromIndex count).files e.base =
        (shortened log.disk.directory extent fromIndex count).files e.base := fun e he =>
    files_leftBy _ ((mem_remaining_iff hPairwise).2 (mem_map_of_mem he)).1
  have hWhole : ∀ e ∈ a ++ b.drop (gone extent fromIndex count),
      Cut raftFormat (leftBy log.disk.directory extent b fromIndex count) e e.records.length := by
    intro e he
    have hIn : e ∈ a ++ extent :: b := by
      rcases mem_append.1 he with he | he
      · exact mem_append_left _ he
      · exact mem_append_right _ (mem_cons_of_mem _ (mem_of_mem_drop he))
    have hNe : e.base ≠ extent.base := by
      obtain ⟨-, hRest, hCross⟩ := pairwise_append.1 hPairwise
      rcases mem_append.1 he with he | he
      · exact (hCross e he extent mem_cons_self).2.ne
      · exact ((pairwise_cons.1 hRest).1 e (mem_of_mem_drop he)).2.ne'
    refine (h.held e (hBoundary.cut ▸ hIn)).cut.of_resembles (Or.inl ?_)
    rw [hSame e, hAt.files, Function.update_of_ne hNe]
    rcases mem_append.1 he with he | he
    · exact mem_append_left _ he
    · exact mem_append_right _ (mem_cons_of_mem _ he)
  refine ⟨?_, ?_⟩
  · rw [map_base_leftCuts]
    refine (Directory.pairwise_bases _ |>.filter _).eq_of_mem_iff ?_ fun base => ?_
    · have hSub : (a ++ extent :: b.drop (gone extent fromIndex count)).Sublist
        (a ++ extent :: b) := ((drop_sublist _ b).cons_cons extent).append_left a
      exact pairwise_map.2 ((hPairwise.sublist hSub).imp fun hBoth => hBoth.2)
    · rw [mem_filter, Option.isSome_iff_ne_none, hLeft, Directory.mem_bases]
      refine ⟨fun hBoth => hBoth.2, fun hIn => ⟨fun hAbsent => ?_, hIn⟩⟩
      have hStore := (hLeft base).2 hIn
      rw [hAbsent] at hStore
      exact hStore rfl
  · intro cut hCut
    rcases mem_append.1 hCut with hIn | hIn
    · obtain ⟨e, he, rfl⟩ := mem_map.1 hIn
      exact hWhole e (mem_append_left _ he)
    · rcases mem_cons.1 hIn with rfl | hIn
      · have hFiles := hSame extent (by simp)
        rw [hAt.files_base] at hFiles
        refine ⟨(h.held extent hMem).sound, ?_, ⟨store, [], ?_, ?_, rfl, ?_⟩, ?_⟩
        · have hHigh := hBoundary.high
          rw [Extent.next] at hHigh
          change fromIndex - extent.base ≤ extent.records.length
          omega
        · rw [hFiles]
        · rw [hStore, append_nil]
        · rw [hStore]
          exact storeImage_isPrefix _ (List.take_prefix _ _)
        · intro file hFile
          rw [hFiles] at hFile
          obtain rfl : index = file := Option.some.inj hFile
          exact hIndex
      · obtain ⟨e, he, rfl⟩ := mem_map.1 hIn
        exact hWhole e (mem_append_right _ he)

/-- Until the last of the stores is gone, the segments behind the boundary do not follow it. -/
theorem chained_leftCuts_iff (hStarted : 0 < count) :
    Segment.Chained 1 ((leftCuts a extent b fromIndex count).map Segment.ofCut) ↔
      b.length ≤ gone extent fromIndex count := by
  have hChained := h.chained
  rw [hBoundary.cut, map_append, Segment.chained_append] at hChained
  have hEnd : (Segment.ofCut (extent, fromIndex - extent.base)).next = fromIndex := by
    change extent.base + (fromIndex - extent.base) = fromIndex
    have hLow := hBoundary.low
    omega
  rw [leftCuts, map_append, map_ofCut_wholeCut, Segment.chained_append, map_cons,
    map_ofCut_wholeCut, Segment.Chained, hEnd, and_iff_right hChained.1,
    and_iff_right (show (Segment.ofCut (extent, fromIndex - extent.base)).base =
      _ from hChained.2.1),
    ← drop_eq_nil_iff]
  cases hRest : b.drop (gone extent fromIndex count) with
  | nil => exact iff_of_true trivial rfl
  | cons next rest =>
    refine iff_of_false (fun hNext => ?_) (by simp)
    obtain ⟨-, hBehind, -⟩ := pairwise_append.1 (h.pairwise_base hBoundary)
    obtain ⟨hAfter, hLater⟩ := pairwise_cons.1 hBehind
    have hFollows : next.base = fromIndex := hNext.1
    have hHigh := hBoundary.high
    have hMem : next ∈ b := mem_of_mem_drop (hRest ▸ mem_cons_self)
    have hBase := (hAfter next hMem).1
    -- Nothing was cut, so that the first of the later segments is already gone.
    have hSome : ∃ more, gone extent fromIndex count = more + 1 := by
      rw [gone, cutOps, if_pos (by omega), removedStores]
      exact ⟨(count - 1) / 2, by simp; omega⟩
    obtain ⟨more, hGone⟩ := hSome
    cases b with
    | nil => cases hMem
    | cons first b =>
      rw [hGone, drop_succ_cons] at hRest
      have hIn : next ∈ b := mem_of_mem_drop (hRest ▸ mem_cons_self)
      have hFirst := (hAfter first mem_cons_self).1
      have hLt := ((pairwise_cons.1 hLater).1 next hIn).2
      omega

theorem surviving_leftCuts (hGone : b.length ≤ gone extent fromIndex count) :
    surviving (leftCuts a extent b fromIndex count) =
      (chainRecords (before ++ [last])).take (fromIndex - 1) := by
  rw [← hBoundary.take_eq h.chained, leftCuts, drop_eq_nil_iff.2 hGone]
  simp [surviving, chainRecords, wholeCut, flatMap_map, Extent.take]

end Left

/-- A log object that is open, with files that hold the entries of its segments. -/
def Intact (log : RaftLog) : Prop :=
  ∃ before last, Opened log before last

/-- The directory that is left when the process crashes after some number of the file operations
of a truncation, or after all of them. -/
def crashedTruncation (log : RaftLog) (fromIndex count : Nat) : Directory :=
  (truncateSuffix fromIndex { log with disk := ⟨log.disk.directory, []⟩ }).state.disk.crashed count

/-- The log opens again after such a crash, with everything below the boundary and nothing that
was not in the log. -/
def RecoversTruncation (log : RaftLog) (fromIndex count : Nat) : Prop :=
  ∃ entries, Exposes log.config (log.crashedTruncation fromIndex count) entries ∧
    entries <+: log.entries ∧ log.entries.take (fromIndex - 1) <+: entries

/-- The number of file operations up to the removal of the last store. -/
def untilLastStore (fromIndex : Nat) (segments : List Segment) : Nat :=
  match targetOf fromIndex segments with
  | some (_, _, []) => 0
  | some (_, target, later) => (if fromIndex < target.next then 2 else 0) + 2 * later.length - 1
  | none => 0

theorem untilLastStore_le_iff (hBoundary : Boundary before last fromIndex a extent b)
    (hStarted : 0 < count) :
    untilLastStore fromIndex ((before ++ [last]).map Extent.segment) ≤ count ↔
      b.length ≤ gone extent fromIndex count := by
  have hHigh : fromIndex ≤ extent.segment.next := hBoundary.high
  have hCuts : (cutOps extent fromIndex).length =
      if fromIndex < extent.segment.next then 2 else 0 := by
    rw [cutOps]
    by_cases hEnd : fromIndex = extent.next
    · rw [if_pos hEnd, if_neg (fun hLt => hLt.ne hEnd)]
      rfl
    · rw [if_neg hEnd, if_pos (Nat.lt_of_le_of_ne hHigh hEnd)]
      rfl
  rw [untilLastStore, hBoundary.target, gone, removedStores, hCuts]
  cases b with
  | nil => simp
  | cons first b =>
    simp only [map_cons, length_cons, length_map]
    split <;> omega

theorem recoversTruncation_iff (log : {log : RaftLog // log.Intact}) (fromIndex count : Nat) :
    log.1.RecoversTruncation fromIndex count ↔
      log.1.recoveryRequired = true ∨ fromIndex = 0 ∨ log.1.nextIndex ≤ fromIndex ∨ count = 0 ∨
        untilLastStore fromIndex log.1.segments ≤ count := by
  obtain ⟨log, before, last, h⟩ := log
  have hResting : Opened { log with disk := ⟨log.disk.directory, []⟩ } before last :=
    ⟨h.segments, h.next, h.lastTerm, h.nonempty, h.chained, h.held, h.present⟩
  have hUnchanged : log.crashedTruncation fromIndex count = log.disk.directory →
      log.RecoversTruncation fromIndex count := by
    intro hSame
    refine ⟨log.entries, ?_, prefix_rfl, take_prefix _ _⟩
    rw [hSame]
    exact h.exposes
  by_cases hIdle : log.recoveryRequired = true ∨ fromIndex = 0 ∨ log.nextIndex ≤ fromIndex
  · refine iff_of_true (hUnchanged ?_) (by tauto)
    have hSame := state_of_wp (P := fun log' => log' = _)
      (wp_mono (truncateSuffix_idle hResting hIdle)
      (fun _ _ hBoth => hBoth.1) (fun _ _ hEq => hEq) fun _ hFalse => hFalse.elim)
    rw [crashedTruncation, hSame]
    rfl
  · push Not at hIdle
    obtain ⟨hUsable, hPos, hHigh⟩ := hIdle
    obtain ⟨a, extent, b, hBoundary, hRun⟩ := truncateSuffix_spec hResting (by simpa using hUsable)
      (Nat.pos_of_ne_zero hPos) hHigh
    have hLeft : log.crashedTruncation fromIndex count =
        leftBy log.disk.directory extent b fromIndex count := by
      rw [crashedTruncation, hRun, leftBy]
      have hCrash := Disk.crashed_performAll
        (cutOps extent fromIndex ++ removeOps (b.map Extent.segment)) ⟨log.disk.directory, []⟩ count
      rwa [length_nil, Nat.zero_add] at hCrash
    by_cases hNone : count = 0
    · refine iff_of_true (hUnchanged ?_) (by tauto)
      rw [hLeft, leftBy, hNone]
      rfl
    · have hStarted := Nat.pos_of_ne_zero hNone
      have hStored := stored_leftBy h hBoundary hStarted
      have hCuts : leftCuts a extent b fromIndex count ≠ [] := by simp [leftCuts]
      have hChained := chained_leftCuts_iff h hBoundary hStarted
      simp only [hUsable, hPos, Nat.not_le_of_lt hHigh, hNone, Bool.false_eq_true, false_or,
        h.segments]
      rw [untilLastStore_le_iff hBoundary hStarted, ← hChained, RecoversTruncation, hLeft]
      constructor
      · rintro ⟨entries, hExposes, -⟩
        exact ((exposes_iff hStored hCuts).1 hExposes).1
      · intro hLinked
        have hEntries := surviving_leftCuts h hBoundary (hChained.1 hLinked)
        rw [← h.entries_eq] at hEntries
        refine ⟨_, (exposes_iff hStored hCuts).2 ⟨hLinked, rfl⟩, ?_, ?_⟩
        · rw [hEntries]
          exact take_prefix _ _
        · rw [hEntries]

section Gap

/-- Logs that start a new segment for every entry. -/
def tinyConfig : RaftConfig :=
  ⟨Log.tinyConfig, Log.tinyConfig_initialLsn⟩

def twoEntries : List RaftMutationEntry :=
  [⟨1, 1, []⟩, ⟨1, 2, []⟩]

/-- A new log with two entries, each in a segment of its own. -/
def twoSegments : RaftLog :=
  ((do openLog; appendEntries twoEntries : RaftOp Unit) (closed tinyConfig .empty)).state

theorem twoSegments_intact : twoSegments.Intact := by
  have hDense : Dense 1 twoEntries :=
    ⟨rfl, ⟨_, rfl⟩, rfl, ⟨_, rfl⟩, trivial⟩
  refine state_of_wp (P := Intact) ?_
  rw [Reaches, wp_bind]
  have hOpen : openLog.wp (closed tinyConfig .empty) _ _ _ := openLog_empty_spec rfl rfl
  refine wp_of_returns hOpen ?_
  rintro _ log hStarted
  have hNext : log.nextIndex = 1 := hStarted.opened.next
  refine wp_mono (appendEntries_opened hStarted.opened (hNext ▸ hDense)) ?_ ?_
    fun _ hFalse => hFalse.elim
  · rintro _ log' ⟨-, ⟨before, last, hOpened, -⟩, -⟩
    exact ⟨before, last, hOpened⟩
  · rintro _ log' ⟨-, ⟨before, last, hOpened, -⟩, -⟩
    exact ⟨before, last, hOpened⟩

/-- The first segment is emptied and the process crashes. The second segment does not follow the
first one any more, and the log does not open. -/
theorem twoSegments_not_recovers : ¬twoSegments.RecoversTruncation 1 1 := by
  rintro ⟨entries, ⟨log, log', hOpen, -⟩, -⟩
  have hFails :
      (openLog (closed twoSegments.config (twoSegments.crashedTruncation 1 1))).isOk = false := by
    decide +kernel
  rw [hOpen] at hFails
  cases hFails

/-- There is a log with a truncation that a crash leaves in a state that does not open. -/
theorem truncation_leaves_gap :
    ∃ (log : {log : RaftLog // log.Intact}) (fromIndex count : Nat),
      ¬log.1.RecoversTruncation fromIndex count :=
  ⟨⟨twoSegments, twoSegments_intact⟩, 1, 1, twoSegments_not_recovers⟩

end Gap

end RaftLog

end Stoneleaf
