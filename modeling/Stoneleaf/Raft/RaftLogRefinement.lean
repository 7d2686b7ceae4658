import Stoneleaf.Raft.TruncationCrash

/-!
Whole runs of the replicated log against a list. The list is what the calls that returned did
to it, and reading the log reads the list.
-/

namespace Stoneleaf

open Library Program

namespace RaftLog

variable {log : RaftLog} {before : List (Extent RaftMutationEntry)}
  {last : Extent RaftMutationEntry} {entries : List RaftMutationEntry}

/-- The calls that change a log. -/
inductive Call where
  | openLog
  | close
  | append (term : UInt64) (operations : List MutationOp)
  | appendFromLeader (firstIndex : UInt64) (entries : List RaftMutationEntry)
  | truncateSuffix (fromIndex : Nat)
  | syncThrough (index : Nat)

def Call.perform : Call → RaftOp Unit
  | .openLog => RaftLog.openLog
  | .close => RaftLog.close
  | .append term operations => do let _ ← RaftLog.append term operations
  | .appendFromLeader firstIndex entries => RaftLog.appendFromLeader firstIndex entries
  | .truncateSuffix fromIndex => RaftLog.truncateSuffix fromIndex
  | .syncThrough index => RaftLog.syncThrough index

/-- What a call does to the list of entries when it returns. -/
def Call.apply (entries : List RaftMutationEntry) : Call → List RaftMutationEntry
  | .append term operations => entries ++ [⟨term, .ofNat (entries.length + 1), operations⟩]
  | .appendFromLeader _ more => entries ++ more
  | .truncateSuffix fromIndex => entries.take (fromIndex - 1)
  | .openLog => entries
  | .close => entries
  | .syncThrough _ => entries

def runCalls : List Call → RaftOp Unit
  | [] => pure ()
  | call :: calls => do
    call.perform
    runCalls calls

/-- Reading the log reads the list, whose first entry has index one. -/
structure Behaves (log : RaftLog) (entries : List RaftMutationEntry) : Prop where
  lastIndex : log.lastIndex = entries.length
  lastTerm : log.lastTerm = (entries.getLast?.map RaftMutationEntry.term).getD 0
  read_inside : ∀ index entry, entries[index]? = some entry →
    read (index + 1) log = .ok entry log
  read_outside : ∀ index, index = 0 ∨ entries.length < index →
    read index log = .fail (.outOfRange "Raft index is not present in log") log
  termAt_inside : ∀ index entry, entries[index]? = some entry →
    termAt (index + 1) log = .ok entry.term log
  termAt_outside : ∀ index, index = 0 ∨ entries.length < index → termAt index log = .ok 0 log
  scanFrom_inside : ∀ index, index ≤ entries.length →
    scanFrom (index + 1) log = .ok (entries.drop index) log
  scanFrom_outside : ∀ index, index = 0 ∨ entries.length + 1 < index →
    scanFrom index log = .fail (.outOfRange "Raft scan index is outside the log") log

/-- A log that stands for a list, open or closed. -/
def Represents (log : RaftLog) (entries : List RaftMutationEntry) : Prop :=
  (log.segments = [] ∧ (log.disk.directory.entries = [] ∧ entries = [] ∨
    ∃ before last, Filed before last log.disk.directory ∧
      chainRecords (before ++ [last]) = entries)) ∨
  ∃ before last, Opened log before last ∧ chainRecords (before ++ [last]) = entries

theorem read_opened (h : Opened log before last) {index : Nat} {entry : RaftMutationEntry}
    (hEntry : (chainRecords (before ++ [last]))[index]? = some entry) :
    read (index + 1) log = .ok entry log := by
  have hNext := h.next_eq
  obtain ⟨hShort, -⟩ := List.getElem?_eq_some_iff.1 hEntry
  obtain ⟨a, extent, b, hCut, hLow, hHigh⟩ :=
    h.chained.exists_extent (show 1 ≤ index + 1 by omega) (by omega)
  have hChained := h.chained
  rw [hCut] at hChained hEntry
  have hGet := hChained.getElem?_eq hLow hHigh
  rw [Nat.add_sub_cancel, hEntry] at hGet
  have hSegment := segmentOf_eq hChained hLow hHigh
  rw [← hCut, ← h.segments] at hSegment
  have hRead := Segment.read_spec raftFormat_lawful (h.held extent (by simp [hCut])) hLow hGet.symm
  refine eq_ok_of_wp ?_
  unfold read requireOpen
  simp only [wp_bind, wp_read, h.not_isEmpty, Bool.false_eq_true, if_false, wp_pure]
  rw [if_neg (by omega)]
  simp only [wp_bind, wp_read, hSegment, onDisk, wp_zoom]
  exact wp_of_ok hRead ⟨rfl, rfl⟩

theorem Opened.behaves (h : Opened log before last) :
    Behaves log (chainRecords (before ++ [last])) := by
  have hNext := h.next_eq
  refine ⟨?_, ?_, fun index entry hEntry => read_opened h hEntry, ?_, ?_, ?_, ?_, ?_⟩
  · rw [lastIndex, if_neg (by omega), hNext, Nat.add_sub_cancel]
  · rw [h.lastTerm, ← h.next, hNext, Nat.add_sub_cancel, termOf_length]
  · intro index hOutside
    refine eq_fail_of_wp ?_
    unfold read requireOpen
    simp only [wp_bind, wp_read, h.not_isEmpty, Bool.false_eq_true, if_false, wp_pure]
    rw [if_pos (by omega)]
    exact ⟨rfl, rfl⟩
  · intro index entry hEntry
    rw [termAt_spec h, termOf, if_neg (by omega), Nat.add_sub_cancel, hEntry]
    rfl
  · intro index hOutside
    rw [termAt_spec h, termOf]
    rcases hOutside with rfl | hOutside
    · rfl
    · rw [if_neg (by omega), List.getElem?_eq_none (by omega)]
      rfl
  · intro index hInside
    exact scanFrom_eq h.segments (by simp) h.chained h.held (Nat.succ_pos index) (by omega)
  · intro index hOutside
    refine eq_fail_of_wp ?_
    unfold scanFrom requireOpen
    simp only [wp_bind, wp_read, h.not_isEmpty, Bool.false_eq_true, if_false, wp_pure]
    rw [if_pos (by omega)]
    exact ⟨rfl, rfl⟩

/-- A call on a closed log fails, apart from opening it and closing it again. -/
theorem perform_closed (hClosed : log.segments = []) (call : Call) (hOpen : call ≠ .openLog) :
    call.perform.wp log (fun _ log' => call = .close ∧ log' = log) (fun _ _ => True)
      fun _ => False := by
  have hNone : log.segments.isEmpty = true := by rw [hClosed]; rfl
  cases call with
  | openLog => exact absurd rfl hOpen
  | close =>
    simp only [Call.perform, RaftLog.close, wp_bind, wp_read, hNone, if_true, wp_pure]
    exact ⟨trivial, trivial⟩
  | append term operations =>
    simp [Call.perform, RaftLog.append, requireUsable, requireOpen, hNone]
  | appendFromLeader firstIndex entries =>
    simp [Call.perform, RaftLog.appendFromLeader, requireUsable, requireOpen, hNone]
  | truncateSuffix fromIndex =>
    simp [Call.perform, RaftLog.truncateSuffix, requireUsable, requireOpen, hNone]
  | syncThrough index =>
    simp [Call.perform, RaftLog.syncThrough, requireUsable, requireOpen, hNone]

/-- A call that returns does to the log what it does to the list. -/
theorem perform_represents (h : Represents log entries) (call : Call) :
    call.perform.wp log (fun _ log' => Represents log' (call.apply entries)) (fun _ _ => True)
      fun _ => False := by
  rcases h with ⟨hClosed, hFiles⟩ | ⟨before, last, hOpened, rfl⟩
  · by_cases hOpen : call = .openLog
    · subst hOpen
      rcases hFiles with ⟨hEmpty, rfl⟩ | ⟨before, last, hFiled, rfl⟩
      · refine wp_weaken (openLog_empty_spec hClosed hEmpty) ?_ (fun _ _ _ => trivial)
        rintro _ log' hStarted
        exact Or.inr ⟨[], _, hStarted.opened, rfl⟩
      · refine wp_weaken (openLog_filed hClosed hFiled) ?_ (fun _ _ _ => trivial)
        rintro _ log' ⟨hOpened, -⟩
        exact Or.inr ⟨before, last, hOpened, rfl⟩
    · refine wp_weaken (perform_closed hClosed call hOpen) ?_ (fun _ _ _ => trivial)
      rintro _ log' ⟨rfl, rfl⟩
      exact Or.inl ⟨hClosed, hFiles⟩
  · cases call with
    | openLog =>
      simp [Call.perform, RaftLog.openLog, hOpened.not_isEmpty]
    | close =>
      refine wp_weaken (close_opened hOpened) ?_ (fun _ _ _ => trivial)
      rintro _ log' ⟨hClosed, hFiled, -⟩
      exact Or.inl ⟨hClosed, Or.inr ⟨before, last, hFiled, rfl⟩⟩
    | append term operations =>
      simp only [Call.perform, wp_bind]
      refine wp_weaken (append_opened hOpened term operations) ?_ (fun _ _ _ => trivial)
      rintro idx log' ⟨hIdx, hStores, -⟩
      rw [Call.apply, ← hOpened.next_eq, ← hIdx, UInt64.ofNat_toNat]
      exact Or.inr hStores
    | appendFromLeader firstIndex more =>
      refine wp_weaken (appendFromLeader_opened hOpened firstIndex more) ?_ (fun _ _ _ => trivial)
      exact fun _ _ h => Or.inr h.1
    | truncateSuffix fromIndex =>
      refine wp_weaken (truncateSuffix_opened hOpened fromIndex) ?_ (fun _ _ _ => trivial)
      rintro _ log' ⟨-, -, hStores, -⟩
      exact Or.inr hStores
    | syncThrough index =>
      refine wp_weaken (syncThrough_opened hOpened index) ?_ (fun _ _ _ => trivial)
      rintro _ log' ⟨hOpened', -⟩
      exact Or.inr ⟨before, last, hOpened', rfl⟩

theorem runCalls_represents (h : Represents log entries) (calls : List Call) :
    (runCalls calls).wp log (fun _ log' => Represents log' (calls.foldl Call.apply entries))
      (fun _ _ => True) fun _ => False := by
  induction calls generalizing log entries with
  | nil => exact h
  | cons call calls ih =>
    rw [runCalls, wp_bind]
    exact wp_weaken (perform_represents h call) (fun _ _ hNext => ih hNext) (fun _ _ _ => trivial)

/-- A log that starts empty and is open after calls that all returned behaves as the list that
the calls make. -/
theorem runCalls_behaves (config : RaftConfig) (calls : List Call) :
    (runCalls calls).wp (closed config .empty)
      (fun _ log => log.segments ≠ [] → Behaves log (calls.foldl Call.apply []))
      (fun _ _ => True) fun _ => False := by
  have hStart : Represents (closed config .empty) [] := Or.inl ⟨rfl, Or.inl ⟨rfl, rfl⟩⟩
  refine wp_conseq (runCalls_represents hStart calls) ?_
  rintro _ log (⟨hClosed, -⟩ | ⟨before, last, hOpened, hRecords⟩) hOpen
  · exact absurd hClosed hOpen
  · rw [← hRecords]
    exact hOpened.behaves

-- Three segments, a cut between the first two, and an entry after the log was closed and opened.
example : (match runCalls [.openLog, .append 1 [], .append 1 [], .append 2 [], .truncateSuffix 2,
      .close, .openLog, .append 3 []] (closed tinyConfig .empty) with
    | .ok _ log => log.entries.map RaftMutationEntry.term
    | _ => []) = [1, 3] := by decide +kernel

end RaftLog

end Stoneleaf
