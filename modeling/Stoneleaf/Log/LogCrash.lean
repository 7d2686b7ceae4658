import Stoneleaf.Log.LogLoss
import Stoneleaf.Log.Reopening

/-!
Runs of the write-ahead log over several processes: calls, crashes of the process, power losses
and reopening, each of which may strike between two file operations. Opening a log counts all
it finds as durable without synchronizing it, so a record can be reported durable that is only
in the memory of the operating system. Records are safe in the runs in which the process crashes
only when nothing is in flight and power losses leave no gap.
-/

namespace Stoneleaf

open Library Program List
open Extent (ofCut)

namespace Log

variable {log : Log} {durable : Nat} {before : List (Extent LogRecord)} {last : Extent LogRecord}

/-- Opening a log passes through layouts of the same records. -/
theorem openLog_passes (hClosed : log.segments = []) (hSome : log.disk.directory.entries ≠ [])
    (hLaid : Laid walFormat log.config.initialLsn durable log.disk.directory before last) :
    openLog.wp log
      (fun _ log' => Disk.Passes (fun directory => Laid walFormat log.config.initialLsn durable
        directory before last) log.disk log'.disk)
      (fun _ _ => True) fun _ => False := by
  have hEntries : log.disk.directory.entries.isEmpty = false := by simpa using hSome
  unfold openLog openSegments onDisk
  simp only [wp_bind, wp_read, hClosed, isEmpty_nil, not_true_eq_false, if_false, hEntries,
    wp_onFail, wp_zoom, wp_modify, Bool.false_eq_true]
  exact wp_weaken (Segment.openAll_laid walFormat_lawful hLaid _) (fun _ _ hPost => hPost.2)
    (fun _ _ _ => trivial)

/-- Reopening a log with nothing in flight makes it ready with all its durable records, which
are durable again. -/
theorem reopen_spec (hClosed : log.segments = [])
    (hLaid : Laid walFormat log.config.initialLsn durable log.disk.directory before last)
    (hSettled : log.disk.directory.Settled) :
    openLog.Returns log
      fun _ log' => log'.config = log.config ∧
        (∃ before' last', Ready log' before' last' ∧
          ∀ extent ∈ before ++ [last], ∀ record ∈ extent.through durable,
            ∃ extent' ∈ before' ++ [last'], record ∈ extent'.through log'.durableLsn) ∧
        Disk.Passes (fun directory => Laid walFormat log.config.initialLsn durable directory
          before last) log.disk log'.disk := by
  have hStores : ∀ base, log.disk.directory.files base ≠ .absent →
      (log.disk.directory.files base).store ≠ none := fun base hPresent =>
    (hLaid.present base hPresent).1
  obtain ⟨cuts, hSurvivors⟩ := hLaid.survivors hSettled.powerLoss hStores
  have hChained := (hSurvivors.gapless_iff hLaid hStores).1 hLaid.gapless_self
  rcases eq_nil_or_concat cuts with rfl | ⟨others, final, rfl⟩
  · have hEmpty : log.disk.directory.entries = [] := by
      simpa [Directory.bases] using hSurvivors.remains.bases
    obtain rfl : before = [] := by
      rcases hSurvivors.extents with hEq | hEq
      · exact hEq.symm
      · simp at hEq
    refine wp_conseq (openLog_empty_spec hClosed hEmpty) ?_
    rintro _ log' ⟨hStarted, hPasses⟩
    refine ⟨hStarted.config, ⟨[], _, hStarted.ready, ?_⟩, hPasses.mono ?_⟩
    · intro extent hMem record hRecord
      cases hSurvivors.mem_surviving hMem hRecord
    · exact fun directory hCreating => hLaid.creating hEmpty hCreating
  · rw [concat_eq_append] at hSurvivors hChained
    have hFull := (chained_cuts_iff (hSurvivors.chained_extents hLaid)).1 hChained
    rw [dropLast_concat] at hFull
    have hNonempty : ∀ cut ∈ others, (ofCut cut).records ≠ [] := by
      intro cut hCut
      have hSorted := log.disk.directory.pairwise_bases
      rw [hSurvivors.remains.bases, pairwise_map] at hSorted
      have hLt := (pairwise_append.1 hSorted).2.2 cut hCut final mem_cons_self
      have hMem := hLaid.mem_before (hSurvivors.mem_extents (mem_append_left _ hCut))
        (hSurvivors.mem_extents (mem_concat_self ..)) hLt
      rw [ofCut, Extent.take, hFull cut hCut, take_length]
      exact hLaid.nonempty cut.1 hMem
    have hEntries : log.disk.directory.entries ≠ [] := by
      intro hNone
      have hBases := hSurvivors.remains.bases
      simp [Directory.bases, hNone] at hBases
    refine wp_mono (wp_and (openLog_spec hClosed hSurvivors.remains (by simp))
      (openLog_passes hClosed hEntries hLaid)) ?_ (fun _ _ hNot => hNot.1 hChained)
        fun _ hNot => hNot.1
    rintro _ log' ⟨⟨-, hReopened⟩, hPasses⟩
    have hRunning := hReopened.opened.running hSurvivors.remains hSettled hChained hNonempty
    have hNext : log'.nextLsn = (ofCut final).next := by
      rw [hReopened.next, hReopened.segments, map_append, map_singleton, getLast?_append]
      exact congrArg Segment.next (hSurvivors.remains.segment_ofCut (mem_concat_self ..)).symm
    have hSegments : log'.segments =
        (others.map ofCut ++ [ofCut final]).map Extent.segment := by
      rw [hReopened.segments, show others.map ofCut ++ [ofCut final] =
        (others ++ [final]).map ofCut by simp, map_map]
      exact (map_congr_left fun cut hCut => hSurvivors.remains.segment_ofCut hCut).symm
    have hDurable : log'.durableLsn = (ofCut final).next - 1 := by
      rw [hReopened.durable, hNext]
    refine ⟨hReopened.config, ⟨_, _, ⟨hReopened.usable, hSegments, hNext, ?_⟩, ?_⟩, hPasses⟩
    · rw [hReopened.config, hDurable]
      exact hRunning
    · intro extent hMem record hRecord
      obtain ⟨cut, hCut, hKept⟩ := mem_flatMap.1 (hSurvivors.mem_surviving hMem hRecord)
      have hIn : ofCut cut ∈ others.map ofCut ++ [ofCut final] := by
        have hMap : ofCut cut ∈ (others ++ [final]).map ofCut :=
          mem_map.2 ⟨cut, hCut, rfl⟩
        simpa using hMap
      refine ⟨ofCut cut, hIn, ?_⟩
      rw [hDurable, hRunning.through_all hIn]
      exact hKept

/-- What a process does with a log. -/
inductive Activity where
  | call (call : Call)
  | reopen

/-- The log after an activity. Reopening is what a new process does with the directory. -/
def perform (log : Log) : Activity → Log
  | .call (.append pending) => (append pending log.resting).state
  | .call (.syncThrough target) => (syncThrough target log.resting).state
  | .reopen => (openLog (closed log.config log.disk.directory)).state

/-- The records that the log holds and reports as durable. -/
def durableRecords (log : Log) : List LogRecord :=
  match scan log with
  | .ok records _ => records.filter fun record => record.lsn.toNat ≤ log.durableLsn
  | _ => []

/-- A log over the lives of several processes, and all records that were ever reported durable. -/
structure Machine where
  log : Log
  reported : List LogRecord

/-- What may happen to a machine. The process crashes after some of the file operations of an
activity and leaves them behind. The power may fail at any time, during an activity once its
process has been stopped. -/
inductive Event where
  | finish (activity : Activity)
  | crash (activity : Activity) (count : Nat)
  | powerLoss (left : Directory)

namespace Machine

def fresh (config : Config) : Machine :=
  ⟨closed config .empty, []⟩

def next (machine : Machine) : Event → Machine
  | .finish activity =>
    let log := machine.log.perform activity
    ⟨log, machine.reported ++ log.durableRecords⟩
  | .crash activity count =>
    ⟨closed machine.log.config ((machine.log.perform activity).disk.crashed count),
      machine.reported⟩
  | .powerLoss left => ⟨closed machine.log.config left, machine.reported⟩

end Machine

/-- A power loss leaves what it can leave. -/
def Event.Possible (machine : Machine) : Event → Prop
  | .powerLoss left => PowerLoss machine.log.disk.directory left
  | _ => True

/-- The log is opened only on a directory that is on disk, and a power loss leaves no gap. -/
def Event.Careful (machine : Machine) : Event → Prop
  | .finish .reopen => machine.log.disk.directory.Settled
  | .crash .reopen _ => machine.log.disk.directory.Settled
  | .powerLoss left => Gapless machine.log.disk.directory left
  | _ => True

/-- The machine takes a step that is possible and allowed. -/
def Machine.Step (Allowed : Machine → Event → Prop) (machine machine' : Machine) : Prop :=
  ∃ event, event.Possible machine ∧ Allowed machine event ∧ machine' = machine.next event

theorem Machine.reaches_next {Allowed : Machine → Event → Prop} {start machine : Machine}
    (event : Event) (h : Relation.ReflTransGen (Step Allowed) start machine)
    (hPossible : event.Possible machine) (hAllowed : Allowed machine event) :
    Relation.ReflTransGen (Step Allowed) start (machine.next event) :=
  h.tail ⟨event, hPossible, hAllowed, rfl⟩

section Invariant

variable {config : Config} {machine : Machine} {reported : List LogRecord} {directory : Directory}

/-- The reported records are on disk. -/
def Secured (config : Config) (reported : List LogRecord) (directory : Directory) : Prop :=
  ∃ durable records, Backed config durable records directory ∧
    ∀ record ∈ reported, record ∈ records ∧ record.lsn.toNat ≤ durable

/-- The log is closed on a directory that has the reported records, or it is open and they
count as durable. -/
structure Machine.Sound (config : Config) (machine : Machine) : Prop where
  config_eq : machine.log.config = config
  state : machine.log.segments = [] ∧ Secured config machine.reported machine.log.disk.directory ∨
    ∃ records, Session.Sound config ⟨machine.log, records⟩ ∧
      ∀ record ∈ machine.reported, record ∈ records ∧ record.lsn.toNat ≤ machine.log.durableLsn

theorem Machine.Sound.secured (h : machine.Sound config) :
    Secured config machine.reported machine.log.disk.directory := by
  rcases h.state with ⟨-, hSecured⟩ | ⟨records, hSession, hReported⟩
  · exact hSecured
  · exact ⟨machine.log.durableLsn, records, hSession.backed, hReported⟩

theorem secured_of_laid (hLaid : Laid walFormat config.initialLsn durable directory before last)
    (hReported : ∀ record ∈ reported, ∃ extent ∈ before ++ [last],
      record ∈ extent.through durable) :
    Secured config reported directory := by
  refine ⟨durable, _, ⟨before, last, hLaid, rfl⟩, fun record hRecord => ?_⟩
  obtain ⟨extent, hMem, hThrough⟩ := hReported record hRecord
  obtain ⟨hIn, hLe⟩ := (mem_through_iff (hLaid.sound extent hMem)).1 hThrough
  exact ⟨mem_flatMap.2 ⟨extent, hMem, hIn⟩, hLe⟩

/-- The layout behind a directory that has the reported records. -/
theorem Secured.laid (h : Secured config reported directory) :
    ∃ durable before last, Laid walFormat config.initialLsn durable directory before last ∧
      ∀ record ∈ reported, ∃ extent ∈ before ++ [last], record ∈ extent.through durable := by
  obtain ⟨durable, records, ⟨before, last, hLaid, hRecords⟩, hReported⟩ := h
  refine ⟨durable, before, last, hLaid, fun record hRecord => ?_⟩
  obtain ⟨hIn, hLe⟩ := hReported record hRecord
  rw [← hRecords] at hIn
  obtain ⟨extent, hMem, hIn⟩ := mem_flatMap.1 hIn
  exact ⟨extent, hMem, (mem_through_iff (hLaid.sound extent hMem)).2 ⟨hIn, hLe⟩⟩

theorem secured_empty (config : Config) : Secured config [] .empty := by
  have hPos : 0 < config.initialLsn := Nat.pos_of_ne_zero config.initialLsn_valid
  have hLaid : Laid walFormat config.initialLsn 0 .empty [] ⟨config.initialLsn, []⟩ := by
    refine ⟨?_, by simp, ⟨rfl, trivial⟩, fun base hPresent => absurd rfl hPresent, ?_, ?_, by simp,
      fun hLe => absurd hPos (Nat.not_lt_of_le hLe), rfl⟩
    · intro extent hMem
      rw [mem_singleton.1 hMem]
      exact ⟨hPos, by simp, by simp, by simp, by simp [offsetsFrom]⟩
    · intro extent _ file hFile
      cases hFile
    · intro extent _ file hFile
      cases hFile
  exact secured_of_laid hLaid fun record hNone => absurd hNone not_mem_nil

/-- A call to a log that is not open fails. -/
theorem perform_call_closed {log : Log} (hClosed : log.segments = []) (call : Call) :
    log.perform (.call call) = log.resting := by
  have hNone : log.resting.segments.isEmpty = true := by
    rw [resting, hClosed]
    rfl
  have hFails (text : String) : requireUsable text log.resting =
      .fail (.runtimeError "Log is not open") log.resting := by
    refine eq_fail_of_wp ?_
    unfold requireUsable
    simp only [wp_bind, wp_read, hNone, if_true, wp_fail, and_self]
  cases call with
  | append pending | syncThrough target => exact congrArg Outcome.state (bind_fail (hFails _))

theorem Session.log_run (session : Session) (call : Call) :
    (session.run call).log = session.log.perform (.call call) := by
  cases call with
  | append pending =>
    simp only [run, perform]
    cases append pending session.log.resting <;> rfl
  | syncThrough target => rfl

theorem Session.Sound.durable_le {session : Session} (h : session.Sound config) (call : Call) :
    session.log.durableLsn ≤ (session.run call).log.durableLsn := by
  obtain ⟨rfl, before, last, hReady, -⟩ := h
  rw [log_run]
  have hSame : ∀ (_ : Exception) log', log' = session.log.resting →
      session.log.durableLsn ≤ log'.durableLsn := by
    rintro _ _ rfl
    exact le_rfl
  cases call with
  | append pending =>
    exact state_of_wp (P := fun log' : Log => _ ≤ log'.durableLsn)
      (wp_mono (append_spec hReady.resting pending) (fun _ _ hPost => hPost.2.2.1.ge)
        (fun e log' hFail => hSame e log' hFail.1) fun _ hFalse => hFalse.elim)
  | syncThrough target =>
    exact state_of_wp (P := fun log' : Log => _ ≤ log'.durableLsn)
      (wp_mono (syncThrough_spec target hReady.resting) (fun _ _ hPost => hPost.2.2.1) hSame
        fun _ hFalse => hFalse.elim)

theorem Session.appended_subset (session : Session) (call : Call) :
    session.appended ⊆ (session.run call).appended := by
  cases call with
  | append pending =>
    simp only [run]
    cases append pending session.log.resting with
    | ok lsn log => exact subset_append_left _ _
    | fail e log | halt log => exact List.Subset.refl _
  | syncThrough target => exact List.Subset.refl _

/-- One activity keeps the machine sound, and every directory on the way has the reported
records. -/
theorem Machine.Sound.perform (h : machine.Sound config) {activity : Activity}
    (hReopen : activity = .reopen → machine.log.disk.directory.Settled) :
    Machine.Sound config ⟨machine.log.perform activity, machine.reported⟩ ∧
      ∀ directory ∈ (machine.log.perform activity).disk.passed,
        Secured config machine.reported directory := by
  obtain ⟨log, reported⟩ := machine
  cases activity with
  | reopen =>
    obtain ⟨durable, before, last, hLaid, hReported⟩ := h.secured.laid
    obtain rfl : log.config = config := h.config_eq
    have hSpec : openLog.wp (closed log.config log.disk.directory) _ _ _ :=
      reopen_spec rfl hLaid (hReopen rfl)
    obtain ⟨_, log', hOpen, hConfig, ⟨before', last', hReady, hKept⟩, hPasses⟩ :=
      exists_ok_of_wp hSpec
    have hLog : log.perform .reopen = log' := by
      rw [Log.perform, hOpen]
      rfl
    rw [hLog]
    refine ⟨⟨hConfig, Or.inr ⟨_, ⟨hConfig, before', last', hReady, rfl⟩, ?_⟩⟩, ?_⟩
    · intro record hRecord
      obtain ⟨extent, hMem, hThrough⟩ := hReported record hRecord
      obtain ⟨extent', hMem', hThrough'⟩ := hKept extent hMem record hThrough
      obtain ⟨hIn, hLe⟩ :=
        (mem_through_iff (hReady.running.sound extent' hMem')).1 hThrough'
      exact ⟨mem_flatMap.2 ⟨extent', hMem', hIn⟩, hLe⟩
    · intro directory hPassed
      have hDirectory := (hPasses directory hPassed).resolve_left not_mem_nil
      exact secured_of_laid hDirectory hReported
  | call call =>
    rcases h.state with ⟨hClosed, hSecured⟩ | ⟨records, hSession, hReported⟩
    · rw [perform_call_closed hClosed call]
      exact ⟨⟨h.config_eq, Or.inl ⟨hClosed, hSecured⟩⟩, fun _ hNone => by cases hNone⟩
    · obtain ⟨hSound, hPassed⟩ := hSession.run call
      have hSubset := Session.appended_subset ⟨log, records⟩ call
      have hLe := hSession.durable_le call
      have hLog : (Session.run ⟨log, records⟩ call).log = log.perform (.call call) :=
        Session.log_run _ _
      rw [← hLog]
      refine ⟨⟨hSound.config, Or.inr ⟨_, hSound, fun record hRecord => ?_⟩⟩,
        fun directory hMem => ⟨_, _, hPassed directory hMem, fun record hRecord => ?_⟩⟩
      · obtain ⟨hIn, hDurable⟩ := hReported record hRecord
        exact ⟨hSubset hIn, hDurable.trans hLe⟩
      · obtain ⟨hIn, hDurable⟩ := hReported record hRecord
        exact ⟨hSubset hIn, hDurable⟩

/-- Reporting what is durable keeps the machine sound. -/
theorem Machine.Sound.report {log : Log} (h : Machine.Sound config ⟨log, reported⟩) :
    Machine.Sound config ⟨log, reported ++ log.durableRecords⟩ := by
  refine ⟨h.config_eq, ?_⟩
  rcases h.state with ⟨hClosed, hSecured⟩ | ⟨records, hSession, hReported⟩
  · left
    have hNone : log.durableRecords = [] := by
      have hFails : scan.wp log (fun _ _ => False) (fun _ _ => True) fun _ => True := by
        have hNone : log.segments.isEmpty = true := List.isEmpty_iff.2 hClosed
        unfold scan
        simp only [wp_bind, wp_read, hNone, if_true, wp_fail]
      unfold durableRecords
      cases hScan : scan log with
      | ok records log' => exact (okay_of_wp hScan hFails).elim
      | fail e log' => rfl
      | halt log' => rfl
    rw [hNone, append_nil]
    exact ⟨hClosed, hSecured⟩
  · refine Or.inr ⟨records, hSession, fun record hRecord => ?_⟩
    rcases mem_append.1 hRecord with hOld | hNew
    · exact hReported record hOld
    · obtain ⟨-, before, last, hReady, rfl⟩ := hSession
      rw [durableRecords, hReady.scan_eq] at hNew
      obtain ⟨hIn, hLe⟩ := mem_filter.1 hNew
      exact ⟨hIn, of_decide_eq_true hLe⟩

theorem Machine.Sound.next (h : machine.Sound config) {event : Event}
    (hPossible : event.Possible machine) (hCareful : event.Careful machine) :
    (machine.next event).Sound config := by
  cases event with
  | finish activity =>
    have hReopen : activity = .reopen → machine.log.disk.directory.Settled := by
      rintro rfl
      exact hCareful
    exact (h.perform hReopen).1.report
  | crash activity count =>
    have hReopen : activity = .reopen → machine.log.disk.directory.Settled := by
      rintro rfl
      exact hCareful
    obtain ⟨hSound, hPassed⟩ := h.perform hReopen
    refine ⟨h.config_eq, Or.inl ⟨rfl, ?_⟩⟩
    rcases Disk.crashed_mem (machine.log.perform activity).disk count with hMem | hEnd
    · exact hPassed _ hMem
    · have hSecured := hSound.secured
      rwa [← hEnd] at hSecured
  | powerLoss left =>
    refine ⟨h.config_eq, Or.inl ⟨rfl, ?_⟩⟩
    obtain ⟨durable, before, last, hLaid, hReported⟩ := h.secured.laid
    obtain ⟨before', last', hLaid', hRetained⟩ := hLaid.after_loss hPossible hCareful
    refine secured_of_laid hLaid' fun record hRecord => ?_
    obtain ⟨extent, hMem, hThrough⟩ := hReported record hRecord
    exact hRetained extent hMem record hThrough

theorem Machine.sound_of_reaches
    (h : Relation.ReflTransGen (Step Event.Careful) (fresh config) machine) :
    machine.Sound config := by
  induction h with
  | refl => exact ⟨rfl, Or.inl ⟨rfl, secured_empty config⟩⟩
  | tail _ hStep ih =>
    obtain ⟨event, hPossible, hCareful, rfl⟩ := hStep
    exact ih.next hPossible hCareful

end Invariant

/-- If logs are opened only on directories that are on disk, a record that was reported durable
is in the log after every later power loss without a gap. -/
theorem reported_retained {config : Config} {machine : Machine}
    (hReaches : Relation.ReflTransGen (Machine.Step Event.Careful) (.fresh config) machine)
    {left : Directory} (hLoss : PowerLoss machine.log.disk.directory left)
    (hGapless : Gapless machine.log.disk.directory left) {record : LogRecord}
    (hReported : record ∈ machine.reported) :
    ∃ records, Exposes config left records ∧ record ∈ records := by
  obtain ⟨durable, records, hBacked, hAll⟩ := (Machine.sound_of_reaches hReaches).secured
  let moment : Moment := ⟨machine.log.disk.directory, durable, records⟩
  have hRecovers := (recovers_iff_of_backed (show Backed config moment.durableLsn moment.appended
    moment.directory from hBacked) hLoss).2 hGapless
  obtain ⟨exposed, hExposes, -, hKept⟩ := hRecovers
  obtain ⟨hIn, hLe⟩ := hAll record hReported
  exact ⟨exposed, hExposes, hKept record hIn hLe⟩

section Restart

/-- A process opens an empty log and appends a record. -/
def appended : Machine :=
  ((Machine.fresh tinyConfig).next (.finish .reopen)).next
    (.finish (.call (.append ⟨.txnBegin, 1, 0, []⟩)))

/-- The record is synchronized, and the next process opens the log. -/
def synchronized : Machine :=
  (appended.next (.finish (.call (.syncThrough 1)))).next (.finish .reopen)

def firstBegin : LogRecord :=
  number ⟨.txnBegin, 1, 0, []⟩ 1

theorem reported_retained_synchronized :
    ∃ records, Exposes tinyConfig synchronized.log.disk.directory.fsynced records ∧
      firstBegin ∈ records := by
  refine reported_retained ?_ (Directory.powerLoss_fsynced _) (by decide +kernel)
    (by decide +kernel)
  have hOpened := Machine.reaches_next (.finish .reopen) (.refl (a := .fresh tinyConfig)) trivial
    (show Event.Careful _ _ from Directory.settled_of_fsynced rfl)
  have hAppended := Machine.reaches_next (.finish (.call (.append ⟨.txnBegin, 1, 0, []⟩))) hOpened
    trivial trivial
  have hSynced := Machine.reaches_next (.finish (.call (.syncThrough 1))) hAppended trivial trivial
  exact Machine.reaches_next (.finish .reopen) hSynced trivial
    (Directory.settled_of_fsynced (by decide +kernel))

/-- The process crashes before the first `fsync`, and the next process opens the log. -/
def restarted : Machine :=
  (appended.next (.crash (.call (.syncThrough 1)) 0)).next (.finish .reopen)

/-- The new process reports the record as durable, and a power loss takes it. -/
theorem restarted_loses_record :
    Relation.ReflTransGen (Machine.Step fun _ _ => True) (.fresh tinyConfig) restarted ∧
      firstBegin ∈ restarted.reported ∧
      PowerLoss restarted.log.disk.directory restarted.log.disk.directory.fsynced ∧
      Gapless restarted.log.disk.directory restarted.log.disk.directory.fsynced ∧
      ¬∃ records, Exposes tinyConfig restarted.log.disk.directory.fsynced records ∧
        firstBegin ∈ records := by
  refine ⟨?_, by decide +kernel, Directory.powerLoss_fsynced _, by decide +kernel, ?_⟩
  · have hNext := @Machine.reaches_next fun _ _ => True
    exact hNext _ (hNext _
      (hNext _ (hNext _ .refl trivial trivial) trivial trivial) trivial trivial) trivial trivial
  · rintro ⟨records, ⟨log, log', hOpen, hScan⟩, hMem⟩
    have hEmpty : ((do openLog; scan : LogOp (List LogRecord)) (closed tinyConfig
        restarted.log.disk.directory.fsynced)).value?.map List.isEmpty = some true := by
      decide +kernel
    rw [bind_ok hOpen, hScan] at hEmpty
    simp only [Outcome.value?, Option.map_some, Option.some.injEq, List.isEmpty_iff] at hEmpty
    rw [hEmpty] at hMem
    cases hMem

end Restart

end Log

end Stoneleaf
