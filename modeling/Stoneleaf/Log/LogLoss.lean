import Stoneleaf.Log.LogRun

/-!
Power losses while a process writes to a fresh log. The power may fail between two calls or
between two file operations of a call. A roll-over does not synchronize the segment it leaves,
so the log can be opened afterwards only if every store before a surviving segment is whole.
-/

namespace Stoneleaf

open Library Program List

namespace Log

/-- A call to an open log. -/
inductive Call where
  | append (pending : PendingLogRecord)
  | syncThrough (target : Nat)

/-- A process with its log and the records it has appended so far. -/
structure Session where
  log : Log
  appended : List LogRecord

/-- The log at the beginning of a call, which has passed through no directory yet. -/
def resting (log : Log) : Log :=
  { log with disk := ⟨log.disk.directory, []⟩ }

/-- A call that throws leaves the log as it stands. -/
def Session.run (session : Session) : Call → Session
  | .append pending =>
    match append pending session.log.resting with
    | .ok _ log => ⟨log, session.appended ++ [number pending session.log.nextLsn]⟩
    | .fail _ log => ⟨log, session.appended⟩
    | .halt log => ⟨log, session.appended⟩
  | .syncThrough target => ⟨(syncThrough target session.log.resting).state, session.appended⟩

/-- The log was just opened on an empty directory. -/
def Session.fresh (config : Config) : Session :=
  ⟨(openLog (closed config .empty)).state, []⟩

/-- A moment at which the power may fail: the directory as the operating system holds it, the
last durable number that was reported, and the records that were appended, one that is being
appended included. -/
structure Moment where
  directory : Directory
  durableLsn : Nat
  appended : List LogRecord

/-- The moments of a sequence of calls. While a call runs, it has not reported anything new. -/
def Session.moments (session : Session) : List Call → List Moment
  | [] => [⟨session.log.disk.directory, session.log.durableLsn, session.appended⟩]
  | call :: calls =>
    let next := session.run call
    ⟨session.log.disk.directory, session.log.durableLsn, session.appended⟩ ::
      (next.log.disk.passed.map fun directory =>
        ⟨directory, session.log.durableLsn, next.appended⟩) ++ next.moments calls

/-- A power loss at some moment of a run that starts with an empty log. -/
structure Outage (config : Config) (calls : List Call) where
  moment : Moment
  reached : moment ∈ (Session.fresh config).moments calls
  left : Directory
  loss : PowerLoss moment.directory left

/-- The log opens again on what is left and exposes the beginning of what was appended, with
everything that was reported durable. -/
def Outage.Recovers {config : Config} {calls : List Call} (outage : Outage config calls) : Prop :=
  ∃ records, Exposes config outage.left records ∧ records <+: outage.moment.appended ∧
    ∀ record ∈ outage.moment.appended, record.lsn.toNat ≤ outage.moment.durableLsn →
      record ∈ records

section Invariant

variable {config : Config} {session : Session}

/-- The session has appended what its log holds. -/
structure Session.Sound (config : Config) (session : Session) : Prop where
  config : session.log.config = config
  ready : ∃ before last, Ready session.log before last ∧
    (before ++ [last]).flatMap Extent.records = session.appended

theorem Session.sound_fresh (config : Config) : (Session.fresh config).Sound config := by
  have hSpec : openLog.wp (closed config .empty) _ _ _ := openLog_empty_spec rfl rfl
  obtain ⟨_, log, hOpen, hStarted, -⟩ := exists_ok_of_wp hSpec
  rw [fresh, hOpen]
  exact ⟨hStarted.config, [], _, hStarted.ready, rfl⟩

theorem Ready.resting {log : Log} {before : List (Extent LogRecord)} {last : Extent LogRecord}
    (h : Ready log before last) : Ready log.resting before last :=
  ⟨h.usable, h.segments, h.next, h.running⟩

variable (h : session.Sound config)
include h

theorem Session.Sound.run (call : Call) :
    (session.run call).Sound config ∧
      ∀ directory ∈ (session.run call).log.disk.passed,
        Backed config session.log.durableLsn (session.run call).appended directory := by
  obtain ⟨rfl, before, last, hReady, hAppended⟩ := h
  cases call with
  | append pending =>
    have hSpec := append_spec hReady.resting pending
    simp only [Session.run]
    cases hRun : append pending session.log.resting with
    | ok lsn log =>
      obtain ⟨-, hConfig, -, before', last', hReady', hRecords, hPasses⟩ := okay_of_wp hRun hSpec
      rw [hAppended] at hRecords
      refine ⟨⟨hConfig, before', last', hReady', hRecords⟩, fun directory hPassed => ?_⟩
      have hBacked := (hPasses directory hPassed).resolve_left not_mem_nil
      rwa [hRecords] at hBacked
    | fail e log =>
      obtain ⟨rfl, -⟩ := fail_of_wp hRun hSpec
      exact ⟨⟨rfl, before, last, hReady.resting, hAppended⟩, fun _ hNone => by cases hNone⟩
    | halt log => exact (halt_of_wp hRun hSpec).elim
  | syncThrough target =>
    have hSpec := syncThrough_spec target hReady.resting
    simp only [Session.run]
    cases hRun : syncThrough target session.log.resting with
    | ok _ log =>
      obtain ⟨hReady', hConfig, -, -, hPasses⟩ := okay_of_wp hRun hSpec
      refine ⟨⟨hConfig, before, last, hReady', hAppended⟩, fun directory hPassed => ?_⟩
      have hLaid := (hPasses directory hPassed).resolve_left not_mem_nil
      exact ⟨before, last, hLaid, hAppended⟩
    | fail e log =>
      have hSame := fail_of_wp hRun hSpec
      subst hSame
      exact ⟨⟨rfl, before, last, hReady.resting, hAppended⟩, fun _ hNone => by cases hNone⟩
    | halt log => exact (halt_of_wp hRun hSpec).elim

theorem Session.Sound.backed :
    Backed config session.log.durableLsn session.appended session.log.disk.directory := by
  obtain ⟨rfl, before, last, hReady, hAppended⟩ := h
  exact ⟨before, last, hReady.running.toLaid, hAppended⟩

/-- At every moment the directory is backed. -/
theorem Session.Sound.moments (calls : List Call) :
    ∀ moment ∈ session.moments calls,
      Backed config moment.durableLsn moment.appended moment.directory := by
  induction calls generalizing session with
  | nil =>
    intro moment hMem
    rw [mem_singleton.1 hMem]
    exact h.backed
  | cons call calls ih =>
    obtain ⟨hSound, hPassed⟩ := h.run call
    intro moment hMem
    rcases mem_cons.1 hMem with rfl | hRest
    · exact h.backed
    · rcases mem_append.1 hRest with hDuring | hLater
      · obtain ⟨directory, hIn, rfl⟩ := mem_map.1 hDuring
        exact hPassed directory hIn
      · exact ih hSound moment hLater

end Invariant

/-- The durable records of a segment are those with small numbers. -/
theorem mem_through_iff {extent : Extent LogRecord} (hSound : extent.Sound walFormat)
    {durable : Nat}
    {record : LogRecord} :
    record ∈ extent.through durable ↔ record ∈ extent.records ∧ record.lsn.toNat ≤ durable := by
  rw [Extent.through, mem_take_iff_getElem]
  constructor
  · rintro ⟨k, hk, rfl⟩
    have hNumber : _ = extent.base + k :=
      hSound.numbered k _ (getElem?_eq_getElem (Nat.lt_of_lt_of_le hk (Nat.min_le_right _ _)))
    have hBelow : k < durable + 1 - extent.base := Nat.lt_of_lt_of_le hk (Nat.min_le_left _ _)
    refine ⟨getElem_mem _, ?_⟩
    change walFormat.number extent.records[k] ≤ durable
    rw [hNumber]
    omega
  · rintro ⟨hMem, hLe⟩
    obtain ⟨k, hk, rfl⟩ := getElem_of_mem hMem
    have hNumber : _ = extent.base + k := hSound.numbered k _ (getElem?_eq_getElem hk)
    change extent.records[k].lsn.toNat = _ at hNumber
    exact ⟨k, by omega, rfl⟩

theorem recovers_iff_of_backed {config : Config} {moment : Moment} {left : Directory}
    (hBacked : Backed config moment.durableLsn moment.appended moment.directory)
    (hLoss : PowerLoss moment.directory left) :
    (∃ records, Exposes config left records ∧ records <+: moment.appended ∧
      ∀ record ∈ moment.appended, record.lsn.toNat ≤ moment.durableLsn → record ∈ records) ↔
      Gapless moment.directory left := by
  obtain ⟨before, last, hLaid, hRecords⟩ := hBacked
  rw [← exposes_survivors_iff hLaid hLoss, ← hRecords]
  refine exists_congr fun records => and_congr_right fun _ => and_congr_right fun _ => ?_
  constructor
  · intro hDurable extent hMem record hThrough
    obtain ⟨hRecord, hLe⟩ := (mem_through_iff (hLaid.sound extent hMem)).1 hThrough
    exact hDurable record (mem_flatMap.2 ⟨extent, hMem, hRecord⟩) hLe
  · intro hDurable record hRecord hLe
    obtain ⟨extent, hMem, hIn⟩ := mem_flatMap.1 hRecord
    exact hDurable extent hMem record ((mem_through_iff (hLaid.sound extent hMem)).2 ⟨hIn, hLe⟩)

/-- The log survives a power loss exactly when no store before a surviving segment was cut. -/
theorem outage_recovers_iff (config : Config) (calls : List Call) (outage : Outage config calls) :
    outage.Recovers ↔ Gapless outage.moment.directory outage.left :=
  recovers_iff_of_backed ((Session.sound_fresh config).moments calls _ outage.reached) outage.loss

section Rollover

/-- A log that starts a new segment for every record. -/
def tinyConfig : Config where
  maxIndexBytes := 12
  maxStoreBytes := 1
  initialLsn := 1
  maxIndexBytes_lt := by decide
  maxStoreBytes_lt := by decide
  maxIndexBytes_valid := by decide
  maxStoreBytes_valid := by decide
  initialLsn_valid := by decide

theorem tinyConfig_initialLsn : tinyConfig.initialLsn = 1 := rfl

/-- Two transactions begin, and nothing is synchronized. -/
def twoBegins : List Call :=
  [.append ⟨.txnBegin, 1, 0, []⟩, .append ⟨.txnBegin, 2, 0, []⟩]

def lastMoment : Moment :=
  ((Session.fresh tinyConfig).moments twoBegins).getLast (by simp [twoBegins, Session.moments])

/-- The names of both segments survive and nothing of their contents. -/
def rolloverOutage : Outage tinyConfig twoBegins where
  moment := lastMoment
  reached := getLast_mem _
  left := lastMoment.directory.fsynced
  loss := lastMoment.directory.powerLoss_fsynced

theorem rolloverOutage_not_recovers : ¬rolloverOutage.Recovers := by
  rintro ⟨records, ⟨log, log', hOpen, -⟩, -⟩
  have hFails : (openLog (closed tinyConfig lastMoment.directory.fsynced)).isOk = false := by
    decide +kernel
  change openLog (closed tinyConfig lastMoment.directory.fsynced) = _ at hOpen
  rw [hOpen] at hFails
  cases hFails

end Rollover

end Log

end Stoneleaf
