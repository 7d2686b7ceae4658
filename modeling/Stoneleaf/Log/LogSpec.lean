import Stoneleaf.Log.Layout
import Stoneleaf.Log.Log

/-!
What opening the write-ahead log exposes. The directory may hold segments of which any number of
records survived; the log opens exactly when they are chained from its first number on, and then
shows the surviving records in order.
-/

namespace Stoneleaf

open Library Program List Segment

namespace Log

variable {config : Config} {directory : Directory} {cuts : List (Extent LogRecord × Nat)}
  {log : Log}

theorem checkFiles_ok (files : SegmentFiles) (h : files.store ≠ none) : checkFiles files = .ok () :=
  if_neg h

/-- The log object after its segments were opened. -/
structure Reopened (log : Log) (cuts : List (Extent LogRecord × Nat)) (log' : Log) : Prop where
  config : log'.config = log.config
  segments : log'.segments = cuts.map Segment.ofCut
  opened : AllOpened walFormat cuts log.disk.directory log'.disk.directory
  next : log'.nextLsn = (log'.segments.getLast?.map Segment.next).getD 0
  durable : log'.durableLsn = log'.nextLsn - 1
  usable : log'.recoveryRequired = false

theorem openLog_spec (hClosed : log.segments = [])
    (hRemains : Remains walFormat log.disk.directory cuts) (hSome : cuts ≠ []) :
    openLog.wp log
      (fun _ log' => Segment.Chained log.config.initialLsn (cuts.map Segment.ofCut) ∧
        Reopened log cuts log')
      (fun _ _ => ¬Segment.Chained log.config.initialLsn (cuts.map Segment.ofCut))
      fun _ => False := by
  have hEntries : log.disk.directory.entries.isEmpty = false := by
    cases hEmpty : log.disk.directory.entries with
    | nil =>
      have hBases := hRemains.bases
      rw [Directory.bases, hEmpty] at hBases
      exact absurd (map_eq_nil_iff.1 hBases.symm) hSome
    | cons => rfl
  unfold openLog openSegments onDisk
  simp only [wp_bind, wp_read, hClosed, isEmpty_nil, not_true_eq_false, if_false, hEntries,
    wp_onFail, wp_zoom, wp_modify, Bool.false_eq_true]
  refine wp_conseq (openAll_spec walFormat_lawful hRemains.cut hRemains.pairwise
    (hRemains.found checkFiles_ok)) ?_
  rintro segments disk' ⟨hChained, rfl, hOpened⟩
  exact ⟨hChained, rfl, rfl, hOpened, rfl, rfl, rfl⟩

/-- The log object after its first segment was created. -/
structure Started (log log' : Log) : Prop where
  config : log'.config = log.config
  segments : log'.segments = [⟨log.config.initialLsn, log.config.initialLsn⟩]
  next : log'.nextLsn = log.config.initialLsn
  durable : log'.durableLsn = log.config.initialLsn - 1
  usable : log'.recoveryRequired = false
  removed : log'.disk.directory.removed = []
  files : log'.disk.directory.files = Function.update (fun _ => .absent) log.config.initialLsn
    ⟨some (.durable []), some (.durable [])⟩

theorem openLog_empty_spec (hClosed : log.segments = [])
    (hEmpty : log.disk.directory.entries = []) :
    openLog.Returns log
      fun _ log' => Started log log' ∧
        Disk.Passes (Segment.Creating log.config.initialLsn log.disk.directory) log.disk
          log'.disk := by
  have hAbsent : log.disk.directory.files = fun _ => .absent := by
    funext base
    simp [Directory.files, hEmpty, valueOf]
  unfold openLog openSegments createSegment onDisk
  simp only [wp_bind, wp_read, hClosed, isEmpty_nil, not_true_eq_false, if_false, hEmpty,
    wp_onFail, wp_zoom, wp_modify, if_true]
  refine wp_conseq (create_spec (by rw [hAbsent])) ?_
  rintro segment disk' ⟨rfl, hRemoved, hFiles, hPasses⟩
  refine ⟨⟨rfl, rfl, rfl, rfl, rfl, hRemoved, ?_⟩, hPasses⟩
  rw [hFiles, hAbsent]
  rfl

theorem scanSegments_spec
    (hHeld : ∀ cut ∈ cuts, Held walFormat log.disk.directory (cut.1.take cut.2)) :
    (scanSegments (cuts.map Segment.ofCut)).Returns log
      fun records log' => records = surviving cuts ∧ log' = log := by
  induction cuts with
  | nil => exact ⟨rfl, rfl⟩
  | cons cut cuts ih =>
    rw [map_cons, scanSegments]
    simp only [onDisk, wp_bind, wp_zoom]
    refine wp_conseq (scan_spec walFormat_lawful (hHeld cut mem_cons_self) _) ?_
    rintro records disk' ⟨rfl, rfl⟩
    refine wp_conseq (ih fun cut hc => hHeld cut (mem_cons_of_mem _ hc)) ?_
    rintro rest log' ⟨rfl, rfl⟩
    exact ⟨rfl, rfl⟩

theorem scan_spec (hSome : cuts ≠ []) (hSegments : log.segments = cuts.map Segment.ofCut)
    (hHeld : ∀ cut ∈ cuts, Held walFormat log.disk.directory (cut.1.take cut.2)) :
    scan.Returns log fun records log' => records = surviving cuts ∧ log' = log := by
  have hOpen : log.segments.isEmpty = false := by
    rw [hSegments]
    simpa using hSome
  unfold scan
  simp only [wp_bind, wp_read, hOpen, Bool.false_eq_true, if_false]
  rw [hSegments]
  exact scanSegments_spec hHeld

/-- Opening the log on a directory succeeds, and a scan of it returns the given records. -/
def Exposes (config : Config) (directory : Directory) (records : List LogRecord) : Prop :=
  ∃ log log', openLog (closed config directory) = .ok () log ∧ scan log = .ok records log'

/-- A log opens on surviving segments exactly when they are chained, and exposes what they
hold. -/
theorem exposes_iff (hRemains : Remains walFormat directory cuts) (hSome : cuts ≠ [])
    {records : List LogRecord} :
    Exposes config directory records ↔
      Segment.Chained config.initialLsn (cuts.map Segment.ofCut) ∧ records = surviving cuts := by
  have hSpec : openLog.wp (closed config directory) _ _ _ := openLog_spec rfl hRemains hSome
  constructor
  · rintro ⟨log, log', hOpen, hScan⟩
    obtain ⟨hChained, hReopened⟩ := okay_of_wp hOpen hSpec
    have hScanned := scan_spec hSome hReopened.segments hReopened.opened.held
    exact ⟨hChained, (okay_of_wp hScan hScanned).1⟩
  · rintro ⟨hChained, rfl⟩
    obtain ⟨_, log, hOpen, -, hReopened⟩ := exists_ok_of_wp (wp_weaken hSpec (fun _ _ h => h)
      (fun _ _ h => h hChained))
    have hScanned := scan_spec hSome hReopened.segments hReopened.opened.held
    obtain ⟨_, log', hScan, rfl, -⟩ := exists_ok_of_wp hScanned
    exact ⟨log, log', hOpen, hScan⟩

theorem exposes_empty (hEmpty : directory.entries = []) : Exposes config directory [] := by
  have hSpec : openLog.wp (closed config directory) _ _ _ := openLog_empty_spec rfl hEmpty
  obtain ⟨_, log, hOpen, hStarted, -⟩ := exists_ok_of_wp hSpec
  have hSound : Extent.Sound walFormat ⟨config.initialLsn, []⟩ :=
    ⟨Nat.pos_of_ne_zero config.initialLsn_valid, by simp, by simp, by simp, by simp [offsetsFrom]⟩
  have hHeld : Held walFormat log.disk.directory ⟨config.initialLsn, []⟩ := by
    refine ⟨hSound, .durable [], .durable [], ?_, rfl, rfl⟩
    rw [hStarted.files]
    exact Function.update_self _ _ _
  have hAll : ∀ cut ∈ [((⟨config.initialLsn, []⟩ : Extent LogRecord), 0)],
      Held walFormat log.disk.directory (cut.1.take cut.2) := by
    intro cut hCut
    rw [mem_singleton.1 hCut]
    exact hHeld
  obtain ⟨_, log', hRun, rfl, -⟩ :=
    exists_ok_of_wp (scan_spec (cons_ne_nil _ _) hStarted.segments hAll)
  exact ⟨log, log', hOpen, hRun⟩

/-- A log does not open on an index without its store. -/
theorem not_exposes_of_orphan {base : Nat} (hPresent : directory.files base ≠ .absent)
    (hOrphan : (directory.files base).store = none) (records : List LogRecord) :
    ¬Exposes config directory records := by
  rintro ⟨log, log', hOpen, -⟩
  have hEntry : (base, directory.files base) ∈ directory.entries := by
    rw [directory.entries_eq_map]
    exact mem_map.2 ⟨base, (directory.mem_bases base).2 hPresent, rfl⟩
  have hEntries : directory.entries.isEmpty = false := by
    cases hEmpty : directory.entries with
    | nil =>
      rw [hEmpty] at hEntry
      cases hEntry
    | cons => rfl
  have hChecked : openLog.wp (closed config directory)
      (fun _ _ => ∀ entry ∈ directory.entries, checkFiles entry.2 = .ok ()) (fun _ _ => True)
      fun _ => True := by
    unfold openLog openSegments onDisk closed
    simp only [wp_bind, wp_read, isEmpty_nil, not_true_eq_false, if_false, hEntries,
      wp_onFail, wp_zoom, wp_modify, Bool.false_eq_true]
    exact openAll_checked _ _ _ _ _
  have hOk := okay_of_wp hOpen hChecked _ hEntry
  rw [checkFiles, if_pos hOrphan] at hOk
  cases hOk

/-- After a power loss the log opens with a beginning of what was written and everything that
was durable, exactly when no store before a surviving segment was cut. -/
theorem exposes_survivors_iff {durable : Nat} {before : List (Extent LogRecord)}
    {last : Extent LogRecord} {directory' : Directory}
    (hLaid : Laid walFormat config.initialLsn durable directory before last)
    (hLoss : PowerLoss directory directory') :
    (∃ records, Exposes config directory' records ∧
      records <+: (before ++ [last]).flatMap Extent.records ∧
      ∀ extent ∈ before ++ [last], ∀ record ∈ extent.through durable, record ∈ records) ↔
      Gapless directory directory' := by
  by_cases hStores : ∀ base, directory'.files base ≠ .absent → (directory'.files base).store ≠ none
  · obtain ⟨cuts, hSurvivors⟩ := hLaid.survivors hLoss hStores
    rw [hSurvivors.gapless_iff hLaid hStores]
    constructor
    · rintro ⟨records, hExposes, -⟩
      by_cases hSome : cuts = []
      · rw [hSome]
        trivial
      · exact ((exposes_iff hSurvivors.remains hSome).1 hExposes).1
    · intro hChained
      have hFull := (chained_cuts_iff (hSurvivors.chained_extents hLaid)).1 hChained
      refine ⟨surviving cuts, ?_, ?_, fun e he r hr => hSurvivors.mem_surviving he hr⟩
      · by_cases hSome : cuts = []
        · subst hSome
          refine exposes_empty ?_
          simpa [Directory.bases] using hSurvivors.remains.bases
        · exact (exposes_iff hSurvivors.remains hSome).2 ⟨hChained, rfl⟩
      · refine (surviving_isPrefix hFull).trans ?_
        rcases hSurvivors.extents with hEq | hEq
        · rw [hEq, flatMap_append]
          exact prefix_append _ _
        · rw [hEq]
  · push Not at hStores
    obtain ⟨base, hPresent, hOrphan⟩ := hStores
    constructor
    · rintro ⟨records, hExposes, -⟩
      exact absurd hExposes (not_exposes_of_orphan hPresent hOrphan records)
    · intro hGapless
      exact absurd hOrphan (hGapless base hPresent).1

end Log

end Stoneleaf
