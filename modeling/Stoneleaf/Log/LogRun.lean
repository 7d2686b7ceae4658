import Stoneleaf.Log.LogSpec
import Stoneleaf.Log.Running

/-!
The write-ahead log while it runs. Appending and synchronizing keep the log ready, and every
directory on the way is backed: it lays out the records appended so far, the one being appended
included, and what counts as durable is on disk.
-/

namespace Stoneleaf

open Library Program List WalRecordCodec

namespace Log

/-- An open log with the given segments. -/
structure Ready (log : Log) (before : List (Extent LogRecord)) (last : Extent LogRecord) :
    Prop where
  usable : log.recoveryRequired = false
  segments : log.segments = (before ++ [last]).map Extent.segment
  next : log.nextLsn = last.next
  running : Running walFormat log.config.initialLsn log.durableLsn log.disk.directory before last

/-- A directory that lays out the given records, durable up to a number. -/
def Backed (config : Config) (durable : Nat) (records : List LogRecord) (directory : Directory) :
    Prop :=
  ∃ before last, Laid walFormat config.initialLsn durable directory before last ∧
    (before ++ [last]).flatMap Extent.records = records

variable {log : Log} {before : List (Extent LogRecord)} {last : Extent LogRecord}
  {record : LogRecord} {encoded : List UInt8}

namespace Ready

variable (h : Ready log before last)
include h

theorem not_isEmpty : log.segments.isEmpty = false := by
  simp [h.segments]

theorem active_eq : log.active = last.segment := by
  simp [active, h.segments]

theorem scan_eq : scan log = .ok ((before ++ [last]).flatMap Extent.records) log := by
  let whole : Extent LogRecord → Extent LogRecord × Nat :=
    fun extent => (extent, extent.records.length)
  have hTake : ∀ extent : Extent LogRecord, extent.take extent.records.length = extent :=
    fun extent => by rw [Extent.take, take_length]
  have hSegments : log.segments = ((before ++ [last]).map whole).map Segment.ofCut := by
    rw [h.segments, map_map]
    rfl
  have hHeld : ∀ cut ∈ (before ++ [last]).map whole,
      Held walFormat log.disk.directory (cut.1.take cut.2) := by
    intro cut hCut
    obtain ⟨extent, hMem, rfl⟩ := mem_map.1 hCut
    rw [hTake]
    exact h.running.held extent hMem
  obtain ⟨records, log', hScan, hRecords, rfl⟩ :=
    exists_ok_of_wp (scan_spec (by simp) hSegments hHeld)
  rw [hScan, hRecords, surviving, flatMap_map]
  simp only [whole, take_length]

end Ready

/-- A log is ready once its first segment was created. -/
theorem Started.ready {log' : Log} (h : Started log log') :
    Ready log' [] ⟨log.config.initialLsn, []⟩ := by
  have hPos : 0 < log.config.initialLsn := Nat.pos_of_ne_zero log.config.initialLsn_valid
  refine ⟨h.usable, h.segments, h.next, ?_⟩
  rw [h.config, h.durable]
  exact Running.of_created hPos h.removed h.files

/-- A record that can be encoded fits into a frame. -/
theorem storable_of_encode (hEncode : encode record = .ok encoded) : walFormat.Storable record := by
  obtain ⟨-, hSize, rfl⟩ := (encode_eq_ok_iff record).1 hEncode
  refine ⟨_, hEncode, ?_⟩
  rw [Framable, length_bytes, headerSize]
  rw [headerSize] at hSize
  omega

theorem appendToActive_spec (h : Ready log before last) (hEncode : encode record = .ok encoded)
    (hOffset : (storeImage walFormat last.records).length < 256 ^ 8) :
    (appendToActive record).wp log
      (fun _ log' => record.lsn.toNat = last.next ∧ log'.config = log.config ∧
        log'.durableLsn = log.durableLsn ∧ Ready log' before (last.push record) ∧
        Disk.Passes (fun directory => Laid walFormat log.config.initialLsn log.durableLsn directory
          before (last.push record)) log.disk log'.disk)
      (fun _ log' => log' = log ∧ (record.lsn.toNat ≠ last.next ∨ 256 ^ 4 ≤ last.records.length))
      fun _ => False := by
  have hStorable := storable_of_encode hEncode
  unfold appendToActive
  simp only [wp_bind, wp_read, h.active_eq]
  rcases Segment.prepare_cases last record with ⟨hPrepare, hNumber, hCount⟩ | ⟨⟨e, hPrepare⟩, hWhy⟩
  · rw [hPrepare, hStorable.encode_eq]
    simp only [wp_orThrow_ok, wp_onFail, onDisk, wp_zoom, wp_modify]
    have hSound : (last.push record).Sound walFormat :=
      (h.running.sound last Laid.mem_last).push hStorable hNumber hCount hOffset
    refine wp_of_returns (h.running.writeRecord_spec hSound) ?_
    rintro segment disk' ⟨rfl, hRunning, hPasses⟩
    refine ⟨hNumber, trivial, trivial, ⟨h.usable, ?_, ?_, hRunning⟩, hPasses⟩
    · simp [h.segments]
    · rw [h.next]
      simp [Extent.next, Extent.push, Nat.add_assoc]
  · rw [hPrepare]
    exact ⟨rfl, hWhy⟩

theorem lsn_pos (hEncode : encode record = .ok encoded) :
    0 < record.lsn.toNat := by
  obtain ⟨hValid, -⟩ := (encode_eq_ok_iff record).1 hEncode
  refine Nat.pos_of_ne_zero fun hZero => ?_
  exact lsn_ne_zero_of_validateFields record hValid (UInt64.toNat_inj.1 hZero)

/-- The numbers of a log with records do not run over. -/
theorem number_lsn (h : Ready log before last) (hNonempty : last.records ≠ [])
    {pending : PendingLogRecord} (hEncode : encode (number pending log.nextLsn) = .ok encoded) :
    (number pending log.nextLsn).lsn.toNat = last.next := by
  have hPos := lsn_pos hEncode
  have hLast := (h.running.sound last Laid.mem_last).numbered (last.records.length - 1)
    (last.records.getLast hNonempty) (by simp [getLast_eq_getElem])
  have hBound : (last.records.getLast hNonempty).lsn.toNat < 2 ^ 64 := UInt64.toNat_lt _
  have hSome : 0 < last.records.length := length_pos_iff.2 hNonempty
  have hNext : last.next = last.base + last.records.length := rfl
  change (last.records.getLast hNonempty).lsn.toNat = _ at hLast
  simp only [number, h.next, UInt64.toNat_ofNat'] at hPos ⊢
  omega

/-- Appending adds one record, or fails without a trace: the record cannot be encoded, or a
segment that is not full has no number left for it. -/
theorem append_spec (h : Ready log before last) (pending : PendingLogRecord) :
    (append pending).wp log
      (fun lsn log' => lsn = (number pending log.nextLsn).lsn ∧ log'.config = log.config ∧
        log'.durableLsn = log.durableLsn ∧ ∃ before' last', Ready log' before' last' ∧
          (before' ++ [last']).flatMap Extent.records =
            (before ++ [last]).flatMap Extent.records ++ [number pending log.nextLsn] ∧
          Disk.Passes (Backed log.config log.durableLsn
            ((before' ++ [last']).flatMap Extent.records)) log.disk log'.disk)
      (fun _ log' => log' = log ∧ ∀ encoded, encode (number pending log.nextLsn) = .ok encoded →
        ¬last.Full walFormat log.config)
      fun _ => False := by
  unfold append requireUsable
  simp only [wp_bind, wp_read, h.not_isEmpty, h.usable, Bool.false_eq_true, if_false, wp_pure]
  cases hEncode : encode (number pending log.nextLsn) with
  | error e => simp
  | ok encoded =>
    simp only [wp_orThrow_ok, h.active_eq]
    rw [onDisk, wp_zoom]
    refine wp_of_ok (Segment.isMaxed_eq (h.running.held last Laid.mem_last) log.config) ?_
    by_cases hFull : last.Full walFormat log.config
    · have hNonempty := hFull.records_ne_nil
      have hNumber := number_lsn h hNonempty hEncode
      have hEmpty : Extent.Sound walFormat ⟨last.next, []⟩ :=
        ⟨by rw [← hNumber]; exact lsn_pos hEncode, by simp, by simp, by simp,
          by simp [offsetsFrom]⟩
      have hSound : Extent.Sound walFormat ⟨last.next, [number pending log.nextLsn]⟩ :=
        hEmpty.push (storable_of_encode hEncode) hNumber (by simp) (by simp [storeImage])
      unfold createSegment
      simp only [decide_eq_true hFull, if_true, wp_bind, onDisk, wp_zoom, wp_modify]
      rw [congrArg (Segment.create walFormat) h.next]
      refine wp_of_returns (h.running.create_spec hNonempty hSound) ?_
      rintro segment disk₁ ⟨rfl, hRunning, hCreated⟩
      have hReady₁ : Ready
          { log with segments := log.segments ++ [⟨last.next, last.next⟩], disk := disk₁ }
          (before ++ [last]) ⟨last.next, []⟩ :=
        ⟨h.usable, by simp [h.segments, Extent.segment, Extent.next], h.next, hRunning⟩
      refine wp_weaken (appendToActive_spec hReady₁ hEncode (by simp [storeImage])) ?_ ?_
      · rintro _ log' ⟨-, hConfig, hDurable, hReady, hPasses⟩
        refine ⟨rfl, hConfig, hDurable, before ++ [last], _, hReady, ?_, ?_⟩
        · simp [Extent.push]
        · refine Disk.Passes.mono (hCreated.trans hPasses) ?_
          exact fun directory hLaid => ⟨before ++ [last], _, hLaid, rfl⟩
      · rintro e log' ⟨-, hWhy⟩
        rcases hWhy with hNe | hMany
        · exact absurd hNumber hNe
        · simp at hMany
    · simp only [decide_eq_false hFull, Bool.false_eq_true, if_false, wp_bind, wp_pure]
      refine wp_weaken (appendToActive_spec h hEncode (Extent.offset_lt hFull)) ?_
        (fun _ _ hFail => ⟨hFail.1, fun _ _ => hFull⟩)
      rintro _ log' ⟨-, hConfig, hDurable, hReady, hPasses⟩
      refine ⟨trivial, hConfig, hDurable, before, _, hReady, ?_, hPasses.mono ?_⟩
      · simp [Extent.push]
      · exact fun directory hLaid => ⟨before, _, hLaid, rfl⟩

/-- Synchronizing makes the records up to the target durable, or fails without a trace. -/
theorem syncThrough_spec (target : Nat) (h : Ready log before last) :
    (syncThrough target).wp log
      (fun _ log' => Ready log' before last ∧ log'.config = log.config ∧
        log.durableLsn ≤ log'.durableLsn ∧ target ≤ log'.durableLsn ∧
        Disk.Passes (fun directory => Laid walFormat log.config.initialLsn log.durableLsn directory
          before last) log.disk log'.disk)
      (fun _ log' => log' = log) fun _ => False := by
  unfold syncThrough requireUsable
  simp only [wp_bind, wp_read, h.not_isEmpty, h.usable, Bool.false_eq_true, if_false, wp_pure]
  by_cases hRange : target < log.config.initialLsn ∨ target ≥ log.nextLsn
  · rw [if_pos hRange]
    simp only [wp_bind, wp_fail]
  · rw [if_neg hRange]
    push Not at hRange
    simp only [wp_bind, wp_read]
    by_cases hDurable : target ≤ log.durableLsn
    · rw [if_pos hDurable]
      exact ⟨h, rfl, le_rfl, hDurable, .refl _⟩
    · rw [if_neg hDurable]
      simp only [wp_bind, wp_read, h.segments]
      have hNext := h.next
      rw [syncSegments, wp_zoom]
      refine wp_of_returns (h.running.syncAll_spec (by omega) hRange.1) ?_
      rintro _ synced ⟨hRunning, hLe, hReached, hPasses⟩
      exact ⟨⟨h.usable, h.segments, h.next, hRunning⟩, rfl, hLe, hReached, hPasses⟩

end Log

end Stoneleaf
