import Stoneleaf.Raft.RaftOpenSpec
import Stoneleaf.Raft.Truncation

/-!
The replicated log as one list, whatever of its files is not on disk yet. Appending, cutting,
synchronizing, closing and opening again do to the list what one expects, also when a cut leaves
a segment empty or ends exactly between two segments.
-/

namespace Stoneleaf

open Library Program List Segment Function Directory RaftEntryCodec FileOp
open Extent (segment)

namespace RaftLog

variable {log : RaftLog} {before a b : List (Extent RaftMutationEntry)}
  {last extent : Extent RaftMutationEntry} {entry : RaftMutationEntry} {encoded : List UInt8}
  {fromIndex index : Nat}

section Append

/-- The files of another segment stay as they are when one segment is written. -/
theorem Opened.base_ne_last (h : Opened log before last) (hMem : extent ∈ before) :
    extent.base ≠ last.base :=
  ((pairwise_append.1 (pairwise_base h.chained h.nonempty)).2.2 extent hMem last mem_cons_self).2.ne

theorem Opened.push {disk : Disk} (h : Opened log before last) {store indexFile : File} {kept : Nat}
    (hSound : (last.push entry).Sound raftFormat)
    (hWritten : Written raftFormat (last.push entry) kept log.disk.directory disk.directory store
      indexFile) :
    Opened { log with
      segments := log.segments.dropLast ++ [(last.push entry).segment],
      nextIndex := log.nextIndex + 1, lastTerm := entry.term, disk := disk }
      before (last.push entry) := by
  have hNext : (last.push entry).next = last.next + 1 := by
    simp [Extent.next, Extent.push, Nat.add_assoc]
  have hFiles := hWritten.at_base.files
  refine ⟨by simp [h.segments], ?_, ?_, h.nonempty, ?_, ?_, ?_⟩
  · rw [hNext, ← h.next]
  · have hRecords : chainRecords (before ++ [last.push entry]) =
        chainRecords (before ++ [last]) ++ [entry] := by
      simp [Extent.push]
    have hLength := h.next_eq
    rw [h.next] at hLength
    rw [hRecords, hNext, Nat.add_sub_cancel, hLength, termOf_concat]
  · have hChained := h.chained
    rw [map_append, chained_append] at hChained ⊢
    exact ⟨hChained.1, hChained.2.1, trivial⟩
  · intro e he
    rcases mem_append.1 he with hBefore | hLast
    · refine (h.held e (mem_append_left _ hBefore)).of_resembles (Or.inl ?_)
      rw [hFiles]
      exact update_of_ne (h.base_ne_last hBefore) _ _
    · obtain rfl := mem_singleton.1 hLast
      exact ⟨hSound, store, indexFile, hWritten.at_base.files_base, hWritten.store_content,
        hWritten.index_content⟩
  · intro base hPresent
    by_cases hBase : base = last.base
    · exact ⟨last.push entry, by simp, hBase.symm⟩
    · rw [hFiles] at hPresent
      have hOld : log.disk.directory.files base ≠ .absent := by
        rwa [update_of_ne (show base ≠ (last.push entry).base from hBase)] at hPresent
      obtain ⟨e, he, rfl⟩ := h.present base hOld
      rcases mem_append.1 he with hBefore | hLast
      · exact ⟨e, mem_append_left _ hBefore, rfl⟩
      · exact absurd (mem_singleton.1 hLast ▸ rfl) hBase

/-- An open log with the given entries. -/
def Stores (log : RaftLog) (entries : List RaftMutationEntry) : Prop :=
  ∃ before last, Opened log before last ∧ chainRecords (before ++ [last]) = entries

/-- What an appending call leaves alone. -/
structure Kept (log log' : RaftLog) : Prop where
  config : log'.config = log.config
  durable : log'.durableIndex = log.durableIndex

theorem Kept.trans {log₁ log₂ : RaftLog} (h : Kept log log₁) (h' : Kept log₁ log₂) :
    Kept log log₂ :=
  ⟨h'.config.trans h.config, h'.durable.trans h.durable⟩

section

variable (h : Opened log before last)
include h

/-- Appending to the last segment either writes the record or is refused, and a refused entry
changes no file. -/
theorem appendToActive_cases {okay failed : RaftLog → Prop}
    (hOffset : (storeImage raftFormat last.records).length < 256 ^ 8)
    (hWrite : Takes last entry → (last.push entry).Sound raftFormat →
      (last.segment.writeRecord (raftFormat.payload entry)).Returns log.disk
        fun segment disk => okay { log with
          segments := log.segments.dropLast ++ [segment],
          nextIndex := log.nextIndex + 1, lastTerm := entry.term, disk := disk })
    (hRefused : ∀ flag, (entry.idx.toNat = log.nextIndex →
      (∃ encoded, encode entry = .ok encoded) → ¬Takes last entry) →
      failed { log with recoveryRequired := flag }) :
    (appendToActive entry).wp log (fun _ => okay) (fun _ => failed) fun _ => False := by
  unfold appendToActive
  simp only [wp_bind, wp_read, h.active_eq]
  rcases prepare_cases last entry with ⟨hPrepare, hIdx, hCount⟩ | ⟨⟨e, hPrepare⟩, hWhy⟩
  · rw [hPrepare]
    change wp (orThrow (encode entry)) _ _ _ _
    cases hEncode : encode entry with
    | error e => exact hRefused _ fun _ hEncodes => by simp [hEncode] at hEncodes
    | ok encoded =>
      have hPayload : raftFormat.payload entry = encoded := by
        simp only [RecordFormat.payload, raftFormat, hEncode]
      rw [hPayload] at hWrite
      simp only [wp_orThrow_ok, wp_onFail, onDisk, wp_zoom, wp_modify]
      by_cases hLarge : encoded.length > 2 ^ 32 - 1
      · obtain ⟨e, hFails⟩ := writeRecord_tooLarge last.segment log.disk hLarge
        unfold wp
        rw [hFails]
        refine hRefused true fun _ _ hTakes => ?_
        have hFrame := hTakes.2
        rw [hPayload] at hFrame
        omega
      · have hFramable : encoded.length < 256 ^ 4 := by omega
        have hTakes : Takes last entry := ⟨hCount, by rwa [hPayload]⟩
        have hSound : (last.push entry).Sound raftFormat :=
          (h.held last (by simp)).sound.push ⟨encoded, hEncode, hFramable⟩ hIdx hCount hOffset
        exact wp_of_returns (hWrite hTakes hSound) (fun _ _ hOkay => hOkay)
  · rw [hPrepare]
    refine hRefused _ fun hNumber _ hTakes => ?_
    rcases hWhy with hNe | hFull
    · exact hNe (hNumber.trans h.next)
    · exact absurd hTakes.1 (Nat.not_lt_of_le hFull)

theorem Opened.flagged (flag : Bool) : Opened { log with recoveryRequired := flag } before last :=
  ⟨h.segments, h.next, h.lastTerm, h.nonempty, h.chained, h.held, h.present⟩

theorem appendToActive_opened (hNumber : entry.idx.toNat = log.nextIndex)
    (hEncode : encode entry = .ok encoded)
    (hOffset : (storeImage raftFormat last.records).length < 256 ^ 8) :
    (appendToActive entry).wp log
      (fun _ log' => Takes last entry ∧ Opened log' before (last.push entry) ∧
        log'.recoveryRequired = log.recoveryRequired ∧ Kept log log')
      (fun _ log' => ¬Takes last entry ∧ Opened log' before last ∧ Kept log log')
      fun _ => False := by
  refine appendToActive_cases h hOffset (fun hTakes hSound => ?_) fun flag hNot => ?_
  · refine wp_conseq (writeRecord_spec (h.held last (by simp)) hSound) ?_
    rintro segment disk' ⟨rfl, ⟨store, indexFile, hWritten⟩, -⟩
    exact ⟨hTakes, h.push hSound hWritten, rfl, rfl, rfl⟩
  · exact ⟨hNot hNumber ⟨encoded, hEncode⟩, h.flagged flag, rfl, rfl⟩

/-- A new segment behind the last one. -/
theorem Opened.create {disk : Disk} (hSome : last.records ≠ [])
    (hFiles : disk.directory.files = Function.update (fun b => (log.disk.directory.files b).link)
      last.next ⟨some (.durable []), some (.durable [])⟩) :
    Opened { log with segments := log.segments ++ [⟨last.next, last.next⟩], disk := disk }
      (before ++ [last]) ⟨last.next, []⟩ := by
  have hPairwise := pairwise_base h.chained h.nonempty
  have hBelow : ∀ e ∈ before ++ [last], e.base < last.next := by
    intro e he
    have hPos := length_pos_iff_ne_nil.2 hSome
    rcases mem_append.1 he with hBefore | hLast
    · have hOrder := (pairwise_append.1 hPairwise).2.2 e hBefore last mem_cons_self
      rw [Extent.next]
      omega
    · rw [mem_singleton.1 hLast, Extent.next]
      omega
  have hNonempty : ∀ e ∈ before ++ [last], e.records ≠ [] := by
    intro e he
    rcases mem_append.1 he with hBefore | hLast
    · exact h.nonempty e hBefore
    · rwa [mem_singleton.1 hLast]
  have hNew : disk.directory.files last.next = ⟨some (.durable []), some (.durable [])⟩ := by
    rw [hFiles, update_self]
  refine ⟨by simp [h.segments, Extent.segment, Extent.next], h.next, ?_, hNonempty, ?_, ?_, ?_⟩
  · rw [show chainRecords ((before ++ [last]) ++ [⟨last.next, []⟩]) =
      chainRecords (before ++ [last]) by simp]
    exact h.lastTerm
  · rw [map_append, chained_append]
    refine ⟨h.chained, ?_, trivial⟩
    simp [Segment.reach, Extent.segment]
  · intro e he
    rcases mem_append.1 he with hOld | hLast
    · refine (h.held e hOld).of_resembles (Or.inr ?_)
      rw [hFiles]
      exact update_of_ne (hBelow e hOld).ne _ _
    · rw [mem_singleton.1 hLast]
      have hPos := (h.held last (by simp)).sound.base_pos
      refine ⟨⟨?_, by simp, by simp, by simp, by simp [offsetsFrom]⟩, _, _, hNew, rfl, rfl⟩
      change 0 < last.next
      rw [Extent.next]
      omega
  · intro base hPresent
    by_cases hBase : base = last.next
    · exact ⟨⟨last.next, []⟩, by simp, hBase.symm⟩
    · rw [hFiles, update_of_ne hBase] at hPresent
      obtain ⟨e, he, hEq⟩ := h.present base fun hAbsent => hPresent (by rw [hAbsent]; rfl)
      exact ⟨e, mem_append_left _ he, hEq⟩

theorem Opened.files_next (hSome : last.records ≠ []) :
    log.disk.directory.files last.next = .absent := by
  by_contra hPresent
  obtain ⟨e, he, hEq⟩ := h.present last.next hPresent
  have hPos := length_pos_iff_ne_nil.2 hSome
  rcases mem_append.1 he with hBefore | hLast
  · have hOrder := (pairwise_append.1 (pairwise_base h.chained h.nonempty)).2.2 e hBefore last
      mem_cons_self
    rw [Extent.next] at hEq
    omega
  · rw [mem_singleton.1 hLast, Extent.next] at hEq
    omega

end

theorem chainRecords_push (b : List (Extent RaftMutationEntry)) (e : Extent RaftMutationEntry) :
    chainRecords (b ++ [e.push entry]) = chainRecords (b ++ [e]) ++ [entry] := by
  simp [Extent.push]

/-- Appending an entry, after a new segment was started for it if need be. -/
theorem appendEntry_opened (h : Opened log before last) (hNumber : entry.idx.toNat = log.nextIndex)
    (hEncode : encode entry = .ok encoded) :
    (appendEntry entry).wp log
      (fun _ log' => Takes (roomIn log.config.toConfig last) entry ∧ (∃ before',
        Opened log' before' ((roomIn log.config.toConfig last).push entry) ∧
          chainRecords (before' ++ [(roomIn log.config.toConfig last).push entry]) =
            chainRecords (before ++ [last]) ++ [entry]) ∧
        log'.recoveryRequired = log.recoveryRequired ∧ Kept log log')
      (fun _ log' => ¬Takes (roomIn log.config.toConfig last) entry ∧ (∃ before',
        Opened log' before' (roomIn log.config.toConfig last) ∧
          chainRecords (before' ++ [roomIn log.config.toConfig last]) =
            chainRecords (before ++ [last])) ∧ Kept log log')
      fun _ => False := by
  have hMaxed := isMaxed_eq (h.held last (by simp)) log.config.toConfig
  unfold appendEntry
  simp only [wp_bind, wp_read, h.active_eq]
  rw [onDisk, wp_zoom]
  refine wp_of_ok hMaxed ?_
  by_cases hFull : last.Full raftFormat log.config.toConfig
  · have hRoom : roomIn log.config.toConfig last = ⟨last.next, []⟩ := if_pos hFull
    simp only [decide_eq_true hFull, if_true, wp_bind, hRoom]
    unfold createSegment onDisk
    simp only [wp_bind, wp_zoom, wp_modify]
    rw [congrArg (Segment.create raftFormat) h.next]
    refine wp_of_returns (create_spec (h.files_next hFull.records_ne_nil)) ?_
    rintro segment disk₁ ⟨rfl, -, hFiles, -⟩
    have hCreated := h.create hFull.records_ne_nil hFiles
    have hRecords : chainRecords ((before ++ [last]) ++ [⟨last.next, []⟩]) =
        chainRecords (before ++ [last]) := by simp
    refine wp_weaken (appendToActive_opened hCreated hNumber hEncode (by simp [storeImage])) ?_ ?_
    · rintro _ log' ⟨hTakes, hOpened, hUsable, hKept⟩
      exact ⟨hTakes, ⟨_, hOpened, by rw [chainRecords_push, hRecords]⟩, hUsable, hKept.config,
        hKept.durable⟩
    · rintro _ log' ⟨hNot, hOpened, hKept⟩
      exact ⟨hNot, ⟨_, hOpened, hRecords⟩, hKept.config, hKept.durable⟩
  · have hRoom : roomIn log.config.toConfig last = last := if_neg hFull
    simp only [decide_eq_false hFull, Bool.false_eq_true, if_false, hRoom]
    refine wp_weaken (appendToActive_opened h hNumber hEncode (Extent.offset_lt hFull)) ?_ ?_
    · rintro _ log' ⟨hTakes, hOpened, hUsable, hKept⟩
      exact ⟨hTakes, ⟨_, hOpened, chainRecords_push _ _⟩, hUsable, hKept⟩
    · rintro _ log' ⟨hNot, hOpened, hKept⟩
      exact ⟨hNot, ⟨_, hOpened, rfl⟩, hKept⟩

/-- Appending the entries of a batch, as many as fit. -/
theorem appendEntries_opened {entries : List RaftMutationEntry} (h : Opened log before last)
    (hDense : Dense log.nextIndex entries) :
    (appendEntries entries).wp log
      (fun _ log' => fitting log.config.toConfig last entries = entries.length ∧
        log'.Stores (chainRecords (before ++ [last]) ++ entries) ∧
        log'.recoveryRequired = log.recoveryRequired ∧ Kept log log')
      (fun _ log' => fitting log.config.toConfig last entries < entries.length ∧
        log'.Stores (chainRecords (before ++ [last]) ++
          entries.take (fitting log.config.toConfig last entries)) ∧ Kept log log')
      fun _ => False := by
  induction entries generalizing log before last with
  | nil => exact ⟨rfl, ⟨before, last, h, by simp⟩, rfl, rfl, rfl⟩
  | cons entry entries ih =>
    obtain ⟨hNumber, ⟨encoded, hEncode⟩, hRest⟩ := hDense
    rw [appendEntries, wp_bind]
    refine wp_weaken (appendEntry_opened h hNumber hEncode) ?_ ?_
    · rintro _ log₁ ⟨hTakes, ⟨before₁, hOpened₁, hRecords₁⟩, hUsable₁, hKept₁⟩
      have hNext : log₁.nextIndex = log.nextIndex + 1 := by
        rw [hOpened₁.next_eq, hRecords₁, h.next_eq, length_append, length_singleton]
      have hFitting : fitting log.config.toConfig last (entry :: entries) =
          fitting log₁.config.toConfig
            ((roomIn log.config.toConfig last).push entry) entries + 1 := by
        rw [fitting, if_pos hTakes, hKept₁.config]
      refine wp_weaken (ih hOpened₁ (by rwa [hNext])) ?_ ?_
      · rintro _ log' ⟨hAll, hStores, hUsable, hKept⟩
        rw [hRecords₁, append_assoc] at hStores
        exact ⟨by rw [hFitting, hAll, length_cons], hStores, hUsable.trans hUsable₁,
          hKept₁.trans hKept⟩
      · rintro _ log' ⟨hSome, hStores, hKept⟩
        rw [hRecords₁, append_assoc] at hStores
        refine ⟨by rw [hFitting, length_cons]; omega, ?_, hKept₁.trans hKept⟩
        rwa [hFitting, take_succ_cons]
    · rintro _ log' ⟨hNot, ⟨before', hOpened', hRecords'⟩, hKept⟩
      have hFitting : fitting log.config.toConfig last (entry :: entries) = 0 := by
        rw [fitting, if_neg hNot]
      refine ⟨by rw [hFitting, length_cons]; omega, ⟨before', _, hOpened', ?_⟩, hKept⟩
      rw [hRecords', hFitting, take_zero, append_nil]

end Append

section Truncate

variable {directory : Directory}

/-- The directory after a truncation: the segment with the boundary is shortened and the later
ones are gone. -/
theorem files_truncated (fromIndex : Nat) (hHeld : Held raftFormat directory extent)
    (hNe : ∀ e ∈ b, e.base ≠ extent.base) :
    (∀ e ∈ b, ((cutOps extent fromIndex ++ removeOps (b.map segment)).foldl apply
      directory).files e.base = .absent) ∧
    (∀ base, base ≠ extent.base → (∀ e ∈ b, e.base ≠ base) →
      ((cutOps extent fromIndex ++ removeOps (b.map segment)).foldl apply
        directory).files base = directory.files base) ∧
    ∃ store index, ((cutOps extent fromIndex ++ removeOps (b.map segment)).foldl apply
        directory).files extent.base = ⟨some store, some index⟩ ∧
      store.content = storeImage raftFormat (extent.records.take (fromIndex - extent.base)) ∧
      index.content = indexImage raftFormat (extent.records.take (fromIndex - extent.base)) := by
  have hNames : ∀ base kind, (⟨base, kind⟩ : FileName) ∈ removedNames (b.map segment) ↔
      ∃ e ∈ b, e.base = base := by
    intro base kind
    cases kind <;> simp [removedNames, Extent.segment, eq_comm]
  have hFile : ∀ name, ((cutOps extent fromIndex ++ removeOps (b.map segment)).foldl
      apply directory).file name =
      if name ∈ removedNames (b.map segment) then none
      else (shortened directory extent fromIndex 2).file name := by
    intro name
    have hShort : (cutOps extent fromIndex).take 2 = cutOps extent fromIndex := by
      refine take_of_length_le ?_
      rw [cutOps]
      split <;> simp
    rw [foldl_append, removeOps_eq, file_removeAll, shortened, hShort]
  obtain ⟨store, index, hAt, hStore, -, hIndex⟩ :=
    shortened_spec fromIndex hHeld (show 0 < 2 by decide)
  have hKept : ∀ base, (∀ e ∈ b, e.base ≠ base) →
      ((cutOps extent fromIndex ++ removeOps (b.map segment)).foldl apply
        directory).files base = (shortened directory extent fromIndex 2).files base := by
    intro base hBase
    have hOut : ∀ kind, (⟨base, kind⟩ : FileName) ∉ removedNames (b.map segment) := by
      intro kind hIn
      obtain ⟨e, he, hEq⟩ := (hNames base kind).1 hIn
      exact hBase e he hEq
    rw [files_eq, hFile, hFile, if_neg (hOut _), if_neg (hOut _)]
    rfl
  refine ⟨fun e he => ?_, fun base hBase hLater => ?_, store, index, ?_, hStore, hIndex le_rfl⟩
  · rw [files_eq, hFile, hFile, if_pos ((hNames _ _).2 ⟨e, he, rfl⟩),
      if_pos ((hNames _ _).2 ⟨e, he, rfl⟩)]
    rfl
  · rw [hKept base hLater, hAt.files, update_of_ne hBase]
  · rw [hKept extent.base hNe, hAt.files_base]

theorem Opened.truncated (h : Opened log before last)
    (hBoundary : Boundary before last fromIndex a extent b) :
    Opened (log.truncated fromIndex (termOf (chainRecords (before ++ [last])) (fromIndex - 1))
      a extent b) a (extent.take (fromIndex - extent.base)) := by
  have hLow := hBoundary.low
  have hHigh := hBoundary.high
  rw [Extent.next] at hHigh
  have hPairwise := pairwise_base h.chained h.nonempty
  have hChained := h.chained
  have hHeld := h.held
  have hPresent := h.present
  rw [hBoundary.cut] at hPairwise hChained hHeld hPresent
  obtain ⟨-, hBehind, hCross⟩ := pairwise_append.1 hPairwise
  have hLater := (pairwise_cons.1 hBehind).1
  have hNext : (extent.take (fromIndex - extent.base)).next = fromIndex := by
    simp only [Extent.next, Extent.take, length_take]
    omega
  obtain ⟨hGone, hOthers, store, index, hFiles, hStore, hIndex⟩ :=
    files_truncated fromIndex (hHeld extent (by simp)) fun e he => (hLater e he).2.ne'
  simp only [← Disk.directory_performAll] at hGone hOthers hFiles
  refine ⟨rfl, hNext.symm, ?_, ?_, ?_, ?_, ?_⟩
  · rw [hNext, hBoundary.take_eq h.chained]
    change termOf _ _ = _
    simp only [termOf, getElem?_take]
    by_cases hZero : fromIndex - 1 = 0
    · rw [if_pos hZero, if_pos hZero]
    · rw [if_neg hZero, if_neg hZero, if_pos (by omega)]
  · intro e he
    have hFront : before = a ++ (extent :: b).dropLast := by
      have hDrop := congrArg List.dropLast hBoundary.cut
      rwa [dropLast_concat, dropLast_append_of_ne_nil (by simp)] at hDrop
    exact h.nonempty e (hFront ▸ mem_append_left _ he)
  · rw [map_append, chained_append] at hChained ⊢
    exact ⟨hChained.1, hChained.2.1, trivial⟩
  · intro e he
    rcases mem_append.1 he with hBefore | hLast
    · refine (hHeld e (mem_append_left _ hBefore)).of_resembles (Or.inl ?_)
      have hBelow : ∀ e' ∈ b, e'.base ≠ e.base := fun e' he' =>
        (hCross e hBefore e' (mem_cons_of_mem _ he')).2.ne'
      exact hOthers e.base (hCross e hBefore extent mem_cons_self).2.ne hBelow
    · rw [mem_singleton.1 hLast]
      exact ⟨(hHeld extent (by simp)).sound.take _, store, index, hFiles, hStore, hIndex⟩
  · intro base hThere
    by_cases hBase : base = extent.base
    · exact ⟨extent.take (fromIndex - extent.base), by simp, hBase.symm⟩
    · by_cases hLater : ∃ e ∈ b, e.base = base
      · obtain ⟨e, he, rfl⟩ := hLater
        exact absurd (hGone e he) hThere
      · push Not at hLater
        obtain ⟨e, he, hEq⟩ := hPresent base (hOthers base hBase hLater ▸ hThere)
        rcases mem_append.1 he with hBefore | hRest
        · exact ⟨e, mem_append_left _ hBefore, hEq⟩
        · rcases mem_cons.1 hRest with rfl | hRest
          · exact absurd hEq.symm hBase
          · exact absurd hEq (hLater e hRest)

theorem truncateSuffix_opened (h : Opened log before last) (fromIndex : Nat) :
    (truncateSuffix fromIndex).wp log
      (fun _ log' => 0 < fromIndex ∧ fromIndex ≤ log.nextIndex ∧
        log'.Stores ((chainRecords (before ++ [last])).take (fromIndex - 1)) ∧
        log'.config = log.config ∧ log'.recoveryRequired = log.recoveryRequired)
      (fun _ log' => log' = log) fun _ => False := by
  by_cases hIdle : log.recoveryRequired = true ∨ fromIndex = 0 ∨ log.nextIndex ≤ fromIndex
  · refine wp_conseq (truncateSuffix_idle h hIdle) ?_
    rintro _ log' ⟨rfl, hEnd, -⟩
    have hNext := h.next_eq
    refine ⟨by omega, hEnd.le, ⟨before, last, h, ?_⟩, rfl, rfl⟩
    rw [hEnd, hNext, Nat.add_sub_cancel, take_length]
  · push Not at hIdle
    obtain ⟨hUsable, hPos, hHigh⟩ := hIdle
    obtain ⟨a, extent, b, hBoundary, hRun⟩ :=
      truncateSuffix_spec h (by simpa using hUsable) (Nat.pos_of_ne_zero hPos) hHigh
    exact wp_of_ok hRun ⟨Nat.pos_of_ne_zero hPos, hHigh.le, ⟨a, _, h.truncated hBoundary,
      hBoundary.take_eq h.chained⟩, rfl, rfl⟩

end Truncate

section Sync

/-- Synchronizing does not change what the files hold. -/
def Alike (directory directory' : Directory) : Prop :=
  ∀ name, (directory'.file name).map File.content = (directory.file name).map File.content

variable {directory directory' directory'' : Directory}

theorem Alike.refl (directory : Directory) : Alike directory directory :=
  fun _ => rfl

section

variable (h : Alike directory directory')
include h

theorem Alike.trans (h' : Alike directory' directory'') : Alike directory directory'' :=
  fun name => (h' name).trans (h name)

theorem Alike.sync (name : FileName) : Alike directory (apply directory' (.sync name)) := by
  intro other
  rw [apply, file_setFile, ← h other]
  split
  · rename_i hName
    rw [hName, Option.map_map]
    rfl
  · rfl

theorem Alike.syncDirectory : Alike directory (apply directory' .syncDirectory) := by
  intro name
  rw [apply, file_link, ← h name, Option.map_map]
  rfl

end

theorem Alike.filed (hAlike : Alike directory directory') (h : Filed before last directory) :
    Filed before last directory' := by
  refine ⟨h.nonempty, h.chained, fun e he => ?_, fun base hPresent => ?_⟩
  · obtain ⟨store, index, hFiles, hStore, hIndex⟩ := (h.held e he).files
    have hStoreFile := hAlike ⟨e.base, .store⟩
    have hIndexFile := hAlike ⟨e.base, .index⟩
    simp only [Directory.file, SegmentFiles.get, hFiles, Option.map_some, Option.map_eq_some_iff]
      at hStoreFile hIndexFile
    obtain ⟨store', hStore', hStoreContent⟩ := hStoreFile
    obtain ⟨index', hIndex', hIndexContent⟩ := hIndexFile
    refine ⟨(h.held e he).sound, store', index', ?_, hStoreContent.trans hStore,
      hIndexContent.trans hIndex⟩
    rw [← hStore', ← hIndex']
  · refine h.present base fun hAbsent => hPresent ?_
    have hNone : ∀ kind, directory'.file ⟨base, kind⟩ = none := by
      intro kind
      have hFile := hAlike ⟨base, kind⟩
      cases kind <;>
        simpa [Directory.file, SegmentFiles.get, hAbsent, SegmentFiles.absent] using hFile
    rw [files_eq, hNone, hNone]
    rfl

/-- What synchronizing segments does, one after the other. -/
def syncOps (segments : List Segment) : List FileOp :=
  segments.flatMap fun segment => [.sync ⟨segment.base, .store⟩, .sync ⟨segment.base, .index⟩]

theorem alike_syncOps (segments : List Segment) (disk : Disk) :
    Alike disk.directory (disk.performAll (syncOps segments)).directory := by
  induction segments generalizing disk with
  | nil => exact .refl _
  | cons segment rest ih => exact (((Alike.refl _).sync _).sync _).trans (ih _)

theorem syncLoop_spec (target : Nat) (segments : List Segment) (disk : Disk) (durable : Nat) :
    (Segment.syncLoop target segments).Returns (disk, durable)
      fun _ synced => ∃ done, done.Sublist segments ∧
        synced.1 = disk.performAll (syncOps done) := by
  induction segments generalizing disk durable with
  | nil => exact ⟨[], .slnil, rfl⟩
  | cons segment rest ih =>
    rw [Segment.syncLoop]
    simp only [wp_bind, wp_read]
    by_cases hSkip : segment.next = segment.base ∨ segment.next - 1 ≤ durable
    · rw [if_pos hSkip]
      refine wp_conseq (ih disk durable) ?_
      rintro _ synced ⟨done, hDone, hDisk⟩
      exact ⟨done, hDone.cons _, hDisk⟩
    · rw [if_neg hSkip]
      unfold Segment.sync Store.sync Index.sync
      simp only [wp_bind, wp_zoom, wp_fileOp, wp_modify]
      by_cases hDone : segment.next - 1 ≥ target
      · rw [if_pos hDone]
        exact ⟨[segment], singleton_sublist.2 mem_cons_self, rfl⟩
      · rw [if_neg hDone]
        refine wp_conseq (ih _ _) ?_
        rintro _ synced ⟨done, hDone, hDisk⟩
        exact ⟨segment :: done, hDone.cons_cons _, hDisk⟩

theorem syncAll_eq (segments : List Segment) (disk : Disk) :
    syncAll segments disk = .ok () (disk.performAll (syncOps segments)) := by
  induction segments generalizing disk with
  | nil => rfl
  | cons segment rest ih => exact ih _

variable (h : Opened log before last)
include h

/-- A log over files that hold the same. -/
theorem Opened.alike {log' : RaftLog} (hAlike : Alike log.disk.directory log'.disk.directory)
    (hSegments : log'.segments = log.segments) (hNext : log'.nextIndex = log.nextIndex)
    (hTerm : log'.lastTerm = log.lastTerm) :
    Opened log' before last := by
  have hFiled := hAlike.filed h.filed
  exact ⟨hSegments.trans h.segments, hNext.trans h.next, hTerm.trans h.lastTerm, hFiled.nonempty,
    hFiled.chained, hFiled.held, hFiled.present⟩

/-- What `sync_through` does to the log. -/
theorem syncThrough_spec (index : Nat) :
    (syncThrough index).wp log
      (fun _ log' => 0 < index ∧ index < log.nextIndex ∧ log.recoveryRequired = false ∧
        ∃ done durable, done.Sublist log.segments ∧ log' = { log with
          disk := log.disk.performAll (syncOps done ++
            if log.directoryDirty then [.syncDirectory] else [])
          durableIndex := durable, directoryDirty := false })
      (fun _ log' => log' = log) fun _ => False := by
  unfold syncThrough
  rw [wp_bind]
  refine h.wp_requireUsable (fun _ => rfl) fun hUsable => ?_
  simp only [wp_bind, wp_read]
  by_cases hOutside : index = 0 ∨ index ≥ log.nextIndex
  · rw [if_pos hOutside]
    rfl
  · rw [if_neg hOutside]
    have hPos : 0 < index := by omega
    have hHigh : index < log.nextIndex := by omega
    simp only [wp_bind, wp_read]
    by_cases hDone : index ≤ log.durableIndex ∧ ¬log.directoryDirty = true
    · rw [if_pos hDone]
      refine ⟨hPos, hHigh, hUsable, [], log.durableIndex, nil_sublist _, ?_⟩
      rw [if_neg hDone.2, ← Bool.eq_false_of_not_eq_true hDone.2]
      rfl
    · rw [if_neg hDone]
      simp only [wp_bind, wp_read, syncSegments, wp_zoom]
      refine wp_of_returns (syncLoop_spec index log.segments log.disk log.durableIndex) ?_
      rintro _ ⟨_, durable⟩ ⟨done, hSublist, rfl⟩
      cases hDirty : log.directoryDirty with
      | true =>
        simp only [if_true, onDisk, wp_bind, wp_zoom, wp_fileOp, wp_modify]
        exact ⟨hPos, hHigh, hUsable, done, durable, hSublist, by rw [performAll_append]; rfl⟩
      | false =>
        simp only [Bool.false_eq_true, if_false, wp_pure, append_nil]
        exact ⟨hPos, hHigh, hUsable, done, durable, hSublist, by rw [← hDirty]⟩

theorem syncThrough_opened (index : Nat) :
    (syncThrough index).wp log
      (fun _ log' => Opened log' before last ∧ 0 < index ∧ index < log.nextIndex ∧
        log.recoveryRequired = false ∧ log'.config = log.config ∧
        log'.recoveryRequired = log.recoveryRequired)
      (fun _ log' => log' = log) fun _ => False := by
  refine wp_conseq (syncThrough_spec h index) ?_
  rintro _ log' ⟨hPos, hHigh, hUsable, done, durable, -, rfl⟩
  have hSynced := alike_syncOps done log.disk
  refine ⟨h.alike ?_ rfl rfl rfl, hPos, hHigh, hUsable, rfl, rfl⟩
  rw [performAll_append]
  split
  · exact hSynced.syncDirectory
  · exact hSynced

theorem close_opened :
    close.wp log
      (fun _ log' => log'.segments = [] ∧ Filed before last log'.disk.directory ∧
        log'.config = log.config)
      (fun _ log' => log' = log) fun _ => False := by
  unfold close
  simp only [wp_bind, wp_read, h.not_isEmpty, Bool.false_eq_true, if_false]
  cases hUsable : log.recoveryRequired with
  | true => simp
  | false =>
    simp only [Bool.false_eq_true, if_false, wp_bind, onDisk, wp_zoom, wp_read]
    refine wp_of_ok (syncAll_eq log.segments log.disk) ?_
    have hAlike := alike_syncOps log.segments log.disk
    cases hDirty : log.directoryDirty with
    | true =>
      simp only [if_true, wp_zoom, wp_bind, wp_fileOp, wp_modify]
      exact ⟨trivial, hAlike.syncDirectory.filed h.filed, trivial⟩
    | false =>
      simp only [Bool.false_eq_true, if_false, wp_modify]
      exact ⟨trivial, hAlike.filed h.filed, trivial⟩

end Sync

section Batch

variable (h : Opened log before last)
include h

/-- The checks of an appending call, and the entries that are then written. A call that fails may
have written some of them. -/
theorem appendFromLeader_opened (firstIndex : UInt64) (entries : List RaftMutationEntry) :
    (appendFromLeader firstIndex entries).wp log
      (fun _ log' => log'.Stores (chainRecords (before ++ [last]) ++ entries) ∧
        log'.config = log.config ∧ log'.recoveryRequired = log.recoveryRequired)
      (fun _ log' => ∃ n, log'.Stores (chainRecords (before ++ [last]) ++ entries.take n))
      fun _ => False := by
  have hNone : ∃ n, log.Stores (chainRecords (before ++ [last]) ++ entries.take n) :=
    ⟨0, before, last, h, by simp⟩
  unfold appendFromLeader
  rw [wp_bind]
  refine h.wp_requireUsable (fun _ => hNone) fun hUsable => ?_
  rw [wp_bind, wp_read]
  by_cases hFirst : firstIndex.toNat = log.nextIndex
  · rw [if_neg (not_not.2 hFirst)]
    cases hCheck : checkBatch firstIndex entries with
    | error e => exact hNone
    | ok value =>
      have hDense := dense_of_checkBatch hCheck
      rw [hFirst] at hDense
      simp only [wp_bind, wp_orThrow_ok]
      refine wp_weaken (appendEntries_opened h hDense) ?_ (fun _ _ hSome => ⟨_, hSome.2.1⟩)
      rintro _ log' ⟨-, hStores, hSame, hKept⟩
      exact ⟨hStores, hKept.config, hSame⟩
  · rw [if_pos hFirst]
    exact hNone

/-- The entries are numbered from one on. -/
theorem Opened.idx_eq {ordinal : Nat}
    (hEntry : (chainRecords (before ++ [last]))[ordinal]? = some entry) :
    entry.idx.toNat = ordinal + 1 := by
  obtain ⟨hShort, -⟩ := List.getElem?_eq_some_iff.1 hEntry
  obtain ⟨a, extent, b, hCut, hLow, hHigh⟩ :=
    h.chained.exists_extent (show 1 ≤ ordinal + 1 by omega) (by omega)
  have hChained := h.chained
  rw [hCut] at hChained hEntry
  have hGet := hChained.getElem?_eq hLow hHigh
  rw [Nat.add_sub_cancel, hEntry] at hGet
  have hNumber := (h.held extent (by simp [hCut])).sound.numbered _ _ hGet.symm
  change entry.idx.toNat = _ at hNumber
  omega

theorem Opened.nextIndex_le : log.nextIndex ≤ 2 ^ 64 := by
  have hNext := h.next_eq
  rcases eq_nil_or_concat (chainRecords (before ++ [last])) with hNone | ⟨front, entry, hSome⟩
  · rw [hNone] at hNext
    rw [hNext]
    decide
  · have hIdx : entry.idx.toNat = front.length + 1 := h.idx_eq (by simp [hSome])
    have hBound := entry.idx.toNat_lt
    rw [hSome, concat_eq_append, length_append, length_singleton] at hNext
    omega

/-- An index that runs over would be zero, and cannot be encoded. -/
theorem Opened.toNat_nextIndex {term : UInt64} {operations : List MutationOp}
    (hEncode : encode ⟨term, .ofNat log.nextIndex, operations⟩ = .ok encoded) :
    (UInt64.ofNat log.nextIndex).toNat = log.nextIndex := by
  have hPos : 0 < (UInt64.ofNat log.nextIndex).toNat := idx_pos hEncode
  have hBound := h.nextIndex_le
  have hOpen := h.next_eq
  rw [UInt64.toNat_ofNat'] at hPos ⊢
  omega

theorem append_opened (term : UInt64) (operations : List MutationOp) :
    (append term operations).wp log
      (fun idx log' => idx.toNat = log.nextIndex ∧
        log'.Stores (chainRecords (before ++ [last]) ++ [⟨term, idx, operations⟩]) ∧
        log'.config = log.config ∧ log'.recoveryRequired = log.recoveryRequired)
      (fun _ _ => True) fun _ => False := by
  unfold append
  rw [wp_bind]
  refine h.wp_requireUsable (fun _ => trivial) fun hUsable => ?_
  simp only [wp_bind, wp_read]
  cases hEncode : encode ⟨term, .ofNat log.nextIndex, operations⟩ with
  | error e => trivial
  | ok encoded =>
    have hNumber := h.toNat_nextIndex hEncode
    simp only [wp_orThrow_ok]
    refine wp_weaken (appendEntry_opened h hNumber hEncode) ?_ (fun _ _ _ => trivial)
    rintro _ log' ⟨-, ⟨before', hOpened, hRecords⟩, hSame, hKept⟩
    exact ⟨hNumber, ⟨before', _, hOpened, hRecords⟩, hKept.config, hSame⟩

end Batch

end RaftLog

end Stoneleaf
