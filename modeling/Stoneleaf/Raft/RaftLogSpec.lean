import Stoneleaf.Log.Chain
import Stoneleaf.Log.Running
import Stoneleaf.Raft.RaftLog

/-!
The replicated log as one list of entries, while nothing of it is cut. Reading a term, appending
and synchronizing do to the list what one expects, across the borders of segments.
-/

namespace Stoneleaf

open Library Program List

variable {entry : RaftMutationEntry}

namespace RaftEntryCodec

/-- An entry starts with its term. -/
theorem take_payload (h : raftFormat.Storable entry) :
    8 ≤ (raftFormat.payload entry).length ∧
      (raftFormat.payload entry).take 8 = bigEndian 8 entry.term.toNat := by
  obtain ⟨-, -, parts, -, hBytes⟩ := encode_eq_ok_iff.1 h.encode_eq
  rw [hBytes]
  constructor
  · simp
  · rw [take_append_of_le_length (by simp)]
    exact take_of_length_le (by simp)

theorem idx_pos {encoded : List UInt8} (hEncode : encode entry = .ok encoded) :
    0 < entry.idx.toNat := by
  obtain ⟨hHeader, -⟩ := encode_eq_ok_iff.1 hEncode
  refine Nat.pos_of_ne_zero fun hZero => ?_
  have hIdx : entry.idx = 0 := UInt64.toNat_inj.1 hZero
  rw [validateHeader, hIdx] at hHeader
  split at hHeader <;> simp at hHeader

end RaftEntryCodec

namespace RaftSegment

variable {disk : Disk} {extent : Extent RaftMutationEntry} {index : Nat}

theorem termAt_spec (hHeld : Held raftFormat disk.directory extent) (hLow : extent.base ≤ index)
    (hEntry : extent.records[index - extent.base]? = some entry) :
    termAt extent.segment index disk = .ok entry.term disk := by
  obtain ⟨a, b, hSound, hLength, hStore, hOffset⟩ := Segment.located hHeld hEntry
  obtain ⟨hShort, -⟩ := List.getElem?_eq_some_iff.1 hEntry
  have hStorable : raftFormat.Storable entry := hSound.storable entry (by simp)
  obtain ⟨hLong, hTerm⟩ := RaftEntryCodec.take_payload hStorable
  have hRead : Store.readPrefix (storeImage raftFormat (a ++ entry :: b))
      (storeImage raftFormat a).length 8 = .ok (bigEndian 8 entry.term.toNat) := by
    have hFrames : ∀ p ∈ a.map raftFormat.payload ++ raftFormat.payload entry ::
        b.map raftFormat.payload, Framable p := by simpa using hSound.framable
    have hPrefix := Store.readPrefix_frames hFrames (show splitFrame [] = none from rfl) hLong
    rw [append_nil, hTerm] at hPrefix
    simpa [storeImage] using hPrefix
  have hRange : ¬(index < extent.segment.base ∨ index ≥ extent.segment.next) := by
    change ¬(index < extent.base ∨ index ≥ extent.base + extent.records.length)
    omega
  refine eq_ok_of_wp ?_
  unfold termAt
  rw [if_neg hRange]
  simp only [wp_bind, wp_readFile, Extent.segment, hOffset, wp_orThrow_ok, hStore, hRead]
  simp

end RaftSegment

namespace RaftLog

/-- The term of the entry with an index, or zero. -/
def termOf (entries : List RaftMutationEntry) (index : Nat) : UInt64 :=
  if index = 0 then 0 else (entries[index - 1]?.map RaftMutationEntry.term).getD 0

/-- An open log whose files hold exactly the given segments. -/
structure Opened (log : RaftLog) (before : List (Extent RaftMutationEntry))
    (last : Extent RaftMutationEntry) : Prop where
  segments : log.segments = (before ++ [last]).map Extent.segment
  next : log.nextIndex = last.next
  lastTerm : log.lastTerm = termOf (chainRecords (before ++ [last])) (last.next - 1)
  nonempty : ∀ extent ∈ before, extent.records ≠ []
  chained : Segment.Chained 1 ((before ++ [last]).map Extent.segment)
  held : ∀ extent ∈ before ++ [last], Held raftFormat log.disk.directory extent
  present : ∀ base, log.disk.directory.files base ≠ .absent →
    ∃ extent ∈ before ++ [last], extent.base = base

variable {log : RaftLog} {before : List (Extent RaftMutationEntry)}
  {last : Extent RaftMutationEntry}

theorem segmentOf_eq {a b : List (Extent RaftMutationEntry)} {extent : Extent RaftMutationEntry}
    {expected index : Nat}
    (hChained : Segment.Chained expected ((a ++ extent :: b).map Extent.segment))
    (hLow : extent.base ≤ index) (hHigh : index < extent.next) :
    segmentOf ((a ++ extent :: b).map Extent.segment) index = some extent.segment := by
  rw [segmentOf, map_append, find?_append, find?_eq_none.2, Option.none_or,
    map_cons, find?_cons_of_pos]
  · change (decide (extent.base ≤ index) && decide (index < extent.next)) = true
    simp [hLow, hHigh]
  · intro segment hSegment
    obtain ⟨earlier, hMem, rfl⟩ := mem_map.1 hSegment
    have hBefore := hChained.next_le hMem
    change ¬(decide (earlier.base ≤ index) && decide (index < earlier.next)) = true
    simp
    omega

namespace Opened

variable (h : Opened log before last)
include h

theorem not_isEmpty : log.segments.isEmpty = false := by
  simp [h.segments]

theorem active_eq : log.active = last.segment := by
  simp [active, h.segments]

theorem wp_requireUsable {text : String} {okay : Unit → RaftLog → Prop}
    {failed : Exception → RaftLog → Prop} {halted : RaftLog → Prop}
    (hFail : log.recoveryRequired = true → failed (.runtimeError text) log)
    (hOkay : log.recoveryRequired = false → okay () log) :
    (requireUsable text).wp log okay failed halted :=
  RaftLog.wp_requireUsable (fun hNone => by simp [h.segments] at hNone) hFail fun _ => hOkay

theorem next_eq : log.nextIndex = (chainRecords (before ++ [last])).length + 1 := by
  have hBase := h.chained.base_eq
  rw [h.next, Extent.next, hBase, chainRecords_append, chainRecords_cons]
  simp
  omega

end Opened

/-- The segment with an index of the log, and the term that it has there. -/
theorem Opened.termAt_segment (h : Opened log before last) {index : Nat} (hPos : 0 < index)
    (hIndex : index < log.nextIndex) :
    ∃ segment, segmentOf log.segments index = some segment ∧
      RaftSegment.termAt segment index log.disk =
        .ok (termOf (chainRecords (before ++ [last])) index) log.disk := by
  have hNext := h.next_eq
  obtain ⟨a, extent, b, hCut, hLow, hHigh⟩ :=
    h.chained.exists_extent (show 1 ≤ index from hPos) (by omega)
  have hChained := h.chained
  rw [hCut] at hChained
  have hEntry := hChained.getElem?_eq hLow hHigh
  have hShort : index - extent.base < extent.records.length := by
    rw [Extent.next] at hHigh
    omega
  rw [getElem?_eq_getElem hShort] at hEntry
  refine ⟨extent.segment, ?_, ?_⟩
  · rw [h.segments, hCut, segmentOf_eq hChained hLow hHigh]
  · rw [RaftSegment.termAt_spec (h.held extent (by simp [hCut])) hLow
      (getElem?_eq_getElem hShort), termOf, if_neg (by omega), hCut, hEntry]
    rfl

theorem termAt_spec (h : Opened log before last) (index : Nat) :
    termAt index log = .ok (termOf (chainRecords (before ++ [last])) index) log := by
  have hNext := h.next_eq
  refine eq_ok_of_wp ?_
  unfold termAt requireOpen
  simp only [wp_bind, wp_read, h.not_isEmpty, Bool.false_eq_true, if_false, wp_pure]
  by_cases hRange : index = 0 ∨ index ≥ log.nextIndex
  · rw [if_pos hRange]
    refine ⟨?_, rfl⟩
    rcases hRange with rfl | hAbove
    · rfl
    · rw [termOf, if_neg (by omega), getElem?_eq_none (by omega)]
      rfl
  · rw [if_neg hRange]
    push Not at hRange
    obtain ⟨segment, hSegment, hTerm⟩ := h.termAt_segment (Nat.pos_of_ne_zero hRange.1) hRange.2
    simp only [wp_bind, wp_read, hSegment, onDisk, wp_zoom]
    exact wp_of_ok hTerm ⟨rfl, rfl⟩

section Append

/-- The segment that the next entry goes to. -/
def roomIn (config : Config) (last : Extent RaftMutationEntry) : Extent RaftMutationEntry :=
  if last.Full raftFormat config then ⟨last.next, []⟩ else last

/-- The segment has a number left for the entry, and the entry fits into a frame. -/
def Takes (extent : Extent RaftMutationEntry) (entry : RaftMutationEntry) : Prop :=
  extent.records.length < 256 ^ 4 ∧ (raftFormat.payload entry).length < 256 ^ 4

instance (extent : Extent RaftMutationEntry) (entry : RaftMutationEntry) :
    Decidable (Takes extent entry) :=
  inferInstanceAs (Decidable (_ ∧ _))

/-- How many entries can be appended one after another. -/
def fitting (config : Config) (last : Extent RaftMutationEntry) : List RaftMutationEntry → Nat
  | [] => 0
  | entry :: entries =>
    if Takes (roomIn config last) entry then
      fitting config ((roomIn config last).push entry) entries + 1
    else 0

/-- Consecutive entries that can be encoded. -/
def Dense (next : Nat) : List RaftMutationEntry → Prop
  | [] => True
  | entry :: entries => entry.idx.toNat = next ∧
      (∃ encoded, RaftEntryCodec.encode entry = .ok encoded) ∧ Dense (next + 1) entries

variable {entry : RaftMutationEntry} {encoded : List UInt8}

theorem termOf_concat (entries : List RaftMutationEntry) (entry : RaftMutationEntry) :
    termOf (entries ++ [entry]) (entries.length + 1) = entry.term := by
  simp [termOf]

theorem dense_of_checkBatch {expected : UInt64} {entries : List RaftMutationEntry}
    (hCheck : checkBatch expected entries = .ok ()) : Dense expected.toNat entries := by
  induction entries generalizing expected with
  | nil => trivial
  | cons entry entries ih =>
    rw [checkBatch] at hCheck
    split at hCheck
    · cases hCheck
    · rename_i hIdx
      have hSame : entry.idx = expected := not_not.1 hIdx
      cases hEncode : RaftEntryCodec.encode entry with
      | error e =>
        rw [hEncode] at hCheck
        cases hCheck
      | ok encoded =>
        rw [hEncode] at hCheck
        refine ⟨by rw [hSame], ⟨encoded, hEncode⟩, ?_⟩
        have hRest := ih hCheck
        cases entries with
        | nil => trivial
        | cons next rest =>
          -- an index that runs over would be zero, and cannot be encoded
          obtain ⟨hNext, ⟨bytes, hBytes⟩, hMore⟩ := hRest
          have hNonzero : 0 < next.idx.toNat := RaftEntryCodec.idx_pos hBytes
          rw [UInt64.toNat_add, UInt64.toNat_one] at hNext hMore
          have hBound := expected.toNat_lt
          have hWrap : (expected.toNat + 1) % 2 ^ 64 = expected.toNat + 1 := by omega
          rw [hWrap] at hNext hMore
          exact ⟨hNext, ⟨bytes, hBytes⟩, hMore⟩

end Append

end RaftLog

end Stoneleaf
