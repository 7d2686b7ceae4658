import Stoneleaf.Library.Framing
import Stoneleaf.Storage.Disk

/-!
The store file of a segment: its records as length-prefixed frames. A scan finds where the
complete frames end. The source keeps the result of the last scan beside the file; as long as no
file operation fails it is the scan of the content at hand, so the model scans the content.
-/

namespace Stoneleaf

open Library List

inductive StoreScanStatus where
  | complete
  | incompleteTail
deriving DecidableEq, Repr

structure StoreScanResult where
  status : StoreScanStatus
  physicalSize : Nat
  validSize : Nat
  recordCount : Nat
deriving DecidableEq, Repr

namespace Store

/-- Bytes of the length in front of a record. -/
def recordLengthSize : Nat := 4

/-- The loop of `inspect_file`, with the bytes from the current offset on. -/
def inspectFrom (offset recordCount : Nat) (rest : List UInt8) : StoreScanResult :=
  if rest.length = 0 then ⟨.complete, offset, offset, recordCount⟩
  else if rest.length < recordLengthSize then
    ⟨.incompleteTail, offset + rest.length, offset, recordCount⟩
  else
    let recordSize := ofBigEndian (rest.take recordLengthSize)
    if recordSize > rest.length - recordLengthSize then
      ⟨.incompleteTail, offset + rest.length, offset, recordCount⟩
    else
      inspectFrom (offset + (recordLengthSize + recordSize)) (recordCount + 1)
        (rest.drop (recordLengthSize + recordSize))
termination_by rest.length
decreasing_by
  simp only [length_drop, recordLengthSize]
  omega

def inspectFile (content : List UInt8) : StoreScanResult :=
  inspectFrom 0 0 content

/-- Length of the record at an offset, when it lies in the valid region. -/
def recordSizeAt (content : List UInt8) (offset : Nat) : Except Exception Nat :=
  let validSize := (inspectFile content).validSize
  if offset ≥ validSize ∨ validSize - offset < recordLengthSize then
    .error (.outOfRange "Store record offset is outside the valid record region")
  else
    let recordSize := ofBigEndian ((content.drop offset).take recordLengthSize)
    if recordSize > validSize - (offset + recordLengthSize) then
      .error (.runtimeError "Store record extends beyond the valid record region")
    else .ok recordSize

def read (content : List UInt8) (offset : Nat) : Except Exception (List UInt8) := do
  let recordSize ← recordSizeAt content offset
  return (content.drop (offset + recordLengthSize)).take recordSize

def readPrefix (content : List UInt8) (offset count : Nat) : Except Exception (List UInt8) := do
  let recordSize ← recordSizeAt content offset
  if count > recordSize then .error (.outOfRange "Store prefix exceeds the record payload")
  else return (content.drop (offset + recordLengthSize)).take count

/-- Where the record with a given ordinal starts, by the lengths of those before it. -/
def offsetOf (content : List UInt8) : Nat → Nat
  | 0 => 0
  | count + 1 =>
    let recordSize := ofBigEndian (content.take recordLengthSize)
    recordLengthSize + recordSize + offsetOf (content.drop (recordLengthSize + recordSize)) count

/-- Append a record at the end of the file; the result is its offset. -/
def append (base : Nat) (record : List UInt8) : DiskOp Nat := do
  if record.length > 2 ^ 32 - 1 then
    Program.fail (.lengthError "Store record exceeds the four-byte length field")
  let content ← readFile ⟨base, .store⟩
  if (inspectFile content).status = .incompleteTail then
    Program.fail (.runtimeError "Store has an incomplete tail; repair it before appending")
  fileOp (.write ⟨base, .store⟩ (.append (bigEndian 4 record.length)))
  fileOp (.write ⟨base, .store⟩ (.append record))
  return content.length

def repairTail (base : Nat) : DiskOp Unit := do
  let scan := inspectFile (← readFile ⟨base, .store⟩)
  if scan.status = .complete then return ()
  fileOp (.write ⟨base, .store⟩ (.truncate scan.validSize))

def truncateTo (base recordCount : Nat) : DiskOp Unit := do
  let content ← readFile ⟨base, .store⟩
  if recordCount > (inspectFile content).recordCount then
    Program.fail (.outOfRange "Cannot retain more Store records than the valid prefix")
  fileOp (.write ⟨base, .store⟩ (.truncate (offsetOf content recordCount)))

def sync (base : Nat) : DiskOp Unit :=
  fileOp (.sync ⟨base, .store⟩)

section Frames

variable {payloads : List (List UInt8)} {payload tail : List UInt8}

theorem inspectFrom_frame (h : Framable payload) (offset count : Nat) (rest : List UInt8) :
    inspectFrom offset count (frameOf payload ++ rest) =
      inspectFrom (offset + (frameOf payload).length) (count + 1) rest := by
  have hSize : ofBigEndian ((frameOf payload ++ rest).take recordLengthSize) = payload.length := by
    rw [recordLengthSize, take_frame_append, ofBigEndian_bigEndian, Nat.mod_eq_of_lt h]
  have hRest : (frameOf payload ++ rest).drop (recordLengthSize + payload.length) = rest := by
    rw [recordLengthSize, ← drop_drop, drop_frame_append]
    simp
  have hLength : (frameOf payload ++ rest).length = 4 + payload.length + rest.length := by simp
  have hNonempty : ¬(frameOf payload ++ rest).length = 0 := by omega
  have hLong : ¬(frameOf payload ++ rest).length < recordLengthSize := by
    rw [recordLengthSize]
    omega
  have hFits : ¬payload.length > (frameOf payload ++ rest).length - recordLengthSize := by
    rw [recordLengthSize]
    omega
  rw [inspectFrom, if_neg hNonempty, if_neg hLong, hSize, if_neg hFits, hRest, length_frame,
    recordLengthSize]

theorem inspectFrom_tail (hTail : splitFrame tail = none) (offset count : Nat) :
    inspectFrom offset count tail =
      ⟨if tail = [] then .complete else .incompleteTail, offset + tail.length, offset, count⟩ := by
  by_cases hEmpty : tail = []
  · subst hEmpty
    rw [inspectFrom]
    rfl
  · have hNonempty : ¬tail.length = 0 := by simpa using hEmpty
    rw [inspectFrom, if_neg hNonempty, if_neg hEmpty]
    by_cases hShort : tail.length < recordLengthSize
    · rw [if_pos hShort]
    · have hLong : ¬tail.length < 4 := hShort
      rw [splitFrame, if_neg hLong] at hTail
      have hCut : ofBigEndian (tail.take 4) > tail.length - 4 := by
        by_contra hFits
        simp [hFits] at hTail
      rw [if_neg hShort]
      exact if_pos hCut

/-- A scan counts the complete frames and stops where the next one was cut. -/
theorem inspectFile_frames (hFramable : ∀ payload ∈ payloads, Framable payload)
    (hTail : splitFrame tail = none) :
    inspectFile (frames payloads ++ tail) =
      ⟨if tail = [] then .complete else .incompleteTail, (frames payloads ++ tail).length,
        (frames payloads).length, payloads.length⟩ := by
  suffices h : ∀ offset count, inspectFrom offset count (frames payloads ++ tail) =
      ⟨if tail = [] then .complete else .incompleteTail,
        offset + (frames payloads ++ tail).length, offset + (frames payloads).length,
        count + payloads.length⟩ by
    have hStart := h 0 0
    simp only [Nat.zero_add] at hStart
    exact hStart
  induction payloads with
  | nil => simpa using inspectFrom_tail hTail
  | cons payload payloads ih =>
    intro offset count
    rw [frames_cons, append_assoc, inspectFrom_frame (hFramable payload mem_cons_self),
      ih fun p hp => hFramable p (mem_cons_of_mem _ hp)]
    simp
    omega

theorem drop_frames_append (a : List (List UInt8)) (rest : List UInt8) :
    (frames a ++ rest).drop (frames a).length = rest := by
  simp

section Read

variable {a b : List (List UInt8)} (hFramable : ∀ p ∈ a ++ payload :: b, Framable p)
  (hTail : splitFrame tail = none)
include hFramable hTail

theorem recordSizeAt_frames :
    recordSizeAt (frames (a ++ payload :: b) ++ tail) (frames a).length =
      .ok payload.length := by
  have hPayload : Framable payload := hFramable payload (by simp)
  have hValid : (inspectFile (frames (a ++ payload :: b) ++ tail)).validSize =
      (frames a).length + (4 + payload.length + (frames b).length) := by
    rw [inspectFile_frames hFramable hTail]
    simp
  have hDrop : (frames (a ++ payload :: b) ++ tail).drop (frames a).length =
      frameOf payload ++ (frames b ++ tail) := by
    simp
  have hSize : ofBigEndian (((frames (a ++ payload :: b) ++ tail).drop (frames a).length).take
      recordLengthSize) = payload.length := by
    rw [hDrop, recordLengthSize, take_frame_append, ofBigEndian_bigEndian,
      Nat.mod_eq_of_lt hPayload]
  unfold recordSizeAt
  rw [hValid, hSize, if_neg (by simp only [recordLengthSize]; omega),
    if_neg (by simp only [recordLengthSize]; omega)]

omit hFramable hTail in
theorem drop_header : (frames (a ++ payload :: b) ++ tail).drop
    ((frames a).length + recordLengthSize) = payload ++ (frames b ++ tail) := by
  rw [← drop_drop, frames_append, append_assoc, drop_frames_append, frames_cons, append_assoc]
  exact drop_frame_append payload _

theorem read_frames :
    read (frames (a ++ payload :: b) ++ tail) (frames a).length = .ok payload := by
  unfold read
  rw [recordSizeAt_frames hFramable hTail, drop_header]
  simp [bind, Except.bind, pure, Except.pure]

theorem readPrefix_frames {count : Nat} (hCount : count ≤ payload.length) :
    readPrefix (frames (a ++ payload :: b) ++ tail) (frames a).length count =
      .ok (payload.take count) := by
  unfold readPrefix
  rw [recordSizeAt_frames hFramable hTail, drop_header]
  simp [bind, Except.bind, pure, Except.pure, hCount, take_append_of_le_length]

end Read

theorem offsetOf_frames (hFramable : ∀ payload ∈ payloads, Framable payload) {count : Nat}
    (hCount : count ≤ payloads.length) :
    offsetOf (frames payloads ++ tail) count = (frames (payloads.take count)).length := by
  induction payloads generalizing count with
  | nil =>
    have hZero : count = 0 := by simpa using hCount
    subst hZero
    rfl
  | cons payload payloads ih =>
    cases count with
    | zero => rfl
    | succ count =>
      have hPayload : Framable payload := hFramable payload mem_cons_self
      have hSize : ofBigEndian ((frames (payload :: payloads) ++ tail).take recordLengthSize) =
          payload.length := by
        rw [frames_cons, append_assoc, recordLengthSize, take_frame_append,
          ofBigEndian_bigEndian, Nat.mod_eq_of_lt hPayload]
      have hRest : (frames (payload :: payloads) ++ tail).drop
          (recordLengthSize + payload.length) = frames payloads ++ tail := by
        rw [recordLengthSize, ← drop_drop, frames_cons, append_assoc, drop_frame_append]
        simp
      rw [offsetOf, hSize, hRest,
        ih (fun p hp => hFramable p (mem_cons_of_mem _ hp)) (by simpa using hCount)]
      simp [recordLengthSize]

end Frames

end Store

end Stoneleaf
