import Stoneleaf.Library.Endian

/-!
Length-prefixed frames: every payload stands behind its length in four bytes. Cutting a
sequence of frames anywhere leaves complete frames and a tail from which no further frame can
be read.
-/

namespace Stoneleaf.Library

open List

/-- A payload behind its length. -/
def frameOf (payload : List UInt8) : List UInt8 :=
  bigEndian 4 payload.length ++ payload

def frames (payloads : List (List UInt8)) : List UInt8 :=
  payloads.flatMap frameOf

/-- The first frame, when it is complete, and what follows it. -/
def splitFrame (bytes : List UInt8) : Option (List UInt8 × List UInt8) :=
  if bytes.length < 4 then none
  else
    let size := ofBigEndian (bytes.take 4)
    if size > bytes.length - 4 then none
    else some ((bytes.drop 4).take size, bytes.drop (4 + size))

/-- Payloads whose length the prefix can hold. -/
def Framable (payload : List UInt8) : Prop :=
  payload.length < 256 ^ 4

@[simp] theorem length_frame (payload : List UInt8) :
    (frameOf payload).length = 4 + payload.length := by
  simp [frameOf]

@[simp] theorem frames_nil : frames [] = [] :=
  rfl

@[simp] theorem frames_cons (payload : List UInt8) (rest : List (List UInt8)) :
    frames (payload :: rest) = frameOf payload ++ frames rest :=
  rfl

@[simp] theorem frames_append (a b : List (List UInt8)) : frames (a ++ b) = frames a ++ frames b :=
  flatMap_append

theorem take_frame_append (payload rest : List UInt8) :
    (frameOf payload ++ rest).take 4 = bigEndian 4 payload.length := by
  rw [frameOf, append_assoc, take_append_of_le_length (by simp), take_of_length_le]
  simp

theorem drop_frame_append (payload rest : List UInt8) :
    (frameOf payload ++ rest).drop 4 = payload ++ rest := by
  rw [frameOf, append_assoc, drop_append_of_le_length (by simp), drop_of_length_le]
  · rfl
  · simp

theorem splitFrame_frame_append {payload : List UInt8} (h : Framable payload)
    (rest : List UInt8) : splitFrame (frameOf payload ++ rest) = some (payload, rest) := by
  have hSize : ofBigEndian ((frameOf payload ++ rest).take 4) = payload.length := by
    rw [take_frame_append, ofBigEndian_bigEndian, Nat.mod_eq_of_lt h]
  have hLong : ¬(frameOf payload ++ rest).length < 4 := by
    simp
    omega
  have hFits : ¬payload.length > (frameOf payload ++ rest).length - 4 := by
    simp
    omega
  rw [splitFrame, if_neg hLong, hSize, if_neg hFits, ← drop_drop, drop_frame_append]
  simp

/-- No frame can be read from a frame that was cut short. -/
theorem splitFrame_eq_none_of_short {payload bytes : List UInt8} (h : Framable payload)
    (hPrefix : bytes <+: frameOf payload) (hShort : bytes.length < 4 + payload.length) :
    splitFrame bytes = none := by
  by_cases hLength : bytes.length < 4
  · rw [splitFrame, if_pos hLength]
  · obtain ⟨rest, hRest⟩ := hPrefix
    have hKeep : (bytes ++ rest).take 4 = bytes.take 4 :=
      take_append_of_le_length (by omega)
    have hTake : bytes.take 4 = bigEndian 4 payload.length := by
      rw [← hKeep, hRest]
      simpa using take_frame_append payload []
    have hSize : ofBigEndian (bytes.take 4) = payload.length := by
      rw [hTake, ofBigEndian_bigEndian, Nat.mod_eq_of_lt h]
    rw [splitFrame, if_neg hLength, hSize, if_pos]
    omega

/-- Bytes that survive of a sequence of frames: complete frames, and a tail that is the
beginning of the next one. -/
theorem exists_frames_of_isPrefix {payloads : List (List UInt8)} {bytes : List UInt8}
    (hFramable : ∀ payload ∈ payloads, Framable payload) (hPrefix : bytes <+: frames payloads) :
    ∃ count tail, count ≤ payloads.length ∧ bytes = frames (payloads.take count) ++ tail ∧
      splitFrame tail = none ∧ (count = payloads.length → tail = []) := by
  induction payloads generalizing bytes with
  | nil =>
    have hEmpty : bytes = [] := prefix_nil.1 hPrefix
    exact ⟨0, [], le_rfl, by simp [hEmpty], rfl, fun _ => rfl⟩
  | cons payload payloads ih =>
    have hPayload : Framable payload := hFramable payload mem_cons_self
    by_cases hShort : bytes.length < 4 + payload.length
    · have hHead : bytes <+: frameOf payload := by
        apply prefix_of_prefix_length_le hPrefix (prefix_append _ _)
        simp
        omega
      refine ⟨0, bytes, Nat.zero_le _, by simp, splitFrame_eq_none_of_short hPayload hHead hShort,
        ?_⟩
      simp
    · have hHead : frameOf payload <+: bytes := by
        apply prefix_of_prefix_length_le (prefix_append _ _) hPrefix
        simp
        omega
      obtain ⟨rest, rfl⟩ := hHead
      have hRest : rest <+: frames payloads := (prefix_append_right_inj _).1 hPrefix
      obtain ⟨count, tail, hCount, hBytes, hTail, hFull⟩ :=
        ih (fun p hp => hFramable p (mem_cons_of_mem _ hp)) hRest
      refine ⟨count + 1, tail, by simpa using hCount, ?_, hTail, ?_⟩
      · simp [hBytes]
      · intro hEq
        exact hFull (by simpa using hEq)

end Stoneleaf.Library
