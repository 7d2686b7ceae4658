import Stoneleaf.Library.Endian
import Stoneleaf.Storage.Disk

/-!
The index file of a segment: one entry of twelve bytes for each record of the store, with the
record's ordinal and its offset. The index is derived from the store and may lag behind it.
-/

namespace Stoneleaf

open Library List

inductive IndexScanStatus where
  | complete
  | incompleteTail
  | corrupt
deriving DecidableEq, Repr

structure IndexScanResult where
  status : IndexScanStatus
  physicalSize : Nat
  validSize : Nat
  entryCount : Nat
deriving DecidableEq, Repr

namespace Index

def ordinalSize : Nat := 4

def entrySize : Nat := 12

/-- The loop of `inspect_file`, with the bytes from the current entry on. -/
def inspectFrom (ordinal : Nat) (rest : List UInt8) : IndexScanResult :=
  if rest.length < entrySize then
    ⟨if rest.length = 0 then .complete else .incompleteTail, ordinal * entrySize + rest.length,
      ordinal * entrySize, ordinal⟩
  else if ofBigEndian (rest.take ordinalSize) ≠ ordinal then
    ⟨.corrupt, ordinal * entrySize + rest.length, ordinal * entrySize, ordinal⟩
  else inspectFrom (ordinal + 1) (rest.drop entrySize)
termination_by rest.length
decreasing_by
  simp only [length_drop, entrySize] at *
  omega

def inspectFile (content : List UInt8) : IndexScanResult :=
  inspectFrom 0 content

/-- The bytes of one entry. -/
def entry (ordinal storeOffset : Nat) : List UInt8 :=
  bigEndian 4 ordinal ++ bigEndian 8 storeOffset

def read (content : List UInt8) (ordinal : Nat) : Except Exception Nat :=
  if ordinal ≥ (inspectFile content).entryCount then
    .error (.outOfRange "Index ordinal is outside the valid entry range")
  else
    let bytes := (content.drop (ordinal * entrySize)).take entrySize
    if ofBigEndian (bytes.take ordinalSize) ≠ ordinal then
      .error (.runtimeError "Index entry contains an unexpected ordinal")
    else .ok (ofBigEndian (bytes.drop ordinalSize))

def append (base ordinal storeOffset : Nat) : DiskOp Unit := do
  let content ← readFile ⟨base, .index⟩
  if (inspectFile content).status ≠ .complete then
    Program.fail (.runtimeError "Index must be repaired or rebuilt before appending")
  fileOp (.write ⟨base, .index⟩ (.append (entry ordinal storeOffset)))

def truncateTo (base entryCount : Nat) : DiskOp Unit := do
  let content ← readFile ⟨base, .index⟩
  if entryCount > (inspectFile content).entryCount then
    Program.fail (.outOfRange "Cannot retain more Index entries than the valid prefix")
  fileOp (.write ⟨base, .index⟩ (.truncate (entryCount * entrySize)))

def sync (base : Nat) : DiskOp Unit :=
  fileOp (.sync ⟨base, .index⟩)

/-- The entries for records at the given offsets, counted from an ordinal on. -/
def entriesFrom (ordinal : Nat) : List Nat → List UInt8
  | [] => []
  | offset :: offsets => entry ordinal offset ++ entriesFrom (ordinal + 1) offsets

section Entries

variable {ordinal : Nat} {offsets : List Nat} {tail : List UInt8}

@[simp] theorem length_entry (ordinal offset : Nat) :
    (entry ordinal offset).length = entrySize := by
  simp [entry, entrySize]

@[simp] theorem length_entriesFrom (ordinal : Nat) (offsets : List Nat) :
    (entriesFrom ordinal offsets).length = offsets.length * entrySize := by
  induction offsets generalizing ordinal with
  | nil => simp [entriesFrom]
  | cons offset offsets ih =>
    simp only [entriesFrom, length_append, length_entry, ih, length_cons]
    ring

theorem entriesFrom_append (ordinal : Nat) (a b : List Nat) :
    entriesFrom ordinal (a ++ b) = entriesFrom ordinal a ++ entriesFrom (ordinal + a.length) b := by
  induction a generalizing ordinal with
  | nil => simp [entriesFrom]
  | cons offset a ih =>
    simp only [cons_append, entriesFrom, ih, append_assoc, length_cons]
    rw [Nat.add_right_comm, Nat.add_assoc ordinal]

theorem take_entry_append (ordinal offset : Nat) (rest : List UInt8) :
    (entry ordinal offset ++ rest).take ordinalSize = bigEndian 4 ordinal := by
  rw [entry, append_assoc, ordinalSize, take_append_of_le_length (by simp),
    take_of_length_le (by simp)]

theorem inspectFrom_entry (hOrdinal : ordinal < 256 ^ 4) (offset : Nat) (rest : List UInt8) :
    inspectFrom ordinal (entry ordinal offset ++ rest) = inspectFrom (ordinal + 1) rest := by
  have hLong : ¬(entry ordinal offset ++ rest).length < entrySize := by simp
  have hStored : ofBigEndian ((entry ordinal offset ++ rest).take ordinalSize) = ordinal := by
    rw [take_entry_append, ofBigEndian_bigEndian, Nat.mod_eq_of_lt hOrdinal]
  have hRest : (entry ordinal offset ++ rest).drop entrySize = rest :=
    drop_left' (length_entry ordinal offset)
  rw [inspectFrom, if_neg hLong, if_neg (not_not.2 hStored), hRest]

/-- A scan counts the complete entries and stops before a partial one. -/
theorem inspectFrom_entriesFrom (hCount : ordinal + offsets.length ≤ 256 ^ 4)
    (hTail : tail.length < entrySize) :
    inspectFrom ordinal (entriesFrom ordinal offsets ++ tail) =
      ⟨if tail = [] then .complete else .incompleteTail,
        (ordinal + offsets.length) * entrySize + tail.length,
        (ordinal + offsets.length) * entrySize, ordinal + offsets.length⟩ := by
  induction offsets generalizing ordinal with
  | nil =>
    rw [inspectFrom, if_pos (by simpa [entriesFrom] using hTail)]
    simp [entriesFrom, length_eq_zero_iff]
  | cons offset offsets ih =>
    rw [length_cons] at hCount
    rw [entriesFrom, append_assoc, inspectFrom_entry (by omega), ih (by omega),
      length_cons, Nat.add_right_comm, Nat.add_assoc ordinal]

theorem inspectFile_entriesFrom (hCount : offsets.length ≤ 256 ^ 4)
    (hTail : tail.length < entrySize) :
    inspectFile (entriesFrom 0 offsets ++ tail) =
      ⟨if tail = [] then .complete else .incompleteTail,
        offsets.length * entrySize + tail.length, offsets.length * entrySize, offsets.length⟩ := by
  have hScan : inspectFrom 0 (entriesFrom 0 offsets ++ tail) = _ :=
    inspectFrom_entriesFrom (by simpa using hCount) hTail
  simp only [Nat.zero_add] at hScan
  exact hScan

theorem read_entriesFrom {a b : List Nat} {offset : Nat}
    (hCount : (a ++ offset :: b).length ≤ 256 ^ 4) (hOffset : offset < 256 ^ 8)
    (hTail : tail.length < entrySize) :
    read (entriesFrom 0 (a ++ offset :: b) ++ tail) a.length = .ok offset := by
  have hDrop : (entriesFrom 0 (a ++ offset :: b) ++ tail).drop (a.length * entrySize) =
      entry a.length offset ++ (entriesFrom (a.length + 1) b ++ tail) := by
    rw [entriesFrom_append, append_assoc, Nat.zero_add, entriesFrom, append_assoc,
      drop_left' (length_entriesFrom 0 a)]
  have hEntry : ((entriesFrom 0 (a ++ offset :: b) ++ tail).drop (a.length * entrySize)).take
      entrySize = entry a.length offset := by
    rw [hDrop]
    exact take_left' (length_entry _ _)
  have hOrdinal : ofBigEndian ((entry a.length offset).take ordinalSize) = a.length := by
    have hTake := take_entry_append a.length offset []
    rw [append_nil] at hTake
    rw [length_append, length_cons] at hCount
    rw [hTake, ofBigEndian_bigEndian, Nat.mod_eq_of_lt (by omega)]
  have hValue : ofBigEndian ((entry a.length offset).drop ordinalSize) = offset := by
    rw [entry, ordinalSize, drop_left' (length_bigEndian 4 _), ofBigEndian_bigEndian,
      Nat.mod_eq_of_lt hOffset]
  unfold read
  rw [inspectFile_entriesFrom hCount hTail, hEntry, if_neg (by simp)]
  simp [hOrdinal, hValue]

/-- Bytes that survive of the entries: complete entries and the beginning of the next one. -/
theorem exists_entriesFrom_of_isPrefix {bytes : List UInt8}
    (hPrefix : bytes <+: entriesFrom ordinal offsets) :
    ∃ count tail, count ≤ offsets.length ∧
      bytes = entriesFrom ordinal (offsets.take count) ++ tail ∧ tail.length < entrySize := by
  induction offsets generalizing ordinal bytes with
  | nil =>
    have hEmpty : bytes = [] := prefix_nil.1 hPrefix
    exact ⟨0, [], le_rfl, by simp [hEmpty, entriesFrom], by decide⟩
  | cons offset offsets ih =>
    by_cases hShort : bytes.length < entrySize
    · exact ⟨0, bytes, Nat.zero_le _, by simp [entriesFrom], hShort⟩
    · have hHead : entry ordinal offset <+: bytes := by
        apply prefix_of_prefix_length_le (prefix_append _ _) hPrefix
        rw [length_entry]
        omega
      obtain ⟨rest, rfl⟩ := hHead
      have hRest : rest <+: entriesFrom (ordinal + 1) offsets :=
        (prefix_append_right_inj _).1 hPrefix
      obtain ⟨count, tail, hCount, hBytes, hTail⟩ := ih hRest
      refine ⟨count + 1, tail, by simpa using hCount, ?_, hTail⟩
      simp [hBytes, entriesFrom]

end Entries

end Index

end Stoneleaf
