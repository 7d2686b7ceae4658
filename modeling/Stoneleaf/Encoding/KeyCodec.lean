import Mathlib.Data.Prod.Lex
import Mathlib.Order.Lattice
import Stoneleaf.Library.Endian

/-!
Storage keys. A `RawKey` is the source's record with its redundant size field; a `Key` is
a raw key that `validateKey` accepts. Everything below the key store only handles valid
keys, so the repeated `validate_key` guards of the page layer are discharged by the type.
-/

namespace Stoneleaf

/-- Logical family of a key, in the order of the source enumeration. -/
inductive KeyType where
  | bool
  | uint64
  | int64
  | string
  | bytes
deriving DecidableEq, Repr

namespace KeyType

/-- The byte the enumeration value is stored as. -/
def toByte : KeyType → Nat
  | bool => 0
  | uint64 => 1
  | int64 => 2
  | string => 3
  | bytes => 4

def ofByte : Nat → Option KeyType
  | 0 => some bool
  | 1 => some uint64
  | 2 => some int64
  | 3 => some string
  | 4 => some bytes
  | _ => none

@[simp] theorem ofByte_toByte (t : KeyType) : ofByte t.toByte = some t := by
  cases t <;> rfl

theorem toByte_injective : Function.Injective toByte := by
  intro a b h
  have := congrArg ofByte h
  simpa using this

theorem toByte_lt (t : KeyType) : t.toByte < 256 := by
  cases t <;> decide

end KeyType

/-- The key record as it is passed around, before validation. -/
structure RawKey where
  type : KeyType
  size : Nat
  data : List UInt8
deriving DecidableEq, Repr

namespace KeyCodec

/-- Largest encoded payload: the largest 16-bit value. -/
def maxPayloadSize : Nat := 65535

def validateKey (key : RawKey) : Bool :=
  if key.size ≠ key.data.length then false
  else if key.size > maxPayloadSize then false
  else
    match key.type with
    | .bool => key.size == 1 && (key.data.getD 0 0 == 0 || key.data.getD 0 0 == 1)
    | .uint64 => key.size == 8
    | .int64 => key.size == 8
    | .string => true
    | .bytes => true

theorem size_eq_of_validateKey {key : RawKey} (h : validateKey key = true) :
    key.size = key.data.length := by
  by_contra hSize
  simp [validateKey, hSize] at h

theorem size_le_of_validateKey {key : RawKey} (h : validateKey key = true) :
    key.size ≤ maxPayloadSize := by
  by_contra hSize
  have hEq := size_eq_of_validateKey h
  simp [validateKey, hEq] at h
  omega

end KeyCodec

/-- A key that the codec accepts. -/
structure Key where
  raw : RawKey
  valid : KeyCodec.validateKey raw = true
deriving DecidableEq

namespace Key

def type (key : Key) : KeyType := key.raw.type

def size (key : Key) : Nat := key.raw.size

def data (key : Key) : List UInt8 := key.raw.data

/-- The size field carries no information of its own. -/
theorem ext_of_type_data {a b : Key} (hType : a.type = b.type) (hData : a.data = b.data) :
    a = b := by
  obtain ⟨⟨aType, aSize, aData⟩, aValid⟩ := a
  obtain ⟨⟨bType, bSize, bData⟩, bValid⟩ := b
  have hASize := KeyCodec.size_eq_of_validateKey aValid
  have hBSize := KeyCodec.size_eq_of_validateKey bValid
  simp only [type, data] at hType hData hASize hBSize
  subst hType hData
  subst hASize hBSize
  rfl

/-- What the comparison of two keys looks at. -/
def sortKey (key : Key) : ℕ ×ₗ List ℕ :=
  toLex (key.type.toByte, key.data.map UInt8.toNat)

theorem sortKey_injective : Function.Injective sortKey := by
  intro a b h
  have hPair : (a.type.toByte, a.data.map UInt8.toNat) = (b.type.toByte, b.data.map UInt8.toNat) :=
    toLex.injective h
  obtain ⟨hType, hData⟩ := Prod.mk.inj hPair
  refine ext_of_type_data (KeyType.toByte_injective hType) ?_
  exact List.map_injective_iff.2 (fun x y hxy => UInt8.toNat_inj.1 hxy) hData

instance : LinearOrder Key :=
  LinearOrder.lift' sortKey sortKey_injective

theorem lt_iff_sortKey {a b : Key} : a < b ↔ a.sortKey < b.sortKey :=
  Iff.rfl

end Key

namespace KeyCodec

/-- Unsigned bytewise comparison; a proper initial segment comes first. -/
def compareBytes : List UInt8 → List UInt8 → Int
  | [], [] => 0
  | [], _ :: _ => -1
  | _ :: _, [] => 1
  | a :: as, b :: bs => if a < b then -1 else if b < a then 1 else compareBytes as bs

def compare (lhs rhs : Key) : Int :=
  if lhs.type ≠ rhs.type then
    if lhs.type.toByte < rhs.type.toByte then -1 else 1
  else compareBytes lhs.data rhs.data

def equal (lhs rhs : Key) : Bool :=
  compare lhs rhs == 0

theorem compareBytes_neg_iff (as bs : List UInt8) :
    compareBytes as bs < 0 ↔ as.map UInt8.toNat < bs.map UInt8.toNat := by
  induction as generalizing bs with
  | nil => cases bs <;> simp [compareBytes]
  | cons a as ih =>
    cases bs with
    | nil => simp [compareBytes]
    | cons b bs =>
      have hAB : a < b ↔ a.toNat < b.toNat := UInt8.lt_iff_toNat_lt
      have hBA : b < a ↔ b.toNat < a.toNat := UInt8.lt_iff_toNat_lt
      simp only [compareBytes, List.map_cons, List.cons_lt_cons_iff]
      by_cases hLt : a.toNat < b.toNat
      · simp [hAB.2 hLt, hLt]
      · by_cases hGt : b.toNat < a.toNat
        · simp [hAB, hLt, hBA.2 hGt, Nat.ne_of_gt hGt]
        · have hEq : a.toNat = b.toNat := by omega
          simp [hAB, hBA, hEq, ih]

theorem compareBytes_eq_zero_iff (as bs : List UInt8) : compareBytes as bs = 0 ↔ as = bs := by
  induction as generalizing bs with
  | nil => cases bs <;> simp [compareBytes]
  | cons a as ih =>
    cases bs with
    | nil => simp [compareBytes]
    | cons b bs =>
      simp only [compareBytes, List.cons.injEq]
      by_cases hLt : a < b
      · simp [hLt, UInt8.ne_of_lt hLt]
      · by_cases hGt : b < a
        · simp [hLt, hGt, (UInt8.ne_of_lt hGt).symm]
        · have hEq : a = b := by
            apply UInt8.toNat_inj.1
            have h1 := UInt8.lt_iff_toNat_lt.not.1 hLt
            have h2 := UInt8.lt_iff_toNat_lt.not.1 hGt
            omega
          simp [hEq, ih]

/-- The three-way comparison of the source is the order on keys. -/
@[simp] theorem compare_neg_iff (a b : Key) : compare a b < 0 ↔ a < b := by
  rw [Key.lt_iff_sortKey, Key.sortKey, Key.sortKey, Prod.Lex.toLex_lt_toLex, compare]
  by_cases hType : a.type = b.type
  · simp [hType, compareBytes_neg_iff]
  · have hByte : a.type.toByte ≠ b.type.toByte := fun h => hType (KeyType.toByte_injective h)
    by_cases hLt : a.type.toByte < b.type.toByte <;> simp [hType, hByte, hLt]

theorem compare_eq_zero_iff (a b : Key) : compare a b = 0 ↔ a = b := by
  rw [compare]
  by_cases hType : a.type = b.type
  · simp only [hType, ne_eq, not_true_eq_false, if_false, compareBytes_eq_zero_iff]
    exact ⟨Key.ext_of_type_data hType, fun h => h ▸ rfl⟩
  · have hNe : a ≠ b := fun h => hType (h ▸ rfl)
    by_cases hLt : a.type.toByte < b.type.toByte <;> simp [hType, hLt, hNe]

@[simp] theorem equal_iff (a b : Key) : equal a b = true ↔ a = b := by
  simp [equal, compare_eq_zero_iff]

@[simp] theorem compare_nonneg_iff (a b : Key) : 0 ≤ compare a b ↔ b ≤ a := by
  rw [← not_lt, compare_neg_iff, not_lt]

@[simp] theorem compare_pos_iff (a b : Key) : 0 < compare a b ↔ b < a := by
  have hNe : compare a b = 0 ↔ b = a := (compare_eq_zero_iff a b).trans eq_comm
  rw [lt_iff_le_and_ne, compare_nonneg_iff, lt_iff_le_and_ne, ne_comm, Ne, hNe]

def makeUint64 (value : UInt64) : Key where
  raw := ⟨.uint64, 8, Library.bigEndian 8 value.toNat⟩
  valid := by simp [validateKey, maxPayloadSize]

/-- Keys of numbers are ordered as the numbers. -/
theorem makeUint64_lt {a b : UInt64} (h : a < b) : makeUint64 a < makeUint64 b := by
  rw [Key.lt_iff_sortKey]
  exact Prod.Lex.toLex_lt_toLex.2
    (Or.inr ⟨rfl, Library.bigEndian_lt (UInt64.lt_iff_toNat_lt.1 h) b.toNat_lt⟩)

end KeyCodec

end Stoneleaf
