import Stoneleaf.Encoding.KeyCodec
import Stoneleaf.Library.Bits

/-!
Keys as callers give them, and how the codec turns them into stored keys. The comparison of
stored keys is the order of the values they were made from: numbers are stored big-endian,
signed ones with the sign bit flipped, so that the bytes compare as the numbers do.
-/

namespace Stoneleaf

open Library

/-- The alternatives of a key input. -/
inductive KeyInput where
  | bool (value : Bool)
  | uint64 (value : UInt64)
  | int64 (value : Int64)
  | string (value : List UInt8)
  | bytes (value : List UInt8)
deriving DecidableEq

namespace KeyInput

def type : KeyInput → KeyType
  | bool _ => .bool
  | uint64 _ => .uint64
  | int64 _ => .int64
  | string _ => .string
  | bytes _ => .bytes

/-- The order a caller expects: by kind first, then by value. Strings are compared byte by
byte as unsigned numbers, a proper initial segment first. -/
def Before : KeyInput → KeyInput → Prop
  | bool a, bool b => a = false ∧ b = true
  | uint64 a, uint64 b => a.toNat < b.toNat
  | int64 a, int64 b => a.toInt < b.toInt
  | string a, string b => a.map UInt8.toNat < b.map UInt8.toNat
  | bytes a, bytes b => a.map UInt8.toNat < b.map UInt8.toNat
  | a, b => a.type.toByte < b.type.toByte

end KeyInput

namespace KeyCodec

def makeBool (value : Bool) : Key where
  raw := ⟨.bool, 1, [if value then 1 else 0]⟩
  valid := by cases value <;> rfl

/-- The sign bit of a 64-bit word. -/
def signBit : UInt64 := (1 : UInt64) <<< 63

def makeInt64 (value : Int64) : Key where
  raw := ⟨.int64, 8, Library.bigEndian 8 (value.toUInt64 ^^^ signBit).toNat⟩
  valid := by simp [validateKey, maxPayloadSize]

def makeString (value : List UInt8) (hSize : value.length ≤ maxPayloadSize) : Key where
  raw := ⟨.string, value.length, value⟩
  valid := by simp [validateKey, hSize]

def makeBytes (value : List UInt8) (hSize : value.length ≤ maxPayloadSize) : Key where
  raw := ⟨.bytes, value.length, value⟩
  valid := by simp [validateKey, hSize]

def encode : KeyInput → Option Key
  | .bool value => some (makeBool value)
  | .uint64 value => some (makeUint64 value)
  | .int64 value => some (makeInt64 value)
  | .string value =>
    if hSize : value.length ≤ maxPayloadSize then some (makeString value hSize) else none
  | .bytes value =>
    if hSize : value.length ≤ maxPayloadSize then some (makeBytes value hSize) else none

/-- `get_u64_be` on the front of a buffer. -/
def getU64 (data : List UInt8) : UInt64 :=
  UInt64.ofNat (Library.ofBigEndian (data.take 8))

def decode (key : RawKey) : Option KeyInput :=
  if !validateKey key then none
  else
    match key.type with
    | .bool => some (.bool (key.data.getD 0 0 == 1))
    | .uint64 => some (.uint64 (getU64 key.data))
    | .int64 => some (.int64 (getU64 key.data ^^^ signBit).toInt64)
    | .string => some (.string key.data)
    | .bytes => some (.bytes key.data)

@[simp] theorem getU64_bigEndian (value : UInt64) :
    getU64 (bigEndian 8 value.toNat) = value := by
  rw [getU64, List.take_of_length_le (length_bigEndian 8 _).le,
    ofBigEndian_bigEndian, show 256 ^ 8 = 2 ^ 64 by rfl,
    Nat.mod_eq_of_lt value.toNat_lt, UInt64.ofNat_toNat]

/-- The stored form of a signed number is its distance from the smallest one. -/
theorem toNat_biased (value : Int64) :
    ((value.toUInt64 ^^^ signBit).toNat : Int) = value.toInt + 2 ^ 63 := by
  have hBit : signBit.toNat = 2 ^ 63 := rfl
  have hBound := value.toUInt64.toNat_lt
  have hValue : value.toInt = value.toUInt64.toBitVec.toInt := rfl
  rw [UInt64.toNat_xor, hBit, xor_two_pow hBound, hValue, BitVec.toInt_eq_toNat_cond,
    UInt64.toNat_toBitVec]
  split <;> omega

/-- Equally wide numbers compare as their bytes. -/
theorem bigEndian_lt_iff (a b : UInt64) :
    (bigEndian 8 a.toNat).map UInt8.toNat < (bigEndian 8 b.toNat).map UInt8.toNat ↔
      a.toNat < b.toNat := by
  constructor
  · intro hLt
    by_contra hNot
    rcases (not_lt.1 hNot).lt_or_eq with hGt | hEq
    · exact lt_asymm hLt (bigEndian_lt hGt a.toNat_lt)
    · rw [hEq] at hLt
      exact lt_irrefl _ hLt
  · exact fun hLt => bigEndian_lt hLt b.toNat_lt

variable {a b : Key}

theorem lt_iff_of_type_eq (hType : a.type = b.type) :
    a < b ↔ a.data.map UInt8.toNat < b.data.map UInt8.toNat := by
  rw [Key.lt_iff_sortKey, Key.sortKey, Key.sortKey, Prod.Lex.toLex_lt_toLex, hType]
  simp

theorem lt_iff_of_type_ne (hType : a.type ≠ b.type) :
    a < b ↔ a.type.toByte < b.type.toByte := by
  have hByte : a.type.toByte ≠ b.type.toByte := fun h => hType (KeyType.toByte_injective h)
  rw [Key.lt_iff_sortKey, Key.sortKey, Key.sortKey, Prod.Lex.toLex_lt_toLex]
  simp [hByte]

theorem makeBool_lt_iff (a b : Bool) : makeBool a < makeBool b ↔ a = false ∧ b = true := by
  rw [lt_iff_of_type_eq (by rfl)]
  cases a <;> cases b <;> decide

theorem makeUint64_lt_iff (a b : UInt64) : makeUint64 a < makeUint64 b ↔ a.toNat < b.toNat := by
  rw [lt_iff_of_type_eq (by rfl)]
  exact bigEndian_lt_iff a b

theorem makeInt64_lt_iff (a b : Int64) : makeInt64 a < makeInt64 b ↔ a.toInt < b.toInt := by
  rw [lt_iff_of_type_eq (by rfl)]
  refine (bigEndian_lt_iff _ _).trans ?_
  have ha := toNat_biased a
  have hb := toNat_biased b
  omega

/-- What is accepted: everything but texts over the payload limit. -/
theorem encode_isSome_iff (x : KeyInput) : (encode x).isSome = true ↔
    ∀ text, x = .string text ∨ x = .bytes text → text.length ≤ maxPayloadSize := by
  cases x with
  | bool value => simp [encode]
  | uint64 value => simp [encode]
  | int64 value => simp [encode]
  | string value | bytes value =>
    by_cases hSize : value.length ≤ maxPayloadSize <;> simp [encode, hSize]

theorem type_of_encode {x : KeyInput} {key : Key} (h : encode x = some key) :
    key.type = x.type := by
  cases x <;> simp only [encode, Option.some.injEq, Option.dite_none_right_eq_some] at h
  case bool value => exact h ▸ rfl
  case uint64 value => exact h ▸ rfl
  case int64 value => exact h ▸ rfl
  case string value =>
    obtain ⟨hSize, rfl⟩ := h
    rfl
  case bytes value =>
    obtain ⟨hSize, rfl⟩ := h
    rfl

theorem encode_lt_iff {x y : KeyInput} (hx : encode x = some a) (hy : encode y = some b) :
    a < b ↔ x.Before y := by
  have hTypeA := type_of_encode hx
  have hTypeB := type_of_encode hy
  by_cases hType : x.type = y.type
  · cases x <;> cases y <;> simp only [KeyInput.type, reduceCtorEq] at hType <;>
      simp only [encode, Option.some.injEq, Option.dite_none_right_eq_some] at hx hy
    case bool.bool => exact hx ▸ hy ▸ makeBool_lt_iff _ _
    case uint64.uint64 => exact hx ▸ hy ▸ makeUint64_lt_iff _ _
    case int64.int64 => exact hx ▸ hy ▸ makeInt64_lt_iff _ _
    case string.string =>
      obtain ⟨hSizeX, rfl⟩ := hx
      obtain ⟨hSizeY, rfl⟩ := hy
      exact lt_iff_of_type_eq rfl
    case bytes.bytes =>
      obtain ⟨hSizeX, rfl⟩ := hx
      obtain ⟨hSizeY, rfl⟩ := hy
      exact lt_iff_of_type_eq rfl
  · rw [← hTypeA, ← hTypeB] at hType
    rw [lt_iff_of_type_ne hType, hTypeA, hTypeB]
    rw [hTypeA, hTypeB] at hType
    cases x <;> cases y <;> first | exact Iff.rfl | exact absurd rfl hType

theorem decode_encode {x : KeyInput} {key : Key} (h : encode x = some key) :
    decode key.raw = some x := by
  have hValid : (!validateKey key.raw) = false := by simp [key.valid]
  rw [decode, hValid, if_neg Bool.false_ne_true]
  cases x <;> simp only [encode, Option.some.injEq, Option.dite_none_right_eq_some] at h
  case bool value =>
    subst h
    cases value <;> rfl
  case uint64 value =>
    subst h
    simp [makeUint64]
  case int64 value =>
    subst h
    have hBack : getU64 (makeInt64 value).raw.data = value.toUInt64 ^^^ signBit :=
      getU64_bigEndian _
    rw [hBack, UInt64.xor_assoc, UInt64.xor_self, UInt64.xor_zero]
    simp [makeInt64]
  case string value =>
    obtain ⟨hSize, rfl⟩ := h
    rfl
  case bytes value =>
    obtain ⟨hSize, rfl⟩ := h
    rfl

/-- The comparison of keys is a total order that tells different keys apart. Every input is stored
but texts over the payload limit. On stored keys the comparison is the order of the inputs, by kind
and then by value, and decoding gives the input back. -/
theorem compare_orders_inputs :
    (∀ a b : Key, compare a b = 0 ↔ a.type = b.type ∧ a.data = b.data) ∧
    (∀ a b : Key, compare a b < 0 ↔ 0 < compare b a) ∧
    (∀ a b c : Key, compare a b ≤ 0 → compare b c ≤ 0 → compare a c ≤ 0) ∧
    (∀ x : KeyInput, (encode x).isSome = true ↔
      ∀ text, x = .string text ∨ x = .bytes text → text.length ≤ maxPayloadSize) ∧
    (∀ (x y : KeyInput) (a b : Key), encode x = some a → encode y = some b →
      (compare a b < 0 ↔ x.Before y) ∧ (compare a b = 0 ↔ x = y)) ∧
    (∀ (x : KeyInput) (key : Key), encode x = some key → decode key.raw = some x) := by
  refine ⟨?_, ?_, ?_, encode_isSome_iff, ?_, fun x key => decode_encode⟩
  · intro a b
    rw [compare_eq_zero_iff]
    constructor
    · rintro rfl
      exact ⟨rfl, rfl⟩
    · rintro ⟨hType, hData⟩
      exact Key.ext_of_type_data hType hData
  · intro a b
    rw [compare_neg_iff, compare_pos_iff]
  · intro a b c
    simp only [← not_lt, compare_pos_iff]
    intro hab hbc
    exact not_lt.2 ((not_lt.1 hab).trans (not_lt.1 hbc))
  · intro x y a b hx hy
    refine ⟨(compare_neg_iff a b).trans (encode_lt_iff hx hy), ?_⟩
    rw [compare_eq_zero_iff]
    constructor
    · rintro rfl
      have hBack := (decode_encode hx).symm.trans (decode_encode hy)
      exact Option.some.inj hBack
    · rintro rfl
      exact Option.some.inj (hx.symm.trans hy)

end KeyCodec

end Stoneleaf
