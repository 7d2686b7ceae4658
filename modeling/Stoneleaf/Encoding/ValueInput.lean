import Stoneleaf.Encoding.ValueCodec
import Stoneleaf.Library.Varint

/-!
Values as callers give them. Integers are stored in groups of seven bits; signed ones are
first folded so that numbers near zero, of either sign, become small.
-/

namespace Stoneleaf

open Library.Varint

/-- The alternatives of a value input. -/
inductive ValueInput where
  | bool (value : Bool)
  | varuint (value : UInt64)
  | varint (value : Int64)
  | char (value : List UInt8)
deriving DecidableEq

namespace ValueCodec

/-- The loop of `encode_varuint_bytes`, which runs at least once. -/
def encodeVaruintBytes (value : Nat) : List UInt8 :=
  let byte := value &&& 0x7F
  let rest := value >>> 7
  if rest ≠ 0 then UInt8.ofNat (byte ||| 0x80) :: encodeVaruintBytes rest
  else [UInt8.ofNat byte]
termination_by value
decreasing_by
  simp only [Nat.shiftRight_eq_div_pow] at *
  omega

def zigzagEncode (value : Int64) : UInt64 :=
  (value.toUInt64 <<< 1) ^^^ (value >>> 63).toUInt64

def zigzagDecode (value : UInt64) : Int64 :=
  ((value >>> 1) ^^^ (~~~(value &&& 1) + 1)).toInt64

/-! ### Groups of seven bits -/

variable {value : Nat}

theorem encodeVaruintBytes_of_lt (h : value < 128) :
    encodeVaruintBytes value = [UInt8.ofNat value] := by
  have hByte : value &&& 0x7F = value := by
    rw [show 0x7F = 2 ^ 7 - 1 by rfl, Nat.and_two_pow_sub_one_eq_mod]
    exact Nat.mod_eq_of_lt h
  have hRest : value >>> 7 = 0 := by
    rw [Nat.shiftRight_eq_div_pow]
    exact Nat.div_eq_of_lt h
  rw [encodeVaruintBytes]
  simp [hByte, hRest]

theorem encodeVaruintBytes_of_le (h : 128 ≤ value) :
    encodeVaruintBytes value =
      UInt8.ofNat (value % 128 + 128) :: encodeVaruintBytes (value / 128) := by
  have hByte : (value &&& 0x7F) ||| 0x80 = value % 128 + 128 := by
    rw [show 0x7F = 2 ^ 7 - 1 by rfl, Nat.and_two_pow_sub_one_eq_mod]
    exact or_shiftLeft (Nat.mod_lt value (by decide : 0 < 2 ^ 7)) 1
  have hRest : value >>> 7 = value / 128 := Nat.shiftRight_eq_div_pow value 7
  have hMore : value / 128 ≠ 0 := by omega
  rw [encodeVaruintBytes]
  simp only [hByte, hRest]
  exact if_pos hMore

/-- The bytes of a number denote it, end where they should and are no more than needed. -/
theorem encodeVaruintBytes_spec (groups : Nat) (h : value < 128 ^ (groups + 1)) :
    denoted (encodeVaruintBytes value) = value ∧ Terminated (encodeVaruintBytes value) ∧
      (encodeVaruintBytes value).length ≤ groups + 1 := by
  induction groups generalizing value with
  | zero =>
    rw [encodeVaruintBytes_of_lt (by simpa using h)]
    have hLast : (UInt8.ofNat value).toNat = value := by
      rw [UInt8.toNat_ofNat']
      omega
    refine ⟨?_, ?_, Nat.le_refl 1⟩
    · rw [denoted, denoted, hLast]
      omega
    · rw [Terminated, hLast]
      omega
  | succ groups ih =>
    rcases Nat.lt_or_ge value 128 with hSmall | hLarge
    · obtain ⟨hDenoted, hTerminated, hLength⟩ :=
        ih (hSmall.trans_le (Nat.le_self_pow (Nat.succ_ne_zero groups) 128))
      exact ⟨hDenoted, hTerminated, hLength.trans (Nat.le_succ _)⟩
    · have hRest : value / 128 < 128 ^ (groups + 1) := by
        rw [Nat.pow_succ] at h
        exact Nat.div_lt_of_lt_mul (by omega)
      obtain ⟨hDenoted, hTerminated, hLength⟩ := ih hRest
      have hFirst : (UInt8.ofNat (value % 128 + 128)).toNat = value % 128 + 128 := by
        rw [UInt8.toNat_ofNat']
        omega
      rw [encodeVaruintBytes_of_le hLarge]
      refine ⟨?_, .cons (by omega) hTerminated, Nat.succ_le_succ hLength⟩
      rw [denoted, hDenoted, hFirst]
      omega

/-- The decoder accepts up to ten groups, whatever the last one is, and returns what fits
in the word. -/
theorem decodeVaruintLoop_eq (bytes : List UInt8) {value groups : Nat} (hGroups : groups ≤ 9)
    (hValue : value < 2 ^ (7 * groups)) :
    decodeVaruintLoop value (7 * groups) bytes =
      if Terminated bytes ∧ bytes.length + groups ≤ 10 then
        some ((value + 2 ^ (7 * groups) * denoted bytes) % 2 ^ 64)
      else none := by
  induction bytes generalizing value groups with
  | nil =>
    rw [if_neg fun hEnds => hEnds.1]
    rfl
  | cons byte rest ih =>
    have hShift : ¬(7 * groups ≥ 64 ∧ byte.toNat % 128 ≠ 0) := by omega
    have hWide : 2 ^ (7 * groups) ≤ 2 ^ 63 := Nat.pow_le_pow_right (by decide) (by omega)
    -- what is added lies above the bits already read
    have hJoin : value ||| (byte.toNat % 128) <<< (7 * groups) % 2 ^ 64 =
        (value + 2 ^ (7 * groups) * (byte.toNat % 128)) % 2 ^ 64 := by
      rw [← or_shiftLeft hValue, Nat.or_mod_two_pow,
        Nat.mod_eq_of_lt (show value < 2 ^ 64 by omega)]
    change ite _ none (ite _ (ite _ (some _) none) (ite _ none _)) = _
    rw [if_neg hShift, hJoin]
    rcases Nat.lt_or_ge byte.toNat 128 with hLast | hMore
    · rw [if_pos hLast]
      simp only [terminated_cons_of_lt hLast, List.isEmpty_iff]
      by_cases hRest : rest = []
      · subst hRest
        have hFits : 1 + groups ≤ 10 := by omega
        simp [hFits, denoted]
      · simp [hRest]
    · rw [if_neg (Nat.not_lt.2 hMore)]
      simp only [terminated_cons_of_le hMore, List.isEmpty_iff, List.length_cons]
      by_cases hFull : groups = 9
      · subst hFull
        by_cases hRest : rest = []
        · rw [if_neg fun hMany => hMany.2 hRest, hRest, if_neg fun hEnds => hEnds.1]
          rfl
        · have hLength := List.length_pos_iff.2 hRest
          have hLong : ¬(rest.length + 1 + 9 ≤ 10) := by omega
          simp [hRest, hLong]
      · have hNext : ¬(7 * groups + 7 > 63 ∧ ¬rest = []) := by omega
        have hSmall : value + 2 ^ (7 * groups) * (byte.toNat % 128) < 2 ^ (7 * (groups + 1)) := by
          have hPow : 2 ^ (7 * (groups + 1)) = 2 ^ (7 * groups) * 128 := by
            rw [Nat.mul_add, Nat.pow_add]
          have hByte : 2 ^ (7 * groups) * (byte.toNat % 128) ≤ 2 ^ (7 * groups) * 127 :=
            Nat.mul_le_mul_left _ (by omega)
          omega
        have hWord : 2 ^ (7 * (groups + 1)) ≤ 2 ^ 63 :=
          Nat.pow_le_pow_right (by decide) (by omega)
        rw [if_neg hNext, Nat.mod_eq_of_lt (hSmall.trans_le (hWord.trans (by decide))),
          ← Nat.mul_succ, ih (by omega) hSmall]
        have hLength : rest.length + (groups + 1) = rest.length + 1 + groups := by omega
        have hSum : value + 2 ^ (7 * groups) * (byte.toNat % 128) +
            2 ^ (7 * (groups + 1)) * denoted rest =
              value + 2 ^ (7 * groups) * denoted (byte :: rest) := by
          rw [denoted, Nat.mul_add 7, Nat.pow_add]
          ring
        rw [hLength, hSum]

/-- What the decoder accepts, and what it returns. -/
theorem decodeVaruintBytes_eq (bytes : List UInt8) :
    decodeVaruintBytes bytes =
      if Terminated bytes ∧ bytes.length ≤ 10 then some (denoted bytes % 2 ^ 64) else none := by
  have h := decodeVaruintLoop_eq bytes (Nat.zero_le 9) (by decide : 0 < 2 ^ (7 * 0))
  simpa [decodeVaruintBytes] using h

/-! ### Folded signed numbers -/

/-- The arithmetic shift spreads the sign over the word. -/
theorem toUInt64_shiftRight (value : Int64) :
    (value >>> 63).toUInt64 = if value.toUInt64.toNat < 2 ^ 63 then 0 else 0xFFFFFFFFFFFFFFFF := by
  have hShift : (value >>> 63).toUInt64.toBitVec = value.toUInt64.toBitVec.sshiftRight 63 :=
    Int64.toBitVec_shiftRight value 63
  have hSign : value.toUInt64.toBitVec.msb = decide (2 ^ 63 ≤ value.toUInt64.toNat) :=
    BitVec.msb_eq_decide _
  have hBound := value.toUInt64.toNat_lt
  apply UInt64.toBitVec_inj.1
  rw [hShift]
  by_cases hPos : value.toUInt64.toNat < 2 ^ 63
  · rw [if_pos hPos, BitVec.sshiftRight_eq_of_msb_false (by rw [hSign, decide_eq_false (by omega)])]
    apply BitVec.eq_of_toNat_eq
    rw [BitVec.toNat_ushiftRight, UInt64.toNat_toBitVec, Nat.shiftRight_eq_div_pow]
    exact Nat.div_eq_of_lt hPos
  · rw [if_neg hPos, BitVec.sshiftRight_eq_of_msb_true (by rw [hSign, decide_eq_true (by omega)])]
    have hZero : ~~~value.toUInt64.toBitVec >>> 63 = 0#64 := by
      apply BitVec.eq_of_toNat_eq
      rw [BitVec.toNat_ushiftRight, BitVec.toNat_not, UInt64.toNat_toBitVec,
        Nat.shiftRight_eq_div_pow]
      exact Nat.div_eq_of_lt (by omega)
    rw [hZero]
    rfl

theorem toNat_xor_ones (value : UInt64) :
    (value ^^^ 0xFFFFFFFFFFFFFFFF).toNat = 2 ^ 64 - 1 - value.toNat := by
  have hNot : value ^^^ 0xFFFFFFFFFFFFFFFF = ~~~value := by
    apply UInt64.toBitVec_inj.1
    exact BitVec.xor_allOnes
  rw [hNot]
  exact UInt64.toNat_not value

theorem toNat_shiftLeft_one (value : UInt64) : (value <<< 1).toNat = 2 * value.toNat % 2 ^ 64 := by
  have hOne : (1 : UInt64).toNat % 64 = 1 := rfl
  rw [UInt64.toNat_shiftLeft, hOne, Nat.shiftLeft_eq, Nat.pow_one, Nat.mul_comm]

theorem toNat_shiftRight_one (value : UInt64) : (value >>> 1).toNat = value.toNat / 2 := by
  rw [UInt64.toNat_shiftRight, Nat.shiftRight_eq_div_pow]
  rfl

/-- The low bit tells whether the rest is complemented. -/
theorem not_low_bit (value : UInt64) :
    ~~~(value &&& 1) + 1 = if value.toNat % 2 = 0 then 0 else 0xFFFFFFFFFFFFFFFF := by
  have hBit : (value &&& 1).toNat = value.toNat % 2 := by
    rw [UInt64.toNat_and]
    exact Nat.and_one_is_mod _
  rcases Nat.mod_two_eq_zero_or_one value.toNat with hEven | hOdd
  · have hZero : value &&& 1 = 0 := UInt64.toNat_inj.1 (hBit.trans hEven)
    rw [if_pos hEven, hZero]
    rfl
  · have hOne : value &&& 1 = 1 := UInt64.toNat_inj.1 (hBit.trans hOdd)
    rw [if_neg (by omega), hOne]
    rfl

/-- Numbers at and above zero become the even ones, the others the odd ones. -/
theorem toNat_zigzagEncode (value : Int64) :
    (zigzagEncode value).toNat =
      if value.toUInt64.toNat < 2 ^ 63 then 2 * value.toUInt64.toNat
      else 2 ^ 65 - 1 - 2 * value.toUInt64.toNat := by
  have hBound := value.toUInt64.toNat_lt
  rw [zigzagEncode, toUInt64_shiftRight]
  by_cases hPos : value.toUInt64.toNat < 2 ^ 63
  · rw [if_pos hPos, if_pos hPos, UInt64.xor_zero, toNat_shiftLeft_one]
    omega
  · rw [if_neg hPos, if_neg hPos, toNat_xor_ones, toNat_shiftLeft_one]
    omega

theorem toNat_zigzagDecode (value : UInt64) :
    (zigzagDecode value).toUInt64.toNat =
      if value.toNat % 2 = 0 then value.toNat / 2 else 2 ^ 64 - 1 - value.toNat / 2 := by
  rw [zigzagDecode, not_low_bit, UInt64.toUInt64_toInt64]
  by_cases hEven : value.toNat % 2 = 0
  · rw [if_pos hEven, if_pos hEven, UInt64.xor_zero, toNat_shiftRight_one]
  · rw [if_neg hEven, if_neg hEven, toNat_xor_ones, toNat_shiftRight_one]

@[simp] theorem zigzagDecode_zigzagEncode (value : Int64) :
    zigzagDecode (zigzagEncode value) = value := by
  apply Int64.toBitVec_inj.1
  apply BitVec.eq_of_toNat_eq
  change (zigzagDecode (zigzagEncode value)).toUInt64.toNat = value.toUInt64.toNat
  have hBound := value.toUInt64.toNat_lt
  rw [toNat_zigzagDecode, toNat_zigzagEncode]
  by_cases hPos : value.toUInt64.toNat < 2 ^ 63
  · rw [if_pos hPos, if_pos (by omega)]
    omega
  · rw [if_neg hPos, if_neg (by omega)]
    omega

@[simp] theorem zigzagEncode_zigzagDecode (value : UInt64) :
    zigzagEncode (zigzagDecode value) = value := by
  apply UInt64.toNat_inj.1
  have hBound := value.toNat_lt
  rw [toNat_zigzagEncode, toNat_zigzagDecode]
  by_cases hEven : value.toNat % 2 = 0
  · rw [if_pos hEven, if_pos (by omega)]
    omega
  · rw [if_neg hEven, if_neg (by omega)]
    omega

/-! ### Values from inputs -/

@[simp] theorem decodeVaruintBytes_encodeVaruintBytes (value : UInt64) :
    decodeVaruintBytes (encodeVaruintBytes value.toNat) = some value.toNat := by
  have hFits : value.toNat < 128 ^ (9 + 1) := value.toNat_lt.trans (by decide)
  obtain ⟨hDenoted, hTerminated, hLength⟩ := encodeVaruintBytes_spec 9 hFits
  rw [decodeVaruintBytes_eq, if_pos ⟨hTerminated, hLength⟩, hDenoted,
    Nat.mod_eq_of_lt value.toNat_lt]

theorem length_encodeVaruintBytes_le (value : UInt64) :
    (encodeVaruintBytes value.toNat).length ≤ maxPayloadSize := by
  have hFits : value.toNat < 128 ^ (9 + 1) := value.toNat_lt.trans (by decide)
  exact (encodeVaruintBytes_spec 9 hFits).2.2.trans (by decide)

def makeVaruint (value : UInt64) : Value where
  raw := ⟨.varUInt, (encodeVaruintBytes value.toNat).length, encodeVaruintBytes value.toNat⟩
  valid := by simp [validateValue, length_encodeVaruintBytes_le]

def makeVarint (value : Int64) : Value where
  raw := ⟨.varInt, (encodeVaruintBytes (zigzagEncode value).toNat).length,
    encodeVaruintBytes (zigzagEncode value).toNat⟩
  valid := by simp [validateValue, length_encodeVaruintBytes_le]

def makeChar (value : List UInt8) (hSize : value.length ≤ maxPayloadSize) : Value where
  raw := ⟨.char, value.length, value⟩
  valid := by simp [validateValue, hSize]

def encode : ValueInput → Option Value
  | .bool value => some (makeBool value)
  | .varuint value => some (makeVaruint value)
  | .varint value => some (makeVarint value)
  | .char value =>
    if hSize : value.length ≤ maxPayloadSize then some (makeChar value hSize) else none

def decodeVaruint (value : RawValue) : Option UInt64 :=
  if value.type ≠ .varUInt then none else (decodeVaruintBytes value.data).map UInt64.ofNat

def decodeVarint (value : RawValue) : Option Int64 :=
  if value.type ≠ .varInt then none
  else (decodeVaruintBytes value.data).map fun encoded => zigzagDecode (UInt64.ofNat encoded)

def decode (value : RawValue) : Option ValueInput :=
  if !validateValue value then none
  else
    match value.type with
    | .varUInt => (decodeVaruint value).map .varuint
    | .varInt => (decodeVarint value).map .varint
    | .bool => some (.bool (value.data.getD 0 0 == 1))
    | .char => some (.char value.data)

theorem decode_encode {input : ValueInput} {value : Value} (h : encode input = some value) :
    decode value.raw = some input := by
  have hValid : (!validateValue value.raw) = false := by simp [value.valid]
  rw [decode, hValid, if_neg Bool.false_ne_true]
  cases input <;> simp only [encode, Option.some.injEq, Option.dite_none_right_eq_some] at h
  case bool flag =>
    subst h
    cases flag <;> rfl
  case varuint number =>
    subst h
    simp [makeVaruint, decodeVaruint]
  case varint number =>
    subst h
    simp [makeVarint, decodeVarint]
  case char text =>
    obtain ⟨hSize, rfl⟩ := h
    rfl

/-- What is accepted: everything but strings over the payload limit. -/
theorem encode_isSome_iff (input : ValueInput) :
    (encode input).isSome = true ↔ ∀ text, input = .char text → text.length ≤ maxPayloadSize := by
  cases input with
  | bool flag => simp [encode]
  | varuint number => simp [encode]
  | varint number => simp [encode]
  | char text =>
    by_cases hSize : text.length ≤ maxPayloadSize <;> simp [encode, hSize]

/-- Every accepted input becomes a valid value that decodes to it, over the whole range of
64-bit numbers of either kind. -/
theorem inputs_round_trip :
    (∀ input : ValueInput, (encode input).isSome = true ↔
      ∀ text, input = .char text → text.length ≤ maxPayloadSize) ∧
    (∀ (input : ValueInput) (value : Value), encode input = some value →
      validateValue value.raw = true ∧ decode value.raw = some input) ∧
    (∀ number : UInt64, decodeVaruintBytes (encodeVaruintBytes number.toNat) = some number.toNat) ∧
    (∀ number : Int64, zigzagDecode (zigzagEncode number) = number) ∧
    (∀ number : UInt64, zigzagEncode (zigzagDecode number) = number) :=
  ⟨encode_isSome_iff, fun _ value h => ⟨value.valid, decode_encode h⟩,
    decodeVaruintBytes_encodeVaruintBytes, zigzagDecode_zigzagEncode, zigzagEncode_zigzagDecode⟩

/-! ### Accepted bytes and the numbers they denote -/

/-- Nine groups of zero and a tenth group of two, which denote the number just past the word. -/
def wrappedBytes : List UInt8 :=
  List.replicate 9 0x80 ++ [0x02]

/-- Ten groups hold seventy bits, and the bits of the last group past the word are dropped: the
bytes of two to the 64th are a valid value that decodes to zero. -/
theorem decode_wrappedBytes :
    Terminated wrappedBytes ∧ denoted wrappedBytes = 2 ^ 64 ∧
      decodeVaruintBytes wrappedBytes = some 0 ∧
      validateValue ⟨.varUInt, 10, wrappedBytes⟩ = true ∧
      decode ⟨.varUInt, 10, wrappedBytes⟩ = some (.varuint 0) := by
  decide +kernel

/-- Ten groups fit in the word exactly if the last one is zero or one. -/
theorem denoted_lt_iff {bytes : List UInt8} (hTerminated : Terminated bytes)
    (hLength : bytes.length ≤ 10) :
    denoted bytes < 2 ^ 64 ↔ (bytes.length = 10 → (bytes.getLastD 0).toNat ≤ 1) := by
  have hBound := denoted_lt bytes
  rcases Nat.lt_or_ge bytes.length 10 with hShort | hFull
  · have hPow : 128 ^ bytes.length ≤ 128 ^ 9 := Nat.pow_le_pow_right (by decide) (by omega)
    exact iff_of_true (by omega) (fun hEq => absurd hEq (Nat.ne_of_lt hShort))
  · have hTen : bytes.length = 10 := Nat.le_antisymm hLength hFull
    rcases List.eq_nil_or_concat bytes with rfl | ⟨front, last, rfl⟩
    · exact absurd hTen (by decide)
    rw [List.concat_eq_append] at hTerminated hTen ⊢
    have hFront : front.length = 9 := by simpa using hTen
    have hLow := denoted_lt front
    have hLast := hTerminated.last_lt
    rw [denoted_concat, List.getLastD_concat, hFront, Nat.mod_eq_of_lt hLast]
    rw [hFront] at hLow
    constructor
    · intro _ _
      omega
    · intro h
      have := h hTen
      omega

/-- An accepted string is decoded to the number it denotes exactly if a tenth group, where there
is one, is zero or one. -/
theorem decoded_as_denoted_iff (bytes : List UInt8) :
    (∀ number, decodeVaruintBytes bytes = some number →
      Terminated bytes ∧ denoted bytes < 2 ^ 64 ∧ number = denoted bytes) ↔
    (Terminated bytes → bytes.length = 10 → (bytes.getLastD 0).toNat ≤ 1) := by
  rw [decodeVaruintBytes_eq]
  by_cases hAccepted : Terminated bytes ∧ bytes.length ≤ 10
  · have hFits := denoted_lt_iff hAccepted.1 hAccepted.2
    rw [if_pos hAccepted]
    constructor
    · intro h _
      exact hFits.1 (h _ rfl).2.1
    · intro h number hNumber
      have hLt := hFits.2 (h hAccepted.1)
      exact ⟨hAccepted.1, hLt, by rw [← Option.some.inj hNumber, Nat.mod_eq_of_lt hLt]⟩
  · rw [if_neg hAccepted]
    refine iff_of_true (fun number h => absurd h (Option.some_ne_none number).symm) ?_
    exact fun hTerminated hTen => absurd ⟨hTerminated, hTen.le⟩ hAccepted

end ValueCodec

end Stoneleaf
