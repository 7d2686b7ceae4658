import Stoneleaf.Encoding.KeyInput
import Stoneleaf.KeyStore.Scan

/-!
Every scan yields exactly the entries its bounds select, in key order.
-/

namespace Stoneleaf

open Library Program List KeyCodec

section Bounds

variable {text key key' stop : Key}

theorem hasPrefix_iff :
    hasPrefix text key = true ↔ key.type = text.type ∧ text.data <+: key.data := by
  rw [hasPrefix, prefix_iff_eq_take]
  by_cases hType : key.type = text.type
  · by_cases hLength : key.data.length < text.data.length
    · have hNe : text.data ≠ key.data.take text.data.length := by
        intro hEq
        have hTake := congrArg List.length hEq
        rw [length_take] at hTake
        omega
      simp only [hType, hLength, hNe, ne_eq, not_true_eq_false, if_false, if_true,
        Bool.false_eq_true, and_false]
    · simp only [hType, hLength, ne_eq, not_true_eq_false, if_false, beq_iff_eq, true_and]
  · simp only [hType, ne_eq, not_false_eq_true, if_true, Bool.false_eq_true, false_and]

/-- Between a text and a key that starts with it there are only keys that start with it. -/
theorem hasPrefix_of_between (hText : text ≤ key) (hLe : key ≤ key')
    (h : hasPrefix text key' = true) : hasPrefix text key = true := by
  rw [hasPrefix_iff] at h ⊢
  obtain ⟨hType, hData⟩ := h
  have hLow : text.sortKey ≤ key.sortKey := hText
  have hHigh : key.sortKey ≤ key'.sortKey := hLe
  rw [Key.sortKey, Key.sortKey, Prod.Lex.toLex_le_toLex] at hLow hHigh
  simp only [hType] at hLow hHigh
  have hByte : key.type.toByte = text.type.toByte := by
    rcases hLow with hLow | hLow <;> rcases hHigh with hHigh | hHigh <;> omega
  refine ⟨KeyType.toByte_injective hByte, ?_⟩
  have hLow' : text.data.map UInt8.toNat ≤ key.data.map UInt8.toNat := by
    rcases hLow with hLow | hLow
    · omega
    · exact hLow.2
  have hHigh' : key.data.map UInt8.toNat ≤ key'.data.map UInt8.toNat := by
    rcases hHigh with hHigh | hHigh
    · omega
    · exact hHigh.2
  have hMap := isPrefix_of_between hLow' hHigh' (hData.map UInt8.toNat)
  rw [prefix_iff_eq_take, length_map, ← map_take] at hMap
  have hBytes : Function.Injective UInt8.toNat := fun _ _ => UInt8.toNat_inj.1
  exact prefix_iff_eq_take.2 (map_injective_iff.2 hBytes hMap)

theorem keyIsInBounds_end : keyIsInBounds (some stop) none key = true ↔ key < stop := by
  simp [keyIsInBounds]

theorem keyIsInBounds_prefix_eq : keyIsInBounds none (some text) key = hasPrefix text key := by
  simp [keyIsInBounds]

/-- Every key that starts with a text comes after it. -/
theorem le_of_hasPrefix (h : hasPrefix text key = true) : text ≤ key := by
  obtain ⟨hType, hData⟩ := hasPrefix_iff.1 h
  change text.sortKey ≤ key.sortKey
  rw [Key.sortKey, Key.sortKey, Prod.Lex.toLex_le_toLex, hType]
  exact .inr ⟨rfl, not_lt.1 (hData.map UInt8.toNat).le⟩

end Bounds

namespace KeyStoreCursor

variable {ioFails : Nat → Bool} {s₀ s : TreeState} {tree : Option SomeTree}
  {cursor : KeyStoreCursor} {inner : BTreeCursor} {exclusiveEnd requiredPrefix : Option Key}
  {rest wanted : List (Key × Value)}

/-- Whether a scan may show an entry. -/
def inBounds (exclusiveEnd requiredPrefix : Option Key) (e : Key × Value) : Bool :=
  keyIsInBounds exclusiveEnd requiredPrefix e.1

/-- The entries a scan has still to show: those of its cursor up to the first out of bounds.
A cursor that has met its bound shows nothing any more. -/
inductive Yields (tree : Option SomeTree) (exclusiveEnd requiredPrefix : Option Key) :
    KeyStoreCursor → List (Key × Value) → Prop where
  | inside {inner : BTreeCursor} {rest : List (Key × Value)} (hRests : inner.Rests tree rest)
      (hHead : ∀ e ∈ rest.head?, inBounds exclusiveEnd requiredPrefix e = true) :
      Yields tree exclusiveEnd requiredPrefix ⟨inner, exclusiveEnd, requiredPrefix, false⟩
        (rest.takeWhile (inBounds exclusiveEnd requiredPrefix))
  | outside {inner : BTreeCursor} {rest : List (Key × Value)} (hRests : inner.Rests tree rest) :
      Yields tree exclusiveEnd requiredPrefix ⟨inner, exclusiveEnd, requiredPrefix, true⟩ []

def statusFor : List (Key × Value) → KeyStoreCursorStatus
  | [] => .endOfScan
  | _ :: _ => .success

theorem current_spec (hReads : BTreeCursor.Reads s₀ tree)
    (hYields : Yields tree exclusiveEnd requiredPrefix cursor wanted)
    (hPins : Pins s₀ cursor.cursor.pages s) :
    (current (decodedEnv ioFails) cursor).Returns s
      fun result s' => result = ⟨statusFor wanted, wanted.head?⟩ ∧ s' = s := by
  cases hYields with
  | outside hRests => exact ⟨rfl, rfl⟩
  | @inside inner rest hRests hHead =>
    simp only [current, Bool.false_eq_true, if_false, wp_bind]
    refine wp_conseq (BTreeCursor.current_spec hReads hRests hPins) ?_
    rintro _ _ ⟨rfl, rfl⟩
    cases rest with
    | nil => exact ⟨rfl, rfl⟩
    | cons e rest =>
      have hBounds := hHead e rfl
      have hValid : validateKey e.1.raw = true ∧ ValueCodec.validateValue e.2.raw = true :=
        ⟨e.1.valid, e.2.valid⟩
      rw [takeWhile_cons_of_pos hBounds]
      simp only [BTreeCursor.statusFor, head?_cons, wp_ite]
      exact ⟨fun h => (h hBounds).elim, fun _ => ⟨fun h => (h hValid).elim, fun _ => ⟨rfl, rfl⟩⟩⟩

/-- How a call of `next` ends, as for the cursor of the tree. -/
def Lands (ioFails : Nat → Bool) (s₀ : TreeState) (tree : Option SomeTree)
    (exclusiveEnd requiredPrefix : Option Key) (cursor : KeyStoreCursor)
    (wanted : List (Key × Value)) (result : KeyStoreCursorStatus × KeyStoreCursor)
    (s' : TreeState) : Prop :=
  Pins s₀ result.2.cursor.pages s' ∧
    (result = (.storageError, cursor) ∧ Faulty ioFails ∨
      result.1 = statusFor wanted ∧ Yields tree exclusiveEnd requiredPrefix result.2 wanted)

theorem next_spec (hReads : BTreeCursor.Reads s₀ tree)
    (hYields : Yields tree exclusiveEnd requiredPrefix cursor wanted)
    (hPins : Pins s₀ cursor.cursor.pages s) :
    (next (decodedEnv ioFails) cursor).Returns s
      (Lands ioFails s₀ tree exclusiveEnd requiredPrefix cursor wanted.tail) := by
  cases hYields with
  | outside hRests => exact ⟨hPins, .inr ⟨rfl, .outside hRests⟩⟩
  | @inside inner rest hRests hHead =>
    simp only [next, Bool.false_eq_true, if_false, wp_bind]
    refine wp_conseq (BTreeCursor.next_spec hReads hRests hPins) ?_
    rintro ⟨status, inner'⟩ s₁ ⟨hPins₁, ⟨hFailed, hFaulty⟩ | ⟨hStatus, hRests₁⟩⟩
    · obtain ⟨rfl, rfl⟩ := Prod.mk.inj hFailed
      exact ⟨hPins₁, .inl ⟨rfl, hFaulty⟩⟩
    simp only at hStatus hRests₁
    subst hStatus
    have hTail : (rest.takeWhile (inBounds exclusiveEnd requiredPrefix)).tail =
        rest.tail.takeWhile (inBounds exclusiveEnd requiredPrefix) := by
      cases rest with
      | nil => rfl
      | cons e rest => rw [takeWhile_cons_of_pos (hHead e rfl), tail_cons, tail_cons]
    rw [hTail]
    generalize rest.tail = rest' at hRests₁ ⊢
    cases rest' with
    | nil =>
      exact ⟨hPins₁, .inr ⟨rfl, .inside hRests₁ fun e he => absurd he (by simp)⟩⟩
    | cons e rest' =>
      simp only [BTreeCursor.statusFor, ne_eq, not_true_eq_false, if_false, wp_bind]
      refine wp_conseq (BTreeCursor.current_spec hReads hRests₁ hPins₁) ?_
      rintro _ _ ⟨rfl, rfl⟩
      simp only [BTreeCursor.statusFor, head?_cons, wp_ite]
      refine ⟨fun hBounds => ?_, fun hBounds => ?_⟩
      · have hHead₁ : ¬inBounds exclusiveEnd requiredPrefix e = true := hBounds
        rw [takeWhile_cons_of_neg hHead₁]
        exact ⟨hPins₁, .inr ⟨rfl, .outside hRests₁⟩⟩
      · have hHead₁ : inBounds exclusiveEnd requiredPrefix e = true := not_not.1 hBounds
        have hInside := Yields.inside hRests₁ fun e' he => by
          obtain rfl : e = e' := by simpa using he
          exact hHead₁
        rw [takeWhile_cons_of_pos hHead₁] at hInside ⊢
        exact ⟨hPins₁, .inr ⟨rfl, hInside⟩⟩

/-- A fresh scan shows what its cursor stands on, up to the bounds. -/
theorem wrap_spec (hReads : BTreeCursor.Reads s₀ tree) (hRests : inner.Rests tree rest)
    (hPins : Pins s₀ inner.pages s) :
    (wrap (decodedEnv ioFails) inner exclusiveEnd requiredPrefix).Returns s
      fun cursor s' => Pins s₀ cursor.cursor.pages s' ∧
        Yields tree exclusiveEnd requiredPrefix cursor
        (rest.takeWhile (inBounds exclusiveEnd requiredPrefix)) := by
  cases rest with
  | nil =>
    cases hRests
    exact ⟨hPins, .inside .ended fun e he => absurd he (by simp)⟩
  | cons e rest =>
    have hValid : inner.valid = true := by cases hRests; rfl
    simp only [wrap, hValid, not_true_eq_false, if_false, wp_bind]
    refine wp_conseq (BTreeCursor.current_spec hReads hRests hPins) ?_
    rintro _ _ ⟨rfl, rfl⟩
    simp only [BTreeCursor.statusFor, head?_cons, wp_pure]
    refine ⟨hPins, ?_⟩
    by_cases hBounds : inBounds exclusiveEnd requiredPrefix e = true
    · have hInside := Yields.inside hRests fun e' he => by
        obtain rfl : e = e' := by simpa using he
        exact hBounds
      have hKey : keyIsInBounds exclusiveEnd requiredPrefix e.1 = true := hBounds
      rw [hKey]
      exact hInside
    · have hKey : keyIsInBounds exclusiveEnd requiredPrefix e.1 = false :=
        Bool.eq_false_iff.2 hBounds
      rw [hKey, takeWhile_cons_of_neg hBounds]
      exact .outside hRests

abbrev Sight := KeyStoreCursorStatus × KeyStoreCursorResult

def display : Display (Key × Value) Sight where
  entry e := (.success, ⟨.success, some e⟩)
  ended := (.endOfScan, ⟨.endOfScan, none⟩)
  isRead sight := sight.1 ≠ .storageError
  isRead_entry _ := rfl
  isRead_ended := rfl

theorem front_eq (wanted : List (Key × Value)) :
    (statusFor wanted, ⟨statusFor wanted, wanted.head?⟩) = display.front wanted := by
  cases wanted <;> rfl

theorem Yields.closed_eq_false (hYields : Yields tree exclusiveEnd requiredPrefix cursor wanted) :
    cursor.cursor.closed = false := by
  cases hYields with
  | inside hRests | outside hRests => cases hRests <;> rfl

/-- A scan iterates over the entries it has still to show. -/
theorem iterates (hReads : BTreeCursor.Reads s₀ tree) :
    Iterates (next (decodedEnv ioFails)) (current (decodedEnv ioFails)) display (Faulty ioFails)
      fun cursor wanted s => Yields tree exclusiveEnd requiredPrefix cursor wanted ∧
        Pins s₀ cursor.cursor.pages s where
  move := by
    rintro cursor wanted s ⟨hYields, hPins⟩
    refine wp_conseq (next_spec hReads hYields hPins) ?_
    rintro ⟨status, cursor'⟩ s' ⟨hPins', ⟨hFailed, hFaulty⟩ | ⟨hStatus, hYields'⟩⟩
    · obtain ⟨rfl, rfl⟩ := Prod.mk.inj hFailed
      exact .inl ⟨fun _ => rfl, hFaulty, hYields, hPins'⟩
    · exact .inr ⟨by rw [← front_eq]; exact hStatus, hYields', hPins'⟩
  look := by
    rintro cursor wanted s ⟨hYields, hPins⟩
    rw [← front_eq]
    exact current_spec hReads hYields hPins

end KeyStoreCursor

/-- A key of a caller, where the codec accepts it. -/
def KeyCodec.accept (raw : RawKey) : Option Key :=
  if h : KeyCodec.validateKey raw = true then some ⟨raw, h⟩ else none

/-- A call of one of the four scans, with the caller's bounds. -/
inductive ScanRequest where
  | scan
  | scanFrom (start : RawKey)
  | scanRange (start stop : RawKey)
  | scanPrefix (text : RawKey)

namespace ScanRequest

def call {P : Type} (env : PagerEnv P) (store : KeyStore) : ScanRequest → Op P KeyStoreScanResult
  | scan => store.scan env
  | scanFrom start => store.scanFrom env start
  | scanRange start stop => store.scanRange env start stop
  | scanPrefix text => store.scanPrefix env text

/-- The keys a scan is to show, or `none` for bounds that no scan accepts. -/
def selects : ScanRequest → Option (Key → Bool)
  | scan => some fun _ => true
  | scanFrom start => (KeyCodec.accept start).map fun start key => decide (start ≤ key)
  | scanRange start stop => do
    let start ← KeyCodec.accept start
    let stop ← KeyCodec.accept stop
    if start ≤ stop then some fun key => decide (start ≤ key ∧ key < stop) else none
  | scanPrefix text => do
    let text ← KeyCodec.accept text
    if text.type = .string ∨ text.type = .bytes then
      some fun key => decide (key.type = text.type ∧ text.data <+: key.data)
    else none

/-- Make the call, look at the first entry, call `next` as often as the caller likes, close. -/
def iterate {P : Type} (env : PagerEnv P) (store : KeyStore) (request : ScanRequest) (count : Nat) :
    Op P (KeyStoreStatus × List KeyStoreCursor.Sight) := do
  let result ← request.call env store
  match result.cursor with
  | none => return (result.status, [])
  | some cursor =>
    let first ← cursor.current env
    let (sights, cursor) ←
      visit (KeyStoreCursor.next env) (KeyStoreCursor.current env) count cursor
    let _ ← cursor.close
    return (result.status, (first.status, first) :: sights)

end ScanRequest

section Requests

open KeyStoreCursor BTreeCursor

variable {ioFails : Nat → Bool} {s : TreeState} {tree : Option SomeTree}
  {start exclusiveEnd requiredPrefix : Option Key}

/-- What a scan returns: a cursor over the wanted entries, or nothing after a failed read. -/
def ScanOpened (ioFails : Nat → Bool) (s : TreeState) (tree : Option SomeTree)
    (exclusiveEnd requiredPrefix : Option Key) (wanted : List (Key × Value))
    (result : KeyStoreScanResult) (s' : TreeState) : Prop :=
  (result = ⟨.scanFailed, none⟩ ∧ Faulty ioFails ∧ Pins s [] s') ∨
    ∃ cursor, result = ⟨.success, some cursor⟩ ∧ Pins (registered s) cursor.cursor.pages s' ∧
      Yields tree exclusiveEnd requiredPrefix cursor wanted

theorem scanWith_spec (hReads : Reads s tree) :
    (KeyStore.scanWith (decodedEnv ioFails) start exclusiveEnd requiredPrefix).Returns s
      (ScanOpened ioFails s tree exclusiveEnd requiredPrefix
        ((entriesFrom start (treeEntries tree)).takeWhile
          (inBounds exclusiveEnd requiredPrefix))) := by
  simp only [KeyStore.scanWith, openCursor, wp_bind, wp_modify, wp_pure]
  have hStart : Pins (registered s) unpositioned.pages (registered s) := Pins.refl _
  refine wp_conseq (seekTo_spec hReads.registered rfl hStart start) ?_
  rintro ⟨status, cursor⟩ s₁ ⟨hPins₁, ⟨hFailed, hFaulty⟩ | ⟨hStatus, hRests⟩⟩
  · obtain ⟨rfl, rfl⟩ := Prod.mk.inj hFailed
    simp only [ne_eq, reduceCtorEq, not_false_eq_true, and_self, if_true, wp_bind]
    refine wp_conseq (BTreeCursor.close_spec rfl hPins₁) ?_
    exact fun _ s₂ hPins₂ => .inl ⟨rfl, hFaulty, hPins₂⟩
  · simp only at hStatus hRests
    have hGood : ¬(status ≠ .success ∧ status ≠ .endOfTree) := by
      rw [hStatus]
      cases entriesFrom start (treeEntries tree) <;> simp [BTreeCursor.statusFor]
    rw [if_neg hGood, wp_bind]
    refine wp_conseq (wrap_spec hReads.registered hRests hPins₁) ?_
    exact fun cursor' s₂ h => .inr ⟨cursor', rfl, h⟩

/-- What a caller sees of a scan over the wanted entries. -/
def Scanned (ioFails : Nat → Bool) (wanted : List (Key × Value)) (count : Nat)
    (seen : KeyStoreStatus × List KeyStoreCursor.Sight) : Prop :=
  (seen.1 = .success ∧ seen.2.length = count + 1 ∧
      KeyStoreCursor.display.Shows (Faulty ioFails) wanted seen.2) ∨
    (seen = (.scanFailed, []) ∧ Faulty ioFails)

theorem iterate_spec {request : ScanRequest} {count : Nat} (hReads : Reads s tree)
    (hCall : request.call (decodedEnv ioFails) ⟨true⟩ =
      KeyStore.scanWith (decodedEnv ioFails) start exclusiveEnd requiredPrefix) :
    (request.iterate (decodedEnv ioFails) ⟨true⟩ count).Returns s
      fun seen s' => Pins s [] s' ∧
        Scanned ioFails ((entriesFrom start (treeEntries tree)).takeWhile
        (inBounds exclusiveEnd requiredPrefix)) count seen := by
  rw [Returns, ScanRequest.iterate, hCall, wp_bind]
  refine wp_conseq (scanWith_spec hReads) ?_
  rintro result s₁ (⟨rfl, hFaulty, hPins₁⟩ | ⟨cursor, rfl, hPins₁, hYields⟩)
  · exact ⟨hPins₁, .inr ⟨rfl, hFaulty⟩⟩
  simp only [wp_bind]
  refine wp_conseq (KeyStoreCursor.current_spec hReads.registered hYields hPins₁) ?_
  rintro _ _ ⟨rfl, rfl⟩
  refine wp_conseq ((KeyStoreCursor.iterates hReads.registered).visit ⟨hYields, hPins₁⟩) ?_
  rintro ⟨sights, cursor'⟩ s₂ ⟨hLength, hShows, rest, hYields₂, hPins₂⟩
  simp only [KeyStoreCursor.close, wp_bind]
  refine wp_conseq (BTreeCursor.close_spec hYields₂.closed_eq_false hPins₂) ?_
  refine fun _ s₃ hPins₃ => ⟨hPins₃, .inl ⟨rfl, congrArg (· + 1) hLength, ?_⟩⟩
  rw [KeyStoreCursor.front_eq]
  exact hShows.cons_read

/-- Where the keys in bounds follow each other from the start on, a scan shows all of them. -/
theorem takeWhile_entriesFrom {entries : List (Key × Value)}
    (hSorted : (entries.map Prod.fst).Pairwise (· < ·))
    (hContiguous : ∀ {k k' : Key}, (∀ first ∈ start, first ≤ k) → k ≤ k' →
      keyIsInBounds exclusiveEnd requiredPrefix k' = true →
      keyIsInBounds exclusiveEnd requiredPrefix k = true) :
    (entriesFrom start entries).takeWhile (inBounds exclusiveEnd requiredPrefix) =
      (entriesFrom start entries).filter (inBounds exclusiveEnd requiredPrefix) := by
  have hEntries : (entriesFrom start entries).Pairwise fun e e' => e.1 < e'.1 := by
    have hPairs := pairwise_map.1 hSorted
    cases start with
    | none => exact hPairs
    | some first => exact hPairs.filter _
  refine takeWhile_eq_filter (hEntries.imp_of_mem ?_)
  intro e e' he _ hLt hBounds
  refine hContiguous (fun first hFirst => ?_) hLt.le hBounds
  cases hFirst
  simpa [entriesFrom] using (mem_filter.1 he).2

namespace ScanRequest

/-- The call refuses its bounds. -/
def IsRefused (ioFails : Nat → Bool) (request : ScanRequest) : Prop :=
  request.selects = none ∧ ∃ status, (status = .invalidKey ∨ status = .invalidRange) ∧
    request.call (decodedEnv ioFails) ⟨true⟩ = pure ⟨status, none⟩

/-- The call starts a scan that shows the keys it is to select. -/
def IsAccepted (ioFails : Nat → Bool) (request : ScanRequest) : Prop :=
  ∃ selected start exclusiveEnd requiredPrefix, request.selects = some selected ∧
    request.call (decodedEnv ioFails) ⟨true⟩ =
      KeyStore.scanWith (decodedEnv ioFails) start exclusiveEnd requiredPrefix ∧
    ∀ entries : List (Key × Value), (entries.map Prod.fst).Pairwise (· < ·) →
      (entriesFrom start entries).takeWhile (inBounds exclusiveEnd requiredPrefix) =
        entries.filter fun e => selected e.1

theorem scanFrom_cases (start : RawKey) :
    IsRefused ioFails (scanFrom start) ∨ IsAccepted ioFails (scanFrom start) := by
  by_cases hStart : validateKey start = true
  · refine .inr ⟨fun key => decide (⟨start, hStart⟩ ≤ key), some ⟨start, hStart⟩, none, none,
      by simp [selects, accept, hStart], by simp [call, KeyStore.scanFrom, hStart],
      fun entries hSorted => ?_⟩
    rw [takeWhile_entriesFrom hSorted fun _ _ _ => rfl]
    exact filter_eq_self.2 fun _ _ => rfl
  · refine .inl ⟨by simp [selects, accept, hStart], _, .inl rfl, ?_⟩
    simp [call, KeyStore.scanFrom, hStart]

theorem scanRange_cases (start stop : RawKey) :
    IsRefused ioFails (scanRange start stop) ∨ IsAccepted ioFails (scanRange start stop) := by
  by_cases hStart : validateKey start = true
  · by_cases hStop : validateKey stop = true
    · by_cases hLe : (⟨start, hStart⟩ : Key) ≤ ⟨stop, hStop⟩
      · refine .inr ⟨fun key => decide (⟨start, hStart⟩ ≤ key ∧ key < ⟨stop, hStop⟩),
          some ⟨start, hStart⟩, some ⟨stop, hStop⟩, none,
          by simp [selects, accept, hStart, hStop, hLe],
          by simp [call, KeyStore.scanRange, hStart, hStop, hLe], fun entries hSorted => ?_⟩
        rw [takeWhile_entriesFrom hSorted]
        · rw [entriesFrom, filter_filter]
          refine filter_congr fun e _ => ?_
          rw [Bool.eq_iff_iff, Bool.and_eq_true, inBounds, keyIsInBounds_end]
          simp [and_comm]
        · intro k k' _ hLe hBounds
          rw [keyIsInBounds_end] at hBounds ⊢
          exact hLe.trans_lt hBounds
      · refine .inl ⟨by simp [selects, accept, hStart, hStop, hLe], _, .inr rfl, ?_⟩
        simp [call, KeyStore.scanRange, hStart, hStop, not_le.1 hLe]
    · exact .inl ⟨by simp [selects, accept, hStart, hStop], _, .inl rfl,
        by simp [call, KeyStore.scanRange, hStop]⟩
  · exact .inl ⟨by simp [selects, accept, hStart], _, .inl rfl,
      by simp [call, KeyStore.scanRange, hStart]⟩

theorem scanPrefix_cases (text : RawKey) :
    IsRefused ioFails (scanPrefix text) ∨ IsAccepted ioFails (scanPrefix text) := by
  by_cases hText : validateKey text = true
  · by_cases hType : text.type = .string ∨ text.type = .bytes
    · refine .inr ⟨fun key => decide (key.type = text.type ∧ text.data <+: key.data),
        some ⟨text, hText⟩, none, some ⟨text, hText⟩, ?_,
        by simp [call, KeyStore.scanPrefix, hText, hType], fun entries hSorted => ?_⟩
      · have hKeyType : (⟨text, hText⟩ : Key).type = .string ∨
            (⟨text, hText⟩ : Key).type = .bytes := hType
        simp only [selects, accept, hText, dif_pos, Option.bind_eq_bind, Option.bind_some]
        rw [if_pos hKeyType]
        rfl
      · rw [takeWhile_entriesFrom hSorted]
        · rw [entriesFrom, filter_filter]
          refine filter_congr fun e _ => ?_
          rw [Bool.eq_iff_iff, Bool.and_eq_true, inBounds, keyIsInBounds_prefix_eq]
          refine ⟨fun h => ?_, fun h => ?_⟩
          · exact decide_eq_true (hasPrefix_iff.1 h.1)
          · have hPrefix : hasPrefix ⟨text, hText⟩ e.1 = true :=
              hasPrefix_iff.2 (of_decide_eq_true h)
            exact ⟨hPrefix, by simpa using le_of_hasPrefix hPrefix⟩
        · intro k k' hFirst hLe hBounds
          rw [keyIsInBounds_prefix_eq] at hBounds ⊢
          exact hasPrefix_of_between (hFirst _ rfl) hLe hBounds
    · have hKeyType : ¬((⟨text, hText⟩ : Key).type = .string ∨
          (⟨text, hText⟩ : Key).type = .bytes) := hType
      refine .inl ⟨?_, _, .inl rfl, by simp [call, KeyStore.scanPrefix, hType]⟩
      simp only [selects, accept, hText, dif_pos, Option.bind_eq_bind, Option.bind_some]
      rw [if_neg hKeyType]
  · exact .inl ⟨by simp [selects, accept, hText], _, .inl rfl,
      by simp [call, KeyStore.scanPrefix, hText]⟩

theorem call_cases (request : ScanRequest) :
    IsRefused ioFails request ∨ IsAccepted ioFails request := by
  cases request with
  | scan =>
    refine .inr ⟨_, none, none, none, rfl, rfl, fun entries hSorted => ?_⟩
    exact takeWhile_entriesFrom hSorted fun _ _ _ => rfl
  | scanFrom start => exact scanFrom_cases start
  | scanRange start stop => exact scanRange_cases start stop
  | scanPrefix text => exact scanPrefix_cases text

end ScanRequest

/-- Any of the four scans, over a tree with the given entries, iterated any number of times.
Bounds that are not accepted are refused. Otherwise, when no read fails, the scan shows exactly
the entries it is to select, in key order and each once, and then the end for ever. When reads
fail, either the scan is not opened or the calls that do read still show these entries in
turn. -/
theorem scan_shows_selected (ioFails : Nat → Bool) (request : ScanRequest) (count : Nat)
    (s : TreeState) (entries : List (Key × Value)) (hHolds : Holds s entries) :
    (entries.map Prod.fst).Pairwise (· < ·) ∧
      ∃ seen s', request.iterate (decodedEnv ioFails) ⟨true⟩ count s = .ok seen s' ∧
        s'.refs = s.refs ∧
        (request.selects = none → seen = (.invalidKey, []) ∨ seen = (.invalidRange, [])) ∧
        ∀ selected, request.selects = some selected →
          (¬Faulty ioFails → seen = (.success, (KeyStoreCursor.display.showing
            (entries.filter fun e => selected e.1) (count + 1)).take (count + 1))) ∧
          Scanned ioFails (entries.filter fun e => selected e.1) count seen := by
  obtain ⟨tree, free, hRep, hSound, rfl⟩ := hHolds
  have hSorted : ((treeEntries tree).map Prod.fst).Pairwise (· < ·) := by
    cases tree with
    | none => exact List.Pairwise.nil
    | some tree => exact (hSound tree rfl).1.sorted_entries
  refine ⟨hSorted, ?_⟩
  rcases request.call_cases with ⟨hNone, status, hStatus, hCall⟩ |
    ⟨selected, start, exclusiveEnd, requiredPrefix, hSelects, hCall, hWanted⟩
  · refine ⟨(status, []), s, ?_, rfl, fun _ => ?_, fun _ hSome => ?_⟩
    · rw [ScanRequest.iterate, hCall]
      rfl
    · rcases hStatus with rfl | rfl
      · exact .inl rfl
      · exact .inr rfl
    · rw [hNone] at hSome
      exact absurd hSome (by simp)
  · obtain ⟨seen, s', hRun, hPins, hScanned⟩ :=
      exists_ok_of_wp (iterate_spec (s := s) ⟨⟨free, hRep⟩, hSound⟩ hCall)
    rw [hWanted _ hSorted] at hScanned
    refine ⟨seen, s', hRun, hPins.refs, fun hNone => ?_, fun selected' hSome => ?_⟩
    · rw [hSelects] at hNone
      exact absurd hNone (by simp)
    obtain rfl : selected = selected' := Option.some.inj (hSelects.symm.trans hSome)
    refine ⟨fun hNoFault => ?_, hScanned⟩
    obtain ⟨hStatus, hLength, hShows⟩ := hScanned.resolve_right fun h => hNoFault h.2
    rw [← hLength, ← hShows.eq_take hNoFault, ← hStatus]

section Mixed

/-- A number, three strings and a byte string, in their order. -/
def mixedEntries : List (Key × Value) :=
  [(KeyCodec.makeUint64 7, ValueCodec.makeBool true),
    (KeyCodec.makeString [97] (by decide), ValueCodec.makeBool true),
    (KeyCodec.makeString [97, 98] (by decide), ValueCodec.makeBool false),
    (KeyCodec.makeString [98] (by decide), ValueCodec.makeBool true),
    (KeyCodec.makeBytes [97] (by decide), ValueCodec.makeBool true)]

def mixedFile : PageNum → DecodedPage
  | 0 => ⟨0, .metadata ⟨0, 2, 0, 0, 1⟩⟩
  | _ => ⟨0, .leaf (.ofEntries mixedEntries)⟩

theorem mixed_spec : ∃ s : TreeState,
    openPager decodedFormat mixedFile .empty = some s ∧ Holds s mixedEntries := by
  have hRep : ∃ s, openPager decodedFormat mixedFile .empty = some s ∧
      Represents s (some ⟨0, SearchTree.leaf 1 mixedEntries⟩) [] :=
    ⟨_, rfl, ⟨rfl, by decide, rfl, rfl, trivial⟩, ⟨by decide, by decide⟩, rfl,
      fun _ h => by cases h; rfl⟩
  obtain ⟨s, hOpen, hRep⟩ := hRep
  refine ⟨s, hOpen, _, [], hRep, (sound_iff hRep).2 ?_, rfl⟩
  rintro _ ⟨⟩
  exact ⟨SearchTree.wellOrdered_leaf.2 (by decide +kernel), by decide, fun h => absurd rfl h,
    trivial⟩

/-- The strings with a common beginning, between a number and another string. -/
theorem scan_shows_mixed : ∃ s : TreeState,
    openPager decodedFormat mixedFile .empty = some s ∧
      ∃ s', (ScanRequest.scanPrefix ⟨.string, 1, [97]⟩).iterate (decodedEnv fun _ => false)
        ⟨true⟩ 3 s = .ok (.success,
          [KeyStoreCursor.display.entry
              (KeyCodec.makeString [97] (by decide), ValueCodec.makeBool true),
            KeyStoreCursor.display.entry
              (KeyCodec.makeString [97, 98] (by decide), ValueCodec.makeBool false),
            KeyStoreCursor.display.ended, KeyStoreCursor.display.ended]) s' := by
  obtain ⟨s, hOpen, hHolds⟩ := mixed_spec
  obtain ⟨-, seen, s', hRun, -, -, hSeen⟩ := scan_shows_selected (fun _ => false)
    (.scanPrefix ⟨.string, 1, [97]⟩) 3 s _ hHolds
  refine ⟨s, hOpen, s', ?_⟩
  rw [hRun, (hSeen _ rfl).1 (by simp [Faulty])]
  rfl

end Mixed

end Requests

end Stoneleaf
