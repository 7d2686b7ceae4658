import Stoneleaf.Encoding.Frames
import Stoneleaf.Storage.PageImage

/-!
# The bytes of a tree page

A tree page keeps its entries in cells that are packed from the end of the page, and a
directory of their offsets behind a fixed header. All offsets are 16-bit numbers counted from
the start of the payload.
-/

namespace Stoneleaf

open Library List

namespace BTreePage

def pageHeaderSize : Nat := 24

def payloadSize : Nat := 4072

def internalHeaderSize : UInt16 := 11

def leafHeaderSize : UInt16 := 7

/-- Overwrite a part of the payload. -/
def store (page : List UInt8) (offset : Nat) (bytes : List UInt8) : List UInt8 :=
  page.take (pageHeaderSize + offset) ++
    (bytes ++ page.drop (pageHeaderSize + offset + bytes.length))

/-- The payload from an offset on. -/
def load (page : List UInt8) (offset : Nat) : List UInt8 :=
  page.drop (pageHeaderSize + offset)

def getNumber (width : Nat) (page : List UInt8) (offset : Nat) : Nat :=
  ofBigEndian ((load page offset).take width)

def typeCode : PageType → Nat
  | .internal => 0
  | .leaf => 1

/-- Type, size and bytes of the key, and the child. The size is cut to 16 bits. -/
def internalCellSize (key : Key) : UInt16 :=
  .ofNat (1 + 2 + key.size + 4)

/-- Type, size and bytes of the key and of the value, cut likewise. -/
def leafCellSize (key : Key) (value : Value) : UInt16 :=
  .ofNat (1 + 2 + key.size + 1 + 2 + value.size)

/-- Type, size and data of a key or value within a cell. -/
def tagged (tag size : Nat) (data : List UInt8) : List UInt8 :=
  bigEndian 1 tag ++ (bigEndian 2 size ++ data)

def readTagged {α : Type} (check : Nat → Nat → List UInt8 → Except Unit α) : Reader Unit α := do
  let tag ← .number () 1
  let size ← .number () 2
  let data ← .bytes () size
  .ofExcept (check tag size data)

def writeKeyBytes (key : Key) : List UInt8 :=
  tagged key.type.toByte key.size key.data

/-- The errors here end the process. -/
def checkKey (tag size : Nat) (data : List UInt8) : Except Unit Key :=
  match KeyType.ofByte tag with
  | some type =>
    if h : KeyCodec.validateKey ⟨type, size, data⟩ then .ok ⟨⟨type, size, data⟩, h⟩
    else .error ()
  | none => .error ()

def parseKeyBytes : Reader Unit Key :=
  readTagged checkKey

def writeValueBytes (value : Value) : List UInt8 :=
  tagged value.type.toByte value.size value.data

def checkValue (tag size : Nat) (data : List UInt8) : Except Unit Value :=
  match ValueType.ofByte tag with
  | some type =>
    if h : ValueCodec.validateValue ⟨type, size, data⟩ then .ok ⟨⟨type, size, data⟩, h⟩
    else .error ()
  | none => .error ()

def parseLeafCell : Reader Unit (Key × Value) := do
  let key ← parseKeyBytes
  let value ← readTagged checkValue
  return (key, value)

def parseInternalCell : Reader Unit (Key × PageNum) := do
  let key ← parseKeyBytes
  let rightChildPageNum ← .number () 4
  return (key, rightChildPageNum)

/-- A cell with the size that is reserved for it. -/
abbrev Cell := UInt16 × List UInt8

def leafCell (entry : Key × Value) : Cell :=
  (leafCellSize entry.1 entry.2, writeKeyBytes entry.1 ++ writeValueBytes entry.2)

def internalCell (entry : Key × PageNum) : Cell :=
  (internalCellSize entry.1, writeKeyBytes entry.1 ++ bigEndian 4 entry.2)

/-- The loop of `flush`: each cell goes below the one before, its offset into the directory. -/
def flushCells : List Cell → UInt16 → UInt16 → List UInt8 → List UInt8
  | [], _, _, page => page
  | (cellSize, cell) :: cells, dirPtr, cellPtr, page =>
    let cellPtr := cellPtr - cellSize
    flushCells cells (dirPtr + 2) cellPtr
      (store (store page cellPtr.toNat cell) dirPtr.toNat (bigEndian 2 cellPtr.toNat))

/-- `flush`: internal pages have their leftmost child at the end of the header. -/
def flush (type : PageType) (headerSize : UInt16) (leftmost : List UInt8) (cells : List Cell)
    (page : List UInt8) : List UInt8 :=
  let page := store page 0 (List.replicate payloadSize 0)
  let page := store page 0 (bigEndian 1 (typeCode type))
  let page := store page 1 (bigEndian 2 cells.length)
  let page := store page 3 (bigEndian 2 (headerSize.toNat + cells.length * 2))
  let totalCellBytes := cells.foldl (fun total cell => total + cell.1) 0
  let page := store page 5 (bigEndian 2 (.ofNat payloadSize - totalCellBytes - 1 : UInt16).toNat)
  let page := store page 7 leftmost
  flushCells cells headerSize (.ofNat payloadSize) page

def flushLeaf (page : BLeafPage) : List UInt8 → List UInt8 :=
  flush .leaf leafHeaderSize [] ((page.keys.zip page.values).map leafCell)

/-- An internal page without a child is written out of bounds of its vector. -/
def flushInternal (page : BInternalPage) (image : List UInt8) : Option (List UInt8) :=
  match page.childPageNums with
  | [] => none
  | leftmost :: children => some (flush .internal internalHeaderSize (bigEndian 4 leftmost)
      ((page.keys.zip children).map internalCell) image)

/-- The offsets in the directory. -/
def directory (page : List UInt8) : Nat → UInt16 → List Nat
  | 0, _ => []
  | count + 1, startPtr => getNumber 2 page startPtr.toNat :: directory page count (startPtr + 2)

def decode {α : Type} (type : PageType) (headerSize : UInt16) (parse : Reader Unit α)
    (page : List UInt8) : Option (List α) :=
  if getNumber 1 page 0 ≠ typeCode type then none
  else (directory page (getNumber 2 page 1) headerSize).mapM fun cellStartOffset =>
    (parse (load page cellStartOffset)).toOption.map Prod.fst

def decodeLeaf (page : List UInt8) : Option BLeafPage :=
  (decode .leaf leafHeaderSize parseLeafCell page).map .ofEntries

def decodeInternal (page : List UInt8) : Option BInternalPage :=
  (decode .internal internalHeaderSize parseInternalCell page).map fun cells =>
    ⟨cells.map Prod.fst, getNumber 4 page 7 :: cells.map Prod.snd⟩

section Reads

variable {α : Type}

theorem reads_tagged {check : Nat → Nat → List UInt8 → Except Unit α} {tag size : Nat}
    {data : List UInt8} {a : α} (hTag : tag < 256) (hSize : size < 2 ^ 16)
    (hData : data.length = size) (hCheck : check tag size data = .ok a) :
    (readTagged check).Reads (tagged tag size data) a := by
  subst hData
  refine (Reader.Reads.number _ hTag).bind ((Reader.Reads.number _ hSize).bind ?_)
  have hLast := (Reader.Reads.bytes () data).bind
    (f := fun read => Reader.ofExcept (check tag data.length read)) (.ofExcept hCheck)
  rwa [append_nil] at hLast

theorem reads_key (key : Key) : parseKeyBytes.Reads (writeKeyBytes key) key := by
  have hSize := KeyCodec.size_le_of_validateKey key.valid
  refine reads_tagged key.type.toByte_lt (Nat.lt_succ_of_le hSize)
    (KeyCodec.size_eq_of_validateKey key.valid).symm ?_
  rw [checkKey, KeyType.ofByte_toByte]
  exact dif_pos key.valid

theorem reads_value (value : Value) :
    (readTagged checkValue).Reads (writeValueBytes value) value := by
  have hSize := ValueCodec.size_le_of_validateValue value.valid
  refine reads_tagged value.type.toByte_lt (Nat.lt_succ_of_le hSize)
    (ValueCodec.size_eq_of_validateValue value.valid).symm ?_
  rw [checkValue, ValueType.ofByte_toByte]
  exact dif_pos value.valid

theorem reads_leafCell (entry : Key × Value) : parseLeafCell.Reads (leafCell entry).2 entry :=
  (reads_key entry.1).bind ((reads_value entry.2).map _)

theorem reads_internalCell {entry : Key × PageNum} (hChild : entry.2 < 2 ^ 32) :
    parseInternalCell.Reads (internalCell entry).2 entry :=
  (reads_key entry.1).bind ((Reader.Reads.number () hChild).map _)

theorem length_writeKeyBytes (key : Key) : (writeKeyBytes key).length = 3 + key.size := by
  simp [writeKeyBytes, tagged, Key.size, Key.data, KeyCodec.size_eq_of_validateKey key.valid]
  omega

theorem length_leafCell (entry : Key × Value) :
    (leafCell entry).2.length = 1 + 2 + entry.1.size + 1 + 2 + entry.2.size := by
  simp [leafCell, length_writeKeyBytes, writeValueBytes, tagged, Value.size, Value.data,
    ValueCodec.size_eq_of_validateValue entry.2.valid]
  omega

theorem length_internalCell (entry : Key × PageNum) :
    (internalCell entry).2.length = 1 + 2 + entry.1.size + 4 := by
  simp [internalCell, length_writeKeyBytes]

end Reads

section Layout

variable {cells : List Cell} {front back : List UInt8} {k : Nat}

def cellSizes (cells : List Cell) : List Nat :=
  cells.map fun cell => cell.2.length

@[simp] theorem cellSizes_cons (cell : Cell) (cells : List Cell) :
    cellSizes (cell :: cells) = cell.2.length :: cellSizes cells := rfl

/-- The bytes that cells take, with their places in the directory. -/
def room (cells : List Cell) : Nat :=
  2 * cells.length + (cellSizes cells).sum

theorem room_cons (cell : Cell) (cells : List Cell) :
    room (cell :: cells) = cell.2.length + 2 + room cells := by
  simp only [room, cellSizes_cons, length_cons, sum_cons]
  omega

/-- The offsets of cells that are packed downwards. -/
def cellOffsets : List Cell → Nat → List Nat
  | [], _ => []
  | cell :: cells, cellPtr =>
    (cellPtr - cell.2.length) :: cellOffsets cells (cellPtr - cell.2.length)

theorem store_front {offset : Nat} {bytes : List UInt8}
    (hFront : front.length = pageHeaderSize + offset) (hBytes : bytes.length ≤ k) :
    store (front ++ (replicate k 0 ++ back)) offset bytes =
      (front ++ bytes) ++ (replicate (k - bytes.length) 0 ++ back) := by
  rw [store, ← hFront, take_left, ← drop_drop, drop_left,
    drop_append_of_le_length (by simpa using hBytes), drop_replicate, append_assoc]

theorem store_back {offset : Nat} {bytes : List UInt8} (hBytes : bytes.length ≤ k)
    (hFront : front.length + k = pageHeaderSize + offset + bytes.length) :
    store (front ++ (replicate k 0 ++ back)) offset bytes =
      front ++ (replicate (k - bytes.length) 0 ++ (bytes ++ back)) := by
  have hSplit : front ++ (replicate k 0 ++ back) =
      (front ++ replicate (k - bytes.length) 0) ++
        (replicate bytes.length 0 ++ back) := by
    rw [append_assoc, ← append_assoc (replicate _ _), replicate_append_replicate,
      Nat.sub_add_cancel hBytes]
  rw [hSplit, store_front (by simp; omega) le_rfl]
  simp

/-- The loop fills the free space of the page from both ends. -/
theorem flushCells_eq {dirPtr cellPtr : UInt16}
    (hSizes : ∀ cell ∈ cells, cell.1.toNat = cell.2.length)
    (hDir : front.length = pageHeaderSize + dirPtr.toNat)
    (hCell : front.length + k = pageHeaderSize + cellPtr.toNat) (hRoom : room cells ≤ k) :
    flushCells cells dirPtr cellPtr (front ++ (replicate k 0 ++ back)) =
      front ++ ((cellOffsets cells cellPtr.toNat).flatMap (bigEndian 2) ++
        (replicate (k - room cells) 0 ++ ((cells.map Prod.snd).reverse.flatten ++ back))) := by
  induction cells generalizing front back k dirPtr cellPtr with
  | nil => simp [flushCells, cellOffsets, room, cellSizes]
  | cons cell cells ih =>
    obtain ⟨hSize, hSizes⟩ := forall_mem_cons.1 hSizes
    rw [room_cons] at hRoom ⊢
    have hPtr : (cellPtr - cell.1).toNat = cellPtr.toNat - cell.2.length := by
      rw [UInt16.toNat_sub_of_le _ _ (UInt16.le_iff_toNat_le.2 (by omega)), hSize]
    have hNext : (dirPtr + 2).toNat = dirPtr.toNat + 2 := by
      have hBound := cellPtr.toNat_lt
      rw [UInt16.toNat_add]
      exact Nat.mod_eq_of_lt (by simp; omega)
    have hFront : ∀ n, (front ++ bigEndian 2 n).length = front.length + 2 := fun n => by simp
    have hLeft : k - cell.2.length - 2 - room cells = k - (cell.2.length + 2 + room cells) := by
      omega
    rw [flushCells, hPtr, store_back (by omega) (by omega),
      store_front hDir (by rw [length_bigEndian]; omega), length_bigEndian,
      ih hSizes (by rw [hFront]; omega) (by rw [hFront]; omega) (by omega), hPtr, hLeft]
    simp [cellOffsets]

theorem toNat_foldl_cells (hSizes : ∀ cell ∈ cells, cell.1.toNat = cell.2.length) (total : UInt16)
    (hTotal : total.toNat + room cells < 65536) :
    (cells.foldl (fun total cell => total + cell.1) total).toNat + 2 * cells.length =
      total.toNat + room cells := by
  induction cells generalizing total with
  | nil => rfl
  | cons cell cells ih =>
    obtain ⟨hSize, hSizes⟩ := forall_mem_cons.1 hSizes
    rw [room_cons] at hTotal ⊢
    have hNext : (total + cell.1).toNat = total.toNat + cell.2.length := by
      rw [UInt16.toNat_add, hSize]
      exact Nat.mod_eq_of_lt (by omega)
    have hRest := ih hSizes (total + cell.1) (by omega)
    rw [foldl_cons, length_cons]
    omega

/-- The header of a page with the given cells. -/
def header (type : PageType) (leftmost : List UInt8) (cells : List Cell) : List UInt8 :=
  bigEndian 1 (typeCode type) ++ (bigEndian 2 cells.length ++
    (bigEndian 2 (7 + leftmost.length + 2 * cells.length) ++
      (bigEndian 2 (payloadSize + 2 * cells.length - room cells - 1) ++ leftmost)))

/-- What follows the header: directory, free space, and the cells from the last one on. -/
def body (headerSize : UInt16) (cells : List Cell) : List UInt8 :=
  (cellOffsets cells payloadSize).flatMap (bigEndian 2) ++
    (List.replicate (payloadSize - headerSize.toNat - room cells) 0 ++
      ((cells.map Prod.snd).reverse.flatten ++ []))

theorem flush_eq {type : PageType} {headerSize : UInt16} {leftmost page : List UInt8}
    (hPage : page.length = pageHeaderSize + payloadSize)
    (hHeader : headerSize.toNat = 7 + leftmost.length)
    (hSizes : ∀ cell ∈ cells, cell.1.toNat = cell.2.length)
    (hRoom : headerSize.toNat + room cells ≤ payloadSize) :
    flush type headerSize leftmost cells page =
      page.take pageHeaderSize ++ header type leftmost cells ++ body headerSize cells := by
  have hPayload : payloadSize = 4072 := rfl
  have hSize : (UInt16.ofNat payloadSize).toNat = payloadSize := rfl
  have hTotal := toNat_foldl_cells hSizes 0 (by
    rw [UInt16.toNat_zero]
    omega)
  rw [UInt16.toNat_zero, Nat.zero_add] at hTotal
  have hFree : ((.ofNat payloadSize : UInt16) - cells.foldl (fun total cell => total + cell.1) 0 -
      1).toNat = payloadSize + 2 * cells.length - room cells - 1 := by
    rw [UInt16.toNat_sub, UInt16.toNat_sub, hSize, UInt16.toNat_one]
    omega
  have hTake : (page.take pageHeaderSize).length = pageHeaderSize := by simp [hPage]
  have hHead : (page.take pageHeaderSize ++ header type leftmost cells).length =
      pageHeaderSize + headerSize.toNat := by
    simp only [header, length_append, hTake, length_bigEndian]
    omega
  have hClear : store page 0 (replicate payloadSize 0) =
      page.take pageHeaderSize ++ (replicate payloadSize 0 ++ []) := by
    rw [store, length_replicate, Nat.add_zero, ← hPage, drop_length]
  unfold flush
  dsimp only
  rw [hClear, store_front hTake (by simp [payloadSize]),
    store_front (by simp [hTake]) (by simp [payloadSize]),
    store_front (by simp [hTake]) (by simp [payloadSize]),
    store_front (by simp [hTake]) (by simp [payloadSize]),
    store_front (by simp [hTake]) (by simp only [length_bigEndian]; omega), hFree]
  simp only [length_bigEndian]
  have hRest : payloadSize - 1 - 2 - 2 - 2 - leftmost.length = payloadSize - headerSize.toNat := by
    omega
  have hFront : page.take pageHeaderSize ++ bigEndian 1 (typeCode type) ++
      bigEndian 2 cells.length ++ bigEndian 2 (headerSize.toNat + cells.length * 2) ++
      bigEndian 2 (payloadSize + 2 * cells.length - room cells - 1) ++ leftmost =
      page.take pageHeaderSize ++ header type leftmost cells := by
    simp [header, hHeader, Nat.mul_comm]
  rw [hRest, hFront, flushCells_eq hSizes hHead (by rw [hHead]; omega) (by omega)]
  rfl

theorem getNumber_eq {width n offset : Nat} {rest : List UInt8}
    (hFront : front.length = pageHeaderSize + offset) (hn : n < 256 ^ width) :
    getNumber width (front ++ (bigEndian width n ++ rest)) offset = n := by
  rw [getNumber, load, ← hFront, drop_left, take_left' (length_bigEndian _ _),
    ofBigEndian_bigEndian, Nat.mod_eq_of_lt hn]

theorem directory_eq {offsets : List Nat} {rest : List UInt8} {startPtr : UInt16}
    (hFront : front.length = pageHeaderSize + startPtr.toNat)
    (hOffsets : ∀ n ∈ offsets, n < 256 ^ 2)
    (hPtr : startPtr.toNat + 2 * offsets.length < 65536) :
    directory (front ++ (offsets.flatMap (bigEndian 2) ++ rest)) offsets.length startPtr =
      offsets := by
  induction offsets generalizing front startPtr with
  | nil => rfl
  | cons n offsets ih =>
    obtain ⟨hn, hOffsets⟩ := forall_mem_cons.1 hOffsets
    rw [length_cons] at hPtr
    have hNext : (startPtr + 2).toNat = startPtr.toNat + 2 := by
      rw [UInt16.toNat_add]
      exact Nat.mod_eq_of_lt (by simp; omega)
    have hMoved : (front ++ bigEndian 2 n).length = pageHeaderSize + (startPtr + 2).toNat := by
      rw [length_append, length_bigEndian]
      omega
    have hRest := ih hMoved hOffsets (by omega)
    rw [append_assoc] at hRest
    rw [flatMap_cons, append_assoc, length_cons, directory, hRest, getNumber_eq hFront hn]

theorem mapM_cells {α : Type} {parse : Reader Unit α} {cell : α → Cell} {values : List α}
    {cellPtr : Nat} (hParse : ∀ a ∈ values, parse.Reads (cell a).2 a)
    (hHeader : pageHeaderSize ≤ front.length)
    (hFront : front.length + (cellSizes (values.map cell)).sum = pageHeaderSize + cellPtr) :
    (cellOffsets (values.map cell) cellPtr).mapM (fun offset =>
      (parse (load (front ++ (((values.map cell).map Prod.snd).reverse.flatten ++ back))
        offset)).toOption.map Prod.fst) = some values := by
  induction values generalizing back cellPtr with
  | nil => rfl
  | cons a values ih =>
    obtain ⟨hFirst, hParse⟩ := forall_mem_cons.1 hParse
    simp only [map_cons, cellSizes_cons, sum_cons] at hFront
    have hRest := @ih ((cell a).2 ++ back) (cellPtr - (cell a).2.length) hParse (by omega)
    have hSplit : front ++ (((a :: values).map cell).map Prod.snd).reverse.flatten ++ back =
        front ++ (((values.map cell).map Prod.snd).reverse.flatten ++ ((cell a).2 ++ back)) := by
      simp
    rw [← append_assoc, hSplit, map_cons, cellOffsets, mapM_cons, hRest]
    have hLoad : load (front ++ (((values.map cell).map Prod.snd).reverse.flatten ++
        ((cell a).2 ++ back))) (cellPtr - (cell a).2.length) = (cell a).2 ++ back := by
      rw [load, ← append_assoc]
      refine drop_left' ?_
      rw [length_append, length_flatten, map_reverse, sum_reverse, map_map]
      change front.length + (cellSizes (values.map cell)).sum = _
      omega
    rw [hLoad, hFirst back]
    rfl

/-- No two cells share a byte, and all of them lie within the given bounds. -/
theorem cellOffsets_apart (cells : List Cell) (cellPtr : Nat)
    (hSum : (cellSizes cells).sum ≤ cellPtr) :
    ((cellOffsets cells cellPtr).zip (cellSizes cells)).Pairwise
        (fun a b => b.1 + b.2 ≤ a.1) ∧
      ∀ c ∈ (cellOffsets cells cellPtr).zip (cellSizes cells),
        cellPtr - (cellSizes cells).sum ≤ c.1 ∧ c.1 + c.2 ≤ cellPtr := by
  induction cells generalizing cellPtr with
  | nil => simp [cellOffsets]
  | cons cell cells ih =>
    rw [cellSizes_cons, sum_cons] at hSum ⊢
    obtain ⟨hApart, hBounds⟩ := ih (cellPtr - cell.2.length) (by omega)
    rw [cellOffsets, zip_cons_cons]
    refine ⟨pairwise_cons.2 ⟨fun c hc => (hBounds c hc).2, hApart⟩, fun c hc => ?_⟩
    rcases mem_cons.1 hc with rfl | hc
    · exact ⟨by dsimp only; omega, by dsimp only; omega⟩
    · have hRest := hBounds c hc
      omega

theorem length_cellOffsets (cells : List Cell) (cellPtr : Nat) :
    (cellOffsets cells cellPtr).length = cells.length := by
  induction cells generalizing cellPtr with
  | nil => rfl
  | cons cell cells ih => exact congrArg Nat.succ (ih _)

theorem cellOffsets_le {cellPtr : Nat} : ∀ n ∈ cellOffsets cells cellPtr, n ≤ cellPtr := by
  induction cells generalizing cellPtr with
  | nil => exact fun n hn => absurd hn not_mem_nil
  | cons cell cells ih =>
    refine forall_mem_cons.2 ⟨Nat.sub_le _ _, fun n hn => ?_⟩
    exact (ih n hn).trans (Nat.sub_le _ _)

/-- Header and directory end where the free region starts, and it ends below the cells, which
do not overlap. -/
structure Laid (headerSize : UInt16) (cells : List Cell) (page : List UInt8) : Prop where
  freeStart : getNumber 2 page 3 = headerSize.toNat + 2 * cells.length
  free : headerSize.toNat + 2 * cells.length ≤ getNumber 2 page 5 + 1
  bounds : ∀ c ∈ (directory page cells.length headerSize).zip (cellSizes cells),
    getNumber 2 page 5 < c.1 ∧ c.1 + c.2 ≤ payloadSize
  apart : ((directory page cells.length headerSize).zip (cellSizes cells)).Pairwise fun a b =>
    b.1 + b.2 ≤ a.1

theorem header_fields (type : PageType) (leftmost rest : List UInt8)
    (hFront : front.length = pageHeaderSize)
    (hRoom : 7 + leftmost.length + room cells ≤ payloadSize) :
    getNumber 1 (front ++ header type leftmost cells ++ rest) 0 = typeCode type ∧
      getNumber 2 (front ++ header type leftmost cells ++ rest) 1 = cells.length ∧
      getNumber 2 (front ++ header type leftmost cells ++ rest) 3 =
        7 + leftmost.length + 2 * cells.length ∧
      getNumber 2 (front ++ header type leftmost cells ++ rest) 5 =
        payloadSize + 2 * cells.length - room cells - 1 ∧
      (load (front ++ header type leftmost cells ++ rest) 7).take leftmost.length = leftmost := by
  have hCells : room cells = 2 * cells.length + _ := rfl
  have hPayload : payloadSize = 4072 := rfl
  simp only [header, append_assoc]
  refine ⟨getNumber_eq hFront (by cases type <;> decide), ?_, ?_, ?_, ?_⟩
  · rw [← append_assoc]
    exact getNumber_eq (by simp [hFront]) (by omega)
  · rw [← append_assoc, ← append_assoc]
    exact getNumber_eq (by simp [hFront]) (by omega)
  · rw [← append_assoc, ← append_assoc, ← append_assoc]
    exact getNumber_eq (by simp [hFront]) (by omega)
  · rw [← append_assoc, ← append_assoc, ← append_assoc, ← append_assoc, load,
      drop_left' (by simp [hFront]), take_left]

end Layout

section RoundTrip

variable {type : PageType} {headerSize : UInt16} {leftmost page : List UInt8} {cells : List Cell}
  (hPage : page.length = pageHeaderSize + payloadSize)
  (hHeader : headerSize.toNat = 7 + leftmost.length)
  (hSizes : ∀ cell ∈ cells, cell.1.toNat = cell.2.length)
  (hRoom : headerSize.toNat + room cells ≤ payloadSize)

include hPage hHeader hSizes hRoom

variable (type) in
theorem directory_flush :
    directory (flush type headerSize leftmost cells page) cells.length headerSize =
      cellOffsets cells payloadSize := by
  have hPayload : payloadSize = 4072 := rfl
  have hFront : (page.take pageHeaderSize ++ header type leftmost cells).length =
      pageHeaderSize + headerSize.toNat := by
    simp only [header, length_append, length_take_of_le (hPage ▸ Nat.le_add_right _ _),
      length_bigEndian]
    omega
  rw [flush_eq hPage hHeader hSizes hRoom, ← length_cellOffsets cells payloadSize]
  refine directory_eq hFront (fun n hn => (cellOffsets_le n hn).trans_lt (by decide)) ?_
  rw [length_cellOffsets]
  rw [room] at hRoom
  omega

theorem laid_flush : Laid headerSize cells (flush type headerSize leftmost cells page) := by
  have hPayload : payloadSize = 4072 := rfl
  obtain ⟨-, -, hStart, hEnd, -⟩ := header_fields type leftmost
    (body headerSize cells) (page.length_take_of_le (hPage ▸ Nat.le_add_right _ _))
    (hHeader ▸ hRoom)
  rw [← flush_eq hPage hHeader hSizes hRoom] at hStart hEnd
  have hDirectory := directory_flush type hPage hHeader hSizes hRoom
  rw [room] at hRoom hEnd
  obtain ⟨hApart, hBounds⟩ := cellOffsets_apart cells payloadSize (by omega)
  refine ⟨hStart.trans (by rw [hHeader]), ?_, fun c hc => ?_, ?_⟩
  · omega
  · rw [hDirectory] at hc
    have hBound := hBounds c hc
    omega
  · rwa [hDirectory]

theorem take_flush : (flush type headerSize leftmost cells page).take pageHeaderSize =
    page.take pageHeaderSize := by
  rw [flush_eq hPage hHeader hSizes hRoom, append_assoc,
    take_left' (page.length_take_of_le (hPage ▸ Nat.le_add_right _ _))]

variable (type leftmost) in
theorem leftmost_flush :
    (load (flush type headerSize leftmost cells page) 7).take leftmost.length = leftmost := by
  rw [flush_eq hPage hHeader hSizes hRoom]
  exact (header_fields _ _ _ (page.length_take_of_le (hPage ▸ Nat.le_add_right _ _))
    (hHeader ▸ hRoom)).2.2.2.2

omit hPage hHeader hSizes hRoom

theorem decode_flush {α : Type} {parse : Reader Unit α} {cell : α → Cell} {values : List α}
    (hPage : page.length = pageHeaderSize + payloadSize)
    (hHeader : headerSize.toNat = 7 + leftmost.length)
    (hSizes : ∀ c ∈ values.map cell, c.1.toNat = c.2.length)
    (hRoom : headerSize.toNat + room (values.map cell) ≤ payloadSize)
    (hParse : ∀ a ∈ values, parse.Reads (cell a).2 a) :
    decode type headerSize parse (flush type headerSize leftmost (values.map cell) page) =
      some values := by
  obtain ⟨hType, hCount, -⟩ := header_fields type leftmost
    (body headerSize (values.map cell))
    (page.length_take_of_le (hPage ▸ Nat.le_add_right _ _)) (hHeader ▸ hRoom)
  rw [← flush_eq hPage hHeader hSizes hRoom] at hType hCount
  rw [decode, hType, hCount, directory_flush type hPage hHeader hSizes hRoom,
    if_neg (not_not_intro rfl), flush_eq hPage hHeader hSizes hRoom, body, ← append_assoc,
    ← append_assoc]
  refine mapM_cells hParse ?_ ?_
  · simp [hPage, header]
  · simp only [header, length_append, length_flatMap, length_bigEndian,
      length_replicate, page.length_take_of_le (hPage ▸ Nat.le_add_right _ _),
      map_const', sum_replicate_nat, length_cellOffsets]
    rw [room] at hRoom ⊢
    omega

theorem le_room {cells : List Cell} : ∀ cell ∈ cells, cell.2.length ≤ room cells := by
  induction cells with
  | nil => exact fun cell hCell => absurd hCell not_mem_nil
  | cons first cells ih =>
    rw [room_cons]
    refine forall_mem_cons.2 ⟨by omega, fun cell hCell => ?_⟩
    have hLe := ih cell hCell
    omega

/-- The reserved size of a cell that fits is the number of its bytes. -/
theorem toNat_ofNat_length {n : Nat} {cell : Cell} {cells : List Cell} (hLength : cell.2.length = n)
    (hCell : cell ∈ cells) (hRoom : room cells ≤ payloadSize) :
    (UInt16.ofNat n).toNat = cell.2.length := by
  have hLe := le_room cell hCell
  have hPayload : payloadSize = 4072 := rfl
  rw [hLength, UInt16.toNat_ofNat_of_lt']
  rw [UInt16.size]
  omega

/-- In a sorted page the search finds the first key that is not below the given one. -/
theorem lowerBoundKey_le_iff {keys : List Key} (hSorted : keys.Pairwise (· ≤ ·)) (key : Key) :
    lowerBoundKey keys key ≤ keys.length ∧
      ∀ i k, keys[i]? = some k → (lowerBoundKey keys key ≤ i ↔ key ≤ k) := by
  obtain ⟨before, after, rfl, hBefore, hAfter⟩ := exists_split_of_pairwise_le keys hSorted key
  rw [lowerBoundKey_append hBefore hAfter]
  refine ⟨by simp, fun i k hk => ?_⟩
  rcases lt_or_ge i before.length with hLt | hGe
  · rw [getElem?_append_left hLt] at hk
    exact iff_of_false (Nat.not_le.2 hLt) (not_le.2 (hBefore k (mem_of_getElem? hk)))
  · rw [getElem?_append_right hGe] at hk
    exact iff_of_true hGe (hAfter k (mem_of_getElem? hk))

/-- The cell of a separator with the child to its right. -/
def childCell (entry : Key × UInt32) : Cell :=
  internalCell (entry.1, entry.2.toNat)

/-- Writing a page back and decoding it gives what was written, for leaves and internal pages
whose cells fit. -/
theorem page_round_trip (image : PageImage) :
    (∀ entries : List (Key × Value),
      leafHeaderSize.toNat + room (entries.map leafCell) ≤ payloadSize →
      decodeLeaf (flushLeaf (.ofEntries entries) image.bytes) = some (.ofEntries entries) ∧
        Laid leafHeaderSize (entries.map leafCell) (flushLeaf (.ofEntries entries) image.bytes) ∧
        (flushLeaf (.ofEntries entries) image.bytes).take pageHeaderSize =
          image.bytes.take pageHeaderSize) ∧
    (∀ (leftmost : UInt32) (entries : List (Key × UInt32)),
      internalHeaderSize.toNat + room (entries.map childCell) ≤ payloadSize →
      ∃ page, flushInternal ⟨entries.map Prod.fst, leftmost.toNat :: entries.map (·.2.toNat)⟩
          image.bytes = some page ∧ decodeInternal page =
          some ⟨entries.map Prod.fst, leftmost.toNat :: entries.map (·.2.toNat)⟩ ∧
        Laid internalHeaderSize (entries.map childCell) page ∧
        page.take pageHeaderSize = image.bytes.take pageHeaderSize) ∧
    ∀ keys : List Key, keys.Pairwise (· ≤ ·) → ∀ key,
      lowerBoundKey keys key ≤ keys.length ∧
        ∀ i k, keys[i]? = some k → (lowerBoundKey keys key ≤ i ↔ key ≤ k) := by
  refine ⟨fun entries hFits => ?_, fun leftmost entries hFits => ?_,
    fun keys => lowerBoundKey_le_iff⟩
  · have hSizes : ∀ cell ∈ entries.map leafCell, cell.1.toNat = cell.2.length := by
      intro cell hCell
      obtain ⟨entry, -, rfl⟩ := mem_map.1 hCell
      exact toNat_ofNat_length (length_leafCell entry) hCell (by omega)
    have hFlush : flushLeaf (.ofEntries entries) =
        flush .leaf leafHeaderSize [] (entries.map leafCell) := by
      rw [flushLeaf, BLeafPage.ofEntries, zip_map', map_map]
      rfl
    rw [hFlush]
    refine ⟨?_, laid_flush image.size rfl hSizes hFits, take_flush image.size rfl hSizes hFits⟩
    rw [decodeLeaf, decode_flush image.size rfl hSizes hFits fun e _ => reads_leafCell e]
    rfl
  · have hCells : ((entries.map Prod.fst).zip (entries.map (·.2.toNat))).map internalCell =
        entries.map childCell := by
      rw [zip_map', map_map]
      rfl
    have hSizes : ∀ cell ∈ entries.map childCell, cell.1.toNat = cell.2.length := by
      intro cell hCell
      obtain ⟨entry, -, rfl⟩ := mem_map.1 hCell
      exact toNat_ofNat_length (length_internalCell _) hCell (by omega)
    have hLeftmost :=
      leftmost_flush .internal (bigEndian 4 leftmost.toNat) image.size rfl hSizes hFits
    rw [length_bigEndian] at hLeftmost
    refine ⟨_, rfl, ?_, ?_, ?_⟩
    · rw [hCells, decodeInternal, getNumber, hLeftmost, ofBigEndian_bigEndian,
        Nat.mod_eq_of_lt (show leftmost.toNat < 256 ^ 4 from leftmost.toNat_lt), ← hCells]
      rw [← hCells] at hSizes hFits
      rw [decode_flush image.size rfl hSizes hFits, Option.map_some, zip_map', map_map, map_map]
      · rfl
      · intro entry hEntry
        rw [zip_map'] at hEntry
        obtain ⟨e, -, rfl⟩ := mem_map.1 hEntry
        exact reads_internalCell e.2.toNat_lt
    · rw [hCells]
      exact laid_flush image.size rfl hSizes hFits
    · rw [hCells]
      exact take_flush image.size rfl hSizes hFits

end RoundTrip

end BTreePage

end Stoneleaf
