import Stoneleaf.Encoding.Crc32c
import Stoneleaf.Storage.PageFormat

/-!
The bytes of a page: a header of twenty-four bytes with a checksum over the whole page, and a
payload whose meaning depends on the kind of the page.
-/

namespace Stoneleaf

open Library

namespace V2PageKind

/-- The kind that a number on disk stands for. -/
def ofCode : Nat → Option V2PageKind
  | 1 => some databaseMetadata
  | 2 => some freelist
  | 3 => some btreeInternal
  | 4 => some btreeLeaf
  | _ => none

end V2PageKind

inductive V2PageCodecResult where
  | success
  | invalidSize
  | invalidMagic
  | invalidPageKind
  | checksumMismatch
deriving DecidableEq, Repr

namespace V2PageCodec

def pageSize : Nat := 4096

def pageNumOffset : Nat := 4

def pageChecksumOffset : Nat := 16

def pageKindOffset : Nat := 20

/-- The letters `SLPG`. -/
def pageMagic : List UInt8 :=
  [0x53, 0x4C, 0x50, 0x47]

/-- `get_u32_be` at an offset of a page. -/
def getU32 (page : List UInt8) (offset : Nat) : UInt32 :=
  .ofNat (ofBigEndian ((page.drop offset).take 4))

def pageNum (page : List UInt8) : UInt32 :=
  getU32 page pageNumOffset

/-- The kind of a page, if its code names one. -/
def pageKind (page : List UInt8) : Option V2PageKind :=
  V2PageKind.ofCode (getU32 page pageKindOffset).toNat

/-- The checksum of a page is that of its bytes with a zero checksum field. -/
def computeChecksum (page : List UInt8) : UInt32 :=
  crc32c (page.take pageChecksumOffset ++ bigEndian 4 0 ++ page.drop (pageChecksumOffset + 4))

def validateStructure (page : List UInt8) : V2PageCodecResult :=
  if page.length ≠ pageSize then .invalidSize
  else if page.take 4 ≠ pageMagic then .invalidMagic
  else if pageKind page = none then .invalidPageKind
  else .success

def validate (page : List UInt8) : V2PageCodecResult :=
  if validateStructure page ≠ .success then validateStructure page
  else if getU32 page pageChecksumOffset ≠ computeChecksum page then .checksumMismatch
  else .success

end V2PageCodec

/-- The fixed array of bytes that holds a page. -/
structure PageImage where
  bytes : List UInt8
  size : bytes.length = V2PageCodec.pageSize
deriving DecidableEq

end Stoneleaf
