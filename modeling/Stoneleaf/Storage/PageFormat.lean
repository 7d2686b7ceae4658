import Stoneleaf.Log.WalRecord

/-!
What the tree and the pager do to a page frame, as a record of operations on an arbitrary
page type. The tree code is written once against this interface. `decodedFormat` is the
reading of pages as their decoded vectors, in which nothing is lost between writing a page
back and decoding it again. That the bytes of a page have this property is shown apart, in
`BTree.PageBytes`; the tree is not run on them.
-/

namespace Stoneleaf

inductive V2PageKind where
  | databaseMetadata
  | freelist
  | btreeInternal
  | btreeLeaf
deriving DecidableEq, Repr

inductive PageType where
  | internal
  | leaf
deriving DecidableEq, Repr

/-- The database header without its constant magic string. -/
structure DBHeader where
  fileChangeCounter : Nat
  dbPageCount : Nat
  freelistHeadPageNum : PageNum
  freelistPageCount : Nat
  btreeRootPageNum : PageNum
deriving DecidableEq, Repr

/-- A page object about to be written back. -/
inductive PageNode where
  | leaf (page : BLeafPage)
  | internal (page : BInternalPage)
deriving DecidableEq

/-- Operations on one page frame. Decoding and flushing return `none` where the source stops
the process or leaves the bounds of the frame. -/
structure PageFormat (P : Type) where
  initializePage : PageNum → V2PageKind → P
  peekPageType : P → Option PageType
  decodeLeaf : P → Option BLeafPage
  decodeInternal : P → Option BInternalPage
  flush : PageNode → P → Option P
  fillInitialLeaf : P → P
  fillInitialInternal : P → P
  readFreelistLinks : P → PageNum × PageNum
  writeFreelistLinks : PageNum → PageNum → P → P
  serializeHeader : DBHeader → P → P
  deserializeHeader : P → Option DBHeader
  pageLsn : P → Lsn
  installLsn : Lsn → P → P

/-- What a page holds besides its header fields. -/
inductive PageBody where
  | metadata (header : DBHeader)
  | freelist (next prev : PageNum)
  | blank (kind : V2PageKind)
  | leaf (page : BLeafPage)
  | internal (page : BInternalPage)
deriving DecidableEq

structure DecodedPage where
  lsn : Lsn
  body : PageBody
deriving DecidableEq

namespace DecodedPage

def peekPageType (page : DecodedPage) : Option PageType :=
  match page.body with
  | .leaf _ => some .leaf
  | .internal _ => some .internal
  | .blank .btreeLeaf => some .leaf
  | .blank .btreeInternal => some .internal
  | _ => none

/-- A blank leaf does not decode: its zeroed type byte reads as internal. -/
def decodeLeaf (page : DecodedPage) : Option BLeafPage :=
  match page.body with
  | .leaf leaf => some leaf
  | _ => none

def decodeInternal (page : DecodedPage) : Option BInternalPage :=
  match page.body with
  | .internal internal => some internal
  | .blank .btreeInternal => some ⟨[], [0]⟩
  | _ => none

/-- A page object has a decoded form when its two vectors agree in length. -/
def flush (node : PageNode) (page : DecodedPage) : Option DecodedPage :=
  match node with
  | .leaf leaf =>
    if leaf.values.length = leaf.keys.length then some { page with body := .leaf leaf } else none
  | .internal internal =>
    if internal.childPageNums.length = internal.keys.length + 1 then
      some { page with body := .internal internal } else none

def readFreelistLinks (page : DecodedPage) : PageNum × PageNum :=
  match page.body with
  | .freelist next prev => (next, prev)
  | _ => (0, 0)

def deserializeHeader (page : DecodedPage) : Option DBHeader :=
  match page.body with
  | .metadata header => some header
  | _ => none

end DecodedPage

/-- Pages read as their decoded vectors. -/
def decodedFormat : PageFormat DecodedPage where
  initializePage _ kind := ⟨0, .blank kind⟩
  peekPageType := DecodedPage.peekPageType
  decodeLeaf := DecodedPage.decodeLeaf
  decodeInternal := DecodedPage.decodeInternal
  flush := DecodedPage.flush
  fillInitialLeaf page := { page with body := .leaf ⟨[], []⟩ }
  fillInitialInternal page := { page with body := .internal ⟨[], [0]⟩ }
  readFreelistLinks := DecodedPage.readFreelistLinks
  writeFreelistLinks next prev page := { page with body := .freelist next prev }
  serializeHeader header page := { page with body := .metadata header }
  deserializeHeader := DecodedPage.deserializeHeader
  pageLsn page := page.lsn
  installLsn lsn page := { page with lsn := lsn }

end Stoneleaf
