import Mathlib.Logic.Function.Basic
import Stoneleaf.Library.Program
import Stoneleaf.Storage.PageFormat

/-!
The pager as seen by one tree operation. A page has one logical content: its resident frame,
or its image in the database file when no frame is resident, so loading and evicting pages do
not appear. A pager call that reads, writes or places a page may fail for reasons of its
environment; which calls do is part of `PagerEnv`, by position in the sequence of calls.
Page numbers are natural numbers, without the 32-bit limit.
-/

namespace Stoneleaf

open Library Program Function

inductive PageLatchMode where
  | shared
  | exclusive
deriving DecidableEq, Repr

/-- Status codes other than success, which is the `ok` outcome of a program. The last one
stands for an exception that leaves the operation. -/
inductive BTreeStatus where
  | failedToOpenDB
  | failedToCloseDB
  | keyNotInTree
  | emptyTree
  | failedToGetRoot
  | failedToRead
  | failedToInsert
  | failedToRemove
  | failedToAllocateNewPage
  | cursorActive
  | failedToFlush
  | exception
deriving DecidableEq, Repr

/-- The page format in use, and which pager calls fail. -/
structure PagerEnv (P : Type) where
  format : PageFormat P
  ioFails : Nat → Bool

/-- One `write_back`: the page object and the frame it left, if it stayed inside the frame. -/
structure WriteBack (P : Type) where
  node : PageNode
  image : Option P

/-- The state a tree operation works on: pager, held latches and pending action. The list of
write-backs only observes; nothing reads it. -/
structure OpState (P : Type) where
  pages : PageNum → P
  walPending : PageNum → Bool
  refs : PageNum → Int
  dbHeader : DBHeader
  latches : PageNum → Option PageLatchMode
  effects : List (PageEffect P)
  wal : Wal P
  storagePoisoned : Bool
  activeCursorCount : Nat
  calls : Nat
  writeBacks : List (WriteBack P)

/-- The state on pages that are read as their decoded vectors. -/
abbrev TreeState : Type :=
  OpState DecodedPage

abbrev Op (P : Type) : Type → Type :=
  Program (OpState P) BTreeStatus

section Latches

variable {P : Type}

def latchMode (pageNum : PageNum) : Op P (Option PageLatchMode) :=
  read fun s => s.latches pageNum

def lockShared (pageNum : PageNum) : Op P Unit :=
  modify fun s =>
    if (s.latches pageNum).isSome then s
    else { s with latches := update s.latches pageNum (some .shared) }

/-- A held shared latch cannot be promoted. -/
def lockExclusive (pageNum : PageNum) : Op P Unit := do
  if (← latchMode pageNum) = some .shared then fail .exception
  modify fun s =>
    { s with latches := update s.latches pageNum (some .exclusive) }

def release (pageNum : PageNum) : Op P Unit :=
  modify fun s => { s with latches := update s.latches pageNum none }

def releaseAllExclusiveExcept (pageNum : PageNum) : Op P Unit :=
  modify fun s =>
    { s with latches := fun n =>
        if n ≠ pageNum ∧ s.latches n = some .exclusive then none else s.latches n }

def releaseAll : Op P Unit :=
  modify fun s => { s with latches := fun _ => none }

end Latches

section Frames

variable {P : Type} (env : PagerEnv P)

/-- Whether the next pager call fails. -/
def ioFault : Op P Bool := fun s =>
  .ok (env.ioFails s.calls) { s with calls := s.calls + 1 }

def frame (pageNum : PageNum) : Op P P :=
  read fun s => s.pages pageNum

def setFrame (pageNum : PageNum) (page : P) : Op P Unit :=
  modify fun s => { s with pages := update s.pages pageNum page }

/-- Drop one pin of a page. -/
@[simps -fullyApplied latches dbHeader]
def OpState.unref (pageNum : PageNum) (s : OpState P) : OpState P :=
  { s with refs := update s.refs pageNum (s.refs pageNum - 1) }

def unrefPage (pageNum : PageNum) : Op P Unit :=
  modify (OpState.unref pageNum)

/-- `Pager::get`: whether the page was found; a found page is pinned once more. -/
def get (pageNum : PageNum) : Op P Bool := do
  let header ← read fun s => s.dbHeader
  if pageNum = 0 ∨ pageNum ≥ header.dbPageCount then return false
  if ← ioFault env then return false
  modify fun s =>
    { s with refs := update s.refs pageNum (s.refs pageNum + 1) }
  return true

inductive RootResult where
  | emptyBTree
  | failed
  | root (pageNum : PageNum)

def getBtreeRoot : Op P RootResult := do
  let header ← read fun s => s.dbHeader
  if header.btreeRootPageNum = 0 then return .emptyBTree
  if ← get env header.btreeRootPageNum then return .root header.btreeRootPageNum
  return .failed

/-- `mark_loaded_page_wal_pending`: only under an exclusive latch. -/
def markWalPending (pageNum : PageNum) : Op P Bool := do
  if (← latchMode pageNum) ≠ some .exclusive then return false
  modify fun s => { s with walPending := update s.walPending pageNum true }
  return true

/-- Every caller holds a pin on the page, so the lookup before the marking always hits. -/
def beginWalWrite (pageNum : PageNum) : Op P Bool :=
  markWalPending pageNum

/-- `page_effect`: the frame as it stands. -/
def pageEffect (kind : PageEffectKind) (pageNum : PageNum) : Op P (PageEffect P) :=
  read fun s => ⟨kind, pageNum, s.pages pageNum⟩

/-- Store a changed header in memory and in the frame of page zero. -/
def setDbHeader (header : DBHeader) : Op P Unit :=
  modify fun s =>
    { s with
      dbHeader := header
      pages := update s.pages 0 (env.format.serializeHeader header (s.pages 0)) }

/-- What taking a page from the freelist and giving one back have in common: the neighbour of the
page on the list is latched, the pages are marked, and the neighbour gets another back link. -/
def openFreelist (pageNum neighbour prev : PageNum) : Op P Bool := do
  if neighbour ≠ 0 then lockExclusive neighbour
  if ← ioFault env then return false
  if ¬(← markWalPending 0) then return false
  if ¬(← markWalPending pageNum) then return false
  if neighbour ≠ 0 then
    if ¬(← markWalPending neighbour) then return false
    let page ← frame neighbour
    setFrame neighbour
      (env.format.writeFreelistLinks (env.format.readFreelistLinks page).1 prev page)
  return true

/-- The effects on the header, on the neighbour if there is one, and on the page. -/
def freelistEffects (kind : PageEffectKind) (pageNum neighbour : PageNum) :
    Op P (List (PageEffect P)) := do
  let headerEffect ← pageEffect .write 0
  let neighbourEffect ← pageEffect .write neighbour
  let effect ← pageEffect kind pageNum
  return if neighbour ≠ 0 then [headerEffect, neighbourEffect, effect] else [headerEffect, effect]

/-- Take the head of the freelist for a new page. -/
def allocateFromFreelist (head : PageNum) (kind : V2PageKind) :
    Op P (Option (PageNum × List (PageEffect P))) := do
  lockExclusive head
  if ← ioFault env then return none
  let next := (env.format.readFreelistLinks (← frame head)).1
  if ¬(← openFreelist env head next 0) then return none
  let header ← read fun s => s.dbHeader
  setDbHeader env { header with
    freelistHeadPageNum := next
    freelistPageCount := header.freelistPageCount - 1 }
  setFrame head (env.format.initializePage head kind)
  modify fun s => { s with refs := update s.refs head 1 }
  return some (head, ← freelistEffects .allocate head next)

/-- Extend the database by one page. -/
def allocateNew (kind : V2PageKind) : Op P (Option (PageNum × List (PageEffect P))) := do
  let newPageNum := (← read fun s => s.dbHeader).dbPageCount
  lockExclusive newPageNum
  if ← ioFault env then return none
  if ¬(← markWalPending 0) then return none
  setFrame newPageNum (env.format.initializePage newPageNum kind)
  modify fun s =>
    { s with
      refs := update s.refs newPageNum 1
      walPending := update s.walPending newPageNum true }
  let header ← read fun s => s.dbHeader
  setDbHeader env { header with dbPageCount := header.dbPageCount + 1 }
  let headerEffect ← pageEffect .write 0
  let newEffect ← pageEffect .allocate newPageNum
  return some (newPageNum, [headerEffect, newEffect])

def allocatePage (kind : V2PageKind) : Op P (Option (PageNum × List (PageEffect P))) := do
  lockExclusive 0
  let header ← read fun s => s.dbHeader
  let head := if header.freelistPageCount > 0 then header.freelistHeadPageNum else 0
  if head ≠ 0 then allocateFromFreelist env head kind
  else allocateNew env kind

def freePage (pageNum : PageNum) : Op P (Option (List (PageEffect P))) := do
  lockExclusive 0
  lockExclusive pageNum
  let header ← read fun s => s.dbHeader
  if pageNum = 0 ∨ pageNum ≥ header.dbPageCount then return none
  let oldHead := header.freelistHeadPageNum
  if ¬(← openFreelist env pageNum oldHead pageNum) then return none
  let freed ← frame pageNum
  setFrame pageNum (env.format.writeFreelistLinks oldHead 0 freed)
  setDbHeader env { header with
    freelistHeadPageNum := pageNum
    freelistPageCount := header.freelistPageCount + 1 }
  return some (← freelistEffects .free pageNum oldHead)

def setBtreeRoot (rootPageNum : PageNum) : Op P (Option (List (PageEffect P))) := do
  lockExclusive 0
  if rootPageNum ≠ 0 then lockExclusive rootPageNum
  let header ← read fun s => s.dbHeader
  if rootPageNum ≥ header.dbPageCount ∧ rootPageNum ≠ 0 then return none
  if ← ioFault env then return none
  if ¬(← markWalPending 0) then return none
  setDbHeader env { header with btreeRootPageNum := rootPageNum }
  let headerEffect ← pageEffect .write 0
  return some [headerEffect]

def installPageLsn (pageNum : PageNum) (lsn : Lsn) : Op P Bool := do
  if lsn = 0 then return false
  if (← latchMode pageNum) ≠ some .exclusive then return false
  if ¬(← read fun s => s.walPending pageNum) then return false
  modify fun s =>
    { s with
      pages := update s.pages pageNum (env.format.installLsn lsn (s.pages pageNum))
      walPending := update s.walPending pageNum false }
  return true

end Frames

section Open

variable {P : Type} (format : PageFormat P)

def initialHeader : DBHeader where
  fileChangeCounter := 0
  dbPageCount := 1
  freelistHeadPageNum := 0
  freelistPageCount := 0
  btreeRootPageNum := 0

/-- `create_new_database_file`: a file of one page. The file has no other pages, so it does not
matter what the model says they hold. -/
def createNewDatabaseFile (pageNum : PageNum) : P :=
  if pageNum = 0 then
    format.serializeHeader initialHeader (format.initializePage 0 .databaseMetadata)
  else format.initializePage pageNum .freelist

/-- `Pager::open` of an existing file, with nothing cached, latched or marked yet. -/
def openPager (pages : PageNum → P) (wal : Wal P) : Option (OpState P) := do
  let dbHeader ← format.deserializeHeader (pages 0)
  if dbHeader.dbPageCount = 0 then none
  else some {
    pages := pages
    walPending := fun _ => false
    refs := fun _ => 0
    dbHeader := dbHeader
    latches := fun _ => none
    effects := []
    wal := wal
    storagePoisoned := false
    activeCursorCount := 0
    calls := 0
    writeBacks := [] }

end Open

section Nodes

variable {P : Type} (env : PagerEnv P)

def peekPageType (pageNum : PageNum) : Op P PageType := do
  orHalt (env.format.peekPageType (← frame pageNum))

def decodeLeaf (pageNum : PageNum) : Op P BLeafPage := do
  orHalt (env.format.decodeLeaf (← frame pageNum))

def decodeInternal (pageNum : PageNum) : Op P BInternalPage := do
  orHalt (env.format.decodeInternal (← frame pageNum))

/-- `write_back` of a page object into the frame it was decoded from. -/
def writeBack (pageNum : PageNum) (node : PageNode) : Op P Unit := do
  let image := env.format.flush node (← frame pageNum)
  modify fun s => { s with writeBacks := s.writeBacks ++ [⟨node, image⟩] }
  setFrame pageNum (← orHalt image)

/-- `record_page_effect`: add the frame as it stands to the pending action. -/
def recordPageEffect (kind : PageEffectKind) (pageNum : PageNum) : Op P Unit :=
  modify fun s =>
    { s with effects := PendingBTreeAction.addEffect s.effects ⟨kind, pageNum, s.pages pageNum⟩ }

def recordPagerEffects (effects : List (PageEffect P)) : Op P Unit :=
  modify fun s =>
    { s with effects := effects.foldl PendingBTreeAction.addEffect s.effects }

end Nodes

end Stoneleaf
