import Mathlib.Logic.Function.Basic
import Stoneleaf.Storage.PCache

/-!
The pager above its cache and the database file. Each definition is one critical section under the
pager's mutex; a call like `allocate_page` has several of them and waits for page latches in
between. A pointer to a frame is the address of the frame together with its page. Addresses are
never used twice, so a pointer denotes the resident frame of its page exactly if the addresses
agree, and any other use of a pointer is recorded as an error of its own.
-/

namespace Stoneleaf

open Library

/-- Status codes other than success. -/
inductive PagerResult where
  | dbReadFailed
  | pageCorrupt
  | pageOutOfRange
  | noEvictablePage
  | cacheSpillFailed
  | dbWriteFailed
  | dbFlushFailed
  | busy
  | pageNotCached
deriving DecidableEq, Repr

/-- How a call ends without success. The second case is the use of a frame that is gone. -/
inductive PagerError where
  | status (result : PagerResult)
  | dangling
deriving DecidableEq, Repr

structure FramePtr where
  pageNum : PageNum
  address : Nat
deriving DecidableEq, Repr

/-- The page format, the codec's checks on a page read from the file, and which of the calls on the
file and the log fail. A page that has just got its LSN has its checksum as well. -/
structure DiskEnv (P : Type) where
  format : PageFormat P
  validate : PageNum → P → Bool
  updateChecksum : P → P
  ioFails : Nat → Bool
  updateChecksum_installLsn : ∀ lsn page,
    updateChecksum (format.installLsn lsn page) = format.installLsn lsn page

structure CachedPager (P : Type) where
  cache : PCache P
  file : PageNum → P
  dbHeader : DBHeader
  walDirtyPages : List PageNum
  durableLsn : Lsn
  nextAddress : Nat
  calls : Nat

abbrev PagerOp (P : Type) : Type → Type :=
  Program (CachedPager P) PagerError

namespace CachedPager

open Program

variable {P : Type}

/-- The pager after `open`: nothing is cached. -/
def opened (file : PageNum → P) (dbHeader : DBHeader) : CachedPager P where
  cache := PCache.empty 64
  file := file
  dbHeader := dbHeader
  walDirtyPages := []
  durableLsn := 0
  nextAddress := 0
  calls := 0

/-- A call on the cache. -/
def onCache {α : Type} (x : CacheOp P α) : PagerOp P α := fun s =>
  match x s.cache with
  | .ok a cache => .ok a { s with cache := cache }
  | .fail e _ => nomatch e
  | .halt cache => .halt { s with cache := cache }

def failWith {α : Type} (result : PagerResult) : PagerOp P α :=
  fail (.status result)

/-- The resident frame that a pointer denotes. -/
def deref (ptr : FramePtr) : PagerOp P (PageFrame P) := do
  match ← read fun s => s.cache.get ptr.pageNum with
  | none => fail .dangling
  | some page => if page.address = ptr.address then return page else fail .dangling

/-- Change a frame through a pointer. -/
def change (ptr : FramePtr) (f : PageFrame P → PageFrame P) : PagerOp P Unit := do
  let _ ← deref ptr
  modify fun s => { s with cache := s.cache.update ptr.pageNum f }

section Sections

variable (env : DiskEnv P)

/-- Whether the next call on the file or the log fails. -/
def ioFault : PagerOp P Bool := fun s =>
  .ok (env.ioFails s.calls) { s with calls := s.calls + 1 }

/-- `new PageV2()`. -/
def newAddress : PagerOp P Nat := fun s =>
  .ok s.nextAddress { s with nextAddress := s.nextAddress + 1 }

def forgetPage (pageNum : PageNum) (s : CachedPager P) : CachedPager P :=
  { s with walDirtyPages := s.walDirtyPages.filter (· ≠ pageNum) }

def dropWalDirty (pageNum : PageNum) : PagerOp P Unit :=
  modify (forgetPage pageNum)

def addWalDirty (pageNum : PageNum) : PagerOp P Unit :=
  modify fun s => { s with walDirtyPages := s.walDirtyPages.insert pageNum }

def flushWalPage (pageNum : PageNum) : PagerOp P Unit := do
  match ← read fun s => s.cache.get pageNum with
  | none => dropWalDirty pageNum
  | some page =>
    if page.walPending then failWith .cacheSpillFailed
    if !page.isDirty then
      modify fun s =>
        { s with cache := s.cache.update pageNum fun page => { page with needFlushing := false } }
      dropWalDirty pageNum
    else
      let pageLsn := env.format.pageLsn page.data
      if pageLsn = 0 then failWith .cacheSpillFailed
      if ← ioFault env then failWith .dbWriteFailed
      modify fun s => { s with durableLsn := max s.durableLsn pageLsn }
      let data := env.updateChecksum page.data
      modify fun s =>
        { s with cache := s.cache.update pageNum fun page => { page with data := data } }
      if ← ioFault env then failWith .dbWriteFailed
      modify fun s =>
        { s with
          file := Function.update s.file pageNum data
          cache := s.cache.update pageNum fun page =>
            { page with isDirty := false, needFlushing := false } }
      dropWalDirty pageNum

def flushEach : List PageNum → PagerOp P Unit
  | [] => return ()
  | pageNum :: rest => do
    flushWalPage env pageNum
    flushEach rest

def flushWalPages : PagerOp P Unit := do
  flushEach env (← read walDirtyPages)
  if ← ioFault env then failWith .dbFlushFailed

def handleCacheEviction (eviction : PCacheEviction) : PagerOp P Unit := do
  if !eviction.happened || !eviction.wasDirty then return ()
  match eviction.pageNum with
  | none => return ()
  | some pageNum => dropWalDirty pageNum

/-- A `put` after which the pager gives up if it did not succeed. -/
def finishPut (result : PCachePutResult) : PagerOp P Unit := do
  match result.status with
  | .success => handleCacheEviction result.eviction
  | .noVictim => failWith .noEvictablePage
  | .walPending => failWith .noEvictablePage
  | .dirtyFlush => failWith .cacheSpillFailed
  | .removingPinnedPage => failWith .cacheSpillFailed

/-- `cache_put`: a dirty victim is flushed, and the frame is put again. -/
def cachePut (page : PageFrame P) : PagerOp P Unit := do
  let result ← onCache (PCache.put page)
  if result.status = .dirtyFlush then
    flushWalPage env (result.eviction.pageNum.getD 0)
    finishPut (← onCache (PCache.put page))
  else finishPut result

def readPageFromDisk (pageNum : PageNum) : PagerOp P (PageFrame P) := do
  if pageNum ≥ (← read dbHeader).dbPageCount then failWith .pageOutOfRange
  if ← ioFault env then failWith .dbReadFailed
  let data ← read fun s => s.file pageNum
  if !env.validate pageNum data then failWith .pageCorrupt
  return ⟨← newAddress, pageNum, data, 0, false, false, false⟩

def getOrLoadPage (pageNum : PageNum) : PagerOp P FramePtr := do
  match ← read fun s => s.cache.get pageNum with
  | some page => return ⟨pageNum, page.address⟩
  | none =>
    let page ← readPageFromDisk env pageNum
    cachePut env page
    return ⟨pageNum, page.address⟩

/-- `Pager::get`. -/
def get (pageNum : PageNum) : PagerOp P FramePtr := do
  if pageNum = 0 then halt
  if pageNum ≥ (← read dbHeader).dbPageCount then failWith .pageOutOfRange
  let ptr ← getOrLoadPage env pageNum
  let _ ← onCache (PCache.refPage pageNum)
  return ptr

/-- Only under an exclusive latch, which the operation has on the pages in `latched`. -/
def markLoadedPageWalPending (latched : List PageNum) (ptr : FramePtr) : PagerOp P Unit := do
  let page ← deref ptr
  if page.pageNum ∉ latched then failWith .busy
  change ptr fun page => { page with isDirty := true, walPending := true, needFlushing := true }
  addWalDirty page.pageNum

def beginWalWrite (latched : List PageNum) (pageNum : PageNum) : PagerOp P Unit := do
  markLoadedPageWalPending latched (← getOrLoadPage env pageNum)

def syncDbHeaderToCachedHeaderPage : PagerOp P Unit := do
  let header ← read dbHeader
  match ← read fun s => s.cache.get 0 with
  | none => halt
  | some _ =>
    modify fun s =>
      { s with cache := s.cache.update 0 fun page =>
          { page with data := env.format.serializeHeader header page.data } }

def setHeader (f : DBHeader → DBHeader) : PagerOp P Unit := do
  modify fun s => { s with dbHeader := f s.dbHeader }
  syncDbHeaderToCachedHeaderPage env

def pageEffect (kind : PageEffectKind) (ptr : FramePtr) : PagerOp P (PageEffect P) := do
  let page ← deref ptr
  return ⟨kind, page.pageNum, page.data⟩

def markSome (latched : List PageNum) : Option FramePtr → PagerOp P Unit
  | none => return ()
  | some ptr => markLoadedPageWalPending latched ptr

/-- Change the back link of a freelist page. -/
def relink (prev : PageNum) : Option FramePtr → PagerOp P Unit
  | none => return ()
  | some ptr => do
    let page ← deref ptr
    let next := (env.format.readFreelistLinks page.data).1
    change ptr fun page => { page with data := env.format.writeFreelistLinks next prev page.data }

def effectOfSome : Option FramePtr → PagerOp P (List (PageEffect P))
  | none => return []
  | some ptr => return [← pageEffect .write ptr]

/-- The part of `set_btree_root` after its latches. -/
def setBtreeRoot (rootPageNum : PageNum) : PagerOp P (List (PageEffect P)) := do
  if rootPageNum ≥ (← read dbHeader).dbPageCount ∧ rootPageNum ≠ 0 then
    failWith .pageOutOfRange
  let headerPtr ← getOrLoadPage env 0
  markLoadedPageWalPending [0, rootPageNum] headerPtr
  setHeader env fun header => { header with btreeRootPageNum := rootPageNum }
  return [← pageEffect .write headerPtr]

def installPageLsn (latched : List PageNum) (pageNum : PageNum) (lsn : Lsn) : PagerOp P Unit := do
  if lsn = 0 then failWith .pageCorrupt
  if pageNum ∉ latched then failWith .busy
  match ← read fun s => s.cache.get pageNum with
  | none => failWith .pageNotCached
  | some page =>
    if !page.walPending then failWith .cacheSpillFailed
    modify fun s =>
      { s with cache := s.cache.update pageNum fun page =>
          { page with
            data := env.format.installLsn lsn page.data
            isDirty := true
            walPending := false } }

def refPage (pageNum : PageNum) : PagerOp P Unit := do
  if pageNum = 0 then halt
  if !(← onCache (PCache.refPage pageNum)) then failWith .pageNotCached

def unrefPage (pageNum : PageNum) : PagerOp P Unit :=
  onCache (PCache.unrefPage pageNum)

/-- The part of `allocate_page` that finds the page after the head of the freelist. -/
def loadFreelistHead (head : PageNum) : PagerOp P PageNum := do
  let page ← deref (← getOrLoadPage env head)
  return (env.format.readFreelistLinks page.data).1

/-- Get the header page, a page and its neighbour on the freelist, if it has one. -/
def loadFrames (pageNum neighbour : PageNum) :
    PagerOp P (FramePtr × FramePtr × Option FramePtr) := do
  let headerPtr ← getOrLoadPage env 0
  let ptr ← getOrLoadPage env pageNum
  if neighbour ≠ 0 then return (headerPtr, ptr, some (← getOrLoadPage env neighbour))
  else return (headerPtr, ptr, none)

/-- Take the head of the freelist, once its frames are marked. -/
def takeMarked (headerPtr headPtr : FramePtr) (nextPtr : Option FramePtr) (head next : PageNum)
    (kind : V2PageKind) : PagerOp P (FramePtr × List (PageEffect P)) := do
  relink env 0 nextPtr
  setHeader env fun header =>
    { header with
      freelistHeadPageNum := next
      freelistPageCount := header.freelistPageCount - 1 }
  change headPtr fun page => { page with data := env.format.initializePage head kind }
  let page ← deref headPtr
  if page.refsNum ≠ 0 then halt
  change headPtr fun page => { page with refsNum := 1 }
  onCache (PCache.pinPage head)
  let headerEffect ← pageEffect .write headerPtr
  let nextEffect ← effectOfSome nextPtr
  let headEffect ← pageEffect .allocate headPtr
  return (headPtr, headerEffect :: nextEffect ++ [headEffect])

/-- The part of `allocate_page` that takes the head of the freelist. -/
def takeFreelistHead (head next : PageNum) (kind : V2PageKind) :
    PagerOp P (FramePtr × List (PageEffect P)) := do
  let latched := [0, head, next]
  let (headerPtr, headPtr, nextPtr) ← loadFrames env head next
  markLoadedPageWalPending latched headerPtr
  markLoadedPageWalPending latched headPtr
  markSome latched nextPtr
  takeMarked env headerPtr headPtr nextPtr head next kind

/-- Load the header page and place the frame of a new page. -/
def placeNewPage (newPageNum : PageNum) (kind : V2PageKind) : PagerOp P (FramePtr × FramePtr) := do
  let headerPtr ← getOrLoadPage env 0
  let address ← newAddress
  addWalDirty newPageNum
  (cachePut env ⟨address, newPageNum, env.format.initializePage newPageNum kind, 1,
    true, true, true⟩).onFail (forgetPage newPageNum)
  return (headerPtr, ⟨newPageNum, address⟩)

/-- Extend the database, once the frame of the new page is placed. -/
def extendPlaced (headerPtr newPtr : FramePtr) (newPageNum : PageNum) :
    PagerOp P (FramePtr × List (PageEffect P)) := do
  (markLoadedPageWalPending [0, newPageNum] headerPtr).onFail fun s =>
    let s := forgetPage newPageNum s
    { s with cache := (PCache.forceRemove newPageNum s.cache).state }
  setHeader env fun header => { header with dbPageCount := header.dbPageCount + 1 }
  let headerEffect ← pageEffect .write headerPtr
  let newEffect ← pageEffect .allocate newPtr
  return (newPtr, [headerEffect, newEffect])

/-- The part of `allocate_page` that extends the database by one page. -/
def extendDatabase (newPageNum : PageNum) (kind : V2PageKind) :
    PagerOp P (FramePtr × List (PageEffect P)) := do
  let (headerPtr, newPtr) ← placeNewPage env newPageNum kind
  extendPlaced env headerPtr newPtr newPageNum

/-- Put a page in front of the freelist, once its frames are marked. -/
def linkMarked (headerPtr freedPtr : FramePtr) (oldHeadPtr : Option FramePtr)
    (pageNum oldHead : PageNum) : PagerOp P (List (PageEffect P)) := do
  relink env pageNum oldHeadPtr
  change freedPtr fun page =>
    { page with data := env.format.writeFreelistLinks oldHead 0 page.data }
  setHeader env fun header =>
    { header with
      freelistHeadPageNum := pageNum
      freelistPageCount := header.freelistPageCount + 1 }
  let headerEffect ← pageEffect .write headerPtr
  let oldHeadEffect ← effectOfSome oldHeadPtr
  let freedEffect ← pageEffect .free freedPtr
  return headerEffect :: oldHeadEffect ++ [freedEffect]

/-- The part of `free_page` that puts a page in front of the freelist. -/
def linkFreedPage (pageNum oldHead : PageNum) : PagerOp P (List (PageEffect P)) := do
  let latched := [0, pageNum, oldHead]
  let (headerPtr, freedPtr, oldHeadPtr) ← loadFrames env pageNum oldHead
  markLoadedPageWalPending latched headerPtr
  markLoadedPageWalPending latched freedPtr
  markSome latched oldHeadPtr
  linkMarked env headerPtr freedPtr oldHeadPtr pageNum oldHead

/-- `allocate_page` after its latches, with no other call between its sections. -/
def allocatePage (kind : V2PageKind) : PagerOp P (FramePtr × List (PageEffect P)) := do
  let header ← read dbHeader
  let head := if header.freelistPageCount > 0 then header.freelistHeadPageNum else 0
  if head ≠ 0 then takeFreelistHead env head (← loadFreelistHead env head) kind
  else extendDatabase env header.dbPageCount kind

/-- `free_page` after its latches. -/
def freePage (pageNum : PageNum) : PagerOp P (List (PageEffect P)) := do
  let header ← read dbHeader
  if pageNum = 0 ∨ pageNum ≥ header.dbPageCount then failWith .pageOutOfRange
  linkFreedPage env pageNum header.freelistHeadPageNum

end Sections

end CachedPager

end Stoneleaf
