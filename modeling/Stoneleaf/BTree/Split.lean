import Stoneleaf.BTree.Descent

/-!
Repair after an insert: splitting an overfull page and inserting the promoted separator in
its parent, up to a new root.
-/

namespace Stoneleaf

open Library Program

variable {P : Type} (env : PagerEnv P)

/-- Index at which the parent takes the separator of a split child. -/
def TraversalPathEntry.splitIdx (entry : TraversalPathEntry) : Nat :=
  match entry.childDir with
  | .right => entry.separatorIndexUsed + 1
  | .left => entry.separatorIndexUsed

def handleSplittingRoot (leftChild rightChild : PageNum) (separatorKey : Key) : Op P Unit := do
  let some (newRoot, effects) ← allocatePage env .btreeInternal
    | fail .failedToAllocateNewPage
  recordPagerEffects effects
  setFrame newRoot (env.format.fillInitialInternal (← frame newRoot))
  let page ← decodeInternal env newRoot
  let some page := page.replaceLeftmostChild leftChild
    | do
      unrefPage newRoot
      fail .failedToInsert
  let some page := page.insertSeparatorAt 0 separatorKey rightChild
    | do
      unrefPage newRoot
      fail .failedToInsert
  writeBack env newRoot (.internal page)
  recordPageEffect .write newRoot
  let setRoot ← setBtreeRoot env newRoot
  unrefPage newRoot
  let some effects := setRoot
    | fail .failedToInsert
  recordPagerEffects effects

/-- Insert the promoted separator in the parent of a split page. Returns whether the parent
now holds too many separators. -/
def insertIntoParent (splitPage newPage : PageNum) (promoted : Key)
    (entry : TraversalPathEntry) : Op P Bool := do
  if ¬(← get env entry.parentPageNum) then
    unrefPage splitPage
    unrefPage newPage
    fail .failedToRead
  if ¬(← beginWalWrite entry.parentPageNum) then
    unrefPage splitPage
    unrefPage newPage
    unrefPage entry.parentPageNum
    fail .failedToInsert
  let parentPage ← decodeInternal env entry.parentPageNum
  let some parentPage := parentPage.insertSeparatorAt entry.splitIdx promoted newPage
    | do
      unrefPage entry.parentPageNum
      unrefPage splitPage
      unrefPage newPage
      fail .failedToInsert
  writeBack env entry.parentPageNum (.internal parentPage)
  recordPageEffect .write entry.parentPageNum
  unrefPage splitPage
  unrefPage newPage
  unrefPage entry.parentPageNum
  return decide (parentPage.getKeyCount > maxKeys btreeOrder)

/-- The leaf half of `propagate_splitting`, up to the promoted key. -/
def splitLeaf (splitPage : PageNum) : Op P (PageNum × Key) := do
  let page ← decodeLeaf env splitPage
  let some (newLeaf, effects) ← allocatePage env .btreeLeaf
    | do
      unrefPage splitPage
      fail .failedToAllocateNewPage
  recordPagerEffects effects
  setFrame newLeaf (env.format.fillInitialLeaf (← frame newLeaf))
  let newPage ← decodeLeaf env newLeaf
  let (page, newPage) ← orHalt (page.migrate newPage (page.getKeyCount / 2))
  writeBack env splitPage (.leaf page)
  writeBack env newLeaf (.leaf newPage)
  recordPageEffect .write splitPage
  recordPageEffect .write newLeaf
  let promoted ← orHalt (newPage.keyAt 0)
  return (newLeaf, promoted)

/-- The internal half of `propagate_splitting`, up to the promoted key. -/
def splitInternal (splitPage : PageNum) : Op P (PageNum × Key) := do
  let page ← decodeInternal env splitPage
  let some (newInternal, effects) ← allocatePage env .btreeInternal
    | do
      unrefPage splitPage
      fail .failedToAllocateNewPage
  recordPagerEffects effects
  setFrame newInternal (env.format.fillInitialInternal (← frame newInternal))
  let newPage ← decodeInternal env newInternal
  let some promoted := page.keyAt (page.getKeyCount / 2)
    | do
      unrefPage splitPage
      unrefPage newInternal
      fail .failedToInsert
  let (page, newPage) ← orHalt (page.migrate newPage (page.getKeyCount / 2))
  writeBack env splitPage (.internal page)
  writeBack env newInternal (.internal newPage)
  recordPageEffect .write splitPage
  recordPageEffect .write newInternal
  return (newInternal, promoted)

/-- Split an overfull page in two; returns the new right page and the promoted key. -/
def splitOverfull (splitPage : PageNum) : Op P (PageNum × Key) := do
  if ¬(← get env splitPage) then
    unrefPage splitPage
    fail .failedToRead
  let pageType ← peekPageType env splitPage
  if ¬(← beginWalWrite splitPage) then
    unrefPage splitPage
    fail .failedToInsert
  match pageType with
  | .leaf => splitLeaf env splitPage
  | .internal => splitInternal env splitPage

/-- Split an overfull page and repair its ancestors; the path lists the parent first. -/
def propagateSplitting : List TraversalPathEntry → PageNum → Op P Unit
  | [], splitPage => do
    let (newPage, promoted) ← splitOverfull env splitPage
    (handleSplittingRoot env splitPage newPage promoted).ensuring
      fun s => (s.unref splitPage).unref newPage
  | entry :: path, splitPage => do
    let (newPage, promoted) ← splitOverfull env splitPage
    if ← insertIntoParent env splitPage newPage promoted entry then
      propagateSplitting path entry.parentPageNum

end Stoneleaf
