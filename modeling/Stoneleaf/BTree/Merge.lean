import Stoneleaf.BTree.Descent

/-!
Repair after a delete: a page with too few keys borrows from a sibling or is merged with one,
and the loss of a separator is repaired in the parent. The leaf and the internal variants of
the source differ only in how keys move between page objects, so each pair is one definition
over a kind of page object.
-/

namespace Stoneleaf

open Library Program

variable {P : Type} (env : PagerEnv P)

/-- Index of the separator to the left of the child that was taken. -/
def TraversalPathEntry.separatorIdx (entry : TraversalPathEntry) : Nat :=
  match entry.childDir with
  | .right => entry.separatorIndexUsed
  | .left => entry.separatorIndexUsed - 1

/-- One update of the separator that names a subtree, if a parent on the path stores one. -/
def propagateSeparatorChangeUpward (newSubtreeMin : Key) : List TraversalPathEntry → Op P Unit
  | [] => pure ()
  | entry :: path =>
    if entry.childDir = .left ∧ entry.separatorIndexUsed = 0 then
      propagateSeparatorChangeUpward newSubtreeMin path
    else do
      lockExclusive entry.parentPageNum
      if ¬(← get env entry.parentPageNum) then fail .failedToRead
      if ¬(← beginWalWrite entry.parentPageNum) then
        unrefPage entry.parentPageNum
        fail .failedToRemove
      let parentPage ← decodeInternal env entry.parentPageNum
      let some parentPage := parentPage.setSeparatorKeyAt entry.separatorIdx newSubtreeMin
        | do
          unrefPage entry.parentPageNum
          fail .failedToRemove
      writeBack env entry.parentPageNum (.internal parentPage)
      recordPageEffect .write entry.parentPageNum
      unrefPage entry.parentPageNum

/-- Point the header at another root and free the old root page. -/
def replaceRoot (oldRoot newRoot : PageNum) : Op P Unit := do
  let some effects ← setBtreeRoot env newRoot
    | do
      unrefPage oldRoot
      fail .failedToRemove
  recordPagerEffects effects
  let freed ← freePage env oldRoot
  unrefPage oldRoot
  let some effects := freed
    | fail .failedToRemove
  recordPagerEffects effects

/-- A root may hold few keys, but an empty leaf root is dropped and an internal root without
separators gives way to its only child. -/
def handleRootUnderflow (root : PageNum) (rootType : PageType) : Op P Unit := do
  match rootType with
  | .leaf =>
    let page ← decodeLeaf env root
    if page.getKeyCount > 0 then unrefPage root
    else replaceRoot env root 0
  | .internal =>
    let page ← decodeInternal env root
    if page.getKeyCount > 0 then unrefPage root
    else
      match page.getLeftmostChild with
      | none =>
        unrefPage root
        fail .failedToRemove
      | some onlyChild => replaceRoot env root onlyChild

structure MergeParentContext where
  parentPageNum : PageNum
  childIdx : Nat
  rightSibling : Option PageNum
  leftSibling : Option PageNum

def TraversalPathEntry.childIdx (entry : TraversalPathEntry) : Nat :=
  match entry.childDir with
  | .right => entry.separatorIndexUsed + 1
  | .left => entry.separatorIndexUsed

def buildMergeParentContext (entry : TraversalPathEntry) (parentPage : BInternalPage) :
    MergeParentContext where
  parentPageNum := entry.parentPageNum
  childIdx := entry.childIdx
  rightSibling :=
    if entry.childIdx < parentPage.getKeyCount then parentPage.getRightChild entry.childIdx
    else none
  leftSibling :=
    if entry.childIdx > 0 then
      if entry.childIdx = 1 then parentPage.getLeftChild 0
      else parentPage.getRightChild (entry.childIdx - 2)
    else none

/-- Siblings are latched in page-number order. -/
def lockSiblings (ctx : MergeParentContext) : Op P Unit :=
  match ctx.leftSibling, ctx.rightSibling with
  | none, none => pure ()
  | some left, none => lockExclusive left
  | none, some right => lockExclusive right
  | some left, some right =>
    if left ≤ right then do
      lockExclusive left
      lockExclusive right
    else do
      lockExclusive right
      lockExclusive left

/-- The page objects after an attempt to move one key, and whether every step succeeded. -/
structure Rotation (N : Type) where
  succeeded : Bool
  current : N
  sibling : N
  parent : BInternalPage

/-- What the repair needs to know about one kind of page object. Rotations take the page
object in need, its sibling, the parent and the index of the child in the parent. Absorbing
takes the surviving page, the other one, the parent and the index of their separator. -/
structure PageObject (N : Type) where
  toNode : N → PageNode
  keyCount : N → Nat
  decode : {P : Type} → PagerEnv P → PageNum → Op P N
  rotateFromRight : N → N → BInternalPage → Nat → Rotation N
  rotateFromLeft : N → N → BInternalPage → Nat → Rotation N
  absorb : N → N → BInternalPage → Nat → Option N

namespace BLeafPage

/-- The first record of the right sibling moves to the end of the current leaf, and the
separator becomes the new first key of the sibling. -/
def rotateFromRight (current sibling : BLeafPage) (parent : BInternalPage) (childIdx : Nat) :
    Rotation BLeafPage :=
  match sibling.keyAt 0, sibling.getAt 0 with
  | some borrowedKey, some borrowedValue =>
    let current' := current.insertAt current.getKeyCount borrowedKey borrowedValue
    let sibling' := sibling.removeAt 0
    let parent' :=
      ((sibling'.getD sibling).firstKey).bind (parent.setSeparatorKeyAt childIdx)
    { succeeded := current'.isSome && sibling'.isSome && parent'.isSome
      current := current'.getD current
      sibling := sibling'.getD sibling
      parent := parent'.getD parent }
  | _, _ => ⟨false, current, sibling, parent⟩

/-- The last record of the left sibling moves to the front of the current leaf, and the
separator becomes the new first key of the current leaf. -/
def rotateFromLeft (current sibling : BLeafPage) (parent : BInternalPage) (childIdx : Nat) :
    Rotation BLeafPage :=
  let lastIdx := sibling.getKeyCount - 1
  match sibling.keyAt lastIdx, sibling.getAt lastIdx with
  | some borrowedKey, some borrowedValue =>
    let sibling' := sibling.removeAt lastIdx
    let current' := current.insertAt 0 borrowedKey borrowedValue
    let parent' :=
      ((current'.getD current).firstKey).bind (parent.setSeparatorKeyAt (childIdx - 1))
    { succeeded := sibling'.isSome && current'.isSome && parent'.isSome
      current := current'.getD current
      sibling := sibling'.getD sibling
      parent := parent'.getD parent }
  | _, _ => ⟨false, current, sibling, parent⟩

end BLeafPage

namespace BInternalPage

/-- Rotation through the parent: its separator moves down with the sibling's first child, and
the sibling's first separator moves up. -/
def rotateFromRight (current sibling parent : BInternalPage) (childIdx : Nat) :
    Rotation BInternalPage :=
  match parent.keyAt childIdx, sibling.getLeftmostChild, sibling.keyAt 0,
    sibling.getRightChild 0 with
  | some parentSep, some oldLeftmost, some newParentSep, some newLeftmost =>
    let current' := current.insertSeparatorAt current.getKeyCount parentSep oldLeftmost
    let replaced := sibling.replaceLeftmostChild newLeftmost
    let sibling' := (replaced.getD sibling).removeSeparatorAt 0
    let parent' := parent.setSeparatorKeyAt childIdx newParentSep
    { succeeded := current'.isSome && replaced.isSome && sibling'.isSome && parent'.isSome
      current := current'.getD current
      sibling := sibling'.getD (replaced.getD sibling)
      parent := parent'.getD parent }
  | _, _, _, _ => ⟨false, current, sibling, parent⟩

/-- The mirror image: the sibling's last child becomes the first child of the current page. -/
def rotateFromLeft (current sibling parent : BInternalPage) (childIdx : Nat) :
    Rotation BInternalPage :=
  let lastIdx := sibling.getKeyCount - 1
  match parent.keyAt (childIdx - 1), sibling.keyAt lastIdx, sibling.getRightChild lastIdx,
    current.getLeftmostChild with
  | some parentSep, some borrowedSep, some borrowedChild, some oldLeftmost =>
    let replaced := current.replaceLeftmostChild borrowedChild
    let current' := (replaced.getD current).insertSeparatorAt 0 parentSep oldLeftmost
    let parent' := parent.setSeparatorKeyAt (childIdx - 1) borrowedSep
    let sibling' := sibling.removeSeparatorAt lastIdx
    { succeeded := replaced.isSome && current'.isSome && parent'.isSome && sibling'.isSome
      current := current'.getD (replaced.getD current)
      sibling := sibling'.getD sibling
      parent := parent'.getD parent }
  | _, _, _, _ => ⟨false, current, sibling, parent⟩

/-- The parent separator moves down first, then everything else follows. -/
def absorb (dst src parent : BInternalPage) (separatorIdx : Nat) : Option BInternalPage := do
  let parentSep ← parent.keyAt separatorIdx
  let leftmost ← src.getLeftmostChild
  let dst ← dst.insertSeparatorAt dst.getKeyCount parentSep leftmost
  dst.drainInto src

end BInternalPage

def leafObject : PageObject BLeafPage where
  toNode := .leaf
  keyCount := BLeafPage.getKeyCount
  decode := fun env n => decodeLeaf env n
  rotateFromRight := BLeafPage.rotateFromRight
  rotateFromLeft := BLeafPage.rotateFromLeft
  absorb := fun dst src _ _ => dst.drainInto src

def internalObject : PageObject BInternalPage where
  toNode := .internal
  keyCount := BInternalPage.getKeyCount
  decode := fun env n => decodeInternal env n
  rotateFromRight := BInternalPage.rotateFromRight
  rotateFromLeft := BInternalPage.rotateFromLeft
  absorb := BInternalPage.absorb

variable {N : Type} (object : PageObject N)

/-- The pages of one repair: sibling, parent and the page in need. -/
def unrefRepair (ctx : MergeParentContext) (sibling underflow : PageNum) : Op P Unit := do
  unrefPage sibling
  unrefPage ctx.parentPageNum
  unrefPage underflow

/-- The end of either borrow: both neighbours and their parent are written. -/
def writeBorrowed (left right : PageNum) (leftNode rightNode : PageNode) (parent : BInternalPage)
    (ctx : MergeParentContext) (sibling underflow : PageNum) : Op P Unit := do
  writeBack env left leftNode
  writeBack env right rightNode
  writeBack env ctx.parentPageNum (.internal parent)
  recordPageEffect .write left
  recordPageEffect .write right
  recordPageEffect .write ctx.parentPageNum
  unrefRepair ctx sibling underflow

/-- Both borrows: `rotate` moves one key out of the sibling, and `write` puts the pages back.
Success is `none`; otherwise the page objects are handed back as they stand and the caller goes
on. -/
def borrowFrom (sibling : Option PageNum) (rotate : N → N → BInternalPage → Nat → Rotation N)
    (write : PageNum → Rotation N → Op P Unit) (current : N) (parent : BInternalPage)
    (ctx : MergeParentContext) (underflow : PageNum) : Op P (Option (N × BInternalPage)) := do
  let some n := sibling
    | return some (current, parent)
  if ¬(← get env n) then
    unrefPage ctx.parentPageNum
    unrefPage underflow
    fail .failedToRead
  let page ← object.decode env n
  if object.keyCount page ≤ minKeys btreeOrder then
    unrefPage n
    return some (current, parent)
  if ¬(← beginWalWrite n) then
    unrefRepair ctx n underflow
    return some (current, parent)
  let moved := rotate current page parent ctx.childIdx
  if ¬moved.succeeded then
    unrefRepair ctx n underflow
    return some (moved.current, moved.parent)
  write n moved
  return none

/-- Borrow one key from the right sibling. -/
def borrowFromRight (current : N) (parent : BInternalPage) (ctx : MergeParentContext)
    (underflow : PageNum) : Op P (Option (N × BInternalPage)) :=
  borrowFrom env object ctx.rightSibling object.rotateFromRight
    (fun right moved => writeBorrowed env underflow right (object.toNode moved.current)
      (object.toNode moved.sibling) moved.parent ctx right underflow)
    current parent ctx underflow

/-- Borrow one key from the left sibling. -/
def borrowFromLeft (current : N) (parent : BInternalPage) (ctx : MergeParentContext)
    (underflow : PageNum) : Op P (Option (N × BInternalPage)) :=
  borrowFrom env object ctx.leftSibling object.rotateFromLeft
    (fun left moved => writeBorrowed env left underflow (object.toNode moved.sibling)
      (object.toNode moved.current) moved.parent ctx left underflow)
    current parent ctx underflow

/-- `finish_parent_after_merge` up to its recursive call: whether the parent now has too few
separators. -/
def finishParentAfterMerge (parent : BInternalPage) (ctx : MergeParentContext) : Op P Bool := do
  unrefPage ctx.parentPageNum
  return decide (parent.getKeyCount < minKeys btreeOrder)

/-- The end of either merge: the right page moves into the left one, which is written with the
parent, and the right page is freed. -/
def writeMerged (left right : PageNum) (dst src : N) (parent : BInternalPage)
    (separatorIdx : Nat) (ctx : MergeParentContext) (sibling underflow : PageNum) : Op P Bool := do
  let some merged := object.absorb dst src parent separatorIdx
    | do
      unrefRepair ctx sibling underflow
      fail .failedToRemove
  let some parent := parent.removeSeparatorAt separatorIdx
    | do
      unrefRepair ctx sibling underflow
      fail .failedToRemove
  writeBack env left (object.toNode merged)
  writeBack env ctx.parentPageNum (.internal parent)
  recordPageEffect .write left
  recordPageEffect .write ctx.parentPageNum
  let some effects ← freePage env right
    | do
      unrefRepair ctx sibling underflow
      fail .failedToRemove
  recordPagerEffects effects
  unrefPage sibling
  unrefPage underflow
  finishParentAfterMerge parent ctx

/-- Merge the right sibling into the current page and free the sibling. -/
def mergeWithRight (current : N) (parent : BInternalPage) (ctx : MergeParentContext)
    (underflow : PageNum) : Op P Bool := do
  let some right := ctx.rightSibling
    | fail .failedToRemove
  if ¬(← get env right) then
    unrefPage ctx.parentPageNum
    unrefPage underflow
    fail .failedToRead
  let sibling ← object.decode env right
  writeMerged env object underflow right current sibling parent ctx.childIdx ctx right underflow

/-- Merge the current page into the left sibling and free the current page. Unlike the merge
to the right, the surviving page is not yet marked for writing. -/
def mergeWithLeft (current : N) (parent : BInternalPage) (ctx : MergeParentContext)
    (underflow : PageNum) : Op P Bool := do
  let some left := ctx.leftSibling
    | fail .failedToRemove
  if ¬(← get env left) then
    unrefPage ctx.parentPageNum
    unrefPage underflow
    fail .failedToRead
  if ¬(← beginWalWrite left) then
    unrefRepair ctx left underflow
    fail .failedToRemove
  let sibling ← object.decode env left
  writeMerged env object left underflow sibling current parent (ctx.childIdx - 1) ctx left
    underflow

def borrowFromRightLeaf := borrowFromRight env leafObject

def borrowFromLeftLeaf := borrowFromLeft env leafObject

def mergeWithRightLeaf := mergeWithRight env leafObject

def mergeWithLeftLeaf := mergeWithLeft env leafObject

def borrowFromRightInternal := borrowFromRight env internalObject

def borrowFromLeftInternal := borrowFromLeft env internalObject

def mergeWithRightInternal := mergeWithRight env internalObject

def mergeWithLeftInternal := mergeWithLeft env internalObject

/-- Borrow from the right, else from the left, else merge, with the routines of one kind of
page. Returns whether the parent has too few separators afterwards; a successful borrow leaves
its count alone. -/
def repair
    (borrowRight borrowLeft : N → BInternalPage → MergeParentContext → PageNum →
      Op P (Option (N × BInternalPage)))
    (mergeRight mergeLeft : N → BInternalPage → MergeParentContext → PageNum → Op P Bool)
    (current : N) (parent : BInternalPage) (ctx : MergeParentContext) (underflow : PageNum) :
    Op P Bool := do
  match ← borrowRight current parent ctx underflow with
  | none => return false
  | some (current, parent) =>
    match ← borrowLeft current parent ctx underflow with
    | none => return false
    | some (current, parent) =>
      if ctx.rightSibling.isSome then mergeRight current parent ctx underflow
      else mergeLeft current parent ctx underflow

def repairLeaf : BLeafPage → BInternalPage → MergeParentContext → PageNum → Op P Bool :=
  repair (borrowFromRightLeaf env) (borrowFromLeftLeaf env) (mergeWithRightLeaf env)
    (mergeWithLeftLeaf env)

def repairInternal : BInternalPage → BInternalPage → MergeParentContext → PageNum → Op P Bool :=
  repair (borrowFromRightInternal env) (borrowFromLeftInternal env) (mergeWithRightInternal env)
    (mergeWithLeftInternal env)

/-- The repair of one page, by its type. -/
def repairPage (pageType : PageType) (parentPage : BInternalPage) (ctx : MergeParentContext)
    (underflow : PageNum) : Op P Bool :=
  match pageType with
  | .leaf => do repairLeaf env (← decodeLeaf env underflow) parentPage ctx underflow
  | .internal => do repairInternal env (← decodeInternal env underflow) parentPage ctx underflow

/-- Repair a page with too few keys and then its ancestors; the path lists the parent
first. -/
def propagateMerging : List TraversalPathEntry → PageNum → Op P Unit
  | [], underflow => do
    lockExclusive underflow
    if ¬(← get env underflow) then fail .failedToRead
    let underflowType ← peekPageType env underflow
    handleRootUnderflow env underflow underflowType
  | entry :: path, underflow => do
    lockExclusive underflow
    if ¬(← get env underflow) then fail .failedToRead
    let underflowType ← peekPageType env underflow
    lockExclusive entry.parentPageNum
    if ¬(← get env entry.parentPageNum) then
      unrefPage underflow
      fail .failedToRead
    if ¬(← beginWalWrite entry.parentPageNum) then
      unrefPage entry.parentPageNum
      unrefPage underflow
      fail .failedToRemove
    let parentPage ← decodeInternal env entry.parentPageNum
    let ctx := buildMergeParentContext entry parentPage
    lockSiblings ctx
    if ← repairPage env underflowType parentPage ctx underflow then
      propagateMerging path entry.parentPageNum

end Stoneleaf
