import Stoneleaf.BTree.Merge

/-!
Ordered cursors over the tree. Leaves are not linked to each other: a cursor keeps the path to
its leaf, and finds the next one by climbing until a page has a child further to the right and
then going down to the left. Only the current leaf stays pinned. A cursor takes no latches; it
relies on mutations being refused while it is registered.
-/

namespace Stoneleaf

open Library Program

inductive BTreeCursorStatus where
  | success
  | endOfTree
  | notPositioned
  | closed
  | failedToRead
deriving DecidableEq, Repr

/-- The members of a cursor. The current leaf is `none` where the source has a null pointer,
and the path lists the parent of the leaf first, as the path of a descent does. -/
structure BTreeCursor where
  currentLeaf : Option PageNum
  currentKeyIdx : Nat
  path : List TraversalPathEntry
  positioned : Bool
  exhausted : Bool
  closed : Bool
deriving DecidableEq, Repr

structure BTreeCursorResult where
  status : BTreeCursorStatus
  entry : Option (Key × Value)
deriving DecidableEq

variable {P : Type} (env : PagerEnv P)

section Descent

/-- The loop of `descend_from_root_to_leaf` when it is called without an operation, so that
no page is latched. -/
def descendUnlatchedLoop (key : Key) :
    Nat → PageNum → List TraversalPathEntry → Op P (Except BTreeStatus LeafDescent)
  | 0, _, _ => halt
  | fuel + 1, curr, path => do
    let page ← decodeInternal env curr
    let (target, pivotIdx, childDir) := page.childFor key
    let child ← orHalt target
    if ← get env child then
      let childType ← peekPageType env child
      unrefPage curr
      let path := ⟨curr, pivotIdx, childDir⟩ :: path
      if childType = .leaf then return .ok ⟨child, path, false⟩
      else descendUnlatchedLoop key fuel child path
    else
      unrefPage curr
      return .error .failedToRead

/-- `descend_from_root_to_leaf` without an operation. -/
def descendUnlatched (key : Key) : Op P (Except BTreeStatus LeafDescent) := do
  match ← getBtreeRoot env with
  | .emptyBTree => return .error .emptyTree
  | .failed => return .error .failedToGetRoot
  | .root root =>
    if (← peekPageType env root) = .leaf then return .ok ⟨root, [], false⟩
    else
      let pageCount := (← read fun s => s.dbHeader).dbPageCount
      descendUnlatchedLoop env key pageCount root []

end Descent

namespace BTreeCursor

/-- `open_cursor`: registered at once, and not positioned yet. -/
def openCursor : Op P BTreeCursor := do
  modify fun s => { s with activeCursorCount := s.activeCursorCount + 1 }
  return ⟨none, 0, [], false, false, false⟩

/-- The pager never refuses to drop a pin of an open database, so the status of
`release_current_leaf` is always success. -/
def releaseCurrentLeaf (cursor : BTreeCursor) : Op P BTreeCursor := do
  match cursor.currentLeaf with
  | some leaf => unrefPage leaf
  | none => pure ()
  return { cursor with currentLeaf := none, currentKeyIdx := 0, path := [], positioned := false }

/-- Take over the pin of a page and stand on one of its entries. A page that cannot be stood
on is given back. -/
def positionOnLeaf (cursor : BTreeCursor) (leafPageNum : PageNum) (keyIdx : Nat)
    (newPath : List TraversalPathEntry) : Op P (BTreeCursorStatus × BTreeCursor) := do
  if cursor.closed then
    unrefPage leafPageNum
    return (.closed, cursor)
  else if (← peekPageType env leafPageNum) ≠ .leaf then
    unrefPage leafPageNum
    return (.failedToRead, cursor)
  else
    let leaf ← decodeLeaf env leafPageNum
    if keyIdx ≥ leaf.getKeyCount then
      unrefPage leafPageNum
      return (.endOfTree, cursor)
    else
      let released ← releaseCurrentLeaf cursor
      return (.success, { released with
          currentLeaf := some leafPageNum
          currentKeyIdx := keyIdx
          path := newPath
          positioned := true })

/-- The loop of `descend_to_leftmost_leaf`, from a page that is pinned already. -/
def leftmostLoop (cursor : BTreeCursor) :
    Nat → PageNum → List TraversalPathEntry → Op P (BTreeCursorStatus × BTreeCursor)
  | 0, _, _ => halt
  | fuel + 1, curr, newPath => do
    if (← peekPageType env curr) = .internal then
      let page ← decodeInternal env curr
      match page.getLeftmostChild with
      | none =>
        unrefPage curr
        return (.failedToRead, cursor)
      | some child =>
        if ← get env child then
          unrefPage curr
          leftmostLoop cursor fuel child (⟨curr, 0, .left⟩ :: newPath)
        else
          unrefPage curr
          return (.failedToRead, cursor)
    else
      let leaf ← decodeLeaf env curr
      if leaf.getKeyCount = 0 then
        unrefPage curr
        return (.endOfTree, cursor)
      else positionOnLeaf env cursor curr 0 newPath

def descendToLeftmostLeaf (cursor : BTreeCursor) (subtreePageNum : PageNum)
    (newPath : List TraversalPathEntry) : Op P (BTreeCursorStatus × BTreeCursor) := do
  if cursor.closed then return (.closed, cursor)
  else if ← get env subtreePageNum then
    let pageCount := (← read fun s => s.dbHeader).dbPageCount
    leftmostLoop env cursor pageCount subtreePageNum newPath
  else return (.failedToRead, cursor)

/-- The loop of `move_to_next_leaf` over a copy of the path. The cursor itself moves only when
the whole way to the next leaf has been found. -/
def climb (cursor : BTreeCursor) :
    List TraversalPathEntry → Op P (BTreeCursorStatus × BTreeCursor)
  | [] => do
    let released ← releaseCurrentLeaf cursor
    return (.endOfTree, released)
  | entry :: candidatePath => do
    if ← get env entry.parentPageNum then
      if (← peekPageType env entry.parentPageNum) ≠ .internal then
        unrefPage entry.parentPageNum
        return (.failedToRead, cursor)
      else
        let parent ← decodeInternal env entry.parentPageNum
        let childIdx := entry.childIdx
        if childIdx > parent.getKeyCount then
          unrefPage entry.parentPageNum
          return (.failedToRead, cursor)
        else if childIdx < parent.getKeyCount then
          match parent.getRightChild childIdx with
          | none =>
            unrefPage entry.parentPageNum
            return (.failedToRead, cursor)
          | some nextSubtree =>
            unrefPage entry.parentPageNum
            descendToLeftmostLeaf env cursor nextSubtree
              (⟨entry.parentPageNum, childIdx, .right⟩ :: candidatePath)
        else
          unrefPage entry.parentPageNum
          climb cursor candidatePath
    else return (.failedToRead, cursor)

def moveToNextLeaf (cursor : BTreeCursor) : Op P (BTreeCursorStatus × BTreeCursor) := do
  if cursor.closed then return (.closed, cursor)
  else if ¬cursor.positioned then return (.notPositioned, cursor)
  else climb env cursor cursor.path

/-- The end of the tree is remembered. -/
def exhaustedAtEnd (status : BTreeCursorStatus) (cursor : BTreeCursor) : BTreeCursor :=
  if status = .endOfTree then { cursor with exhausted := true } else cursor

def seekFirst (cursor : BTreeCursor) : Op P (BTreeCursorStatus × BTreeCursor) := do
  if cursor.closed then return (.closed, cursor)
  else
    let released ← releaseCurrentLeaf cursor
    let cursor := { released with exhausted := false }
    match ← getBtreeRoot env with
    | .emptyBTree => return (.endOfTree, { cursor with exhausted := true })
    | .failed => return (.failedToRead, cursor)
    | .root root =>
      if (← peekPageType env root) = .leaf then
        let (status, cursor) ← positionOnLeaf env cursor root 0 []
        return (status, exhaustedAtEnd status cursor)
      else
        -- The helper pins the root once more; the first pin goes afterwards.
        let (status, cursor) ← descendToLeftmostLeaf env cursor root []
        unrefPage root
        return (status, exhaustedAtEnd status cursor)

/-- The part of `seek` after its descent: the first entry of the leaf from the target on, or
else the first entry of the next leaf. -/
def seekInLeaf (cursor : BTreeCursor) (target : Key) (descent : LeafDescent) :
    Op P (BTreeCursorStatus × BTreeCursor) := do
  let leaf ← decodeLeaf env descent.leafPageNum
  let keyIdx := lowerBoundKey leaf.keys target
  if keyIdx < leaf.getKeyCount then
    positionOnLeaf env cursor descent.leafPageNum keyIdx descent.path
  else if leaf.getKeyCount = 0 then
    unrefPage descent.leafPageNum
    return (.endOfTree, { cursor with exhausted := true })
  else
    -- The last key of the leaf serves as an anchor only.
    let (anchor, cursor) ←
      positionOnLeaf env cursor descent.leafPageNum (leaf.getKeyCount - 1) descent.path
    if anchor ≠ .success then return (anchor, cursor)
    else
      let (moved, cursor) ← moveToNextLeaf env cursor
      if moved = .endOfTree then return (moved, { cursor with exhausted := true })
      else if moved ≠ .success then
        let released ← releaseCurrentLeaf cursor
        return (moved, released)
      else return (moved, cursor)

/-- A failed seek leaves the cursor unpositioned. -/
def seek (cursor : BTreeCursor) (target : Key) : Op P (BTreeCursorStatus × BTreeCursor) := do
  if cursor.closed then return (.closed, cursor)
  else
    let released ← releaseCurrentLeaf cursor
    let cursor := { released with exhausted := false }
    match ← descendUnlatched env target with
    | .error .emptyTree => return (.endOfTree, { cursor with exhausted := true })
    | .error _ => return (.failedToRead, cursor)
    | .ok descent => seekInLeaf env cursor target descent

def next (cursor : BTreeCursor) : Op P (BTreeCursorStatus × BTreeCursor) := do
  if cursor.closed then return (.closed, cursor)
  else if cursor.exhausted then return (.endOfTree, cursor)
  else
    match cursor.positioned, cursor.currentLeaf with
    | true, some leafPageNum =>
      let leaf ← decodeLeaf env leafPageNum
      if cursor.currentKeyIdx + 1 < leaf.getKeyCount then
        return (.success, { cursor with currentKeyIdx := cursor.currentKeyIdx + 1 })
      else
        let (status, cursor) ← moveToNextLeaf env cursor
        return (status, exhaustedAtEnd status cursor)
    | true, none => halt
    | false, _ => return (.notPositioned, cursor)

def current (cursor : BTreeCursor) : Op P BTreeCursorResult := do
  if cursor.closed then return ⟨.closed, none⟩
  else if cursor.exhausted then return ⟨.endOfTree, none⟩
  else
    match cursor.positioned, cursor.currentLeaf with
    | true, some leafPageNum =>
      let leaf ← decodeLeaf env leafPageNum
      match leaf.keyAt cursor.currentKeyIdx, leaf.getAt cursor.currentKeyIdx with
      | some key, some value => return ⟨.success, some (key, value)⟩
      | _, _ => return ⟨.failedToRead, none⟩
    | _, _ => return ⟨.notPositioned, none⟩

def valid (cursor : BTreeCursor) : Bool :=
  !cursor.closed && !cursor.exhausted && cursor.positioned && cursor.currentLeaf.isSome

/-- `close`, also made by the destructor. Every registration is given back exactly once. -/
def close (cursor : BTreeCursor) : Op P BTreeCursor := do
  if cursor.closed then return cursor
  else
    let released ← releaseCurrentLeaf cursor
    if (← read fun s => s.activeCursorCount) = 0 then halt
    else
      modify fun s => { s with activeCursorCount := s.activeCursorCount - 1 }
      return { released with exhausted := false, closed := true }

end BTreeCursor

end Stoneleaf
