import Stoneleaf.Storage.Pager

/-!
Descent from the root to the leaf that owns a key, with the latch discipline of the tree. An
optimistic pass gives up ancestor latches as soon as a child is known to stop propagation,
and asks for a pessimistic pass when the target leaf itself is not safe.
-/

namespace Stoneleaf

open Library Program

inductive ChildDirection where
  | right
  | left
deriving DecidableEq, Repr

inductive BTreeMutationType where
  | none
  | insert
  | remove
deriving DecidableEq, Repr

inductive BTreeTraversalMode where
  | optimistic
  | pessimistic
deriving DecidableEq, Repr

structure TraversalPathEntry where
  parentPageNum : PageNum
  separatorIndexUsed : Nat
  childDir : ChildDirection
deriving DecidableEq, Repr

/-- Where a descent ended. The path lists the parent of the leaf first and the root last. -/
structure LeafDescent where
  leafPageNum : PageNum
  path : List TraversalPathEntry
  requiresPessimisticRestart : Bool

namespace BLeafPage

/-- Whether the leaf holds the key. -/
def keyExists (page : BLeafPage) (key : Key) : Bool :=
  match page.keyAt (lowerBoundKey page.keys key) with
  | some existing => KeyCodec.equal existing key
  | none => false

end BLeafPage

namespace BInternalPage

/-- The child to follow for a key, and the path entry for that step. The separator index is
the pivot that was compared last. -/
def childFor (page : BInternalPage) (key : Key) : Option PageNum × Nat × ChildDirection :=
  let idx := lowerBoundKey page.keys key
  match page.keyAt idx with
  | none => (page.getRightChild (idx - 1), idx - 1, .right)
  | some separator =>
    if KeyCodec.equal separator key then (page.getRightChild idx, idx, .right)
    else (page.getLeftChild idx, idx, .left)

/-- Whether the page has a first separator and the key is not below it. -/
def firstSeparatorLe (page : BInternalPage) (key : Key) : Bool :=
  match page.keyAt 0 with
  | some first => decide (KeyCodec.compare key first ≥ 0)
  | none => false

end BInternalPage

variable {P : Type} (env : PagerEnv P)

def lockPage (mode : PageLatchMode) (pageNum : PageNum) : Op P Unit :=
  match mode with
  | .shared => lockShared pageNum
  | .exclusive => lockExclusive pageNum

/-- A shared descent holds one page at a time. -/
def releaseIfShared (mode : PageLatchMode) (pageNum : PageNum) : Op P Unit :=
  match mode with
  | .shared => release pageNum
  | .exclusive => pure ()

/-- Optimistic treatment of a root that is a leaf: whether a restart is needed. -/
def checkRootLeaf (mutation : BTreeMutationType) (key : Key) (root : PageNum) : Op P Bool := do
  match mutation with
  | .none => return false
  | .insert =>
    let page ← decodeLeaf env root
    if page.keyExists key ∨ page.getKeyCount < maxKeys btreeOrder then
      releaseAllExclusiveExcept root
      return false
    return true
  | .remove =>
    let page ← decodeLeaf env root
    if ¬page.keyExists key ∨ page.getKeyCount > 1 then
      releaseAllExclusiveExcept root
      return false
    return true

/-- Optimistic treatment of a root that is an internal page, made for inserts only. -/
def checkRootInternal (mode : PageLatchMode) (mutation : BTreeMutationType)
    (traversal : BTreeTraversalMode) (root : PageNum) : Op P Unit := do
  if mode = .exclusive ∧ mutation = .insert ∧ traversal = .optimistic then
    let page ← decodeInternal env root
    if page.getKeyCount < maxKeys btreeOrder then releaseAllExclusiveExcept root

/-- Optimistic treatment of a child reached on the way down. An unsafe leaf asks for a
restart; an unsafe internal page only keeps its ancestors latched. -/
def checkChild (mutation : BTreeMutationType) (key : Key) (childType : PageType)
    (child : PageNum) : Op P Bool := do
  match mutation, childType with
  | .none, _ => return false
  | .insert, .leaf =>
    let page ← decodeLeaf env child
    if page.keyExists key ∨ page.getKeyCount < maxKeys btreeOrder then
      releaseAllExclusiveExcept child
      return false
    return true
  | .insert, .internal =>
    let page ← decodeInternal env child
    if page.getKeyCount < maxKeys btreeOrder then releaseAllExclusiveExcept child
    return false
  | .remove, .leaf =>
    let page ← decodeLeaf env child
    if ¬page.keyExists key ∨
        (lowerBoundKey page.keys key ≠ 0 ∧ page.getKeyCount > minKeys btreeOrder) then
      releaseAllExclusiveExcept child
      return false
    return true
  | .remove, .internal =>
    let page ← decodeInternal env child
    if page.getKeyCount > minKeys btreeOrder ∧ page.firstSeparatorLe key then
      releaseAllExclusiveExcept child
    return false

/-- The optimistic checks are made on the way to a mutation only. -/
def checkIfOptimistic (mode : PageLatchMode) (traversal : BTreeTraversalMode)
    (check : Op P Bool) : Op P Bool :=
  if mode = .exclusive ∧ traversal = .optimistic then check else pure false

/-- The loop of the descent, from an internal page. A cyclic tree would loop for ever; the
budget stands for that, and is never reached in a tree with fewer levels than pages. -/
def descendLoop (key : Key) (mode : PageLatchMode) (mutation : BTreeMutationType)
    (traversal : BTreeTraversalMode) :
    Nat → PageNum → List TraversalPathEntry → Op P LeafDescent
  | 0, _, _ => halt
  | fuel + 1, curr, path => do
    let page ← decodeInternal env curr
    let (target, pivotIdx, childDir) := page.childFor key
    let child ← orHalt target
    lockPage mode child
    if ¬(← get env child) then
      unrefPage curr
      releaseIfShared mode curr
      release child
      fail .failedToRead
    let childType ← peekPageType env child
    let restart ← checkIfOptimistic mode traversal (checkChild env mutation key childType child)
    unrefPage curr
    releaseIfShared mode curr
    let path := ⟨curr, pivotIdx, childDir⟩ :: path
    if childType = .leaf then return ⟨child, path, restart⟩
    descendLoop key mode mutation traversal fuel child path

/-- `descend_from_root_to_leaf`; `none` is an empty tree. -/
def descendFromRootToLeaf (key : Key) (mode : PageLatchMode) (mutation : BTreeMutationType)
    (traversal : BTreeTraversalMode) : Op P (Option LeafDescent) := do
  lockPage mode 0
  match ← getBtreeRoot env with
  | .emptyBTree =>
    -- The first inserter keeps page zero until it has installed the root.
    if ¬(mode = .exclusive ∧ mutation = .insert) then release 0
    return none
  | .failed =>
    release 0
    fail .failedToGetRoot
  | .root root =>
    lockPage mode root
    releaseIfShared mode 0
    let rootType ← peekPageType env root
    if rootType = .leaf then
      let restart ← checkIfOptimistic mode traversal (checkRootLeaf env mutation key root)
      return some ⟨root, [], restart⟩
    checkRootInternal env mode mutation traversal root
    let pageCount := (← read fun s => s.dbHeader).dbPageCount
    let descent ← descendLoop env key mode mutation traversal pageCount root []
    return some descent

/-- The retry loop of the two mutations. A pessimistic pass never asks for a restart, so the
loop runs at most twice. -/
def descendForMutation (key : Key) (mutation : BTreeMutationType) :
    Op P (Option LeafDescent) := do
  let result ← descendFromRootToLeaf env key .exclusive mutation .optimistic
  match result with
  | none => return none
  | some descent =>
    if descent.requiresPessimisticRestart then
      unrefPage descent.leafPageNum
      releaseAll
      descendFromRootToLeaf env key .exclusive mutation .pessimistic
    else return some descent

end Stoneleaf
