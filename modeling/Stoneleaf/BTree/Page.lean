import Stoneleaf.Library.Bisection
import Stoneleaf.Library.ListCut
import Stoneleaf.Encoding.KeyCodec
import Stoneleaf.Encoding.ValueCodec

/-!
Decoded B+ tree pages: the vectors that a page object holds between decoding a frame and
writing it back. An operation that returns `false` in the source returns `none` here and
leaves the page object alone. Counts are not truncated to 16 bits: a page never holds more
than two siblings together.
-/

namespace Stoneleaf

open Library List

/-- A `uint32_t` in the source, without that limit here. -/
abbrev PageNum := Nat

def btreeOrder : Nat := 200

def maxKeys (order : Nat) : Nat := order - 1

def minKeys (order : Nat) : Nat := (order + 1) / 2 - 1

@[simp] theorem maxKeys_btreeOrder : maxKeys btreeOrder = 199 := rfl

@[simp] theorem minKeys_btreeOrder : minKeys btreeOrder = 99 := rfl

/-- Index of the first key that is not below the given one. -/
def lowerBoundKey (keys : List Key) (key : Key) : Nat :=
  bisect (fun k => decide (KeyCodec.compare k key < 0)) keys

variable {key : Key}

theorem lowerBoundKey_append {before after : List Key} (hBefore : ∀ k ∈ before, k < key)
    (hAfter : ∀ k ∈ after, key ≤ k) :
    lowerBoundKey (before ++ after) key = before.length := by
  apply bisect_append
  · simpa using hBefore
  · simpa using hAfter

structure BLeafPage where
  keys : List Key
  values : List Value
deriving DecidableEq

namespace BLeafPage

def getKeyCount (page : BLeafPage) : Nat :=
  page.keys.length

def keyAt (page : BLeafPage) (idx : Nat) : Option Key :=
  page.keys[idx]?

def firstKey (page : BLeafPage) : Option Key :=
  page.keys[0]?

def getAt (page : BLeafPage) (idx : Nat) : Option Value :=
  if idx ≥ page.values.length then none
  else if page.values.length ≠ page.keys.length then none
  else page.values[idx]?

def get (page : BLeafPage) (key : Key) : Option Value :=
  let idx := lowerBoundKey page.keys key
  match page.keys[idx]? with
  | none => none
  | some found => if KeyCodec.equal found key then page.values[idx]? else none

def insertAt (page : BLeafPage) (idx : Nat) (key : Key) (value : Value) : Option BLeafPage :=
  if idx > page.keys.length then none
  else some ⟨page.keys.insertIdx idx key, page.values.insertIdx idx value⟩

def removeAt (page : BLeafPage) (idx : Nat) : Option BLeafPage :=
  if idx ≥ page.keys.length then none
  else if page.values.length ≠ page.keys.length then none
  else some ⟨page.keys.eraseIdx idx, page.values.eraseIdx idx⟩

def set (page : BLeafPage) (key : Key) (value : Value) : Option BLeafPage :=
  let idx := lowerBoundKey page.keys key
  match page.keys[idx]? with
  | none => none
  | some found =>
    if KeyCodec.equal found key then some ⟨page.keys, page.values.set idx value⟩ else none

/-- The loop of `migrate_leaf`: entries from the split index on move to the end of the
destination. The moved value is looked up by key, not by position. -/
def migrateLoop (separatorIdx : Nat) : Nat → BLeafPage → BLeafPage →
    Option (BLeafPage × BLeafPage)
  | 0, src, dst => some (src, dst)
  | fuel + 1, src, dst =>
    if src.getKeyCount > separatorIdx then do
      let moveKey ← src.keyAt separatorIdx
      let moveValue ← src.get moveKey
      let dst ← dst.insertAt dst.getKeyCount moveKey moveValue
      let src ← src.removeAt separatorIdx
      migrateLoop separatorIdx fuel src dst
    else some (src, dst)

/-- `migrate_leaf` without its two write-backs; `none` is its `std::abort`. -/
def migrate (src dst : BLeafPage) (separatorIdx : Nat) : Option (BLeafPage × BLeafPage) :=
  migrateLoop separatorIdx src.getKeyCount src dst

/-- The loop of the two leaf merges: the front entry of the source moves to the end of the
destination until the source is empty. -/
def drainLoop : Nat → BLeafPage → BLeafPage → Option BLeafPage
  | 0, dst, _ => some dst
  | fuel + 1, dst, src =>
    if src.getKeyCount > 0 then do
      let moveKey ← src.keyAt 0
      let moveValue ← src.getAt 0
      let dst ← dst.insertAt dst.getKeyCount moveKey moveValue
      let src ← src.removeAt 0
      drainLoop fuel dst src
    else some dst

def drainInto (dst src : BLeafPage) : Option BLeafPage :=
  drainLoop src.getKeyCount dst src

/-- The leaf whose vectors list the given pairs. -/
def ofEntries (entries : List (Key × Value)) : BLeafPage :=
  ⟨entries.map Prod.fst, entries.map Prod.snd⟩

section OfEntries

variable (before after entries : List (Key × Value)) (e : Key × Value)
  {before after : List (Key × Value)} {a b : List (Key × Value)} {idx : Nat}

@[simp] theorem keys_ofEntries : (ofEntries entries).keys = entries.map Prod.fst := rfl

@[simp] theorem getKeyCount_ofEntries : (ofEntries entries).getKeyCount = entries.length := by
  simp [getKeyCount, ofEntries]

@[simp] theorem keyAt_ofEntries (idx : Nat) :
    (ofEntries entries).keyAt idx = (entries[idx]?).map Prod.fst := by
  simp [keyAt, ofEntries]

@[simp] theorem firstKey_ofEntries :
    (ofEntries entries).firstKey = (entries[0]?).map Prod.fst := by
  simp [firstKey, ofEntries]

@[simp] theorem getAt_ofEntries (idx : Nat) :
    (ofEntries entries).getAt idx = (entries[idx]?).map Prod.snd := by
  by_cases h : idx < entries.length
  · simp [getAt, ofEntries, h]
  · have hLe : entries.length ≤ idx := Nat.le_of_not_lt h
    simp [getAt, ofEntries, hLe]

theorem insertAt_ofEntries (h : idx = a.length) (key : Key) (value : Value) :
    (ofEntries (a ++ b)).insertAt idx key value =
      some (ofEntries (a ++ (key, value) :: b)) := by
  have hKeys : idx = (a.map Prod.fst).length := by simpa using h
  have hValues : idx = (a.map Prod.snd).length := by simpa using h
  simp only [insertAt, ofEntries, map_append, map_cons, insertIdx_cut hKeys, insertIdx_cut hValues]
  simp [h]

theorem insertAt_end_ofEntries (key : Key) (value : Value) :
    (ofEntries entries).insertAt entries.length key value =
      some (ofEntries (entries ++ [(key, value)])) := by
  simpa using insertAt_ofEntries (a := entries) (b := []) rfl key value

theorem removeAt_ofEntries {e : Key × Value} (h : idx = a.length) :
    (ofEntries (a ++ e :: b)).removeAt idx = some (ofEntries (a ++ b)) := by
  have hKeys : idx = (a.map Prod.fst).length := by simpa using h
  have hValues : idx = (a.map Prod.snd).length := by simpa using h
  simp only [removeAt, ofEntries, map_append, map_cons, eraseIdx_cut hKeys, eraseIdx_cut hValues]
  simp [h]

/-- In a sorted leaf the search for a key stops where the key is or would be. -/
theorem lowerBoundKey_ofEntries (hBefore : ∀ e ∈ before, e.1 < key)
    (hAfter : ∀ e ∈ after, key ≤ e.1) :
    lowerBoundKey (ofEntries (before ++ after)).keys key = before.length := by
  have hKeys : ∀ k ∈ before.map Prod.fst, k < key := by simpa using hBefore
  have hRest : ∀ k ∈ after.map Prod.fst, key ≤ k := by simpa using hAfter
  simpa using lowerBoundKey_append hKeys hRest

theorem get_ofEntries {value : Value} (hBefore : ∀ e ∈ before, e.1 < key)
    (hAfter : ∀ e ∈ after, key < e.1) :
    (ofEntries (before ++ (key, value) :: after)).get key = some value := by
  have hIdx : lowerBoundKey (ofEntries (before ++ (key, value) :: after)).keys key =
      before.length := by
    refine lowerBoundKey_ofEntries hBefore ?_
    rintro e (_ | ⟨_, he⟩)
    · exact le_rfl
    · exact (hAfter e he).le
  unfold get
  rw [hIdx]
  simp [ofEntries]

theorem set_ofEntries {old : Value} (hBefore : ∀ e ∈ before, e.1 < key)
    (hAfter : ∀ e ∈ after, key < e.1) (value : Value) :
    (ofEntries (before ++ (key, old) :: after)).set key value =
      some (ofEntries (before ++ (key, value) :: after)) := by
  have hIdx : lowerBoundKey (ofEntries (before ++ (key, old) :: after)).keys key =
      before.length := by
    refine lowerBoundKey_ofEntries hBefore ?_
    rintro e (_ | ⟨_, he⟩)
    · exact le_rfl
    · exact (hAfter e he).le
  have hValues : before.length = (before.map Prod.snd).length := by simp
  unfold set
  rw [hIdx]
  simp [ofEntries, set_cut hValues]

/-- Migration splits a sorted leaf at the given position. -/
theorem migrateLoop_ofEntries {kept : List (Key × Value)} :
    ∀ (moved dst : List (Key × Value)) (fuel : Nat),
      ((kept ++ moved).map Prod.fst).Pairwise (· < ·) → moved.length ≤ fuel →
      migrateLoop kept.length fuel (ofEntries (kept ++ moved)) (ofEntries dst) =
        some (ofEntries kept, ofEntries (dst ++ moved)) := by
  intro moved
  induction moved with
  | nil =>
    intro dst fuel _ _
    cases fuel <;> simp [migrateLoop]
  | cons e moved ih =>
    intro dst fuel hSorted hFuel
    cases fuel with
    | zero => simp at hFuel
    | succ fuel =>
      rw [map_append, map_cons, pairwise_append, pairwise_cons] at hSorted
      obtain ⟨hKept, ⟨hHead, hMoved⟩, hCross⟩ := hSorted
      have hBefore : ∀ x ∈ kept, x.1 < e.1 := fun x hx =>
        hCross x.1 (mem_map_of_mem hx) e.1 (by simp)
      have hAfter : ∀ x ∈ moved, e.1 < x.1 := fun x hx =>
        hHead x.1 (mem_map_of_mem hx)
      have hGet : (ofEntries (kept ++ e :: moved)).get e.1 = some e.2 :=
        get_ofEntries hBefore hAfter
      have hRest : ((kept ++ moved).map Prod.fst).Pairwise (· < ·) := by
        rw [map_append, pairwise_append]
        exact ⟨hKept, hMoved, fun a ha b hb => hCross a ha b (mem_cons_of_mem _ hb)⟩
      have hNext := ih (dst ++ [e]) fuel hRest (by simpa using hFuel)
      simp [migrateLoop, hGet, insertAt_end_ofEntries, removeAt_ofEntries, hNext]

theorem migrate_ofEntries {kept moved dst : List (Key × Value)}
    (hSorted : ((kept ++ moved).map Prod.fst).Pairwise (· < ·)) (hIdx : idx = kept.length) :
    migrate (ofEntries (kept ++ moved)) (ofEntries dst) idx =
      some (ofEntries kept, ofEntries (dst ++ moved)) := by
  subst hIdx
  exact migrateLoop_ofEntries moved dst _ hSorted (by simp)

theorem drainLoop_ofEntries :
    ∀ (src dst : List (Key × Value)) (fuel : Nat), src.length ≤ fuel →
      drainLoop fuel (ofEntries dst) (ofEntries src) = some (ofEntries (dst ++ src)) := by
  intro src
  induction src with
  | nil =>
    intro dst fuel _
    cases fuel <;> simp [drainLoop]
  | cons e src ih =>
    intro dst fuel hFuel
    cases fuel with
    | zero => simp at hFuel
    | succ fuel =>
      have hNext := ih (dst ++ [e]) fuel (by simpa using hFuel)
      have hRemove : (ofEntries (e :: src)).removeAt 0 = some (ofEntries src) :=
        removeAt_ofEntries (a := []) rfl
      simp [drainLoop, insertAt_end_ofEntries, hRemove, hNext]

@[simp] theorem drainInto_ofEntries (dst src : List (Key × Value)) :
    drainInto (ofEntries dst) (ofEntries src) = some (ofEntries (dst ++ src)) :=
  drainLoop_ofEntries src dst _ (by simp)

end OfEntries

end BLeafPage

structure BInternalPage where
  keys : List Key
  childPageNums : List PageNum
deriving DecidableEq

namespace BInternalPage

def getKeyCount (page : BInternalPage) : Nat :=
  page.keys.length

def keyAt (page : BInternalPage) (idx : Nat) : Option Key :=
  page.keys[idx]?

def insertSeparatorAt (page : BInternalPage) (idx : Nat) (key : Key)
    (rightChildPageNum : PageNum) : Option BInternalPage :=
  if idx > page.keys.length then none
  else if page.childPageNums.length ≠ page.keys.length + 1 then none
  else some ⟨page.keys.insertIdx idx key, page.childPageNums.insertIdx (idx + 1) rightChildPageNum⟩

def removeSeparatorAt (page : BInternalPage) (idx : Nat) : Option BInternalPage :=
  if idx ≥ page.keys.length then none
  else if page.childPageNums.length ≠ page.keys.length + 1 then none
  else some ⟨page.keys.eraseIdx idx, page.childPageNums.eraseIdx (idx + 1)⟩

def setSeparatorKeyAt (page : BInternalPage) (idx : Nat) (key : Key) : Option BInternalPage :=
  if idx ≥ page.keys.length then none
  else some ⟨page.keys.set idx key, page.childPageNums⟩

/-- Succeeds only while the page has no child at all. -/
def setLeftmostChild (page : BInternalPage) (leftmostChildPageNum : PageNum) :
    Option BInternalPage :=
  if ¬page.childPageNums.isEmpty then none
  else some ⟨page.keys, page.childPageNums ++ [leftmostChildPageNum]⟩

def replaceLeftmostChild (page : BInternalPage) (leftmostChildPageNum : PageNum) :
    Option BInternalPage :=
  if page.childPageNums.isEmpty then none
  else some ⟨page.keys, page.childPageNums.set 0 leftmostChildPageNum⟩

def getLeftmostChild (page : BInternalPage) : Option PageNum :=
  page.childPageNums[0]?

def getLeftChild (page : BInternalPage) (separatorIdx : Nat) : Option PageNum :=
  if separatorIdx ≥ page.keys.length then none
  else if page.childPageNums.length ≠ page.keys.length + 1 then none
  else page.childPageNums[separatorIdx]?

def getRightChild (page : BInternalPage) (separatorIdx : Nat) : Option PageNum :=
  if separatorIdx ≥ page.keys.length then none
  else if page.childPageNums.length ≠ page.keys.length + 1 then none
  else page.childPageNums[separatorIdx + 1]?

/-- The loop of `migrate_internal`: separators after the median move to the destination. -/
def migrateLoop (medianSeparatorIdx : Nat) : Nat → BInternalPage → BInternalPage →
    Option (BInternalPage × BInternalPage)
  | 0, src, dst => some (src, dst)
  | fuel + 1, src, dst =>
    if src.getKeyCount > medianSeparatorIdx + 1 then do
      let moveKey ← src.keyAt (medianSeparatorIdx + 1)
      let moveRightChild ← src.getRightChild (medianSeparatorIdx + 1)
      let dst ← dst.insertSeparatorAt dst.getKeyCount moveKey moveRightChild
      let src ← src.removeSeparatorAt (medianSeparatorIdx + 1)
      migrateLoop medianSeparatorIdx fuel src dst
    else some (src, dst)

/-- `migrate_internal`; `none` is its `std::abort`. -/
def migrate (src dst : BInternalPage) (medianSeparatorIdx : Nat) :
    Option (BInternalPage × BInternalPage) := do
  let newLeftmostChild ← src.getRightChild medianSeparatorIdx
  let dst ← dst.setLeftmostChild newLeftmostChild
  let (src, dst) ← migrateLoop medianSeparatorIdx src.getKeyCount src dst
  let src ← src.removeSeparatorAt medianSeparatorIdx
  return (src, dst)

/-- The loop of the two internal merges: the front separator of the source moves to the end
of the destination together with its right child. -/
def drainLoop : Nat → BInternalPage → BInternalPage → Option BInternalPage
  | 0, dst, _ => some dst
  | fuel + 1, dst, src =>
    if src.getKeyCount > 0 then do
      let moveKey ← src.keyAt 0
      let moveRightChild ← src.getRightChild 0
      let dst ← dst.insertSeparatorAt dst.getKeyCount moveKey moveRightChild
      let src ←
        if src.getKeyCount > 1 then do
          let newLeftmost ← src.getRightChild 0
          src.replaceLeftmostChild newLeftmost
        else some src
      let src ← src.removeSeparatorAt 0
      drainLoop fuel dst src
    else some dst

def drainInto (dst src : BInternalPage) : Option BInternalPage :=
  drainLoop src.getKeyCount dst src

section Cut

variable {l r : List Key} {x y : List PageNum} {k k' : Key} {c d : PageNum} {idx : Nat}

theorem keyAt_cut (h : idx = l.length) :
    (⟨l ++ k :: r, x⟩ : BInternalPage).keyAt idx = some k :=
  getElem?_cut h

theorem insertSeparatorAt_cut (h : idx = l.length) (hBefore : x.length = l.length)
    (hAfter : y.length = r.length) :
    (⟨l ++ r, x ++ c :: y⟩ : BInternalPage).insertSeparatorAt
        idx k d =
      some ⟨l ++ k :: r, x ++ c :: d :: y⟩ := by
  have hChild : idx + 1 = (x ++ [c]).length := by simp [h, hBefore]
  have hInsert : (x ++ c :: y).insertIdx (idx + 1) d =
      x ++ c :: d :: y := by
    simpa using insertIdx_cut (r := y) (a := d) hChild
  simp only [insertSeparatorAt, insertIdx_cut h, hInsert]
  simp [h, hBefore, hAfter, Nat.add_assoc]

theorem insertSeparatorAt_end {keys : List Key} (h : x.length = keys.length + 1) :
    (⟨keys, x⟩ : BInternalPage).insertSeparatorAt keys.length k d =
      some ⟨keys ++ [k], x ++ [d]⟩ := by
  have hKeys := insertIdx_cut (l := keys) (r := []) (a := k) rfl
  have hChildren := insertIdx_cut (l := x) (r := []) (a := d) h.symm
  simp only [append_nil] at hKeys hChildren
  simp [insertSeparatorAt, h, hKeys, hChildren]

variable (h : idx = l.length)
include h

theorem removeSeparatorAt_cut (hBefore : x.length = l.length) (hAfter : y.length = r.length) :
    (⟨l ++ k :: r, x ++ c :: d :: y⟩ : BInternalPage).removeSeparatorAt idx =
      some ⟨l ++ r, x ++ c :: y⟩ := by
  have hChild : idx + 1 = (x ++ [c]).length := by simp [h, hBefore]
  have hErase : (x ++ c :: d :: y).eraseIdx (idx + 1) =
      x ++ c :: y := by
    simpa using eraseIdx_cut (r := y) (a := d) hChild
  simp only [removeSeparatorAt, eraseIdx_cut h, hErase]
  simp [h, hBefore, hAfter, Nat.add_assoc]

theorem setSeparatorKeyAt_cut :
    (⟨l ++ k :: r, x⟩ : BInternalPage).setSeparatorKeyAt idx k' =
      some ⟨l ++ k' :: r, x⟩ := by
  simp only [setSeparatorKeyAt, set_cut h]
  simp [h]

variable (hBefore : x.length = l.length) (hAfter : y.length = r.length)
include hBefore hAfter

theorem getLeftChild_cut :
    (⟨l ++ k :: r, x ++ c :: d :: y⟩ : BInternalPage).getLeftChild idx = some c := by
  have hChild : idx = x.length := by omega
  simp only [getLeftChild, getElem?_cut hChild]
  simp [h, hBefore, hAfter, Nat.add_assoc]

theorem getRightChild_cut :
    (⟨l ++ k :: r, x ++ c :: d :: y⟩ : BInternalPage).getRightChild idx = some d := by
  have hChild : idx = x.length := by omega
  simp only [getRightChild, getElem?_cut_succ hChild]
  simp [h, hBefore, hAfter, Nat.add_assoc]

end Cut

@[simp] theorem getKeyCount_mk (keys : List Key) (children : List PageNum) :
    (⟨keys, children⟩ : BInternalPage).getKeyCount = keys.length := rfl

@[simp] theorem getLeftmostChild_mk (keys : List Key) (child : PageNum) (children : List PageNum) :
    (⟨keys, child :: children⟩ : BInternalPage).getLeftmostChild = some child := rfl

@[simp] theorem replaceLeftmostChild_mk (keys : List Key) (child child' : PageNum)
    (children : List PageNum) :
    (⟨keys, child :: children⟩ : BInternalPage).replaceLeftmostChild child' =
      some ⟨keys, child' :: children⟩ := rfl

/-- A page that already has a child never takes a new leftmost one. -/
theorem setLeftmostChild_of_ne_nil {page : BInternalPage} (h : page.childPageNums ≠ [])
    (child : PageNum) : page.setLeftmostChild child = none := by
  simp [setLeftmostChild, h]

/-- Migration into a page that already has a child cannot complete. -/
theorem migrate_of_ne_nil {src dst : BInternalPage} (h : dst.childPageNums ≠ [])
    (medianSeparatorIdx : Nat) : migrate src dst medianSeparatorIdx = none := by
  cases hChild : src.getRightChild medianSeparatorIdx with
  | none => simp [migrate, hChild]
  | some child => simp [migrate, hChild, setLeftmostChild_of_ne_nil h]

theorem drainLoop_mk :
    ∀ (srcKeys : List Key) (srcChildren : List PageNum) (first : PageNum) (dstKeys : List Key)
      (dstChildren : List PageNum) (fuel : Nat), srcChildren.length = srcKeys.length →
      dstChildren.length = dstKeys.length + 1 → srcKeys.length ≤ fuel →
      drainLoop fuel ⟨dstKeys, dstChildren⟩ ⟨srcKeys, first :: srcChildren⟩ =
        some ⟨dstKeys ++ srcKeys, dstChildren ++ srcChildren⟩ := by
  intro srcKeys
  induction srcKeys with
  | nil =>
    intro srcChildren first dstKeys dstChildren fuel hSrc _ _
    have hNil : srcChildren = [] := length_eq_zero_iff.1 hSrc
    subst hNil
    cases fuel <;> simp [drainLoop]
  | cons k srcKeys ih =>
    intro srcChildren first dstKeys dstChildren fuel hSrc hDst hFuel
    obtain ⟨c, srcChildren, rfl⟩ := exists_cons_of_length_eq_add_one hSrc
    obtain ⟨fuel, rfl⟩ : ∃ n, fuel = n + 1 := ⟨fuel - 1, by simp at hFuel; omega⟩
    simp only [length_cons, Nat.add_right_cancel_iff] at hSrc
    have hRight : (⟨k :: srcKeys, first :: c :: srcChildren⟩ : BInternalPage).getRightChild 0 =
        some c :=
      getRightChild_cut (l := []) (x := []) rfl rfl hSrc
    have hRemove : ∀ d : PageNum,
        (⟨k :: srcKeys, d :: c :: srcChildren⟩ : BInternalPage).removeSeparatorAt 0 =
          some ⟨srcKeys, d :: srcChildren⟩ := fun d =>
      removeSeparatorAt_cut (l := []) (x := []) rfl rfl hSrc
    have hNext : ∀ d : PageNum,
        drainLoop fuel ⟨dstKeys ++ [k], dstChildren ++ [c]⟩ ⟨srcKeys, d :: srcChildren⟩ =
          some ⟨dstKeys ++ k :: srcKeys, dstChildren ++ c :: srcChildren⟩ := by
      intro d
      have h := ih srcChildren d (dstKeys ++ [k]) (dstChildren ++ [c]) fuel hSrc
        (by simpa using hDst) (by simpa using hFuel)
      simpa using h
    have hKey : (⟨k :: srcKeys, first :: c :: srcChildren⟩ : BInternalPage).keyAt 0 = some k :=
      rfl
    simp only [drainLoop, getKeyCount_mk, length_cons, hKey, hRight,
      insertSeparatorAt_end hDst, Option.bind_eq_bind, Option.bind_some]
    rw [if_pos (by omega)]
    by_cases hMore : srcKeys.length + 1 > 1 <;> simp [hMore, hRemove, hNext]

/-- Draining appends the separators of the source and all of its children but the first. -/
theorem drainInto_mk {srcKeys dstKeys : List Key} {srcChildren dstChildren : List PageNum}
    {first : PageNum} (hSrc : srcChildren.length = srcKeys.length)
    (hDst : dstChildren.length = dstKeys.length + 1) :
    drainInto ⟨dstKeys, dstChildren⟩ ⟨srcKeys, first :: srcChildren⟩ =
      some ⟨dstKeys ++ srcKeys, dstChildren ++ srcChildren⟩ :=
  drainLoop_mk srcKeys srcChildren first dstKeys dstChildren _ hSrc hDst le_rfl

end BInternalPage

end Stoneleaf
