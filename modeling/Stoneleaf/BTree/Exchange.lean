import Stoneleaf.BTree.Merge
import Stoneleaf.BTree.PagerSpec

/-!
Moving keys between neighbouring nodes of the search tree, and how the page objects do it.
Rotations and merges of leaves and of internal pages are described by the same two relations
on subtrees, so that the repair code is verified once for both kinds of page.
-/

namespace Stoneleaf

open Library Program SearchTree List BInternalPage BLeafPage

section Nodes

variable {h : Nat} {body body' : PageNum → PageBody}

/-- The page that stores the root node of a subtree. -/
def nodeBody : {h : Nat} → PageTree h → PageBody
  | 0, t => .leaf (BLeafPage.ofEntries (LeafNode.entries t))
  | _ + 1, t => .internal ⟨BranchNode.keys t, (BranchNode.children t).map label⟩

/-- Everything below the root node is stored. -/
def StoredBelow (body : PageNum → PageBody) : {h : Nat} → PageTree h → Prop
  | 0, _ => True
  | _ + 1, t => (BranchNode.children t).length = (BranchNode.keys t).length + 1 ∧
      ∀ c ∈ BranchNode.children t, Stored body c

/-- The pages below the root node. -/
def labelsBelow (t : PageTree h) : List PageNum :=
  t.labels.tail

@[simp] theorem nodeBody_leaf (i : PageNum) (es : List (Key × Value)) :
    nodeBody (leaf i es) = .leaf (BLeafPage.ofEntries es) := rfl

@[simp] theorem nodeBody_branch (i : PageNum) (ks : List Key) (cs : List (PageTree h)) :
    nodeBody (branch i ks cs) = .internal ⟨ks, cs.map label⟩ := rfl

@[simp] theorem storedBelow_leaf (i : PageNum) (es : List (Key × Value)) :
    StoredBelow body (leaf i es : PageTree 0) ↔ True := Iff.rfl

@[simp] theorem storedBelow_branch (i : PageNum) (ks : List Key) (cs : List (PageTree h)) :
    StoredBelow body (branch i ks cs) ↔
      cs.length = ks.length + 1 ∧ ∀ c ∈ cs, Stored body c := Iff.rfl

theorem labels_eq_cons (t : PageTree h) : t.labels = t.label :: labelsBelow t := by
  cases h with
  | zero =>
    obtain ⟨i, es, rfl⟩ := eq_leaf t
    simp [labelsBelow]
  | succ h =>
    obtain ⟨i, ks, cs, rfl⟩ := eq_branch t
    simp [labelsBelow, labels_branch]

theorem stored_iff (t : PageTree h) :
    Stored body t ↔ body t.label = nodeBody t ∧ StoredBelow body t := by
  cases h with
  | zero =>
    obtain ⟨i, es, rfl⟩ := eq_leaf t
    simp
  | succ h =>
    obtain ⟨i, ks, cs, rfl⟩ := eq_branch t
    simp

theorem StoredBelow.congr {t : PageTree h} (hStored : StoredBelow body t)
    (hAgree : ∀ n ∈ labelsBelow t, body' n = body n) : StoredBelow body' t := by
  cases h with
  | zero => trivial
  | succ h =>
    obtain ⟨i, ks, cs, rfl⟩ := eq_branch t
    rw [storedBelow_branch] at hStored ⊢
    refine ⟨hStored.1, fun c hc => (hStored.2 c hc).congr fun n hn => hAgree n ?_⟩
    obtain ⟨x, hx, hLabel⟩ := mem_filterMap.1 hn
    rw [labelsBelow, labels_branch, tail_cons]
    exact mem_filterMap.2 ⟨x, mem_weave _ hStored.1 hc hx, hLabel⟩

/-- With everything around it and below it in place, a node is stored by writing its page. -/
theorem focused_of_update {s s' : TreeState} {c : PageContext h} {t : PageTree h}
    {free : List PageNum} (hFree : FreePages s.body s.dbHeader free)
    (hAccounts : Accounts s.dbHeader (c.labels ++ t.labels ++ free))
    (hRoot : s.dbHeader.btreeRootPageNum = (c.close t).2.label)
    (hAround : StoredAround s.body c t.label) (hBelow : StoredBelow s.body t)
    (hBody : s'.body = Function.update s.body t.label (nodeBody t))
    (hHeader : s'.dbHeader = s.dbHeader) : Focused s' c t free := by
  have hPerm : (c.labels ++ t.labels ++ free).Perm
      (t.label :: (c.labels ++ labelsBelow t ++ free)) := by
    rw [labels_eq_cons]
    simp only [append_assoc, cons_append]
    exact perm_middle
  have hApart := hAccounts.perm hPerm
  have hOther : ∀ n ∈ c.labels ++ labelsBelow t ++ free, s'.body n = s.body n := by
    intro n hn
    have hNe : n ≠ t.label := fun hEq => (nodup_cons.1 hApart.nodup).1 (hEq ▸ hn)
    simp [hBody, hNe]
  have hZero : s'.body 0 = s.body 0 := by
    simp [hBody, (hApart.bounds t.label mem_cons_self).1.symm]
  simp only [mem_append] at hOther
  rw [← hHeader] at hFree hAccounts hRoot
  exact ⟨hFree.congr hZero fun n hn => hOther n (by tauto), hAccounts, hRoot,
    hAround.congr fun n hn => hOther n (by tauto),
    (stored_iff t).2 ⟨by simp [hBody], hBelow.congr fun n hn => hOther n (by tauto)⟩⟩

/-- The type that the page of a node shows. -/
def nodeType : Nat → PageType
  | 0 => .leaf
  | _ + 1 => .internal

theorem wp_peekPageType_node {ioFails : Nat → Bool} {s : TreeState} {n : PageNum}
    {okay : PageType → TreeState → Prop}
    {failed : BTreeStatus → TreeState → Prop} {halted : TreeState → Prop}
    {t : PageTree h} (hBody : s.body n = nodeBody t) :
    (peekPageType (decodedEnv ioFails) n).wp s okay failed halted ↔ okay (nodeType h) s := by
  cases h with
  | zero => exact wp_peekPageType_leaf hBody
  | succ h => exact wp_peekPageType_internal hBody

end Nodes

section Relations

variable {h : Nat}

/-- Two neighbours with a separator between them are replaced by two on the same pages that
hold the same entries. -/
structure Exchange (a : PageTree h) (k : Key) (b a' : PageTree h) (k' : Key) (b' : PageTree h) :
    Prop where
  label_left : a'.label = a.label
  label_right : b'.label = b.label
  labels : (labelsBelow a' ++ labelsBelow b').Perm (labelsBelow a ++ labelsBelow b)
  entries : a'.entries ++ b'.entries = a.entries ++ b.entries
  ordered : ∀ {A B : List (Key ×ₗ Bool)},
    (A ++ (a.marks ++ toLex (k, false) :: b.marks) ++ B).Pairwise (· < ·) →
      (A ++ (a'.marks ++ toLex (k', false) :: b'.marks) ++ B).Pairwise (· < ·)
  stored : ∀ {body}, StoredBelow body a → StoredBelow body b →
    StoredBelow body a' ∧ StoredBelow body b'
  filled : ChildrenFilled a → ChildrenFilled b → ChildrenFilled a' ∧ ChildrenFilled b'

/-- Two neighbours are replaced by one, on the page of the left one. -/
structure Fuse (a : PageTree h) (k : Key) (b m : PageTree h) : Prop where
  label : m.label = a.label
  labels : (labelsBelow m).Perm (labelsBelow a ++ labelsBelow b)
  entries : m.entries = a.entries ++ b.entries
  ordered : ∀ {A B : List (Key ×ₗ Bool)},
    (A ++ (a.marks ++ toLex (k, false) :: b.marks) ++ B).Pairwise (· < ·) →
      (A ++ m.marks ++ B).Pairwise (· < ·)
  stored : ∀ {body}, StoredBelow body a → StoredBelow body b → StoredBelow body m
  filled : ChildrenFilled a → ChildrenFilled b → ChildrenFilled m
  size_ge : a.size + b.size ≤ m.size
  size_le : m.size ≤ a.size + b.size + 1

/-- The page object of a branch. -/
def internalPage (t : PageTree (h + 1)) : BInternalPage :=
  ⟨BranchNode.keys t, (BranchNode.children t).map label⟩

@[simp] theorem internalPage_branch (i : PageNum) (ks : List Key) (cs : List (PageTree h)) :
    internalPage (branch i ks cs) = ⟨ks, cs.map label⟩ := rfl

/-- What the repair relies on about one kind of page object: it stores nodes of one height,
rotates a key over from a neighbour that can spare one, and absorbs a right neighbour. -/
structure PageObjectModel {N : Type} (object : PageObject N) (h : Nat) where
  page : PageTree h → N
  decode : ∀ {ioFails s n okay failed halted} {t : PageTree h}, OpState.body s n = nodeBody t →
    ((object.decode (decodedEnv ioFails) n).wp s okay failed halted ↔ okay (page t) s)
  writeBack : ∀ {ioFails s n okay failed halted body} {t : PageTree h}, StoredBelow body t →
    ((Stoneleaf.writeBack (decodedEnv ioFails) n (object.toNode (page t))).wp s okay failed halted ↔
      okay () (s.written n (object.toNode (page t)) (nodeBody t)))
  keyCount : ∀ t, object.keyCount (page t) = t.size
  rotateFromRight : ∀ {body} {c s : PageTree h} (gap : PageGap h) (k : Key),
    StoredBelow body c → StoredBelow body s → 2 ≤ s.size →
    ∃ c' s' k', object.rotateFromRight (page c) (page s) (internalPage (gap.pair c k s))
        gap.keysLeft.length = ⟨true, page c', page s', internalPage (gap.pair c' k' s')⟩ ∧
      Exchange c k s c' k' s' ∧ c'.size = c.size + 1 ∧ s'.size + 1 = s.size
  rotateFromLeft : ∀ {body} {c s : PageTree h} (gap : PageGap h) (k : Key),
    StoredBelow body c → StoredBelow body s → 2 ≤ s.size →
    ∃ c' s' k', object.rotateFromLeft (page c) (page s) (internalPage (gap.pair s k c))
        (gap.keysLeft.length + 1) = ⟨true, page c', page s', internalPage (gap.pair s' k' c')⟩ ∧
      Exchange s k c s' k' c' ∧ c'.size = c.size + 1 ∧ s'.size + 1 = s.size
  absorb : ∀ {body} {a b : PageTree h} (gap : PageGap h) (k : Key),
    StoredBelow body a → StoredBelow body b →
    ∃ m, object.absorb (page a) (page b) (internalPage (gap.pair a k b)) gap.keysLeft.length =
      some (page m) ∧ Fuse a k b m

end Relations

section Rotations

variable {l r : List Key} {x : List PageNum} {k : Key}

namespace BLeafPage

theorem rotateFromRight_ofEntries (es rest : List (Key × Value)) (e e' : Key × Value) :
    rotateFromRight (ofEntries es) (ofEntries (e :: e' :: rest)) ⟨l ++ k :: r, x⟩ l.length =
      ⟨true, ofEntries (es ++ [e]), ofEntries (e' :: rest), ⟨l ++ e'.1 :: r, x⟩⟩ := by
  have hRemove : (ofEntries (e :: e' :: rest)).removeAt 0 = some (ofEntries (e' :: rest)) :=
    removeAt_ofEntries (a := []) rfl
  simp [rotateFromRight, insertAt_end_ofEntries, hRemove, setSeparatorKeyAt_cut]

theorem rotateFromLeft_ofEntries (es rest : List (Key × Value)) (e : Key × Value) :
    rotateFromLeft (ofEntries rest) (ofEntries (es ++ [e])) ⟨l ++ k :: r, x⟩ (l.length + 1) =
      ⟨true, ofEntries (e :: rest), ofEntries es, ⟨l ++ e.1 :: r, x⟩⟩ := by
  have hRemove : (ofEntries (es ++ [e])).removeAt es.length = some (ofEntries (es ++ [])) :=
    removeAt_ofEntries rfl
  have hInsert : (ofEntries rest).insertAt 0 e.1 e.2 = some (ofEntries (e :: rest)) :=
    insertAt_ofEntries (a := []) rfl e.1 e.2
  simp [rotateFromLeft, hRemove, hInsert, setSeparatorKeyAt_cut]

end BLeafPage

namespace BInternalPage

variable {ks ks' : List Key} {cs cs' : List PageNum} {m : Key} {c d : PageNum}

theorem rotateFromRight_mk (hCurrent : cs.length = ks.length + 1)
    (hSibling : cs'.length = ks'.length) :
    rotateFromRight ⟨ks, cs⟩ ⟨m :: ks', c :: d :: cs'⟩ ⟨l ++ k :: r, x⟩ l.length =
      ⟨true, ⟨ks ++ [k], cs ++ [c]⟩, ⟨ks', d :: cs'⟩, ⟨l ++ m :: r, x⟩⟩ := by
  have hRight : (⟨m :: ks', c :: d :: cs'⟩ : BInternalPage).getRightChild 0 = some d :=
    getRightChild_cut (l := []) (x := []) rfl rfl hSibling
  have hRemove : (⟨m :: ks', d :: d :: cs'⟩ : BInternalPage).removeSeparatorAt 0 =
      some ⟨ks', d :: cs'⟩ :=
    removeSeparatorAt_cut (l := []) (x := []) rfl rfl hSibling
  have hKey : (⟨m :: ks', c :: d :: cs'⟩ : BInternalPage).keyAt 0 = some m := rfl
  simp [rotateFromRight, keyAt_cut, hRight, hKey, insertSeparatorAt_end hCurrent, hRemove,
    setSeparatorKeyAt_cut]

theorem rotateFromLeft_mk (hSibling : cs.length = ks.length + 1)
    (hCurrent : cs'.length = ks'.length) :
    rotateFromLeft ⟨ks', d :: cs'⟩ ⟨ks ++ [m], cs ++ [c]⟩ ⟨l ++ k :: r, x⟩ (l.length + 1) =
      ⟨true, ⟨k :: ks', c :: d :: cs'⟩, ⟨ks, cs⟩, ⟨l ++ m :: r, x⟩⟩ := by
  obtain ⟨cs, e, rfl⟩ : ∃ before e, cs = before ++ [e] := by
    rcases eq_nil_or_concat cs with rfl | ⟨before, e, rfl⟩
    · simp at hSibling
    · exact ⟨before, e, concat_eq_append⟩
  have hLength : cs.length = ks.length := by simpa using hSibling
  have hLast : (⟨ks ++ [m], (cs ++ [e]) ++ [c]⟩ : BInternalPage).getRightChild ks.length =
      some c := by
    simpa using getRightChild_cut (l := ks) (r := []) (x := cs) (y := []) (c := e) (d := c) (k := m)
      rfl hLength rfl
  have hRemove : (⟨ks ++ [m], (cs ++ [e]) ++ [c]⟩ : BInternalPage).removeSeparatorAt ks.length =
      some ⟨ks, cs ++ [e]⟩ := by
    simpa using removeSeparatorAt_cut (l := ks) (r := []) (x := cs) (y := []) (c := e) (d := c)
      (k := m) rfl hLength rfl
  have hKey : (⟨ks ++ [m], (cs ++ [e]) ++ [c]⟩ : BInternalPage).keyAt ks.length = some m :=
    keyAt_cut rfl
  have hInsert : (⟨ks', c :: cs'⟩ : BInternalPage).insertSeparatorAt 0 k d =
      some ⟨k :: ks', c :: d :: cs'⟩ :=
    insertSeparatorAt_cut (l := []) (x := []) rfl rfl hCurrent
  simp only [append_assoc, cons_append, nil_append] at hLast hRemove hKey
  simp [rotateFromLeft, keyAt_cut, hLast, hKey, hRemove, hInsert, setSeparatorKeyAt_cut]

theorem absorb_mk (hDst : cs.length = ks.length + 1) (hSrc : cs'.length = ks'.length) :
    absorb ⟨ks, cs⟩ ⟨ks', d :: cs'⟩ ⟨l ++ k :: r, x⟩ l.length =
      some ⟨ks ++ k :: ks', cs ++ d :: cs'⟩ := by
  have hGrown : (cs ++ [d]).length = (ks ++ [k]).length + 1 := by simpa using hDst
  simp [absorb, keyAt_cut, insertSeparatorAt_end hDst, drainInto_mk hSrc hGrown]

end BInternalPage

end Rotations

section Models

theorem exists_snoc_of_length_pos {α : Type} {xs : List α} (h : 0 < xs.length) :
    ∃ before last, xs = before ++ [last] :=
  ⟨xs.dropLast, xs.getLast (ne_nil_of_length_pos h), (dropLast_append_getLast _).symm⟩

@[simp] theorem labelsBelow_leaf (i : PageNum) (es : List (Key × Value)) :
    labelsBelow (leaf i es : PageTree 0) = [] := by
  simp [labelsBelow]

/-- Leaves may divide their entries anew, with the first key of the right one between them. -/
theorem exchange_leaf (i j : PageNum) (k : Key) {es es' front rest : List (Key × Value)}
    {e e' : Key × Value} (hSame : es ++ es' = front ++ e :: e' :: rest) :
    Exchange (leaf i es) k (leaf j es') (leaf i (front ++ [e])) e'.1 (leaf j (e' :: rest)) where
  label_left := rfl
  label_right := rfl
  labels := by simp
  entries := by simp [hSame]
  ordered {A B} hSorted := by
    have hDropped : (A ++ (es ++ es').map (fun e => toLex (e.1, true)) ++ B).Pairwise (· < ·) :=
      hSorted.sublist (by simp)
    rw [hSame] at hDropped
    simp only [marks_leaf, map_cons, map_append, map_nil, append_assoc,
      cons_append, nil_append] at hDropped ⊢
    rw [← append_assoc] at hDropped ⊢
    exact sorted_insert_separator hDropped
  stored _ _ := ⟨trivial, trivial⟩
  filled _ _ := ⟨trivial, trivial⟩

theorem fuse_leaf (i j : PageNum) (k : Key) (es rest : List (Key × Value)) :
    Fuse (leaf i es) k (leaf j rest) (leaf i (es ++ rest)) where
  label := rfl
  labels := by simp
  entries := by simp
  ordered hSorted := hSorted.sublist (by simp)
  stored _ _ := trivial
  filled _ _ := trivial
  size_ge := by simp
  size_le := by simp

/-- Leaves as page objects. -/
def leafModel : PageObjectModel leafObject 0 where
  page t := BLeafPage.ofEntries (LeafNode.entries t)
  decode hBody := wp_decodeLeaf hBody
  writeBack _ := wp_writeBack_leaf
  keyCount t := getKeyCount_ofEntries _
  rotateFromRight {_ c s} gap k _ _ hSize := by
    obtain ⟨i, es, rfl⟩ := eq_leaf c
    obtain ⟨j, es', rfl⟩ := eq_leaf s
    obtain ⟨e, e', rest, rfl⟩ : ∃ e e' rest, es' = e :: e' :: rest := by
      rcases es' with _ | ⟨e, _ | ⟨e', rest⟩⟩
      · simp at hSize
      · simp at hSize
      · exact ⟨e, e', rest, rfl⟩
    refine ⟨.leaf i (es ++ [e]), .leaf j (e' :: rest), e'.1, ?_, exchange_leaf i j k rfl, by simp,
      by simp⟩
    simp only [internalPage_branch, Frame.pair, map_cons, map_append, label_leaf]
    exact rotateFromRight_ofEntries es rest e e'
  rotateFromLeft {_ c s} gap k _ _ hSize := by
    obtain ⟨i, es, rfl⟩ := eq_leaf c
    obtain ⟨j, es', rfl⟩ := eq_leaf s
    rw [size_leaf] at hSize
    obtain ⟨es', e, rfl⟩ := exists_snoc_of_length_pos (by omega : 0 < es'.length)
    obtain ⟨es', e', rfl⟩ := exists_snoc_of_length_pos (by simp at hSize; omega : 0 < es'.length)
    refine ⟨.leaf i (e :: es), .leaf j (es' ++ [e']), e.1, ?_, exchange_leaf j i k (by simp),
      by simp, by simp⟩
    simp only [internalPage_branch, Frame.pair, map_cons, map_append, label_leaf]
    exact rotateFromLeft_ofEntries _ es e
  absorb {_ a b} gap k _ _ := by
    obtain ⟨i, es, rfl⟩ := eq_leaf a
    obtain ⟨j, es', rfl⟩ := eq_leaf b
    exact ⟨.leaf i (es ++ es'), drainInto_ofEntries es es', fuse_leaf ..⟩

variable {h : Nat} {cs cs' : List (PageTree h)} {ks ks' : List Key}

theorem labelsBelow_branch (i : PageNum) (ks : List Key) (cs : List (PageTree h)) :
    labelsBelow (branch i ks cs) =
      (weave tokens ks cs).filterMap Token.asLabel := by
  rw [labelsBelow, labels_branch, tail_cons]

theorem weave_snoc {ks : List Key} {cs : List (PageTree h)} (k : Key) (c : PageTree h)
    (hLength : cs.length = ks.length + 1) :
    weave tokens (ks ++ [k]) (cs ++ [c]) =
      weave tokens ks cs ++ .separator k :: c.tokens := by
  rw [weave_append _ k hLength (by simp)]
  simp [weave]

theorem weave_cons_cons (k : Key) (ks : List Key) (c d : PageTree h) (cs : List (PageTree h)) :
    weave tokens (k :: ks) (c :: d :: cs) =
      c.tokens ++ .separator k :: weave tokens ks (d :: cs) := by
  simp [weave]

/-- What leaves the order of all keys as it is can be undone. -/
theorem exchange_both {a b a' b' : PageTree h} {k k' : Key} (hLeft : a'.label = a.label)
    (hRight : b'.label = b.label)
    (hLabels : labelsBelow a' ++ labelsBelow b' = labelsBelow a ++ labelsBelow b)
    (hEntries : a'.entries ++ b'.entries = a.entries ++ b.entries)
    (hMarks : a'.marks ++ toLex (k', false) :: b'.marks = a.marks ++ toLex (k, false) :: b.marks)
    (hStored : ∀ body, StoredBelow body a' ∧ StoredBelow body b' ↔
      StoredBelow body a ∧ StoredBelow body b)
    (hFilled : ChildrenFilled a' ∧ ChildrenFilled b' ↔ ChildrenFilled a ∧ ChildrenFilled b) :
    Exchange a k b a' k' b' ∧ Exchange a' k' b' a k b :=
  ⟨⟨hLeft, hRight, .of_eq hLabels, hEntries, fun h => hMarks ▸ h,
      fun ha hb => (hStored _).2 ⟨ha, hb⟩, fun ha hb => hFilled.2 ⟨ha, hb⟩⟩,
    hLeft.symm, hRight.symm, .of_eq hLabels.symm, hEntries.symm, fun h => hMarks ▸ h,
      fun ha hb => (hStored _).1 ⟨ha, hb⟩, fun ha hb => hFilled.1 ⟨ha, hb⟩⟩

/-- A child is rotated over through the separator, in either direction. -/
theorem exchange_branch (i j : PageNum) (k m : Key) (c d : PageTree h)
    (hLength : cs.length = ks.length + 1) :
    Exchange (branch i ks cs) k (branch j (m :: ks') (c :: d :: cs'))
        (branch i (ks ++ [k]) (cs ++ [c])) m (branch j ks' (d :: cs')) ∧
      Exchange (branch i (ks ++ [k]) (cs ++ [c])) m (branch j ks' (d :: cs'))
        (branch i ks cs) k (branch j (m :: ks') (c :: d :: cs')) := by
  refine exchange_both rfl rfl ?_ ?_ ?_ (fun body => ?_) ?_
  · simp [labelsBelow_branch, weave_snoc k c hLength, weave_cons_cons, filterMap_cons]
  · simp [entries_branch, weave_snoc k c hLength, weave_cons_cons, filterMap_cons]
  · simp [marks_branch, weave_snoc k c hLength, weave_cons_cons]
  · simp only [storedBelow_branch, forall_mem_append, forall_mem_cons, length_append, length_cons,
      length_nil, hLength]
    grind
  · simp only [childrenFilled_branch, forall_mem_append, forall_mem_cons]
    grind

theorem fuse_branch (i j : PageNum) (k : Key) (hLength : cs.length = ks.length + 1)
    (hNe : cs' ≠ []) :
    Fuse (branch i ks cs) k (branch j ks' cs')
      (branch i (ks ++ k :: ks') (cs ++ cs')) where
  label := rfl
  labels := by simp [labelsBelow_branch, weave_append _ k hLength hNe, filterMap_cons]
  entries := by
    simp [entries_branch, weave_append _ k hLength hNe, filterMap_cons]
  ordered hSorted := by
    simpa [marks_branch, weave_append _ k hLength hNe] using hSorted
  stored ha hb := by
    simp only [storedBelow_branch, length_append, length_cons, mem_append] at ha hb ⊢
    exact ⟨by omega, fun t ht => ht.elim (ha.2 t) (hb.2 t)⟩
  filled ha hb := by
    simp only [childrenFilled_branch, mem_append] at ha hb ⊢
    exact fun t ht => ht.elim (ha t) (hb t)
  size_ge := by simp
  size_le := by simp; omega

/-- Internal pages as page objects. -/
def internalModel (h : Nat) : PageObjectModel internalObject (h + 1) where
  page := internalPage
  decode hBody := wp_decodeInternal hBody
  writeBack hStored := wp_writeBack_internal (by simpa [internalPage] using hStored.1)
  keyCount t := rfl
  rotateFromRight {_ c s} gap k hc hs hSize := by
    obtain ⟨i, ks, cs, rfl⟩ := eq_branch c
    obtain ⟨j, ks', cs', rfl⟩ := eq_branch s
    rw [storedBelow_branch] at hc hs
    obtain ⟨m, ks', rfl⟩ := exists_cons_of_length_pos (by simp at hSize; omega : 0 < ks'.length)
    obtain ⟨c, cs', rfl⟩ := exists_cons_of_length_eq_add_one hs.1
    obtain ⟨d, cs', rfl⟩ :=
      exists_cons_of_length_eq_add_one (by simpa using hs.1 : cs'.length = ks'.length + 1)
    have hSibling : (cs'.map label).length = ks'.length := by simpa using hs.1
    have hCurrent : (cs.map label).length = ks.length + 1 := by simpa using hc.1
    refine ⟨.branch i (ks ++ [k]) (cs ++ [c]), .branch j ks' (d :: cs'), m, ?_,
      (exchange_branch i j k m c d hc.1).1, by simp, by simp⟩
    simp only [internalPage_branch, Frame.pair, map_cons, map_append, map_nil, internalObject]
    exact rotateFromRight_mk hCurrent hSibling
  rotateFromLeft {_ c s} gap k hc hs hSize := by
    obtain ⟨i, ks, cs, rfl⟩ := eq_branch c
    obtain ⟨j, ks', cs', rfl⟩ := eq_branch s
    rw [storedBelow_branch] at hc hs
    obtain ⟨d, cs, rfl⟩ := exists_cons_of_length_eq_add_one hc.1
    obtain ⟨ks', m, rfl⟩ := exists_snoc_of_length_pos (by simp at hSize; omega : 0 < ks'.length)
    obtain ⟨cs', c, rfl⟩ := exists_snoc_of_length_pos (by omega : 0 < cs'.length)
    have hLength : cs'.length = ks'.length + 1 := by simpa using hs.1
    have hSibling : (cs'.map label).length = ks'.length + 1 := by simpa using hLength
    have hCurrent : (cs.map label).length = ks.length := by simpa using hc.1
    refine ⟨.branch i (k :: ks) (c :: d :: cs), .branch j ks' cs', m, ?_,
      (exchange_branch j i m k c d hLength).2, by simp, by simp⟩
    simp only [internalPage_branch, Frame.pair, map_cons, map_append, map_nil, internalObject]
    exact rotateFromLeft_mk hSibling hCurrent
  absorb {_ a b} gap k ha hb := by
    obtain ⟨i, ks, cs, rfl⟩ := eq_branch a
    obtain ⟨j, ks', cs', rfl⟩ := eq_branch b
    rw [storedBelow_branch] at ha hb
    obtain ⟨d, cs', rfl⟩ := exists_cons_of_length_eq_add_one hb.1
    have hDst : (cs.map label).length = ks.length + 1 := by simpa using ha.1
    have hSrc : (cs'.map label).length = ks'.length := by simpa using hb.1
    refine ⟨.branch i (ks ++ k :: ks') (cs ++ d :: cs'), ?_, fuse_branch i j k ha.1 (by simp)⟩
    simp only [internalPage_branch, Frame.pair, map_cons, map_append, internalObject]
    exact absorb_mk hDst hSrc

end Models

end Stoneleaf
