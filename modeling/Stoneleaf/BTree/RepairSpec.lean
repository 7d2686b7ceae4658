import Stoneleaf.BTree.Exchange

/-!
One step of the repair after a delete: a child with one key too few gets its keys back from a
sibling or is merged with one. The tree keeps its entries and its order; at most its parent
is left with one separator too few.
-/

namespace Stoneleaf

open Library Program SearchTree List

variable {h : Nat} {s s' s₁ : TreeState} {up : PageContext (h + 1)} {free : List PageNum}
  {gap : PageGap h} {a b a' b' m : PageTree h} {k k' : Key}

section Pairs

theorem exists_marks_around (up : PageContext (h + 1)) (gap : PageGap h) :
    ∃ A B : List (Key ×ₗ Bool),
      (∀ a k b, (up.close (gap.pair a k b)).2.marks =
        A ++ (a.marks ++ toLex (k, false) :: b.marks) ++ B) ∧
      ∀ m, (up.close (gap.fill m)).2.marks = A ++ m.marks ++ B := by
  refine ⟨up.leftTokens.filterMap Token.asMark ++
      (weaveLeft tokens gap.keysLeft gap.left).filterMap Token.asMark,
    (weaveRight tokens gap.keysRight gap.right).filterMap Token.asMark ++
      up.rightTokens.filterMap Token.asMark, fun a k b => ?_, fun m => ?_⟩
  · rw [Context.marks_close, Frame.pair, marks_branch_pair _ _ _ gap.left_length]
    simp
  · rw [Context.marks_close, Frame.fill, marks_branch_cut _ gap.left_length]
    simp

/-- The order of the whole tree around two neighbours, or around what replaces them. -/
theorem Exchange.ordered_close (hExchange : Exchange a k b a' k' b')
    (hOrdered : Ordered (up.close (gap.pair a k b)).2) :
    Ordered (up.close (gap.pair a' k' b')).2 := by
  obtain ⟨A, B, hPair, -⟩ := exists_marks_around up gap
  rw [Ordered, hPair] at hOrdered ⊢
  exact hExchange.ordered hOrdered

theorem Fuse.ordered_close (hFuse : Fuse a k b m)
    (hOrdered : Ordered (up.close (gap.pair a k b)).2) : Ordered (up.close (gap.fill m)).2 := by
  obtain ⟨A, B, hPair, hCut⟩ := exists_marks_around up gap
  rw [Ordered, hPair] at hOrdered
  rw [Ordered, hCut]
  exact hFuse.ordered hOrdered

/-- The three pages of a repair, and all other pages under their parent. -/
theorem labels_pair_perm :
    (gap.pair a k b).labels.Perm ([gap.label, a.label, b.label] ++
      ((gap.left ++ gap.right).flatMap labels ++ (labelsBelow a ++ labelsBelow b))) := by
  rw [Frame.pair, labels_branch_flatMap gap.length_pair]
  simp only [flatMap_append, flatMap_cons, labels_eq_cons a, labels_eq_cons b,
    cons_append, nil_append, append_assoc]
  refine List.Perm.cons _ ?_
  refine perm_middle.trans (List.Perm.cons _ ?_)
  rw [← append_assoc, ← append_assoc]
  refine perm_middle.trans (List.Perm.cons _ ?_)
  simp only [append_assoc]
  refine List.Perm.append_left _ ?_
  rw [← append_assoc]
  exact perm_append_comm

theorem labels_fill_perm :
    (gap.fill m).labels.Perm
      ([gap.label, m.label] ++ ((gap.left ++ gap.right).flatMap labels ++ labelsBelow m)) := by
  rw [Frame.fill, labels_branch_flatMap gap.length_fill]
  simp only [flatMap_append, flatMap_cons, labels_eq_cons m, cons_append, nil_append, append_assoc]
  refine List.Perm.cons _ ?_
  refine perm_middle.trans (List.Perm.cons _ ?_)
  exact List.Perm.append_left _ perm_append_comm

theorem Exchange.labels_perm (hExchange : Exchange a k b a' k' b') :
    (gap.pair a' k' b').labels.Perm (gap.pair a k b).labels := by
  refine labels_pair_perm.trans (List.Perm.trans ?_ labels_pair_perm.symm)
  rw [hExchange.label_left, hExchange.label_right]
  exact List.Perm.append_left _ (List.Perm.append_left _ hExchange.labels)

theorem Exchange.entries_eq (hExchange : Exchange a k b a' k' b') :
    (gap.pair a' k' b').entries = (gap.pair a k b).entries := by
  rw [Frame.pair, Frame.pair, entries_branch_flatMap gap.length_pair,
    entries_branch_flatMap gap.length_pair]
  have hPair := hExchange.entries
  simp only [flatMap_append, flatMap_cons, ← append_assoc] at hPair ⊢
  rw [append_assoc _ a'.entries, hPair, ← append_assoc]

theorem Fuse.labels_perm (hFuse : Fuse a k b m) :
    (b.label :: (gap.fill m).labels).Perm (gap.pair a k b).labels := by
  refine (labels_fill_perm.cons _).trans (List.Perm.trans ?_ labels_pair_perm.symm)
  rw [hFuse.label]
  have hBelow := hFuse.labels.append_left ((gap.left ++ gap.right).flatMap SearchTree.labels)
  have hFront : ([b.label] ++ [gap.label, a.label]).Perm ([gap.label, a.label] ++ [b.label]) :=
    perm_append_comm
  exact hFront.append hBelow

theorem Fuse.entries_eq (hFuse : Fuse a k b m) :
    (gap.fill m).entries = (gap.pair a k b).entries := by
  rw [Frame.pair, Frame.fill, entries_branch_flatMap gap.length_fill,
    entries_branch_flatMap gap.length_pair]
  simp [hFuse.entries]

theorem stored_pair_iff {body : PageNum → PageBody} :
    Stored body (gap.pair a k b) ↔ body gap.label = nodeBody (gap.pair a k b) ∧
      (∀ c ∈ gap.left ++ gap.right, Stored body c) ∧ Stored body a ∧ Stored body b := by
  have hLength := gap.length_pair (a := a) (b := b) (k := k)
  rw [stored_iff, Frame.pair, storedBelow_branch, label_branch]
  simp only [hLength, true_and, forall_mem_append, forall_mem_cons]
  tauto

/-- The three pages of a repair hold the exchanged nodes, and nothing else has changed. -/
structure PairWritten (s s' : TreeState) (gap : PageGap h) (a' : PageTree h) (k' : Key)
    (b' : PageTree h) : Prop where
  header : s'.dbHeader = s.dbHeader
  parent : s'.body gap.label = nodeBody (gap.pair a' k' b')
  left : s'.body a'.label = nodeBody a'
  right : s'.body b'.label = nodeBody b'
  other : ∀ n, n ∉ [gap.label, a'.label, b'.label] → s'.body n = s.body n

/-- The parent and the merged node are written, and nothing else has changed. -/
structure CutWritten (s s' : TreeState) (gap : PageGap h) (m : PageTree h) : Prop where
  header : s'.dbHeader = s.dbHeader
  parent : s'.body gap.label = .internal ⟨gap.keysLeft ++ gap.keysRight,
    gap.left.map label ++ m.label :: gap.right.map label⟩
  node : s'.body m.label = nodeBody m
  other : ∀ n, n ∉ [gap.label, m.label] → s'.body n = s.body n

theorem CutWritten.far (hWritten : CutWritten s s' gap m) (hFuse : Fuse a k b m)
    (n : PageNum) (hFar : n ∉ [gap.label, a.label, b.label]) : s'.body n = s.body n := by
  refine hWritten.other n ?_
  rw [hFuse.label]
  simp only [mem_cons] at hFar ⊢
  tauto

variable (hFocus : Focused s up (gap.pair a k b) free)
include hFocus

/-- Pages of the tree other than the three of a repair, and the freelist. -/
theorem Focused.pair_disjoint :
    [gap.label, a.label, b.label].Nodup ∧ 0 ∉ [gap.label, a.label, b.label] ∧
      ∀ n ∈ up.labels ++ (gap.left ++ gap.right).flatMap labels ++ labelsBelow a ++
        labelsBelow b ++ free, n ∉ [gap.label, a.label, b.label] := by
  have hPerm : (up.labels ++ (gap.pair a k b).labels ++ free).Perm ([gap.label, a.label, b.label] ++
      (up.labels ++ (gap.left ++ gap.right).flatMap labels ++ labelsBelow a ++ labelsBelow b ++
        free)) := by
    refine ((labels_pair_perm.append_left up.labels).append_right free).trans ?_
    simp only [append_assoc, cons_append, nil_append]
    refine perm_middle.trans (List.Perm.cons _ ?_)
    refine perm_middle.trans (List.Perm.cons _ ?_)
    exact perm_middle
  have hAccounts := hFocus.accounts.perm hPerm
  obtain ⟨hThree, -, hApart⟩ := nodup_append.1 hAccounts.nodup
  refine ⟨hThree, fun hMem => ?_, fun n hn hMem => hApart n hMem n hn rfl⟩
  exact (hAccounts.bounds 0 (mem_append_left _ hMem)).1 rfl

/-- What is left of the tree and the freelist when at most the three pages of a repair change. -/
theorem Focused.pair_kept {body : PageNum → PageBody}
    (hOther : ∀ n, n ∉ [gap.label, a.label, b.label] → body n = s.body n) :
    FreePages body s.dbHeader free ∧ (∀ n ∈ up.labels, body n = s.body n) ∧
      (∀ c ∈ gap.left ++ gap.right, Stored body c) ∧ StoredBelow body a ∧ StoredBelow body b := by
  obtain ⟨-, hNotZero, hApart⟩ := hFocus.pair_disjoint
  have hSame := fun n hn => hOther n (hApart n hn)
  simp only [mem_append] at hSame
  obtain ⟨-, hSiblings, ha, hb⟩ := stored_pair_iff.1 hFocus.stored
  refine ⟨?_, fun n hn => hSame n (by tauto), fun c hc => ?_, ?_, ?_⟩
  · exact hFocus.freePages.congr (hOther 0 hNotZero) fun n hn => hSame n (by tauto)
  · refine (hSiblings c hc).congr fun n hn => hSame n ?_
    exact Or.inl (Or.inl (Or.inl (Or.inr (mem_flatMap.2 ⟨c, hc, hn⟩))))
  · exact ((stored_iff a).1 ha).2.congr fun n hn => hSame n (by tauto)
  · exact ((stored_iff b).1 hb).2.congr fun n hn => hSame n (by tauto)

theorem Focused.exchange (hExchange : Exchange a k b a' k' b')
    (hWritten : PairWritten s s' gap a' k' b') : Focused s' up (gap.pair a' k' b') free := by
  have hOther := hWritten.other
  rw [hExchange.label_left, hExchange.label_right] at hOther
  obtain ⟨hFree, hUp, hSiblings, ha, hb⟩ := hFocus.pair_kept hOther
  obtain ⟨ha', hb'⟩ := hExchange.stored ha hb
  refine hFocus.replace rfl ?_ ?_ ?_ hUp (stored_pair_iff.2 ⟨hWritten.parent, hSiblings,
    (stored_iff _).2 ⟨hWritten.left, ha'⟩, (stored_iff _).2 ⟨hWritten.right, hb'⟩⟩)
  · rwa [hWritten.header]
  · rw [hWritten.header]
    exact hFocus.accounts.perm ((hExchange.labels_perm.symm.append_left _).append_right _)
  · rw [hWritten.header]

/-- Once the merged node is written, the page of its right part is in no use. -/
theorem Focused.fuse_unused (hFuse : Fuse a k b m) (hWritten : CutWritten s s' gap m) :
    FreePages s'.body s'.dbHeader free ∧
      Accounts s'.dbHeader (b.label :: (up.labels ++ (gap.fill m).labels ++ free)) := by
  rw [hWritten.header]
  refine ⟨(hFocus.pair_kept (hWritten.far hFuse)).1, hFocus.accounts.perm ?_⟩
  refine ((hFuse.labels_perm.symm.append_left up.labels).append_right free).trans ?_
  simp only [append_assoc, cons_append]
  exact perm_middle

theorem Focused.fuse (hFuse : Fuse a k b m) (hWritten : CutWritten s s₁ gap m)
    (hFreed : Freed s₁ s' (up.labels ++ (gap.fill m).labels) (b.label :: free)) :
    Focused s' up (gap.fill m) (b.label :: free) := by
  obtain ⟨-, hUp, hSiblings, ha, hb⟩ := hFocus.pair_kept (hWritten.far hFuse)
  have hStored : Stored s₁.body (gap.fill m) := (stored_fill_iff gap m).2
    ⟨hWritten.parent, hSiblings, (stored_iff m).2 ⟨hWritten.node, hFuse.stored ha hb⟩⟩
  refine hFocus.replace rfl hFreed.freePages hFreed.accounts ?_ (fun n hn => ?_) ?_
  · rw [hFreed.root, hWritten.header]
  · rw [hFreed.same n (mem_append_left _ hn), hUp n hn]
  · exact hStored.congr fun n hn => hFreed.same n (mem_append_right _ hn)

end Pairs

/-- Only pins and the call counter have changed. -/
def Quiet (s s' : TreeState) : Prop :=
  ∃ refs calls, s' = { s with refs := refs, calls := calls }

/-- The outcome of repairing a child of a branch. The branch loses at most one separator, and
reports too few of them only when it has lost one. -/
structure Repaired (s s' : TreeState) (up : PageContext (h + 1)) (n : PageTree (h + 1))
    (underflow : Bool) (n' : PageTree (h + 1)) (free : List PageNum) : Prop where
  label : n'.label = n.label
  focus : Focused s' up n' free
  entries : n'.entries = n.entries
  ordered : Ordered (up.close n').2
  filled : ChildrenFilled n'
  size : (underflow = false ∧ n'.size = n.size) ∨
    (n'.size + 1 = n.size ∧ underflow = decide (n'.size < 99))
  advances : Advances s s'
  writable : Writable s'

/-- What a repair of two neighbours starts from. -/
structure Neighbours (s : TreeState) (up : PageContext (h + 1)) (gap : PageGap h) (a : PageTree h)
    (k : Key) (b : PageTree h) (free : List PageNum) : Prop where
  focus : Focused s up (gap.pair a k b) free
  ordered : Ordered (up.close (gap.pair a k b)).2
  siblings : ∀ c ∈ gap.left ++ gap.right, Filled c
  left : ChildrenFilled a
  right : ChildrenFilled b
  writable : Writable s
  parent : Claimed s gap.label

/-- What it finds: three distinct pages inside the database, holding the parent and the two
nodes. -/
structure PairStored (s : TreeState) (p : PageNum) (a b : PageTree h) : Prop where
  parent_ne_left : p ≠ a.label
  parent_ne_right : p ≠ b.label
  left_ne_right : a.label ≠ b.label
  left_bounds : a.label ≠ 0 ∧ a.label < s.dbHeader.dbPageCount
  right_bounds : b.label ≠ 0 ∧ b.label < s.dbHeader.dbPageCount
  left : s.body a.label = nodeBody a ∧ StoredBelow s.body a
  right : s.body b.label = nodeBody b ∧ StoredBelow s.body b

theorem Neighbours.stored (hNear : Neighbours s up gap a k b free) :
    PairStored s gap.label a b := by
  obtain ⟨hNodup, -, -⟩ := hNear.focus.pair_disjoint
  simp only [nodup_cons, mem_cons, not_mem_nil, or_false, not_or,
    not_false_eq_true, nodup_nil, and_true] at hNodup
  obtain ⟨-, -, ha, hb⟩ := stored_pair_iff.1 hNear.focus.stored
  have hBounds : ∀ c ∈ gap.left ++ a :: b :: gap.right,
      c.label ≠ 0 ∧ c.label < s.dbHeader.dbPageCount :=
    fun c hc => hNear.focus.accounts.bounds _ (mem_append_left _ (mem_append_right _
      (mem_labels_branch gap.length_pair hc c.label_mem_labels)))
  exact ⟨hNodup.1.1, hNodup.1.2, hNodup.2, hBounds a (by simp), hBounds b (by simp),
    (stored_iff a).1 ha, (stored_iff b).1 hb⟩

section Repair

variable {N : Type} {object : PageObject N} (model : PageObjectModel object h)
  {ioFails : Nat → Bool} {sibling underflow : PageNum} {right left : Option PageNum} {i : Nat}

/-- The common end of both borrows, from a sibling on the given page. -/
theorem writeBorrowed_spec {c : PageNum} (hNear : Neighbours s up gap a k b free)
    (hExchange : Exchange a k b a' k' b') (ha : 99 ≤ a'.size ∧ a'.size ≤ 199)
    (hb : 99 ≤ b'.size ∧ b'.size ≤ 199) (hLeft : Claimed ((s.pinned c).marked c) a.label)
    (hRight : Claimed ((s.pinned c).marked c) b.label) :
    (writeBorrowed (decodedEnv ioFails) a.label b.label (object.toNode (model.page a'))
        (object.toNode (model.page b')) (internalPage (gap.pair a' k' b'))
        ⟨gap.label, i, right, left⟩ sibling underflow).Attains (Faulty ioFails)
        ((s.pinned c).marked c)
      fun _ s' => Repaired s s' up (gap.pair a k b) false (gap.pair a' k' b') free := by
  have hPair := hNear.stored
  obtain ⟨hStoredLeft, hStoredRight⟩ := hExchange.stored hPair.left.2 hPair.right.2
  obtain ⟨ha', hb'⟩ := hExchange.filled hNear.left hNear.right
  simp only [writeBorrowed, wp_bind]
  refine (model.writeBack hStoredLeft).2 ((model.writeBack hStoredRight).2 ?_)
  have hLength := gap.length_pair (a := a') (b := b') (k := k')
  refine (wp_writeBack_internal (by simpa [Frame.pair] using hLength)).2 ?_
  simp only [unrefRepair, wp_recordPageEffect, wp_bind, wp_unrefPage]
  refine ⟨rfl, hNear.focus.exchange hExchange ⟨rfl, ?_, ?_, ?_, fun n hn => ?_⟩,
    hExchange.entries_eq, hExchange.ordered_close hNear.ordered, ?_, Or.inl ⟨rfl, ?_⟩, ?_, ?_⟩
  · simp [Frame.pair]
  · simp [hExchange.label_left, hPair.left_ne_right, hPair.parent_ne_left.symm]
  · simp [hExchange.label_right, hPair.parent_ne_right.symm]
  · simp only [hExchange.label_left, hExchange.label_right, mem_cons, not_or] at hn
    simp [hn.1, hn.2.1, hn.2.2.1]
  · have hLeft : Filled a' := (filled_iff a').2 ⟨ha.1, ha.2, ha'⟩
    have hRight : Filled b' := (filled_iff b').2 ⟨hb.1, hb.2, hb'⟩
    have hSiblings := hNear.siblings
    simp only [Frame.pair, childrenFilled_branch, forall_mem_append, forall_mem_cons] at hSiblings ⊢
    exact ⟨hSiblings.1, hLeft, hRight, hSiblings.2⟩
  · simp [Frame.pair]
  · simp
  · simp only [writable_unref]
    refine ((Writable.recorded ?_ ?_).recorded ?_).recorded ?_ <;>
      simp [hNear.writable, hNear.parent, hLeft, hRight]

/-- What a borrow leaves: either the sibling could not spare a key, or the repair is done. -/
def BorrowOutcome (s : TreeState) (up : PageContext (h + 1)) (n : PageTree (h + 1))
    (t : PageTree h) (free : List PageNum) (sibling : Option (PageTree h))
    (result : Option (N × BInternalPage)) (s' : TreeState) : Prop :=
  (result = some (model.page t, internalPage n) ∧ (∀ c ∈ sibling, c.size = 99) ∧ Quiet s s') ∨
  (result = none ∧ ∃ n', Repaired s s' up n false n' free)

/-- A borrow from the sibling `c`. It is left alone when it has no key to spare; otherwise the
rotation succeeds and `write` decides the outcome. -/
theorem borrowFrom_spec {c t : PageTree h} {n : PageTree (h + 1)}
    {rotate : N → N → BInternalPage → Nat → Rotation N}
    {write : PageNum → Rotation N → Op DecodedPage Unit} {ctx : MergeParentContext}
    (hBounds : c.label ≠ 0 ∧ c.label < s.dbHeader.dbPageCount)
    (hStored : s.body c.label = nodeBody c) (hSibling : s.latches c.label = some .exclusive)
    (hFilled : Filled c)
    (hWrite : 99 < c.size → ∃ moved,
      rotate (model.page t) (model.page c) (internalPage n) ctx.childIdx = moved ∧
        moved.succeeded = true ∧ (write c.label moved).Attains (Faulty ioFails)
          ((s.pinned c.label).marked c.label) fun _ s' => ∃ n', Repaired s s' up n false n' free) :
    (borrowFrom (decodedEnv ioFails) object (some c.label) rotate write (model.page t)
        (internalPage n) ctx underflow).Attains (Faulty ioFails) s
      (BorrowOutcome model s up n t free (some c)) := by
  simp only [borrowFrom, wp_bind]
  refine wp_get hBounds.1 hBounds.2 (fun hFault => by simpa using ⟨_, hFault⟩) ?_
  simp only [not_true_eq_false, if_false, wp_bind]
  refine (model.decode (t := c) (by exact hStored)).2 ?_
  simp only [model.keyCount]
  by_cases hSize : c.size ≤ minKeys btreeOrder
  · have hMin := ((filled_iff c).1 hFilled).1
    simp only [hSize, if_true, wp_bind, wp_unrefPage, wp_pure]
    exact Or.inl ⟨rfl, by simpa using Nat.le_antisymm hSize hMin, _, _, rfl⟩
  · obtain ⟨moved, hMoved, hSucceeded, hWritten⟩ := hWrite (Nat.lt_of_not_le hSize)
    simp only [hSize, if_false, wp_bind]
    refine wp_markWalPending hSibling ?_
    simp only [hMoved, hSucceeded, not_true_eq_false, if_false, wp_bind]
    exact wp_conseq hWritten fun _ _ hRepaired => .inr ⟨rfl, hRepaired⟩

variable (hNear : Neighbours s up gap a k b free)
include hNear

theorem borrowFromRight_spec (hCurrent : Claimed s a.label)
    (hSibling : s.latches b.label = some .exclusive) (hFilled : Filled b) (hSize : a.size = 98) :
    (borrowFromRight (decodedEnv ioFails) object (model.page a) (internalPage (gap.pair a k b))
        ⟨gap.label, gap.keysLeft.length, some b.label, left⟩ a.label).Attains (Faulty ioFails) s
      (BorrowOutcome model s up (gap.pair a k b) a free (some b)) := by
  have hPair := hNear.stored
  obtain ⟨-, hMax, -⟩ := (filled_iff b).1 hFilled
  refine borrowFrom_spec model hPair.right_bounds hPair.right.1 hSibling hFilled fun hSpare => ?_
  obtain ⟨a', b', k', hMoved, hExchange, ha', hb'⟩ :=
    model.rotateFromRight gap k hPair.left.2 hPair.right.2 (by omega)
  refine ⟨_, hMoved, rfl, wp_conseq (writeBorrowed_spec model hNear hExchange ⟨by omega, by omega⟩
    ⟨by omega, by omega⟩ ?_ ?_) fun _ _ hRepaired => ⟨_, hRepaired⟩⟩
  all_goals simp [hCurrent, hSibling]

theorem borrowFromLeft_spec (hCurrent : Claimed s b.label)
    (hSibling : s.latches a.label = some .exclusive) (hFilled : Filled a) (hSize : b.size = 98) :
    (borrowFromLeft (decodedEnv ioFails) object (model.page b) (internalPage (gap.pair a k b))
        ⟨gap.label, gap.keysLeft.length + 1, right, some a.label⟩ b.label).Attains
        (Faulty ioFails) s
      (BorrowOutcome model s up (gap.pair a k b) b free (some a)) := by
  have hPair := hNear.stored
  obtain ⟨-, hMax, -⟩ := (filled_iff a).1 hFilled
  refine borrowFrom_spec model hPair.left_bounds hPair.left.1 hSibling hFilled fun hSpare => ?_
  obtain ⟨b', a', k', hMoved, hExchange, hb', ha'⟩ :=
    model.rotateFromLeft gap k hPair.right.2 hPair.left.2 (by omega)
  refine ⟨_, hMoved, rfl, wp_conseq (writeBorrowed_spec model hNear hExchange ⟨by omega, by omega⟩
    ⟨by omega, by omega⟩ ?_ ?_) fun _ _ hRepaired => ⟨_, hRepaired⟩⟩
  all_goals simp [hCurrent, hSibling]

/-- The common end of both merges, once the merged node and the parent are written. -/
theorem freeMerged_spec (hSize : a.size + b.size = 197) (hFuse : Fuse a k b m)
    (hWritten : CutWritten s s₁ gap m) (hAdvances : Advances s s₁) (hWritable : Writable s₁) :
    (freePage (decodedEnv ioFails) b.label).Attains (Faulty ioFails) s₁
      fun result s' => (result = none ∧ Faulty ioFails) ∨ ∃ effects, result = some effects ∧
        Repaired s (s'.recordedAll effects) up (gap.pair a k b)
          (decide ((gap.keysLeft ++ gap.keysRight).length < 99)) (gap.fill m)
          (b.label :: free) := by
  obtain ⟨hFree, hAccounts⟩ := hNear.focus.fuse_unused hFuse hWritten
  refine wp_of_returns (freePage_spec hFree hAccounts hWritable) ?_
  rintro result s' (hNone | ⟨effects, rfl, hFreed⟩)
  · exact Or.inl hNone
  refine Or.inr ⟨effects, rfl, rfl, hNear.focus.fuse hFuse hWritten hFreed, hFuse.entries_eq,
    hFuse.ordered_close hNear.ordered, ?_, Or.inr ?_, hAdvances.trans hFreed.advances,
    hFreed.writable⟩
  · have hMin := hFuse.size_ge
    have hMax := hFuse.size_le
    have hNode : Filled m :=
      (filled_iff m).2 ⟨by omega, by omega, hFuse.filled hNear.left hNear.right⟩
    have hSiblings := hNear.siblings
    simp only [Frame.fill, childrenFilled_branch, forall_mem_append, forall_mem_cons] at hSiblings ⊢
    exact ⟨hSiblings.1, hNode, hSiblings.2⟩
  · exact ⟨by simp [Frame.fill, Frame.pair, Nat.add_assoc], by simp [Frame.fill]⟩

theorem writeMerged_spec (hSize : a.size + b.size = 197) (hBody : s₁.body = s.body)
    (hHeader : s₁.dbHeader = s.dbHeader) (hAdvances : Advances s s₁) (hWritable : Writable s₁)
    (hLeft : Claimed s₁ a.label) :
    (writeMerged (decodedEnv ioFails) object a.label b.label (model.page a) (model.page b)
        (internalPage (gap.pair a k b)) gap.keysLeft.length ⟨gap.label, i, right, left⟩ sibling
        underflow).Attains (Faulty ioFails) s₁
      fun result s' => ∃ n' free', Repaired s s' up (gap.pair a k b) result n' free' := by
  have hPair := hNear.stored
  obtain ⟨m, hAbsorbed, hFuse⟩ := model.absorb gap k hPair.left.2 hPair.right.2
  have hParent := hAdvances.held hNear.parent
  have hRemove : (internalPage (gap.pair a k b)).removeSeparatorAt gap.keysLeft.length =
      some ⟨gap.keysLeft ++ gap.keysRight,
        gap.left.map label ++ a.label :: gap.right.map label⟩ := by
    simpa [Frame.pair] using BInternalPage.removeSeparatorAt_cut (k := k) (c := a.label)
      (d := b.label) rfl (by simpa using gap.left_length) (by simpa using gap.right_length)
  simp only [writeMerged, hAbsorbed, hRemove, wp_bind]
  refine (model.writeBack (hFuse.stored hPair.left.2 hPair.right.2)).2 ?_
  refine (wp_writeBack_internal ?_).2 ?_
  · simp [gap.left_length, gap.right_length, Nat.add_assoc]
  simp only [wp_recordPageEffect]
  refine wp_conseq (freeMerged_spec hNear hSize hFuse ⟨hHeader, ?_, ?_, fun n hn => ?_⟩ ?_ ?_) ?_
  · simp [hFuse.label]
  · simp [hFuse.label, hPair.parent_ne_left.symm]
  · simp only [hFuse.label, mem_cons, not_or] at hn
    simp [hn.1, hn.2.1, hBody]
  · simpa using hAdvances
  · refine (Writable.recorded ?_ ?_).recorded ?_ <;> simp [hWritable, hLeft, hParent]
  · rintro result s' (⟨rfl, hFault⟩ | ⟨effects, rfl, hRepaired⟩)
    · simpa [unrefRepair] using hFault
    · simp only [finishParentAfterMerge, wp_bind, wp_recordPagerEffects, wp_unrefPage, wp_pure]
      exact ⟨_, _, { hRepaired with
        focus := hRepaired.focus.of_eq rfl rfl
        advances := by simpa using hRepaired.advances
        writable := by simpa using hRepaired.writable }⟩

theorem mergeWithRight_spec (hSize : a.size + b.size = 197) (hCurrent : Claimed s a.label) :
    (mergeWithRight (decodedEnv ioFails) object (model.page a) (internalPage (gap.pair a k b))
        ⟨gap.label, gap.keysLeft.length, some b.label, left⟩ a.label).Attains (Faulty ioFails) s
      fun result s' => ∃ n' free', Repaired s s' up (gap.pair a k b) result n' free' := by
  have hPair := hNear.stored
  simp only [mergeWithRight, wp_bind]
  refine wp_get hPair.right_bounds.1 hPair.right_bounds.2
    (fun hFault => by simpa [unrefRepair] using ⟨_, hFault⟩) ?_
  simp only [not_true_eq_false, if_false, wp_bind]
  refine (model.decode (t := b) (by exact hPair.right.1)).2 ?_
  refine writeMerged_spec model hNear hSize rfl rfl ?_ ?_ ?_
  all_goals simp [hNear.writable, hCurrent]

theorem mergeWithLeft_spec (hSize : a.size + b.size = 197)
    (hSibling : s.latches a.label = some .exclusive) :
    (mergeWithLeft (decodedEnv ioFails) object (model.page b) (internalPage (gap.pair a k b))
        ⟨gap.label, gap.keysLeft.length + 1, right, some a.label⟩ b.label).Attains
        (Faulty ioFails) s
      fun result s' => ∃ n' free', Repaired s s' up (gap.pair a k b) result n' free' := by
  have hPair := hNear.stored
  simp only [mergeWithLeft, wp_bind]
  refine wp_get hPair.left_bounds.1 hPair.left_bounds.2
    (fun hFault => by simpa [unrefRepair] using ⟨_, hFault⟩) ?_
  simp only [not_true_eq_false, if_false, wp_bind]
  refine wp_markWalPending hSibling ?_
  simp only [not_true_eq_false, if_false, wp_bind]
  refine (model.decode (t := a) (by exact hPair.left.1)).2 ?_
  refine writeMerged_spec model hNear hSize rfl rfl ?_ ?_ ?_
  all_goals simp [hNear.writable, hSibling]

end Repair

section Siblings

variable {N : Type} {object : PageObject N} (model : PageObjectModel object h)
  {ioFails : Nat → Bool} {frame : PageGap h} {t : PageTree h}

/-- The siblings that `build_merge_parent_context` finds around a child. -/
def siblingContext (frame : PageGap h) : MergeParentContext where
  parentPageNum := frame.label
  childIdx := frame.keysLeft.length
  rightSibling := frame.right.head?.map label
  leftSibling := frame.left.getLast?.map label

/-- What the repair of a child needs: the child has one key too few, its siblings do not, and
all pages involved are latched. -/
structure Repairable (s : TreeState) (up : PageContext (h + 1)) (frame : PageGap h)
    (t : PageTree h) (free : List PageNum) : Prop where
  focus : Focused s up (frame.fill t) free
  ordered : Ordered (up.close (frame.fill t)).2
  siblings : ∀ c ∈ frame.left ++ frame.right, Filled c
  filled : ChildrenFilled t
  size : t.size = 98
  separators : 0 < (frame.keysLeft ++ frame.keysRight).length
  writable : Writable s
  parent : Claimed s frame.label
  current : Claimed s t.label
  left : ∀ c ∈ frame.left.getLast?, s.latches c.label = some .exclusive
  right : ∀ c ∈ frame.right.head?, s.latches c.label = some .exclusive

variable (hRepairable : Repairable s up frame t free)
include hRepairable

theorem Repairable.quiet (hQuiet : Quiet s s') :
    Repairable s' up frame t free ∧ Advances s s' := by
  obtain ⟨refs, calls, rfl⟩ := hQuiet
  obtain ⟨hFocus, h₁, h₂, h₃, h₄, h₅, h₆, h₇, h₈, h₉, h₁₀⟩ := hRepairable
  exact ⟨⟨hFocus.of_eq rfl rfl, h₁, h₂, h₃, h₄, h₅, h₆, h₇, h₈, h₉, h₁₀⟩,
    ⟨rfl, rfl, rfl, fun _ h => h, fun _ h => h⟩⟩

/-- A child with a right sibling is the left one of two neighbours. -/
theorem Repairable.beside_right (hNext : frame.right.head? = some b) :
    Filled b ∧ ∃ gap k, frame.fill t = gap.pair t k b ∧ siblingContext frame =
        ⟨gap.label, gap.keysLeft.length, some b.label, frame.left.getLast?.map label⟩ ∧
      Neighbours s up gap t k b free := by
  obtain ⟨p, l, x, r, y, hx, hy⟩ := frame
  obtain ⟨y, rfl⟩ := head?_eq_some_iff.1 hNext
  obtain ⟨k, r, rfl⟩ := exists_cons_of_length_eq_add_one hy.symm
  have hb : Filled b := hRepairable.siblings b (by simp)
  refine ⟨hb, ⟨p, l, x, r, y, hx, by simpa using hy⟩, k, rfl, rfl, hRepairable.focus,
    hRepairable.ordered, fun c hc => hRepairable.siblings c ?_, hRepairable.filled,
    ((filled_iff b).1 hb).2.2, hRepairable.writable, hRepairable.parent⟩
  simp only [mem_append, mem_cons] at hc ⊢
  tauto

omit hRepairable in
theorem fill_snoc {p : PageNum} {l r : List Key} {x y : List (PageTree h)}
    (hx : x.length = l.length) (hy : y.length = r.length) :
    Frame.fill ⟨p, l ++ [k], x ++ [a], r, y, Context.length_snoc_eq hx a k, hy⟩ t =
      Frame.pair ⟨p, l, x, r, y, hx, hy⟩ a k t := by
  simp [Frame.fill, Frame.pair]

/-- A child with a left sibling is the right one of two neighbours. -/
theorem Repairable.beside_left (hPrev : frame.left.getLast? = some a) :
    Filled a ∧ ∃ gap k, frame.fill t = gap.pair a k t ∧ siblingContext frame =
        ⟨gap.label, gap.keysLeft.length + 1, frame.right.head?.map label, some a.label⟩ ∧
      Neighbours s up gap a k t free := by
  cases frame using Context.frame_cases with
  | nil => simp at hPrev
  | snoc p l k x c r y hx hy =>
    obtain rfl : c = a := by simpa using hPrev
    have hc : Filled c := hRepairable.siblings c (by simp)
    refine ⟨hc, ⟨p, l, x, r, y, hx, hy⟩, k, fill_snoc hx hy, by simp [siblingContext],
      fill_snoc hx hy ▸ hRepairable.focus, fill_snoc hx hy ▸ hRepairable.ordered,
      fun d hd => hRepairable.siblings d ?_, ((filled_iff c).1 hc).2.2, hRepairable.filled,
      hRepairable.writable, hRepairable.parent⟩
    simp only [mem_append] at hd ⊢
    tauto

theorem borrowRight_outcome :
    (borrowFromRight (decodedEnv ioFails) object (model.page t) (internalPage (frame.fill t))
        (siblingContext frame) t.label).Attains (Faulty ioFails) s
      (BorrowOutcome model s up (frame.fill t) t free frame.right.head?) := by
  cases hNext : frame.right.head? with
  | none =>
    simp only [borrowFromRight, siblingContext, hNext, Option.map_none]
    exact Or.inl ⟨rfl, by simp, s.refs, s.calls, rfl⟩
  | some b =>
    obtain ⟨hb, gap, k, hFill, hContext, hNear⟩ := hRepairable.beside_right hNext
    rw [hFill, hContext]
    exact borrowFromRight_spec model hNear hRepairable.current (hRepairable.right b hNext) hb
      hRepairable.size

theorem borrowLeft_outcome :
    (borrowFromLeft (decodedEnv ioFails) object (model.page t) (internalPage (frame.fill t))
        (siblingContext frame) t.label).Attains (Faulty ioFails) s
      (BorrowOutcome model s up (frame.fill t) t free frame.left.getLast?) := by
  cases hPrev : frame.left.getLast? with
  | none =>
    simp only [borrowFromLeft, siblingContext, hPrev, Option.map_none]
    exact Or.inl ⟨rfl, by simp, s.refs, s.calls, rfl⟩
  | some a =>
    obtain ⟨ha, gap, k, hFill, hContext, hNear⟩ := hRepairable.beside_left hPrev
    rw [hFill, hContext]
    exact borrowFromLeft_spec model hNear hRepairable.current (hRepairable.left a hPrev) ha
      hRepairable.size

omit hRepairable in
theorem Repaired.of_advances {n n' : PageTree (h + 1)} {u : Bool}
    (hRepaired : Repaired s₁ s' up n u n' free) (hAdvances : Advances s s₁) :
    Repaired s s' up n u n' free :=
  { hRepaired with advances := hAdvances.trans hRepaired.advances }

/-- Whichever way a page with too few keys finds help, its parent ends up with well-filled
children. -/
theorem repair_spec :
    (repair (borrowFromRight (decodedEnv ioFails) object)
        (borrowFromLeft (decodedEnv ioFails) object) (mergeWithRight (decodedEnv ioFails) object)
        (mergeWithLeft (decodedEnv ioFails) object) (model.page t) (internalPage (frame.fill t))
        (siblingContext frame) t.label).Attains (Faulty ioFails) s
      fun underflow s' => ∃ n' free', Repaired s s' up (frame.fill t) underflow n' free' := by
  refine wp_bind_of (borrowRight_outcome model hRepairable) ?_
  rintro result s₁ (⟨rfl, hRight, hQuiet⟩ | ⟨rfl, n', hRepaired⟩)
  swap
  · exact ⟨n', free, hRepaired⟩
  obtain ⟨hStill, hAdvances⟩ := hRepairable.quiet hQuiet
  refine wp_bind_of (borrowLeft_outcome model hStill) ?_
  rintro result s₂ (⟨rfl, hLeft, hQuiet'⟩ | ⟨rfl, n', hRepaired⟩)
  swap
  · exact ⟨n', free, hRepaired.of_advances hAdvances⟩
  obtain ⟨hReady, hAdvances'⟩ := hStill.quiet hQuiet'
  have hWeaken : ∀ u s', (∃ n' free', Repaired s₂ s' up (frame.fill t) u n' free') →
      ∃ n' free', Repaired s s' up (frame.fill t) u n' free' := by
    rintro u s' ⟨n', free', hRepaired⟩
    exact ⟨n', free', hRepaired.of_advances (hAdvances.trans hAdvances')⟩
  refine wp_conseq ?_ hWeaken
  cases hNext : frame.right.head? with
  | some b =>
    obtain ⟨-, gap, k, hFill, hContext, hNear⟩ := hReady.beside_right hNext
    rw [hFill, hContext]
    exact mergeWithRight_spec model hNear (by rw [hReady.size, hRight b hNext]) hReady.current
  | none =>
    have hNone : frame.right = [] := head?_eq_none_iff.1 hNext
    have hSome : frame.left ≠ [] := by
      have hCount := hReady.separators
      rw [length_append, ← frame.left_length, ← frame.right_length, hNone] at hCount
      exact ne_nil_of_length_pos hCount
    have hPrev := getLast?_eq_some_getLast hSome
    obtain ⟨-, gap, k, hFill, hContext, hNear⟩ := hReady.beside_left hPrev
    rw [hFill, hContext, hNext]
    exact mergeWithLeft_spec model hNear (by rw [hReady.size, hLeft _ hPrev])
      (hReady.left _ hPrev)

end Siblings

end Stoneleaf
