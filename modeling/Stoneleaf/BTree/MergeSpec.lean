import Stoneleaf.BTree.RepairSpec

/-!
The repair after a delete restores the key counts and keeps what the tree holds. The
argument is by recursion on the surroundings of the page with too few keys, up to the root,
which is dropped when it becomes empty.
-/

namespace Stoneleaf

open Library Function Program SearchTree List BInternalPage TraversalPathEntry

/-- The path of a descent names the pages and positions of the surroundings. -/
def PathFor : {h : Nat} → PageContext h → List TraversalPathEntry → Prop
  | _, .top, path => path = []
  | _, .under frame up, path => ∃ entry rest, path = entry :: rest ∧
      entry.parentPageNum = frame.label ∧ entry.childIdx = frame.keysLeft.length ∧
      PathFor up rest

section Siblings

variable {h : Nat} {ioFails : Nat → Bool} {s : TreeState}
  {frame : PageGap h}

/-- The parent page object names the neighbours of a child. -/
theorem buildMergeParentContext_eq {entry : TraversalPathEntry} (t : PageTree h)
    (hParent : entry.parentPageNum = frame.label)
    (hChild : entry.childIdx = frame.keysLeft.length) :
    buildMergeParentContext entry (internalPage (frame.fill t)) = siblingContext frame := by
  obtain ⟨p, l, x, r, y, hx, hy⟩ := frame
  have hRight : (if l.length < (l ++ r).length then
      (internalPage (Frame.fill ⟨p, l, x, r, y, hx, hy⟩ t)).getRightChild l.length else none) =
        y.head?.map label := by
    cases y with
    | nil =>
      have hNil : r = [] := length_eq_zero_iff.1 hy.symm
      simp [hNil]
    | cons b y =>
      obtain ⟨k, r, rfl⟩ := exists_cons_of_length_eq_add_one hy.symm
      simpa [Frame.fill] using getRightChild_cut (k := k) (c := t.label)
        (d := b.label) rfl (by simpa using hx) (by simpa using hy)
  have hLeft : (if l.length > 0 then
      if l.length = 1 then (internalPage (Frame.fill ⟨p, l, x, r, y, hx, hy⟩ t)).getLeftChild 0
      else (internalPage (Frame.fill ⟨p, l, x, r, y, hx, hy⟩ t)).getRightChild (l.length - 2)
      else none) = x.getLast?.map label := by
    rcases eq_nil_or_concat x with rfl | ⟨x, a, rfl⟩
    · have hNil : l = [] := length_eq_zero_iff.1 hx.symm
      simp [hNil]
    obtain ⟨l, k, rfl⟩ := exists_snoc_of_length_pos (by simp at hx; omega : 0 < l.length)
    simp only [concat_eq_append] at hx ⊢
    rcases eq_nil_or_concat x with rfl | ⟨x, c, rfl⟩
    · have hNil : l = [] := by simpa using hx
      subst hNil
      simpa [Frame.fill] using getLeftChild_cut (l := []) (x := []) (k := k)
        (c := a.label) (d := t.label) rfl rfl (by simpa using hy)
    · obtain ⟨l, k', rfl⟩ := exists_snoc_of_length_pos (by simp at hx; omega : 0 < l.length)
      have hLength : x.length = l.length := by simpa using hx
      simpa [Frame.fill] using getRightChild_cut (r := k :: r)
        (y := t.label :: y.map label) (k := k') (c := c.label) (d := a.label) rfl
        (by simpa using hLength) (by simpa using hy)
  have hCount : (internalPage (Frame.fill ⟨p, l, x, r, y, hx, hy⟩ t)).getKeyCount =
      (l ++ r).length := rfl
  simp only [buildMergeParentContext, siblingContext, hParent, hChild, hCount, hRight, hLeft]

theorem lockSiblings_spec (hWritable : Writable s) (ctx : MergeParentContext) :
    (lockSiblings ctx).Attains (Faulty ioFails) s
      fun _ s' => s'.body = s.body ∧ s'.dbHeader = s.dbHeader ∧ Advances s s' ∧ Writable s' ∧
        (∀ n ∈ ctx.leftSibling, s'.latches n = some .exclusive) ∧
        ∀ n ∈ ctx.rightSibling, s'.latches n = some .exclusive := by
  obtain ⟨p, i, right, left⟩ := ctx
  cases left with
  | none =>
    cases right with
    | none => simp [lockSiblings, hWritable]
    | some b =>
      refine wp_lockExclusive (hWritable.noShared _) ?_
      simp [hWritable]
  | some a =>
    cases right with
    | none =>
      refine wp_lockExclusive (hWritable.noShared _) ?_
      simp [hWritable]
    | some b =>
      by_cases hLe : a ≤ b
      · simp only [lockSiblings, hLe, if_true, wp_bind]
        refine wp_lockExclusive (hWritable.noShared _) ?_
        refine wp_lockExclusive ((hWritable.locked _).noShared _) ?_
        simp [hWritable, update_apply]
      · simp only [lockSiblings, hLe, if_false, wp_bind]
        refine wp_lockExclusive (hWritable.noShared _) ?_
        refine wp_lockExclusive ((hWritable.locked _).noShared _) ?_
        simp [hWritable, update_apply]

end Siblings

section Root

variable {h : Nat} {ioFails : Nat → Bool} {s : TreeState} {used free : List PageNum}
  {oldRoot newRoot : PageNum}

theorem replaceRoot_spec (hFree : FreePages s.body s.dbHeader free)
    (hAccounts : Accounts s.dbHeader (oldRoot :: (used ++ free)))
    (hRoot : newRoot < s.dbHeader.dbPageCount) (hWritable : Writable s) :
    (replaceRoot (decodedEnv ioFails) oldRoot newRoot).Attains (Faulty ioFails) s
      fun _ s' => FreePages s'.body s'.dbHeader (oldRoot :: free) ∧
        Accounts s'.dbHeader (used ++ oldRoot :: free) ∧
        s'.dbHeader.btreeRootPageNum = newRoot ∧ (∀ n ∈ used, s'.body n = s.body n) ∧
        Advances s s' ∧ Writable s' := by
  have hFreeAccounts : Accounts s.dbHeader free :=
    ⟨(nodup_append.1 (nodup_cons.1 hAccounts.nodup).2).2.1,
      fun n hn => hAccounts.bounds n (by simp [hn])⟩
  refine wp_bind_of (wp_of_returns (setBtreeRoot_spec hFree hFreeAccounts hRoot hWritable)
    (fun _ _ h => h)) ?_
  rintro result s₁ (⟨rfl, hFault⟩ | ⟨effects, rfl, hRerooted⟩)
  · simpa using hFault
  simp only [wp_bind, wp_recordPagerEffects]
  refine wp_of_returns (freePage_spec hRerooted.freePages
    (hAccounts.of_pageCount_eq hRerooted.pageCount) hRerooted.writable) ?_
  rintro result s₂ (⟨rfl, hFault⟩ | ⟨effects', rfl, hFreed⟩)
  · simpa using hFault
  simp only [wp_unrefPage, wp_recordPagerEffects]
  refine ⟨hFreed.freePages, hFreed.accounts, hFreed.root.trans hRerooted.root, fun n hn => ?_, ?_,
    ?_⟩
  · have hNe : n ≠ 0 := (hAccounts.bounds n (by simp [hn])).1
    exact (hFreed.same n hn).trans (hRerooted.same n hNe)
  · exact Advances.unref_iff.2 (hRerooted.advances.trans hFreed.advances)
  · exact writable_unref.2 hFreed.writable

/-- A root that has lost its last key, or its last separator, is replaced by what is below it. -/
theorem handleRootUnderflow_leaf_spec {i : PageNum} {es : List (Key × Value)}
    (hFocus : Focused s .top (leaf i es) free) (hWritable : Writable s)
    (hOrdered : Ordered (leaf i es : PageTree 0)) (hSize : es.length ≤ 199) :
    (handleRootUnderflow (decodedEnv ioFails) i .leaf).Attains (Faulty ioFails) s
      fun _ s' => Settled s s' es := by
  have hBody : s.body i = .leaf (.ofEntries es) := hFocus.stored
  simp only [handleRootUnderflow, wp_bind]
  refine (wp_decodeLeaf hBody).2 ?_
  by_cases hEmpty : es = []
  · subst hEmpty
    simp only [BLeafPage.getKeyCount_ofEntries, length_nil, gt_iff_lt, Nat.lt_irrefl, if_false]
    have hAccounts : Accounts s.dbHeader (i :: ([] ++ free)) := by
      simpa [Context.labels] using hFocus.accounts
    refine wp_conseq (replaceRoot_spec hFocus.freePages hAccounts hFocus.freePages.pageCount
      hWritable) ?_
    rintro _ s' ⟨hFree, hAccounts', hRoot, -, hAdvances, hWritable'⟩
    refine ⟨none, i :: free, ⟨hFree, hAccounts', hRoot, ?_⟩, ?_, rfl, hAdvances, hWritable'⟩
    · simp
    · simp [Sound]
  · have hPos : 0 < es.length := length_pos_of_ne_nil hEmpty
    simp only [BLeafPage.getKeyCount_ofEntries, gt_iff_lt, hPos, if_true, wp_unrefPage]
    refine ⟨some ⟨0, leaf i es⟩, free, ?_, ?_, ?_, ?_, ?_⟩
    · exact (focused_iff.1 hFocus).of_eq rfl rfl
    · rintro _ ⟨⟩
      exact ⟨hOrdered, hSize, fun h => (h rfl).elim, trivial⟩
    · simp [treeEntries]
    · simp
    · simpa using hWritable

theorem handleRootUnderflow_internal_spec {i : PageNum} {ks : List Key} {cs : List (PageTree h)}
    (hFocus : Focused s .top (branch i ks cs) free) (hWritable : Writable s)
    (hOrdered : Ordered (branch i ks cs)) (hSize : ks.length ≤ 199)
    (hFilled : ∀ c ∈ cs, Filled c) :
    (handleRootUnderflow (decodedEnv ioFails) i .internal).Attains (Faulty ioFails) s
      fun _ s' => Settled s s' (branch i ks cs).entries := by
  obtain ⟨hBody, hLength, hChildren⟩ := (stored_branch i ks cs).1 hFocus.stored
  simp only [handleRootUnderflow, wp_bind]
  refine (wp_decodeInternal hBody).2 ?_
  by_cases hEmpty : ks = []
  · subst hEmpty
    obtain ⟨c, rfl⟩ := length_eq_one_iff.1 hLength
    simp only [getKeyCount_mk, length_nil, gt_iff_lt, Nat.lt_irrefl, if_false,
      map_cons, map_nil, getLeftmostChild_mk]
    have hAccounts : Accounts s.dbHeader (i :: (c.labels ++ free)) := by
      have h := hFocus.accounts
      rw [labels_branch_flatMap rfl] at h
      simpa [Context.labels] using h
    have hRoot : c.label < s.dbHeader.dbPageCount :=
      (hAccounts.bounds _ (by simp [c.label_mem_labels])).2
    refine wp_conseq (replaceRoot_spec hFocus.freePages hAccounts hRoot hWritable) ?_
    rintro _ s' ⟨hFree, hAccounts', hRoot', hSame, hAdvances, hWritable'⟩
    refine ⟨some ⟨h, c⟩, i :: free, ⟨hFree, hAccounts', hRoot', ?_⟩, ?_, ?_, hAdvances, hWritable'⟩
    · rintro _ ⟨⟩
      exact (hChildren c (by simp)).congr hSame
    · rintro _ ⟨⟩
      obtain ⟨hMin, hMax, hBelow⟩ := (filled_iff c).1 (hFilled c (by simp))
      refine ⟨?_, hMax, fun _ => ?_, hBelow⟩
      · rw [Ordered, marks_branch] at hOrdered
        simpa [weave, Ordered, marks] using hOrdered
      · exact Nat.le_trans (by decide) hMin
    · rw [entries_branch_flatMap rfl]
      simp [treeEntries]
  · have hPos : 0 < ks.length := length_pos_of_ne_nil hEmpty
    simp only [getKeyCount_mk, gt_iff_lt, hPos, if_true, wp_unrefPage]
    refine ⟨some ⟨h + 1, branch i ks cs⟩, free, ?_, ?_, ?_, ?_, ?_⟩
    · exact (focused_iff.1 hFocus).of_eq rfl rfl
    · rintro _ ⟨⟩
      exact ⟨hOrdered, hSize, fun _ => hPos, hFilled⟩
    · simp [treeEntries]
    · simp
    · simpa using hWritable

end Root

section Propagate

variable {h : Nat} {ioFails : Nat → Bool} {s s' : TreeState} {up : PageContext (h + 1)}
  {n n' : PageTree (h + 1)} {free : List PageNum}

theorem entries_close_congr (hEntries : n'.entries = n.entries) :
    (up.close n').2.entries = (up.close n).2.entries := by
  rw [Context.entries_close, Context.entries_close, hEntries]

/-- When the parent keeps enough separators the repair is complete. -/
theorem Repaired.settled (hRepaired : Repaired s s' up n false n' free) (hAround : FilledAround up)
    (hMin : minSeparators up ≤ n.size) (hMax : n.size ≤ 199) :
    Settled s s' (up.close n).2.entries := by
  have hEnough : minSeparators up ≤ n'.size := by
    rcases hRepaired.size with ⟨-, hSame⟩ | ⟨hLess, hEnough⟩
    · omega
    · have hMinMax : minSeparators up ≤ 99 := by cases up <;> simp [minSeparators]
      have hLarge : 99 ≤ n'.size := by simpa using hEnough.symm
      omega
  have hSize : n'.size ≤ 199 := by
    rcases hRepaired.size with ⟨-, hSame⟩ | ⟨hLess, -⟩ <;> omega
  refine ⟨some (up.close n'), free, focused_iff.1 hRepaired.focus, ?_, ?_, hRepaired.advances,
    hRepaired.writable⟩
  · rintro _ ⟨⟩
    refine ⟨hRepaired.ordered, (rootFilled_close_iff up n').2 ⟨hAround, ?_⟩⟩
    cases up with
    | top => exact ⟨hSize, fun _ => hEnough, hRepaired.filled⟩
    | under frame' up' => exact (filled_iff n').2 ⟨hEnough, hSize, hRepaired.filled⟩
  · exact entries_close_congr hRepaired.entries

theorem repairPage_spec {h : Nat} {up : PageContext (h + 1)}
    {frame : PageGap h} {t : PageTree h}
    (hRepairable : Repairable s up frame t free) (hBody : s.body t.label = nodeBody t) :
    (repairPage (decodedEnv ioFails) (nodeType h) (internalPage (frame.fill t))
        (siblingContext frame) t.label).Attains (Faulty ioFails) s
      fun underflow s' => ∃ n' free', Repaired s s' up (frame.fill t) underflow n' free' := by
  cases h with
  | zero => exact (wp_bind _ _).2 ((wp_decodeLeaf hBody).2 (repair_spec leafModel hRepairable))
  | succ h =>
    exact (wp_bind _ _).2 ((wp_decodeInternal hBody).2 (repair_spec (internalModel h) hRepairable))

/-- The repair of a page with one key too few, at any height, ends in a sound tree with the
same entries. -/
theorem propagateMerging_spec {h : Nat} (c : PageContext h) :
    ∀ (t : PageTree h) {path : List TraversalPathEntry} {s : TreeState}
      {free : List PageNum}, PathFor c path → Focused s c t free → Ordered (c.close t).2 →
      FilledAround c → ChildrenFilled t → t.size ≤ 199 →
      (∀ frame up, c = .under frame up → t.size = 98) → Writable s → Claimed s t.label →
      (propagateMerging (decodedEnv ioFails) path t.label).Attains (Faulty ioFails) s
        fun _ s' => Settled s s' (c.close t).2.entries := by
  induction c with
  | @top h =>
    intro t path s free hPath hFocus hOrdered _ hFilled hMax _ hWritable hHeld
    have hNil : path = [] := hPath
    subst hNil
    obtain ⟨hNe, hLt⟩ := hFocus.accounts.bounds t.label (by simp [t.label_mem_labels])
    simp only [propagateMerging, wp_bind]
    refine wp_lockExclusive (hWritable.noShared _) ?_
    refine wp_get hNe hLt (fun hFault => by simpa using ⟨_, hFault⟩) ?_
    simp only [not_true_eq_false, if_false, wp_bind]
    have hState : Focused ((s.locked t.label).pinned t.label) .top t free := hFocus.of_eq rfl rfl
    have hReady : Writable ((s.locked t.label).pinned t.label) := by simp [hWritable]
    have hDone : ∀ s', Settled ((s.locked t.label).pinned t.label) s'
        ((Context.top : PageContext h).close t).2.entries →
        Settled s s' ((Context.top : PageContext h).close t).2.entries := fun s' hSettled =>
      hSettled.of_advances (by simp)
    cases h with
    | zero =>
      obtain ⟨i, es, rfl⟩ := eq_leaf t
      refine (wp_peekPageType_leaf hState.stored).2 ?_
      refine wp_conseq (handleRootUnderflow_leaf_spec hState hReady hOrdered hMax) ?_
      intro _ s' hSettled
      exact hDone s' (by simpa using hSettled)
    | succ h =>
      obtain ⟨i, ks, cs, rfl⟩ := eq_branch t
      refine (wp_peekPageType_internal hState.stored.1).2 ?_
      refine wp_conseq (handleRootUnderflow_internal_spec hState hReady hOrdered hMax hFilled) ?_
      intro _ s' hSettled
      exact hDone s' hSettled
  | @under h frame up ih =>
    intro t path s free hPath hFocus hOrdered hAround hFilled hMax hSize hWritable hHeld
    obtain ⟨entry, rest, rfl, hParent, hChild, hRest⟩ := hPath
    obtain ⟨hMin, hLarge, hSiblings, hAbove⟩ := hAround
    have hUp : Focused s up (frame.fill t) free := focused_under_iff.1 hFocus
    obtain ⟨hNe, hLt⟩ := hFocus.accounts.bounds t.label (by simp [t.label_mem_labels])
    obtain ⟨hNe', hLt'⟩ := hFocus.accounts.bounds frame.label
      (by simp [Context.label_mem_labels_under])
    simp only [propagateMerging, wp_bind, hParent]
    refine wp_lockExclusive (hWritable.noShared _) ?_
    refine wp_get hNe hLt (fun hFault => by simpa using ⟨_, hFault⟩) ?_
    simp only [not_true_eq_false, if_false, wp_bind]
    have hNode := (stored_iff t).1 hFocus.stored
    refine (wp_peekPageType_node (t := t) (by exact hNode.1)).2 ?_
    refine wp_lockExclusive ?_ ?_
    · exact (hWritable.locked _).noShared _
    refine wp_get hNe' hLt' (fun hFault => by simpa using ⟨_, hFault⟩) ?_
    simp only [not_true_eq_false, if_false, wp_bind]
    refine wp_markWalPending (by simp) ?_
    simp only [not_true_eq_false, if_false, wp_bind]
    have hPage : s.body frame.label = .internal (internalPage (frame.fill t)) := hUp.stored.1
    refine (wp_decodeInternal (by exact hPage)).2 ?_
    rw [buildMergeParentContext_eq t hParent hChild]
    refine wp_conseq (lockSiblings_spec ?_ _) ?_
    · exact Writable.marked (by simp [hWritable]) _
    rintro _ s₁ ⟨hBody, hHeader, hAdvances, hWritable₁, hLeft, hRight⟩
    have hFromStart : Advances s s₁ := (Advances.marked (by simp) _).trans hAdvances
    have hRepairable : Repairable s₁ up frame t free :=
      { focus := hUp.of_eq hBody hHeader
        ordered := hOrdered
        siblings := hSiblings
        filled := hFilled
        size := hSize frame up rfl
        separators := Nat.lt_of_lt_of_le (by cases up <;> simp [minSeparators]) hMin
        writable := hWritable₁
        parent := hAdvances.held (held_marked (by simp))
        current := hFromStart.held hHeld
        left := fun c hc => hLeft _ (by simp_all [siblingContext])
        right := fun c hc => hRight _ (by simp_all [siblingContext]) }
    refine wp_conseq (repairPage_spec hRepairable ?_) ?_
    · rw [hBody]
      exact hNode.1
    rintro underflow s₂ ⟨n', free', hRepaired⟩
    cases underflow with
    | false =>
      simp only [Bool.false_eq_true, if_false, wp_pure]
      exact (hRepaired.settled hAbove hMin hLarge).of_advances hFromStart
    | true =>
      simp only [if_true]
      obtain ⟨hLess, hFew⟩ : n'.size + 1 = (frame.fill t).size ∧ n'.size < 99 := by
        simpa using hRepaired.size
      have hLabel : frame.label = n'.label := hRepaired.label.symm
      rw [hLabel]
      refine wp_conseq (ih n' hRest hRepaired.focus hRepaired.ordered hAbove hRepaired.filled
        (by omega) ?_ hRepaired.writable ?_) ?_
      · rintro frame' up' rfl
        have hEnough : 99 ≤ (frame.fill t).size := hMin
        omega
      · rw [← hLabel]
        exact hRepaired.advances.held hRepairable.parent
      · intro _ s₃ hSettled
        rw [entries_close_congr hRepaired.entries] at hSettled
        exact hSettled.of_advances (hFromStart.trans hRepaired.advances)

end Propagate

section Separators

variable {h : Nat} {ioFails : Nat → Bool} {k : Key}

theorem minSeparators_raise (c : PageContext h) : minSeparators (c.raise k) = minSeparators c := by
  cases c with
  | top => rfl
  | under frame up =>
    induction frame using Context.frame_cases with
    | nil i r y hy => rfl
    | snoc i l k₀ x c r y hx hy => rw [Context.raise_under_snoc]; rfl

theorem FilledAround.raise {c : PageContext h} (hAround : FilledAround c) :
    FilledAround (c.raise k) := by
  induction c with
  | top => trivial
  | under frame up ih =>
    obtain ⟨hMin, hMax, hSiblings, hUp⟩ := hAround
    induction frame using Context.frame_cases with
    | nil i r y hy =>
      rw [Context.raise_under_nil]
      exact ⟨by rwa [minSeparators_raise], hMax, hSiblings, ih hUp⟩
    | snoc i l k₀ x c r y hx hy =>
      rw [Context.raise_under_snoc]
      exact ⟨by simpa using hMin, by simpa using hMax, hSiblings, hUp⟩

/-- Rewriting the separators of a branch changes its own page only. -/
theorem Focused.rekey {s s' : TreeState} {up : PageContext (h + 1)} {free : List PageNum}
    {i : PageNum} {ks ks' : List Key} {cs : List (PageTree h)}
    (hFocus : Focused s up (branch i ks cs) free) (hLength : ks'.length = ks.length)
    (hBody : s'.body = update s.body i (.internal ⟨ks', cs.map label⟩))
    (hHeader : s'.dbHeader = s.dbHeader) : Focused s' up (branch i ks' cs) free := by
  obtain ⟨-, hCount, hChildren⟩ := (stored_branch i ks cs).1 hFocus.stored
  have hCount' : cs.length = ks'.length + 1 := hLength ▸ hCount
  have hLabels : (branch i ks cs).labels = (branch i ks' cs).labels := by
    rw [labels_branch_flatMap hCount', labels_branch_flatMap hCount]
  exact focused_of_update hFocus.freePages (hLabels ▸ hFocus.accounts)
    (hFocus.root.trans (up.label_close_congr rfl)) hFocus.around ⟨hCount', hChildren⟩ hBody hHeader

/-- After the smallest key of a subtree has gone, the separator to its left is raised to the
next one; a subtree on the left edge of the tree has no such separator. -/
theorem propagateSeparatorChangeUpward_spec {h : Nat} (c : PageContext h) :
    ∀ (t : PageTree h) {path : List TraversalPathEntry} {s : TreeState}
      {free : List PageNum}, PathFor c path → Focused s c t free → Writable s →
      (propagateSeparatorChangeUpward (decodedEnv ioFails) k path).Attains (Faulty ioFails) s
        fun _ s' => Focused s' (c.raise k) t free ∧ Advances s s' ∧ Writable s' := by
  induction c with
  | top =>
    intro t path s free hPath hFocus hWritable
    have hNil : path = [] := hPath
    subst hNil
    exact ⟨hFocus, Advances.refl s, hWritable⟩
  | under frame up ih =>
    intro t path s free hPath hFocus hWritable
    obtain ⟨entry, rest, rfl, hParent, hChild, hRest⟩ := hPath
    have hUp : Focused s up (frame.fill t) free := focused_under_iff.1 hFocus
    induction frame using Context.frame_cases with
    | nil i r y hy =>
      have hFirst : entry.childDir = .left ∧ entry.separatorIndexUsed = 0 := by
        cases hDir : entry.childDir <;> simp_all [childIdx]
      simp only [propagateSeparatorChangeUpward, hFirst, if_true, and_self]
      refine wp_conseq (ih _ hRest hUp hWritable) ?_
      rintro _ s' ⟨hFocus', hAdvances, hWritable'⟩
      exact ⟨focused_under_iff.2 hFocus', hAdvances, hWritable'⟩
    | snoc i l k₀ x c r y hx hy =>
      have hNotFirst : ¬(entry.childDir = .left ∧ entry.separatorIndexUsed = 0) := by
        cases hDir : entry.childDir <;> simp_all [childIdx]
      have hIdx : entry.separatorIdx = l.length := by
        cases hDir : entry.childDir <;>
          simp_all [childIdx, separatorIdx]
      rw [fill_snoc hx hy] at hUp
      have hPage : s.body i = .internal ⟨l ++ k₀ :: r, (x ++ c :: t :: y).map label⟩ := hUp.stored.1
      have hSet : (⟨l ++ k₀ :: r, (x ++ c :: t :: y).map label⟩ :
          BInternalPage).setSeparatorKeyAt l.length k =
            some ⟨l ++ k :: r, (x ++ c :: t :: y).map label⟩ :=
        setSeparatorKeyAt_cut rfl
      obtain ⟨hNe, hLt⟩ := hFocus.accounts.bounds i
        (mem_append_left _ (mem_append_left _ Context.label_mem_labels_under))
      simp only [propagateSeparatorChangeUpward, hNotFirst, if_false, wp_bind, hParent, hIdx]
      refine wp_lockExclusive (hWritable.noShared _) ?_
      refine wp_get hNe hLt (fun hFault => by simpa using ⟨_, hFault⟩) ?_
      simp only [not_true_eq_false, if_false, wp_bind]
      refine wp_markWalPending (by simp) ?_
      simp only [not_true_eq_false, if_false, wp_bind]
      refine (wp_decodeInternal (by exact hPage)).2 ?_
      simp only [hSet, wp_bind]
      refine (wp_writeBack_internal (by simp [hx, hy, Nat.add_assoc])).2 ?_
      simp only [wp_recordPageEffect, wp_unrefPage]
      refine ⟨?_, by simp, ?_⟩
      · rw [Context.raise_under_snoc]
        refine focused_under_iff.2 ?_
        rw [fill_snoc hx hy]
        exact hUp.rekey (by simp) (by simp) rfl
      · simp only [writable_unref]
        exact Writable.recorded (by simp [hWritable]) (by simp)

end Separators

end Stoneleaf
