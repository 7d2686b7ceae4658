import Stoneleaf.BTree.Split
import Stoneleaf.BTree.MergeSpec

/-!
Splitting an overfull leaf keeps the tree sound, as long as the parent has room for one more
separator. A parent that has none is itself split, and that never succeeds: the fresh internal
page already has a first child, and no other can be given to it.
-/

namespace Stoneleaf

open Library Function Program SearchTree List BInternalPage
open Context (under)

section Split

variable {h : Nat} {ioFails : Nat → Bool} {s s' : TreeState} {i q : PageNum}
  {used free : List PageNum} {before after es : List (Key × Value)} {s₀ s₁ : TreeState}
  {free' : List PageNum} {frame : PageGap 0} {e : Key × Value} {p : PageNum}

/-- The outcome of splitting a leaf in two, before its parent knows the new page. -/
structure LeafSplit (s s' : TreeState) (used : List PageNum) (i q : PageNum)
    (before after : List (Key × Value)) (free : List PageNum) : Prop where
  freePages : FreePages s'.body s'.dbHeader free
  accounts : Accounts s'.dbHeader (q :: (used ++ [i] ++ free))
  root : s'.dbHeader.btreeRootPageNum = s.dbHeader.btreeRootPageNum
  same : ∀ n ∈ used, s'.body n = s.body n
  left : s'.body i = .leaf (.ofEntries before)
  right : s'.body q = .leaf (.ofEntries after)
  advances : Advances s s'
  writable : Writable s'

section Leaf

variable (hFree : FreePages s.body s.dbHeader free)
  (hAccounts : Accounts s.dbHeader (used ++ [i] ++ free))
  (hBody : s.body i = .leaf (.ofEntries (before ++ after)))
  (hSorted : ((before ++ after).map Prod.fst).Pairwise (· < ·))
  (hHalf : before.length = (before ++ after).length / 2) (hAfter : after ≠ [])
  (hHeld : Claimed s i) (hWritable : Writable s)
include hFree hAccounts hBody hSorted hHalf hAfter hHeld hWritable

theorem splitLeaf_spec :
    (splitLeaf (decodedEnv ioFails) i).Attains (Faulty ioFails) s
      fun result s' => ∃ free', some result.2 = after.head?.map Prod.fst ∧
        LeafSplit s s' used i result.1 before after free' := by
  obtain ⟨e, after, rfl⟩ := exists_cons_of_ne_nil hAfter
  simp only [splitLeaf, wp_bind]
  refine (wp_decodeLeaf hBody).2 ?_
  refine wp_of_returns (allocatePage_spec .btreeLeaf hFree hAccounts hWritable) ?_
  rintro result s₁ (⟨rfl, hFault⟩ | ⟨q, effects, free', rfl, hAllocated⟩)
  · simpa using hFault
  have hNe : i ≠ q := fun hEq =>
    (nodup_cons.1 hAllocated.accounts.nodup).1 (by simp [hEq])
  simp only [wp_bind, wp_recordPagerEffects, wp_frame, wp_setFrame]
  refine (wp_decodeLeaf (p := BLeafPage.ofEntries []) ?_).2 ?_
  · simp [decodedEnv, decodedFormat, BLeafPage.ofEntries]
  rw [BLeafPage.getKeyCount_ofEntries, BLeafPage.migrate_ofEntries hSorted hHalf.symm]
  simp only [nil_append, wp_orHalt_some]
  refine wp_writeBack_leaf.2 (wp_writeBack_leaf.2 ?_)
  simp only [wp_recordPageEffect, BLeafPage.keyAt_ofEntries, getElem?_cons_zero,
    Option.map_some, wp_orHalt_some, wp_pure]
  have hUsed : ∀ n ∈ 0 :: (used ++ free'), n ≠ i ∧ n ≠ q := by
    intro n hn
    rcases mem_cons.1 hn with rfl | hn
    · exact ⟨(hAllocated.accounts.bounds i (by simp)).1.symm,
        (hAllocated.accounts.bounds q (by simp)).1.symm⟩
    · have hPerm : (q :: (used ++ [i] ++ free')).Perm ([q, i] ++ (used ++ free')) := by
        simp
      have hNodup := hPerm.nodup hAllocated.accounts.nodup
      have hFar := (nodup_append.1 hNodup).2.2
      exact ⟨(hFar i (by simp) n hn).symm, (hFar q (by simp) n hn).symm⟩
  refine ⟨free', by simp, ?_, hAllocated.accounts, hAllocated.root, fun n hn => ?_, ?_, ?_, ?_, ?_⟩
  · refine hAllocated.freePages.congr ?_ fun n hn => ?_
    · obtain ⟨hi, hq⟩ := hUsed 0 (by simp)
      simp [hi, hq]
    · obtain ⟨hi, hq⟩ := hUsed n (by simp [hn])
      simp [hi, hq]
  · obtain ⟨hi, hq⟩ := hUsed n (by simp [hn])
    simpa [hi, hq] using hAllocated.same n (by simp [hn])
  · simp [hNe]
  · simp
  · simpa using hAllocated.advances
  · refine (Writable.recorded ?_ ?_).recorded ?_
    · simpa using hAllocated.writable
    · simpa using hAllocated.advances.held hHeld
    · simpa using hAllocated.held

theorem splitOverfull_leaf_spec :
    (splitOverfull (decodedEnv ioFails) i).Attains (Faulty ioFails) s
      fun result s' => ∃ free', some result.2 = after.head?.map Prod.fst ∧
        LeafSplit s s' used i result.1 before after free' := by
  obtain ⟨hNe, hLt⟩ := hAccounts.bounds i (by simp)
  simp only [splitOverfull, wp_bind]
  refine wp_get hNe hLt (fun hFault => by simpa using ⟨_, hFault⟩) ?_
  simp only [not_true_eq_false, if_false, wp_bind]
  refine (wp_peekPageType_leaf (by exact hBody)).2 ?_
  refine wp_markWalPending hHeld.1 ?_
  simp only [not_true_eq_false, if_false]
  refine wp_conseq (splitLeaf_spec (by exact hFree) (by exact hAccounts) (by exact hBody) hSorted
    hHalf hAfter (held_marked hHeld.1) (by simp [hWritable])) ?_
  rintro result s' ⟨free', hKey, hSplit⟩
  exact ⟨free', hKey, { hSplit with advances := Advances.trans (by simp) hSplit.advances }⟩

end Leaf

theorem handleSplittingRoot_spec {left right : PageNum} {k : Key}
    (hFree : FreePages s.body s.dbHeader free) (hAccounts : Accounts s.dbHeader (used ++ free))
    (hWritable : Writable s) :
    (handleSplittingRoot (decodedEnv ioFails) left right k).Attains (Faulty ioFails) s
      fun _ s' => ∃ r free', Rooted s s' (.internal ⟨[k], [left, right]⟩) used r free' := by
  refine wp_bind_of (wp_of_returns (allocatePage_spec .btreeInternal hFree hAccounts hWritable)
    (fun _ _ h => h)) ?_
  rintro result s₁ (⟨rfl, hFault⟩ | ⟨r, effects, free', rfl, hAllocated⟩)
  · simpa using hFault
  have hInsert : (⟨[], [left]⟩ : BInternalPage).insertSeparatorAt 0 k right =
      some ⟨[k], [left, right]⟩ := rfl
  simp only [wp_bind, wp_recordPagerEffects, wp_frame, wp_setFrame]
  refine (wp_decodeInternal (p := ⟨[], [0]⟩) ?_).2 ?_
  · simp [decodedEnv, decodedFormat]
  simp only [replaceLeftmostChild_mk, hInsert, wp_bind]
  refine (wp_writeBack_internal rfl).2 ?_
  simp only [wp_recordPageEffect]
  refine wp_of_returns (hAllocated.setBtreeRoot_spec (by simp; rfl) rfl
    (by simpa using hAllocated.advances) ?_) ?_
  · exact Writable.recorded (by simpa using hAllocated.writable) (by simpa using hAllocated.held)
  rintro result s₂ (⟨rfl, hFault⟩ | ⟨effects', rfl, hRooted⟩)
  · simpa using hFault
  · exact ⟨r, free', hRooted⟩

theorem insertIntoParent_spec {gap : PageGap h} {a b : PageTree h} {k : Key}
    {entry : TraversalPathEntry} (hParent : entry.parentPageNum = gap.label)
    (hIdx : entry.splitIdx = gap.keysLeft.length)
    (hBody : s.body gap.label = .internal ⟨gap.keysLeft ++ gap.keysRight,
      gap.left.map label ++ a.label :: gap.right.map label⟩) (hNe : gap.label ≠ 0)
    (hLt : gap.label < s.dbHeader.dbPageCount) (hLatch : s.latches gap.label = some .exclusive)
    (hWritable : Writable s) :
    (insertIntoParent (decodedEnv ioFails) a.label b.label k entry).Attains (Faulty ioFails) s
      fun result s' => result = decide (199 < (gap.keysLeft ++ k :: gap.keysRight).length) ∧
        s'.body = update s.body gap.label (nodeBody (gap.pair a k b)) ∧
        s'.dbHeader = s.dbHeader ∧ Advances s s' ∧ Writable s' := by
  have hInsert : (⟨gap.keysLeft ++ gap.keysRight,
      gap.left.map label ++ a.label :: gap.right.map label⟩ : BInternalPage).insertSeparatorAt
        gap.keysLeft.length k b.label = some (internalPage (gap.pair a k b)) := by
    simpa [Frame.pair] using insertSeparatorAt_cut rfl (by simp [gap.left_length])
      (by simp [gap.right_length])
  have hLength := gap.length_pair (a := a) (b := b) (k := k)
  simp only [insertIntoParent, wp_bind, hParent, hIdx]
  refine wp_get hNe hLt (fun hFault => by simpa using ⟨_, hFault⟩) ?_
  simp only [not_true_eq_false, if_false, wp_bind]
  refine wp_markWalPending hLatch ?_
  simp only [not_true_eq_false, if_false, wp_bind]
  refine (wp_decodeInternal (by exact hBody)).2 ?_
  simp only [hInsert, wp_bind]
  refine (wp_writeBack_internal (by simpa [Frame.pair] using hLength)).2 ?_
  simp only [wp_recordPageEffect, wp_unrefPage, wp_pure]
  refine ⟨rfl, by simp [Frame.pair], rfl, by simp, ?_⟩
  simp only [writable_unref]
  exact Writable.recorded (by simp [hWritable]) (by simp [hLatch])

section Internal

variable {ks : List Key} {cs : List PageNum} (hFree : FreePages s.body s.dbHeader free)
  (hAccounts : Accounts s.dbHeader (used ++ free)) (hBody : s.body p = .internal ⟨ks, cs⟩)
  (hKeys : ks ≠ []) (hWritable : Writable s)
include hFree hAccounts hBody hKeys hWritable

/-- Splitting an internal page cannot complete: the page that is to take the upper half has
a first child from the start. -/
theorem splitInternal_halts :
    (splitInternal (decodedEnv ioFails) p).wp s (fun _ _ => False) (fun _ _ => Faulty ioFails)
      (fun _ => True) := by
  have hMiddle : ks.length / 2 < ks.length :=
    Nat.div_lt_self (length_pos_of_ne_nil hKeys) (by decide)
  have hKey : (⟨ks, cs⟩ : BInternalPage).keyAt (ks.length / 2) = some (ks[ks.length / 2]) := by
    simp [BInternalPage.keyAt, hMiddle]
  simp only [splitInternal, wp_bind]
  refine (wp_decodeInternal hBody).2 ?_
  refine wp_mono (allocatePage_spec .btreeInternal hFree hAccounts hWritable) ?_
    (fun _ _ h => h.elim) fun _ _ => trivial
  rintro result s₁ (⟨rfl, hFault⟩ | ⟨r, effects, free', rfl, hAllocated⟩)
  · simpa using hFault
  simp only [wp_bind, wp_recordPagerEffects, wp_frame, wp_setFrame]
  refine (wp_decodeInternal (p := ⟨[], [0]⟩) ?_).2 ?_
  · simp [decodedEnv, decodedFormat]
  simp [hKey, migrate_of_ne_nil]

theorem propagateSplitting_internal_halts (hMem : p ∈ used)
    (hLatch : s.latches p = some .exclusive) (path : List TraversalPathEntry) :
    (propagateSplitting (decodedEnv ioFails) path p).wp s (fun _ _ => False)
      (fun _ _ => Faulty ioFails) (fun _ => True) := by
  obtain ⟨hNe, hLt⟩ := hAccounts.bounds p (by simp [hMem])
  have hSplit : (splitOverfull (decodedEnv ioFails) p).wp s (fun _ _ => False)
      (fun _ _ => Faulty ioFails) (fun _ => True) := by
    simp only [splitOverfull, wp_bind]
    refine wp_get hNe hLt (fun hFault => by simpa using ⟨_, hFault⟩) ?_
    simp only [not_true_eq_false, if_false, wp_bind]
    refine (wp_peekPageType_internal (by exact hBody)).2 ?_
    refine wp_markWalPending hLatch ?_
    simp only [not_true_eq_false, if_false]
    exact splitInternal_halts hFree hAccounts hBody hKeys (by simp [hWritable])
  cases path with
  | nil | cons entry rest => exact wp_bind_of hSplit fun _ _ h => h.elim

end Internal

/-- The parent of the page has no room for another separator. -/
def ParentFull : {h : Nat} → PageContext h → Prop
  | _, .top => False
  | _, .under frame _ => (frame.keysLeft ++ frame.keysRight).length = maxKeys btreeOrder

/-- Two halves of a leaf in the place of the leaf. -/
theorem ordered_split {A B : List (Key ×ₗ Bool)} (hBefore : before ≠ [])
    (hOrdered : (A ++ (leaf i (before ++ e :: after) : PageTree 0).marks ++ B).Pairwise (· < ·)) :
    (A ++ ((leaf i before : PageTree 0).marks ++ toLex (e.1, false) ::
      (leaf q (e :: after) : PageTree 0).marks) ++ B).Pairwise (· < ·) := by
  obtain ⟨before, d, rfl⟩ := exists_snoc_of_length_pos (length_pos_of_ne_nil hBefore)
  simp only [marks_leaf, map_append, map_cons, map_nil,
    append_assoc, cons_append, nil_append] at hOrdered ⊢
  rw [← append_assoc] at hOrdered ⊢
  exact sorted_insert_separator hOrdered

theorem LeafSplit.settled_top {r : PageNum}
    (hSplit : LeafSplit s₀ s₁ [] i q before (e :: after) free)
    (hOrdered : Ordered (leaf i (before ++ e :: after) : PageTree 0))
    (hBefore : before.length = 100) (hAfter : (e :: after).length = 100)
    (hRooted : Rooted s₁ s' (.internal ⟨[e.1], [i, q]⟩) [i, q] r free') :
    Settled s₀ s' (before ++ e :: after) := by
  have hLeft : Stored s'.body (leaf i before) := (hRooted.same i (by simp)).trans hSplit.left
  have hRight : Stored s'.body (leaf q (e :: after)) :=
    (hRooted.same q (by simp)).trans hSplit.right
  refine ⟨some ⟨1, branch r [e.1] [leaf i before, leaf q (e :: after)]⟩, free',
    ⟨hRooted.freePages, ?_, hRooted.root, ?_⟩, ?_, ?_, hSplit.advances.trans hRooted.advances,
    hRooted.writable⟩
  · simpa [treeLabels, labels_branch_flatMap] using hRooted.accounts
  · rintro _ ⟨⟩
    exact (stored_branch _ _ _).2 ⟨hRooted.node, rfl, by simp [hLeft, hRight]⟩
  · rintro _ ⟨⟩
    refine ⟨?_, by simp, by simp, ?_⟩
    · have hNe : before ≠ [] := ne_nil_of_length_pos (by omega)
      have hMarks := ordered_split (A := []) (B := []) (i := i) (q := q) hNe
        (by simpa [Ordered] using hOrdered)
      simpa [Ordered, marks, weave, filterMap_cons] using hMarks
    · simp only [childrenFilled_branch, forall_mem_cons, filled_leaf]
      exact ⟨by omega, by omega, by simp⟩
  · simp [treeEntries, entries_branch_flatMap]

theorem LeafSplit.focused_under {up : PageContext 1} {k : Key}
    (hFocus : Focused s₀ (.under frame up) (leaf i (before ++ after)) free)
    (hSplit : LeafSplit s₀ s₁ (under frame up).labels i q before after free')
    (hBody : s'.body = update s₁.body frame.label
      (nodeBody (frame.pair (leaf i before) k (leaf q after))))
    (hHeader : s'.dbHeader = s₁.dbHeader) :
    Focused s' up (frame.pair (leaf i before) k (leaf q after)) free' := by
  have hUp : Focused s₀ up (frame.fill (leaf i (before ++ after))) free :=
    focused_under_iff.1 hFocus
  have hTree := (Context.labels_close_perm (under frame up) (leaf i (before ++ after))).symm.trans
    (Context.labels_close_perm up (frame.fill (leaf i (before ++ after))))
  -- Splitting a leaf undoes the merge of its halves.
  have hHalves : (q :: (frame.fill (leaf i (before ++ after))).labels).Perm
      (frame.pair (leaf i before) k (leaf q after)).labels :=
    (fuse_leaf i q k before after).labels_perm
  have hMoved : (q :: (up.labels ++ (frame.fill (leaf i (before ++ after))).labels ++ free')).Perm
      (up.labels ++ q :: (frame.fill (leaf i (before ++ after))).labels ++ free') := by
    simpa using perm_middle.symm
  have hPerm := ((hTree.append_right free').cons q).trans
    (hMoved.trans ((hHalves.append_left up.labels).append_right free'))
  rw [labels_leaf] at hPerm
  have hSiblings : ∀ c ∈ frame.left ++ frame.right, Stored s₁.body c := fun c hc =>
    (((stored_fill_iff frame _).1 hUp.stored).2.1 c hc).congr fun n hn =>
      hSplit.same n (Context.mem_labels_under_of_sibling hc hn)
  refine focused_of_update hSplit.freePages (hSplit.accounts.perm hPerm) ?_ ?_
    ⟨frame.length_pair, ?_⟩ hBody hHeader
  · rw [hSplit.root, hUp.root]
    exact up.label_close_congr rfl
  · exact hUp.around.congr fun n hn => hSplit.same n (Context.mem_labels_under_of_up hn)
  · rw [forall_mem_append] at hSiblings
    refine forall_mem_append.2 ⟨hSiblings.1, forall_mem_cons.2 ⟨hSplit.left, forall_mem_cons.2
      ⟨hSplit.right, hSiblings.2⟩⟩⟩

/-- The split is complete when the parent has room for the promoted key. -/
theorem LeafSplit.settled_under {up : PageContext 1}
    (hFocus : Focused s₀ (.under frame up) (leaf i (before ++ e :: after)) free)
    (hSplit : LeafSplit s₀ s₁ (under frame up).labels i q before (e :: after) free')
    (hBody : s'.body = update s₁.body frame.label
      (nodeBody (frame.pair (leaf i before) e.1 (leaf q (e :: after)))))
    (hHeader : s'.dbHeader = s₁.dbHeader)
    (hOrdered : Ordered ((under frame up).close (leaf i (before ++ e :: after))).2)
    (hAround : FilledAround (.under frame up)) (hBefore : before.length = 100)
    (hAfter : (e :: after).length = 100)
    (hRoom : (frame.keysLeft ++ e.1 :: frame.keysRight).length ≤ 199) (hAdvances : Advances s₁ s')
    (hWritable : Writable s') :
    Settled s₀ s' ((under frame up).close (leaf i (before ++ e :: after))).2.entries := by
  obtain ⟨hMin, -, hSiblings, hAbove⟩ := hAround
  obtain ⟨A, B, hPair, hCut⟩ := exists_marks_around up frame
  rw [Ordered, Context.close_under, hCut] at hOrdered
  refine ⟨some (up.close _), free', focused_iff.1 (hSplit.focused_under hFocus hBody hHeader), ?_,
    ?_, hSplit.advances.trans hAdvances, hWritable⟩
  · rintro _ ⟨⟩
    refine ⟨?_, (rootFilled_close_iff _ _).2 ⟨hAbove, filledIn_branch_iff.2 ⟨?_, hRoom, ?_⟩⟩⟩
    · rw [Ordered, hPair]
      exact ordered_split (ne_nil_of_length_pos (by omega)) hOrdered
    · simp only [length_append, length_cons] at hMin ⊢
      omega
    · simp only [forall_mem_append, forall_mem_cons, filled_leaf] at hSiblings ⊢
      exact ⟨hSiblings.1, by omega, by omega, hSiblings.2⟩
  · exact entries_close_congr (fuse_leaf i q e.1 before (e :: after)).entries_eq.symm

/-- An overfull leaf is split, and the tree is sound again unless its parent was full. The
source does not survive a full parent. -/
theorem propagateSplitting_leaf_spec {c : PageContext 0} {path : List TraversalPathEntry}
    (hPath : PathFor c path) (hFocus : Focused s c (leaf i es) free)
    (hOrdered : Ordered (c.close (leaf i es)).2) (hAround : FilledAround c)
    (hLength : es.length = 200)
    (hLatched : ∀ entry ∈ path, s.latches entry.parentPageNum = some .exclusive)
    (hWritable : Writable s) (hHeld : Claimed s i) :
    (propagateSplitting (decodedEnv ioFails) path i).wp s
      (fun _ s' => ¬ParentFull c ∧ Settled s s' (c.close (leaf i es)).2.entries)
      (fun _ _ => Faulty ioFails) (fun _ => ParentFull c) := by
  obtain ⟨before, e, after, rfl, hBefore, hAfter⟩ : ∃ before e after,
      es = before ++ e :: after ∧ before.length = 100 ∧ (e :: after).length = 100 := by
    have hDrop : 0 < (es.drop 100).length := by simp [hLength]
    obtain ⟨e, after, hCons⟩ := exists_cons_of_length_pos hDrop
    exact ⟨es.take 100, e, after, by rw [← hCons, take_append_drop], by simp [hLength],
      by simp [← hCons, hLength]⟩
  have hAccounts : Accounts s.dbHeader (c.labels ++ [i] ++ free) := by
    simpa using hFocus.accounts
  have hSorted : ((before ++ e :: after).map Prod.fst).Pairwise (· < ·) := by
    simpa using hOrdered.of_close.sorted_entries
  have hSplit : (splitOverfull (decodedEnv ioFails) i).wp s
      (fun result s' => ∃ free', some result.2 = some e.1 ∧
        LeafSplit s s' c.labels i result.1 before (e :: after) free')
      (fun _ _ => Faulty ioFails) (fun _ => ParentFull c) :=
    wp_mono (splitOverfull_leaf_spec hFocus.freePages hAccounts hFocus.stored hSorted
      (by rw [hLength, hBefore]) (by simp) hHeld hWritable)
      (fun _ _ h => h) (fun _ _ h => h) fun _ h => h.elim
  cases c with
  | top =>
    have hNil : path = [] := hPath
    subst hNil
    refine wp_bind_of hSplit ?_
    rintro ⟨q, promoted⟩ s₁ ⟨free', hPromoted, hSplit⟩
    obtain rfl : promoted = e.1 := Option.some.inj hPromoted
    rw [wp_ensuring]
    have hUsed : Accounts s₁.dbHeader ([i, q] ++ free') :=
      hSplit.accounts.perm (List.Perm.swap _ _ _)
    refine wp_mono (handleSplittingRoot_spec hSplit.freePages hUsed hSplit.writable) ?_
      (fun _ _ h => h) fun _ h => h.elim
    rintro _ s₂ ⟨r, free'', hRooted⟩
    have hDone := hSplit.settled_top hOrdered hBefore hAfter hRooted
    exact ⟨id, by simpa using (hDone.unref i).unref q⟩
  | under frame up =>
    obtain ⟨entry, rest, rfl, hParent, hChild, hRest⟩ := hPath
    have hIdx : entry.splitIdx = frame.keysLeft.length := by
      rw [← hChild]
      rfl
    have hMem : frame.label ∈ (under frame up).labels := Context.label_mem_labels_under
    refine wp_bind_of hSplit ?_
    rintro ⟨q, promoted⟩ s₁ ⟨free', hPromoted, hSplit⟩
    obtain rfl : promoted = e.1 := Option.some.inj hPromoted
    obtain ⟨hNe, hLt⟩ := hSplit.accounts.bounds frame.label (by simp [hMem])
    have hLatch : s.latches frame.label = some .exclusive := by
      rw [← hParent]
      exact hLatched entry mem_cons_self
    have hLatch₁ : s₁.latches frame.label = some .exclusive := hSplit.advances.latched _ hLatch
    have hBody : s₁.body frame.label = .internal ⟨frame.keysLeft ++ frame.keysRight,
        frame.left.map label ++ i :: frame.right.map label⟩ := by
      rw [hSplit.same _ hMem]
      exact hFocus.around.1
    refine wp_bind_of (wp_mono (insertIntoParent_spec (a := leaf i before)
      (b := leaf q (e :: after)) (k := e.1) hParent hIdx hBody hNe hLt hLatch₁ hSplit.writable)
      (fun _ _ h => h) (fun _ _ h => h) fun _ h => h.elim) ?_
    rintro overfull s₂ ⟨rfl, hBody₂, hHeader, hAdvances, hWritable₂⟩
    have hMax := hAround.2.1
    by_cases hFull : 199 < (frame.keysLeft ++ e.1 :: frame.keysRight).length
    · have hParentFull : ParentFull (.under frame up) := by
        simp only [ParentFull, maxKeys_btreeOrder, length_append, length_cons] at *
        omega
      simp only [hFull, decide_true, if_true, hParent]
      have hFocus₂ := hSplit.focused_under hFocus hBody₂ hHeader
      refine wp_mono (propagateSplitting_internal_halts hFocus₂.freePages hFocus₂.accounts
        ((stored_branch _ _ _).1 hFocus₂.stored).1 (by simp) hWritable₂
        (by simp [Frame.pair, labels_branch]) (hAdvances.latched _ hLatch₁) rest)
        (fun _ _ h => h.elim) (fun _ _ h => h) fun _ _ => hParentFull
    · have hRoom : ¬ParentFull (.under frame up) := by
        simp only [ParentFull, maxKeys_btreeOrder, length_append, length_cons] at *
        omega
      simp only [hFull, decide_false, Bool.false_eq_true, if_false, wp_pure]
      exact ⟨hRoom, hSplit.settled_under hFocus hBody₂ hHeader hOrdered hAround hBefore hAfter
        (Nat.le_of_not_lt hFull) hAdvances hWritable₂⟩

end Split

end Stoneleaf
