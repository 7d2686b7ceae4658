import Stoneleaf.BTree.SplitSpec

/-!
A descent ends at the leaf whose surroundings leave room for the key, and changes nothing but
latches and pins. Page counts bound its length, so it always ends.
-/

namespace Stoneleaf

open Library Program SearchTree List KeyCodec

section Search

variable {es before after : List (Key × Value)} {key : Key}

/-- A sorted leaf holds a key at one place, or has one place for it. -/
theorem entries_cut (hSorted : (es.map Prod.fst).Pairwise (· < ·)) (key : Key) :
    ∃ before after, (∀ e ∈ before, e.1 < key) ∧ (∀ e ∈ after, key < e.1) ∧
      (es = before ++ after ∨ ∃ value, es = before ++ (key, value) :: after) := by
  induction es with
  | nil => exact ⟨[], [], by simp, by simp, Or.inl rfl⟩
  | cons e es ih =>
    obtain ⟨hHead, hTail⟩ := pairwise_cons.1 hSorted
    rcases lt_trichotomy e.1 key with hLt | hEq | hGt
    · obtain ⟨before, after, hBefore, hAfter, hCut⟩ := ih hTail
      refine ⟨e :: before, after, by simpa [hLt] using hBefore, hAfter, ?_⟩
      rcases hCut with rfl | ⟨value, rfl⟩
      · exact Or.inl rfl
      · exact Or.inr ⟨value, rfl⟩
    · refine ⟨[], es, by simp, fun x hx => ?_, Or.inr ⟨e.2, by simp [← hEq]⟩⟩
      exact hEq ▸ hHead x.1 (mem_map_of_mem hx)
    · refine ⟨[], e :: es, by simp, ?_, Or.inl rfl⟩
      rintro x (_ | ⟨_, hx⟩)
      · exact hGt
      · exact hGt.trans (hHead x.1 (mem_map_of_mem hx))

namespace BLeafPage

section

variable (hBefore : ∀ e ∈ before, e.1 < key) (hAfter : ∀ e ∈ after, key < e.1)
include hBefore hAfter

theorem lowerBoundKey_cut : lowerBoundKey (ofEntries (before ++ after)).keys key = before.length :=
  lowerBoundKey_ofEntries hBefore fun e he => (hAfter e he).le

theorem lowerBoundKey_cut_found {value : Value} :
    lowerBoundKey (ofEntries (before ++ (key, value) :: after)).keys key = before.length := by
  refine lowerBoundKey_ofEntries hBefore ?_
  rintro e (_ | ⟨_, he⟩)
  · exact le_rfl
  · exact (hAfter e he).le

theorem not_mem_cut : key ∉ (before ++ after).map Prod.fst := by
  simp only [mem_map, not_exists, not_and, mem_append]
  rintro e (he | he) rfl
  · exact (hBefore e he).false
  · exact (hAfter e he).false

theorem keyExists_cut : (ofEntries (before ++ after)).keyExists key = false := by
  rw [keyExists, lowerBoundKey_cut hBefore hAfter, keyAt_ofEntries]
  cases after with
  | nil => simp
  | cons e after =>
    have hNe : equal e.1 key = false := by
      rw [← Bool.not_eq_true, equal_iff]
      exact (hAfter e mem_cons_self).ne'
    simpa using hNe

theorem keyExists_cut_found {value : Value} :
    (ofEntries (before ++ (key, value) :: after)).keyExists key = true := by
  rw [keyExists, lowerBoundKey_cut_found hBefore hAfter, keyAt_ofEntries]
  simp

end

theorem keyExists_iff (hSorted : (es.map Prod.fst).Pairwise (· < ·)) :
    (ofEntries es).keyExists key = true ↔ key ∈ es.map Prod.fst := by
  obtain ⟨before, after, hBefore, hAfter, rfl | ⟨value, rfl⟩⟩ := entries_cut hSorted key
  · rw [keyExists_cut hBefore hAfter]
    exact iff_of_false Bool.false_ne_true (not_mem_cut hBefore hAfter)
  · simp [keyExists_cut_found hBefore hAfter]

end BLeafPage

/-- The child that is followed for a key lies between the separators up to the key and those
above it. -/
theorem BInternalPage.childFor_eq {keys : List Key} {children : List PageNum}
    (hSorted : keys.Pairwise (· < ·)) (hNe : keys ≠ [])
    (hLength : children.length = keys.length + 1) (key : Key) :
    ∃ l r idx dir, keys = l ++ r ∧ (∀ k ∈ l, k ≤ key) ∧ (∀ k ∈ r, key < k) ∧
      (⟨keys, children⟩ : BInternalPage).childFor key = (children[l.length]?, idx, dir) ∧
      ∀ p, (⟨p, idx, dir⟩ : TraversalPathEntry).childIdx = l.length := by
  obtain ⟨before, after, rfl, hBefore, hAfter⟩ :=
    exists_split_of_pairwise_le keys (hSorted.imp le_of_lt) key
  have hIdx := lowerBoundKey_append hBefore hAfter
  have hOrder := (pairwise_append.1 hSorted).2.1
  cases after with
  | nil =>
    have hPos : 0 < before.length := length_pos_of_ne_nil (by simpa using hNe)
    have hLast : before.length - 1 + 1 = before.length := Nat.sub_add_cancel hPos
    have hLt : before.length - 1 < before.length := Nat.sub_lt hPos Nat.one_pos
    refine ⟨before, [], before.length - 1, .right, rfl, fun k hk => (hBefore k hk).le, by simp,
      ?_, fun p => hLast⟩
    simp only [append_nil] at hIdx hLength
    simp [childFor, hIdx, keyAt, getRightChild, hLength, hLast, hLt]
  | cons sep after =>
    have hRest : ∀ k ∈ after, sep < k := (pairwise_cons.1 hOrder).1
    have hKey : (⟨before ++ sep :: after, children⟩ : BInternalPage).keyAt before.length =
        some sep := keyAt_cut rfl
    have hLt : before.length < (before ++ sep :: after).length := by simp
    by_cases hEq : sep = key
    · refine ⟨before ++ [sep], after, before.length, .right, by simp, ?_, ?_, ?_, fun p => ?_⟩
      · intro k hk
        rcases mem_append.1 hk with hk | hk
        · exact (hBefore k hk).le
        · rw [mem_singleton.1 hk, hEq]
      · exact hEq ▸ hRest
      · have hTrue : equal sep key = true := (equal_iff _ _).2 hEq
        simp [childFor, hIdx, hKey, hTrue, getRightChild, hLength]
      · simp [TraversalPathEntry.childIdx]
    · have hAbove : key < sep := lt_of_le_of_ne (hAfter sep mem_cons_self) (Ne.symm hEq)
      refine ⟨before, sep :: after, before.length, .left, rfl, fun k hk => (hBefore k hk).le,
        ?_, ?_, fun p => rfl⟩
      · rintro k (_ | ⟨_, hk⟩)
        · exact hAbove
        · exact hAbove.trans (hRest k hk)
      · have hFalse : equal sep key = false := by
          rw [← Bool.not_eq_true, equal_iff]
          exact hEq
        simp [childFor, hIdx, hKey, hFalse, getLeftChild, hLength]

end Search

section Routing

variable {h : Nat} {key : Key}

/-- The key belongs to the subtree: everything before it in the tree is below the key and
everything after it above. -/
def Routed (key : Key) (c : PageContext h) : Prop :=
  (∀ m ∈ c.leftTokens.filterMap Token.asMark, m < toLex (key, true)) ∧
    ∀ m ∈ c.rightTokens.filterMap Token.asMark, toLex (key, true) < m

theorem routed_top : Routed key (.top : PageContext h) := by
  simp [Routed]

/-- Following the separators of a branch keeps the key in the subtree. -/
theorem Routed.under {c : PageContext (h + 1)} {frame : PageGap h}
    {t : PageTree h} (hRouted : Routed key c) (hOrdered : Ordered (frame.fill t))
    (hLeft : ∀ k ∈ frame.keysLeft, k ≤ key) (hRight : ∀ k ∈ frame.keysRight, key < k) :
    Routed key (.under frame c) := by
  obtain ⟨p, l, x, r, y, hx, hy⟩ := frame
  rw [Ordered, Frame.fill, marks_branch_cut _ hx, append_assoc] at hOrdered
  obtain ⟨hSortedLeft, hRest, -⟩ := pairwise_append.1 hOrdered
  have hSortedRight := (pairwise_append.1 hRest).2.1
  constructor
  · intro m hm
    simp only [Context.leftTokens_under, filterMap_append, filterMap_cons,
      Token.asMark_label, mem_append] at hm
    rcases hm with hm | hm
    · exact hRouted.1 m hm
    rcases eq_nil_or_concat l with rfl | ⟨l, k, rfl⟩
    · have hNil : x = [] := length_eq_zero_iff.1 hx
      simp [hNil] at hm
    obtain ⟨x, c, rfl⟩ := exists_snoc_of_length_pos (by simp at hx; omega : 0 < x.length)
    simp only [concat_eq_append] at hx hm hSortedLeft hLeft
    have hMark : (toLex (k, false) : Key ×ₗ Bool) < toLex (key, true) := by
      have hLe : k ≤ key := hLeft k (by simp)
      rcases hLe.lt_or_eq with hLt | rfl <;> simp [Prod.Lex.toLex_lt_toLex, *]
    rw [Context.weaveLeft_snoc _ _ _ (by simpa using hx)] at hm hSortedLeft
    simp only [filterMap_append, filterMap_cons, Token.asMark_separator,
      filterMap_nil, ← append_assoc] at hm hSortedLeft
    rcases mem_append.1 hm with hm | hm
    · exact ((pairwise_append.1 hSortedLeft).2.2 m hm _ (by simp)).trans hMark
    · rwa [mem_singleton.1 hm]
  · intro m hm
    simp only [Context.rightTokens_under, filterMap_append, mem_append] at hm
    rcases hm with hm | hm
    · cases r with
      | nil =>
        have hNil : y = [] := length_eq_zero_iff.1 hy
        simp [hNil] at hm
      | cons k r =>
        obtain ⟨c, y, rfl⟩ := exists_cons_of_length_eq_add_one hy
        have hMark : (toLex (key, true) : Key ×ₗ Bool) < toLex (k, false) := by
          simp [Prod.Lex.toLex_lt_toLex, hRight k mem_cons_self]
        rw [weaveRight_cons, filterMap_cons] at hm hSortedRight
        rcases mem_cons.1 hm with rfl | hm
        · exact hMark
        · exact hMark.trans ((pairwise_cons.1 hSortedRight).1 m hm)
    · exact hRouted.2 m hm

end Routing

section Observing

variable {P : Type} {s s' s'' : OpState P} {n m : PageNum}

/-- Nothing but latches, pins and the number of pager calls changes. -/
def Observes (s s' : OpState P) : Prop :=
  ∃ latches refs calls, s' = { s with latches := latches, refs := refs, calls := calls }

theorem Observes.refl (s : OpState P) : Observes s s :=
  ⟨_, _, _, rfl⟩

theorem Observes.trans (h : Observes s s') (h' : Observes s' s'') : Observes s s'' := by
  obtain ⟨_, _, _, rfl⟩ := h
  obtain ⟨_, _, _, rfl⟩ := h'
  exact ⟨_, _, _, rfl⟩

theorem Observes.dbHeader (h : Observes s s') : s'.dbHeader = s.dbHeader := by
  obtain ⟨_, _, _, rfl⟩ := h
  rfl

theorem Observes.body {s s' : TreeState} (h : Observes s s') : s'.body = s.body := by
  obtain ⟨_, _, _, rfl⟩ := h
  rfl

/-- A step that gives up no latch on the given page. -/
structure Keeps (n : PageNum) (s s' : OpState P) : Prop where
  observes : Observes s s'
  noShared : NoShared s → NoShared s'
  latch : s'.latches n = s.latches n

theorem Keeps.refl (n : PageNum) (s : OpState P) : Keeps n s s :=
  ⟨Observes.refl s, id, rfl⟩

theorem keeps_releaseAllExclusiveExcept (n : PageNum) (s : OpState P) :
    Keeps n s { s with latches := fun m =>
      if m ≠ n ∧ s.latches m = some .exclusive then none else s.latches m } := by
  refine ⟨⟨_, _, _, rfl⟩, fun hShared m => ?_, by simp⟩
  dsimp only
  split
  · simp
  · exact hShared m

variable {failed : BTreeStatus → OpState P → Prop} {halted : OpState P → Prop}
  {okay : Unit → OpState P → Prop} {mode : PageLatchMode}

@[simp] theorem wp_releaseAll {okay : Unit → OpState P → Prop} :
    releaseAll.wp s okay failed halted ↔ okay () { s with latches := fun _ => none } := Iff.rfl

theorem wp_lockPage (hShared : mode = .exclusive → NoShared s)
    (hOk : ∀ s', Observes s s' → (mode = .exclusive → s' = s.locked n) → okay () s') :
    (lockPage mode n).wp s okay failed halted := by
  cases mode with
  | shared =>
    refine hOk _ ?_ (by simp)
    dsimp only
    split
    · exact Observes.refl s
    · exact ⟨_, _, _, rfl⟩
  | exclusive =>
    refine wp_lockExclusive (hShared rfl n) (hOk _ ⟨_, _, _, rfl⟩ fun _ => rfl)

/-- The parent is given up on a shared descent only. -/
theorem wp_releaseIfShared (hOk : ∀ s', Observes s s' → (mode = .exclusive → s' = s) → okay () s') :
    (releaseIfShared mode n).wp s okay failed halted := by
  cases mode with
  | shared => exact hOk _ ⟨_, _, _, rfl⟩ (by simp)
  | exclusive => exact hOk _ (Observes.refl s) fun _ => rfl

end Observing

section Checks

variable {h : Nat} {ioFails : Nat → Bool} {s : TreeState} {key : Key} {n i : PageNum}
  {mutation : BTreeMutationType} {es : List (Key × Value)}

/-- The leaf takes the key without being split. -/
def HasRoom (key : Key) (t : PageTree h) : Prop :=
  h = 0 → key ∈ t.entries.map Prod.fst ∨ t.size < 199

theorem hasRoom_leaf_iff (hSorted : (es.map Prod.fst).Pairwise (· < ·)) :
    HasRoom key (leaf i es : PageTree 0) ↔
      (BLeafPage.ofEntries es).keyExists key = true ∨ es.length < 199 := by
  simp [HasRoom, BLeafPage.keyExists_iff hSorted]

theorem checkRootLeaf_spec (hBody : s.body n = .leaf (.ofEntries es))
    (hSorted : (es.map Prod.fst).Pairwise (· < ·)) :
    (checkRootLeaf (decodedEnv ioFails) mutation key n).Returns s
      fun restart s' => Keeps n s s' ∧ (mutation = .insert → restart = false →
        HasRoom key (leaf i es : PageTree 0)) := by
  cases mutation with
  | none => exact ⟨Keeps.refl n s, by simp⟩
  | insert =>
    simp only [checkRootLeaf, wp_bind]
    refine (wp_decodeLeaf hBody).2 ?_
    rw [wp_ite]
    refine ⟨fun hSafe => ?_, fun _ => ⟨Keeps.refl n s, by simp⟩⟩
    exact ⟨keeps_releaseAllExclusiveExcept n s, fun _ _ =>
      (hasRoom_leaf_iff hSorted).2 (by simpa using hSafe)⟩
  | remove =>
    simp only [checkRootLeaf, wp_bind]
    refine (wp_decodeLeaf hBody).2 ?_
    rw [wp_ite]
    exact ⟨fun _ => ⟨keeps_releaseAllExclusiveExcept n s, by simp⟩,
      fun _ => ⟨Keeps.refl n s, by simp⟩⟩

theorem checkChild_spec {t : PageTree h} (hBody : s.body n = nodeBody t) (hOrdered : Ordered t) :
    (checkChild (decodedEnv ioFails) mutation key (nodeType h) n).Returns s
      fun restart s' => Keeps n s s' ∧ (mutation = .insert → restart = false → HasRoom key t) := by
  cases h with
  | zero =>
    obtain ⟨i, es, rfl⟩ := eq_leaf t
    have hLeaf : s.body n = .leaf (.ofEntries es) := hBody
    have hSorted : (es.map Prod.fst).Pairwise (· < ·) := by simpa using hOrdered.sorted_entries
    cases mutation with
    | none => exact ⟨Keeps.refl n s, by simp⟩
    | insert =>
      change (checkRootLeaf (decodedEnv ioFails) .insert key n).wp _ _ _ _
      exact checkRootLeaf_spec hLeaf hSorted
    | remove =>
      simp only [nodeType, checkChild, wp_bind]
      refine (wp_decodeLeaf hLeaf).2 ?_
      rw [wp_ite]
      exact ⟨fun _ => ⟨keeps_releaseAllExclusiveExcept n s, by simp⟩,
        fun _ => ⟨Keeps.refl n s, by simp⟩⟩
  | succ h =>
    cases mutation with
    | none => exact ⟨Keeps.refl n s, by simp⟩
    | insert =>
      simp only [nodeType, checkChild, wp_bind]
      refine (wp_decodeInternal hBody).2 ?_
      rw [wp_ite]
      exact ⟨fun _ => ⟨keeps_releaseAllExclusiveExcept n s,
        fun _ _ hZero => absurd hZero (Nat.succ_ne_zero h)⟩,
        fun _ => ⟨Keeps.refl n s, fun _ _ hZero => absurd hZero (Nat.succ_ne_zero h)⟩⟩
    | remove =>
      simp only [nodeType, checkChild, wp_bind]
      refine (wp_decodeInternal hBody).2 ?_
      rw [wp_ite]
      exact ⟨fun _ => ⟨keeps_releaseAllExclusiveExcept n s, by simp⟩,
        fun _ => ⟨Keeps.refl n s, by simp⟩⟩

end Checks

section Loop

variable {ioFails : Nat → Bool} {s s' : TreeState} {tree : SomeTree} {key : Key}
  {mode : PageLatchMode} {mutation : BTreeMutationType} {traversal : BTreeTraversalMode}
  {free : List PageNum}

/-- The pages latched so far are those of the path, when none is to be given up. -/
def PathLatched (mode : PageLatchMode) (traversal : BTreeTraversalMode)
    (path : List TraversalPathEntry) (s : TreeState) : Prop :=
  mode = .exclusive → traversal = .pessimistic →
    ∀ entry ∈ path, s.latches entry.parentPageNum = some .exclusive

/-- A descent under way: where it stands in the tree, and what is latched. -/
structure Descending {h : Nat} (s s' : TreeState) (tree : SomeTree) (key : Key)
    (mode : PageLatchMode) (traversal : BTreeTraversalMode) (c : PageContext h) (t : PageTree h)
    (path : List TraversalPathEntry) : Prop where
  close : c.close t = tree
  pathFor : PathFor c path
  routed : Routed key c
  observes : Observes s s'
  noShared : mode = .exclusive → NoShared s'
  latch : mode = .exclusive → s'.latches t.label = some .exclusive
  pathLatched : PathLatched mode traversal path s'

/-- The outcome of a descent. Without a restart, a leaf reached for an insert has room or all
of its ancestors are latched. -/
structure Reached (s s' : TreeState) (tree : SomeTree) (key : Key)
    (mode : PageLatchMode) (mutation : BTreeMutationType) (traversal : BTreeTraversalMode)
    (descent : LeafDescent) (c : PageContext 0) (es : List (Key × Value)) : Prop where
  descending : Descending s s' tree key mode traversal c
    (leaf descent.leafPageNum es) descent.path
  noRestart : traversal = .pessimistic → descent.requiresPessimisticRestart = false
  hasRoom : mode = .exclusive → traversal = .optimistic → mutation = .insert →
    descent.requiresPessimisticRestart = false →
    HasRoom key (leaf descent.leafPageNum es : PageTree 0)

/-- Outside the optimistic checks nothing is released and no restart is asked for. -/
theorem wp_checkIfOptimistic {h : Nat} {t : PageTree h} {n : PageNum} {check : Op DecodedPage Bool}
    {okay : Bool → TreeState → Prop}
    (hCheck : check.Returns s
      fun restart s' => Keeps n s s' ∧ (mutation = .insert → restart = false → HasRoom key t))
    (hOk : ∀ restart s', Keeps n s s' → (traversal = .pessimistic → s' = s ∧ restart = false) →
      (mode = .exclusive → traversal = .optimistic → mutation = .insert → restart = false →
        HasRoom key t) → okay restart s') :
    (checkIfOptimistic mode traversal check).Attains (Faulty ioFails) s okay := by
  rw [Attains, checkIfOptimistic, wp_ite]
  refine ⟨fun hMode => ?_, fun hMode => ?_⟩
  · refine wp_of_returns hCheck ?_
    rintro restart s' ⟨hKeeps, hRoom⟩
    exact hOk restart s' hKeeps (by simp [hMode.2]) fun _ _ => hRoom
  · exact hOk false s (Keeps.refl n s) (fun _ => ⟨rfl, rfl⟩) fun hExclusive hOptimistic =>
      (hMode ⟨hExclusive, hOptimistic⟩).elim

theorem FilledIn.keys_ne_nil {h : Nat} {c : PageContext (h + 1)} {p : PageNum} {ks : List Key}
    {cs : List (PageTree h)} (hFilled : FilledIn c (branch p ks cs)) : ks ≠ [] := by
  refine ne_nil_of_length_pos ?_
  cases c with
  | top => exact hFilled.2.1 (Nat.succ_ne_zero h)
  | under frame up => exact Nat.lt_of_lt_of_le (by decide) ((filled_branch _ _ _).1 hFilled).1

/-- A branch in the tree, opened at the child that is followed for the key. -/
theorem exists_frame_childFor {h : Nat} {c : PageContext (h + 1)} (t : PageTree (h + 1))
    (hStored : Stored s.body t) (hOrdered : Ordered t) (hFilled : FilledIn c t)
    (hRouted : Routed key c) :
    ∃ (frame : PageGap h) (t' : PageTree h) (idx : Nat)
      (dir : ChildDirection), t = frame.fill t' ∧ Routed key (.under frame c) ∧
      s.body t.label = .internal (internalPage t) ∧
      (internalPage t).childFor key = (some t'.label, idx, dir) ∧
      (⟨t.label, idx, dir⟩ : TraversalPathEntry).childIdx = frame.keysLeft.length := by
  obtain ⟨p, ks, cs, rfl⟩ := eq_branch t
  obtain ⟨hBody, hLength, -⟩ := (stored_branch p ks cs).1 hStored
  have hMarks : ((weave tokens ks cs).filterMap Token.asMark).Pairwise (· < ·) := by
    simpa [Ordered, marks_branch] using hOrdered
  have hSorted : ks.Pairwise (· < ·) := sorted_separators hLength hMarks
  obtain ⟨l, r, idx, dir, rfl, hLeft, hRight, hChild, hIdx⟩ :=
    BInternalPage.childFor_eq hSorted hFilled.keys_ne_nil
      (show (cs.map label).length = ks.length + 1 by simpa using hLength) key
  obtain ⟨x, t', y, rfl, hx⟩ := exists_cut
    (show l.length < cs.length by rw [hLength, length_append]; omega)
  have hy : y.length = r.length := by
    simp only [length_append, length_cons] at hLength
    omega
  let frame : PageGap h := ⟨p, l, x, r, y, hx.symm, hy⟩
  refine ⟨frame, t', idx, dir, rfl, Routed.under hRouted (t := t') hOrdered hLeft hRight, hBody,
    ?_, hIdx p⟩
  rw [internalPage_branch, hChild, hx]
  simp

/-- One step of the descent, from a branch to the child that is followed for the key. -/
theorem Descending.step {h fuel : Nat} {s₀ : TreeState} {c : PageContext (h + 1)}
    {t : PageTree (h + 1)} {path : List TraversalPathEntry}
    {okay : LeafDescent → TreeState → Prop}
    (hDescending : Descending s₀ s tree key mode traversal c t path)
    (hRep : Represents s₀ (some tree) free) (hOrdered : Ordered tree.2)
    (hFilled : RootFilled tree.2)
    (hNext : ∀ (frame : PageGap h) (t' : PageTree h)
      (entry : TraversalPathEntry) (restart : Bool) (s' : TreeState),
      Descending s₀ s' tree key mode traversal (.under frame c) t' (entry :: path) →
      (traversal = .pessimistic → restart = false) →
      (mode = .exclusive → traversal = .optimistic → mutation = .insert → restart = false →
        HasRoom key t') → (if nodeType h = .leaf then pure ⟨t'.label, entry :: path, restart⟩
        else descendLoop (decodedEnv ioFails) key mode mutation traversal fuel t'.label
          (entry :: path) : Op DecodedPage LeafDescent).Attains (Faulty ioFails) s' okay) :
    (descendLoop (decodedEnv ioFails) key mode mutation traversal (fuel + 1) t.label path).Attains
      (Faulty ioFails) s okay := by
  obtain ⟨rfl, hPath, hRouted, hObserves, hShared, hLatch, hPathLatched⟩ := hDescending
  have hFocus : Focused s c t free :=
    focused_iff.2 (hRep.of_eq hObserves.body hObserves.dbHeader)
  obtain ⟨hAround, hIn⟩ := (rootFilled_close_iff c t).1 hFilled
  obtain ⟨frame, t', idx, dir, rfl, hRouted', hBody, hChild, hIdx⟩ :=
    exists_frame_childFor t hFocus.stored hOrdered.of_close hIn hRouted
  have hUnder : Focused s (.under frame c) t' free := focused_under_iff.2 hFocus
  have hOrdered' : Ordered t' := Ordered.of_close (c := .under frame c) hOrdered
  obtain ⟨hNe, hLt⟩ := hUnder.accounts.bounds t'.label (by simp [t'.label_mem_labels])
  simp only [descendLoop, wp_bind]
  refine (wp_decodeInternal hBody).2 ?_
  simp only [hChild, wp_orHalt_some]
  refine wp_lockPage hShared fun s₁ hObserves₁ hLocked => ?_
  have hBody₁ : s₁.body = s.body := hObserves₁.body
  refine wp_get hNe (by rwa [hObserves₁.dbHeader]) (fun hFault => ?_) ?_
  · have hFaulty : Faulty ioFails := ⟨_, hFault⟩
    simp only [Bool.false_eq_true, not_false_eq_true, if_true, wp_bind, wp_unrefPage]
    exact wp_releaseIfShared fun _ _ _ => hFaulty
  simp only [not_true_eq_false, if_false, wp_bind]
  have hNode : (s₁.pinned t'.label).body t'.label = nodeBody t' := by
    simpa [hBody₁] using ((stored_iff t').1 hUnder.stored).1
  refine (wp_peekPageType_node hNode).2 ?_
  refine wp_checkIfOptimistic (checkChild_spec hNode hOrdered') ?_
  intro restart s₂ hKeeps hPessimistic hRoom
  simp only [wp_unrefPage]
  refine wp_releaseIfShared fun s₃ hObserves₃ hSame => ?_
  have hLatches : mode = .exclusive → s₃.latches = s₂.latches := fun hMode => by simp [hSame hMode]
  refine hNext frame t' _ restart s₃ ⟨rfl, ⟨_, _, rfl, rfl, hIdx, hPath⟩, hRouted', ?_, ?_, ?_, ?_⟩
    (fun hMode => (hPessimistic hMode).2) hRoom
  · exact ((hObserves.trans hObserves₁).trans (Observes.trans ⟨_, _, _, rfl⟩ hKeeps.observes)).trans
      (Observes.trans ⟨_, _, _, rfl⟩ hObserves₃)
  · intro hMode n
    rw [hLatches hMode]
    refine hKeeps.noShared ?_ n
    rw [hLocked hMode]
    exact (hShared hMode).locked t'.label
  · intro hMode
    rw [hLatches hMode, hKeeps.latch, hLocked hMode]
    simp
  · intro hMode hTraversal entry hEntry
    rw [hLatches hMode, (hPessimistic hTraversal).1, hLocked hMode]
    have hOld : s.latches entry.parentPageNum = some .exclusive := by
      rcases mem_cons.1 hEntry with rfl | hEntry
      · exact hLatch hMode
      · exact hPathLatched hMode hTraversal entry hEntry
    simp [Function.update_apply, hOld]

theorem descendLoop_spec {s₀ : TreeState} (hRep : Represents s₀ (some tree) free)
    (hOrdered : Ordered tree.2) (hFilled : RootFilled tree.2) (h : Nat) :
    ∀ {c : PageContext (h + 1)} {t : PageTree (h + 1)} {fuel : Nat}
      {path : List TraversalPathEntry} {s : TreeState},
      Descending s₀ s tree key mode traversal c t path → h < fuel →
      (descendLoop (decodedEnv ioFails) key mode mutation traversal fuel t.label path).Attains
        (Faulty ioFails) s
        fun descent s' => ∃ c es, Reached s₀ s' tree key mode mutation traversal descent c es := by
  induction h with
  | zero =>
    intro c t fuel path s hDescending hFuel
    obtain ⟨fuel, rfl⟩ := Nat.exists_eq_add_one.2 hFuel
    refine hDescending.step hRep hOrdered hFilled ?_
    intro frame t' entry restart s' hReached hRestart hRoom
    obtain ⟨i, es, rfl⟩ := eq_leaf t'
    exact ⟨_, es, hReached, hRestart, hRoom⟩
  | succ h ih =>
    intro c t fuel path s hDescending hFuel
    obtain ⟨fuel, rfl⟩ := Nat.exists_eq_add_one.2 (Nat.zero_lt_of_lt hFuel)
    refine hDescending.step hRep hOrdered hFilled ?_
    intro frame t' entry restart s' hReached _ _
    exact ih hReached (Nat.lt_of_succ_lt_succ hFuel)

end Loop

section Root

variable {ioFails : Nat → Bool} {s : TreeState} {key : Key} {mode : PageLatchMode}
  {mutation : BTreeMutationType} {traversal : BTreeTraversalMode} {tree : Option SomeTree}
  {free : List PageNum}

/-- What a descent from the root finds: nothing in an empty tree, otherwise a leaf. The first
insert into an empty tree keeps the header page. -/
def Found (s s' : TreeState) (tree : Option SomeTree) (key : Key)
    (mode : PageLatchMode) (mutation : BTreeMutationType) (traversal : BTreeTraversalMode) :
    Option LeafDescent → Prop
  | none => tree = none ∧ Observes s s' ∧ (mode = .exclusive → NoShared s')
  | some descent =>
    ∃ t c es, tree = some t ∧ Reached s s' t key mode mutation traversal descent c es

theorem Found.of_observes {s₁ s' : TreeState} {result : Option LeafDescent}
    (hFound : Found s₁ s' tree key mode mutation traversal result) (hObserves : Observes s s₁) :
    Found s s' tree key mode mutation traversal result := by
  cases result with
  | none => exact ⟨hFound.1, hObserves.trans hFound.2.1, hFound.2.2⟩
  | some descent =>
    obtain ⟨t, c, es, rfl, hDescending, hNoRestart, hRoom⟩ := hFound
    exact ⟨t, c, es, rfl, { hDescending with observes := hObserves.trans hDescending.observes },
      hNoRestart, hRoom⟩

theorem wp_checkRootInternal {page : BInternalPage} {n : PageNum}
    {okay : Unit → TreeState → Prop} (hBody : s.body n = .internal page)
    (hOk : ∀ s', Keeps n s s' → okay () s') :
    (checkRootInternal (decodedEnv ioFails) mode mutation traversal n).Attains (Faulty ioFails) s
      okay := by
  simp only [checkRootInternal, wp_ite, wp_bind]
  refine ⟨fun _ => (wp_decodeInternal hBody).2 ?_, fun _ => hOk s (Keeps.refl n s)⟩
  exact ⟨fun _ => hOk _ (keeps_releaseAllExclusiveExcept n s), fun _ => hOk s (Keeps.refl n s)⟩

/-- The descent starts at the root. -/
theorem Keeps.descending {s₁ s₂ : TreeState} {h : Nat} {t : PageTree h}
    (hKeeps : Keeps t.label s₁ s₂) (hObserves : Observes s s₁)
    (hShared : mode = .exclusive → NoShared s₁)
    (hLatch : mode = .exclusive → s₁.latches t.label = some .exclusive) :
    Descending s s₂ ⟨h, t⟩ key mode traversal .top t [] where
  close := rfl
  pathFor := rfl
  routed := routed_top
  observes := hObserves.trans hKeeps.observes
  noShared hMode := hKeeps.noShared (hShared hMode)
  latch hMode := hKeeps.latch.trans (hLatch hMode)
  pathLatched _ _ := by simp

theorem descendFromRootToLeaf_spec (hRep : Represents s tree free) (hSound : Sound tree)
    (hShared : mode = .exclusive → NoShared s) :
    (descendFromRootToLeaf (decodedEnv ioFails) key mode mutation traversal).Attains
      (Faulty ioFails) s fun result s' => Found s s' tree key mode mutation traversal result := by
  simp only [descendFromRootToLeaf, wp_bind]
  refine wp_lockPage hShared fun s₁ hObserves₁ hLocked => ?_
  have hShared₁ : mode = .exclusive → NoShared s₁ := fun hMode => by
    rw [hLocked hMode]
    exact (hShared hMode).locked 0
  simp only [getBtreeRoot, wp_bind, wp_read, hObserves₁.dbHeader, hRep.root]
  cases tree with
  | none =>
    simp only [rootPageNum, Option.map_none, Option.getD_none, if_true, wp_pure, wp_ite, wp_bind,
      wp_release]
    refine ⟨fun _ => ⟨rfl, hObserves₁.trans ⟨_, _, _, rfl⟩, fun hMode n => ?_⟩,
      fun _ => ⟨rfl, hObserves₁, hShared₁⟩⟩
    by_cases hn : n = 0
    · simp [hn]
    · simpa [hn] using hShared₁ hMode n
  | some t =>
    obtain ⟨h, t⟩ := t
    have hStored : Stored s.body t := hRep.stored _ rfl
    obtain ⟨hOrdered, hFilled⟩ := hSound _ rfl
    have hLabel : t.label ∈ treeLabels (some ⟨h, t⟩) ++ free := by
      simp [treeLabels, t.label_mem_labels]
    obtain ⟨hNe, hLt⟩ := hRep.accounts.bounds _ hLabel
    have hRoot : rootPageNum (some ⟨h, t⟩) = t.label := rfl
    simp only [hRoot, hNe, if_false, wp_bind]
    refine wp_get hNe (by rwa [hObserves₁.dbHeader]) (fun hFault => ?_) ?_
    · exact ⟨_, hFault⟩
    simp only [if_true, wp_pure, wp_bind]
    refine wp_lockPage hShared₁ fun s₂ hObserves₂ hLocked₂ => ?_
    refine wp_releaseIfShared fun s₃ hObserves₃ hSame => ?_
    have hObserves : Observes s s₃ :=
      (hObserves₁.trans (Observes.trans ⟨_, _, _, rfl⟩ hObserves₂)).trans hObserves₃
    have hShared₃ : mode = .exclusive → NoShared s₃ := fun hMode => by
      rw [hSame hMode, hLocked₂ hMode]
      exact (hShared₁ hMode).locked t.label
    have hLatch : mode = .exclusive → s₃.latches t.label = some .exclusive := fun hMode => by
      rw [hSame hMode, hLocked₂ hMode]
      simp
    have hNode : s₃.body t.label = nodeBody t := by
      rw [hObserves.body]
      exact ((stored_iff t).1 hStored).1
    refine (wp_peekPageType_node hNode).2 ?_
    cases h with
    | zero =>
      obtain ⟨i, es, rfl⟩ := eq_leaf t
      have hSorted : (es.map Prod.fst).Pairwise (· < ·) := by
        simpa using hOrdered.sorted_entries
      simp only [nodeType, if_true, wp_bind]
      refine wp_checkIfOptimistic (checkRootLeaf_spec (i := i) hNode hSorted) ?_
      intro restart s₄ hKeeps hPessimistic hRoom
      exact ⟨_, .top, es, rfl, hKeeps.descending hObserves hShared₃ hLatch,
        fun hMode => (hPessimistic hMode).2, hRoom⟩
    | succ h =>
      simp only [nodeType, reduceCtorEq, if_false, wp_bind]
      refine wp_checkRootInternal hNode fun s₄ hKeeps => ?_
      rw [wp_read]
      have hStart : Descending s s₄ ⟨h + 1, t⟩ key mode traversal .top t [] :=
        hKeeps.descending hObserves hShared₃ hLatch
      have hFuel : h < s₄.dbHeader.dbPageCount := by
        have hLength := hRep.accounts.length_lt hRep.freePages.pageCount
        have hHeight := hStored.height_lt
        rw [hStart.observes.dbHeader]
        simp only [treeLabels, Option.map_some, Option.getD_some, length_append] at hLength
        omega
      refine wp_conseq (descendLoop_spec hRep hOrdered hFilled h hStart hFuel) ?_
      rintro descent s' ⟨c, es, hReached⟩
      exact ⟨_, c, es, rfl, hReached⟩

/-- A mutation stands at its leaf. An insert that will split the leaf holds all ancestors. -/
structure Landed (s s' : TreeState) (tree : Option SomeTree) (key : Key)
    (mutation : BTreeMutationType) (descent : LeafDescent) (c : PageContext 0)
    (es : List (Key × Value)) : Prop where
  close : tree = some (c.close (leaf descent.leafPageNum es))
  pathFor : PathFor c descent.path
  routed : Routed key c
  observes : Observes s s'
  noShared : NoShared s'
  latch : s'.latches descent.leafPageNum = some .exclusive
  pathLatched : mutation = .insert →
    ¬HasRoom key (leaf descent.leafPageNum es : PageTree 0) →
    ∀ entry ∈ descent.path, s'.latches entry.parentPageNum = some .exclusive

theorem Reached.landed {s' : TreeState} {t : SomeTree} {descent : LeafDescent}
    {c : PageContext 0} {es : List (Key × Value)}
    (hReached : Reached s s' t key .exclusive mutation traversal descent c es)
    (hRestart : descent.requiresPessimisticRestart = false) :
    Landed s s' (some t) key mutation descent c es where
  close := by rw [hReached.descending.close]
  pathFor := hReached.descending.pathFor
  routed := hReached.descending.routed
  observes := hReached.descending.observes
  noShared := hReached.descending.noShared rfl
  latch := hReached.descending.latch rfl
  pathLatched hInsert hFull := by
    cases traversal with
    | optimistic => exact (hFull (hReached.hasRoom rfl rfl hInsert hRestart)).elim
    | pessimistic => exact hReached.descending.pathLatched rfl rfl

/-- The retry loop ends, and its second pass has all ancestors latched. -/
theorem descendForMutation_spec (hRep : Represents s tree free) (hSound : Sound tree)
    (hShared : NoShared s) :
    (descendForMutation (decodedEnv ioFails) key mutation).Attains (Faulty ioFails) s
      fun result s' => match result with
        | none => tree = none ∧ Observes s s' ∧ NoShared s'
        | some descent => ∃ c es, Landed s s' tree key mutation descent c es := by
  refine wp_bind_of (descendFromRootToLeaf_spec hRep hSound fun _ => hShared) ?_
  rintro (_ | descent) s₁ hFound
  · exact ⟨hFound.1, hFound.2.1, hFound.2.2 rfl⟩
  obtain ⟨t, c, es, rfl, hReached⟩ := hFound
  cases hRestart : descent.requiresPessimisticRestart with
  | false =>
    simp only [hRestart, Bool.false_eq_true, if_false, wp_pure]
    exact ⟨c, es, hReached.landed hRestart⟩
  | true =>
    have hObserves : Observes s { (s₁.unref descent.leafPageNum) with latches := fun _ => none } :=
      hReached.descending.observes.trans ⟨_, _, _, rfl⟩
    simp only [hRestart, if_true, wp_bind, wp_unrefPage, wp_releaseAll]
    refine wp_conseq (descendFromRootToLeaf_spec
      (hRep.of_eq hObserves.body hObserves.dbHeader) hSound fun _ => ?_) ?_
    · intro n
      simp
    rintro (_ | descent) s₂ hFound
    · exact ⟨hFound.1, hObserves.trans hFound.2.1, hFound.2.2 rfl⟩
    · obtain ⟨t, c, es, hTree, hReached⟩ := hFound.of_observes hObserves
      rw [hTree]
      exact ⟨c, es, hReached.landed (hReached.noRestart rfl)⟩

end Root

end Stoneleaf
