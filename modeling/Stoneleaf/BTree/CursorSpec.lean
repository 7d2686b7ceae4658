import Stoneleaf.BTree.Cursor
import Stoneleaf.BTree.WellFormed
import Stoneleaf.Library.Iteration

/-!
A cursor over a well-formed tree is a list that is read off from the front: what it stands for
is the entries it has still to show. Each call shortens that list or leaves the cursor where it
was, and the only pin a cursor keeps between calls is that of its leaf.
-/

namespace Stoneleaf

open Library Program SearchTree List BLeafPage

section Pins

variable {P : Type} {s₀ s : OpState P} {pages pages' : List PageNum} {n : PageNum}

/-- The state differs from the first one by one pin for each of the listed pages. -/
def Pins (s₀ : OpState P) (pages : List PageNum) (s : OpState P) : Prop :=
  ∃ calls, s = { s₀ with refs := fun n => s₀.refs n + pages.count n, calls := calls }

namespace Pins

theorem refl (s : OpState P) : Pins s [] s :=
  ⟨s.calls, by simp⟩

theorem called (h : Pins s₀ pages s) : Pins s₀ pages s.called := by
  obtain ⟨calls, rfl⟩ := h
  exact ⟨_, rfl⟩

theorem count_cons_update {refs : PageNum → Int} :
    (fun m => refs m + ((n :: pages).count m : Int)) =
      Function.update (fun m => refs m + (pages.count m : Int)) n (refs n + pages.count n + 1) := by
  funext m
  by_cases hm : m = n
  · subst hm
    simp [Int.add_assoc]
  · simp [hm, count_cons_of_ne (Ne.symm hm)]

theorem pinned (h : Pins s₀ pages s) (n : PageNum) : Pins s₀ (n :: pages) (s.pinned n) := by
  obtain ⟨calls, rfl⟩ := h
  exact ⟨calls + 1, by rw [count_cons_update]; rfl⟩

theorem unref (h : Pins s₀ (n :: pages) s) : Pins s₀ pages (s.unref n) := by
  obtain ⟨calls, rfl⟩ := h
  exact ⟨calls, by simp [OpState.unref, count_cons_update, ← add_assoc]⟩

theorem perm (h : Pins s₀ pages s) (hPerm : pages.Perm pages') : Pins s₀ pages' s := by
  obtain ⟨calls, rfl⟩ := h
  exact ⟨calls, by simp only [hPerm.count_eq]⟩

theorem trans {s₁ : OpState P} (h : Pins s₀ pages s₁) (h' : Pins s₁ pages' s) :
    Pins s₀ (pages ++ pages') s := by
  obtain ⟨calls, rfl⟩ := h
  obtain ⟨calls', rfl⟩ := h'
  refine ⟨calls', ?_⟩
  simp only [OpState.mk.injEq, true_and, and_true]
  funext m
  rw [count_append, Nat.cast_add, Int.add_assoc]

theorem refs (h : Pins s₀ [] s) : s.refs = s₀.refs := by
  obtain ⟨calls, rfl⟩ := h
  simp

theorem activeCursorCount (h : Pins s₀ pages s) : s.activeCursorCount = s₀.activeCursorCount := by
  obtain ⟨calls, rfl⟩ := h
  rfl

theorem dbHeader (h : Pins s₀ pages s) : s.dbHeader = s₀.dbHeader := by
  obtain ⟨calls, rfl⟩ := h
  rfl

theorem body {s₀ s : TreeState} (h : Pins s₀ pages s) : s.body = s₀.body := by
  obtain ⟨calls, rfl⟩ := h
  rfl

end Pins

end Pins

section Right

variable {h : Nat} {up : PageContext (h + 1)} {p : PageNum}

/-- The entries that come after a subtree. -/
def rightEntries (c : PageContext h) : List (Key × Value) :=
  c.rightTokens.filterMap Token.asEntry

@[simp] theorem rightEntries_top : rightEntries (.top : PageContext h) = [] := rfl

theorem rightEntries_under_nil {l : List Key} {x : List (PageTree h)} {hx : x.length = l.length}
    {hy : ([] : List (PageTree h)).length = ([] : List Key).length} :
    rightEntries (.under ⟨p, l, x, [], [], hx, hy⟩ up) = rightEntries up := by
  simp [rightEntries]

/-- The next subtree to the right comes first. -/
theorem rightEntries_under_cons {l r : List Key} {x y : List (PageTree h)} {k : Key}
    {t : PageTree h} {hx : x.length = l.length} {hy : (t :: y).length = (k :: r).length}
    {l' : List Key} {x' : List (PageTree h)} (hx' : x'.length = l'.length)
    (hy' : y.length = r.length) :
    rightEntries (.under ⟨p, l, x, k :: r, t :: y, hx, hy⟩ up) =
      t.entries ++ rightEntries (.under ⟨p, l', x', r, y, hx', hy'⟩ up) := by
  simp [rightEntries, entries, filterMap_cons]

theorem entries_branch_cons {ks : List Key} {t : PageTree h} {cs : List (PageTree h)}
    (hx : ([] : List (PageTree h)).length = ([] : List Key).length) (hy : cs.length = ks.length) :
    (branch p ks (t :: cs)).entries ++ rightEntries up =
      t.entries ++ rightEntries (.under ⟨p, [], [], ks, cs, hx, hy⟩ up) := by
  simp [rightEntries, entries, weave, filterMap_cons]

end Right

namespace BTreeCursor

/-- The pages a cursor keeps pinned. -/
def pages (cursor : BTreeCursor) : List PageNum :=
  cursor.currentLeaf.toList

def unpositioned : BTreeCursor :=
  ⟨none, 0, [], false, false, false⟩

def atEnd : BTreeCursor :=
  ⟨none, 0, [], false, true, false⟩

/-- Where a cursor stands, and the entries it has still to show, the current one first. -/
inductive Rests (tree : Option SomeTree) : BTreeCursor → List (Key × Value) → Prop where
  | on {c : PageContext 0} {n : PageNum} {before after : List (Key × Value)} {e : Key × Value}
      {path : List TraversalPathEntry} (hPath : PathFor c path)
      (hTree : tree = some (c.close (leaf n (before ++ e :: after)))) :
      Rests tree ⟨some n, before.length, path, true, false, false⟩
        (e :: after ++ rightEntries c)
  | ended : Rests tree atEnd []

variable {c : PageContext 0} {tree : Option SomeTree}

theorem Rests.first {n : PageNum} {after : List (Key × Value)} {e : Key × Value}
    {path : List TraversalPathEntry} (hPath : PathFor c path)
    (hTree : tree = some (c.close (leaf n (e :: after)))) :
    Rests tree ⟨some n, 0, path, true, false, false⟩ (e :: after ++ rightEntries c) :=
  @Rests.on tree c n [] after e path hPath hTree

/-- What a call reports when these entries are left. -/
def statusFor : List (Key × Value) → BTreeCursorStatus
  | [] => .endOfTree
  | _ :: _ => .success

/-- How a call ends: with the given entries left, or where it started after a failed read. -/
def Lands (ioFails : Nat → Bool) (s₀ : TreeState) (tree : Option SomeTree)
    (cursor : BTreeCursor) (rest : List (Key × Value)) (result : BTreeCursorStatus × BTreeCursor)
    (s' : TreeState) : Prop :=
  Pins s₀ result.2.pages s' ∧
    (result = (.failedToRead, cursor) ∧ Faulty ioFails ∨
      result.1 = statusFor rest ∧ Rests tree result.2 rest)

/-- The same for a move inside of a call, which is still to remember the end of the tree. -/
def Arrives (ioFails : Nat → Bool) (s₀ : TreeState) (tree : Option SomeTree)
    (cursor : BTreeCursor) (rest : List (Key × Value)) (result : BTreeCursorStatus × BTreeCursor) :
    TreeState → Prop :=
  Lands ioFails s₀ tree cursor rest (result.1, exhaustedAtEnd result.1 result.2)

variable {ioFails : Nat → Bool} {s₀ s : TreeState} {tree : SomeTree}
  {free : List PageNum} {cursor : BTreeCursor} {n : PageNum} {es : List (Key × Value)}
  {path : List TraversalPathEntry} {pages : List PageNum}

section Rules

variable {failed : BTreeStatus → TreeState → Prop} {halted : TreeState → Prop}

theorem wp_releaseCurrentLeaf (pages : List PageNum)
    {okay : BTreeCursor → TreeState → Prop} (hPins : Pins s₀ (cursor.pages ++ pages) s)
    (hOk : ∀ s', Pins s₀ pages s' → okay
      { cursor with currentLeaf := none, currentKeyIdx := 0, path := [], positioned := false } s') :
    (releaseCurrentLeaf cursor).wp s okay failed halted := by
  obtain ⟨currentLeaf, currentKeyIdx, path, positioned, exhausted, closed⟩ := cursor
  cases currentLeaf with
  | none => exact hOk s hPins
  | some leaf => exact hOk _ hPins.unref

/-- An open cursor moves onto a pinned leaf. -/
theorem wp_positionOnLeaf {okay : BTreeCursorStatus × BTreeCursor → TreeState → Prop}
    {idx : Nat} (hBody : s.body n = .leaf (.ofEntries es)) (hIdx : idx < es.length)
    (hOpen : cursor.closed = false) (hPins : Pins s₀ (cursor.pages ++ [n]) s)
    (hOk : ∀ s', Pins s₀ [n] s' →
      okay (.success, ⟨some n, idx, path, true, cursor.exhausted, false⟩) s') :
    (positionOnLeaf (decodedEnv ioFails) cursor n idx path).wp s okay failed halted := by
  simp only [positionOnLeaf, hOpen, Bool.false_eq_true, if_false, wp_bind]
  refine (wp_peekPageType_leaf hBody).2 ?_
  simp only [ne_eq, not_true_eq_false, if_false, wp_bind]
  refine (wp_decodeLeaf hBody).2 ?_
  simp only [getKeyCount_ofEntries, ge_iff_le, Nat.not_le.2 hIdx, if_false, wp_bind]
  refine wp_releaseCurrentLeaf _ hPins fun s' hPins' => ?_
  simpa only [wp_pure, hOpen] using hOk s' hPins'

end Rules

/-- A tree that a cursor reads, in the pages the cursor found. -/
structure Readable (s₀ : TreeState) (tree : SomeTree) (free : List PageNum) : Prop where
  represents : Represents s₀ (some tree) free
  ordered : Ordered tree.2
  filled : RootFilled tree.2

section Moves

variable {h : Nat} {c : PageContext h} {t : PageTree h}

section

variable (hRead : Readable s₀ tree free) (hClose : c.close t = tree)
include hRead hClose

/-- A subtree of the tree that is read, in the present state. -/
theorem Readable.focused (hPins : Pins s₀ pages s) : Focused s c t free := by
  subst hClose
  exact focused_iff.2 (hRead.represents.of_eq hPins.body hPins.dbHeader)

theorem Readable.filledIn : FilledIn c t := by
  subst hClose
  exact ((rootFilled_close_iff c t).1 hRead.filled).2

theorem Readable.bounds : t.label ≠ 0 ∧ t.label < s₀.dbHeader.dbPageCount :=
  (hRead.focused hClose (.refl s₀)).accounts.bounds t.label (by simp [t.label_mem_labels])

/-- A tree has fewer levels than the database has pages. -/
theorem Readable.height_lt : h < s₀.dbHeader.dbPageCount := by
  have hFocus := hRead.focused hClose (.refl s₀)
  have hLength := hFocus.accounts.length_lt hFocus.freePages.pageCount
  have hHeight := hFocus.stored.height_lt
  simp only [length_append] at hLength
  omega

end

theorem Filled.entries_ne_nil_of_leaf {t : PageTree h} (hFilled : Filled t) (hLeaf : h = 0) :
    t.entries ≠ [] := by
  subst hLeaf
  obtain ⟨i, es, rfl⟩ := eq_leaf t
  rw [entries_leaf]
  rintro rfl
  exact absurd ((filled_leaf i []).1 hFilled).1 (by decide)

variable (hRead : Readable s₀ tree free) (hOpen : cursor.closed = false)
  (hMore : cursor.exhausted = false)
include hRead hOpen hMore

/-- Going down to the left from a pinned page ends at the first entry below it. -/
theorem leftmostLoop_spec : ∀ {h : Nat} {c : PageContext h} {t : PageTree h} {fuel : Nat}
      {path : List TraversalPathEntry} {s : TreeState}, c.close t = tree → PathFor c path →
        (h = 0 → t.entries ≠ []) → h < fuel →
      Pins s₀ (cursor.pages ++ [t.label]) s →
      (leftmostLoop (decodedEnv ioFails) cursor fuel t.label path).Returns s
        (Arrives ioFails s₀ (some tree) cursor (t.entries ++ rightEntries c)) := by
  intro h
  induction h with
  | zero =>
    intro c t fuel path s hClose hPath hEntries hFuel hPins
    obtain ⟨fuel, rfl⟩ := Nat.exists_eq_add_one.2 hFuel
    have hFocus := hRead.focused hClose hPins
    obtain ⟨n, es, rfl⟩ := eq_leaf t
    have hBody : s.body n = .leaf (.ofEntries es) := hFocus.stored
    simp only [entries_leaf] at hEntries ⊢
    obtain ⟨e, es, rfl⟩ := exists_cons_of_ne_nil (hEntries trivial)
    simp only [leftmostLoop, label_leaf, wp_bind]
    refine (wp_peekPageType_leaf hBody).2 ?_
    simp only [reduceCtorEq, if_false, wp_bind]
    refine (wp_decodeLeaf hBody).2 ?_
    simp only [getKeyCount_ofEntries, length_cons, Nat.add_one_ne_zero, if_false]
    refine wp_positionOnLeaf hBody (by simp) hOpen hPins fun s' hPins' => ?_
    rw [hMore]
    exact ⟨hPins', .inr ⟨rfl, .first hPath (by rw [← hClose])⟩⟩
  | succ h ih =>
    intro c t fuel path s hClose hPath _ hFuel hPins
    obtain ⟨fuel, rfl⟩ := Nat.exists_eq_add_one.2 (Nat.zero_lt_of_lt hFuel)
    have hFocus := hRead.focused hClose hPins
    obtain ⟨p, ks, cs, rfl⟩ := eq_branch t
    obtain ⟨hBody, hLength, -⟩ := (stored_branch p ks cs).1 hFocus.stored
    obtain ⟨child, cs, rfl⟩ := exists_cons_of_length_eq_add_one hLength
    let frame : PageGap h := ⟨p, [], [], ks, cs, rfl, by simpa using hLength⟩
    have hChild : (Context.under frame c).close child = tree := hClose
    obtain ⟨hNe, hLt⟩ := hRead.bounds hChild
    simp only [leftmostLoop, label_branch, wp_bind]
    refine (wp_peekPageType_internal hBody).2 ?_
    simp only [if_true, wp_bind]
    refine (wp_decodeInternal hBody).2 ?_
    simp only [BInternalPage.getLeftmostChild, map_cons, getElem?_cons_zero, wp_bind]
    have hUp : Pins s₀ (p :: cursor.pages) s := hPins.perm (perm_append_singleton _ _)
    refine wp_get hNe (by rwa [hPins.dbHeader]) (fun hFault => ?_) ?_
    · simp only [Bool.false_eq_true, if_false, wp_bind, wp_unrefPage, wp_pure]
      exact ⟨hUp.called.unref, .inl ⟨rfl, _, hFault⟩⟩
    simp only [if_true, wp_bind, wp_unrefPage]
    have hDown : Pins s₀ (cursor.pages ++ [child.label]) ((s.pinned child.label).unref p) :=
      ((hUp.pinned _).perm (.swap _ _ _)).unref.perm (perm_append_singleton _ _).symm
    rw [entries_branch_cons rfl frame.right_length]
    refine ih hChild ⟨_, path, rfl, rfl, rfl, hPath⟩ ?_ (Nat.lt_of_succ_lt_succ hFuel) hDown
    exact Filled.entries_ne_nil_of_leaf (hRead.filledIn hChild)

theorem descendToLeftmostLeaf_spec (hClose : c.close t = tree) (hPath : PathFor c path)
    (hEntries : h = 0 → t.entries ≠ []) (hPins : Pins s₀ cursor.pages s) :
    (descendToLeftmostLeaf (decodedEnv ioFails) cursor t.label path).Returns s
      (Arrives ioFails s₀ (some tree) cursor (t.entries ++ rightEntries c)) := by
  obtain ⟨hNe, hLt⟩ := hRead.bounds hClose
  simp only [descendToLeftmostLeaf, hOpen, Bool.false_eq_true, if_false, wp_bind]
  refine wp_get hNe (by rwa [hPins.dbHeader]) (fun hFault => ?_) ?_
  · exact ⟨hPins.called, .inl ⟨rfl, _, hFault⟩⟩
  simp only [if_true, wp_bind, wp_read, OpState.pinned_dbHeader, hPins.dbHeader]
  exact leftmostLoop_spec hRead hOpen hMore hClose hPath hEntries (hRead.height_lt hClose)
    ((hPins.pinned _).perm (perm_append_singleton _ _).symm)

/-- Climbing the path finds what comes after the subtree. -/
theorem climb_spec : ∀ {path : List TraversalPathEntry} {h : Nat} {c : PageContext h}
      {t : PageTree h} {s : TreeState}, c.close t = tree → PathFor c path → Pins s₀ cursor.pages s →
      (climb (decodedEnv ioFails) cursor path).Returns s
        (Arrives ioFails s₀ (some tree) cursor (rightEntries c)) := by
  intro path
  induction path with
  | nil =>
    intro h c t s hClose hPath hPins
    cases c with
    | top =>
      simp only [climb, wp_bind]
      refine wp_releaseCurrentLeaf [] (by simpa using hPins) fun s' hPins' => ?_
      refine ⟨hPins', .inr ⟨rfl, ?_⟩⟩
      simp only [exhaustedAtEnd, if_true, hOpen]
      exact .ended
    | under frame up =>
      obtain ⟨entry, rest, hPath, -⟩ := hPath
      exact (cons_ne_nil _ _ hPath.symm).elim
  | cons entry path ih =>
    intro h c t s hClose hPath hPins
    cases c with
    | top => exact (cons_ne_nil _ _ hPath).elim
    | under frame up =>
      obtain ⟨_, _, hCons, hParent, hIdx, hUp⟩ := hPath
      obtain ⟨rfl, rfl⟩ := List.cons.inj hCons
      have hFill : up.close (frame.fill t) = tree := hClose
      have hFocus := hRead.focused hFill hPins
      obtain ⟨hNe, hLt⟩ := hRead.bounds hFill
      obtain ⟨p, l, x, r, y, hx, hy⟩ := frame
      have hBody : s.body p = .internal ⟨l ++ r, (x ++ t :: y).map label⟩ :=
        hFocus.stored.1
      simp only at hParent hIdx
      simp only [climb, hParent, wp_bind]
      refine wp_get hNe (by rwa [hPins.dbHeader]) (fun hFault => ?_) ?_
      · exact ⟨hPins.called, .inl ⟨rfl, _, hFault⟩⟩
      simp only [if_true, wp_bind]
      refine (wp_peekPageType_internal (by exact hBody)).2 ?_
      simp only [ne_eq, not_true_eq_false, if_false, wp_bind]
      refine (wp_decodeInternal (by exact hBody)).2 ?_
      have hPins' : Pins s₀ cursor.pages ((s.pinned p).unref p) := (hPins.pinned p).unref
      simp only [BInternalPage.getKeyCount, hIdx, length_append]
      rw [if_neg (by omega)]
      cases r with
      | nil =>
        obtain rfl := length_eq_zero_iff.1 hy
        rw [if_neg (by simp), rightEntries_under_nil]
        simp only [wp_bind, wp_unrefPage]
        exact ih hFill hUp hPins'
      | cons k r =>
        obtain ⟨t', y, rfl⟩ := exists_cons_of_length_eq_add_one hy
        have hRight : (⟨l ++ k :: r, (x ++ t :: t' :: y).map label⟩ :
            BInternalPage).getRightChild l.length = some t'.label := by
          simpa using BInternalPage.getRightChild_cut rfl (by simpa using hx) (by simpa using hy)
        rw [if_pos (by simp), hRight]
        simp only [wp_bind, wp_unrefPage]
        let next : PageGap h :=
          ⟨p, l ++ [k], x ++ [t], r, y, by simp [hx], by simpa using hy⟩
        have hNext : (Context.under next up).close t' = tree := by
          rw [← hFill]
          simp [next, Frame.fill]
        rw [rightEntries_under_cons next.left_length next.right_length]
        refine descendToLeftmostLeaf_spec hRead hOpen hMore hNext
          ⟨_, path, rfl, rfl, ?_, hUp⟩ ?_ hPins'
        · simp [TraversalPathEntry.childIdx, next]
        · exact Filled.entries_ne_nil_of_leaf (hRead.filledIn hNext)

end Moves

section Descents

variable {target : Key} {pages : List PageNum}

/-- How a descent ends: at the pinned leaf of the target, or with a failed read. -/
def Descends (ioFails : Nat → Bool) (s₀ : TreeState) (tree : SomeTree) (target : Key)
    (pages : List PageNum) : Except BTreeStatus LeafDescent → TreeState → Prop
  | .error status, s' => status ≠ .emptyTree ∧ Pins s₀ pages s' ∧ Faulty ioFails
  | .ok descent, s' => ∃ (c : PageContext 0) (es : List (Key × Value)),
      c.close (leaf descent.leafPageNum es) = tree ∧ PathFor c descent.path ∧
        Routed target c ∧ Pins s₀ (descent.leafPageNum :: pages) s'

variable (hRead : Readable s₀ tree free)
include hRead

/-- One step down, from a pinned branch to the child that is followed for the target. -/
theorem descendUnlatchedLoop_step {h fuel : Nat} {c : PageContext (h + 1)} {t : PageTree (h + 1)}
    (hClose : c.close t = tree) (hPath : PathFor c path) (hRouted : Routed target c)
    (hPins : Pins s₀ (t.label :: pages) s)
    (hNext : ∀ {c : PageContext h} {t' : PageTree h} {path : List TraversalPathEntry}
      {s : TreeState}, c.close t' = tree → PathFor c path → Routed target c →
      Pins s₀ (t'.label :: pages) s → (if nodeType h = .leaf then pure (.ok ⟨t'.label, path, false⟩)
        else descendUnlatchedLoop (decodedEnv ioFails) target fuel t'.label path :
          Op DecodedPage (Except BTreeStatus LeafDescent)).Returns s
        (Descends ioFails s₀ tree target pages)) :
    (descendUnlatchedLoop (decodedEnv ioFails) target (fuel + 1) t.label path).Returns s
      (Descends ioFails s₀ tree target pages) := by
  have hFocus := hRead.focused hClose hPins
  have hOrdered : Ordered t := Ordered.of_close (c := c) (by rw [hClose]; exact hRead.ordered)
  obtain ⟨frame, t', idx, dir, rfl, hRouted', hBody, hChild, hIdx⟩ :=
    exists_frame_childFor t hFocus.stored hOrdered (hRead.filledIn hClose) hRouted
  have hUnder : (Context.under frame c).close t' = tree := hClose
  obtain ⟨hNe, hLt⟩ := hRead.bounds hUnder
  have hNode : s.body t'.label = nodeBody t' :=
    ((stored_iff t').1 (hRead.focused hUnder hPins).stored).1
  simp only [descendUnlatchedLoop, wp_bind]
  refine (wp_decodeInternal hBody).2 ?_
  simp only [hChild, wp_orHalt_some]
  refine wp_get hNe (by rwa [hPins.dbHeader]) (fun hFault => ?_) ?_
  · simp only [Bool.false_eq_true, if_false, wp_bind, wp_unrefPage, wp_pure]
    exact ⟨by decide, hPins.called.unref, _, hFault⟩
  simp only [if_true, wp_bind]
  refine (wp_peekPageType_node (by exact hNode)).2 ?_
  rw [wp_unrefPage]
  exact hNext hUnder ⟨_, path, rfl, rfl, hIdx, hPath⟩ hRouted'
    ((hPins.pinned _).perm (.swap _ _ _)).unref

theorem descendUnlatchedLoop_spec (h : Nat) :
    ∀ {c : PageContext (h + 1)} {t : PageTree (h + 1)} {fuel : Nat}
      {path : List TraversalPathEntry} {s : TreeState},
      c.close t = tree → PathFor c path → Routed target c → h < fuel →
      Pins s₀ (t.label :: pages) s →
      (descendUnlatchedLoop (decodedEnv ioFails) target fuel t.label path).Returns s
        (Descends ioFails s₀ tree target pages) := by
  induction h with
  | zero =>
    intro c t fuel path s hClose hPath hRouted hFuel hPins
    obtain ⟨fuel, rfl⟩ := Nat.exists_eq_add_one.2 hFuel
    refine descendUnlatchedLoop_step hRead hClose hPath hRouted hPins ?_
    intro c t' path s hClose hPath hRouted hPins
    obtain ⟨n, es, rfl⟩ := eq_leaf t'
    exact ⟨c, es, hClose, hPath, hRouted, hPins⟩
  | succ h ih =>
    intro c t fuel path s hClose hPath hRouted hFuel hPins
    obtain ⟨fuel, rfl⟩ := Nat.exists_eq_add_one.2 (Nat.zero_lt_of_lt hFuel)
    refine descendUnlatchedLoop_step hRead hClose hPath hRouted hPins ?_
    intro c t' path s hClose hPath hRouted hPins
    exact ih hClose hPath hRouted (Nat.lt_of_succ_lt_succ hFuel) hPins

theorem wp_getBtreeRoot {okay : RootResult → TreeState → Prop} (hPins : Pins s₀ pages s)
    (hFault : Faulty ioFails → Pins s₀ pages s.called → okay .failed s.called)
    (hOk : Pins s₀ (tree.2.label :: pages) (s.pinned tree.2.label) →
      okay (.root tree.2.label) (s.pinned tree.2.label)) :
    (getBtreeRoot (decodedEnv ioFails)).Returns s okay := by
  have hRoot : s.dbHeader.btreeRootPageNum = tree.2.label := by
    rw [hPins.dbHeader, hRead.represents.root]
    rfl
  obtain ⟨hNe, hLt⟩ := hRead.bounds (c := .top) (t := tree.2) rfl
  simp only [getBtreeRoot, wp_bind, wp_read, hRoot, hNe, if_false]
  refine wp_get hNe (by rwa [hPins.dbHeader]) (fun hCall => ?_) ?_
  · exact hFault ⟨_, hCall⟩ hPins.called
  · exact hOk (hPins.pinned _)

theorem descendUnlatched_spec (hPins : Pins s₀ pages s) :
    (descendUnlatched (decodedEnv ioFails) target).Returns s
      (Descends ioFails s₀ tree target pages) := by
  rw [Returns, descendUnlatched, wp_bind]
  refine wp_getBtreeRoot hRead hPins (fun hFaulty hPins' => ?_) fun hPins' => ?_
  · exact ⟨by decide, hPins', hFaulty⟩
  obtain ⟨h, t⟩ := tree
  have hNode : s.body t.label = nodeBody t :=
    ((stored_iff t).1 (hRead.focused (c := .top) (t := t) rfl hPins).stored).1
  rw [wp_bind]
  refine (wp_peekPageType_node (by exact hNode)).2 ?_
  cases h with
  | zero =>
    obtain ⟨n, es, rfl⟩ := eq_leaf t
    exact ⟨.top, es, rfl, rfl, routed_top, hPins'⟩
  | succ h =>
    simp only [nodeType, reduceCtorEq, if_false, wp_bind, wp_read, OpState.pinned_dbHeader,
      hPins.dbHeader]
    have hFuel := hRead.height_lt (c := .top) (t := t) rfl
    exact descendUnlatchedLoop_spec hRead h (c := .top) rfl rfl routed_top
      (Nat.lt_of_succ_lt hFuel) hPins'

end Descents

section Calls

variable {tree : Option SomeTree} {rest : List (Key × Value)} {target : Key}

/-- The tree that is read, which may be empty. -/
structure Reads (s₀ : TreeState) (tree : Option SomeTree) : Prop where
  represents : ∃ free, Represents s₀ tree free
  sound : Sound tree

theorem Reads.readable {tree : SomeTree} (hReads : Reads s₀ (some tree)) :
    ∃ free, Readable s₀ tree free := by
  obtain ⟨⟨free, hRep⟩, hSound⟩ := hReads
  exact ⟨free, hRep, (hSound tree rfl).1, (hSound tree rfl).2⟩

theorem Reads.root_eq_zero (hReads : Reads s₀ none) (hPins : Pins s₀ pages s) :
    s.dbHeader.btreeRootPageNum = 0 := by
  obtain ⟨⟨free, hRep⟩, -⟩ := hReads
  rw [hPins.dbHeader, hRep.root]
  rfl

theorem Rests.leaf_body (hReads : Reads s₀ tree) (hTree : tree = some (c.close (leaf n es)))
    (hPins : Pins s₀ pages s) : s.body n = .leaf (.ofEntries es) := by
  subst hTree
  obtain ⟨free, hRead⟩ := hReads.readable
  exact (hRead.focused rfl hPins).stored

theorem current_spec (hReads : Reads s₀ tree) (hRests : Rests tree cursor rest)
    (hPins : Pins s₀ cursor.pages s) :
    (current (decodedEnv ioFails) cursor).Returns s
      fun result s' => result = ⟨statusFor rest, rest.head?⟩ ∧ s' = s := by
  cases hRests with
  | on hPath hTree =>
    simp only [current, Bool.false_eq_true, if_false, wp_bind]
    refine (wp_decodeLeaf (Rests.leaf_body hReads hTree hPins)).2 ?_
    simp [statusFor]
  | ended => exact ⟨rfl, rfl⟩

/-- Every call of `next` takes the current entry off the front. -/
theorem next_spec (hReads : Reads s₀ tree) (hRests : Rests tree cursor rest)
    (hPins : Pins s₀ cursor.pages s) :
    (next (decodedEnv ioFails) cursor).Returns s (Lands ioFails s₀ tree cursor rest.tail) := by
  cases hRests with
  | @on c n before after e path hPath hTree =>
    simp only [next, Bool.false_eq_true, if_false, wp_bind]
    refine (wp_decodeLeaf (Rests.leaf_body hReads hTree hPins)).2 ?_
    simp only [getKeyCount_ofEntries, length_append, length_cons, cons_append, tail_cons]
    cases after with
    | nil =>
      rw [if_neg (by simp)]
      simp only [moveToNextLeaf, Bool.false_eq_true, if_false, not_true_eq_false, wp_bind]
      subst hTree
      obtain ⟨free, hRead⟩ := hReads.readable
      refine wp_conseq (climb_spec hRead rfl rfl rfl hPath hPins) ?_
      exact fun _ _ hArrives => hArrives
    | cons e' after =>
      rw [if_pos (by simp)]
      refine ⟨hPins, .inr ⟨rfl, ?_⟩⟩
      have hMoved := @Rests.on tree c n (before ++ [e]) after e' path hPath (by simpa using hTree)
      simpa using hMoved
  | ended => exact ⟨hPins, .inr ⟨rfl, .ended⟩⟩

/-- The entries a seek asks for: all of them, or those from a key on. -/
def entriesFrom (start : Option Key) (entries : List (Key × Value)) : List (Key × Value) :=
  match start with
  | none => entries
  | some target => entries.filter fun e => target ≤ e.1

/-- The entries from the target on start in the leaf the target is routed to. -/
theorem entriesFrom_close {before after : List (Key × Value)} (hRouted : Routed target c)
    (hBefore : ∀ e ∈ before, e.1 < target) (hAfter : ∀ e ∈ after, target ≤ e.1) :
    entriesFrom (some target) (c.close (leaf n (before ++ after))).2.entries =
      after ++ rightEntries c := by
  obtain ⟨hLeft, hRight⟩ := hRouted.entries
  have hLow : ∀ l : List (Key × Value), (∀ e ∈ l, e.1 < target) →
      l.filter (fun e => decide (target ≤ e.1)) = [] := fun l hl =>
    filter_eq_nil_iff.2 (by simpa using hl)
  have hHigh : ∀ l : List (Key × Value), (∀ e ∈ l, target ≤ e.1) →
      l.filter (fun e => decide (target ≤ e.1)) = l := fun l hl =>
    filter_eq_self.2 (by simpa using hl)
  rw [entriesFrom, Context.entries_close, entries_leaf, filter_append,
    filter_append, filter_append, hLow _ hLeft, hLow _ hBefore, hHigh _ hAfter,
    hHigh _ fun e he => (hRight e he).le]
  rfl

/-- A sorted leaf, cut at the target. -/
theorem exists_split_entries (hSorted : (es.map Prod.fst).Pairwise (· < ·)) (target : Key) :
    ∃ before after, es = before ++ after ∧ (∀ e ∈ before, e.1 < target) ∧
      ∀ e ∈ after, target ≤ e.1 := by
  obtain ⟨before, after, hBefore, hAfter, rfl | ⟨value, rfl⟩⟩ := entries_cut hSorted target
  · exact ⟨before, after, rfl, hBefore, fun e he => (hAfter e he).le⟩
  · refine ⟨before, (target, value) :: after, rfl, hBefore, fun e he => ?_⟩
    obtain rfl | he := mem_cons.1 he
    · exact le_rfl
    · exact (hAfter e he).le

theorem seekFirst_spec (hReads : Reads s₀ tree) (hOpen : cursor.closed = false)
    (hPins : Pins s₀ cursor.pages s) :
    (seekFirst (decodedEnv ioFails) cursor).Returns s
      (Lands ioFails s₀ tree unpositioned (entriesFrom none (treeEntries tree))) := by
  simp only [seekFirst, hOpen, Bool.false_eq_true, if_false, wp_bind]
  refine wp_releaseCurrentLeaf [] (by simpa using hPins) fun s₁ hPins₁ => ?_
  cases tree with
  | none =>
    simp only [getBtreeRoot, wp_bind, wp_read, hReads.root_eq_zero hPins₁, if_true, wp_pure, hOpen]
    exact ⟨hPins₁, .inr ⟨rfl, .ended⟩⟩
  | some tree =>
    obtain ⟨free, hRead⟩ := hReads.readable
    simp only [hOpen]
    refine wp_getBtreeRoot hRead hPins₁ (fun hFaulty hPins₂ => ?_) fun hPins₂ => ?_
    · exact ⟨hPins₂, .inl ⟨rfl, hFaulty⟩⟩
    obtain ⟨h, t⟩ := tree
    have hFocus := hRead.focused (c := .top) (t := t) rfl hPins₂
    have hNode := ((stored_iff t).1 hFocus.stored).1
    rw [wp_bind]
    refine (wp_peekPageType_node hNode).2 ?_
    cases h with
    | zero =>
      obtain ⟨n, es, rfl⟩ := eq_leaf t
      have hBody : (s₁.pinned n).body n = .leaf (.ofEntries es) := hNode
      simp only [nodeType, if_true, wp_bind]
      cases es with
      | nil =>
        simp only [positionOnLeaf, label_leaf, Bool.false_eq_true, if_false, wp_bind]
        refine (wp_peekPageType_leaf hBody).2 ?_
        simp only [ne_eq, not_true_eq_false, if_false, wp_bind]
        refine (wp_decodeLeaf hBody).2 ?_
        exact ⟨hPins₂.unref, .inr ⟨rfl, .ended⟩⟩
      | cons e es =>
        refine wp_positionOnLeaf hBody (by simp) rfl hPins₂ fun s' hPins' => ?_
        refine ⟨hPins', .inr ⟨rfl, ?_⟩⟩
        have hFirst : Rests (some ⟨0, leaf n (e :: es)⟩)
            ⟨some n, 0, [], true, false, false⟩ (e :: es ++ rightEntries .top) :=
          .first rfl rfl
        simpa [entriesFrom, treeEntries, exhaustedAtEnd] using hFirst
    | succ h =>
      simp only [nodeType, reduceCtorEq, if_false, wp_bind]
      have hBase : Readable (s₁.pinned t.label) ⟨h + 1, t⟩ free :=
        ⟨hRead.represents.of_eq hPins₂.body hPins₂.dbHeader, hRead.ordered, hRead.filled⟩
      refine wp_conseq (descendToLeftmostLeaf_spec hBase rfl rfl (c := .top) (t := t) rfl rfl
        (by simp) (.refl _)) ?_
      rintro ⟨status, cursor'⟩ s' ⟨hPins', hEnd⟩
      refine ⟨(hPins₂.trans hPins').unref, ?_⟩
      simpa [unpositioned, entriesFrom, treeEntries] using hEnd

/-- A leaf without an entry from the target on is left for the next one. -/
theorem seekInLeaf_spec {descent : LeafDescent}
    (hRead : Readable s₀ (c.close (leaf descent.leafPageNum es)) free)
    (hPath : PathFor c descent.path) (hRouted : Routed target c)
    (hPins : Pins s₀ [descent.leafPageNum] s) :
    (seekInLeaf (decodedEnv ioFails) unpositioned target descent).Returns s
      (Lands ioFails s₀ (some (c.close (leaf descent.leafPageNum es))) unpositioned
        (entriesFrom (some target) (c.close (leaf descent.leafPageNum es)).2.entries)) := by
  obtain ⟨n, path, restart⟩ := descent
  have hBody : s.body n = .leaf (.ofEntries es) := (hRead.focused rfl hPins).stored
  have hSorted : (es.map Prod.fst).Pairwise (· < ·) := by
    simpa using (Ordered.of_close hRead.ordered).sorted_entries
  obtain ⟨before, after, rfl, hBefore, hAfter⟩ := exists_split_entries hSorted target
  rw [Returns, entriesFrom_close hRouted hBefore hAfter, seekInLeaf, wp_bind]
  refine (wp_decodeLeaf hBody).2 ?_
  simp only [lowerBoundKey_ofEntries hBefore hAfter, getKeyCount_ofEntries]
  cases after with
  | cons e after =>
    rw [if_pos (by simp)]
    refine wp_positionOnLeaf hBody (by simp) rfl hPins fun s' hPins' => ?_
    exact ⟨hPins', .inr ⟨rfl, .on hPath rfl⟩⟩
  | nil =>
    rw [if_neg (by simp)]
    simp only [append_nil, nil_append] at hBody hRead ⊢
    obtain rfl | ⟨before, e, rfl⟩ := eq_nil_or_concat before
    · -- Only a root may be empty, and nothing comes after a root.
      cases c with
      | top => exact ⟨hPins.unref, .inr ⟨rfl, .ended⟩⟩
      | under frame up =>
        exact (Filled.entries_ne_nil_of_leaf (hRead.filledIn rfl) rfl rfl).elim
    · rw [concat_eq_append] at hBody hRead ⊢
      simp only [length_append, length_singleton, Nat.add_one_ne_zero, if_false,
        Nat.add_sub_cancel, wp_bind]
      refine wp_positionOnLeaf hBody (by simp) rfl hPins fun s₁ hPins₁ => ?_
      simp only [ne_eq, not_true_eq_false, if_false, moveToNextLeaf, Bool.false_eq_true, wp_bind]
      refine wp_conseq (climb_spec hRead rfl rfl rfl hPath hPins₁) ?_
      rintro ⟨status, cursor⟩ s₂ ⟨hPins₂, ⟨hFailed, hFaulty⟩ | ⟨hStatus, hRests⟩⟩
      · obtain ⟨rfl, rfl⟩ := Prod.mk.inj hFailed
        simp only [reduceCtorEq, if_false, not_false_eq_true, if_true, wp_bind]
        refine wp_releaseCurrentLeaf [] hPins₂ fun s₃ hPins₃ => ?_
        exact ⟨hPins₃, .inl ⟨rfl, hFaulty⟩⟩
      · simp only at hStatus hRests
        subst hStatus
        generalize rightEntries c = rest at hPins₂ hRests ⊢
        cases rest with
        | nil | cons e' rest => exact ⟨hPins₂, .inr ⟨rfl, hRests⟩⟩

theorem seek_spec (hReads : Reads s₀ tree) (hOpen : cursor.closed = false)
    (hPins : Pins s₀ cursor.pages s) :
    (seek (decodedEnv ioFails) cursor target).Returns s
      (Lands ioFails s₀ tree unpositioned (entriesFrom (some target) (treeEntries tree))) := by
  simp only [seek, hOpen, Bool.false_eq_true, if_false, wp_bind]
  refine wp_releaseCurrentLeaf [] (by simpa using hPins) fun s₁ hPins₁ => ?_
  cases tree with
  | none =>
    simp only [descendUnlatched, getBtreeRoot, wp_bind, wp_read, hReads.root_eq_zero hPins₁,
      if_true, wp_pure, hOpen]
    exact ⟨hPins₁, .inr ⟨rfl, .ended⟩⟩
  | some tree =>
    obtain ⟨free, hRead⟩ := hReads.readable
    simp only [hOpen]
    refine wp_conseq (descendUnlatched_spec hRead hPins₁) ?_
    rintro (status | descent) s₂ hDescends
    · obtain ⟨hNe, hPins₂, hFaulty⟩ := hDescends
      have hFailed : Lands ioFails s₀ (some tree) unpositioned
          (entriesFrom (some target) (treeEntries (some tree))) (.failedToRead, unpositioned) s₂ :=
        ⟨hPins₂, .inl ⟨rfl, hFaulty⟩⟩
      cases status <;> first | exact hFailed | exact (hNe rfl).elim
    · obtain ⟨c, es, rfl, hPath, hRouted, hPins₂⟩ := hDescends
      exact seekInLeaf_spec hRead hPath hRouted hPins₂

/-- The state while a cursor is registered. -/
def registered (s : TreeState) : TreeState :=
  { s with activeCursorCount := s.activeCursorCount + 1 }

theorem Reads.registered (hReads : Reads s tree) : Reads (registered s) tree := by
  obtain ⟨⟨free, hRep⟩, hSound⟩ := hReads
  exact ⟨⟨free, hRep.of_eq rfl rfl⟩, hSound⟩

/-- Closing a cursor gives back its pin and its registration. -/
theorem close_spec {s' : TreeState} (hOpen : cursor.closed = false)
    (hPins : Pins (registered s) cursor.pages s') :
    (close cursor).Returns s' fun _ s'' => Pins s [] s'' := by
  simp only [close, hOpen, Bool.false_eq_true, if_false, wp_bind]
  refine wp_releaseCurrentLeaf [] (by simpa using hPins) fun s₁ hPins₁ => ?_
  have hRegistered : s₁.activeCursorCount ≠ 0 := by
    rw [hPins₁.activeCursorCount]
    exact Nat.succ_ne_zero _
  rw [wp_read, if_neg hRegistered]
  obtain ⟨calls, rfl⟩ := hPins₁
  exact ⟨calls, rfl⟩

end Calls

section Scan

variable {P : Type}

/-- What a caller sees of one call: its status, and what `current` returns afterwards. -/
abbrev Sight := BTreeCursorStatus × BTreeCursorResult

/-- Position the cursor: at the first entry of all, or at the first from a key on. -/
def seekTo (env : PagerEnv P) (cursor : BTreeCursor) :
    Option Key → Op P (BTreeCursorStatus × BTreeCursor)
  | none => seekFirst env cursor
  | some target => seek env cursor target

/-- The life of a cursor: open, seek, `next` as often as the caller likes, close. -/
def scanTree (env : PagerEnv P) (start : Option Key) (count : Nat) : Op P (List Sight) := do
  let cursor ← openCursor
  let (status, cursor) ← seekTo env cursor start
  let result ← current env cursor
  let (sights, cursor) ← visit (next env) (current env) count cursor
  let _ ← close cursor
  return (status, result) :: sights

def Sight.unpositioned : Sight := (.notPositioned, ⟨.notPositioned, none⟩)

/-- A call shows its entry or the end of the tree, unless it could not read its pages. -/
def display : Display (Key × Value) Sight where
  entry e := (.success, ⟨.success, some e⟩)
  ended := (.endOfTree, ⟨.endOfTree, none⟩)
  isRead sight := sight.1 ≠ .failedToRead
  isRead_entry _ := rfl
  isRead_ended := rfl

theorem front_eq (rest : List (Key × Value)) :
    (statusFor rest, ⟨statusFor rest, rest.head?⟩) = display.front rest := by
  cases rest <;> rfl

variable {tree : Option SomeTree} {rest : List (Key × Value)}

/-- A positioned cursor iterates over the entries it has still to show. -/
theorem iterates (hReads : Reads s₀ tree) :
    Iterates (next (decodedEnv ioFails)) (current (decodedEnv ioFails)) display (Faulty ioFails)
      fun cursor rest s => Rests tree cursor rest ∧ Pins s₀ cursor.pages s where
  move := by
    rintro cursor rest s ⟨hRests, hPins⟩
    refine wp_conseq (next_spec hReads hRests hPins) ?_
    rintro ⟨status, cursor'⟩ s' ⟨hPins', ⟨hFailed, hFaulty⟩ | ⟨hStatus, hRests'⟩⟩
    · obtain ⟨rfl, rfl⟩ := Prod.mk.inj hFailed
      exact .inl ⟨fun _ => rfl, hFaulty, hRests, hPins'⟩
    · exact .inr ⟨by rw [← front_eq]; exact hStatus, hRests', hPins'⟩
  look := by
    rintro cursor rest s ⟨hRests, hPins⟩
    rw [← front_eq]
    exact current_spec hReads hRests hPins

theorem Rests.closed_eq_false (hRests : Rests tree cursor rest) : cursor.closed = false := by
  cases hRests <;> rfl

/-- A cursor without a position stays without one. -/
theorem visit_unpositioned (hPins : Pins s₀ [] s) : ∀ {count : Nat},
    (visit (next (decodedEnv ioFails)) (current (decodedEnv ioFails)) count unpositioned).Returns s
      fun result s' => result = (List.replicate count Sight.unpositioned, unpositioned) ∧
        Pins s₀ [] s' := by
  intro count
  induction count with
  | zero => exact ⟨rfl, hPins⟩
  | succ count ih =>
    simp only [visit, wp_bind]
    change wp (visit (next (decodedEnv ioFails)) (current (decodedEnv ioFails)) count
      unpositioned) s _ _ _
    refine wp_conseq ih ?_
    rintro _ s' ⟨rfl, hPins'⟩
    exact ⟨rfl, hPins'⟩

theorem seekTo_spec (hReads : Reads s₀ tree) (hOpen : cursor.closed = false)
    (hPins : Pins s₀ cursor.pages s) (start : Option Key) :
    (seekTo (decodedEnv ioFails) cursor start).Returns s
      (Lands ioFails s₀ tree unpositioned (entriesFrom start (treeEntries tree))) := by
  cases start with
  | none => exact seekFirst_spec hReads hOpen hPins
  | some target => exact seek_spec hReads hOpen hPins

/-- A whole scan of a well-formed tree: either the seek could not read the tree, or the calls
show the entries asked for. -/
theorem scanTree_spec (hReads : Reads s tree) (start : Option Key) (count : Nat) :
    (scanTree (decodedEnv ioFails) start count).Returns s
      fun sights s' => sights.length = count + 1 ∧ Pins s [] s' ∧
        (display.Shows (Faulty ioFails) (entriesFrom start (treeEntries tree)) sights ∨
          Faulty ioFails ∧ sights = (.failedToRead, ⟨.notPositioned, none⟩) ::
            List.replicate count Sight.unpositioned) := by
  simp only [scanTree, openCursor, wp_bind, wp_modify, wp_pure]
  have hStart : Pins (registered s) unpositioned.pages (registered s) := Pins.refl _
  refine wp_conseq (seekTo_spec hReads.registered rfl hStart start) ?_
  rintro ⟨status, cursor⟩ s₁ ⟨hPins₁, ⟨hFailed, hFaulty⟩ | ⟨hStatus, hRests⟩⟩
  · obtain ⟨rfl, rfl⟩ := Prod.mk.inj hFailed
    change wp (visit (next (decodedEnv ioFails)) (current (decodedEnv ioFails)) count
      unpositioned) s₁ _ _ _
    refine wp_conseq (visit_unpositioned hPins₁) ?_
    rintro _ s₂ ⟨rfl, hPins₂⟩
    refine wp_conseq (close_spec rfl hPins₂) ?_
    exact fun _ s₃ hPins₃ => ⟨by simp, hPins₃, .inr ⟨hFaulty, rfl⟩⟩
  · simp only at hStatus hRests
    subst hStatus
    refine wp_conseq (current_spec hReads.registered hRests hPins₁) ?_
    rintro _ _ ⟨rfl, rfl⟩
    refine wp_conseq ((iterates hReads.registered).visit ⟨hRests, hPins₁⟩) ?_
    rintro ⟨sights, cursor'⟩ s₂ ⟨hLength, hShows, rest', hRests₂, hPins₂⟩
    refine wp_conseq (close_spec hRests₂.closed_eq_false hPins₂) ?_
    refine fun _ s₃ hPins₃ => ⟨congrArg (· + 1) hLength, hPins₃, .inl ?_⟩
    rw [front_eq]
    exact hShows.cons_read

/-- From a tree with the given entries, a cursor that seeks the first entry or a key and then
calls `next` any number of times returns from every call, and closing it gives back every pin.
When no read fails the calls show the entries asked for in strictly increasing order, each once
and with its value, and then the end of the tree for ever. When reads fail, the calls that do
read still show the same entries in turn, unless the seek itself was lost. -/
theorem cursor_visits_entries (ioFails : Nat → Bool) (start : Option Key) (count : Nat)
    (s : TreeState) (entries : List (Key × Value)) (hHolds : Holds s entries) :
    (entries.map Prod.fst).Pairwise (· < ·) ∧
      ∃ sights s', scanTree (decodedEnv ioFails) start count s = .ok sights s' ∧
        s'.refs = s.refs ∧ s'.activeCursorCount = s.activeCursorCount ∧
        (¬Faulty ioFails →
          sights = (display.showing (entriesFrom start entries) (count + 1)).take (count + 1)) ∧
        (display.Shows (Faulty ioFails) (entriesFrom start entries) sights ∨
          Faulty ioFails ∧ sights = (.failedToRead, ⟨.notPositioned, none⟩) ::
            List.replicate count Sight.unpositioned) := by
  obtain ⟨tree, free, hRep, hSound, rfl⟩ := hHolds
  constructor
  · cases tree with
    | none => exact List.Pairwise.nil
    | some tree => exact (hSound tree rfl).1.sorted_entries
  obtain ⟨sights, s', hRun, hLength, hPins, hShows⟩ :=
    exists_ok_of_wp (scanTree_spec ⟨⟨free, hRep⟩, hSound⟩ start count)
  refine ⟨sights, s', hRun, hPins.refs, hPins.activeCursorCount, fun hNoFault => ?_, hShows⟩
  rw [← hLength]
  exact (hShows.resolve_right fun h => hNoFault h.1).eq_take hNoFault

/-- From the last entry of the left leaf into the right leaf. -/
theorem cursor_visits_twins : ∃ s : TreeState,
    openPager decodedFormat twinFile .empty = some s ∧
      ∃ s', scanTree (decodedEnv fun _ => false) (some (rowKey 98)) 2 s = .ok
        [display.entry (rowKey 98, ValueCodec.makeBool true),
          display.entry (rowKey 100, ValueCodec.makeBool true),
          display.entry (rowKey 101, ValueCodec.makeBool true)] s' ∧ s'.refs = s.refs := by
  obtain ⟨s, hOpen, hHolds, -⟩ := twin_spec
  obtain ⟨-, sights, s', hRun, hRefs, -, hSights, -⟩ :=
    cursor_visits_entries (fun _ => false) (some (rowKey 98)) 2 s _ hHolds
  refine ⟨s, hOpen, s', ?_, hRefs⟩
  rw [hRun, hSights (by simp [Faulty])]
  rfl

end Scan

end BTreeCursor

end Stoneleaf
