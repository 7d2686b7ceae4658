import Stoneleaf.BTree.DescentSpec
import Stoneleaf.BTree.MutationFootprint
import Stoneleaf.Library.SortedEntries

/-!
The tree operations against the entries of the tree. Insert and remove act on the sorted list
of entries, lookup reads it, and each keeps the tree sound. The one exception is an insert that
overfills a full parent page, which stops the process.
-/

namespace Stoneleaf

open Library Program SearchTree List BLeafPage OpState List.Sublist Context

variable {s₁ : TreeState}

section Finish

variable {ioFails : Nat → Bool} {s s' : TreeState} {pending : PendingMutation}
  {entries : List (Key × Value)}

/-- The pages hold a sound tree with the given entries. -/
def Holds (s : TreeState) (entries : List (Key × Value)) : Prop :=
  ∃ tree free, Represents s tree free ∧ Sound tree ∧ treeEntries tree = entries

theorem Holds.of_eq (h : Holds s entries) (hBody : s'.body = s.body)
    (hHeader : s'.dbHeader = s.dbHeader) : Holds s' entries := by
  obtain ⟨tree, free, hRep, hSound, hEntries⟩ := h
  exact ⟨tree, free, hRep.of_eq hBody hHeader, hSound, hEntries⟩

theorem Settled.holds (h : Settled s s' entries) : Holds s' entries := by
  obtain ⟨tree, free, hRep, hSound, hEntries, -, -⟩ := h
  exact ⟨tree, free, hRep, hSound, hEntries⟩

/-- A mutation has appended its record and nothing else stands in the way of the next one. -/
structure Finished (s s' : TreeState) : Prop where
  storagePoisoned : s'.storagePoisoned = s.storagePoisoned
  activeCursorCount : s'.activeCursorCount = s.activeCursorCount
  nextLsn : s'.wal.nextLsn = s.wal.nextLsn + 1

theorem installLsns_ok {lsn : Lsn} (hLsn : lsn ≠ 0) (effects : List (PageEffect DecodedPage)) :
    ∀ {s : TreeState}, (effects.map PageEffect.pageNum).Nodup → EffectsReady s effects →
      (installLsns (decodedEnv ioFails) lsn effects).Attains (Faulty ioFails) s
        fun ok s' => ok = true ∧ s'.body = s.body ∧ s'.dbHeader = s.dbHeader ∧
          s'.storagePoisoned = s.storagePoisoned ∧
          s'.activeCursorCount = s.activeCursorCount ∧ s'.wal = s.wal := by
  induction effects with
  | nil =>
    intro s _ _
    exact ⟨rfl, rfl, rfl, rfl, rfl, rfl⟩
  | cons effect rest ih =>
    intro s hDistinct hReady
    obtain ⟨hFirst, hRest⟩ := nodup_cons.1 hDistinct
    obtain ⟨hLatch, hPending⟩ := hReady effect mem_cons_self
    simp only [installLsns, installPageLsn, wp_bind, wp_latchMode, hLsn, hLatch, hPending,
      wp_read, if_false, ne_eq, not_true_eq_false, wp_modify, wp_pure]
    refine wp_conseq (ih hRest fun e he => ?_) ?_
    · have hNe : e.pageNum ≠ effect.pageNum := fun hEq => hFirst (hEq ▸ mem_map_of_mem he)
      have hOld := hReady e (mem_cons_of_mem _ he)
      exact ⟨hOld.1, by simpa [hNe] using hOld.2⟩
    · rintro ok s' ⟨hOk, hBody, hHeader, hPoisoned, hCursors, hWal⟩
      refine ⟨hOk, ?_, hHeader, hPoisoned, hCursors, hWal⟩
      rw [hBody]
      funext n
      by_cases hn : n = effect.pageNum
      · subst hn
        simp [body, decodedEnv, decodedFormat]
      · simp [body, hn]

theorem Finished.of_advances (h : Finished s₁ s') (hAdvances : Advances s s₁) : Finished s s' where
  storagePoisoned := h.storagePoisoned.trans hAdvances.storagePoisoned
  activeCursorCount := h.activeCursorCount.trans hAdvances.activeCursorCount
  nextLsn := by rw [h.nextLsn, hAdvances.wal]

/-- All that is left of a mutation is to append its record. -/
structure Ready (s s' : TreeState) (entries : List (Key × Value)) : Prop where
  settled : Settled s s' entries
  nonempty : s'.effects ≠ []
  distinct : (s'.effects.map PageEffect.pageNum).Nodup

theorem Ready.unref (h : Ready s s' entries) (n : PageNum) : Ready s (s'.unref n) entries :=
  ⟨h.settled.unref n, h.nonempty, h.distinct⟩

variable (hReady : Ready s s' entries)
include hReady

theorem finalizeMutation_spec :
    (finalizeMutation (decodedEnv ioFails) pending).Attains (Faulty ioFails) s'
      fun ok s'' => ok = true ∧ Holds s'' entries ∧ Finished s s'' := by
  have hHolds := hReady.settled.holds
  obtain ⟨-, -, -, -, -, hAdvances, hWritable⟩ := hReady.settled
  have hEmpty : s'.effects.isEmpty = false := by simpa using hReady.nonempty
  simp only [finalizeMutation, wp_bind, wp_read, wp_onFail, appendRecord,
    PendingMutation.effects_build, hEmpty, Bool.false_eq_true, wp_ioFault, wp_ite]
  refine ⟨by simp, fun _ => ⟨fun hFault => ⟨_, hFault⟩, fun _ => ?_⟩⟩
  simp only [wp_modify, wp_pure]
  refine wp_conseq (installLsns_ok s'.wal.nextLsn_pos.ne' s'.effects hReady.distinct
    hWritable.ready) ?_
  rintro ok s'' ⟨hOk, hBody, hHeader, hPoisoned, hCursors, hWal⟩
  have hFinished : Finished s' s'' :=
    ⟨hPoisoned, hCursors, by rw [hWal]; exact Wal.nextLsn_append _ _⟩
  exact ⟨hOk, hHolds.of_eq hBody hHeader, hFinished.of_advances hAdvances⟩

theorem insertFinish_spec :
    (insertFinish (decodedEnv ioFails) pending).Attains (Faulty ioFails) s'
      fun _ s'' => Holds s'' entries ∧ Finished s s'' := by
  refine wp_bind_of (finalizeMutation_spec hReady) ?_
  rintro ok s'' ⟨rfl, hDone⟩
  simpa using hDone

theorem removeFinish_spec :
    (removeFinish (decodedEnv ioFails) pending).Attains (Faulty ioFails) s'
      fun _ s'' => Holds s'' entries ∧ Finished s s'' := by
  refine wp_bind_of (finalizeMutation_spec hReady) ?_
  rintro ok s'' ⟨rfl, hDone⟩
  simpa using hDone

end Finish

section Leaf

variable {c : PageContext 0} {i : PageNum} {es before after : List (Key × Value)} {key : Key}

/-- Entries to the left of a routed leaf are below the key, those to the right above it. -/
theorem Routed.entries (hRouted : Routed key c) :
    (∀ e ∈ c.leftTokens.filterMap Token.asEntry, e.1 < key) ∧
      ∀ e ∈ c.rightTokens.filterMap Token.asEntry, key < e.1 := by
  constructor
  · intro e he
    have hMark := hRouted.1 _ ((entries_sublist_marks _).mem (mem_map_of_mem he))
    simpa [Prod.Lex.toLex_lt_toLex] using hMark
  · intro e he
    have hMark := hRouted.2 _ ((entries_sublist_marks _).mem (mem_map_of_mem he))
    simpa [Prod.Lex.toLex_lt_toLex] using hMark

theorem valueOf_close (hRouted : Routed key c) :
    valueOf (c.close (leaf i es)).2.entries key = valueOf es key := by
  obtain ⟨hLeft, hRight⟩ := hRouted.entries
  have hBelow : valueOf (c.leftTokens.filterMap Token.asEntry) key = none := by
    rw [valueOf_eq_none_iff, mem_map]
    rintro ⟨e, he, rfl⟩
    exact (hLeft e he).false
  have hAbove : valueOf (c.rightTokens.filterMap Token.asEntry) key = none := by
    rw [valueOf_eq_none_iff, mem_map]
    rintro ⟨e, he, rfl⟩
    exact (hRight e he).false
  rw [entries_close, valueOf_append, valueOf_append, hBelow, hAbove]
  simp

section Cut

variable (hRouted : Routed key c) (hBefore : ∀ e ∈ before, e.1 < key)
  (hAfter : ∀ e ∈ after, key < e.1)
include hRouted hBefore hAfter

/-- A leaf cut at the key cuts the entries of the whole tree. -/
theorem Routed.cut :
    (∀ e ∈ c.leftTokens.filterMap Token.asEntry ++ before, e.1 < key) ∧
      ∀ e ∈ after ++ c.rightTokens.filterMap Token.asEntry, key < e.1 :=
  ⟨fun e he => (mem_append.1 he).elim (hRouted.entries.1 e) (hBefore e),
    fun e he => (mem_append.1 he).elim (hAfter e) (hRouted.entries.2 e)⟩

theorem insertEntry_close (mid : List (Key × Value)) (hMid : ∀ e ∈ mid, e.1 = key)
    (value : Value) :
    insertEntry key value (c.close (leaf i (before ++ mid ++ after))).2.entries =
      (c.close (leaf i (before ++ (key, value) :: after))).2.entries := by
  obtain ⟨hLow, hHigh⟩ := hRouted.cut hBefore hAfter
  simpa [entries_close] using insertEntry_cut hLow hHigh mid hMid value

theorem removeEntry_close (mid : List (Key × Value)) (hMid : ∀ e ∈ mid, e.1 = key) :
    removeEntry key (c.close (leaf i (before ++ mid ++ after))).2.entries =
      (c.close (leaf i (before ++ after))).2.entries := by
  obtain ⟨hLow, hHigh⟩ := hRouted.cut hBefore hAfter
  simpa [entries_close] using removeEntry_cut hLow hHigh mid hMid

theorem ordered_insert (value : Value)
    (hOrdered : Ordered (c.close (leaf i (before ++ after))).2) :
    Ordered (c.close (leaf i (before ++ (key, value) :: after))).2 := by
  simp only [Ordered, marks_close, marks_leaf, map_append, map_cons,
    append_assoc, cons_append] at hOrdered ⊢
  rw [← append_assoc] at hOrdered ⊢
  rw [pairwise_append] at hOrdered ⊢
  obtain ⟨hLeft, hRight, hCross⟩ := hOrdered
  have hLow : ∀ m ∈ c.leftTokens.filterMap Token.asMark ++
      before.map (fun e => toLex (e.1, true)), m < toLex (key, true) := by
    intro m hm
    rcases mem_append.1 hm with hm | hm
    · exact hRouted.1 m hm
    · obtain ⟨e, he, rfl⟩ := mem_map.1 hm
      simp [Prod.Lex.toLex_lt_toLex, hBefore e he]
  have hHigh : ∀ m ∈ after.map (fun e => toLex (e.1, true)) ++
      c.rightTokens.filterMap Token.asMark, (toLex (key, true) : Key ×ₗ Bool) < m := by
    intro m hm
    rcases mem_append.1 hm with hm | hm
    · obtain ⟨e, he, rfl⟩ := mem_map.1 hm
      simp [Prod.Lex.toLex_lt_toLex, hAfter e he]
    · exact hRouted.2 m hm
  refine ⟨hLeft, pairwise_cons.2 ⟨hHigh, hRight⟩, fun m hm m' hm' => ?_⟩
  rcases mem_cons.1 hm' with rfl | hm'
  · exact hLow m hm
  · exact hCross m hm m' hm'

end Cut

/-- The order of a tree depends on keys only. -/
theorem ordered_replace {old value : Value}
    (hOrdered : Ordered (c.close (leaf i (before ++ (key, old) :: after))).2) :
    Ordered (c.close (leaf i (before ++ (key, value) :: after))).2 := by
  simpa [Ordered, marks_close] using hOrdered

theorem ordered_erase {e : Key × Value}
    (hOrdered : Ordered (c.close (leaf i (before ++ e :: after))).2) :
    Ordered (c.close (leaf i (before ++ after))).2 := by
  simp only [Ordered, marks_close, marks_leaf] at hOrdered ⊢
  refine hOrdered.sublist (append (append (refl _) ?_)
    (refl _))
  exact (append_left (sublist_cons_self e after) before).map _

end Leaf

section Overflow

variable {h : Nat} {key : Key} {frame : PageGap h}

/-- The position of the child that owns a key. -/
def childPosition (key : Key) (keys : List Key) : Nat :=
  keys.countP fun k => k ≤ key

/-- Inserting the key splits a leaf whose parent page has no room for the promoted key. -/
def Overflows (key : Key) : {h : Nat} → PageTree h → Prop
  | 0, _ => False
  | 1, t => (BranchNode.keys t).length = maxKeys btreeOrder ∧
      ∃ c ∈ (BranchNode.children t)[childPosition key (BranchNode.keys t)]?,
        key ∉ (LeafNode.entries c).map Prod.fst ∧
          (LeafNode.entries c).length = maxKeys btreeOrder
  | _ + 2, t => ∃ c ∈ (BranchNode.children t)[childPosition key (BranchNode.keys t)]?,
      Overflows key c

def TreeOverflows (key : Key) (tree : Option SomeTree) : Prop :=
  ∃ t ∈ tree, Overflows key t.2

theorem Routed.up {up : PageContext (h + 1)} (hRouted : Routed key (.under frame up)) :
    Routed key up :=
  ⟨fun m hm => hRouted.1 m (by simp [hm]), fun m hm => hRouted.2 m (by simp [hm])⟩

theorem Routed.separators {up : PageContext (h + 1)} (hRouted : Routed key (.under frame up)) :
    (∀ k ∈ frame.keysLeft, k ≤ key) ∧ ∀ k ∈ frame.keysRight, key < k := by
  constructor
  · intro k hk
    have hMark := hRouted.1 (toLex (k, false)) (mem_filterMap.2 ⟨.separator k, by
      simp [(mem_weaveLeft _ frame.left_length).2 (Or.inl ⟨_, hk, rfl⟩)], rfl⟩)
    rcases Prod.Lex.toLex_lt_toLex.1 hMark with hLt | ⟨hEq, -⟩
    · exact hLt.le
    · exact hEq.le
  · intro k hk
    have hMark := hRouted.2 (toLex (k, false)) (mem_filterMap.2 ⟨.separator k, by
      simp [(mem_weaveRight _ frame.right_length).2 (Or.inl ⟨_, hk, rfl⟩)], rfl⟩)
    rcases Prod.Lex.toLex_lt_toLex.1 hMark with hLt | ⟨-, hFalse⟩
    · exact hLt
    · exact absurd hFalse (show ¬(true < false) by decide)

/-- Routing a key through a frame pins down the child. -/
theorem Routed.child {up : PageContext (h + 1)} (hRouted : Routed key (.under frame up))
    (t : PageTree h) :
    (frame.left ++ t :: frame.right)[childPosition key (frame.keysLeft ++ frame.keysRight)]? =
      some t := by
  obtain ⟨hLeft, hRight⟩ := hRouted.separators
  have hCount : childPosition key (frame.keysLeft ++ frame.keysRight) = frame.left.length := by
    have hAll : frame.keysLeft.countP (fun k => k ≤ key) = frame.keysLeft.length :=
      countP_eq_length.2 fun k hk => by simpa using hLeft k hk
    have hNone : frame.keysRight.countP (fun k => k ≤ key) = 0 :=
      countP_eq_zero.2 fun k hk => by simpa using hRight k hk
    rw [childPosition, countP_append, hAll, hNone, frame.left_length, Nat.add_zero]
  exact getElem?_cut hCount

theorem overflows_close (c : PageContext h) (t : PageTree h) (hRouted : Routed key c) :
    Overflows key (c.close t).2 ↔
      match c with
      | .top => Overflows key t
      | .under frame _ => Overflows key (frame.fill t) := by
  induction c with
  | top => rfl
  | under frame up ih =>
    rw [close_under, ih (frame.fill t) hRouted.up]
    cases up with
    | top => rfl
    | under frame' up =>
      have hChild := hRouted.up.child (frame.fill t)
      constructor
      · rintro ⟨c, hc, hOverflows⟩
        obtain rfl : frame.fill t = c := Option.some.inj (hChild.symm.trans hc)
        exact hOverflows
      · exact fun hOverflows => ⟨_, hChild, hOverflows⟩

/-- At the leaf a descent ends at: the parent is full, and the leaf has to be split. -/
theorem overflows_leaf_iff {c : PageContext 0} {i : PageNum} {es : List (Key × Value)}
    (hRouted : Routed key c) :
    Overflows key (c.close (leaf i es)).2 ↔
      ParentFull c ∧ key ∉ es.map Prod.fst ∧ es.length = maxKeys btreeOrder := by
  rw [overflows_close c _ hRouted]
  cases c with
  | top => simp [Overflows, ParentFull]
  | under frame up =>
    have hChild := hRouted.child (leaf i es)
    constructor
    · rintro ⟨hFull, c, hc, hLeaf⟩
      obtain rfl : leaf i es = c := Option.some.inj (hChild.symm.trans hc)
      exact ⟨hFull, hLeaf⟩
    · rintro ⟨hFull, hLeaf⟩
      exact ⟨hFull, _, hChild, hLeaf⟩

end Overflow

section Insert

variable {ioFails : Nat → Bool} {s₀ s : TreeState} {pending : PendingMutation}
  {key : Key} {value : Value} {tree : Option SomeTree} {free : List PageNum}
  {mutation : BTreeMutationType} {descent : LeafDescent} {c : PageContext 0}
  {es es' : List (Key × Value)} {i : PageNum} {halted : TreeState → Prop}

theorem Focused.rewriteLeaf {s' : TreeState}
    (hFocus : Focused s c (leaf i es) free)
    (hBody : s'.body = Function.update s.body i (.leaf (.ofEntries es')))
    (hHeader : s'.dbHeader = s.dbHeader) : Focused s' c (leaf i es') free :=
  focused_of_update hFocus.freePages (by simpa using hFocus.accounts)
    (hFocus.root.trans (c.label_close_congr rfl)) hFocus.around trivial hBody hHeader

namespace Landed

variable (hLanded : Landed s₀ s tree key mutation descent c es)
include hLanded

theorem focused (hRep : Represents s₀ tree free) :
    Focused s c (leaf descent.leafPageNum es) free := by
  have hTree := hRep.of_eq hLanded.observes.body hLanded.observes.dbHeader
  rw [hLanded.close] at hTree
  exact focused_iff.2 hTree

theorem sound (hSound : Sound tree) :
    Ordered (c.close (leaf descent.leafPageNum es)).2 ∧ FilledAround c ∧
      FilledIn c (leaf descent.leafPageNum es) := by
  obtain ⟨hOrdered, hFilled⟩ := hSound _ hLanded.close
  exact ⟨hOrdered, (rootFilled_close_iff _ _).1 hFilled⟩

theorem treeEntries_eq :
    treeEntries tree = (c.close (leaf descent.leafPageNum es)).2.entries := by
  rw [hLanded.close]
  rfl

theorem overflows_iff :
    TreeOverflows key tree ↔ ParentFull c ∧ key ∉ es.map Prod.fst ∧ es.length = 199 := by
  rw [hLanded.close]
  simpa [TreeOverflows] using overflows_leaf_iff hLanded.routed

theorem writable (hEffects : s.effects = []) : Writable s :=
  ⟨hLanded.noShared, by simp [EffectsReady, hEffects]⟩

end Landed

/-- The state after the entries of a leaf are replaced and recorded. -/
def OpState.rewritten (s : TreeState) (i : PageNum) (es : List (Key × Value)) :
    TreeState :=
  ((s.marked i).written i (.leaf (.ofEntries es)) (.leaf (.ofEntries es))).recorded .write i

section Rewritten

variable (hLanded : Landed s₀ s tree key mutation descent c es) (hEffects : s.effects = [])
include hLanded hEffects

theorem Landed.writable_rewritten : Writable (s.rewritten descent.leafPageNum es') :=
  Writable.recorded (by simpa using (hLanded.writable hEffects).marked _)
    (by simpa using held_marked hLanded.latch)

omit hEffects in
theorem Landed.held_rewritten :
    Claimed (s.rewritten descent.leafPageNum es') descent.leafPageNum := by
  simpa [rewritten] using held_marked hLanded.latch

omit hEffects in
theorem Landed.focused_rewritten (hRep : Represents s₀ tree free) :
    Focused (s.rewritten descent.leafPageNum es') c (leaf descent.leafPageNum es')
      free :=
  (hLanded.focused hRep).rewriteLeaf (by simp [rewritten]) rfl

end Rewritten

theorem decodedFormat_pageInvariant : PageInvariant decodedFormat fun _ _ => True :=
  ⟨by simp, by simp, by simp, by simp, by simp, by simp⟩

/-- The first effect of a mutation. -/
theorem tracked_rewritten (hEffects : s.effects = []) :
    (s.rewritten i es').effects ≠ [] ∧
      Tracked (fun _ _ => True) (s.rewritten i es') [] (s.rewritten i es') := by
  have hSingle : (s.rewritten i es').effects =
      [⟨.write, i, (s.rewritten i es').pages i⟩] := by
    simp only [rewritten, recorded, written, marked, hEffects]
    rfl
  refine ⟨by simp [hSingle], by simp, by simp [hSingle], fun _ h => h, ?_, fun _ _ _ => rfl, rfl⟩
  simp [hSingle]

theorem Landed.ready_rewritten (hLanded : Landed s₀ s tree key mutation descent c es)
    (hEffects : s.effects = []) (hRep : Represents s₀ tree free)
    (hOrdered : Ordered (c.close (leaf descent.leafPageNum es')).2)
    (hAround : FilledAround c) (hIn : FilledIn c (leaf descent.leafPageNum es')) :
    Ready s (s.rewritten descent.leafPageNum es')
      (c.close (leaf descent.leafPageNum es')).2.entries := by
  obtain ⟨hNonempty, hTracked⟩ := tracked_rewritten hEffects
  refine ⟨⟨_, free, focused_iff.1 (hLanded.focused_rewritten hRep), ?_, rfl,
    by simp [rewritten], hLanded.writable_rewritten hEffects⟩, hNonempty,
    hTracked.distinct⟩
  intro t ht
  obtain rfl := Option.some.inj ht
  exact ⟨hOrdered, (rootFilled_close_iff _ _).2 ⟨hAround, hIn⟩⟩

/-- A propagation that settles the tree leaves the mutation ready, for its footprint keeps the
effects distinct. -/
theorem wp_ready {x : Op DecodedPage Unit} {entries : List (Key × Value)}
    {okay : Unit → TreeState → Prop} (hEffects : s.effects = [])
    (hSpec : x.wp (s.rewritten i es') okay (fun _ _ => Faulty ioFails) halted)
    (hTracks : Tracks (fun _ _ => True) (s.rewritten i es') x [] [])
    (hSettled : ∀ s', okay () s' → Settled (s.rewritten i es') s' entries) :
    x.wp (s.rewritten i es') (fun _ s' => okay () s' ∧ Ready s s' entries)
      (fun _ _ => Faulty ioFails) halted := by
  have ⟨hNonempty, hTracked⟩ : (s.rewritten i es').effects ≠ [] ∧ _ := tracked_rewritten hEffects
  refine wp_mono (wp_and hSpec (hTracks _ hTracked)) ?_ (fun _ _ h => h.1) fun _ h => h.1
  rintro a s' ⟨hOk, hTracked'⟩
  refine ⟨hOk, (hSettled s' hOk).of_advances (by simp [rewritten]), fun hNil => ?_,
    hTracked'.distinct⟩
  obtain ⟨e, he⟩ := exists_mem_of_ne_nil _ hNonempty
  simpa [hNil] using hTracked'.kept e.pageNum (mem_map_of_mem he)

theorem filledIn_leaf_of_bounds (hMin : 99 ≤ es.length) (hMax : es.length ≤ 199) :
    FilledIn c (leaf i es) := by
  cases c with
  | top => exact ⟨hMax, fun h => absurd rfl h, trivial⟩
  | under frame up => exact ⟨hMin, hMax⟩

theorem filledIn_leaf_of_le (hIn : FilledIn c (leaf i es))
    (hLe : es.length ≤ es'.length) (hMax : es'.length ≤ 199) :
    FilledIn c (leaf i es') := by
  cases c with
  | top => exact ⟨hMax, fun h => absurd rfl h, trivial⟩
  | under frame up => exact ⟨hIn.1.trans hLe, hMax⟩

theorem length_le_of_filledIn (hIn : FilledIn c (leaf i es)) : es.length ≤ 199 := by
  cases c with
  | top => exact hIn.1
  | under frame up => exact hIn.2

theorem insertIntoLeaf_spec (hLanded : Landed s₀ s tree key .insert descent c es)
    (hRep : Represents s₀ tree free) (hSound : Sound tree) (hEffects : s.effects = []) :
    (insertIntoLeaf (decodedEnv ioFails) pending key value descent).wp s
      (fun _ s' => ¬TreeOverflows key tree ∧ Holds s' (insertEntry key value (treeEntries tree)) ∧
        Finished s s')
      (fun _ _ => Faulty ioFails) (fun _ => TreeOverflows key tree) := by
  obtain ⟨hOrdered, hAround, hIn⟩ := hLanded.sound hSound
  have hLeaf : (s.marked descent.leafPageNum).body descent.leafPageNum = .leaf (.ofEntries es) :=
    (hLanded.focused hRep).stored
  have hSorted : (es.map Prod.fst).Pairwise (· < ·) := by
    simpa using hOrdered.of_close.sorted_entries
  rw [hLanded.treeEntries_eq]
  simp only [insertIntoLeaf, wp_bind]
  refine wp_markWalPending hLanded.latch ?_
  simp only [not_true_eq_false, if_false, wp_bind]
  refine (wp_decodeLeaf hLeaf).2 ?_
  obtain ⟨before, after, hBefore, hAfter, rfl | ⟨old, rfl⟩⟩ := entries_cut hSorted key
  · have hAbsent := keyExists_cut hBefore hAfter
    have hKey := not_mem_cut hBefore hAfter
    have hOrdered' := ordered_insert hLanded.routed hBefore hAfter value hOrdered
    have hEntries := insertEntry_close (i := descent.leafPageNum) hLanded.routed hBefore hAfter []
      (by simp) value
    rw [append_nil] at hEntries
    rw [hAbsent, if_neg Bool.false_ne_true,
      insertAt_ofEntries (lowerBoundKey_cut hBefore hAfter), hEntries,
      hLanded.overflows_iff]
    simp only [wp_bind, wp_writeBack_leaf, wp_recordPageEffect, getKeyCount_ofEntries]
    by_cases hFull : (before ++ after).length = 199
    · have hLength : (before ++ (key, value) :: after).length = 200 := by
        simp only [length_append, length_cons] at hFull ⊢
        omega
      have hNoRoom : ¬HasRoom key (leaf descent.leafPageNum (before ++ after)) := by
        rw [hasRoom_leaf_iff hSorted, hAbsent]
        simp [hFull]
      rw [if_pos (by simp [hLength])]
      simp only [wp_bind, wp_ensuring]
      refine wp_mono (wp_ready hEffects (propagateSplitting_leaf_spec hLanded.pathFor
        (hLanded.focused_rewritten hRep) hOrdered' hAround hLength
        (hLanded.pathLatched rfl hNoRoom) (hLanded.writable_rewritten hEffects)
        hLanded.held_rewritten) (tracks_propagateSplitting decodedFormat_pageInvariant _)
        fun _ h => h.2) ?_ (fun _ _ h => h) fun _ h => ⟨h, hKey, hFull⟩
      rintro _ s' ⟨⟨hParent, -⟩, hReady⟩
      refine wp_mono (insertFinish_spec (hReady.unref _)) ?_ (fun _ _ h => h)
        fun _ hFalse => hFalse.elim
      exact fun _ _ hDone => ⟨fun hOver => hParent hOver.1, hDone⟩
    · have hMax := length_le_of_filledIn hIn
      have hMax' : (before ++ (key, value) :: after).length ≤ 199 := by
        simp only [length_append, length_cons] at hFull hMax ⊢
        omega
      have hReady := hLanded.ready_rewritten hEffects hRep hOrdered' hAround
        (filledIn_leaf_of_le hIn (by simp) hMax')
      rw [if_neg (by simpa using hMax')]
      simp only [wp_bind, wp_unrefPage]
      refine wp_mono (insertFinish_spec (hReady.unref _)) ?_ (fun _ _ h => h)
        fun _ hFalse => hFalse.elim
      exact fun _ _ hDone => ⟨fun hOver => hFull hOver.2.2, hDone⟩
  · have hKey : ¬TreeOverflows key tree := by simp [hLanded.overflows_iff]
    have hReplaced : Ordered (c.close (leaf descent.leafPageNum
        (before ++ (key, value) :: after))).2 := ordered_replace hOrdered
    have hReady := hLanded.ready_rewritten hEffects hRep hReplaced hAround
      (filledIn_leaf_of_le hIn (by simp) (by simpa using length_le_of_filledIn hIn))
    have hEntries := insertEntry_close (i := descent.leafPageNum) hLanded.routed hBefore hAfter
      [(key, old)] (by simp) value
    rw [append_assoc, singleton_append] at hEntries
    rw [keyExists_cut_found hBefore hAfter, if_pos rfl,
      set_ofEntries hBefore hAfter, hEntries]
    simp only [wp_bind, wp_writeBack_leaf, wp_recordPageEffect, wp_unrefPage]
    refine wp_mono (insertFinish_spec (hReady.unref _)) ?_ (fun _ _ h => h)
      fun _ hFalse => hFalse.elim
    exact fun _ _ hDone => ⟨hKey, hDone⟩

theorem createRootLeaf_spec (hRep : Represents s none free) (hWritable : Writable s) :
    (createRootLeaf (decodedEnv ioFails) key value).Attains (Faulty ioFails) s
      fun _ s' => Settled s s' [(key, value)] ∧ s'.dbHeader.btreeRootPageNum ≠ 0 := by
  refine wp_bind_of (wp_of_returns
    (allocatePage_spec .btreeLeaf hRep.freePages hRep.accounts hWritable) (fun _ _ h => h)) ?_
  rintro result s₁ (⟨rfl, hFault⟩ | ⟨r, effects, free', rfl, hAllocated⟩)
  · simpa using hFault
  have hInsert : (BLeafPage.ofEntries []).insertAt 0 key value =
      some (.ofEntries [(key, value)]) := rfl
  simp only [wp_bind, wp_recordPagerEffects, wp_frame, wp_setFrame]
  refine (wp_decodeLeaf (p := .ofEntries []) ?_).2 ?_
  · simp [decodedEnv, decodedFormat, BLeafPage.ofEntries]
  simp only [hInsert, wp_bind, wp_writeBack_leaf, wp_recordPageEffect]
  refine wp_of_returns (hAllocated.setBtreeRoot_spec (by simp; rfl) rfl
    (by simpa using hAllocated.advances) ?_) ?_
  · exact Writable.recorded (by simpa using hAllocated.writable) (by simpa using hAllocated.held)
  rintro result s₂ (⟨rfl, hFault⟩ | ⟨effects', rfl, hRooted⟩)
  · simpa using hFault
  refine ⟨⟨some ⟨0, leaf r [(key, value)]⟩, free', ⟨hRooted.freePages, hRooted.accounts,
    hRooted.root, ?_⟩, ?_, rfl, hRooted.advances, hRooted.writable⟩, ?_⟩
  · rintro _ ⟨⟩
    exact hRooted.node
  · rintro _ ⟨⟩
    exact ⟨by simp [Ordered], by simp [RootFilled]⟩
  · exact hRooted.root ▸ (hAllocated.accounts.bounds r (by simp)).1

/-- The header page changes with the root, so there is an effect to log. -/
theorem insertIntoEmptyTree_spec (hRep : Represents s none free) (hWritable : Writable s)
    (hEffects : s.effects = []) :
    (insertIntoEmptyTree (decodedEnv ioFails) pending key value).Attains (Faulty ioFails) s
      fun _ s' => Holds s' [(key, value)] ∧ Finished s s' := by
  have hTracked : Tracked (fun _ _ => True) s [] s :=
    ⟨by simp, by simp [hEffects], fun _ h => h, by simp [hEffects], fun _ _ _ => rfl, rfl⟩
  refine wp_bind_of (wp_mono (wp_and (createRootLeaf_spec hRep hWritable)
    (tracks_createRootLeaf decodedFormat_pageInvariant s hTracked)) (fun _ _ h => h)
    (fun _ _ h => h.1) fun _ h => h.1) ?_
  rintro _ s' ⟨⟨hSettled, hRoot⟩, hTracked'⟩
  refine insertFinish_spec ⟨hSettled, fun hNil => ?_, hTracked'.distinct⟩
  obtain ⟨tree, free', hRep', -⟩ := hSettled
  have hSame : s'.body 0 = s.body 0 := congrArg DecodedPage.body
    (hTracked'.same 0 (by simp) (by simp [hNil]))
  rw [hRep'.freePages.metadata, hRep.freePages.metadata] at hSame
  rw [PageBody.metadata.inj hSame, hRep.root] at hRoot
  exact hRoot rfl

/-- What keeps a sound tree from accepting a mutation. -/
def Refused (ioFails : Nat → Bool) (s : TreeState) : Prop :=
  Faulty ioFails ∨ s.storagePoisoned = true ∨ 0 < s.activeCursorCount

theorem noShared_started (s : TreeState) : NoShared s.started := by
  intro n hShared
  cases hShared

theorem writable_of_observes (hObserves : Observes s.started s₁) (hShared : NoShared s₁) :
    Writable s₁ := by
  obtain ⟨_, _, _, rfl⟩ := hObserves
  exact ⟨hShared, fun _ hMem => absurd hMem not_mem_nil⟩

theorem Finished.of_observes {s₁ s' : TreeState} (h : Finished s₁ s')
    (hObserves : Observes s.started s₁) : Finished s s'.releaseLatches := by
  obtain ⟨_, _, _, rfl⟩ := hObserves
  exact ⟨h.storagePoisoned, h.activeCursorCount, h.nextLsn⟩

theorem Observes.effects_started (h : Observes s.started s₁) :
    s₁.effects = [] := by
  obtain ⟨_, _, _, rfl⟩ := h
  rfl

variable (hRep : Represents s tree free) (hSound : Sound tree)
include hRep hSound

/-- A mutation works on the leaf that owns the key, or on an empty tree. -/
theorem wp_mutation {α : Type} {mutation : BTreeMutationType} {onEmpty : Op DecodedPage α}
    {onLeaf : LeafDescent → Op DecodedPage α} {okay : α → TreeState → Prop}
    {failed : BTreeStatus → TreeState → Prop} (hFaulty : ∀ e s', Faulty ioFails → failed e s')
    (hEmpty : ∀ s₁, Represents s₁ none free → Observes s.started s₁ → NoShared s₁ →
      tree = none → onEmpty.wp s₁ okay failed halted)
    (hLeaf : ∀ descent c es s₁, Landed s.started s₁ tree key mutation descent c es →
      (onLeaf descent).wp s₁ okay failed halted) :
    (descendForMutation (decodedEnv ioFails) key mutation >>= fun result =>
      match result with
      | none => onEmpty
      | some descent => onLeaf descent).wp s.started okay failed halted := by
  have hStarted : Represents s.started tree free := hRep.of_eq rfl rfl
  refine wp_bind_of (wp_mono (descendForMutation_spec hStarted hSound (noShared_started s))
    (fun _ _ h => h) (fun e s' h => hFaulty e s' h) fun _ h => h.elim) ?_
  rintro (_ | descent) s₁ hFound
  · obtain ⟨rfl, hObserves, hShared⟩ := hFound
    exact hEmpty s₁ (hStarted.of_eq hObserves.body hObserves.dbHeader) hObserves hShared rfl
  · obtain ⟨c, es, hLanded⟩ := hFound
    exact hLeaf descent c es s₁ hLanded

theorem insertImpl_spec :
    (insertImpl (decodedEnv ioFails) pending key value).wp s
      (fun _ s' => ¬TreeOverflows key tree ∧ Holds s' (insertEntry key value (treeEntries tree)) ∧
        Finished s s')
      (fun _ _ => Refused ioFails s) (fun _ => TreeOverflows key tree) := by
  simp only [insertImpl, wp_bind, wp_read, wp_ite, wp_fail]
  refine ⟨fun hPoisoned => .inr (.inl hPoisoned), fun _ => ⟨fun hCursor => .inr (.inr hCursor),
    fun _ => wp_withOperation.2 (wp_mutation hRep hSound (fun _ _ => .inl) ?_ ?_)⟩⟩
  · rintro s₁ hRep₁ hObserves hShared rfl
    have hEffects := hObserves.effects_started
    refine wp_mono (insertIntoEmptyTree_spec hRep₁ (writable_of_observes hObserves hShared)
      hEffects) ?_ (fun _ _ => .inl) fun _ hFalse => hFalse.elim
    rintro _ s' ⟨hHolds, hFinished⟩
    exact ⟨by simp [TreeOverflows], hHolds.of_eq rfl rfl, hFinished.of_observes hObserves⟩
  · intro descent c es s₁ hLanded
    have hEffects := hLanded.observes.effects_started
    refine wp_weaken (insertIntoLeaf_spec hLanded (hRep.of_eq rfl rfl) hSound hEffects) ?_
      (fun _ _ => .inl)
    rintro _ s' ⟨hRoom, hHolds, hFinished⟩
    exact ⟨hRoom, hHolds.of_eq rfl rfl, hFinished.of_observes hLanded.observes⟩

end Insert

end Stoneleaf
