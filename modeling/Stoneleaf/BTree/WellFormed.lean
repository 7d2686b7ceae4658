import Stoneleaf.BTree.RemoveSpec
import Stoneleaf.Library.TreeOrder

/-!
Well-formed trees: what every mutation relies on and keeps, stated page by page.
-/

namespace Stoneleaf

open Library Program List SearchTree

section Shape

variable {h : Nat} {body : PageNum → PageBody}

theorem Filled.entries_ne_nil {t : PageTree h} (hFilled : Filled t) (hProper : t.Proper) :
    t.entries ≠ [] := by
  cases h with
  | zero =>
    obtain ⟨i, es, rfl⟩ := eq_leaf t
    rw [entries_leaf]
    rintro rfl
    exact absurd ((filled_leaf i []).1 hFilled).1 (by decide)
  | succ h => exact hProper.entries_ne_nil

/-- A stored tree with enough keys in its pages has an entry in every subtree. -/
theorem proper_of_childrenFilled : ∀ {h : Nat} {t : PageTree h}, Stored body t →
    ChildrenFilled t → t.Proper := by
  intro h
  induction h with
  | zero => exact fun _ _ => trivial
  | succ h ih =>
    intro t hStored hFilled
    obtain ⟨i, ks, cs, rfl⟩ := eq_branch t
    obtain ⟨-, hLength, hChildren⟩ := (stored_branch i ks cs).1 hStored
    refine proper_branch.2 ⟨hLength, fun c hc => ?_⟩
    have hc' := (childrenFilled_branch i ks cs).1 hFilled c hc
    have hProper := ih (hChildren c hc) ((filled_iff c).1 hc').2.2
    exact ⟨hProper, hc'.entries_ne_nil hProper⟩

end Shape

/-- A well-formed tree in the pages of the database. The height of a tree is part of its type,
so all leaves are equally deep. Every page holds at most 199 keys and each page but the root
at least 99, an internal root at least one; keys and separators are in order; and no page is
used twice, by the tree or by the freelist. -/
def WellFormed (s : TreeState) : Prop :=
  ∃ tree free, Represents s tree free ∧ ∀ t ∈ tree, t.2.WellOrdered ∧ RootFilled t.2

variable {s s' : TreeState} {tree : Option SomeTree} {free : List PageNum}

theorem sound_iff (hRep : Represents s tree free) :
    Sound tree ↔ ∀ t ∈ tree, t.2.WellOrdered ∧ RootFilled t.2 := by
  refine forall₂_congr fun t ht => and_congr_left fun hFilled => ?_
  exact sorted_marks_iff (proper_of_childrenFilled (hRep.stored t ht) hFilled.2.2)

theorem wellFormed_iff : WellFormed s ↔ ∃ entries, Holds s entries := by
  constructor
  · rintro ⟨tree, free, hRep, hTree⟩
    exact ⟨treeEntries tree, tree, free, hRep, (sound_iff hRep).2 hTree, rfl⟩
  · rintro ⟨entries, tree, free, hRep, hSound, -⟩
    exact ⟨tree, free, hRep, (sound_iff hRep).1 hSound⟩

theorem WellFormed.of_eq (hWell : WellFormed s) (hBody : s'.body = s.body)
    (hHeader : s'.dbHeader = s.dbHeader) : WellFormed s' := by
  obtain ⟨tree, free, hRep, hTree⟩ := hWell
  exact ⟨tree, free, hRep.of_eq hBody hHeader, hTree⟩

/-- A new database holds the empty tree. -/
theorem newDatabase_wellFormed : ∃ s,
    openPager decodedFormat (createNewDatabaseFile decodedFormat) .empty = some s ∧
      WellFormed s := by
  refine ⟨_, rfl, none, [], ⟨⟨rfl, Nat.one_pos, rfl, rfl, trivial⟩, ⟨List.nodup_nil, ?_⟩, rfl, ?_⟩,
    ?_⟩ <;> simp [treeLabels]

section Rows

/-! Trees of two levels, whose leaves hold consecutive numbers. -/

def rowKey (n : Nat) : Key :=
  KeyCodec.makeUint64 (UInt64.ofNat n)

variable (n w m : Nat)

/-- The first of the numbers that belong into a leaf, one for each entry. -/
def rowLeaf (i : Nat) : List (Key × Value) :=
  (List.range m).map fun j => (rowKey (w * i + j), ValueCodec.makeBool true)

def rowKeys : List Key :=
  (List.range n).map fun i => rowKey (w * i + w)

def rowChild (i : Nat) : PageTree 0 :=
  .leaf (i + 2) (rowLeaf w m i)

/-- A root with the given number of separators, each `w` above the one before it, over leaves with
`m` entries. -/
def rowTree : PageTree 1 :=
  .branch 1 (rowKeys n w) ((List.range (n + 1)).map (rowChild w m))

/-- A file that holds this tree, and nothing else. -/
def rowFile : PageNum → DecodedPage
  | 0 => ⟨0, .metadata ⟨0, n + 3, 0, 0, 1⟩⟩
  | 1 => ⟨0, .internal ⟨rowKeys n w, (List.range (n + 1)).map (· + 2)⟩⟩
  | i + 2 => ⟨0, .leaf (.ofEntries (rowLeaf w m i))⟩

variable {n w m}

theorem rowKey_lt {a b : Nat} (h : a < b) (hb : b < 2 ^ 64) : rowKey a < rowKey b := by
  refine KeyCodec.makeUint64_lt (UInt64.lt_iff_toNat_lt.2 ?_)
  rwa [UInt64.toNat_ofNat_of_lt' (h.trans hb), UInt64.toNat_ofNat_of_lt' hb]

theorem rowKey_le {a b : Nat} (h : a ≤ b) (hb : b < 2 ^ 64) : rowKey a ≤ rowKey b := by
  rcases h.lt_or_eq with hLt | rfl
  · exact (rowKey_lt hLt hb).le
  · exact le_rfl

theorem mem_rowLeaf {i : Nat} {e : Key × Value} (h : e ∈ rowLeaf w m i) :
    ∃ j < m, e.1 = rowKey (w * i + j) := by
  obtain ⟨j, hj, rfl⟩ := mem_map.1 h
  exact ⟨j, mem_range.1 hj, rfl⟩

theorem of_getElem?_map_range {α : Type} {f : Nat → α} {n i : Nat} {x : α}
    (h : ((List.range n).map f)[i]? = some x) : i < n ∧ f i = x := by
  rw [getElem?_map, Option.map_eq_some_iff] at h
  obtain ⟨j, hj, rfl⟩ := h
  obtain ⟨hBound, rfl⟩ := List.getElem?_eq_some_iff.1 hj
  exact ⟨by simpa using hBound, by simp⟩

/-- The numbers of a row stay in the words. -/
theorem row_lt {i j : Nat} (hi : i ≤ n) (hj : j ≤ w) (hBound : w * n + w < 2 ^ 64) :
    w * i + j < 2 ^ 64 := by
  have hRow := Nat.mul_le_mul_left w hi
  omega

theorem rowTree_ordered (hm : m ≤ w) (hw : 0 < w) (hBound : w * n + w < 2 ^ 64) :
    (rowTree n w m).WellOrdered := by
  refine wellOrdered_branch.2 ⟨?_, fun i k hk => ⟨fun c hc e he => ?_,
    fun c hc e he => ?_⟩, fun c hc => ?_⟩
  · refine pairwise_map.2 (pairwise_lt_range.imp_of_mem fun {a b} _ hb hLt => ?_)
    have hRow := Nat.mul_lt_mul_of_pos_left hLt hw
    exact rowKey_lt (by omega) (row_lt (mem_range.1 hb).le le_rfl hBound)
  · obtain ⟨hi, rfl⟩ := of_getElem?_map_range hk
    obtain ⟨-, rfl⟩ := of_getElem?_map_range (f := rowChild w m) hc
    rw [rowChild, entries_leaf] at he
    obtain ⟨j, hj, hKey⟩ := mem_rowLeaf he
    rw [hKey]
    exact rowKey_lt (by omega) (row_lt hi.le le_rfl hBound)
  · obtain ⟨hi, rfl⟩ := of_getElem?_map_range hk
    obtain ⟨-, rfl⟩ := of_getElem?_map_range (f := rowChild w m) hc
    rw [rowChild, entries_leaf] at he
    obtain ⟨j, hj, hKey⟩ := mem_rowLeaf he
    rw [hKey]
    exact rowKey_le (by rw [Nat.mul_succ]; omega) (row_lt hi (by omega) hBound)
  · obtain ⟨i, hi, rfl⟩ := mem_map.1 hc
    rw [rowChild, wellOrdered_leaf, rowLeaf, map_map]
    refine pairwise_map.2 (pairwise_lt_range.imp_of_mem fun {a b} _ hb hLt => ?_)
    have hLast := mem_range.1 hb
    exact rowKey_lt (by omega) (row_lt (Nat.lt_succ_iff.1 (mem_range.1 hi)) (by omega) hBound)

theorem rowTree_filled (hn : 1 ≤ n ∧ n ≤ 199) (hm : 99 ≤ m ∧ m ≤ 199) :
    RootFilled (rowTree n w m) := by
  refine ⟨?_, fun _ => ?_, fun c hc => ?_⟩
  · simpa [rowTree, rowKeys] using hn.2
  · simpa [rowTree, rowKeys] using hn.1
  · obtain ⟨i, -, rfl⟩ := mem_map.1 hc
    simpa [rowChild, rowLeaf] using hm

/-- Opening the file gives the tree, ready for the next mutation. -/
theorem row_spec : ∃ s : TreeState,
    openPager decodedFormat (rowFile n w m) .empty = some s ∧
      Represents s (some ⟨1, rowTree n w m⟩) [] ∧ ¬Refused (fun _ => false) s := by
  refine ⟨_, rfl, ⟨⟨rfl, Nat.succ_pos _, rfl, rfl, trivial⟩, ?_, rfl, ?_⟩,
    by simp [Refused, Faulty]⟩
  · have hLabels : (rowTree n w m).labels = 1 :: (List.range (n + 1)).map (· + 2) := by
      rw [rowTree, labels_branch_flatMap (by simp [rowKeys])]
      simp [flatMap_map, rowChild, ← map_eq_flatMap]
    rw [treeLabels, Option.map_some, Option.getD_some, hLabels, append_nil]
    refine ⟨nodup_cons.2 ⟨by simp, ?_⟩, fun k hk => ?_⟩
    · exact nodup_range.map fun a b h => Nat.add_right_cancel h
    · have hBound : k = 1 ∨ ∃ i < n + 1, i + 2 = k := by simpa using hk
      rcases hBound with rfl | ⟨i, hi, rfl⟩
      · exact ⟨by decide, Nat.succ_lt_succ (Nat.succ_pos _)⟩
      · exact ⟨Nat.succ_ne_zero _, Nat.add_lt_add_right hi 2⟩
  · rintro _ ⟨⟩
    refine (stored_branch _ _ _).2 ⟨?_, by simp [rowKeys], fun c hc => ?_⟩
    · change PageBody.internal _ = _
      rw [map_map]
      rfl
    · obtain ⟨i, -, rfl⟩ := mem_map.1 hc
      rfl

/-- Two leaves that a removal merges under a root that then has no separator left. -/
def twinFile : PageNum → DecodedPage :=
  rowFile 1 100 99

theorem twin_spec : ∃ s : TreeState,
    openPager decodedFormat twinFile .empty = some s ∧
      Holds s (rowLeaf 100 99 0 ++ rowLeaf 100 99 1) ∧ ¬Refused (fun _ => false) s := by
  obtain ⟨s, hOpen, hRep, hReady⟩ := row_spec (n := 1) (w := 100) (m := 99)
  refine ⟨s, hOpen, ⟨_, [], hRep, (sound_iff hRep).2 ?_, ?_⟩, hReady⟩
  case refine_2 =>
    change (rowTree 1 100 99).entries = _
    rw [rowTree, entries_branch_flatMap (by simp [rowKeys])]
    simp [rowChild, List.range_succ]
  rintro _ ⟨⟩
  exact ⟨rowTree_ordered (by decide) (by decide) (by decide),
    rowTree_filled (by decide) (by decide)⟩

end Rows

/-- A mutation of the tree, as callers ask for it. -/
inductive TreeMutation where
  | insert (key : Key) (value : Value)
  | remove (key : Key)

/-- Run a mutation; a remove returns the value it took out. -/
def TreeMutation.run {P : Type} (env : PagerEnv P) (pending : PendingMutation) :
    TreeMutation → Op P (Option Value)
  | insert key value => do
    insertImpl env pending key value
    return none
  | remove key => do
    return some (← removeImpl env pending key)

/-- The call returned, or found that there was nothing to remove. -/
inductive Completes {P α : Type} (s' : OpState P) : Outcome (OpState P) BTreeStatus α → Prop where
  | success (a : α) : Completes s' (.ok a s')
  | keyNotInTree : Completes s' (.fail .keyNotInTree s')

theorem Completes.of_wp {P α : Type} {x : Op P α} {s s' : OpState P} {Q : OpState P → Prop}
    {failed : BTreeStatus → OpState P → Prop} {halted : OpState P → Prop}
    (hDone : Completes s' (x s)) (h : x.wp s (fun _ => Q) failed halted)
    (hMissing : failed .keyNotInTree s' → Q s') : Q s' := by
  unfold wp at h
  generalize x s = outcome at h hDone
  cases hDone with
  | success a => exact h
  | keyNotInTree => exact hMissing h

/-- Every mutation that completes leaves the tree well-formed. -/
theorem mutation_wellFormed (ioFails : Nat → Bool) (pending : PendingMutation)
    (mutation : TreeMutation) (s s' : TreeState) (hWell : WellFormed s)
    (hDone : Completes s' (mutation.run (decodedEnv ioFails) pending s)) : WellFormed s' := by
  obtain ⟨entries, tree, free, hRep, hSound, -⟩ := wellFormed_iff.1 hWell
  cases mutation with
  | insert key value =>
    have hSpec : (insertImpl (decodedEnv ioFails) pending key value).wp s _ _ _ :=
      insertImpl_spec hRep hSound
    have hLogged : (insertImpl (decodedEnv ioFails) pending key value).wp s _ _ _ :=
      insertImpl_logged decodedFormat_pageInvariant fun _ => trivial
    refine hDone.of_wp ((wp_bind _ _).2 (wp_conseq (wp_and hSpec hLogged) ?_))
      fun h => (h.2 rfl).elim
    exact fun _ s' h => wellFormed_iff.2 ⟨_, h.1.2.1⟩
  | remove key =>
    have hSpec : (removeImpl (decodedEnv ioFails) pending key).wp s _ _ _ :=
      removeImpl_spec hRep hSound
    have hLogged : (removeImpl (decodedEnv ioFails) pending key).wp s _ _ _ :=
      removeImpl_logged decodedFormat_pageInvariant fun _ => trivial
    refine hDone.of_wp ((wp_bind _ _).2 (wp_conseq (wp_and hSpec hLogged) ?_)) fun h => ?_
    · exact fun _ s' h => wellFormed_iff.2 ⟨_, h.1.2.1⟩
    · have hSame := h.2 rfl
      exact hWell.of_eq (congrArg (fun pages n => (pages n).body) hSame.pages) hSame.dbHeader

/-- Removal of the smallest key of the twins. -/
def removeTwin : TreeState → Outcome TreeState BTreeStatus (Option Value) :=
  (TreeMutation.remove (rowKey 0)).run (decodedEnv fun _ => false)
    (.action 1 1 (.deleteUndo (rowKey 0) (ValueCodec.makeBool true)))

/-- The root before and after, if the removal returns. -/
def twinRoots (s : TreeState) : Option (PageNum × PageNum) :=
  match removeTwin s with
  | .ok _ s' => some (s.dbHeader.btreeRootPageNum, s'.dbHeader.btreeRootPageNum)
  | _ => none

/-- The twins merge, and the only leaf left becomes the root. -/
theorem mutation_wellFormed_twin : ∃ s s' : TreeState,
    openPager decodedFormat twinFile .empty = some s ∧ WellFormed s ∧
      Completes s' (removeTwin s) ∧ s.dbHeader.btreeRootPageNum = 1 ∧
      s'.dbHeader.btreeRootPageNum = 2 ∧ WellFormed s' := by
  obtain ⟨s, hOpen, hHolds, -⟩ := twin_spec
  have hWell : WellFormed s := wellFormed_iff.2 ⟨_, hHolds⟩
  have hRoots : (openPager decodedFormat twinFile .empty).bind twinRoots = some (1, 2) := by
    decide +kernel
  rw [hOpen, Option.bind_some] at hRoots
  cases hRun : removeTwin s with
  | ok v s' =>
    obtain ⟨hOld, hNew⟩ : s.dbHeader.btreeRootPageNum = 1 ∧ s'.dbHeader.btreeRootPageNum = 2 := by
      simpa [twinRoots, hRun] using hRoots
    have hDone : Completes s' (removeTwin s) := hRun ▸ .success v
    exact ⟨s, s', hOpen, hWell, hRun ▸ hDone, hOld, hNew,
      mutation_wellFormed _ _ (.remove (rowKey 0)) s s' hWell hDone⟩
  | fail e s' | halt s' => simp [twinRoots, hRun] at hRoots

end Stoneleaf
