import Stoneleaf.BTree.WellFormed

/-!
Inserts that fill an internal page. The branch of `propagate_splitting` that would split the page
ends the process, whatever tree it is reached from.
-/

namespace Stoneleaf

open Library Program List SearchTree

variable {s : TreeState} {tree : Option SomeTree} {free : List PageNum}

/-- An insert that nothing refuses and that fills an internal page ends in `std::abort`. -/
theorem insertImpl_halts {ioFails : Nat → Bool} {pending : PendingMutation} {key : Key}
    {value : Value} (hRep : Represents s tree free) (hSound : Sound tree)
    (hReady : ¬Refused ioFails s) (hOverflows : TreeOverflows key tree) :
    ∃ s', insertImpl (decodedEnv ioFails) pending key value s = .halt s' := by
  have hSpec : (insertImpl (decodedEnv ioFails) pending key value).wp s _ _ _ :=
    insertImpl_spec hRep hSound
  cases hRun : insertImpl (decodedEnv ioFails) pending key value s with
  | ok _ s' => exact absurd hOverflows (okay_of_wp hRun hSpec).1
  | fail e s' => exact absurd (fail_of_wp hRun hSpec) hReady
  | halt s' => exact ⟨s', rfl⟩

/-- No insert into a well-formed tree that fills an internal page returns, and the process ends
unless the insert was refused before. -/
theorem internal_split_never_returns (ioFails : Nat → Bool) (pending : PendingMutation) (key : Key)
    (value : Value) (s : TreeState) (tree : Option SomeTree) (free : List PageNum)
    (hRep : Represents s tree free) (hTree : ∀ t ∈ tree, t.2.WellOrdered ∧ RootFilled t.2)
    (hOverflows : TreeOverflows key tree) :
    (∀ s', insertImpl (decodedEnv ioFails) pending key value s ≠ .ok () s') ∧
      (¬Refused ioFails s →
        ∃ s', insertImpl (decodedEnv ioFails) pending key value s = .halt s') := by
  have hSound := (sound_iff hRep).2 hTree
  refine ⟨fun s' hRun => ?_, fun hReady => insertImpl_halts hRep hSound hReady hOverflows⟩
  exact (okay_of_wp hRun (insertImpl_spec hRep hSound)).1 hOverflows

section Crowded

/-- A root without room for another separator, over leaves without room for another entry. -/
def crowdedTree : PageTree 1 :=
  rowTree 199 200 199

/-- A file that holds this tree, and nothing else. -/
def crowdedFile : PageNum → DecodedPage :=
  rowFile 199 200 199

theorem crowdedTree_sound : ∀ t ∈ some (⟨1, crowdedTree⟩ : SomeTree),
    t.2.WellOrdered ∧ RootFilled t.2 := by
  rintro _ ⟨⟩
  exact ⟨rowTree_ordered (by decide) (by decide) (by decide),
    rowTree_filled (by decide) (by decide)⟩

/-- A key that belongs into the first leaf, after all of its entries. -/
theorem crowdedTree_overflows : TreeOverflows (rowKey 199) (some ⟨1, crowdedTree⟩) := by
  refine ⟨_, rfl, show (rowKeys 199 200).length = 199 by simp [rowKeys], rowChild 200 199 0, ?_, ?_,
    ?_⟩
  · have hFirst : childPosition (rowKey 199) (rowKeys 199 200) = 0 := by
      refine countP_eq_zero.2 fun k hk => ?_
      obtain ⟨i, hi, rfl⟩ := mem_map.1 hk
      have hBound := mem_range.1 hi
      simpa using rowKey_lt (show 199 < 200 * i + 200 by omega) (by omega)
    change ((List.range 200).map (rowChild 200 199))[childPosition (rowKey 199)
      (rowKeys 199 200)]? = _
    rw [hFirst]
    rfl
  · intro hMem
    obtain ⟨e, he, hKey⟩ := mem_map.1 hMem
    obtain ⟨j, hj, hEntry⟩ := mem_rowLeaf he
    rw [hEntry] at hKey
    exact (rowKey_lt (show 200 * 0 + j < 199 by omega) (by decide)).ne hKey
  · show (rowLeaf 200 199 0).length = 199
    simp [rowLeaf]

/-- A database whose next insert fills its root. -/
theorem internal_split_never_returns_crowded : ∃ s : TreeState,
    openPager decodedFormat crowdedFile .empty = some s ∧
      TreeOverflows (rowKey 199) (some ⟨1, crowdedTree⟩) ∧
      ∀ s', insertImpl (decodedEnv fun _ => false) (.action 1 1 (.insertUndo (rowKey 199)))
        (rowKey 199) (ValueCodec.makeBool true) s ≠ .ok () s' := by
  obtain ⟨s, hOpen, hRep, -⟩ := row_spec (n := 199) (w := 200) (m := 199)
  exact ⟨s, hOpen, crowdedTree_overflows, (internal_split_never_returns _ _ _ _ s _ [] hRep
    crowdedTree_sound crowdedTree_overflows).1⟩

/-- The same insert, which nothing refuses, ends the process. -/
theorem crowded_insert_aborts : ∃ s : TreeState,
    openPager decodedFormat crowdedFile .empty = some s ∧ WellFormed s ∧
      ∃ s', insertImpl (decodedEnv fun _ => false) (.action 1 1 (.insertUndo (rowKey 199)))
        (rowKey 199) (ValueCodec.makeBool true) s = .halt s' := by
  obtain ⟨s, hOpen, hRep, hReady⟩ := row_spec (n := 199) (w := 200) (m := 199)
  exact ⟨s, hOpen, ⟨_, [], hRep, crowdedTree_sound⟩, insertImpl_halts hRep
    ((sound_iff hRep).2 crowdedTree_sound) hReady crowdedTree_overflows⟩

end Crowded

end Stoneleaf
