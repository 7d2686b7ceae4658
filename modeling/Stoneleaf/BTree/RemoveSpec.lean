import Stoneleaf.BTree.MutationSpec

/-!
Remove and lookup against the entries of the tree. A remove that takes the first entry of a
leaf raises the separator left of it, so the separators of a sound tree are lower bounds that
need not be keys.
-/

namespace Stoneleaf

open Library Program SearchTree List BLeafPage Context

section Raise

variable {h : Nat} {c : PageContext h} {t : PageTree h} {k : Key}

theorem entries_raise : ((c.raise k).close t).2.entries = (c.close t).2.entries := by
  rw [entries_close, entries_close, rightTokens_raise,
    leftTokens_raise fun _ => rfl]

theorem FilledIn.raise (hIn : FilledIn c t) : FilledIn (c.raise k) t := by
  cases c with
  | top => exact hIn
  | under frame up =>
    induction frame using frame_cases with
    | nil i r y hy => exact hIn
    | snoc i l k₀ x c r y hx hy =>
      rw [raise_under_snoc]
      exact hIn

/-- The separator left of a leaf may be raised to its first key. -/
theorem ordered_raise {c : PageContext 0} {i : PageNum} {e : Key × Value}
    {es : List (Key × Value)} (hOrdered : Ordered (c.close (leaf i (e :: es))).2) :
    Ordered ((c.raise e.1).close (leaf i (e :: es))).2 := by
  simp only [Ordered, marks_close, marks_leaf, map_cons,
    rightTokens_raise] at hOrdered ⊢
  rcases leftMarks_raise e.1 c with ⟨A, k₀, hLeft, hRaised⟩ | ⟨hLeft, hRaised⟩
  · rw [hLeft] at hOrdered
    rw [hRaised]
    simp only [append_assoc, cons_append, nil_append] at hOrdered ⊢
    exact sorted_raise_separator hOrdered
  · rwa [hRaised, ← hLeft]

end Raise

section Remove

variable {ioFails : Nat → Bool} {s₀ s : TreeState} {pending : PendingMutation}
  {key : Key} {tree : Option SomeTree} {free : List PageNum} {descent : LeafDescent}
  {c : PageContext 0} {es : List (Key × Value)}

/-- The outcome of a remove that could not be carried out. -/
def NotRemoved (ioFails : Nat → Bool) (s : TreeState) (tree : Option SomeTree)
    (key : Key) (e : BTreeStatus) : Prop :=
  Refused ioFails s ∨ (e = .keyNotInTree ∧ valueOf (treeEntries tree) key = none)

section Repair

variable {es' : List (Key × Value)} (hLanded : Landed s₀ s tree key .remove descent c es)
  (hRep : Represents s₀ tree free) (hEffects : s.effects = [])
  (hOrdered : Ordered (c.close (leaf descent.leafPageNum es')).2)
  (hAround : FilledAround c)
include hLanded hRep hEffects hOrdered hAround

theorem mergeLeaf_spec (hIn : FilledIn c (leaf descent.leafPageNum es))
    (hLength : es'.length + 1 = es.length) (hShort : es'.length < 99) :
    (propagateMerging (decodedEnv ioFails) descent.path descent.leafPageNum).Attains
      (Faulty ioFails) (s.rewritten descent.leafPageNum es')
      fun _ s' => Ready s s' (c.close (leaf descent.leafPageNum es')).2.entries := by
  have hSize : ∀ frame up, c = .under frame up → es'.length = 98 := by
    rintro frame up rfl
    have hMin : 99 ≤ es.length := hIn.1
    omega
  exact wp_conseq (wp_ready hEffects (propagateMerging_spec c (leaf _ es')
    hLanded.pathFor (hLanded.focused_rewritten hRep) hOrdered hAround trivial
    (show es'.length ≤ 199 by omega) hSize (hLanded.writable_rewritten hEffects)
    hLanded.held_rewritten) (tracks_propagateMerging decodedFormat_pageInvariant _)
    fun _ h => h) fun _ _ h => h.2

theorem raiseLeaf_spec (hIn : FilledIn c (leaf descent.leafPageNum es'))
    {e : Key × Value} (hFirst : es'[0]? = some e) :
    (propagateSeparatorChangeUpward (decodedEnv ioFails) e.1 descent.path).Attains
      (Faulty ioFails) (s.rewritten descent.leafPageNum es')
      fun _ s' => Ready s s' (c.close (leaf descent.leafPageNum es')).2.entries := by
  obtain ⟨rest, rfl⟩ : ∃ rest, es' = e :: rest := by
    cases es' with
    | nil => simp at hFirst
    | cons e' rest => exact ⟨rest, by simpa using hFirst⟩
  refine wp_conseq (wp_ready hEffects (propagateSeparatorChangeUpward_spec c
    (leaf _ (e :: rest)) hLanded.pathFor (hLanded.focused_rewritten hRep)
    (hLanded.writable_rewritten hEffects))
    (tracks_propagateSeparatorChangeUpward decodedFormat_pageInvariant _) ?_) fun _ _ h => h.2
  rintro s' ⟨hFocus, hAdvances, hWritable⟩
  refine ⟨_, free, focused_iff.1 hFocus, ?_, entries_raise, hAdvances, hWritable⟩
  intro t ht
  obtain rfl := Option.some.inj ht
  exact ⟨ordered_raise hOrdered, (rootFilled_close_iff _ _).2 ⟨hAround.raise, hIn.raise⟩⟩

end Repair

theorem removeFinish_return_spec {s' : TreeState} {entries : List (Key × Value)}
    (hReady : Ready s s' entries) (value : Value) :
    (removeFinish (decodedEnv ioFails) pending >>= fun _ => pure value).Attains (Faulty ioFails) s'
      fun v s'' => some value = some v ∧ Holds s'' entries ∧ Finished s s'' :=
  wp_bind_of (removeFinish_spec hReady) fun _ _ hDone => ⟨rfl, hDone⟩

theorem removeFromLeaf_spec (hLanded : Landed s₀ s tree key .remove descent c es)
    (hRep : Represents s₀ tree free) (hSound : Sound tree) (hEffects : s.effects = []) :
    (removeFromLeaf (decodedEnv ioFails) pending key descent).wp s
      (fun v s' => valueOf (treeEntries tree) key = some v ∧
        Holds s' (removeEntry key (treeEntries tree)) ∧ Finished s s')
      (fun e _ => Faulty ioFails ∨ (e = .keyNotInTree ∧ valueOf (treeEntries tree) key = none))
      (fun _ => False) := by
  obtain ⟨hOrdered, hAround, hIn⟩ := hLanded.sound hSound
  have hLeaf : s.body descent.leafPageNum = .leaf (.ofEntries es) := (hLanded.focused hRep).stored
  have hSorted : (es.map Prod.fst).Pairwise (· < ·) := by
    simpa using hOrdered.of_close.sorted_entries
  rw [hLanded.treeEntries_eq, valueOf_close hLanded.routed]
  simp only [removeFromLeaf, wp_bind]
  refine (wp_decodeLeaf hLeaf).2 ?_
  obtain ⟨before, after, hBefore, hAfter, rfl | ⟨value, rfl⟩⟩ := entries_cut hSorted key
  · rw [if_pos (by simp [keyExists_cut hBefore hAfter])]
    simpa using Or.inr (valueOf_eq_none_iff.2 (not_mem_cut hBefore hAfter))
  · have hIdx : lowerBoundKey (BLeafPage.ofEntries (before ++ (key, value) :: after)).keys key =
        before.length := lowerBoundKey_cut_found hBefore hAfter
    have hFound : (BLeafPage.ofEntries (before ++ (key, value) :: after)).keyExists key = true :=
      keyExists_cut_found hBefore hAfter
    have hValue := valueOf_cut hBefore value after
    have hErased : Ordered (c.close (leaf descent.leafPageNum (before ++ after))).2 :=
      ordered_erase hOrdered
    have hMax := length_le_of_filledIn hIn
    have hEntries := removeEntry_close (i := descent.leafPageNum) hLanded.routed hBefore hAfter
      [(key, value)] (by simp)
    rw [append_assoc, singleton_append] at hEntries
    rw [hIdx, hEntries, if_neg (by simp [hFound]), hValue]
    simp only [getAt_ofEntries, getElem?_append_right le_rfl, Nat.sub_self,
      getElem?_cons_zero, Option.map_some, wp_bind, wp_orHalt_some]
    refine wp_markWalPending hLanded.latch ?_
    rw [if_neg (by simp), removeAt_ofEntries rfl]
    simp only [wp_bind, wp_writeBack_leaf, wp_recordPageEffect, getKeyCount_ofEntries]
    suffices h : Program.wp _ _ _ (fun _ _ => Faulty ioFails) _ from
      wp_weaken h (fun _ _ h => h) (fun _ _ => .inl)
    have hLength : (before ++ after).length + 1 = (before ++ (key, value) :: after).length := by
      simp [Nat.add_assoc]
    split
    · rename_i hShort
      rw [wp_bind, wp_ensuring]
      refine wp_conseq (mergeLeaf_spec hLanded hRep hEffects hErased hAround hIn hLength hShort) ?_
      exact fun _ s' hReady => removeFinish_return_spec (hReady.unref _) value
    rename_i hShort
    have hMin : 99 ≤ (before ++ after).length := Nat.not_lt.1 hShort
    have hIn' : FilledIn c (leaf descent.leafPageNum (before ++ after)) :=
      filledIn_leaf_of_bounds hMin (by omega)
    split
    · obtain ⟨e, hFirst⟩ : ∃ e, (before ++ after)[0]? = some e :=
        ⟨_, getElem?_eq_getElem (by omega)⟩
      rw [keyAt_ofEntries, hFirst, Option.map_some, wp_bind, wp_orHalt_some, wp_bind,
        wp_ensuring]
      refine wp_conseq (raiseLeaf_spec hLanded hRep hEffects hErased hAround hIn' hFirst) ?_
      exact fun _ s' hReady => removeFinish_return_spec (hReady.unref _) value
    · have hReady := hLanded.ready_rewritten hEffects hRep hErased hAround hIn'
      exact removeFinish_return_spec (hReady.unref _) value

theorem removeImpl_spec (hRep : Represents s tree free) (hSound : Sound tree) :
    (removeImpl (decodedEnv ioFails) pending key).wp s
      (fun v s' => valueOf (treeEntries tree) key = some v ∧
        Holds s' (removeEntry key (treeEntries tree)) ∧ Finished s s')
      (fun e _ => NotRemoved ioFails s tree key e) (fun _ => False) := by
  simp only [removeImpl, wp_bind, wp_read, wp_ite, wp_fail]
  refine ⟨fun hPoisoned => .inl (.inr (.inl hPoisoned)), fun _ =>
    ⟨fun hCursor => .inl (.inr (.inr hCursor)), fun _ => wp_withOperation.2
      (wp_mutation hRep hSound (fun _ _ h => .inl (.inl h)) ?_ ?_)⟩⟩
  · rintro s₁ - - - rfl
    exact .inr ⟨rfl, rfl⟩
  · intro descent c es s₁ hLanded
    have hEffects := hLanded.observes.effects_started
    refine wp_weaken (removeFromLeaf_spec hLanded (hRep.of_eq rfl rfl) hSound hEffects) ?_
      (fun _ _ => Or.imp_left .inl)
    rintro v s' ⟨hValue, hHolds, hFinished⟩
    exact ⟨hValue, hHolds.of_eq rfl rfl, hFinished.of_observes hLanded.observes⟩

end Remove

section Lookup

variable {ioFails : Nat → Bool} {s : TreeState} {key : Key} {tree : Option SomeTree}
  {free : List PageNum}

/-- A lookup returns the value of the key and changes no page. -/
theorem lookup_spec (hRep : Represents s tree free) (hSound : Sound tree) :
    (lookup (decodedEnv ioFails) key).wp s
      (fun v s' => valueOf (treeEntries tree) key = some v ∧ Observes s s')
      (fun e s' => Faulty ioFails ∨ s.storagePoisoned = true ∨
        (e = .keyNotInTree ∧ valueOf (treeEntries tree) key = none ∧ Observes s s'))
      (fun _ => False) := by
  simp only [lookup, wp_bind, wp_read, wp_ite, wp_fail]
  refine ⟨fun hPoisoned => .inr (.inl hPoisoned), fun _ => ?_⟩
  simp only [withOperation, wp_bind, wp_modify, wp_ensuring]
  have hStart : Observes s s.releaseLatches := ⟨_, _, _, rfl⟩
  have hRep' : Represents s.releaseLatches tree free := hRep.of_eq rfl rfl
  refine wp_mono (descendFromRootToLeaf_spec hRep' hSound (fun hMode => by cases hMode)) ?_
    (fun _ _ => .inl) fun _ hFalse => hFalse.elim
  rintro (_ | descent) s₁ hFound
  · obtain ⟨rfl, hObserves, -⟩ := hFound
    exact .inr (.inr ⟨rfl, rfl, (hStart.trans hObserves).trans ⟨_, _, _, rfl⟩⟩)
  · obtain ⟨t, c, es, rfl, hReached⟩ := hFound
    have hDescending := hReached.descending
    have hObserves : Observes s ((s₁.unref descent.leafPageNum).releaseLatches) :=
      (hStart.trans hDescending.observes).trans ⟨_, _, _, rfl⟩
    obtain rfl := hDescending.close
    have hOrdered := (hSound _ rfl).1
    have hLeaf : s₁.body descent.leafPageNum = .leaf (.ofEntries es) := by
      rw [hDescending.observes.body]
      exact (focused_iff.2 hRep').stored
    have hSorted : (es.map Prod.fst).Pairwise (· < ·) := by
      simpa using hOrdered.of_close.sorted_entries
    have hValues : valueOf (treeEntries (some (c.close
        (leaf descent.leafPageNum es)))) key = valueOf es key :=
      valueOf_close hDescending.routed
    rw [hValues, wp_bind]
    refine (wp_decodeLeaf hLeaf).2 ?_
    obtain ⟨before, after, hBefore, hAfter, rfl | ⟨value, rfl⟩⟩ := entries_cut hSorted key
    · rw [if_pos (by simp [keyExists_cut hBefore hAfter])]
      exact .inr (.inr ⟨rfl, valueOf_eq_none_iff.2 (not_mem_cut hBefore hAfter), hObserves⟩)
    · rw [keyExists_cut_found hBefore hAfter, if_neg (by simp),
        get_ofEntries hBefore hAfter, valueOf_cut hBefore]
      exact ⟨rfl, hObserves⟩

end Lookup

end Stoneleaf
