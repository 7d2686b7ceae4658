import Stoneleaf.BTree.Footprint

/-!
The walk through the tree code: splits, merges and descents, and the two mutations as a
whole. A mutation that returns has logged exactly what it changed.
-/

namespace Stoneleaf

open Library Program

variable {P : Type} {env : PagerEnv P} {Q : PageNum → P → Prop} {s₀ s : OpState P}
  {n : PageNum} {page : P} {d d' : List PageNum}

section Splitting

variable {α : Type} {post : α → OpState P → Prop}

/-- A pager call that hands out effects, with what follows in either case. -/
theorem Hands.bind {β : Type} {x : Op P (Option β)} {effectsOf : β → List (PageEffect P)}
    {f : Option β → Op P α} (h : Hands Q s₀ effectsOf x [])
    (hNone : Mutates (fun _ => True) (f none) post)
    (hSome : ∀ r, Mutates (HandsOut Q s₀ (effectsOf r)) (f (some r)) post) :
    Mutates (Tracked Q s₀ []) (x >>= f) post := by
  refine Triple.bind h ?_
  rintro (_ | r) s hs
  · exact hNone s trivial
  · exact hSome r s (hs r rfl)

theorem handsOut_unrefPage {effects : List (PageEffect P)} :
    Mutates (HandsOut Q s₀ effects) (unrefPage n) fun _ => HandsOut Q s₀ effects :=
  fun _ hs => hs

/-- A pin that is dropped however the call ends. -/
theorem tracks_unpin {x : Op P α} (h : Tracks Q s₀ x d d') :
    Tracks Q s₀ (x.ensuring (OpState.unref n)) d d' :=
  Triple.ensuring (h.conseq (fun _ hs => hs) fun _ _ hs => hs)

/-- A fresh page gets its initial layout. -/
theorem bind_fill {f : P → P} {k : Unit → Op P α} {d : List PageNum}
    (hf : ∀ page, Q n page → Q n (f page))
    (hNext : ∀ u, Mutates (Tracked Q s₀ (n :: d)) (k u) post) :
    Mutates (Tracked Q s₀ d) (frame n >>= fun page => setFrame n (f page) >>= k) post :=
  fun _ hs => (wp_bind _ _).2 (hNext () _ (hs.framed (hf _ (hs.shaped n))))

variable (hQ : PageInvariant env.format Q)
include hQ

/-- A page is written back and recorded. -/
theorem bind_writeRecorded {node : PageNode} {k : Unit → Op P α}
    (hNext : ∀ u, Mutates (Tracked Q s₀ []) (k u) post) (hSubset : d ⊆ [n] := by simp) :
    Mutates (Tracked Q s₀ d) (writeBack env n node >>= fun _ =>
      recordPageEffect .write n >>= k) post :=
  .seq (tracks_writeBack hQ) fun _ => .seq (tracks_recordPageEffect [] (by simpa)) hNext

theorem tracks_splitLeaf : Tracks Q s₀ (splitLeaf env n) [] [] := by
  unfold splitLeaf
  refine neutral_decodeLeaf.seq fun page => ?_
  refine (tracks_allocatePage hQ).bind (fun _ _ => by simp) ?_
  rintro ⟨q, effects⟩
  refine .seq tracks_recordPagerEffects fun _ => ?_
  refine bind_fill (hQ.fillInitialLeaf q) fun _ => ?_
  refine neutral_decodeLeaf.seq fun newPage => ?_
  refine (neutral_orHalt _).seq fun moved => ?_
  refine .seq (tracks_writeBack hQ) fun _ => .seq (tracks_writeBack hQ) fun _ => ?_
  refine .seq (tracks_recordPageEffect [q]) fun _ => ?_
  refine .seq (tracks_recordPageEffect []) fun _ => ?_
  exact (neutral_orHalt _).seq fun _ => .done

theorem tracks_splitInternal : Tracks Q s₀ (splitInternal env n) [] [] := by
  unfold splitInternal
  refine neutral_decodeInternal.seq fun page => ?_
  refine (tracks_allocatePage hQ).bind (fun _ _ => by simp) ?_
  rintro ⟨q, effects⟩
  refine .seq tracks_recordPagerEffects fun _ => ?_
  refine bind_fill (hQ.fillInitialInternal q) fun _ => ?_
  refine neutral_decodeInternal.seq fun newPage => ?_
  cases page.keyAt (page.getKeyCount / 2) with
  | none => exact fun _ _ => by simp
  | some promoted =>
    refine (neutral_orHalt _).seq fun moved => ?_
    refine .seq (tracks_writeBack hQ) fun _ => .seq (tracks_writeBack hQ) fun _ => ?_
    refine .seq (tracks_recordPageEffect [q]) fun _ => ?_
    exact .seq (tracks_recordPageEffect []) fun _ => .done

theorem tracks_splitOverfull : Tracks Q s₀ (splitOverfull env n) [] [] := by
  unfold splitOverfull
  refine neutral_get.seq fun _ => .ite (fun _ _ => by simp) ?_
  refine neutral_peekPageType.seq fun pageType => ?_
  refine neutral_markWalPending.seq fun _ => .ite (fun _ _ => by simp) ?_
  cases pageType with
  | leaf => exact tracks_splitLeaf hQ
  | internal => exact tracks_splitInternal hQ

theorem tracks_handleSplittingRoot {left right : PageNum} {k : Key} :
    Tracks Q s₀ (handleSplittingRoot env left right k) [] [] := by
  unfold handleSplittingRoot
  refine (tracks_allocatePage hQ).bind (.fail (by simp)) ?_
  rintro ⟨q, effects⟩
  refine .seq tracks_recordPagerEffects fun _ => ?_
  refine bind_fill (hQ.fillInitialInternal q) fun _ => ?_
  refine neutral_decodeInternal.seq fun page => ?_
  cases page.replaceLeftmostChild left with
  | none => exact fun _ _ => by simp
  | some page =>
    dsimp only
    cases page.insertSeparatorAt 0 k right with
    | none => exact fun _ _ => by simp
    | some page =>
      refine bind_writeRecorded hQ fun _ => ?_
      refine (tracks_setBtreeRoot hQ).bind (fun _ _ => by simp) ?_
      exact fun effects => .seq handsOut_unrefPage fun _ => tracks_recordPagerEffects

theorem tracks_insertIntoParent {q : PageNum} {k : Key} {entry : TraversalPathEntry} :
    Tracks Q s₀ (insertIntoParent env n q k entry) [] [] := by
  unfold insertIntoParent
  refine neutral_get.seq fun _ => .ite (fun _ _ => by simp) ?_
  refine neutral_markWalPending.seq fun _ => .ite (fun _ _ => by simp) ?_
  refine neutral_decodeInternal.seq fun page => ?_
  cases page.insertSeparatorAt entry.splitIdx k q with
  | none => exact fun _ _ => by simp
  | some page =>
    refine bind_writeRecorded hQ fun _ => ?_
    refine neutral_unrefPage.seq fun _ => neutral_unrefPage.seq fun _ => ?_
    exact neutral_unrefPage.seq fun _ => .done

theorem tracks_propagateSplitting (path : List TraversalPathEntry) :
    ∀ {n : PageNum}, Tracks Q s₀ (propagateSplitting env path n) [] [] := by
  induction path with
  | nil =>
    intro n
    refine .seq (tracks_splitOverfull hQ) fun result => ?_
    exact .ensuring ((tracks_handleSplittingRoot hQ).conseq (fun _ h => h) fun _ _ h => h)
  | cons entry path ih =>
    intro n
    refine .seq (tracks_splitOverfull hQ) fun result => ?_
    exact .seq (tracks_insertIntoParent hQ) fun _ => .ite ih .done

end Splitting

section Merging

variable {N : Type} {object : PageObject N} {current : N} {parent : BInternalPage}
  {ctx : MergeParentContext}

theorem neutral_lockSiblings : Neutral (P := P) (lockSiblings ctx) := by
  have hBoth : ∀ a b, Neutral (P := P) (lockExclusive a >>= fun _ => lockExclusive b) := fun _ _ =>
    neutral_lockExclusive.bind fun _ => neutral_lockExclusive
  obtain ⟨_, _, right, left⟩ := ctx
  cases left with
  | none =>
    cases right with
    | none => exact fun _ => ⟨rfl, rfl, rfl, rfl⟩
    | some right => exact neutral_lockExclusive
  | some left =>
    cases right with
    | none => exact neutral_lockExclusive
    | some right =>
      simp only [lockSiblings]
      split <;> exact hBoth _ _

theorem neutral_unrefRepair {sibling underflow : PageNum} :
    Neutral (P := P) (unrefRepair ctx sibling underflow) :=
  fun _ => ⟨rfl, rfl, rfl, rfl⟩

variable (hQ : PageInvariant env.format Q) {left right sibling underflow : PageNum}
include hQ

theorem tracks_propagateSeparatorChangeUpward {k : Key} (path : List TraversalPathEntry) :
    Tracks Q s₀ (propagateSeparatorChangeUpward env k path) [] [] := by
  induction path with
  | nil => exact .done
  | cons entry path ih =>
    unfold propagateSeparatorChangeUpward
    refine .ite ih ?_
    refine neutral_lockExclusive.seq fun _ => ?_
    refine neutral_get.seq fun _ => .ite (.fail (by simp)) ?_
    refine neutral_markWalPending.seq fun _ => .ite
      (fun _ _ => by simp) ?_
    refine neutral_decodeInternal.seq fun page => ?_
    cases page.setSeparatorKeyAt entry.separatorIdx k with
    | none => exact fun _ _ => by simp
    | some page =>
      refine bind_writeRecorded hQ fun _ => ?_
      exact neutral_unrefPage.tracks

theorem tracks_replaceRoot {oldRoot newRoot : PageNum} :
    Tracks Q s₀ (replaceRoot env oldRoot newRoot) [] [] := by
  unfold replaceRoot
  refine (tracks_setBtreeRoot hQ).bind (fun _ _ => by simp) ?_
  refine fun effects => .seq tracks_recordPagerEffects fun _ => ?_
  refine (tracks_freePage hQ).bind (fun _ _ => by simp) ?_
  exact fun effects => .seq handsOut_unrefPage fun _ => tracks_recordPagerEffects

theorem tracks_handleRootUnderflow {pageType : PageType} :
    Tracks Q s₀ (handleRootUnderflow env n pageType) [] [] := by
  unfold handleRootUnderflow
  cases pageType with
  | leaf =>
    refine neutral_decodeLeaf.seq fun page => ?_
    exact .ite neutral_unrefPage.tracks (tracks_replaceRoot hQ)
  | internal =>
    refine neutral_decodeInternal.seq fun page => .ite neutral_unrefPage.tracks ?_
    cases page.getLeftmostChild with
    | none => exact fun _ _ => by simp
    | some child => exact tracks_replaceRoot hQ

theorem tracks_writeBorrowed {leftNode rightNode : PageNode} :
    Tracks Q s₀ (writeBorrowed env left right leftNode rightNode parent ctx sibling underflow)
      [] [] := by
  refine .seq (tracks_writeBack hQ) fun _ => .seq (tracks_writeBack hQ) fun _ => ?_
  refine .seq (tracks_writeBack hQ) fun _ => ?_
  refine .seq (tracks_recordPageEffect [ctx.parentPageNum, right]) fun _ => ?_
  refine .seq (tracks_recordPageEffect [ctx.parentPageNum]) fun _ => ?_
  exact .seq (tracks_recordPageEffect []) fun _ => neutral_unrefRepair.tracks

section

variable (hDecode : ∀ n, Neutral (object.decode env n)) {underflow : PageNum}
include hDecode

omit hQ in
theorem tracks_borrowFrom {sibling : Option PageNum}
    {rotate : N → N → BInternalPage → Nat → Rotation N} {write : PageNum → Rotation N → Op P Unit}
    (hWrite : ∀ n moved, Tracks Q s₀ (write n moved) [] []) :
    Tracks Q s₀ (borrowFrom env object sibling rotate write current parent ctx underflow)
      [] [] := by
  unfold borrowFrom
  cases sibling with
  | none => exact .done
  | some n =>
    refine neutral_get.seq fun _ => .ite (fun _ _ => by simp) ?_
    refine (hDecode n).seq fun sibling => .ite (neutral_unrefPage.seq fun _ => .done) ?_
    refine neutral_markWalPending.seq fun _ => .ite (neutral_unrefRepair.seq fun _ => .done) ?_
    refine .ite (neutral_unrefRepair.seq fun _ => .done) ?_
    exact .seq (hWrite _ _) fun _ => .done

omit hDecode in
theorem tracks_writeMerged {dst src : N} {i : Nat} :
    Tracks Q s₀ (writeMerged env object left right dst src parent i ctx sibling underflow)
      [] [] := by
  unfold writeMerged
  cases object.absorb dst src parent i with
  | none => exact fun _ _ => by simp [unrefRepair]
  | some merged =>
    dsimp only
    cases parent.removeSeparatorAt i with
    | none => exact fun _ _ => by simp [unrefRepair]
    | some parent =>
      refine .seq (tracks_writeBack hQ) fun _ => .seq (tracks_writeBack hQ) fun _ => ?_
      refine .seq (tracks_recordPageEffect [ctx.parentPageNum]) fun _ => ?_
      refine .seq (tracks_recordPageEffect []) fun _ => ?_
      refine (tracks_freePage hQ).bind (fun _ _ => by simp [unrefRepair]) fun effects => ?_
      refine .seq tracks_recordPagerEffects fun _ => neutral_unrefPage.seq fun _ => ?_
      exact neutral_unrefPage.seq fun _ => neutral_unrefPage.seq fun _ => .done

theorem tracks_mergeWithRight :
    Tracks Q s₀ (mergeWithRight env object current parent ctx underflow) [] [] := by
  unfold mergeWithRight
  cases ctx.rightSibling with
  | none => exact .fail (by simp)
  | some right =>
    refine neutral_get.seq fun _ => .ite (fun _ _ => by simp) ?_
    exact (hDecode right).seq fun sibling => tracks_writeMerged hQ

theorem tracks_mergeWithLeft :
    Tracks Q s₀ (mergeWithLeft env object current parent ctx underflow) [] [] := by
  unfold mergeWithLeft
  cases ctx.leftSibling with
  | none => exact .fail (by simp)
  | some left =>
    refine neutral_get.seq fun _ => .ite (fun _ _ => by simp) ?_
    refine neutral_markWalPending.seq fun _ => .ite (fun _ _ => by simp [unrefRepair]) ?_
    exact (hDecode left).seq fun sibling => tracks_writeMerged hQ

theorem tracks_repair :
    Tracks Q s₀ (repair (borrowFromRight env object) (borrowFromLeft env object)
      (mergeWithRight env object) (mergeWithLeft env object) current parent ctx underflow)
        [] [] := by
  unfold repair
  refine .seq (tracks_borrowFrom hDecode fun _ _ => tracks_writeBorrowed hQ) fun result => ?_
  cases result with
  | none => exact .done
  | some result =>
    refine .seq (tracks_borrowFrom hDecode fun _ _ => tracks_writeBorrowed hQ) fun result => ?_
    cases result with
    | none => exact .done
    | some result => exact .ite (tracks_mergeWithRight hQ hDecode) (tracks_mergeWithLeft hQ hDecode)

end

theorem tracks_repairPage {pageType : PageType} :
    Tracks Q s₀ (repairPage env pageType parent ctx n) [] [] := by
  cases pageType with
  | leaf =>
    exact neutral_decodeLeaf.seq fun page =>
      tracks_repair hQ (show ∀ n, Neutral (leafObject.decode env n) from
        fun _ => neutral_decodeLeaf)
  | internal =>
    exact neutral_decodeInternal.seq fun page =>
      tracks_repair hQ (show ∀ n, Neutral (internalObject.decode env n) from fun _ =>
        neutral_decodeInternal)

theorem tracks_propagateMerging (path : List TraversalPathEntry) :
    ∀ {n : PageNum}, Tracks Q s₀ (propagateMerging env path n) [] [] := by
  induction path with
  | nil =>
    intro n
    refine neutral_lockExclusive.seq fun _ => ?_
    refine neutral_get.seq fun _ => .ite (.fail (by simp)) ?_
    exact neutral_peekPageType.seq fun pageType => tracks_handleRootUnderflow hQ
  | cons entry path ih =>
    intro n
    refine neutral_lockExclusive.seq fun _ => ?_
    refine neutral_get.seq fun _ => .ite (.fail (by simp)) ?_
    refine neutral_peekPageType.seq fun pageType => ?_
    refine neutral_lockExclusive.seq fun _ => ?_
    refine neutral_get.seq fun _ => .ite (fun _ _ => by simp) ?_
    refine neutral_markWalPending.seq fun _ => .ite
      (fun _ _ => by simp) ?_
    refine neutral_decodeInternal.seq fun page => ?_
    refine neutral_lockSiblings.seq fun _ => ?_
    exact .seq (tracks_repairPage hQ) fun _ => .ite ih .done

end Merging

section Descents

variable {key : Key} {mode : PageLatchMode} {mutation : BTreeMutationType}
  {traversal : BTreeTraversalMode}

theorem neutral_lockPage : Neutral (P := P) (lockPage mode n) := by
  cases mode with
  | shared => exact neutral_lockShared
  | exclusive => exact neutral_lockExclusive

theorem neutral_releaseIfShared : Neutral (P := P) (releaseIfShared mode n) := by
  cases mode with
  | shared => exact neutral_release
  | exclusive => exact .pure ()

theorem neutral_releaseIf {c : Prop} [Decidable c] {b : Bool} :
    Neutral (P := P) (if c then releaseAllExclusiveExcept n >>= fun _ => pure false else pure b) :=
  .ite (neutral_releaseAllExclusiveExcept.bind fun _ => .pure false) (.pure b)

theorem neutral_checkRootLeaf : Neutral (checkRootLeaf env mutation key n) := by
  cases mutation with
  | none => exact .pure false
  | insert | remove => exact neutral_decodeLeaf.bind fun _ => neutral_releaseIf

theorem neutral_checkRootInternal :
    Neutral (checkRootInternal env mode mutation traversal n) :=
  .ite (neutral_decodeInternal.bind fun _ => .ite neutral_releaseAllExclusiveExcept (.pure ()))
    (.pure ())

theorem neutral_checkChild {childType : PageType} :
    Neutral (checkChild env mutation key childType n) := by
  cases mutation with
  | none => exact .pure false
  | insert | remove =>
    cases childType with
    | leaf => exact neutral_decodeLeaf.bind fun _ => neutral_releaseIf
    | internal => exact neutral_decodeInternal.bind fun _ => neutral_releaseIf

theorem neutral_descendLoop (fuel : Nat) :
    ∀ {curr : PageNum} {path : List TraversalPathEntry},
      Neutral (descendLoop env key mode mutation traversal fuel curr path) := by
  induction fuel with
  | zero => exact fun _ => trivial
  | succ fuel ih =>
    intro curr path
    unfold descendLoop
    refine neutral_decodeInternal.bind fun page => ?_
    refine (neutral_orHalt _).bind fun child => neutral_lockPage.bind fun _ => ?_
    refine neutral_get.bind fun _ => .ite ?_ ?_
    · exact neutral_unrefPage.bind fun _ => neutral_releaseIfShared.bind fun _ =>
        neutral_release.bind fun _ => .fail (by simp)
    · refine neutral_peekPageType.bind fun childType => ?_
      refine Neutral.bind (.ite neutral_checkChild (.pure false)) fun restart => ?_
      refine neutral_unrefPage.bind fun _ => neutral_releaseIfShared.bind fun _ => ?_
      exact .ite (.pure _) ih

theorem neutral_getBtreeRoot : Neutral (getBtreeRoot env) :=
  Neutral.bind (fun _ => ⟨rfl, rfl, rfl, rfl⟩) fun _ => .ite (.pure _)
    (neutral_get.bind fun _ => .ite (.pure _) (.pure _))

theorem neutral_descendFromRootToLeaf :
    Neutral (descendFromRootToLeaf env key mode mutation traversal) := by
  unfold descendFromRootToLeaf
  refine neutral_lockPage.bind fun _ => neutral_getBtreeRoot.bind fun root => ?_
  cases root with
  | emptyBTree => exact .ite (neutral_release.bind fun _ => .pure none) (.pure none)
  | failed => exact neutral_release.bind fun _ => .fail (by simp)
  | root root =>
    refine neutral_lockPage.bind fun _ => neutral_releaseIfShared.bind fun _ => ?_
    refine neutral_peekPageType.bind fun rootType => .ite ?_ ?_
    · exact Neutral.bind (.ite neutral_checkRootLeaf (.pure false)) fun _ => .pure _
    · refine neutral_checkRootInternal.bind fun _ => Neutral.bind (fun _ => ⟨rfl, rfl, rfl, rfl⟩) ?_
      exact fun _ => (neutral_descendLoop _).bind fun _ => .pure _

theorem neutral_descendForMutation : Neutral (descendForMutation env key mutation) := by
  refine neutral_descendFromRootToLeaf.bind fun result => ?_
  cases result with
  | none => exact .pure none
  | some descent =>
    refine .ite ?_ (.pure _)
    exact neutral_unrefPage.bind fun _ => neutral_releaseAll.bind fun _ =>
      neutral_descendFromRootToLeaf

end Descents

section Mutations

variable {pending : PendingMutation} {key : Key} {value : Value}

/-- What a successful mutation did: one record was appended, its effects name the pages that
changed, and each of these pages holds its after-image with the number of the record. -/
structure Logged (env : PagerEnv P) (Q : PageNum → P → Prop) (pending : PendingMutation)
    (effects : List (PageEffect P)) (s s' : OpState P) : Prop where
  nonempty : effects ≠ []
  distinct : (effects.map PageEffect.pageNum).Nodup
  wal : s'.wal = s.wal.append (pending.build effects)
  shaped : ∀ e ∈ effects, Q e.pageNum e.afterImage
  stamped : ∀ e ∈ effects,
    s'.pages e.pageNum = env.format.installLsn s.wal.nextLsn e.afterImage
  same : ∀ n, n ∉ effects.map PageEffect.pageNum → s'.pages n = s.pages n

theorem installLsns_spec {lsn : Lsn} (effects : List (PageEffect P)) :
    ∀ {s : OpState P}, (effects.map PageEffect.pageNum).Nodup →
      (installLsns env lsn effects).wp s
        (fun ok s' => ok = true → s'.wal = s.wal ∧
          (∀ e ∈ effects, s'.pages e.pageNum = env.format.installLsn lsn (s.pages e.pageNum)) ∧
          ∀ n, n ∉ effects.map PageEffect.pageNum → s'.pages n = s.pages n)
        (fun e _ => e ≠ .keyNotInTree) fun _ => True := by
  induction effects with
  | nil =>
    intro s _ _
    exact ⟨rfl, by simp, fun _ _ => rfl⟩
  | cons effect rest ih =>
    intro s hDistinct
    obtain ⟨hFirst, hRest⟩ := List.nodup_cons.1 hDistinct
    have hInstall : (installPageLsn env effect.pageNum lsn).wp s
        (fun ok s' => ok = true → s'.wal = s.wal ∧ s'.pages = Function.update s.pages effect.pageNum
            (env.format.installLsn lsn (s.pages effect.pageNum)))
        (fun e _ => e ≠ .keyNotInTree) fun _ => True := by
      simp [installPageLsn, wp_ite]
    refine wp_bind_of hInstall fun ok s₁ hStep => ?_
    cases ok with
    | false => simp
    | true =>
      obtain ⟨hWal, hPages⟩ := hStep rfl
      simp only [not_true_eq_false, if_false]
      refine wp_conseq (ih hRest) fun ok s₂ hTail hOk => ?_
      obtain ⟨hWal', hStamped, hSame⟩ := hTail hOk
      refine ⟨hWal'.trans hWal, ?_, fun n hn => ?_⟩
      · rintro e (_ | ⟨_, he⟩)
        · rw [hSame _ hFirst, hPages]
          simp
        · have hNe : e.pageNum ≠ effect.pageNum := fun hEq =>
            hFirst (hEq ▸ List.mem_map_of_mem he)
          rw [hStamped e he, hPages]
          simp [hNe]
      · obtain ⟨hNe, hOther⟩ := not_or.1 (List.mem_cons.not.1 hn)
        rw [hSame n hOther, hPages]
        simp [hNe]

theorem tracks_finalizeMutation :
    Mutates (Tracked Q s₀ []) (finalizeMutation env pending) fun ok s => ok = true →
      ∃ effects, Logged env Q pending effects s₀ s := by
  intro s hs
  simp only [finalizeMutation, wp_bind, wp_read, wp_onFail, appendRecord,
    PendingMutation.effects_build, wp_ite]
  refine ⟨fun _ => by simp, fun hNonempty => ⟨fun _ => by simp, fun _ => ?_⟩⟩
  simp only [wp_modify, wp_pure]
  refine wp_conseq (installLsns_spec s.effects hs.distinct) fun ok s' hDone hOk => ?_
  obtain ⟨hWal, hStamped, hSame⟩ := hDone hOk
  have hImage : ∀ e ∈ s.effects, e.afterImage = s.pages e.pageNum := fun e he =>
    hs.image e he (by simp)
  have hLog : s.wal = s₀.wal := hs.wal
  refine ⟨s.effects, by simpa using hNonempty, hs.distinct, ?_, fun e he => ?_, fun e he => ?_,
    fun n hn => ?_⟩
  · rw [hWal, ← hLog]
  · rw [hImage e he]
    exact hs.shaped e.pageNum
  · rw [hStamped e he, hImage e he, ← hLog]
  · rw [hSame n hn]
    exact hs.same n (by simp) hn

/-- The state in which a mutation starts to work. -/
def OpState.started (s : OpState P) : OpState P :=
  { s with effects := [], latches := fun _ => none }

theorem wp_withOperation {α : Type} {x : Op P α} {okay : α → OpState P → Prop}
    {failed : BTreeStatus → OpState P → Prop} {halted : OpState P → Prop} :
    beginAction.wp s (fun _ s' => (withOperation x).wp s' okay failed halted) failed halted ↔
      x.wp s.started (fun a s' => okay a s'.releaseLatches)
        (fun e s' => failed e s'.releaseLatches) halted := by
  simp only [beginAction, withOperation, wp_modify, wp_bind, wp_ensuring]
  rfl

theorem SamePages.releaseLatches {s' : OpState P} (h : SamePages s s') :
    SamePages s s'.releaseLatches :=
  ⟨h.pages, h.dbHeader, h.effects, h.wal⟩

theorem tracked_started (hShaped : ∀ n, Q n (s.pages n)) : Tracked Q s.started [] s.started :=
  ⟨hShaped, List.nodup_nil, fun _ h => h, fun _ h => absurd h List.not_mem_nil,
    fun _ _ _ => rfl, rfl⟩

theorem Logged.of_started {effects : List (PageEffect P)} {s' : OpState P}
    (h : Logged env Q pending effects s.started s') :
    Logged env Q pending effects s s'.releaseLatches :=
  ⟨h.nonempty, h.distinct, h.wal, h.shaped, h.stamped, h.same⟩

/-- The call ends by logging everything it changed. -/
abbrev Logs {α : Type} (env : PagerEnv P) (Q : PageNum → P → Prop) (pending : PendingMutation)
    (s₀ : OpState P) (x : Op P α) (d : List PageNum) : Prop :=
  Mutates (Tracked Q s₀ d) x fun _ s => ∃ effects, Logged env Q pending effects s₀ s

theorem logs_insertFinish : Logs env Q pending s₀ (insertFinish env pending) [] := by
  refine .bind tracks_finalizeMutation fun ok => ?_
  cases ok with
  | false => exact .fail (by simp)
  | true => exact .pure fun _ h => h rfl

theorem logs_removeFinish : Logs env Q pending s₀ (removeFinish env pending) [] := by
  refine .bind tracks_finalizeMutation fun ok => ?_
  cases ok with
  | false => exact .fail (by simp)
  | true => exact .pure fun _ h => h rfl

theorem logs_removeFinish_return {α : Type} {a : α} :
    Logs env Q pending s₀ (removeFinish env pending >>= fun _ => pure a) [] :=
  .bind logs_removeFinish fun _ => .done

variable (hQ : PageInvariant env.format Q) {descent : LeafDescent}
include hQ

theorem tracks_createRootLeaf : Tracks Q s₀ (createRootLeaf env key value) [] [] := by
  unfold createRootLeaf
  refine (tracks_allocatePage hQ).bind (.fail (by simp)) ?_
  rintro ⟨root, effects⟩
  refine .seq tracks_recordPagerEffects fun _ => ?_
  refine bind_fill (hQ.fillInitialLeaf root) fun _ => ?_
  refine neutral_decodeLeaf.seq fun page => ?_
  cases page.insertAt 0 key value with
  | none => exact fun _ _ => by simp
  | some page =>
    refine bind_writeRecorded hQ fun _ => ?_
    refine (tracks_setBtreeRoot hQ).bind (fun _ _ => by simp) ?_
    intro effects
    exact .seq handsOut_unrefPage fun _ => tracks_recordPagerEffects

theorem logs_insertIntoEmptyTree :
    Logs env Q pending s₀ (insertIntoEmptyTree env pending key value) [] :=
  .seq (tracks_createRootLeaf hQ) fun _ => logs_insertFinish

theorem logs_insertIntoLeaf :
    Logs env Q pending s₀ (insertIntoLeaf env pending key value descent) [] := by
  unfold insertIntoLeaf
  refine neutral_markWalPending.seq fun _ => .ite (fun _ _ => by simp) ?_
  refine neutral_decodeLeaf.seq fun page => .ite ?_ ?_
  · cases page.set key value with
    | none => exact fun _ _ => by simp
    | some page =>
      refine bind_writeRecorded hQ fun _ => ?_
      exact neutral_unrefPage.seq fun _ => logs_insertFinish
  · cases page.insertAt (lowerBoundKey page.keys key) key value with
    | none => exact fun _ _ => by simp
    | some page =>
      refine bind_writeRecorded hQ fun _ => .ite ?_ ?_
      · exact .seq (tracks_unpin (tracks_propagateSplitting hQ _)) fun _ => logs_insertFinish
      · exact neutral_unrefPage.seq fun _ => logs_insertFinish

/-- A key that the leaf does not hold is reported before anything is changed. -/
theorem removeFromLeaf_logged (hs : Tracked Q s₀ [] s) :
    (removeFromLeaf env pending key descent).wp s
      (fun _ s' => ∃ effects, Logged env Q pending effects s₀ s')
      (fun e s' => e = .keyNotInTree → SamePages s s') fun _ => True := by
  have hWeaken : ∀ {x : Op P Value} {s₁ : OpState P}, Tracked Q s₀ [] s₁ →
      Logs env Q pending s₀ x [] →
      x.wp s₁ (fun _ s' => ∃ effects, Logged env Q pending effects s₀ s')
        (fun e s' => e = .keyNotInTree → SamePages s s') fun _ => True :=
    fun hs₁ hLogs => wp_weaken (hLogs _ hs₁) (fun _ _ h => h) (fun _ _ hNe hEq => (hNe hEq).elim)
  unfold removeFromLeaf
  refine wp_bind_of (wp_weaken (neutral_decodeLeaf s) (fun _ _ h => h)
    (fun _ _ hNe hEq => (hNe hEq).elim)) ?_
  intro page s₁ hSame
  rw [wp_ite]
  refine ⟨fun _ _ => ⟨hSame.pages, hSame.dbHeader, hSame.effects, hSame.wal⟩,
    fun _ => hWeaken (hs.of_samePages hSame) ?_⟩
  refine (neutral_orHalt _).seq fun removed => ?_
  refine neutral_markWalPending.seq fun _ => .ite (fun _ _ => by simp) ?_
  cases page.removeAt (lowerBoundKey page.keys key) with
  | none => exact fun _ _ => by simp
  | some page =>
    refine bind_writeRecorded hQ fun _ => .ite ?_ (.ite ?_ ?_)
    · exact .seq (tracks_unpin (tracks_propagateMerging hQ _)) fun _ => logs_removeFinish_return
    · refine (neutral_orHalt _).seq fun newMin => ?_
      exact .seq (tracks_unpin (tracks_propagateSeparatorChangeUpward hQ _))
        fun _ => logs_removeFinish_return
    · exact neutral_unrefPage.seq fun _ => logs_removeFinish_return

theorem insertImpl_logged (hShaped : ∀ n, Q n (s.pages n)) :
    (insertImpl env pending key value).wp s
      (fun _ s' => ∃ effects, Logged env Q pending effects s s')
      (fun e _ => e ≠ .keyNotInTree) fun _ => True := by
  simp only [insertImpl, wp_bind, wp_read, wp_ite]
  refine ⟨fun _ => by simp, fun _ => ⟨fun _ => by simp, fun _ => wp_withOperation.2 ?_⟩⟩
  refine wp_bind_of (neutral_descendForMutation.tracks _ (tracked_started hShaped)) ?_
  intro result s₁ hTracked
  have hEnd {s' : OpState P} (hLogged : ∃ effects, Logged env Q pending effects s.started s') :
      ∃ effects, Logged env Q pending effects s s'.releaseLatches :=
    hLogged.imp fun _ h => h.of_started
  cases result with
  | none => exact wp_conseq (logs_insertIntoEmptyTree hQ s₁ hTracked) fun _ _ h => hEnd h
  | some descent => exact wp_conseq (logs_insertIntoLeaf hQ s₁ hTracked) fun _ _ h => hEnd h

theorem removeImpl_logged (hShaped : ∀ n, Q n (s.pages n)) :
    (removeImpl env pending key).wp s
      (fun _ s' => ∃ effects, Logged env Q pending effects s s')
      (fun e s' => e = .keyNotInTree → SamePages s.started s') fun _ => True := by
  simp only [removeImpl, wp_bind, wp_read, wp_ite]
  refine ⟨fun _ => by simp, fun _ => ⟨fun _ => by simp, fun _ => wp_withOperation.2 ?_⟩⟩
  refine wp_bind_of (wp_weaken (neutral_descendForMutation s.started) (fun _ _ h => h)
    (fun _ _ hNe hEq => (hNe hEq).elim)) ?_
  intro result s₁ hSame
  cases result with
  | none => exact fun _ => hSame.releaseLatches
  | some descent =>
    have hs₁ : Tracked Q s.started [] s₁ := (tracked_started hShaped).of_samePages hSame
    refine wp_weaken (removeFromLeaf_logged hQ hs₁) ?_ ?_
    · rintro _ s' ⟨effects, hLogged⟩
      exact ⟨effects, hLogged.of_started⟩
    · exact fun e s' hMissing hEq => (hSame.trans (hMissing hEq)).releaseLatches

end Mutations

end Stoneleaf
