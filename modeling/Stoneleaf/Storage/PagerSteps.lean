import Stoneleaf.Storage.PagerRules

/-!
What the pager calls of a mutation leave behind: the pages that it holds, and what the pager then
shows.
-/

namespace Stoneleaf

open Library Program List Function
open OpState (marked locked)

section Steps

variable {P : Type} {s s' s'' t : OpState P} {n m : PageNum} {page : P} {kind : PageEffectKind}
  {effects : List (PageEffect P)}

def NoShared (s : OpState P) : Prop :=
  ∀ n, s.latches n ≠ some .shared

theorem NoShared.locked (h : NoShared s) (n : PageNum) : NoShared (s.locked n) := by
  intro m
  by_cases hm : m = n
  · simp [hm]
  · simpa [hm] using h m

/-- The page is latched and marked for writing. -/
def Claimed (s : OpState P) (n : PageNum) : Prop :=
  s.latches n = some .exclusive ∧ s.walPending n = true

/-- The recorded effects of a pager call name pages that can be stamped. -/
def EffectsReady (s : OpState P) (effects : List (PageEffect P)) : Prop :=
  ∀ e ∈ effects, Claimed s e.pageNum

/-- Every page with a recorded effect is latched and marked, so its LSN can be installed. No
latch is shared, so any page can be latched. -/
def Writable (s : OpState P) : Prop :=
  NoShared s ∧ EffectsReady s s.effects

/-- A mutation under way keeps what it holds and does not touch the log. -/
structure Advances (s s' : OpState P) : Prop where
  wal : s'.wal = s.wal
  storagePoisoned : s'.storagePoisoned = s.storagePoisoned
  activeCursorCount : s'.activeCursorCount = s.activeCursorCount
  latched : ∀ n, s.latches n = some .exclusive → s'.latches n = some .exclusive
  pending : ∀ n, s.walPending n = true → s'.walPending n = true

theorem Advances.held (h : Advances s t) (hHeld : Claimed s n) : Claimed t n :=
  ⟨h.latched n hHeld.1, h.pending n hHeld.2⟩

namespace Advances

@[simp] theorem refl (s : OpState P) : Advances s s :=
  ⟨rfl, rfl, rfl, fun _ h => h, fun _ h => h⟩

theorem trans (h : Advances s s') (h' : Advances s' s'') : Advances s s'' where
  wal := h'.wal.trans h.wal
  storagePoisoned := h'.storagePoisoned.trans h.storagePoisoned
  activeCursorCount := h'.activeCursorCount.trans h.activeCursorCount
  latched n hn := h'.latched n (h.latched n hn)
  pending n hn := h'.pending n (h.pending n hn)

theorem iff_of_eq {t' : OpState P} (hWal : t'.wal = t.wal)
    (hPoisoned : t'.storagePoisoned = t.storagePoisoned)
    (hCursors : t'.activeCursorCount = t.activeCursorCount) (hLatches : t'.latches = t.latches)
    (hPending : t'.walPending = t.walPending) : Advances s t' ↔ Advances s t := by
  constructor <;> rintro ⟨h₁, h₂, h₃, h₄, h₅⟩ <;> constructor <;> simp_all

@[simp] theorem unref_iff : Advances s (t.unref n) ↔ Advances s t :=
  iff_of_eq rfl rfl rfl rfl rfl

@[simp] theorem called_iff : Advances s t.called ↔ Advances s t :=
  iff_of_eq rfl rfl rfl rfl rfl

@[simp] theorem pinned_iff : Advances s (t.pinned n) ↔ Advances s t :=
  iff_of_eq rfl rfl rfl rfl rfl

@[simp] theorem framed_iff : Advances s (t.framed n page) ↔ Advances s t :=
  iff_of_eq rfl rfl rfl rfl rfl

@[simp] theorem recorded_iff : Advances s (t.recorded kind n) ↔ Advances s t :=
  iff_of_eq rfl rfl rfl rfl rfl

@[simp] theorem recordedAll_iff : Advances s (t.recordedAll effects) ↔ Advances s t :=
  iff_of_eq rfl rfl rfl rfl rfl

@[simp] theorem locked (h : Advances s t) (n : PageNum) : Advances s (t.locked n) :=
  h.trans ⟨rfl, rfl, rfl, fun m hm => by simp [update_apply, hm], fun _ h => h⟩

@[simp] theorem marked (h : Advances s t) (n : PageNum) : Advances s (t.marked n) :=
  h.trans ⟨rfl, rfl, rfl, fun _ h => h, fun m hm => by
    simp [OpState.marked, update_apply, hm]⟩

end Advances

@[simp] theorem writable_unref : Writable (s.unref n) ↔ Writable s := Iff.rfl

@[simp] theorem writable_pinned : Writable (s.pinned n) ↔ Writable s := Iff.rfl

@[simp] theorem writable_framed : Writable (s.framed n page) ↔ Writable s := Iff.rfl

section

variable (h : Writable s)
include h

theorem Writable.noShared : NoShared s :=
  h.1

theorem Writable.ready : EffectsReady s s.effects :=
  h.2

theorem Writable.addEffect {effect : PageEffect P} (hEffect : Claimed s effect.pageNum) :
    Writable { s with effects := PendingBTreeAction.addEffect s.effects effect } := by
  refine ⟨h.noShared, fun e he => ?_⟩
  rcases PendingBTreeAction.mem_pageNums_addEffect.1 (mem_map_of_mem he) with hPage | hOld
  · rwa [hPage]
  · obtain ⟨e', he', hPage⟩ := mem_map.1 hOld
    rw [← hPage]
    exact h.ready e' he'

@[simp] theorem Writable.recorded (hHeld : Claimed s n) : Writable (s.recorded kind n) :=
  h.addEffect hHeld

@[simp] theorem Writable.recordedAll (hReady : EffectsReady s effects) :
    Writable (s.recordedAll effects) := by
  induction effects generalizing s with
  | nil => exact h
  | cons e effects ih =>
    exact ih (h.addEffect (hReady e mem_cons_self)) fun e' he => hReady e' (mem_cons_of_mem _ he)

@[simp] theorem Writable.locked (n : PageNum) : Writable (s.locked n) :=
  ⟨h.noShared.locked n, fun e he => ((Advances.refl s).locked n).held (h.ready e he)⟩

@[simp] theorem Writable.marked (n : PageNum) : Writable (s.marked n) :=
  ⟨h.noShared, fun e he => ((Advances.refl s).marked n).held (h.ready e he)⟩

end

@[simp] theorem held_pinned : Claimed (s.pinned n) m ↔ Claimed s m := Iff.rfl

@[simp] theorem held_framed : Claimed (s.framed n page) m ↔ Claimed s m := Iff.rfl

@[simp] theorem held_recorded : Claimed (s.recorded kind n) m ↔ Claimed s m := Iff.rfl

@[simp] theorem held_recordedAll : Claimed (s.recordedAll effects) m ↔ Claimed s m := Iff.rfl

@[simp] theorem Claimed.marked (h : Claimed s m) (n : PageNum) : Claimed (s.marked n) m :=
  ((Advances.refl s).marked n).held h

@[simp] theorem held_marked (h : s.latches n = some .exclusive) : Claimed (s.marked n) n :=
  ⟨h, by simp [marked]⟩

end Steps

section Views

open PagerView hiding extend

variable {P : Type} {env : PagerEnv P} {s s' t : OpState P} {v w : PagerView P} {n : PageNum}
  {pages : List PageNum}

/-- A call got through. It shows the given pages and holds those that it lists. -/
structure Presents (s s' : OpState P) (v : PagerView P) (pages : List PageNum) : Prop where
  view : s'.view = v
  claimed : ∀ n ∈ pages, Claimed s' n
  advances : Advances s s'
  effects : s'.effects = s.effects
  noShared : NoShared s'

namespace Presents

theorem refl (h : NoShared s) : Presents s s s.view [] :=
  ⟨rfl, by simp, Advances.refl s, rfl, h⟩

theorem locked (h : Presents s t v []) (n : PageNum) : Presents s (t.locked n) v [] :=
  ⟨h.view, by simp, h.advances.locked n, h.effects, h.noShared.locked n⟩

theorem marked (h : Presents s t v pages) (hLatch : t.latches n = some .exclusive) :
    Presents s (t.marked n) (v.mark n) (n :: pages) where
  view := congrArg (mark · n) h.view
  claimed := forall_mem_cons.2 ⟨held_marked hLatch, fun m hm => (h.claimed m hm).marked n⟩
  advances := h.advances.marked n
  effects := h.effects
  noShared := h.noShared

/-- Writing to pages that the call holds leaves it holding them. -/
theorem written (h : Presents s t v pages) (hView : s'.view = w)
    (hAdvances : Advances t s' ↔ Advances t t) (hEffects : s'.effects = t.effects)
    (hLatches : s'.latches = t.latches) : Presents s s' w pages where
  view := hView
  claimed n hn := (hAdvances.2 (Advances.refl t)).held (h.claimed n hn)
  advances := h.advances.trans (hAdvances.2 (Advances.refl t))
  effects := hEffects.trans h.effects
  noShared n := hLatches ▸ h.noShared n

theorem called (h : Presents s t v pages) : Presents s t.called v pages :=
  h.written h.view (by simp) rfl rfl

theorem writable (h : Presents s s' v pages) (hWritable : Writable s) : Writable s' :=
  ⟨h.noShared, fun e he => h.advances.held (hWritable.ready e (h.effects ▸ he))⟩

theorem effectsReady {m : PageNum} (h : Presents s s' v ((beside m).toList ++ [n, 0]))
    (kind : PageEffectKind) :
    EffectsReady s' (s'.view.freelistEffects kind n m) := by
  intro e he
  refine h.claimed e.pageNum ?_
  simp only [PagerView.freelistEffects, cons_append, mem_cons, mem_append, mem_map, not_mem_nil,
    or_false] at he ⊢
  rcases he with rfl | ⟨m', hm', rfl⟩ | rfl <;> simp_all [effect]

end Presents

theorem openFreelist_view {q m prev : PageNum} (hPresents : Presents s t v [])
    (hZero : t.latches 0 = some .exclusive) (hLatch : t.latches q = some .exclusive) :
    (openFreelist env q m prev).Returns t
      fun opened s' => (opened = false ∧ Faulty env.ioFails) ∨ (opened = true ∧
        Presents s s' (v.linked env.format q prev m) ((beside m).toList ++ [q, 0])) := by
  have hNotRefused : ¬¬((true : Bool) = true) := not_not.2 rfl
  by_cases hm : m = 0
  · simp only [openFreelist, hm, ne_eq, not_true_eq_false, if_false, wp_bind, wp_ioFault]
    split
    next hFault => exact Or.inl ⟨rfl, _, hFault⟩
    next =>
      rw [wp_bind]
      refine wp_markWalPending hZero ?_
      rw [if_neg hNotRefused, wp_bind]
      refine wp_markWalPending hLatch ?_
      rw [if_neg hNotRefused]
      exact Or.inr ⟨rfl, (hPresents.called.marked hZero).marked hLatch⟩
  · simp only [openFreelist, linked, beside, hm, ne_eq, not_false_eq_true, if_true, wp_bind]
    refine wp_lockExclusive (hPresents.noShared _) ?_
    have hZero' : (t.locked m).latches 0 = some .exclusive := by simp [Ne.symm hm, hZero]
    have hLatch' : (t.locked m).latches q = some .exclusive := by simp [update_apply, hLatch]
    rw [wp_ioFault]
    split
    next hFault => exact Or.inl ⟨rfl, _, hFault⟩
    next =>
      rw [wp_bind]
      refine wp_markWalPending hZero' ?_
      rw [if_neg hNotRefused, wp_bind]
      refine wp_markWalPending hLatch' ?_
      rw [if_neg hNotRefused, wp_bind]
      refine wp_markWalPending (by simp) ?_
      rw [if_neg hNotRefused, wp_bind, wp_frame, wp_bind, wp_setFrame]
      have hMarked := (((hPresents.locked m).called.marked hZero').marked hLatch').marked (n := m)
        (by simp)
      refine Or.inr ⟨rfl, hMarked.written ?_ (by simp) rfl rfl⟩
      rw [← hPresents.view]
      rfl

theorem allocateFromFreelist_view {q next : PageNum} (kind : V2PageKind) (hq : q ≠ 0)
    (hNext : (env.format.readFreelistLinks (v.pages q)).1 = next)
    (hPresents : Presents s t v []) (hZero : t.latches 0 = some .exclusive) :
    (allocateFromFreelist env q kind).Returns t
      fun result s' => (result = none ∧ Faulty env.ioFails) ∨
        result = some (q, s'.view.freelistEffects .allocate q next) ∧
        Presents s s' (v.takeHead env.format q next kind) ((beside next).toList ++ [q, 0]) := by
  simp only [allocateFromFreelist, wp_bind]
  refine wp_lockExclusive (hPresents.noShared _) ?_
  rw [wp_ioFault]
  split
  next hFault => exact Or.inl ⟨rfl, _, hFault⟩
  next =>
    have hPages : (t.locked q).called.pages = v.pages := congrArg PagerView.pages hPresents.view
    simp only [wp_bind, wp_frame, hPages, hNext]
    refine wp_conseq (openFreelist_view (hPresents.locked q).called (by simp [hq.symm, hZero])
      (by simp)) ?_
    rintro opened s₁ (⟨rfl, hFault⟩ | ⟨rfl, hOpened⟩)
    · exact Or.inl ⟨rfl, hFault⟩
    · rw [if_neg (not_not.2 rfl)]
      simp only [wp_bind, wp_read, wp_setDbHeader, wp_setFrame, wp_modify, wp_freelistEffects,
        wp_pure]
      refine Or.inr ⟨trivial, hOpened.written ?_
        (Advances.iff_of_eq rfl rfl rfl rfl rfl) rfl rfl⟩
      rw [takeHead, ← hOpened.view]
      rfl

theorem allocateNew_view (kind : V2PageKind) (hNew : v.dbHeader.dbPageCount ≠ 0)
    (hPresents : Presents s t v []) (hZero : t.latches 0 = some .exclusive) :
    (allocateNew env kind).Returns t
      fun result s' => (result = none ∧ Faulty env.ioFails) ∨
        result = some (v.dbHeader.dbPageCount,
          [s'.view.effect .write 0, s'.view.effect .allocate v.dbHeader.dbPageCount]) ∧
        Presents s s' (v.extend env.format v.dbHeader.dbPageCount kind)
          [v.dbHeader.dbPageCount, 0] := by
  obtain rfl := hPresents.view
  have hZero' : (t.locked t.dbHeader.dbPageCount).latches 0 = some .exclusive := by
    simp [update_apply, hZero]
  simp only [allocateNew, wp_bind, wp_read]
  refine wp_lockExclusive (hPresents.noShared _) ?_
  rw [wp_ioFault]
  split
  next hFault => exact Or.inl ⟨rfl, _, hFault⟩
  next =>
    rw [wp_bind]
    refine wp_markWalPending hZero' ?_
    simp only [not_true_eq_false, if_false, wp_bind, wp_setFrame, wp_modify, wp_read,
      wp_setDbHeader, wp_pageEffect, wp_pure]
    have hMarked := ((hPresents.locked t.dbHeader.dbPageCount).marked hZero').marked
      (n := t.dbHeader.dbPageCount) (by simp)
    refine Or.inr ⟨rfl, hMarked.written ?_ (Advances.iff_of_eq rfl rfl rfl rfl rfl) rfl rfl⟩
    rw [PagerView.extend, mark, mark, update_comm hNew]
    rfl

theorem freePage_view {q : PageNum} (hRange : ¬(q = 0 ∨ q ≥ s.dbHeader.dbPageCount))
    (hShared : NoShared s) :
    (freePage env q).Returns s
      fun result s' => (result = none ∧ Faulty env.ioFails) ∨
        result = some (s'.view.freelistEffects .free q s.dbHeader.freelistHeadPageNum) ∧
        Presents s s' (s.view.linkFreed env.format q s.dbHeader.freelistHeadPageNum)
          ((beside s.dbHeader.freelistHeadPageNum).toList ++ [q, 0]) := by
  have hq : q ≠ 0 := (not_or.1 hRange).1
  simp only [freePage, wp_bind]
  refine wp_lockExclusive (hShared _) ?_
  refine wp_lockExclusive (hShared.locked 0 _) ?_
  simp only [wp_read, OpState.locked_dbHeader, hRange, if_false, wp_bind]
  refine wp_conseq (openFreelist_view (((Presents.refl hShared).locked 0).locked q)
    (by simp [hq.symm]) (by simp)) ?_
  rintro opened s₁ (⟨rfl, hFault⟩ | ⟨rfl, hOpened⟩)
  · exact Or.inl ⟨rfl, hFault⟩
  · rw [if_neg (not_not.2 rfl)]
    simp only [wp_bind, wp_frame, wp_setDbHeader, wp_setFrame, wp_freelistEffects, wp_pure]
    refine Or.inr ⟨trivial, hOpened.written ?_ (Advances.iff_of_eq rfl rfl rfl rfl rfl) rfl rfl⟩
    have hHeader : s₁.dbHeader = s.dbHeader :=
      (congrArg PagerView.dbHeader hOpened.view).trans (dbHeader_linked ..)
    rw [linkFreed, ← hOpened.view, ← hHeader]
    rfl

theorem setBtreeRoot_view {root : PageNum}
    (hRange : ¬(root ≥ s.dbHeader.dbPageCount ∧ root ≠ 0)) (hShared : NoShared s) :
    (setBtreeRoot env root).Returns s
      fun result s' => (result = none ∧ Faulty env.ioFails) ∨
        result = some [s'.view.effect .write 0] ∧
        Presents s s' (s.view.setRoot env.format root) [0] := by
  -- The root page is latched only when there is one; the rest is the same in both cases.
  have hRest : ∀ t : OpState P, Presents s t s.view [] → t.latches 0 = some .exclusive →
      (ioFault env >>= fun fault => if fault then pure none else do
        if ¬(← markWalPending 0) then return none
        setDbHeader env { t.dbHeader with btreeRootPageNum := root }
        let headerEffect ← pageEffect .write 0
        return some [headerEffect]).Returns t
      fun result s' => (result = none ∧ Faulty env.ioFails) ∨
        result = some [s'.view.effect .write 0] ∧
        Presents s s' (s.view.setRoot env.format root) [0] := by
    intro t hPresents hZero
    simp only [wp_bind, wp_ioFault]
    split
    next hFault => exact Or.inl ⟨rfl, _, hFault⟩
    next =>
      rw [wp_bind]
      refine wp_markWalPending hZero ?_
      simp only [not_true_eq_false, if_false, wp_bind, wp_setDbHeader, wp_pageEffect, wp_pure]
      refine Or.inr ⟨rfl, (hPresents.marked hZero).written ?_
        (Advances.iff_of_eq rfl rfl rfl rfl rfl) rfl rfl⟩
      rw [← hPresents.view]
      rfl
  simp only [setBtreeRoot, wp_bind]
  refine wp_lockExclusive (hShared _) ?_
  have hLocked := (Presents.refl hShared).locked 0
  by_cases hRoot : root = 0
  · simp only [hRoot, ne_eq, not_true_eq_false, if_false, and_false, wp_bind, wp_read]
    simpa only [hRoot, wp_bind] using hRest _ hLocked (by simp)
  · simp only [hRoot, ne_eq, not_false_eq_true, if_true, wp_bind]
    refine wp_lockExclusive (hLocked.noShared _) ?_
    have hInside : ¬root ≥ s.dbHeader.dbPageCount := fun hGe => hRange ⟨hGe, hRoot⟩
    simp only [wp_read, OpState.locked_dbHeader, hInside, false_and, if_false, wp_bind]
    simpa only [OpState.locked_dbHeader, wp_bind] using
      hRest _ (hLocked.locked root) (by simp [Ne.symm hRoot])

end Views

end Stoneleaf
