import Stoneleaf.Storage.PagerRun
import Stoneleaf.Storage.PagerSteps

/-!
The two models of the pager. The one that the tree operations use has no cache: it keeps the content
of every page. Whenever a call on the pager with its cache and file succeeds, the same call on the
other one does, with the same effects, and both go on to show the same pages, marks and header.
-/

namespace Stoneleaf

open Library Program

variable {P α β γ δ : Type} {env : DiskEnv P} {s s' : CachedPager P} {o : OpState P} {v : PagerView P}

/-- The environment of a pager whose calls do not fail. -/
def DiskEnv.faultless (env : DiskEnv P) : PagerEnv P :=
  ⟨env.format, fun _ => false⟩

/-- Both pagers show the same, there is a database, and the operation holds no shared latch. -/
structure Mirrors (env : DiskEnv P) (s : CachedPager P) (o : OpState P) : Prop where
  coherent : CachedPager.Coherent env s
  view : s.view = o.view
  noShared : NoShared o
  pageCount : o.dbHeader.dbPageCount ≠ 0

/-- Whenever the first call succeeds, the second one returns its result. -/
def Refines (env : DiskEnv P) (x : PagerOp P α) (y : PagerEnv P → Op P β) (result : α → β) : Prop :=
  ∀ s o, Mirrors env s o → x.wp s
    (fun a s' => ∃ o', y env.faultless o = .ok (result a) o' ∧ Mirrors env s' o')
    (fun _ _ => True) fun _ => True

/-- Both pagers can start from the content of the file. -/
theorem mirrors_opened {file : PageNum → P} {dbHeader : DBHeader} (hCount : dbHeader.dbPageCount ≠ 0)
    (hView : o.view = ⟨file, fun _ => false, dbHeader⟩) (hShared : NoShared o) :
    Mirrors env (CachedPager.opened file dbHeader) o := by
  refine ⟨CachedPager.coherent_opened env file dbHeader, hView.symm, hShared, ?_⟩
  rwa [show o.dbHeader = dbHeader from congrArg PagerView.dbHeader hView]

theorem Refines.pure (result : α → β) (a : α) :
    Refines env (pure a) (fun _ => pure (result a)) result :=
  fun _ o h => ⟨o, rfl, h⟩

theorem Refines.bind {x : PagerOp P α} {y : PagerEnv P → Op P β} {k : α → PagerOp P γ}
    {l : PagerEnv P → β → Op P δ} {result : α → β} {result' : γ → δ} (h : Refines env x y result)
    (hNext : ∀ a, Refines env (k a) (l · (result a)) result') :
    Refines env (x >>= k) (fun env => y env >>= l env) result' := by
  intro s o hs
  refine wp_bind_of (h s o hs) ?_
  rintro a s₁ ⟨o₁, hRun, hs₁⟩
  refine wp_conseq (hNext a s₁ o₁ hs₁) ?_
  rintro c s₂ ⟨o₂, hRest, hs₂⟩
  exact ⟨o₂, (bind_ok hRun).trans hRest, hs₂⟩

theorem Mirrors.of_returns {y : Op P (Option β)} (pages : List PageNum) (result : PagerView P → β)
    (hCoherent : CachedPager.Coherent env s') (hView : s'.view = v)
    (hCount : v.dbHeader.dbPageCount ≠ 0)
    (h : y.Returns o fun r o' => (r = none ∧ Faulty env.faultless.ioFails) ∨
      r = some (result o'.view) ∧ Presents o o' v pages) :
    ∃ o', y o = .ok (some (result v)) o' ∧ Mirrors env s' o' := by
  obtain ⟨_, o', hRun, ⟨-, _, hFault⟩ | ⟨rfl, hPresents⟩⟩ := exists_ok_of_wp h
  · cases hFault
  · rw [hPresents.view] at hRun
    refine ⟨o', hRun, hCoherent, hView.trans hPresents.view.symm, hPresents.noShared, ?_⟩
    rwa [← hPresents.view] at hCount

theorem setBtreeRoot_refines (rootPageNum : PageNum) :
    Refines env (CachedPager.setBtreeRoot env rootPageNum) (setBtreeRoot · rootPageNum) some := by
  intro s o h
  refine wp_mono (CachedPager.setBtreeRoot_spec h.coherent rootPageNum) ?_ (fun _ _ _ => trivial)
    fun _ _ => trivial
  rintro _ s' ⟨hRange, hCoherent, hView, rfl⟩
  have hHeader : s.dbHeader = o.dbHeader := congrArg PagerView.dbHeader h.view
  rw [h.view] at hView ⊢
  rw [hHeader] at hRange
  exact Mirrors.of_returns _ (fun w => [w.effect .write 0]) hCoherent hView h.pageCount
    (setBtreeRoot_view hRange h.noShared)

theorem freePage_refines (pageNum : PageNum) :
    Refines env (CachedPager.freePage env pageNum) (freePage · pageNum) some := by
  intro s o h
  have hHeader : s.dbHeader = o.dbHeader := congrArg PagerView.dbHeader h.view
  simp only [CachedPager.freePage, wp_bind, wp_read, wp_ite, hHeader]
  refine ⟨fun _ => trivial, fun hRange => ?_⟩
  refine wp_weaken (CachedPager.splits_linkFreedPage h.coherent ..).promises ?_ fun _ _ _ => trivial
  rintro _ s' ⟨rfl, hReached⟩
  rw [h.view] at hReached ⊢
  refine Mirrors.of_returns _ (PagerView.freelistEffects · .free pageNum _) hReached.coherent
    hReached.view ?_ (freePage_view hRange h.noShared)
  simp only [PagerView.linkFreed, PagerView.dbHeader_linked]
  exact h.pageCount

theorem allocatePage_refines (kind : V2PageKind) :
    Refines env (CachedPager.allocatePage env kind) (allocatePage · kind)
      fun page => some (page.1.pageNum, page.2) := by
  intro s o h
  have hHeader : s.dbHeader = o.dbHeader := congrArg PagerView.dbHeader h.view
  have hLocked := (Presents.refl h.noShared).locked 0
  simp only [CachedPager.allocatePage, wp_bind, wp_read, wp_ite, hHeader]
  generalize hHead : (if o.dbHeader.freelistPageCount > 0 then o.dbHeader.freelistHeadPageNum
    else 0) = head
  constructor
  · intro hNe
    refine wp_weaken (CachedPager.splits_loadFreelistHead h.coherent head).promises ?_
      fun _ _ _ => trivial
    rintro next s₁ ⟨hNext, hCoherent, hView⟩
    rw [h.view] at hView hNext
    refine wp_weaken (CachedPager.splits_takeFreelistHead hCoherent hNe next kind).promises ?_
      fun _ _ _ => trivial
    rintro result s' ⟨hResult, hReached⟩
    rw [hView] at hResult hReached
    have hCount : (o.view.takeHead env.format head next kind).dbHeader.dbPageCount ≠ 0 := by
      simp only [PagerView.takeHead, PagerView.dbHeader_linked]
      exact h.pageCount
    rw [hResult]
    refine Mirrors.of_returns ((PagerView.beside next).toList ++ [head, 0])
      (fun w => (head, w.freelistEffects .allocate head next)) hReached.coherent hReached.view
      hCount ((wp_bind ..).2 (wp_lockExclusive (h.noShared _) ?_))
    simp only [wp_bind, OpState.locked_dbHeader, wp_read, hHead, if_pos hNe]
    exact allocateFromFreelist_view kind hNe hNext.symm hLocked (by simp)
  · intro hNe
    refine wp_weaken (CachedPager.splits_extendDatabase h.coherent h.pageCount kind).promises ?_
      fun _ _ _ => trivial
    rintro result s' ⟨hResult, hReached⟩
    rw [h.view] at hResult hReached
    rw [hResult]
    refine Mirrors.of_returns [o.dbHeader.dbPageCount, 0]
      (fun w => (_, [w.effect .write 0, w.effect .allocate _])) hReached.coherent hReached.view
      (Nat.succ_ne_zero _) ((wp_bind ..).2 (wp_lockExclusive (h.noShared _) ?_))
    simp only [wp_bind, OpState.locked_dbHeader, wp_read, hHead, if_neg hNe]
    exact allocateNew_view kind h.pageCount hLocked (by simp)

theorem installPageLsn_refines {latched : List PageNum} (pageNum : PageNum) (lsn : Lsn)
    (h : Mirrors env s o) (hLatched : ∀ n ∈ latched, o.latches n = some .exclusive) :
    (CachedPager.installPageLsn env latched pageNum lsn).wp s
      (fun _ s' => ∃ o', installPageLsn env.faultless pageNum lsn o = .ok true o' ∧
        Mirrors env s' o')
      (fun _ _ => True) fun _ => True := by
  refine wp_weaken (CachedPager.installPageLsn_spec h.coherent latched pageNum lsn) ?_
    fun _ _ _ => trivial
  rintro _ s' ⟨⟨hLsn, hMem, hPending⟩, hCoherent, hView⟩
  rw [h.view] at hView hPending
  have hMarked : o.walPending pageNum = true := hPending
  have hRun : (installPageLsn env.faultless pageNum lsn).Returns o fun done o' => done = true ∧
      o'.view = o.view.installLsn env.format pageNum lsn ∧ o'.latches = o.latches := by
    simp [installPageLsn, hLsn, hLatched pageNum hMem, hMarked]
    rfl
  obtain ⟨_, o', hRun, rfl, hView', hLatches⟩ := exists_ok_of_wp hRun
  refine ⟨o', hRun, hCoherent, hView.trans hView'.symm, fun n => hLatches ▸ h.noShared n, ?_⟩
  rw [show o'.dbHeader = o.dbHeader from congrArg PagerView.dbHeader hView']
  exact h.pageCount

/-- The calls that change the header. -/
inductive PagerCall where
  | allocatePage (kind : V2PageKind)
  | freePage (pageNum : PageNum)
  | setBtreeRoot (rootPageNum : PageNum)

namespace PagerCall

/-- The effects of a call on the pager with its cache and file. -/
def onCache (env : DiskEnv P) : PagerCall → PagerOp P (List (PageEffect P))
  | allocatePage kind => do return (← CachedPager.allocatePage env kind).2
  | freePage pageNum => CachedPager.freePage env pageNum
  | setBtreeRoot rootPageNum => CachedPager.setBtreeRoot env rootPageNum

/-- The effects of a call on the pager of the tree operations. -/
def onPages (env : PagerEnv P) : PagerCall → Op P (Option (List (PageEffect P)))
  | allocatePage kind => do return (← Stoneleaf.allocatePage env kind).map Prod.snd
  | freePage pageNum => Stoneleaf.freePage env pageNum
  | setBtreeRoot rootPageNum => Stoneleaf.setBtreeRoot env rootPageNum

def runAll {σ ε : Type} (perform : PagerCall → Program σ ε β) :
    List PagerCall → Program σ ε (List β)
  | [] => pure []
  | call :: calls => do return (← perform call) :: (← runAll perform calls)

theorem refines (call : PagerCall) : Refines env (call.onCache env) (call.onPages ·) some := by
  cases call with
  | allocatePage kind => exact (allocatePage_refines kind).bind fun page => .pure some page.2
  | freePage pageNum => exact freePage_refines pageNum
  | setBtreeRoot rootPageNum => exact setBtreeRoot_refines rootPageNum

/-- Runs of calls that succeed hand out the same effects and end with the same pages. -/
theorem runAll_refines (calls : List PagerCall) :
    Refines env (runAll (onCache env) calls) (fun env => runAll (onPages env) calls)
      (List.map some) := by
  induction calls with
  | nil => exact .pure (List.map some) []
  | cons call calls ih =>
    exact call.refines.bind fun effects => ih.bind fun rest =>
      .pure (List.map some) (effects :: rest)

end PagerCall

end Stoneleaf
