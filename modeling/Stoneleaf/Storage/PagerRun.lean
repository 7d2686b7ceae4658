import Stoneleaf.Storage.FrameStay

/-!
Runs of the pager. Every event is one critical section, so a run is any interleaving of the calls
of concurrent operations. Callers count references within the range of the counter, drop only
references they hold, and write into a frame only after it has been marked.
-/

namespace Stoneleaf

open Library CachedPager

namespace CachedPager

open Program

variable {P : Type}

/-- A critical section of the pager, or a write into a frame by the holder of its latch. -/
inductive PagerEvent (P : Type) where
  | get (pageNum : PageNum)
  | ref (pageNum : PageNum)
  | unref (pageNum : PageNum)
  | frames (call : FrameCall)
  | setBtreeRoot (rootPageNum : PageNum)
  | beginWalWrite (latched : List PageNum) (pageNum : PageNum)
  | installPageLsn (latched : List PageNum) (pageNum : PageNum) (lsn : Lsn)
  | write (pageNum : PageNum) (data : P)
  | flush

def PagerEvent.program (env : DiskEnv P) : PagerEvent P → PagerOp P Unit
  | get pageNum => do let _ ← CachedPager.get env pageNum
  | ref pageNum => refPage pageNum
  | unref pageNum => unrefPage pageNum
  | frames call => call.run env
  | setBtreeRoot rootPageNum => do let _ ← CachedPager.setBtreeRoot env rootPageNum
  | beginWalWrite latched pageNum => CachedPager.beginWalWrite env latched pageNum
  | installPageLsn latched pageNum lsn => CachedPager.installPageLsn env latched pageNum lsn
  | write pageNum data =>
    Program.modify fun s =>
      { s with cache := s.cache.update pageNum fun page => { page with data := data } }
  | flush => flushWalPages env

/-- What the callers keep to. -/
def PagerEvent.allowed (s : CachedPager P) : PagerEvent P → Bool
  | get pageNum => (s.cache.get pageNum).all fun page => page.refsNum + 1 ≠ 0
  | ref pageNum => (s.cache.get pageNum).all fun page => page.refsNum + 1 ≠ 0
  | unref pageNum => (s.cache.get pageNum).all fun page => page.refsNum ≠ 0
  | write pageNum _ => (s.cache.get pageNum).all PageFrame.walPending
  | _ => true

/-- The process goes on after success and after a reported failure. It ends with a failed assertion
or the use of a frame that is gone, so the run goes on without such an event. -/
def step (env : DiskEnv P) (s : CachedPager P) (event : PagerEvent P) : CachedPager P :=
  if event.allowed s then
    match event.program env s with
    | .ok _ s' => s'
    | .fail (.status _) s' => s'
    | .fail .dangling _ => s
    | .halt _ => s
  else s

def run (env : DiskEnv P) (s : CachedPager P) (events : List (PagerEvent P)) : CachedPager P :=
  events.foldl (step env) s

section Events

variable {env : DiskEnv P} {s : CachedPager P}

variable (h : Coherent env s)
include h

theorem leaves_flushEach (pages : List PageNum) : Leaves env (flushEach env pages) s := by
  induction pages generalizing s with
  | nil => exact h
  | cons n pages ih =>
    refine wp_bind_of ?_ fun _ s' h' => ih h'
    exact wp_mono (flushWalPage_spec h n) (fun _ _ hOk => hOk.1) (fun _ _ hFail _ => hFail.2.1)
      fun _ _ => trivial

theorem leaves_flushWalPages : Leaves env (flushWalPages env) s := by
  rw [Leaves, flushWalPages, wp_bind, wp_read]
  refine wp_bind_of (leaves_flushEach h s.walDirtyPages) fun _ s' h' => ?_
  have hCalled : Coherent env { s' with calls := s'.calls + 1 } :=
    h'.of_eq rfl rfl (fun _ _ _ hMem => hMem) (Nat.le_refl _)
  simp only [wp_bind, wp_ioFault, wp_ite, wp_failWith, wp_pure]
  exact ⟨fun _ _ => hCalled, fun _ => hCalled⟩

theorem setBtreeRoot_spec (rootPageNum : PageNum) :
    (setBtreeRoot env rootPageNum).wp s
      (fun effects s' => ¬(rootPageNum ≥ s.dbHeader.dbPageCount ∧ rootPageNum ≠ 0) ∧
        Coherent env s' ∧ s'.view = s.view.setRoot env.format rootPageNum ∧
        effects = [(s.view.setRoot env.format rootPageNum).effect .write 0])
      (fun e s' => e ≠ .dangling ∧ Coherent env s') fun _ => True := by
  rw [setBtreeRoot, wp_bind, wp_read, wp_ite]
  refine ⟨fun _ => ⟨by simp, h⟩, fun hRange => load_bind h fun headerPtr s' hLoad h' => ?_⟩
  have hStart : Ready env s.view [headerPtr] s' :=
    ⟨h', by simpa [Good] using hLoad.denotes_self, hLoad.view h⟩
  obtain ⟨number, address⟩ := headerPtr
  obtain rfl : number = 0 := hLoad.pageNum_eq
  refine wp_weaken (Triple.seq (completes_mark List.mem_cons_self (by simp))
    (fun _ => ?_) s' hStart)
    (fun effects s' hs => (⟨hRange, hs⟩ : _ ∧ Coherent env s' ∧ _)) fun _ _ hFalse => hFalse.elim
  refine Triple.seq (completes_setHeader List.mem_cons_self rfl PagerView.walPending_mark_self _)
    fun _ => ?_
  refine (completes_pageEffect _ List.mem_cons_self).bind_eq (Triple.pure fun s'' hs => ?_)
  exact ⟨hs.coherent, hs.view, rfl⟩

theorem leaves_beginWalWrite (latched : List PageNum) (n : PageNum) :
    Leaves env (beginWalWrite env latched n) s := by
  refine wp_weaken (load_bind h fun ptr s' hLoad h' => ?_) (fun _ _ hOk => hOk)
    (fun _ _ hFail _ => hFail.2)
  obtain ⟨page, hPage, -⟩ := hLoad.denotes_self
  refine wp_mono (mark_spec h'.cache.toLinked hLoad.denotes_self latched) ?_ ?_ fun _ _ => trivial
  · rintro _ _ rfl
    exact h'.marked hPage
  · rintro e _ ⟨hError, -, rfl⟩
    exact ⟨hError, h'⟩

theorem installPageLsn_spec (latched : List PageNum) (n : PageNum) (lsn : Lsn) :
    (installPageLsn env latched n lsn).wp s
      (fun _ s' => (lsn ≠ 0 ∧ n ∈ latched ∧ s.view.walPending n = true) ∧ Coherent env s' ∧
        s'.view = s.view.installLsn env.format n lsn)
      (fun e s' => e ≠ .dangling ∧ Coherent env s') fun _ => True := by
  simp only [installPageLsn, wp_ite, wp_bind, wp_failWith, wp_read]
  refine ⟨fun _ => ⟨by simp, h⟩, fun hLsn => ⟨fun _ => ⟨by simp, h⟩, fun hLatched => ?_⟩⟩
  cases hGet : s.cache.get n with
  | none => exact ⟨by simp, h⟩
  | some page =>
    rw [wp_ite]
    refine ⟨fun _ => ⟨by simp, h⟩, fun hPending => ?_⟩
    simp only [Bool.not_eq_true', Bool.not_eq_false] at hPending
    have hFrame := h.frames n page hGet
    have hDirty := hFrame.pending hPending
    have hReady : Ready env s.view [] s := ⟨h, by simp [Good], rfl⟩
    have hCoherent : Coherent env { s with cache := s.cache.update n fun page =>
        { page with
          data := env.format.installLsn lsn page.data
          isDirty := true
          walPending := false } } := by
      refine h.update hGet (h.cache.update n (fun _ => rfl) fun _ => Iff.rfl) (fun _ => rfl) rfl rfl
        (fun _ _ => rfl) (fun _ _ hMem => hMem) ?_
      exact ⟨by simp, fun _ => hFrame.flush hDirty, by simp,
        fun _ _ => env.updateChecksum_installLsn lsn page.data, fun _ => hFrame.listed hDirty⟩
    have hNew := hReady.update hCoherent hGet (fun _ => rfl) (fun _ => rfl) rfl rfl
    refine ⟨⟨hLsn, not_not.1 hLatched, ?_⟩, hNew.coherent, ?_⟩
    · rw [← (hReady.frame_eq hGet).2, hPending]
    · rw [hNew.view, (hReady.frame_eq hGet).1]
      rfl

/-- A reference to a page that has just been found. -/
theorem leaves_get (n : PageNum) (hAllowed : (s.cache.get n).all fun page => page.refsNum + 1 ≠ 0) :
    Leaves env (get env n) s := by
  simp only [get, Leaves, wp_ite, wp_bind, wp_read, wp_failWith, wp_halt]
  refine ⟨fun _ => trivial, fun _ => ⟨fun _ _ => h, fun _ => ?_⟩⟩
  refine wp_mono (getOrLoadPage_spec h n) ?_ (fun _ _ hFail _ => hFail.2) fun _ _ => trivial
  intro ptr s' hLoad
  have h' := hLoad.coherent h
  have hPage : ∃ page, s'.cache.get n = some page ∧ page.refsNum + 1 ≠ 0 := by
    cases hLoad with
    | hit page hHit =>
      rw [hHit] at hAllowed
      exact ⟨page, hHit, by simpa using hAllowed⟩
    | miss _ _ hPlaced => exact ⟨loadedFrame n s, hPlaced.get_self, by simp [loadedFrame]⟩
  obtain ⟨page, hGet, hRange⟩ := hPage
  rw [wp_onCache]
  exact wp_of_ok (PCache.refPage_eq h'.cache hGet) (h'.pinned hGet hRange)

theorem leaves_refPage (n : PageNum)
    (hAllowed : (s.cache.get n).all fun page => page.refsNum + 1 ≠ 0) :
    Leaves env (refPage n) s := by
  simp only [refPage, Leaves, wp_ite, wp_bind, wp_halt]
  refine ⟨fun _ => trivial, fun _ => ?_⟩
  rw [wp_onCache]
  cases hGet : s.cache.get n with
  | none =>
    have hRun : PCache.refPage n s.cache = .ok false s.cache :=
      eq_ok_of_wp (by simp [PCache.refPage, hGet])
    exact wp_of_ok hRun ⟨fun _ _ => h, fun hTrue => absurd rfl hTrue⟩
  | some page =>
    rw [hGet] at hAllowed
    have hPinned := h.pinned hGet (by simpa using hAllowed)
    exact wp_of_ok (PCache.refPage_eq h.cache hGet) ⟨fun _ _ => hPinned, fun _ => hPinned⟩

theorem leaves_unrefPage (n : PageNum) (hAllowed : (s.cache.get n).all
    fun page => page.refsNum ≠ 0) :
    Leaves env (unrefPage n) s := by
  rw [unrefPage, Leaves, wp_onCache]
  cases hGet : s.cache.get n with
  | none => simp [PCache.unrefPage, hGet]
  | some page =>
    rw [hGet] at hAllowed
    have hRefs : page.refsNum ≠ 0 := by simpa using hAllowed
    exact wp_of_ok (PCache.unrefPage_eq h.cache hGet hRefs) (h.unpinned hGet hRefs)

/-- A write into a frame that is pending, or into none. -/
theorem Coherent.write (n : PageNum) (data : P)
    (hAllowed : (s.cache.get n).all PageFrame.walPending) :
    Coherent env
      { s with cache := s.cache.update n fun page => { page with data := data } } := by
  cases hGet : s.cache.get n with
  | none => simpa [PCache.update, hGet] using h
  | some page =>
    rw [hGet] at hAllowed
    exact h.withData hGet hAllowed (fun _ => data) s.dbHeader

theorem leaves_event (event : PagerEvent P) (hAllowed : event.allowed s = true) :
    Leaves env (event.program env) s := by
  cases event with
  | get n => exact wp_bind_of (leaves_get h n hAllowed) fun _ _ hs => hs
  | ref n => exact leaves_refPage h n hAllowed
  | unref n => exact leaves_unrefPage h n hAllowed
  | frames call => exact (frameCall_spec h call).leaves
  | setBtreeRoot rootPageNum =>
    exact wp_bind_of (wp_weaken (setBtreeRoot_spec h rootPageNum) (fun _ _ hs => hs.2.1)
      fun _ _ hFail _ => hFail.2) fun _ _ hs => hs
  | beginWalWrite latched n => exact leaves_beginWalWrite h latched n
  | installPageLsn latched n lsn =>
    exact wp_weaken (installPageLsn_spec h latched n lsn) (fun _ _ hs => hs.2.1)
      fun _ _ hFail _ => hFail.2
  | write n data => exact h.write n data hAllowed
  | flush => exact leaves_flushWalPages h

protected theorem Coherent.step (event : PagerEvent P) : Coherent env (s.step env event) := by
  unfold step
  split
  · rename_i hAllowed
    have hSpec := leaves_event h event hAllowed
    cases hRun : event.program env s with
    | ok _ s' =>
      have hOk := okay_of_wp hRun hSpec
      exact hOk
    | halt s' => exact h
    | fail e s' =>
      cases e with
      | dangling => exact h
      | status result =>
        have hFail := fail_of_wp hRun hSpec
        exact hFail (by simp)
  · exact h

protected theorem Coherent.run (events : List (PagerEvent P)) :
    Coherent env (s.run env events) := by
  induction events generalizing s with
  | nil => exact h
  | cons event events ih => exact ih (h.step event)

end Events

/-- In every state that the pager can reach, the frames of `allocate_page` and `free_page` stay
until they are used exactly if the pages cannot be loaded or fit into the cache. -/
theorem frames_stay_iff (env : DiskEnv P) (file : PageNum → P) (dbHeader : DBHeader)
    (events : List (PagerEvent P)) (call : FrameCall) :
    FramesStay env ((opened file dbHeader).run env events) call ↔
      ((call.load env ((opened file dbHeader).run env events)).isOk = true →
        ((opened file dbHeader).run env events).Fits call.pages) :=
  (frameCall_spec ((coherent_opened env file dbHeader).run events) call).framesStay_iff

/-- Pages as their decoded vectors, all valid, on a disk without faults. -/
def faultlessDisk : DiskEnv DecodedPage where
  format := decodedFormat
  validate _ _ := true
  updateChecksum page := page
  ioFails _ := false
  updateChecksum_installLsn _ _ := rfl

/-- A database of 66 pages, of which the last one is free. -/
def freedLastPage : DBHeader :=
  ⟨0, 66, 65, 1, 1⟩

def freedLastFile (n : PageNum) : DecodedPage :=
  if n = 0 then ⟨0, .metadata freedLastPage⟩
  else if n = 65 then ⟨0, .freelist 0 0⟩
  else ⟨0, .leaf ⟨[], []⟩⟩

/-- Read 64 pages one after the other, then look for a free page. -/
def readAllPages : List (PagerEvent DecodedPage) :=
  (List.range 64).flatMap (fun i => [.get (i + 1), .unref (i + 1)]) ++ [.frames (.readHead 65)]

/-- With a cache full of clean pages, the header page takes the place of the free page that was just
loaded, and the free page takes the place of the header page. -/
theorem takeHead_dangling :
    ¬FramesStay faultlessDisk
      ((opened freedLastFile freedLastPage).run faultlessDisk readAllPages)
      (.takeHead 65 0 .btreeLeaf (by decide)) := by
  intro hStay
  exact hStay.1 (by decide +kernel)

end CachedPager

end Stoneleaf
