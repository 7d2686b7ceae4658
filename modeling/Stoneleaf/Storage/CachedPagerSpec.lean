import Stoneleaf.Storage.CachedPager
import Stoneleaf.Storage.PagerView

/-!
What the critical sections of the pager do to the cache. They keep the frames in step with the file,
and placing a frame evicts at most one page, the one that `PCache.victim` names, whether it was
clean or had to be flushed first.
-/

namespace Stoneleaf

open Function Library List PCache

namespace CachedPager

open Program

variable {P : Type}

/-- The content of a page is that of its frame, or its image in the file. -/
def view (s : CachedPager P) : PagerView P where
  pages n := ((s.cache.get n).map PageFrame.data).getD (s.file n)
  walPending n := (s.cache.get n).any PageFrame.walPending
  dbHeader := s.dbHeader

/-- The cache is sound, and every address is in the past. -/
structure Sound (s : CachedPager P) : Prop where
  cache : s.cache.Sound
  address_lt : ∀ n page, s.cache.get n = some page → page.address < s.nextAddress

/-- A frame is clean and agrees with the file, or it is dirty, known to be so and will be written.
Between the marking and the installation of an LSN it may hold bytes without a checksum. -/
structure FrameOk (env : DiskEnv P) (s : CachedPager P) (n : PageNum) (page : PageFrame P) :
    Prop where
  clean : page.isDirty = false → page.data = s.file n
  flush : page.isDirty = true → page.needFlushing = true
  pending : page.walPending = true → page.isDirty = true
  summed : page.isDirty = true → page.walPending = false →
    env.updateChecksum page.data = page.data
  listed : page.isDirty = true → n ∈ s.walDirtyPages

structure Coherent (env : DiskEnv P) (s : CachedPager P) : Prop extends s.Sound where
  frames : ∀ n page, s.cache.get n = some page → FrameOk env s n page

section Rules

variable {s : CachedPager P} {failed : PagerError → CachedPager P → Prop}
  {halted : CachedPager P → Prop}

theorem wp_onCache {α : Type} {x : CacheOp P α} {okay : α → CachedPager P → Prop} :
    (onCache x).wp s okay failed halted ↔
      x.wp s.cache (fun a cache => okay a { s with cache := cache }) (fun _ _ => True)
        fun cache => halted { s with cache := cache } := by
  unfold wp onCache
  cases x s.cache with
  | ok a cache => rfl
  | fail e cache => exact nomatch e
  | halt cache => rfl

@[simp] theorem wp_failWith {α : Type} {result : PagerResult} {okay : α → CachedPager P → Prop} :
    (failWith result).wp s okay failed halted ↔ failed (.status result) s :=
  Iff.rfl

@[simp] theorem wp_ioFault {env : DiskEnv P} {okay : Bool → CachedPager P → Prop} :
    (ioFault env).wp s okay failed halted ↔
      okay (env.ioFails s.calls) { s with calls := s.calls + 1 } :=
  Iff.rfl

@[simp] theorem wp_newAddress {okay : Nat → CachedPager P → Prop} :
    (newAddress : PagerOp P Nat).wp s okay failed halted ↔
      okay s.nextAddress { s with nextAddress := s.nextAddress + 1 } :=
  Iff.rfl

end Rules

section Coherent

variable {env : DiskEnv P} {s s' : CachedPager P} {n : PageNum} {page : PageFrame P}

theorem FrameOk.mono (h : FrameOk env s n page) (hFile : s'.file n = s.file n)
    (hListed : n ∈ s.walDirtyPages → n ∈ s'.walDirtyPages) : FrameOk env s' n page :=
  ⟨fun hClean => (h.clean hClean).trans hFile.symm, h.flush, h.pending, h.summed,
    fun hDirty => hListed (h.listed hDirty)⟩

theorem coherent_opened (env : DiskEnv P) (file : PageNum → P) (dbHeader : DBHeader) :
    Coherent env (opened file dbHeader) where
  cache := .empty 64
  address_lt n page hGet := by simp [opened, PCache.empty, PCache.get] at hGet
  frames n page hGet := by simp [opened, PCache.empty, PCache.get] at hGet

/-- One frame changes, with its entry in the file and the set of dirty pages. -/
theorem Coherent.update (h : Coherent env s) {f : PageFrame P → PageFrame P}
    (hPage : s.cache.get n = some page) (hSound : s'.cache.Sound)
    (hGet : ∀ m, s'.cache.get m = (s.cache.update n f).get m)
    (hAddress : s'.nextAddress = s.nextAddress) (hKeep : (f page).address = page.address)
    (hFile : ∀ m, m ≠ n → s'.file m = s.file m)
    (hListed : ∀ m, m ≠ n → m ∈ s.walDirtyPages → m ∈ s'.walDirtyPages)
    (hFrame : FrameOk env s' n (f page)) : Coherent env s' := by
  have hCases : ∀ m frame, s'.cache.get m = some frame →
      (m = n ∧ frame = f page) ∨ (m ≠ n ∧ s.cache.get m = some frame) := by
    intro m frame hNew
    rcases get_update_eq_some ((hGet m).symm.trans hNew) with ⟨hEq, old, hOld, rfl⟩ | hOther
    · rw [hPage, Option.some.injEq] at hOld
      exact .inl ⟨hEq, by rw [hOld]⟩
    · exact .inr hOther
  refine ⟨⟨hSound, ?_⟩, ?_⟩
  · intro m frame hNew
    rw [hAddress]
    rcases hCases m frame hNew with ⟨-, rfl⟩ | ⟨-, hOld⟩
    · rw [hKeep]
      exact h.address_lt n page hPage
    · exact h.address_lt m frame hOld
  · intro m frame hNew
    rcases hCases m frame hNew with ⟨rfl, rfl⟩ | ⟨hNe, hOld⟩
    · exact hFrame
    · exact (h.frames m frame hOld).mono (hFile m hNe) (hListed m hNe)

/-- A new address, a call on the file: no frame is touched. -/
theorem Coherent.of_eq (h : Coherent env s) (hCache : s'.cache = s.cache) (hFile : s'.file = s.file)
    (hListed : ∀ m page, s.cache.get m = some page → m ∈ s.walDirtyPages → m ∈ s'.walDirtyPages)
    (hAddress : s.nextAddress ≤ s'.nextAddress) : Coherent env s' := by
  refine ⟨⟨by rw [hCache]; exact h.cache, ?_⟩, ?_⟩
  all_goals
    intro m page hGet
    rw [hCache] at hGet
  · exact (h.address_lt m page hGet).trans_le hAddress
  · exact (h.frames m page hGet).mono (by rw [hFile]) (hListed m page hGet)

theorem mem_forgetPage {m : PageNum} (hNe : m ≠ n) (hMem : m ∈ s.walDirtyPages) :
    m ∈ (forgetPage n s).walDirtyPages := by
  simp [forgetPage, hMem, hNe]

theorem Coherent.forgetPage (h : Coherent env s) (hNone : s.cache.get n = none) :
    Coherent env (forgetPage n s) := by
  refine h.of_eq rfl rfl (fun m page hGet => mem_forgetPage ?_) (Nat.le_refl _)
  rintro rfl
  simp [hNone] at hGet

end Coherent

section Flush

variable {env : DiskEnv P} {s : CachedPager P} {n : PageNum} {page : PageFrame P}

/-- A frame whose image has gone to the file. -/
def written (env : DiskEnv P) (page : PageFrame P) : PageFrame P :=
  { page with data := env.updateChecksum page.data, isDirty := false, needFlushing := false }

/-- The state after the image of a page has gone to the file. -/
def flushed (env : DiskEnv P) (n : PageNum) (page : PageFrame P) (s : CachedPager P) :
    CachedPager P :=
  forgetPage n
    { s with
      cache := s.cache.update n (written env)
      file := update s.file n (env.updateChecksum page.data)
      durableLsn := max s.durableLsn (env.format.pageLsn page.data)
      calls := s.calls + 2 }

theorem Coherent.flushed (h : Coherent env s) (hPage : s.cache.get n = some page)
    (hPending : page.walPending = false) : Coherent env (flushed env n page s) := by
  refine h.update hPage (h.cache.update n (fun _ => rfl) fun _ => Iff.rfl) (fun _ => rfl) rfl rfl
    (fun m hNe => update_of_ne hNe _ _) (fun m hNe => mem_forgetPage hNe) ?_
  refine ⟨fun _ => (update_self n _ s.file).symm, ?_, ?_, ?_, ?_⟩
  all_goals simp [written, hPending]

/-- A change that takes values from the frame it changes. -/
theorem update_congr {f g : PageFrame P → PageFrame P} {cache : PCache P}
    (hPage : cache.get n = some page) (hEq : f page = g page) :
    cache.update n f = cache.update n g := by
  simp only [PCache.update, hPage, hEq]

/-- A flush leaves the frames coherent, and the image of a dirty page goes to the file. -/
theorem flushWalPage_spec (h : Coherent env s) (n : PageNum) :
    (flushWalPage env n).wp s
      (fun _ s' => Coherent env s' ∧ ∀ page, s.cache.get n = some page → page.isDirty = true →
        s' = flushed env n page s)
      (fun e s' => e ≠ .dangling ∧ Coherent env s' ∧
        ∀ m, (s'.cache.get m).isSome = (s.cache.get m).isSome) fun _ => False := by
  simp only [flushWalPage, wp_bind, wp_read]
  cases hPage : s.cache.get n with
  | none => exact ⟨h.forgetPage hPage, by simp⟩
  | some page =>
    simp only [wp_ite, wp_bind, wp_failWith, wp_ioFault, wp_modify]
    refine ⟨fun _ => ⟨by simp, h, fun _ => trivial⟩, fun hPending => ?_⟩
    rw [Bool.not_eq_true] at hPending
    have hFrame := h.frames n page hPage
    refine ⟨fun hDirty => ?_, fun hDirty => ?_⟩
    · rw [Bool.not_eq_true'] at hDirty
      refine ⟨?_, by simp [hDirty]⟩
      refine h.update hPage (h.cache.update n (fun _ => rfl) fun _ => Iff.rfl)
        (fun _ => rfl) rfl rfl (fun _ _ => rfl) (fun m hNe => mem_forgetPage hNe) ?_
      refine ⟨hFrame.clean, ?_, hFrame.pending, hFrame.summed, ?_⟩
      all_goals simp [hDirty]
    simp only [Bool.not_eq_true', Bool.not_eq_false] at hDirty
    refine ⟨fun _ => ⟨by simp, h, fun _ => trivial⟩, fun hLsn => ?_⟩
    refine ⟨fun _ => ⟨by simp, ?_, fun _ => trivial⟩, fun _ => ?_⟩
    · exact h.of_eq rfl rfl (fun _ _ _ hMem => hMem) (Nat.le_refl _)
    refine ⟨fun _ => ⟨by simp, ?_, fun m => isSome_get_update _ _ _ _⟩, fun _ => ?_⟩
    · refine h.update hPage (h.cache.update n (fun _ => rfl) fun _ => Iff.rfl)
        (fun _ => rfl) rfl rfl (fun _ _ => rfl) (fun _ _ hMem => hMem) ?_
      have hSum := hFrame.summed hDirty hPending
      refine ⟨?_, hFrame.flush, hFrame.pending, ?_, hFrame.listed⟩
      · simp [hDirty]
      · intro _ _
        simp [hSum]
    · rw [update_update, update_congr (g := written env) hPage]
      · refine ⟨h.flushed hPage hPending, fun page' hPage' _ => ?_⟩
        cases hPage'
        rfl
      · rfl

end Flush

section Victims

variable {cache : PCache P} {v : PageFrame P} {f : PageFrame P → PageFrame P}

open PCache

theorem victim_get (h : cache.Sound) (hVictim : cache.victim = some v) :
    cache.get v.pageNum = some v ∧ v.pageNum ∈ cache.unpinnedPages :=
  (mem_candidates h.toLinked).1 (mem_candidates_of_victim hVictim)

theorem not_pending_of_victim (hVictim : cache.victim = some v) : v.walPending = false := by
  rw [victim, findVictim_fst, Option.none_or, Option.or_eq_some_iff] at hVictim
  rcases hVictim with hFind | ⟨-, hFind⟩
  all_goals
    have hEligible := find?_some hFind
    simp only [eligible, Bool.and_eq_true, Bool.not_eq_true'] at hEligible
    exact hEligible.1

/-- A victim that was dirty and is clean now is the victim still. -/
theorem victim_update (h : cache.Sound) (hVictim : cache.victim = some v)
    (hDirty : v.isDirty = true)
    (hNum : ∀ page, (f page).pageNum = page.pageNum)
    (hPending : ∀ page, (f page).walPending = page.walPending)
    (hClean : (f v).isDirty = false) :
    (cache.update v.pageNum f).victim = some (f v) := by
  have hLinked := h.toLinked.update v.pageNum hNum
  obtain ⟨hGet, hMem⟩ := victim_get h hVictim
  have hGet' : (cache.update v.pageNum f).get v.pageNum = some (f v) := by
    rw [get_update_self, hGet, Option.map_some]
  have hFind : cache.candidates.find? (eligible false) = none ∧
      cache.candidates.find? (eligible true) = some v := by
    rw [victim, findVictim_fst, Option.none_or, Option.or_eq_some_iff] at hVictim
    rcases hVictim with hFind | hFind
    · have hEligible := find?_some hFind
      simp [eligible, hDirty] at hEligible
    · exact hFind
  have hEligible : eligible false (f v) = true := by
    have hOld := find?_some hFind.2
    simp only [eligible, Bool.and_eq_true, Bool.not_eq_true'] at hOld
    simp [eligible, hPending, hOld.1, hClean]
  -- every other clean candidate was one before
  have hOnly : ∀ w ∈ (cache.update v.pageNum f).candidates, eligible false w = true → w = f v := by
    intro w hW hWClean
    obtain ⟨hGetW, hMemW⟩ := (mem_candidates hLinked).1 hW
    by_cases hEq : w.pageNum = v.pageNum
    · rw [hEq, hGet'] at hGetW
      exact (Option.some.inj hGetW).symm
    · rw [get_update_ne cache f hEq] at hGetW
      rw [unpinnedPages_update] at hMemW
      have hOld := (mem_candidates h.toLinked).2 ⟨hGetW, hMemW⟩
      exact absurd hWClean (find?_eq_none.1 hFind.1 w hOld)
  have hCandidate : f v ∈ (cache.update v.pageNum f).candidates := by
    rw [mem_candidates hLinked, hNum, unpinnedPages_update]
    exact ⟨hGet', hMem⟩
  rw [victim, findVictim_fst]
  cases hFound : (cache.update v.pageNum f).candidates.find? (eligible false) with
  | none => exact absurd hEligible (find?_eq_none.1 hFound _ hCandidate)
  | some w =>
    rw [hOnly w (mem_of_find?_eq_some hFound) (find?_some hFound)]
    rfl

/-- A clean frame at the end of the list is the next victim. -/
theorem victim_of_last {rest : List PageNum}
    (hList : cache.unpinnedPages = rest ++ [v.pageNum])
    (hGet : cache.get v.pageNum = some v) (hClean : eligible false v = true) :
    cache.victim = some v := by
  have hCandidates : ∃ others, cache.candidates = v :: others := by
    simp [candidates, hList, hGet]
  obtain ⟨others, hOthers⟩ := hCandidates
  rw [victim, findVictim_fst, hOthers, find?_cons_of_pos hClean]
  rfl

end Victims

section Put

variable {env : DiskEnv P} {s s' : CachedPager P} {page : PageFrame P}

/-- The page that the next placement takes out. -/
def gone (s : CachedPager P) : Option PageNum :=
  if s.cache.length = s.cache.capacity then s.cache.victim.map PageFrame.pageNum else none

/-- The page that goes is resident. -/
theorem get_of_gone {n : PageNum} (h : s.cache.Sound) (hGone : s.gone = some n) :
    (s.cache.get n).isSome := by
  unfold gone at hGone
  split at hGone
  · obtain ⟨v, hVictim, rfl⟩ := Option.map_eq_some_iff.1 hGone
    simp [(victim_get h hVictim).1]
  · cases hGone

/-- What a placement does to the cache, in terms of the state before it. -/
structure Placed (page : PageFrame P) (s s' : CachedPager P) : Prop where
  sound : s'.cache.Sound
  get_self : s'.cache.get page.pageNum = some page
  get_gone : ∀ n, s.gone = some n → s'.cache.get n = none
  get_other : ∀ n, n ≠ page.pageNum → s.gone ≠ some n → s'.cache.get n = s.cache.get n
  last : page.refsNum = 0 → ∃ rest, s'.cache.unpinnedPages = rest ++ [page.pageNum]
  full : s.cache.length = s.cache.capacity → s'.cache.length = s.cache.length ∧ s.gone.isSome
  room : s.cache.length ≠ s.cache.capacity → s'.cache.length = s.cache.length + 1
  capacity : s'.cache.capacity = s.cache.capacity
  nextAddress : s'.nextAddress = s.nextAddress
  dbHeader : s'.dbHeader = s.dbHeader
  file : ∀ n, s.gone ≠ some n → s'.file n = s.file n
  file_gone : ∀ n old, s.gone = some n → s.cache.get n = some old → s'.file n = old.data
  listed : ∀ n, s.gone ≠ some n → n ∈ s.walDirtyPages → n ∈ s'.walDirtyPages

theorem last_enter (cache : PCache P) (hRefs : page.refsNum = 0) :
    ∃ rest, (cache.enter page).unpinnedPages = rest ++ [page.pageNum] :=
  ⟨cache.unpinnedPages.erase page.pageNum, by
    simp [PCache.enter, PCache.insert, hRefs, PCache.listAdd]⟩

theorem placed_of_room (h : s.cache.Sound) (hNone : s.cache.get page.pageNum = none)
    (hRoom : s.cache.length ≠ s.cache.capacity) :
    Placed page s { s with cache := s.cache.enter page } where
  sound := h.enter hNone (lt_of_le_of_ne h.length_le hRoom)
  get_self := get_enter_self _ _
  get_gone n hGone := by simp [gone, hRoom] at hGone
  get_other n hNe _ := get_enter_ne _ hNe
  last := last_enter _
  full hFull := absurd hFull hRoom
  room _ := rfl
  capacity := rfl
  nextAddress := rfl
  dbHeader := rfl
  file _ _ := rfl
  file_gone n old hGone := by simp [gone, hRoom] at hGone
  listed _ _ hMem := hMem

/-- A placement that takes a victim out. -/
theorem placed_of_drop {v : PageFrame P} (h : s.cache.Sound)
    (hNone : s.cache.get page.pageNum = none) (hFull : s.cache.length = s.cache.capacity)
    (hVictim : s.cache.victim = some v) (hCache : s'.cache = (s.cache.drop v.pageNum).enter page)
    (hAddress : s'.nextAddress = s.nextAddress) (hHeader : s'.dbHeader = s.dbHeader)
    (hFile : ∀ n, n ≠ v.pageNum → s'.file n = s.file n) (hWritten : s'.file v.pageNum = v.data)
    (hListed : ∀ n, n ≠ v.pageNum → n ∈ s.walDirtyPages → n ∈ s'.walDirtyPages) :
    Placed page s s' := by
  have hGone : s.gone = some v.pageNum := by simp [gone, hFull, hVictim]
  have hOther : ∀ n, s.gone ≠ some n → n ≠ v.pageNum := fun n hN hEq => hN (by rw [hGone, hEq])
  have hGet := (victim_get h hVictim).1
  have hSome : (s.cache.get v.pageNum).isSome := by simp [hGet]
  have hNe : page.pageNum ≠ v.pageNum := by
    intro hEq
    simp [← hEq, hNone] at hSome
  have hPos : 0 < s.cache.length := by
    rw [h.length_eq]
    exact length_pos_of_mem (mem_keys_iff.2 hSome)
  have hGone' : ∀ n old, s.gone = some n → s.cache.get n = some old → s'.file n = old.data := by
    intro n old hN hOld
    obtain rfl := Option.some.inj (hGone.symm.trans hN)
    obtain rfl := Option.some.inj (hGet.symm.trans hOld)
    exact hWritten
  refine ⟨?_, ?_, ?_, ?_, ?_, ?_, fun hRoom => absurd hFull hRoom, ?_, hAddress, hHeader,
    fun n hN => hFile n (hOther n hN), hGone', fun n hN => hListed n (hOther n hN)⟩
  all_goals rw [hCache]
  · exact h.replace hNone hVictim
  · rw [get_enter_self]
  · intro n hN
    rw [hGone] at hN
    cases hN
    rw [get_enter_ne _ (Ne.symm hNe), get_drop_self]
  · intro n hN hStay
    rw [get_enter_ne _ hN, get_drop_ne _ (hOther n hStay)]
  · exact last_enter _
  · intro _
    refine ⟨?_, by simp [hGone]⟩
    show s.cache.length - 1 + 1 = s.cache.length
    omega
  · rfl

theorem Placed.coherent (hPlaced : Placed page s s') (h : Coherent env s)
    (hNone : s.cache.get page.pageNum = none) (hAddress : page.address < s.nextAddress)
    (hFrame : FrameOk env s page.pageNum page) : Coherent env s' := by
  have hSelf : s.gone ≠ some page.pageNum := by
    intro hGone
    have hSome := get_of_gone h.cache hGone
    simp [hNone] at hSome
  have hGet : ∀ m old, s'.cache.get m = some old →
      (m = page.pageNum ∧ old = page) ∨ (s.gone ≠ some m ∧ s.cache.get m = some old) := by
    intro m old hOld
    by_cases hEq : m = page.pageNum
    · rw [hEq, hPlaced.get_self] at hOld
      exact .inl ⟨hEq, (Option.some.inj hOld).symm⟩
    · have hStay : s.gone ≠ some m := by
        intro hGone
        rw [hPlaced.get_gone m hGone] at hOld
        cases hOld
      rw [hPlaced.get_other m hEq hStay] at hOld
      exact .inr ⟨hStay, hOld⟩
  refine ⟨⟨hPlaced.sound, ?_⟩, ?_⟩
  · intro m old hOld
    rw [hPlaced.nextAddress]
    rcases hGet m old hOld with ⟨-, rfl⟩ | ⟨-, hOld⟩
    · exact hAddress
    · exact h.address_lt m old hOld
  · intro m old hOld
    rcases hGet m old hOld with ⟨rfl, rfl⟩ | ⟨hStay, hOld⟩
    · exact hFrame.mono (hPlaced.file _ hSelf) (hPlaced.listed _ hSelf)
    · exact (h.frames m old hOld).mono (hPlaced.file m hStay) (hPlaced.listed m hStay)

/-- A placement shows the new page, and the page that goes keeps its content in the file. -/
theorem Placed.view (hPlaced : Placed page s s') (h : Coherent env s) :
    s'.view = ⟨update s.view.pages page.pageNum page.data,
      update s.view.walPending page.pageNum page.walPending, s.dbHeader⟩ := by
  have hBoth : ∀ n, s'.view.pages n = update s.view.pages page.pageNum page.data n ∧
      s'.view.walPending n = update s.view.walPending page.pageNum page.walPending n := by
    intro n
    by_cases hEq : n = page.pageNum
    · subst hEq
      simp [CachedPager.view, hPlaced.get_self]
    rw [update_of_ne hEq, update_of_ne hEq]
    by_cases hGone : s.gone = some n
    · obtain ⟨old, hOld⟩ := Option.isSome_iff_exists.1 (get_of_gone h.cache hGone)
      have hPending : old.walPending = false := by
        unfold gone at hGone
        split at hGone
        · obtain ⟨v, hVictim, rfl⟩ := Option.map_eq_some_iff.1 hGone
          obtain rfl := Option.some.inj ((victim_get h.cache hVictim).1.symm.trans hOld)
          exact not_pending_of_victim hVictim
        · cases hGone
      simp [CachedPager.view, hPlaced.get_gone n hGone, hOld, hPending,
        hPlaced.file_gone n old hGone hOld]
    · simp [CachedPager.view, hPlaced.get_other n hEq hGone, hPlaced.file n hGone]
  rw [← hPlaced.dbHeader, ← funext fun n => (hBoth n).1, ← funext fun n => (hBoth n).2]
  rfl

theorem cachePut_spec (h : Coherent env s) (hNone : s.cache.get page.pageNum = none) :
    (cachePut env page).wp s (fun _ s' => Placed page s s')
      (fun e s' => e ≠ .dangling ∧ Coherent env s' ∧ s'.cache.get page.pageNum = none)
      fun _ => False := by
  rw [cachePut, wp_bind, wp_onCache]
  refine wp_weaken (put_spec h.cache hNone) ?_ (fun _ _ _ => trivial)
  intro result cache hStep
  cases hStep with
  | room hRoom => exact placed_of_room h.cache hNone hRoom
  | full hFull hVictim status hStatus =>
    rcases hStatus with rfl | rfl <;> exact ⟨by simp, h, hNone⟩
  | flush hFull v hVictim hFlush =>
    rw [if_pos rfl, wp_bind]
    refine wp_weaken (flushWalPage_spec h v.pageNum) ?_ ?_
    swap
    · rintro e s' ⟨hError, hCoherent, hSame⟩
      exact ⟨hError, hCoherent, by simpa [hNone] using hSame page.pageNum⟩
    rintro _ middle ⟨hMiddle, hFlushed⟩
    have hGet := (victim_get h.cache hVictim).1
    obtain rfl := hFlushed v hGet hFlush.1
    have hNext : (s.cache.update v.pageNum (written env)).victim = some (written env v) :=
      victim_update h.cache hVictim hFlush.1 (fun _ => rfl) (fun _ => rfl) rfl
    have hFull' : (s.cache.update v.pageNum (written env)).length =
        (s.cache.update v.pageNum (written env)).capacity := by
      rw [length_update, capacity_update, hFull]
    have hNone' : (s.cache.update v.pageNum (written env)).get page.pageNum = none := by
      rw [← Option.not_isSome_iff_eq_none, isSome_get_update, hNone]
      simp
    rw [wp_bind, wp_onCache]
    refine wp_weaken (put_spec hMiddle.cache hNone') ?_ (fun _ _ _ => trivial)
    intro result cache hStep
    cases hStep with
    | room hRoom => exact absurd hFull' hRoom
    | full _ hVictim' => exact absurd (hNext.symm.trans hVictim') (by simp)
    | flush _ v' hVictim' hFlush' =>
      cases hNext.symm.trans hVictim'
      simp [written] at hFlush'
    | evict _ v' hVictim' hKeep =>
      cases hNext.symm.trans hVictim'
      refine placed_of_drop h.cache hNone hFull hVictim ?_ rfl rfl
        (fun n hN => update_of_ne hN _ _) ?_ fun n hN => mem_forgetPage hN
      · exact congrArg (PCache.enter page) (drop_update _ _ _)
      · exact (update_self _ _ _).trans
          ((h.frames _ v hGet).summed hFlush.1 (not_pending_of_victim hVictim))
  | evict hFull v hVictim hKeep =>
    rw [if_neg (by simp)]
    have hFrame := h.frames _ v (victim_get h.cache hVictim).1
    simp only [finishPut, handleCacheEviction]
    cases hDirty : v.isDirty with
    | false =>
      exact placed_of_drop h.cache hNone hFull hVictim rfl rfl rfl (fun _ _ => rfl)
        (hFrame.clean hDirty).symm fun _ _ => id
    | true => exact absurd ⟨hDirty, hFrame.flush hDirty⟩ hKeep

end Put

section Load

variable {env : DiskEnv P} {s s' : CachedPager P} {n : PageNum} {ptr : FramePtr}

/-- The frame of a page that has just been read. -/
def loadedFrame (n : PageNum) (s : CachedPager P) : PageFrame P :=
  ⟨s.nextAddress, n, s.file n, 0, false, false, false⟩

/-- The state between the read of a page and its placement. -/
def afterRead (s : CachedPager P) : CachedPager P :=
  { s with calls := s.calls + 1, nextAddress := s.nextAddress + 1 }

/-- How a page is found in the cache or loaded. -/
inductive Load (n : PageNum) (s : CachedPager P) : FramePtr → CachedPager P → Prop where
  | hit (page : PageFrame P) (hPage : s.cache.get n = some page) : Load n s ⟨n, page.address⟩ s
  | miss (s' : CachedPager P) (hPage : s.cache.get n = none)
      (hPlaced : Placed (loadedFrame n s) (afterRead s) s') : Load n s ⟨n, s.nextAddress⟩ s'

theorem Load.pageNum_eq (h : Load n s ptr s') : ptr.pageNum = n := by
  cases h <;> rfl

theorem Coherent.afterRead (h : Coherent env s) : Coherent env (afterRead s) :=
  h.of_eq rfl rfl (fun _ _ _ hMem => hMem) (Nat.le_succ _)

theorem Load.coherent (hLoad : Load n s ptr s') (h : Coherent env s) : Coherent env s' := by
  cases hLoad with
  | hit => exact h
  | miss _ hPage hPlaced =>
    refine hPlaced.coherent h.afterRead hPage (Nat.lt_succ_self _) ⟨fun _ => rfl, ?_, ?_, ?_, ?_⟩
    all_goals simp [loadedFrame]

/-- Loading a page changes nothing that can be seen. -/
theorem Load.view (hLoad : Load n s ptr s') (h : Coherent env s) : s'.view = s.view := by
  cases hLoad with
  | hit => rfl
  | miss _ hPage hPlaced =>
    have hData : s.file n = s.view.pages n := by simp [CachedPager.view, hPage]
    have hPending : false = s.view.walPending n := by simp [CachedPager.view, hPage]
    rw [hPlaced.view h.afterRead]
    change PagerView.mk (update s.view.pages n (s.file n))
      (update s.view.walPending n false) s.dbHeader = _
    rw [hData, hPending, update_eq_self, update_eq_self]
    rfl

theorem getOrLoadPage_spec (h : Coherent env s) (n : PageNum) :
    (getOrLoadPage env n).wp s (Load n s) (fun e s' => e ≠ .dangling ∧ Coherent env s')
      fun _ => False := by
  simp only [getOrLoadPage, wp_bind, wp_read]
  cases hPage : s.cache.get n with
  | some page => exact .hit page hPage
  | none =>
    simp only [readPageFromDisk, wp_bind, wp_ite, wp_read, wp_failWith, wp_ioFault,
      wp_newAddress, wp_pure]
    have hCalled : Coherent env { s with calls := s.calls + 1 } :=
      h.of_eq rfl rfl (fun _ _ _ hMem => hMem) (Nat.le_refl _)
    refine ⟨fun _ => ⟨by simp, h⟩, fun _ => ⟨fun _ => ⟨by simp, hCalled⟩, fun _ => ?_⟩⟩
    refine ⟨fun _ => ⟨by simp, hCalled⟩, fun _ => ?_⟩
    refine wp_weaken (cachePut_spec h.afterRead hPage) ?_ ?_
    · exact fun _ s' hPlaced => .miss s' hPage hPlaced
    · exact fun e s' hFail => ⟨hFail.1, hFail.2.1⟩

end Load

end CachedPager

end Stoneleaf
