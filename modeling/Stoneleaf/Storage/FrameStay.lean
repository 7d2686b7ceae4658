import Mathlib.Data.Finset.Card
import Stoneleaf.Storage.CachedPagerSpec

/-!
Whether the frames that `allocate_page` and `free_page` load are still there when they are used.
A page that was just loaded is clean, unpinned and at the end of the list, so it is the first one
to go when the next page of the same call needs a place.
-/

namespace Stoneleaf

open Function Library List PCache
open PagerView (beside linked walPending_marks walPending_linked walPending_mark_self
  pages_setHeader)

namespace CachedPager

open Program

variable {P : Type} {page : PageFrame P} {α : Type}

/-- The pointer still denotes the resident frame of its page. -/
def Denotes (s : CachedPager P) (ptr : FramePtr) : Prop :=
  ∃ page, s.cache.get ptr.pageNum = some page ∧ page.address = ptr.address

/-- The pages that would have to be read. -/
def missing (s : CachedPager P) (pages : List PageNum) : Finset PageNum :=
  pages.toFinset.filter fun n => (s.cache.get n).isNone

/-- The places that are not taken. -/
def free (s : CachedPager P) : Nat :=
  s.cache.capacity - s.cache.length

/-- There is a place for every missing page, or only one page is missing and none of the pages
has to go for it. -/
def Fits (s : CachedPager P) (pages : List PageNum) : Prop :=
  (s.missing pages).card ≤ s.free ∨
    ((s.missing pages).card = 1 ∧ ∀ n, s.gone = some n → n ∉ pages)

/-- A sequence of loads and the pointers they give. -/
inductive Loads : CachedPager P → List PageNum → List FramePtr → CachedPager P → Prop where
  | nil (s : CachedPager P) : Loads s [] [] s
  | cons {s middle s' : CachedPager P} {n : PageNum} {ns : List PageNum} {ptr : FramePtr}
      {ptrs : List FramePtr} (hLoad : Load n s ptr middle) (hRest : Loads middle ns ptrs s') :
      Loads s (n :: ns) (ptr :: ptrs) s'

section Missing

variable {s s' : CachedPager P} {n m : PageNum} {ns : List PageNum}

theorem mem_missing : m ∈ s.missing ns ↔ m ∈ ns ∧ s.cache.get m = none := by
  simp [missing]

theorem missing_cons_of_some (h : (s.cache.get n).isSome) :
    s.missing (n :: ns) = s.missing ns := by
  ext m
  simp only [mem_missing, mem_cons, and_congr_left_iff, or_iff_right_iff_imp]
  rintro hNone rfl
  simp [hNone] at h

theorem card_missing_pos (h : s.cache.get n = none) : 0 < (s.missing (n :: ns)).card :=
  Finset.card_pos.2 ⟨n, mem_missing.2 ⟨mem_cons_self, h⟩⟩

/-- A page goes only if there is no free place. -/
theorem free_of_gone (h : s.gone = some n) : s.free = 0 := by
  unfold gone at h
  split at h
  · rename_i hFull
    simp [free, hFull]
  · cases h

end Missing

section Loads

variable {env : DiskEnv P} {s s' : CachedPager P} {n : PageNum} {ns : List PageNum}
  {ptr : FramePtr} {ptrs held : List FramePtr}

/-- A pointer that has lost its frame does not get it back. -/
theorem Load.not_denotes (hLoad : Load n s ptr s') {old : FramePtr}
    (hAddress : old.address < s.nextAddress) (hNot : ¬s.Denotes old) : ¬s'.Denotes old := by
  cases hLoad with
  | hit => exact hNot
  | miss _ hPage hPlaced =>
    rintro ⟨page, hGet, hEq⟩
    by_cases hNum : old.pageNum = n
    · rw [hNum, show n = (loadedFrame n s).pageNum from rfl, hPlaced.get_self] at hGet
      cases hGet
      exact Nat.ne_of_gt hAddress hEq
    · by_cases hGone : (afterRead s).gone = some old.pageNum
      · rw [hPlaced.get_gone _ hGone] at hGet
        cases hGet
      · rw [hPlaced.get_other _ hNum hGone] at hGet
        exact hNot ⟨page, hGet, hEq⟩

theorem Load.nextAddress_le (hLoad : Load n s ptr s') : s.nextAddress ≤ s'.nextAddress := by
  cases hLoad with
  | hit => exact Nat.le_refl _
  | miss _ _ hPlaced =>
    rw [hPlaced.nextAddress]
    exact Nat.le_succ _

theorem Loads.not_denotes (hLoads : Loads s ns ptrs s') {old : FramePtr}
    (hAddress : old.address < s.nextAddress) (hNot : ¬s.Denotes old) : ¬s'.Denotes old := by
  induction hLoads with
  | nil => exact hNot
  | cons hLoad _ ih =>
    exact ih (hAddress.trans_le hLoad.nextAddress_le) (hLoad.not_denotes hAddress hNot)

theorem Denotes.address_lt (h : s.Sound) (hDenotes : s.Denotes ptr) :
    ptr.address < s.nextAddress := by
  obtain ⟨page, hGet, hEq⟩ := hDenotes
  rw [← hEq]
  exact h.address_lt _ page hGet

theorem Load.denotes_self (hLoad : Load n s ptr s') : s'.Denotes ptr := by
  cases hLoad with
  | hit page hHit => exact ⟨page, hHit, rfl⟩
  | miss _ _ hPlaced => exact ⟨_, hPlaced.get_self, rfl⟩

section Miss

variable (hPage : s.cache.get n = none) (hPlaced : Placed (loadedFrame n s) (afterRead s) s')
include hPlaced

/-- The page of the last load is the next one to go. -/
theorem gone_of_miss (hFree : s'.free = 0) : s'.gone = some n := by
  obtain ⟨rest, hList⟩ := hPlaced.last rfl
  have hVictim := victim_of_last hList hPlaced.get_self (by simp [PCache.eligible, loadedFrame])
  have hFull : s'.cache.length = s'.cache.capacity := by
    have hLe := hPlaced.sound.length_le
    unfold free at hFree
    omega
  simp [gone, hFull, hVictim, loadedFrame]

include hPage

/-- Pointers survive a load that does not take their page out. -/
theorem denotes_of_miss (hHeld : ∀ q ∈ held, s.Denotes q)
    (hGone : ∀ q ∈ held, s.gone ≠ some q.pageNum) :
    ∀ q ∈ held ++ [⟨n, s.nextAddress⟩], s'.Denotes q := by
  intro q hQ
  rcases mem_append.1 hQ with hQ | hQ
  · obtain ⟨page, hGet, hEq⟩ := hHeld q hQ
    have hNum : q.pageNum ≠ n := by
      intro hNum
      rw [hNum, hPage] at hGet
      cases hGet
    refine ⟨page, ?_, hEq⟩
    rw [hPlaced.get_other _ hNum (hGone q hQ), ← hGet]
    rfl
  · rw [mem_singleton.1 hQ]
    exact ⟨_, hPlaced.get_self, rfl⟩

/-- After a load its page is there, and the page that went has to be read again. -/
theorem missing_of_miss (h : s.cache.Sound) :
    s'.missing ns = (s.missing (n :: ns)).erase n ∪
      ns.toFinset.filter fun m => s.gone = some m := by
  ext m
  simp only [mem_missing, Finset.mem_union, Finset.mem_erase, Finset.mem_filter, mem_toFinset,
    mem_cons]
  by_cases hEq : m = n
  · subst hEq
    have hSelf : s'.cache.get m = some (loadedFrame m s) := hPlaced.get_self
    have hStay : s.gone ≠ some m := fun hGone => by simpa [hPage] using get_of_gone h hGone
    simp [hSelf, hStay]
  · by_cases hGone : s.gone = some m
    · simp only [hPlaced.get_gone m hGone, hGone]
      tauto
    · have hSame : s'.cache.get m = s.cache.get m := hPlaced.get_other m hEq hGone
      simp [hEq, hGone, hSame]

/-- What is left of the condition after a load that takes out no page that is held. -/
theorem fits_iff_of_miss (h : s.cache.Sound) {pages : List PageNum}
    (hGone : ∀ g, s.gone = some g → g ∉ pages) :
    (s'.missing ns).card ≤ s'.free ↔
      ((s.missing (n :: ns)).card ≤ s.free ∨
        ((s.missing (n :: ns)).card = 1 ∧ ∀ g, s.gone = some g → g ∉ pages ++ n :: ns)) := by
  have hMem : n ∈ s.missing (n :: ns) := mem_missing.2 ⟨mem_cons_self, hPage⟩
  have hErase := Finset.card_erase_add_one hMem
  have hCapacity : s'.cache.capacity = s.cache.capacity := hPlaced.capacity
  rw [missing_of_miss hPage hPlaced h]
  by_cases hFull : s.cache.length = s.cache.capacity
  · obtain ⟨hLength, hSome⟩ := hPlaced.full hFull
    obtain ⟨g, hG⟩ : ∃ g, s.gone = some g := Option.isSome_iff_exists.1 hSome
    have hFree : s'.free = 0 := by
      rw [free, hCapacity, hLength]
      exact free_of_gone hG
    have hNe : g ≠ n := by
      rintro rfl
      simpa [hPage] using get_of_gone h hG
    have hFilter : ns.toFinset.filter (fun m => s.gone = some m) = ∅ ↔ g ∉ ns := by
      simp [hG, Finset.filter_eq]
    have hOne : ((s.missing (n :: ns)).erase n).card = 0 ↔ (s.missing (n :: ns)).card = 1 := by
      omega
    have hPos : ¬(s.missing (n :: ns)).card = 0 := by omega
    rw [hFree, free_of_gone hG, Nat.le_zero, Nat.le_zero, Finset.card_eq_zero,
      Finset.union_eq_empty, ← Finset.card_eq_zero, hFilter]
    simp only [hOne, hPos, hG, Option.some.injEq, forall_eq', mem_append, mem_cons, hGone g hG, hNe,
      false_or]
  · have hFilter : ns.toFinset.filter (fun m => s.gone = some m) = ∅ := by simp [gone, hFull]
    have hFree : s'.free + 1 = s.free := by
      have hLength : s'.cache.length = s.cache.length + 1 := hPlaced.room hFull
      have hLt := lt_of_le_of_ne h.length_le hFull
      simp only [free, hLength, hCapacity]
      omega
    rw [hFilter, Finset.union_empty]
    constructor
    · exact fun hLe => .inl (by omega)
    · rintro (hLe | ⟨hOne, -⟩) <;> omega

end Miss

/-- After a load whose page was missing, only pages that are all there leave it in its place. -/
theorem fits_after_miss (hFree : s.free = 0 → s.gone = some n) {pages : List PageNum}
    (hMem : n ∈ pages) :
    ((s.missing ns).card ≤ s.free ∨ ((s.missing ns).card = 1 ∧ ∀ g, s.gone = some g → g ∉ pages)) ↔
      (s.missing ns).card ≤ s.free := by
  constructor
  · rintro (hLe | ⟨hOne, hNot⟩)
    · exact hLe
    · by_contra hLt
      exact hNot n (hFree (by omega)) hMem
  · exact .inl

/-- All pointers that a call holds or gets are good at the end of its loads exactly if the pages
fit. -/
theorem Loads.denotes_iff (h : Coherent env s) (hLoads : Loads s ns ptrs s')
    (hHeld : ∀ q ∈ held, s.Denotes q) :
    (∀ q ∈ held ++ ptrs, s'.Denotes q) ↔
      ((s.missing ns).card ≤ s.free ∨ ((s.missing ns).card = 1 ∧
          ∀ n, s.gone = some n → n ∉ held.map FramePtr.pageNum ++ ns)) := by
  induction hLoads generalizing held with
  | nil s => simpa [missing] using hHeld
  | @cons s middle s' n ns ptr ptrs hLoad hRest ih =>
    have hAppend : held ++ ptr :: ptrs = (held ++ [ptr]) ++ ptrs := by simp
    have hCoherent := hLoad.coherent h
    have hAddress := hLoad.nextAddress_le
    cases hLoad with
    | hit page hHit =>
      have hHeld' : ∀ q ∈ held ++ [⟨n, page.address⟩], s.Denotes q := by
        intro q hQ
        rcases mem_append.1 hQ with hQ | hQ
        · exact hHeld q hQ
        · rw [mem_singleton.1 hQ]
          exact ⟨page, hHit, rfl⟩
      rw [hAppend, ih h hHeld', missing_cons_of_some (by simp [hHit])]
      simp
    | miss _ hPage hPlaced =>
      have hSelf : n ∈ (held ++ [(⟨n, s.nextAddress⟩ : FramePtr)]).map FramePtr.pageNum ++ ns := by
        simp
      by_cases hOut : ∃ q ∈ held, s.gone = some q.pageNum
      · obtain ⟨q, hQ, hG⟩ := hOut
        have hLost : ¬middle.Denotes q := by
          rintro ⟨page, hGet, -⟩
          rw [hPlaced.get_gone _ hG] at hGet
          cases hGet
        have hOld := ((hHeld q hQ).address_lt h.toSound).trans_le hAddress
        refine iff_of_false (fun hAll => ?_) ?_
        · exact hRest.not_denotes hOld hLost (hAll q (mem_append_left _ hQ))
        · rintro (hLe | ⟨-, hNot⟩)
          · exact absurd (hLe.trans_eq (free_of_gone hG)) (Nat.not_le.2 (card_missing_pos hPage))
          · exact hNot _ hG (mem_append_left _ (mem_map_of_mem hQ))
      · have hKeep := denotes_of_miss hPage hPlaced hHeld fun q hQ hG => hOut ⟨q, hQ, hG⟩
        rw [hAppend, ih hCoherent hKeep, fits_after_miss (gone_of_miss hPlaced) hSelf]
        refine fits_iff_of_miss hPage hPlaced h.cache ?_
        intro g hG hMem
        obtain ⟨q, hQ, rfl⟩ := mem_map.1 hMem
        exact hOut ⟨q, hQ, hG⟩

/-- All pointers of a call are good. -/
def Good (ptrs : List FramePtr) (s : CachedPager P) : Prop :=
  ∀ q ∈ ptrs, s.Denotes q

theorem Loads.good_iff (h : Coherent env s) (hLoads : Loads s ns ptrs s') :
    Good ptrs s' ↔ s.Fits ns := by
  have hNone : ∀ q ∈ ([] : List FramePtr), s.Denotes q := by simp
  exact hLoads.denotes_iff h hNone

end Loads

section Uses

variable {env : DiskEnv P} {s s' : CachedPager P} {n : PageNum} {page : PageFrame P}
  {ptr : FramePtr} {ptrs : List FramePtr} {f : PageFrame P → PageFrame P} {latched : List PageNum}

/-- The bytes of page zero are those of the header in memory. -/
def HeaderCached (env : DiskEnv P) (s : CachedPager P) : Prop :=
  ∃ page image, s.cache.get 0 = some page ∧
    page.data = env.format.serializeHeader s.dbHeader image

theorem deref_eq (h : s.Denotes ptr) :
    ∃ page, s.cache.get ptr.pageNum = some page ∧ deref ptr s = .ok page s := by
  obtain ⟨page, hGet, hEq⟩ := h
  refine ⟨page, hGet, eq_ok_of_wp ?_⟩
  simp [deref, hGet, hEq]

theorem deref_eq_fail (h : ¬s.Denotes ptr) : deref ptr s = .fail .dangling s := by
  refine eq_fail_of_wp ?_
  cases hGet : s.cache.get ptr.pageNum with
  | none => simp [deref, hGet]
  | some page =>
    have hNe : page.address ≠ ptr.address := fun hEq => h ⟨page, hGet, hEq⟩
    simp [deref, hGet, hNe]

/-- A pointer is good after a change of a frame exactly if it was before. -/
theorem denotes_update (hGet : ∀ m, s'.cache.get m = (s.cache.update n f).get m)
    (hAddress : ∀ page, (f page).address = page.address) : s'.Denotes ptr ↔ s.Denotes ptr := by
  unfold Denotes
  rw [hGet]
  by_cases hEq : ptr.pageNum = n
  · simp [hEq, get_update_self, hAddress]
  · simp [get_update_ne s.cache f hEq]

theorem change_eq (h : s.Denotes ptr) (f : PageFrame P → PageFrame P) :
    change ptr f s = .ok () { s with cache := s.cache.update ptr.pageNum f } := by
  obtain ⟨page, hGet, hDeref⟩ := deref_eq h
  exact bind_ok hDeref

/-- The state after a frame has been marked. -/
def marked (n : PageNum) (s : CachedPager P) : CachedPager P :=
  { s with
    cache := s.cache.update n fun page =>
      { page with isDirty := true, walPending := true, needFlushing := true }
    walDirtyPages := s.walDirtyPages.insert n }

theorem Coherent.marked (h : Coherent env s) (hPage : s.cache.get n = some page) :
    Coherent env (s.marked n) := by
  refine h.update hPage (h.cache.update n (fun _ => rfl) fun _ => Iff.rfl) (fun _ => rfl) rfl rfl
    (fun _ _ => rfl) (fun _ _ hMem => mem_insert_of_mem hMem) ?_
  exact ⟨by simp, fun _ => rfl, fun _ => rfl, by simp, fun _ => mem_insert_self⟩

theorem denotes_marked : (s.marked n).Denotes ptr ↔ s.Denotes ptr :=
  denotes_update (fun _ => rfl) fun _ => rfl

theorem mark_spec (hNum : s.cache.Linked) (hDenotes : s.Denotes ptr) (latched : List PageNum) :
    (markLoadedPageWalPending latched ptr).wp s (fun _ s' => s' = s.marked ptr.pageNum)
      (fun e s' => e ≠ .dangling ∧ ptr.pageNum ∉ latched ∧ s' = s) fun _ => False := by
  obtain ⟨page, hGet, hDeref⟩ := deref_eq hDenotes
  rw [markLoadedPageWalPending, wp_bind]
  refine wp_of_ok hDeref ?_
  rw [← hNum.pageNum_eq _ page hGet, wp_ite]
  refine ⟨fun hNot => ⟨by simp, hNot, rfl⟩, fun _ => ?_⟩
  rw [wp_bind]
  refine wp_of_ok (change_eq hDenotes _) ?_
  rw [← hNum.pageNum_eq _ page hGet]
  rfl

theorem mark_eq_fail (h : ¬s.Denotes ptr) :
    markLoadedPageWalPending latched ptr s = .fail .dangling s :=
  bind_fail (deref_eq_fail h)

/-- A mark is passed only with a good pointer. -/
theorem mark_bind {k : Unit → PagerOp P α} (hNum : s.cache.Linked)
    (hLatched : ptr.pageNum ∈ latched)
    (hNext : s.Denotes ptr → (k ()).wp (s.marked ptr.pageNum) (fun _ _ => False)
      (fun e _ => e = .dangling) fun _ => False) :
    (markLoadedPageWalPending latched ptr >>= k).wp s (fun _ _ => False) (fun e _ => e = .dangling)
      fun _ => False := by
  rw [wp_bind]
  by_cases hDenotes : s.Denotes ptr
  · refine wp_weaken (mark_spec hNum hDenotes latched) ?_ ?_
    · rintro _ _ rfl
      exact hNext hDenotes
    · exact fun _ _ hFail => absurd hLatched hFail.2.1
  · rw [wp, mark_eq_fail hDenotes]

/-- Marking the frames of a call finds a bad pointer among them. -/
theorem marks_dangling (hNum : s.cache.Linked) {first second : FramePtr} {third : Option FramePtr}
    {k : PagerOp P α} (hLatched : ∀ q ∈ first :: second :: third.toList, q.pageNum ∈ latched)
    (hBad : ¬Good (first :: second :: third.toList) s) :
    (do
      markLoadedPageWalPending latched first
      markLoadedPageWalPending latched second
      markSome latched third
      k : PagerOp P α).wp s (fun _ _ => False) (fun e _ => e = .dangling) fun _ => False := by
  have hMarked : ∀ {s : CachedPager P} {n : PageNum}, s.cache.Linked → (s.marked n).cache.Linked :=
    fun h => h.update _ fun _ => rfl
  refine mark_bind hNum (hLatched first (by simp)) fun hFirst => ?_
  refine mark_bind (hMarked hNum) (hLatched second (by simp)) fun hSecond => ?_
  rw [denotes_marked] at hSecond
  cases third with
  | none => exact absurd (by simp [Good, hFirst, hSecond]) hBad
  | some third =>
    refine mark_bind (hMarked (hMarked hNum)) (hLatched third (by simp)) fun hThird => ?_
    rw [denotes_marked, denotes_marked] at hThird
    exact absurd (by simp [Good, hFirst, hSecond, hThird]) hBad

end Uses

section Ready

variable {env : DiskEnv P} {s s' : CachedPager P} {n : PageNum} {page : PageFrame P}
  {ptr headerPtr : FramePtr} {ptrs : List FramePtr} {third : Option FramePtr}
  {f : PageFrame P → PageFrame P} {v : PagerView P} {header : DBHeader}

/-- The frames are coherent and show a view, and the pointers of a call are good. -/
structure Ready (env : DiskEnv P) (v : PagerView P) (ptrs : List FramePtr)
    (s : CachedPager P) : Prop where
  coherent : Coherent env s
  good : Good ptrs s
  view : s.view = v

/-- The call succeeded with a view, and the header page is up to date. -/
structure Reached (env : DiskEnv P) (w : PagerView P) (s : CachedPager P) : Prop where
  coherent : Coherent env s
  header : HeaderCached env s
  view : s.view = w

/-- A program that does not fail. -/
abbrev Completes {α : Type} (pre : CachedPager P → Prop) (x : PagerOp P α)
    (post : α → CachedPager P → Prop) : Prop :=
  Triple pre x post fun _ _ => False

section

variable (h : Ready env v ptrs s)
include h

theorem Ready.frame_eq (hPage : s.cache.get n = some page) :
    page.data = v.pages n ∧ page.walPending = v.walPending n := by
  rw [← h.view]
  simp [CachedPager.view, hPage]

theorem Ready.header_eq : s.dbHeader = v.dbHeader :=
  congrArg PagerView.dbHeader h.view

theorem Ready.reached (hPending : v.walPending 0 = true)
    (hData : ∃ image, v.pages 0 = env.format.serializeHeader v.dbHeader image) :
    Reached env v s := by
  obtain ⟨image, hData⟩ := hData
  refine ⟨h.coherent, ?_, h.view⟩
  cases hGet : s.cache.get 0 with
  | none => simp [← h.view, CachedPager.view, hGet] at hPending
  | some page =>
    exact ⟨page, image, hGet, by rw [(h.frame_eq hGet).1, hData, h.header_eq]⟩

theorem Ready.update (hCoherent : Coherent env s') (hPage : s.cache.get n = some page)
    (hGet : ∀ m, s'.cache.get m = (s.cache.update n f).get m)
    (hKeep : ∀ page, (f page).address = page.address) (hFile : s'.file = s.file)
    (hHeader : s'.dbHeader = header) :
    Ready env ⟨Function.update v.pages n (f page).data,
      Function.update v.walPending n (f page).walPending, header⟩ ptrs s' := by
  refine ⟨hCoherent, fun q hQ => (denotes_update hGet hKeep).2 (h.good q hQ), ?_⟩
  have hBoth : ∀ m, s'.view.pages m = Function.update v.pages n (f page).data m ∧
      s'.view.walPending m = Function.update v.walPending n (f page).walPending m := by
    intro m
    by_cases hEq : m = n
    · subst hEq
      simp [CachedPager.view, hGet, get_update_self, hPage]
    · simp [← h.view, CachedPager.view, hGet, get_update_ne _ _ hEq, hEq, hFile]
  rw [← hHeader, ← funext fun m => (hBoth m).1, ← funext fun m => (hBoth m).2]
  rfl

end

/-- The bytes of a frame and the header in memory change. -/
def withData (n : PageNum) (g : P → P) (header : DBHeader) (s : CachedPager P) : CachedPager P :=
  { s with
    cache := s.cache.update n fun page => { page with data := g page.data }
    dbHeader := header }

theorem Coherent.withData (h : Coherent env s) (hPage : s.cache.get n = some page)
    (hPending : page.walPending = true) (g : P → P) (header : DBHeader) :
    Coherent env (s.withData n g header) := by
  have hFrame := h.frames n page hPage
  have hDirty := hFrame.pending hPending
  refine h.update hPage (h.cache.update n (fun _ => rfl) fun _ => Iff.rfl) (fun _ => rfl) rfl rfl
    (fun _ _ => rfl) (fun _ _ hMem => hMem) ⟨?_, hFrame.flush, hFrame.pending, ?_, hFrame.listed⟩
  · simp [hDirty]
  · simp [hPending]

theorem Ready.withData (h : Ready env v ptrs s) (hPtr : ptr ∈ ptrs)
    (hPending : v.walPending ptr.pageNum = true) (g : P → P) (header : DBHeader) :
    Ready env { v.write ptr.pageNum (g (v.pages ptr.pageNum)) with dbHeader := header } ptrs
      (s.withData ptr.pageNum g header) := by
  obtain ⟨page, hPage, -⟩ := h.good ptr hPtr
  obtain ⟨hData, hMark⟩ := h.frame_eq hPage
  have hNew := h.update (h.coherent.withData hPage (hMark.trans hPending) g header) hPage
    (fun _ => rfl) (fun _ => rfl) rfl rfl
  simp only [hData, hMark, update_eq_self] at hNew
  exact hNew

theorem completes_deref {pre : CachedPager P → Prop} (hPre : ∀ s, pre s → s.Denotes ptr) :
    Triple pre (deref ptr) (fun page s => pre s ∧ s.cache.get ptr.pageNum = some page)
      fun _ _ => False := by
  intro s hs
  obtain ⟨page, hGet, hDeref⟩ := deref_eq (hPre s hs)
  exact wp_of_ok hDeref ⟨hs, hGet⟩

theorem completes_setData (hPtr : ptr ∈ ptrs) (hPending : v.walPending ptr.pageNum = true)
    (g : P → P) :
    Completes (Ready env v ptrs) (change ptr fun page => { page with data := g page.data })
      fun _ => Ready env (v.write ptr.pageNum (g (v.pages ptr.pageNum))) ptrs := by
  intro s hs
  have hNew := hs.withData hPtr hPending g s.dbHeader
  nth_rewrite 1 [hs.header_eq] at hNew
  exact wp_of_ok (change_eq (hs.good ptr hPtr) _) hNew

theorem completes_setHeader (hPtr : ptr ∈ ptrs) (hNum : ptr.pageNum = 0)
    (hPending : v.walPending 0 = true) (g : DBHeader → DBHeader) :
    Completes (Ready env v ptrs) (setHeader env g)
      fun _ => Ready env (v.setHeader env.format (g v.dbHeader)) ptrs := by
  obtain ⟨pageNum, address⟩ := ptr
  obtain rfl : pageNum = 0 := hNum
  intro s hs
  obtain ⟨page, hGet, -⟩ := hs.good _ hPtr
  change s.cache.get 0 = _ at hGet
  simp only [setHeader, syncDbHeaderToCachedHeaderPage, wp_bind, wp_modify, wp_read, hGet,
    hs.header_eq]
  exact hs.withData hPtr hPending _ _

theorem completes_mark {latched : List PageNum} (hPtr : ptr ∈ ptrs)
    (hLatched : ptr.pageNum ∈ latched) :
    Completes (Ready env v ptrs) (markLoadedPageWalPending latched ptr)
      fun _ => Ready env (v.mark ptr.pageNum) ptrs := by
  intro s hs
  have hDenotes := hs.good ptr hPtr
  refine wp_mono (mark_spec hs.coherent.cache.toLinked hDenotes latched) ?_
    (fun _ _ hFail => hFail.2.1 hLatched) fun _ _ => trivial
  rintro _ _ rfl
  obtain ⟨page, hPage, -⟩ := hDenotes
  have hNew := hs.update (hs.coherent.marked hPage) hPage (fun _ => rfl) (fun _ => rfl) rfl
    hs.header_eq
  simp only [(hs.frame_eq hPage).1, update_eq_self] at hNew
  exact hNew

theorem completes_relink (hThird : ∀ q ∈ third, q ∈ ptrs ∧ v.walPending q.pageNum = true)
    (prev : PageNum) :
    Completes (Ready env v ptrs) (relink env prev third)
      fun _ => Ready env (v.relink env.format prev (third.map FramePtr.pageNum)) ptrs := by
  cases third with
  | none => exact Triple.pure fun s hs => hs
  | some q =>
    obtain ⟨hPtr, hPending⟩ := hThird q rfl
    refine (completes_deref fun s hs => hs.good q hPtr).bind fun page s hs => ?_
    rw [(hs.1.frame_eq hs.2).1]
    exact completes_setData hPtr hPending _ s hs.1

theorem completes_pageEffect (kind : PageEffectKind) (hPtr : ptr ∈ ptrs) :
    Completes (Ready env v ptrs) (pageEffect kind ptr)
      fun e s => e = v.effect kind ptr.pageNum ∧ Ready env v ptrs s := by
  refine (completes_deref fun _ hs => hs.good ptr hPtr).bind fun page => Triple.pure fun s hs => ?_
  rw [hs.1.coherent.cache.pageNum_eq _ _ hs.2, (hs.1.frame_eq hs.2).1]
  exact ⟨rfl, hs.1⟩

theorem completes_effectOfSome (hThird : ∀ q ∈ third, q ∈ ptrs) :
    Completes (Ready env v ptrs) (effectOfSome third) fun effects s =>
      effects = (third.map FramePtr.pageNum).toList.map (v.effect .write) ∧
        Ready env v ptrs s := by
  cases third with
  | none => exact Triple.pure fun s hs => ⟨rfl, hs⟩
  | some q =>
    refine (completes_pageEffect .write (hThird q rfl)).bind fun _ => Triple.pure ?_
    rintro s ⟨rfl, hs⟩
    exact ⟨rfl, hs⟩

theorem Coherent.pinned (h : Coherent env s) (hPage : s.cache.get n = some page)
    (hRange : page.refsNum + 1 ≠ 0) :
    Coherent env { s with cache := s.cache.pinned n page.refsNum } := by
  have hFrame := h.frames n page hPage
  exact h.update hPage (h.cache.pinned hPage hRange) (get_pinned _) rfl rfl (fun _ _ => rfl)
    (fun _ _ hMem => hMem)
    ⟨hFrame.clean, hFrame.flush, hFrame.pending, hFrame.summed, hFrame.listed⟩

theorem Coherent.unpinned (h : Coherent env s) (hPage : s.cache.get n = some page)
    (hRefs : page.refsNum ≠ 0) :
    Coherent env { s with cache := s.cache.unpinned n page.refsNum } := by
  have hFrame := h.frames n page hPage
  exact h.update hPage (h.cache.unpinned hPage hRefs) (get_unpinned _) rfl rfl
    (fun _ _ => rfl) (fun _ _ hMem => hMem)
    ⟨hFrame.clean, hFrame.flush, hFrame.pending, hFrame.summed, hFrame.listed⟩

/-- The first reference to a page that was taken from the freelist. -/
theorem completes_firstRef (hPtr : ptr ∈ ptrs) (hRefs : page.refsNum = 0) :
    Completes (fun s => Ready env v ptrs s ∧ s.cache.get ptr.pageNum = some page)
      (do
        change ptr fun page => { page with refsNum := 1 }
        onCache (PCache.pinPage ptr.pageNum)) fun _ => Ready env v ptrs := by
  rintro s ⟨hs, hPage⟩
  have hMem := (hs.coherent.cache.mem_unpinnedPages_iff hPage).2 hRefs
  have hPin : PCache.pinPage ptr.pageNum
      (s.cache.update ptr.pageNum fun page => { page with refsNum := 1 }) =
        .ok () (s.cache.pinned ptr.pageNum page.refsNum) := by
    refine eq_ok_of_wp ?_
    simp [PCache.pinPage, get_update_self, hPage, unpinnedPages_update, hMem,
      PCache.pinned, PCache.recount, hRefs]
  rw [wp_bind]
  refine wp_of_ok (change_eq (hs.good ptr hPtr) _) ?_
  rw [wp_onCache]
  have hNew : Ready env _ ptrs { s with cache := s.cache.pinned ptr.pageNum page.refsNum } :=
    hs.update (hs.coherent.pinned hPage (by simp [hRefs])) hPage (get_pinned _) (fun _ => rfl) rfl
      hs.header_eq
  simp only [(hs.frame_eq hPage).1, (hs.frame_eq hPage).2, update_eq_self] at hNew
  exact wp_of_ok hPin hNew

section Marked

variable {neighbour : PageNum} (hThird : third.map FramePtr.pageNum = beside neighbour)
include hThird

theorem completes_linked (prev : PageNum) :
    Completes (Ready env (v.marks ptr.pageNum (beside neighbour))
        (headerPtr :: ptr :: third.toList)) (relink env prev third) fun _ =>
      Ready env (v.linked env.format ptr.pageNum prev neighbour)
        (headerPtr :: ptr :: third.toList) := by
  rw [linked, ← hThird]
  refine completes_relink (fun q hQ => ⟨by simp [Option.mem_toList.2 hQ], ?_⟩) prev
  exact walPending_marks (.inr (.inr (Option.mem_map_of_mem _ hQ)))

variable (hHeader : headerPtr.pageNum = 0)
include hHeader

theorem completes_freelistEffects (kind : PageEffectKind) (wrap : List (PageEffect P) → α) :
    Completes (Ready env v (headerPtr :: ptr :: third.toList)) (do
        let headerEffect ← pageEffect .write headerPtr
        let thirdEffect ← effectOfSome third
        let effect ← pageEffect kind ptr
        return wrap (headerEffect :: thirdEffect ++ [effect]))
      fun result s => result = wrap (v.freelistEffects kind ptr.pageNum neighbour) ∧
        Ready env v (headerPtr :: ptr :: third.toList) s := by
  refine (completes_pageEffect _ (by simp)).bind_eq ?_
  refine (completes_effectOfSome fun q hQ => by simp [Option.mem_toList.2 hQ]).bind_eq ?_
  refine (completes_pageEffect _ (by simp)).bind_eq (Triple.pure fun s hs => ⟨?_, hs⟩)
  rw [hHeader, hThird]
  rfl

/-- The rest of `takeFreelistHead` when its frames are there. -/
theorem completes_takeMarked (kind : V2PageKind) :
    Completes (Ready env (v.marks ptr.pageNum (beside neighbour))
        (headerPtr :: ptr :: third.toList))
      (takeMarked env headerPtr ptr third ptr.pageNum neighbour kind) fun result s =>
        result = (ptr, (v.takeHead env.format ptr.pageNum neighbour kind).freelistEffects .allocate
          ptr.pageNum neighbour) ∧
        Ready env (v.takeHead env.format ptr.pageNum neighbour kind)
          (headerPtr :: ptr :: third.toList) s := by
  have hPtr : ptr ∈ headerPtr :: ptr :: third.toList := by simp
  refine (completes_linked hThird 0).seq fun _ => ?_
  refine Triple.seq (completes_setHeader mem_cons_self hHeader
    (walPending_linked neighbour (.inl rfl)) _) fun _ => ?_
  refine Triple.seq (completes_setData hPtr (by exact walPending_linked neighbour (.inr (.inl rfl)))
    fun _ => env.format.initializePage ptr.pageNum kind) fun _ => ?_
  refine (completes_deref fun s hs => hs.good ptr hPtr).bind fun page => ?_
  by_cases hRefs : page.refsNum = 0
  swap
  · rw [if_pos hRefs]
    exact fun _ _ => trivial
  rw [if_neg (not_not_intro hRefs), ← Program.bind_assoc]
  refine (completes_firstRef hPtr hRefs).seq fun _ => ?_
  exact completes_freelistEffects hThird hHeader .allocate (Prod.mk ptr)

/-- The rest of `linkFreedPage` when its frames are there. -/
theorem completes_linkMarked :
    Completes (Ready env (v.marks ptr.pageNum (beside neighbour))
        (headerPtr :: ptr :: third.toList))
      (linkMarked env headerPtr ptr third ptr.pageNum neighbour) fun effects s =>
        effects = (v.linkFreed env.format ptr.pageNum neighbour).freelistEffects .free ptr.pageNum
          neighbour ∧
        Ready env (v.linkFreed env.format ptr.pageNum neighbour)
          (headerPtr :: ptr :: third.toList) s := by
  have hPtr : ptr ∈ headerPtr :: ptr :: third.toList := by simp
  refine (completes_linked hThird _).seq fun _ => ?_
  refine Triple.seq (completes_setData hPtr (walPending_linked neighbour (.inr (.inl rfl)))
    (env.format.writeFreelistLinks neighbour 0)) fun _ => ?_
  refine Triple.seq (completes_setHeader mem_cons_self hHeader
    (by exact walPending_linked neighbour (.inl rfl)) _) fun _ => ?_
  exact completes_freelistEffects hThird hHeader .free id

end Marked

end Ready

section Calls

variable {env : DiskEnv P} {s s' : CachedPager P} {n : PageNum} {ptr : FramePtr} {call : FrameCall}

/-- The critical sections of `allocate_page` and `free_page` that use frames. The numbers were read
in an earlier one, and other operations may have come in between. -/
inductive FrameCall where
  | readHead (head : PageNum)
  | takeHead (head next : PageNum) (kind : V2PageKind) (hHead : head ≠ 0)
  | extend (newPageNum : PageNum) (kind : V2PageKind) (hNew : newPageNum ≠ 0)
  | linkFreed (pageNum oldHead : PageNum) (hPage : pageNum ≠ 0)

namespace FrameCall

/-- The pages of a call, in the order in which their frames are obtained. -/
def pages : FrameCall → List PageNum
  | readHead head => [head]
  | takeHead head next _ _ => 0 :: head :: if next ≠ 0 then [next] else []
  | extend newPageNum _ _ => [0, newPageNum]
  | linkFreed pageNum oldHead _ => 0 :: pageNum :: if oldHead ≠ 0 then [oldHead] else []

/-- The part of a call that obtains the frames. -/
def load (env : DiskEnv P) : FrameCall → PagerOp P Unit
  | readHead head => do let _ ← getOrLoadPage env head
  | takeHead head next _ _ => do let _ ← loadFrames env head next
  | extend newPageNum kind _ => do let _ ← placeNewPage env newPageNum kind
  | linkFreed pageNum oldHead _ => do let _ ← loadFrames env pageNum oldHead

def run (env : DiskEnv P) : FrameCall → PagerOp P Unit
  | readHead head => do let _ ← loadFreelistHead env head
  | takeHead head next kind _ => do let _ ← takeFreelistHead env head next kind
  | extend newPageNum kind _ => do let _ ← extendDatabase env newPageNum kind
  | linkFreed pageNum oldHead _ => do let _ ← linkFreedPage env pageNum oldHead

/-- Whether the call changes the freelist or the number of pages. -/
def modifies : FrameCall → Bool
  | readHead _ => false
  | _ => true

end FrameCall

/-- No pointer of the call has lost its frame when it is used, and if the call succeeds, page zero
is resident with the header in memory. -/
def FramesStay (env : DiskEnv P) (s : CachedPager P) (call : FrameCall) : Prop :=
  (call.run env s).error? ≠ some .dangling ∧
    ∀ s', call.run env s = .ok () s' → call.modifies = true → HeaderCached env s'

/-- A call obtains frames for some pages with `load`, goes on well if the pages fit, and uses a bad
pointer if they do not. -/
def Splits (env : DiskEnv P) (s : CachedPager P) (pages : List PageNum) (load : PagerOp P Unit)
    (run : PagerOp P α) (post : α → CachedPager P → Prop) : Prop :=
  ∃ (β : Type) (x : PagerOp P β) (rest : β → PagerOp P α),
    run = x >>= rest ∧ (load = x >>= fun _ => pure ()) ∧
      x.wp s
        (fun b s' => (s.Fits pages → (rest b).wp s' post (fun _ _ => False) fun _ => True) ∧
          (¬s.Fits pages → (rest b).wp s' (fun _ _ => False) (fun e _ => e = .dangling)
            fun _ => False))
        (fun e s' => e ≠ .dangling ∧ Coherent env s') fun _ => True

def FrameCall.Spec (env : DiskEnv P) (s : CachedPager P) (call : FrameCall) : Prop :=
  Splits env s call.pages (call.load env) (call.run env)
    fun _ s' => Coherent env s' ∧ (call.modifies = true → HeaderCached env s')

theorem Splits.discard {pages : List PageNum} {load : PagerOp P Unit} {run : PagerOp P α}
    {post : α → CachedPager P → Prop} {post' : CachedPager P → Prop}
    (h : Splits env s pages load run post) (hPost : ∀ a s, post a s → post' s) :
    Splits env s pages load (do let _ ← run) fun _ => post' := by
  obtain ⟨β, x, rest, rfl, hLoad, hSpec⟩ := h
  refine ⟨β, x, _, Program.bind_assoc _ _ _, hLoad, wp_weaken hSpec ?_ fun _ _ hFail => hFail⟩
  exact fun b s' hNext => ⟨fun hFits => wp_bind_of (hNext.1 hFits) hPost,
    fun hNot => wp_bind_of (hNext.2 hNot) fun _ _ hFalse => hFalse.elim⟩

theorem Splits.promises {pages : List PageNum} {load : PagerOp P Unit} {run : PagerOp P α}
    {post : α → CachedPager P → Prop} (h : Splits env s pages load run post) :
    run.wp s post (fun e s' => e ≠ .dangling → Coherent env s') fun _ => True := by
  obtain ⟨β, x, rest, rfl, -, hSpec⟩ := h
  rw [wp_bind]
  refine wp_weaken hSpec (fun b s' hNext => ?_) fun _ _ hFail _ => hFail.2
  by_cases hFits : s.Fits pages
  · exact wp_weaken (hNext.1 hFits) (fun _ _ hPost => hPost) fun _ _ hFail => hFail.elim
  · exact wp_mono (hNext.2 hFits) (fun _ _ hOk => hOk.elim) (fun _ _ hEq hNe => absurd hEq hNe)
      fun _ hHalt => hHalt.elim

theorem framesStay_iff_wp :
    FramesStay env s call ↔
      (call.run env).wp s (fun _ s' => call.modifies = true → HeaderCached env s')
        (fun e _ => e ≠ .dangling) fun _ => True := by
  unfold FramesStay wp
  cases call.run env s <;> simp [Outcome.error?]

theorem FrameCall.Spec.framesStay_iff (h : call.Spec env s) :
    FramesStay env s call ↔ ((call.load env s).isOk = true → s.Fits call.pages) := by
  obtain ⟨β, x, rest, hRun, hLoad, hSpec⟩ := h
  rw [framesStay_iff_wp, hRun, wp_bind, hLoad]
  cases hLoaded : x s with
  | halt s' => simp [wp, hLoaded, bind_halt hLoaded, Outcome.isOk]
  | fail e s' =>
    have hError := (fail_of_wp hLoaded hSpec).1
    simp [wp, hLoaded, bind_fail hLoaded, Outcome.isOk, hError]
  | ok b s' =>
    obtain ⟨hGood, hBad⟩ := okay_of_wp hLoaded hSpec
    rw [bind_ok hLoaded]
    constructor
    · intro hStay _
      by_contra hNot
      have hNext := okay_of_wp hLoaded hStay
      have hNext := wp_and hNext (hBad hNot)
      cases hEnd : rest b s' with
      | ok _ s'' => exact (okay_of_wp hEnd hNext).2
      | fail e s'' => exact absurd (fail_of_wp hEnd hNext).2 (fail_of_wp hEnd hNext).1
      | halt s'' => exact (halt_of_wp hEnd hNext).2
    · intro hFits
      refine wp_of_ok hLoaded (wp_weaken (hGood (hFits rfl)) ?_ ?_)
      · exact fun _ _ hOk => hOk.2
      · exact fun _ _ hFail => hFail.elim

/-- The program leaves the frames coherent, unless it uses a bad pointer. -/
abbrev Leaves {α : Type} (env : DiskEnv P) (x : PagerOp P α) (s : CachedPager P) : Prop :=
  x.wp s (fun _ s' => Coherent env s') (fun e s' => e ≠ .dangling → Coherent env s') fun _ => True

theorem FrameCall.Spec.leaves (h : call.Spec env s) : Leaves env (call.run env) s :=
  wp_weaken h.promises (fun _ _ hOk => hOk.1) fun _ _ hFail => hFail

/-- One load, as the first of a sequence. -/
theorem load_bind (h : Coherent env s) {k : FramePtr → PagerOp P α}
    {okay : α → CachedPager P → Prop} {halted : CachedPager P → Prop}
    (hNext : ∀ ptr s', Load n s ptr s' → Coherent env s' →
      (k ptr).wp s' okay (fun e s' => e ≠ .dangling ∧ Coherent env s') halted) :
    (getOrLoadPage env n >>= k).wp s okay (fun e s' => e ≠ .dangling ∧ Coherent env s') halted := by
  rw [wp_bind]
  refine wp_mono (getOrLoadPage_spec h n) ?_ (fun _ _ hFail => hFail) fun _ hHalt => hHalt.elim
  exact fun ptr s' hLoad => hNext ptr s' hLoad (hLoad.coherent h)

theorem loadFrames_spec (h : Coherent env s) (pageNum neighbour : PageNum) :
    (loadFrames env pageNum neighbour).wp s
      (fun ptrs s' => Coherent env s' ∧ s'.view = s.view ∧
        Loads s (0 :: pageNum :: if neighbour ≠ 0 then [neighbour] else [])
          (ptrs.1 :: ptrs.2.1 :: ptrs.2.2.toList) s' ∧
        ptrs.1.pageNum = 0 ∧ ptrs.2.1.pageNum = pageNum ∧
        ptrs.2.2.map FramePtr.pageNum = beside neighbour)
      (fun e s' => e ≠ .dangling ∧ Coherent env s') fun _ => False := by
  refine load_bind h fun headerPtr s₁ hFirst h₁ => ?_
  refine load_bind h₁ fun ptr s₂ hSecond h₂ => ?_
  have hView := (hSecond.view h₁).trans (hFirst.view h)
  rw [wp_ite]
  constructor
  · intro hNe
    refine load_bind h₂ fun third s₃ hThird h₃ => ?_
    rw [if_pos hNe, beside, if_pos hNe]
    exact ⟨h₃, (hThird.view h₂).trans hView, .cons hFirst (.cons hSecond (.cons hThird (.nil _))),
      hFirst.pageNum_eq, hSecond.pageNum_eq, congrArg some hThird.pageNum_eq⟩
  · intro hZero
    rw [if_neg hZero, beside, if_neg hZero]
    exact ⟨h₂, hView, .cons hFirst (.cons hSecond (.nil _)), hFirst.pageNum_eq,
      hSecond.pageNum_eq, rfl⟩

/-- A call that loads the header, a page and its neighbour, and marks them. -/
theorem splits_loadFrames (h : Coherent env s) {pageNum neighbour : PageNum}
    {k : FramePtr → FramePtr → Option FramePtr → PagerOp P α} {post : α → CachedPager P → Prop}
    (hNext : ∀ headerPtr ptr third, headerPtr.pageNum = 0 → ptr.pageNum = pageNum →
      third.map FramePtr.pageNum = beside neighbour →
      Completes (Ready env (s.view.marks pageNum (beside neighbour))
        (headerPtr :: ptr :: third.toList)) (k headerPtr ptr third) post) :
    Splits env s (0 :: pageNum :: if neighbour ≠ 0 then [neighbour] else [])
      (do let _ ← loadFrames env pageNum neighbour) (do
        let ptrs ← loadFrames env pageNum neighbour
        markLoadedPageWalPending [0, pageNum, neighbour] ptrs.1
        markLoadedPageWalPending [0, pageNum, neighbour] ptrs.2.1
        markSome [0, pageNum, neighbour] ptrs.2.2
        k ptrs.1 ptrs.2.1 ptrs.2.2) post := by
  refine ⟨_, _, _, rfl, rfl, ?_⟩
  refine wp_mono (loadFrames_spec h pageNum neighbour) ?_ (fun _ _ hFail => hFail)
    fun _ _ => trivial
  rintro ⟨headerPtr, ptr, third⟩ s' ⟨h', hView, hLoads, hHeader, hPtr, hThird⟩
  dsimp only at hLoads hHeader hPtr hThird
  have hLatched : ∀ q ∈ headerPtr :: ptr :: third.toList, q.pageNum ∈ [0, pageNum, neighbour] := by
    intro q hQ
    simp only [mem_cons, Option.mem_toList] at hQ
    rcases hQ with rfl | rfl | rfl
    · simp [hHeader]
    · simp [hPtr]
    · unfold beside at hThird
      split at hThird <;> cases hThird
      simp
  rw [← hLoads.good_iff h]
  refine ⟨fun hGood => ?_, fun hNot => marks_dangling h'.cache.toLinked hLatched hNot⟩
  have hStart : Ready env s.view (headerPtr :: ptr :: third.toList) s' := ⟨h', hGood, hView⟩
  have hEnd := hNext headerPtr ptr third hHeader hPtr hThird
  rw [← hThird] at hEnd
  refine wp_bind_of (completes_mark (by simp) (hLatched _ (by simp)) s' hStart) ?_
  intro _ s₁ hs₁
  refine wp_bind_of (completes_mark (by simp) (hLatched _ (by simp)) s₁ hs₁) ?_
  intro _ s₂ hs₂
  rw [hHeader, hPtr] at hs₂
  cases third with
  | none => exact hEnd s₂ hs₂
  | some third =>
    refine wp_bind_of (completes_mark (by simp) (hLatched _ (by simp)) s₂ hs₂) ?_
    exact fun _ s₃ hs₃ => hEnd s₃ hs₃

theorem splits_takeFreelistHead (h : Coherent env s) {head : PageNum} (hHead : head ≠ 0)
    (next : PageNum) (kind : V2PageKind) :
    Splits env s (0 :: head :: if next ≠ 0 then [next] else [])
      (do let _ ← loadFrames env head next) (takeFreelistHead env head next kind) fun result s' =>
        (result.1.pageNum, result.2) = (head,
          (s.view.takeHead env.format head next kind).freelistEffects .allocate head next) ∧
        Reached env (s.view.takeHead env.format head next kind) s' := by
  refine splits_loadFrames h (k := (takeMarked env · · · head next kind)) ?_
  intro headerPtr ptr third hHeader hPtr hThird
  subst hPtr
  refine (completes_takeMarked hThird hHeader kind).conseq (fun _ hs => hs) ?_
  rintro _ s' ⟨rfl, hReady⟩
  exact ⟨rfl, hReady.reached (walPending_linked next (.inl rfl))
    ⟨_, (update_of_ne hHead.symm _ _).trans pages_setHeader⟩⟩

theorem splits_linkFreedPage (h : Coherent env s) (pageNum oldHead : PageNum) :
    Splits env s (0 :: pageNum :: if oldHead ≠ 0 then [oldHead] else [])
      (do let _ ← loadFrames env pageNum oldHead) (linkFreedPage env pageNum oldHead)
      fun effects s' => effects = (s.view.linkFreed env.format pageNum oldHead).freelistEffects
          .free pageNum oldHead ∧
        Reached env (s.view.linkFreed env.format pageNum oldHead) s' := by
  refine splits_loadFrames h (k := (linkMarked env · · · pageNum oldHead)) ?_
  intro headerPtr ptr third hHeader hPtr hThird
  subst hPtr
  refine (completes_linkMarked hThird hHeader).conseq (fun _ hs => hs) ?_
  rintro _ s' ⟨rfl, hReady⟩
  exact ⟨rfl, hReady.reached (walPending_linked oldHead (.inl rfl)) ⟨_, pages_setHeader⟩⟩

/-- The frame of the head is used as soon as it is there. -/
theorem splits_loadFreelistHead (h : Coherent env s) (head : PageNum) :
    Splits env s [head] (do let _ ← getOrLoadPage env head) (loadFreelistHead env head)
      fun next s' => next = (env.format.readFreelistLinks (s.view.pages head)).1 ∧
        Coherent env s' ∧ s'.view = s.view := by
  refine ⟨_, _, _, rfl, rfl, ?_⟩
  refine wp_mono (getOrLoadPage_spec h head) ?_ (fun _ _ hFail => hFail) fun _ _ => trivial
  intro ptr s' hLoad
  have hGood : s'.Good [ptr] := by simpa [Good] using hLoad.denotes_self
  refine ⟨fun _ => ?_, fun hNot => absurd ((Loads.good_iff h (.cons hLoad (.nil s'))).1 hGood) hNot⟩
  obtain ⟨page, hGet, hDeref⟩ := deref_eq hLoad.denotes_self
  have hReady : Ready env s.view [ptr] s' := ⟨hLoad.coherent h, hGood, hLoad.view h⟩
  refine wp_of_ok (bind_ok hDeref) ⟨?_, hReady.coherent, hReady.view⟩
  rw [(hReady.frame_eq hGet).1, hLoad.pageNum_eq]

/-- The new frame of a page in an extension. -/
def newFrame (env : DiskEnv P) (newPageNum : PageNum) (kind : V2PageKind) (address : Nat) :
    PageFrame P :=
  ⟨address, newPageNum, env.format.initializePage newPageNum kind, 1, true, true, true⟩

variable (h : Coherent env s)
include h

/-- The placement of a new page goes through a load of the header page. -/
theorem placeNewPage_spec (newPageNum : PageNum) (kind : V2PageKind) :
    (placeNewPage env newPageNum kind).wp s
      (fun ptrs s' => ∃ s₁ s₂, Load 0 s ptrs.1 s₁ ∧ Coherent env s' ∧ s₂.cache = s₁.cache ∧
        s₁.cache.get newPageNum = none ∧ ptrs.2 = ⟨newPageNum, s₁.nextAddress⟩ ∧
        s'.view = (s.view.write newPageNum (env.format.initializePage newPageNum kind)).mark
          newPageNum ∧
        Placed (newFrame env newPageNum kind s₁.nextAddress) s₂ s')
      (fun e s' => e ≠ .dangling ∧ Coherent env s') fun _ => True := by
  rw [placeNewPage, wp_bind]
  refine wp_mono (getOrLoadPage_spec h 0) ?_ (fun _ _ hFail => hFail) fun _ hHalt => hHalt.elim
  intro headerPtr s₁ hLoad
  simp only [wp_bind, wp_newAddress, addWalDirty, wp_modify, wp_onFail, wp_pure]
  have hNew : Coherent env { s₁ with
      nextAddress := s₁.nextAddress + 1
      walDirtyPages := s₁.walDirtyPages.insert newPageNum } :=
    (hLoad.coherent h).of_eq rfl rfl (fun _ _ _ hMem => mem_insert_of_mem hMem) (Nat.le_succ _)
  cases hNone : s₁.cache.get newPageNum with
  | some old =>
    -- a second frame of a resident page trips an assertion
    rw [cachePut, wp_bind, wp_onCache, wp, put_of_isSome (by simp [hNone])]
    trivial
  | none =>
    refine wp_mono (cachePut_spec hNew hNone) ?_ ?_ fun _ _ => trivial
    · intro _ s' hPlaced
      refine ⟨s₁, _, hLoad, ?_, ?_, hNone, rfl, ?_, hPlaced⟩
      rotate_left
      · rfl
      · rw [hPlaced.view hNew, ← hLoad.view h]
        rfl
      refine hPlaced.coherent hNew hNone (Nat.lt_succ_self _) ?_
      exact ⟨by simp, fun _ => rfl, fun _ => rfl, by simp, fun _ => mem_insert_self⟩
    · rintro e s' ⟨hError, hCoherent, hStill⟩
      exact ⟨hError, hCoherent.forgetPage hStill⟩

/-- The header page stays when the new page is placed exactly if the two fit. -/
theorem fits_of_placeNewPage {s₁ s₂ : CachedPager P} {headerPtr : FramePtr}
    (hNew : page.pageNum ≠ 0) (hLoad : Load 0 s headerPtr s₁) (hCache : s₂.cache = s₁.cache)
    (hNone : s₁.cache.get page.pageNum = none) (hPlaced : Placed page s₂ s') :
    s'.Denotes headerPtr ↔ s.Fits [0, page.pageNum] := by
  have hGone : s₂.gone = s₁.gone := by simp [gone, hCache]
  -- after the placement, the header page is there unless it was the one to go
  have hStay : s'.Denotes headerPtr ↔ s₁.gone ≠ some 0 := by
    have hNum := hLoad.pageNum_eq
    constructor
    · rintro ⟨frame, hGet, -⟩ hEq
      rw [hNum, hPlaced.get_gone 0 (hGone.trans hEq)] at hGet
      cases hGet
    · intro hNe
      obtain ⟨frame, hGet, hAddress⟩ := hLoad.denotes_self
      refine ⟨frame, ?_, hAddress⟩
      rw [hNum] at hGet ⊢
      rw [hPlaced.get_other 0 hNew.symm (by rwa [hGone]), hCache, hGet]
  have hCard : (s₁.missing [page.pageNum]).card = 1 := by
    have hEq : s₁.missing [page.pageNum] = {page.pageNum} := by
      ext m
      simp only [mem_missing, mem_singleton, Finset.mem_singleton, and_iff_left_iff_imp]
      rintro rfl
      exact hNone
    rw [hEq, Finset.card_singleton]
  rw [hStay]
  cases hLoad with
  | miss _ hZero hLoaded =>
    have hNil : ∀ g, s.gone = some g → g ∉ ([] : List PageNum) := by simp
    have hFits : (s₁.missing [page.pageNum]).card ≤ s₁.free ↔ s.Fits [0, page.pageNum] :=
      fits_iff_of_miss hZero hLoaded h.cache hNil
    rw [← hFits, hCard]
    constructor
    · intro hNe
      by_contra hFree
      exact hNe (gone_of_miss hLoaded (by omega))
    · intro hFree hEq
      have := free_of_gone hEq
      omega
  | hit frame hZero =>
    rw [Fits, missing_cons_of_some (by simp [hZero]), hCard]
    constructor
    · intro hNe
      refine .inr ⟨rfl, ?_⟩
      intro g hG hMem
      have hSome := get_of_gone h.cache hG
      simp only [mem_cons, not_mem_nil, or_false] at hMem
      rcases hMem with rfl | rfl
      · exact hNe hG
      · simp [hNone] at hSome
    · rintro (hFree | ⟨-, hNot⟩) hEq
      · have := free_of_gone hEq
        omega
      · exact hNot 0 hEq (by simp)

theorem splits_extendDatabase {newPageNum : PageNum} (hNew : newPageNum ≠ 0)
    (kind : V2PageKind) :
    Splits env s [0, newPageNum] (do let _ ← placeNewPage env newPageNum kind)
      (extendDatabase env newPageNum kind) fun result s' =>
        (result.1.pageNum, result.2) = (newPageNum,
          [(s.view.extend env.format newPageNum kind).effect .write 0,
            (s.view.extend env.format newPageNum kind).effect .allocate newPageNum]) ∧
        Reached env (s.view.extend env.format newPageNum kind) s' := by
  refine ⟨_, _, _, rfl, rfl, ?_⟩
  refine wp_mono (placeNewPage_spec h newPageNum kind) ?_ (fun _ _ hFail => hFail)
    fun _ _ => trivial
  rintro ⟨headerPtr, newPtr⟩ s' ⟨s₁, s₂, hLoad, h', hCache, hNone, rfl, hView, hPlaced⟩
  dsimp only at hLoad
  have hFits := fits_of_placeNewPage h hNew hLoad hCache hNone hPlaced
  obtain ⟨number, address⟩ := headerPtr
  obtain rfl : number = 0 := hLoad.pageNum_eq
  refine ⟨fun hFit => ?_, fun hNot => ?_⟩
  · have hStart : Ready env ((s.view.write newPageNum
        (env.format.initializePage newPageNum kind)).mark newPageNum)
        [⟨0, address⟩, ⟨newPageNum, s₁.nextAddress⟩] s' := by
      refine ⟨h', ?_, hView⟩
      simp only [Good, mem_cons, not_mem_nil, or_false, forall_eq_or_imp, forall_eq]
      exact ⟨hFits.2 hFit, _, hPlaced.get_self, rfl⟩
    refine Triple.seq (completes_mark mem_cons_self (by simp)).onFail (fun _ => ?_) s' hStart
    refine (completes_setHeader mem_cons_self rfl walPending_mark_self _).seq fun _ => ?_
    refine (completes_pageEffect _ mem_cons_self).bind_eq ?_
    refine (completes_pageEffect _ (by simp)).bind_eq (Triple.pure fun s'' hs => ?_)
    refine ⟨rfl, hs.reached ?_ ⟨_, pages_setHeader⟩⟩
    simp [PagerView.setHeader, PagerView.write, PagerView.mark]
  · have hMark : markLoadedPageWalPending [0, newPageNum] ⟨0, address⟩ s' = .fail .dangling s' :=
      mark_eq_fail fun hDenotes => hNot (hFits.1 hDenotes)
    simp only [extendPlaced, wp_bind, wp_onFail]
    rw [wp, hMark]

theorem frameCall_spec (call : FrameCall) : call.Spec env s := by
  cases call with
  | readHead head =>
    exact (splits_loadFreelistHead h head).discard fun _ _ hs =>
      ⟨hs.2.1, fun hTrue => absurd hTrue Bool.false_ne_true⟩
  | takeHead head next kind hHead =>
    exact (splits_takeFreelistHead h hHead next kind).discard fun _ _ hs =>
      ⟨hs.2.coherent, fun _ => hs.2.header⟩
  | extend newPageNum kind hNew =>
    exact (splits_extendDatabase h hNew kind).discard fun _ _ hs =>
      ⟨hs.2.coherent, fun _ => hs.2.header⟩
  | linkFreed pageNum oldHead hPage =>
    exact (splits_linkFreedPage h pageNum oldHead).discard fun _ _ hs =>
      ⟨hs.2.coherent, fun _ => hs.2.header⟩

end Calls

end CachedPager

end Stoneleaf
