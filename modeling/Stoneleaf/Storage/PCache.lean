import Mathlib.Data.List.AList
import Stoneleaf.Library.Program
import Stoneleaf.Storage.PageFormat

/-!
The page cache. A frame is identified by its address, because callers keep pointers to it; the
fields of a resident frame are changed through these pointers. The list of unpinned pages is kept
in the order in which they were unpinned, and it is searched from its end. A failed assertion stops
the process.
-/

namespace Stoneleaf

open Library List AList

/-- A page in memory. The counter and the flags are the pager's. -/
structure PageFrame (P : Type) where
  address : Nat
  pageNum : PageNum
  data : P
  refsNum : UInt32
  isDirty : Bool
  walPending : Bool
  needFlushing : Bool
deriving DecidableEq, Repr

inductive PCacheResult where
  | success
  | noVictim
  | dirtyFlush
  | walPending
  | removingPinnedPage
deriving DecidableEq, Repr

/-- No page number stands for the `-1` of the source. -/
structure PCacheEviction where
  happened : Bool
  pageNum : Option PageNum
  wasDirty : Bool
deriving DecidableEq, Repr

structure PCachePutResult where
  status : PCacheResult
  eviction : PCacheEviction
deriving DecidableEq, Repr

def PCacheEviction.none : PCacheEviction :=
  ⟨false, Option.none, false⟩

structure PCache (P : Type) where
  capacity : Nat
  length : Nat
  cacheMap : AList fun _ : PageNum => PageFrame P
  unpinnedPages : List PageNum

/-- No call on the cache fails; it may stop the process. -/
abbrev CacheOp (P : Type) : Type → Type :=
  Program (PCache P) Empty

namespace PCache

open Program

variable {P : Type}

def empty (capacity : Nat) : PCache P :=
  ⟨capacity, 0, ∅, []⟩

def get (pageNum : PageNum) (cache : PCache P) : Option (PageFrame P) :=
  cache.cacheMap.lookup pageNum

/-- `DLList::add`: a page that is in the list moves to its end. -/
def listAdd (pageNum : PageNum) (pages : List PageNum) : List PageNum :=
  pages.erase pageNum ++ [pageNum]

def assert (condition : PCache P → Bool) : CacheOp P Unit := do
  if ← read condition then pure () else halt

/-- Take a page out of the map and the list. -/
def drop (pageNum : PageNum) (cache : PCache P) : PCache P :=
  { cache with
    length := cache.length - 1
    cacheMap := cache.cacheMap.erase pageNum
    unpinnedPages := cache.unpinnedPages.erase pageNum }

def remove (pageNum : PageNum) : CacheOp P PCacheResult := do
  match ← read (get pageNum) with
  | none => return .success
  | some page =>
    if page.refsNum > 0 then return .removingPinnedPage
    assert fun cache => cache.unpinnedPages.contains pageNum
    modify (drop pageNum)
    return .success

def forceRemove (pageNum : PageNum) : CacheOp P Unit := do
  match ← read (get pageNum) with
  | none => return ()
  | some page =>
    if page.refsNum = 0 then assert fun cache => cache.unpinnedPages.contains pageNum
    else assert fun cache => !cache.unpinnedPages.contains pageNum
    modify (drop pageNum)

section Put

/-- The frames behind the list of unpinned pages, the most recently unpinned one first. -/
def candidates (cache : PCache P) : List (PageFrame P) :=
  cache.unpinnedPages.reverse.filterMap fun pageNum => cache.get pageNum

/-- The search for a victim: the first clean frame ends it, and the first dirty one is kept in
case there is none. Pending frames are skipped. -/
def findVictim (victim : Option (PageFrame P)) (foundPendingPage : Bool) :
    List (PageFrame P) → Option (PageFrame P) × Bool
  | [] => (victim, foundPendingPage)
  | candidate :: rest =>
    if candidate.walPending then findVictim victim true rest
    else if !candidate.isDirty then (some candidate, foundPendingPage)
    else findVictim (victim.or (some candidate)) foundPendingPage rest

def insert (page : PageFrame P) (cache : PCache P) : PCache P :=
  { cache with
    cacheMap := cache.cacheMap.insert page.pageNum page
    length := cache.length + 1 }

/-- The end of `put`: the frame is entered, and into the list if nobody holds it. -/
def store (page : PageFrame P) (eviction : PCacheEviction) : CacheOp P PCachePutResult := do
  modify (insert page)
  if page.refsNum = 0 then
    assert fun cache => !cache.unpinnedPages.contains page.pageNum
    modify fun cache => { cache with unpinnedPages := listAdd page.pageNum cache.unpinnedPages }
  return ⟨.success, eviction⟩

def put (page : PageFrame P) : CacheOp P PCachePutResult := do
  assert fun cache => (cache.get page.pageNum).isNone
  let cache ← read id
  if cache.length ≠ cache.capacity then store page .none
  else if cache.unpinnedPages.length = 0 then return ⟨.noVictim, .none⟩
  else
    match findVictim none false cache.candidates with
    | (none, foundPendingPage) =>
      return ⟨if foundPendingPage then .walPending else .noVictim, .none⟩
    | (some victim, _) =>
      if victim.isDirty ∧ victim.needFlushing then
        return ⟨.dirtyFlush, false, some victim.pageNum, true⟩
      let removed ← remove victim.pageNum
      assert fun _ => removed = .success
      store page ⟨true, some victim.pageNum, victim.isDirty⟩

end Put

/-- Called after the pager has counted a reference. -/
def pinPage (pageNum : PageNum) : CacheOp P Unit := do
  match ← read (get pageNum) with
  | none => halt
  | some page =>
    if page.refsNum = 0 then halt
    if page.refsNum = 1 ∧ pageNum ∈ (← read unpinnedPages) then
      modify fun cache => { cache with unpinnedPages := cache.unpinnedPages.erase pageNum }
    else assert fun cache => decide (page.refsNum = 1) || !cache.unpinnedPages.contains pageNum

/-- Called after the pager has dropped the last reference. -/
def unpinPage (pageNum : PageNum) : CacheOp P Unit := do
  match ← read (get pageNum) with
  | none => halt
  | some page =>
    if page.refsNum ≠ 0 then halt
    assert fun cache => !cache.unpinnedPages.contains pageNum
    modify fun cache => { cache with unpinnedPages := listAdd pageNum cache.unpinnedPages }

/-- A change of a resident frame through a pointer to it. -/
def update (pageNum : PageNum) (f : PageFrame P → PageFrame P) (cache : PCache P) : PCache P :=
  match cache.get pageNum with
  | none => cache
  | some page => { cache with cacheMap := cache.cacheMap.insert pageNum (f page) }

/-- Count a reference to a resident page. The result says whether the page is resident. -/
def refPage (pageNum : PageNum) : CacheOp P Bool := do
  match ← read (get pageNum) with
  | none => return false
  | some page =>
    let refsNum := page.refsNum + 1
    modify (update pageNum fun page => { page with refsNum := refsNum })
    if refsNum = 1 then pinPage pageNum
    return true

/-- Drop a reference to a resident page. -/
def unrefPage (pageNum : PageNum) : CacheOp P Unit := do
  match ← read (get pageNum) with
  | none => halt
  | some page =>
    let refsNum := page.refsNum - 1
    modify (update pageNum fun page => { page with refsNum := refsNum })
    if refsNum = 0 then unpinPage pageNum

/-- The cache after a successful `store`. -/
def enter (page : PageFrame P) (cache : PCache P) : PCache P :=
  let cache := cache.insert page
  { cache with
    unpinnedPages :=
      if page.refsNum = 0 then listAdd page.pageNum cache.unpinnedPages else cache.unpinnedPages }

/-- What the search in a full cache ends with. -/
def victim (cache : PCache P) : Option (PageFrame P) :=
  (findVictim none false cache.candidates).1

/-- What holds after any calls, whatever the callers write into the frames: the list has no page
twice, its pages are resident, and frames stand under their own numbers. -/
structure Linked (cache : PCache P) : Prop where
  nodup : cache.unpinnedPages.Nodup
  resident : ∀ n ∈ cache.unpinnedPages, (cache.get n).isSome
  pageNum_eq : ∀ n page, cache.get n = some page → page.pageNum = n

/-- A resident page that nobody holds. -/
def Unpinned (cache : PCache P) (pageNum : PageNum) : Prop :=
  ∃ page, cache.get pageNum = some page ∧ page.refsNum = 0

/-- What holds when the counters of the frames are only changed together with the list. -/
structure Sound (cache : PCache P) : Prop extends cache.Linked where
  length_eq : cache.length = cache.cacheMap.keys.length
  length_le : cache.length ≤ cache.capacity
  mem_unpinnedPages : ∀ n, n ∈ cache.unpinnedPages ↔ cache.Unpinned n

section Lookups

variable (cache : PCache P) (n m : PageNum) (page : PageFrame P)

@[simp] theorem get_drop_self : (cache.drop n).get n = none := by
  simp [get, drop]

variable {n m} in
theorem get_drop_ne (h : m ≠ n) : (cache.drop n).get m = cache.get m := by
  simp [get, drop, lookup_erase_ne h]

@[simp] theorem get_insert_self : (cache.insert page).get page.pageNum = some page := by
  simp [get, insert]

variable {m page} in
theorem get_insert_ne (h : m ≠ page.pageNum) : (cache.insert page).get m = cache.get m := by
  simp [get, insert, lookup_insert_ne h]

@[simp] theorem get_enter_self : (cache.enter page).get page.pageNum = some page :=
  get_insert_self cache page

variable {m page} in
theorem get_enter_ne (h : m ≠ page.pageNum) : (cache.enter page).get m = cache.get m :=
  get_insert_ne cache h

variable {cache n m} in
theorem unpinned_drop : (cache.drop n).Unpinned m ↔ m ≠ n ∧ cache.Unpinned m := by
  by_cases hEq : m = n
  · simp [Unpinned, hEq]
  · simp [Unpinned, get_drop_ne cache hEq, hEq]

variable {cache m page} in
theorem unpinned_enter : (cache.enter page).Unpinned m ↔
    (m = page.pageNum ∧ page.refsNum = 0) ∨ (m ≠ page.pageNum ∧ cache.Unpinned m) := by
  by_cases hEq : m = page.pageNum
  · simp [Unpinned, hEq]
  · simp [Unpinned, get_enter_ne cache hEq, hEq]

variable {n m} in
theorem mem_listAdd {pages : List PageNum} : m ∈ listAdd n pages ↔ m = n ∨ m ∈ pages := by
  by_cases hEq : m = n
  · simp [listAdd, hEq]
  · simp [listAdd, hEq, mem_erase_of_ne hEq]

variable {n} in
theorem nodup_listAdd {pages : List PageNum} (h : pages.Nodup) : (listAdd n pages).Nodup := by
  rw [listAdd, nodup_append]
  refine ⟨h.erase n, nodup_singleton n, ?_⟩
  intro m hMem k hK hEq
  rw [mem_singleton] at hK
  exact (h.mem_erase_iff.1 hMem).1 (hEq.trans hK)

variable {cache page} in
theorem mem_unpinnedPages_enter_self (h : page.pageNum ∉ cache.unpinnedPages) :
    page.pageNum ∈ (cache.enter page).unpinnedPages ↔ page.refsNum = 0 := by
  by_cases hRefs : page.refsNum = 0
  · simp [enter, insert, hRefs, mem_listAdd]
  · simp [enter, insert, hRefs, h]

variable {cache m page} in
theorem mem_unpinnedPages_enter_of_ne (h : m ≠ page.pageNum) :
    m ∈ (cache.enter page).unpinnedPages ↔ m ∈ cache.unpinnedPages := by
  by_cases hRefs : page.refsNum = 0
  · simp [enter, insert, hRefs, mem_listAdd, h]
  · simp [enter, insert, hRefs]

variable {n m} in
theorem get_update_ne (f : PageFrame P → PageFrame P) (h : m ≠ n) :
    (cache.update n f).get m = cache.get m := by
  unfold update
  cases hPage : cache.get n with
  | none => rfl
  | some page => simp [get, lookup_insert_ne h]

theorem get_update_self (f : PageFrame P → PageFrame P) :
    (cache.update n f).get n = (cache.get n).map f := by
  unfold update
  cases hPage : cache.get n with
  | none => exact hPage
  | some page => simp [get]

variable {cache n m page} in
theorem get_update_eq_some {f : PageFrame P → PageFrame P}
    (h : (cache.update n f).get m = some page) :
    (m = n ∧ ∃ old, cache.get n = some old ∧ f old = page) ∨ (m ≠ n ∧ cache.get m = some page) := by
  by_cases hEq : m = n
  · rw [hEq, get_update_self, Option.map_eq_some_iff] at h
    exact .inl ⟨hEq, h⟩
  · rw [get_update_ne cache f hEq] at h
    exact .inr ⟨hEq, h⟩

theorem isSome_get_update (f : PageFrame P → PageFrame P) :
    ((cache.update n f).get m).isSome = (cache.get m).isSome := by
  by_cases hEq : m = n
  · rw [hEq, get_update_self, Option.isSome_map]
  · rw [get_update_ne cache f hEq]

variable {cache n} in
theorem update_update (f g : PageFrame P → PageFrame P) :
    (cache.update n f).update n g = cache.update n (g ∘ f) := by
  cases hPage : cache.get n with
  | none => simp [update, hPage]
  | some page =>
    have hGet : (cache.update n f).get n = some (f page) := by
      rw [get_update_self, hPage, Option.map_some]
    unfold update at hGet ⊢
    simp only [hPage] at hGet ⊢
    simp only [hGet, insert_insert, Function.comp_apply]

section

variable (f : PageFrame P → PageFrame P)
include f

/-- A change of a frame is lost when its page leaves. -/
theorem drop_update : (cache.update n f).drop n = cache.drop n := by
  unfold update
  cases cache.get n with
  | none => rfl
  | some page =>
    have hErase : (cache.cacheMap.insert n (f page)).erase n = cache.cacheMap.erase n :=
      ext (kerase_cons_eq rfl)
    simp only [drop, hErase]

theorem capacity_update : (cache.update n f).capacity = cache.capacity := by
  unfold update
  cases cache.get n <;> rfl

theorem length_update : (cache.update n f).length = cache.length := by
  unfold update
  cases cache.get n <;> rfl

theorem unpinnedPages_update : (cache.update n f).unpinnedPages = cache.unpinnedPages := by
  unfold update
  cases cache.get n <;> rfl

end

variable {cache n} in
theorem mem_keys_iff : n ∈ cache.cacheMap.keys ↔ (cache.get n).isSome :=
  mem_keys.symm.trans lookup_isSome.symm

variable {cache page} in
theorem length_keys_insert (h : cache.get page.pageNum = none) :
    (cache.insert page).cacheMap.keys.length = cache.cacheMap.keys.length + 1 := by
  have hNot : page.pageNum ∉ cache.cacheMap.keys := by simp [mem_keys_iff, h]
  simp [insert, keys_insert, erase_of_not_mem hNot]

variable {cache n} in
theorem length_keys_drop (h : (cache.get n).isSome) :
    (cache.drop n).cacheMap.keys.length = cache.cacheMap.keys.length - 1 := by
  simp [drop, keys_erase, length_erase_of_mem (mem_keys_iff.2 h)]

variable {cache n} in
theorem length_keys_update (f : PageFrame P → PageFrame P) :
    (cache.update n f).cacheMap.keys.length = cache.cacheMap.keys.length := by
  unfold update
  cases hPage : cache.get n with
  | none => rfl
  | some page =>
    have hMem : n ∈ cache.cacheMap.keys := by simp [mem_keys_iff, hPage]
    have hPos : 0 < cache.cacheMap.keys.length := length_pos_of_mem hMem
    simp only [keys_insert, length_cons, length_erase_of_mem hMem]
    omega

variable {cache n m} in
theorem unpinned_update {f : PageFrame P → PageFrame P} : (cache.update n f).Unpinned m ↔
    if m = n then ∃ page, cache.get n = some page ∧ (f page).refsNum = 0
    else cache.Unpinned m := by
  by_cases hEq : m = n
  · simp [Unpinned, hEq, get_update_self]
  · simp [Unpinned, hEq, get_update_ne cache f hEq]

end Lookups

section Search

variable {cache : PCache P} {page : PageFrame P}

/-- A frame that may be given up, clean or dirty as `isDirty` says. -/
def eligible (isDirty : Bool) (page : PageFrame P) : Bool :=
  !page.walPending && page.isDirty == isDirty

/-- The search prefers a clean frame over the dirty one it keeps. -/
theorem findVictim_fst (kept : Option (PageFrame P)) (pending : Bool)
    (frames : List (PageFrame P)) :
    (findVictim kept pending frames).1 =
      (frames.find? (eligible false)).or (kept.or (frames.find? (eligible true))) := by
  induction frames generalizing kept pending with
  | nil => simp [findVictim]
  | cons page frames ih =>
    cases hPending : page.walPending with
    | true => simp [findVictim, eligible, hPending, ih]
    | false =>
      cases hDirty : page.isDirty with
      | false => simp [findVictim, eligible, hPending, hDirty]
      | true => cases kept <;> simp [findVictim, eligible, hPending, hDirty, ih]

theorem mem_candidates (h : cache.Linked) :
    page ∈ cache.candidates ↔
      cache.get page.pageNum = some page ∧ page.pageNum ∈ cache.unpinnedPages := by
  simp only [candidates, mem_filterMap, mem_reverse]
  constructor
  · rintro ⟨n, hMem, hGet⟩
    rw [h.pageNum_eq n page hGet]
    exact ⟨hGet, hMem⟩
  · rintro ⟨hGet, hMem⟩
    exact ⟨page.pageNum, hMem, hGet⟩

theorem mem_candidates_of_victim (h : cache.victim = some page) : page ∈ cache.candidates := by
  rw [victim, findVictim_fst, Option.none_or, Option.or_eq_some_iff] at h
  rcases h with hClean | ⟨-, hDirty⟩
  · exact mem_of_find?_eq_some hClean
  · exact mem_of_find?_eq_some hDirty

/-- A list without entries leaves nothing to search. -/
theorem victim_eq_none_of_length (h : cache.unpinnedPages.length = 0) : cache.victim = none := by
  rw [length_eq_zero_iff] at h
  simp [victim, candidates, h, findVictim]

end Search

namespace Linked

variable {cache : PCache P} {n : PageNum} {page : PageFrame P}

theorem empty (capacity : Nat) : (PCache.empty capacity : PCache P).Linked where
  nodup := nodup_nil
  resident n hMem := by simp [PCache.empty] at hMem
  pageNum_eq n page hPage := by simp [PCache.empty, get] at hPage

variable (h : cache.Linked)
include h

theorem not_mem_unpinnedPages (hNone : cache.get n = none) : n ∉ cache.unpinnedPages := by
  intro hMem
  simpa [hNone] using h.resident n hMem

theorem drop (n : PageNum) : (cache.drop n).Linked where
  nodup := h.nodup.erase n
  resident m hMem := by
    obtain ⟨hNe, hMem⟩ := h.nodup.mem_erase_iff.1 hMem
    rw [get_drop_ne cache hNe]
    exact h.resident m hMem
  pageNum_eq m page hGet := by
    by_cases hEq : m = n
    · simp [hEq] at hGet
    · exact h.pageNum_eq m page (by rwa [get_drop_ne cache hEq] at hGet)

theorem enter (page : PageFrame P) : (cache.enter page).Linked where
  nodup := by
    unfold PCache.enter
    split
    · exact nodup_listAdd h.nodup
    · exact h.nodup
  resident m hMem := by
    by_cases hEq : m = page.pageNum
    · simp [hEq]
    · rw [get_enter_ne cache hEq]
      exact h.resident m ((mem_unpinnedPages_enter_of_ne hEq).1 hMem)
  pageNum_eq m old hOld := by
    by_cases hEq : m = page.pageNum
    · rw [hEq, get_enter_self] at hOld
      cases hOld
      exact hEq.symm
    · rw [get_enter_ne cache hEq] at hOld
      exact h.pageNum_eq m old hOld

theorem update (n : PageNum) {f : PageFrame P → PageFrame P}
    (hNum : ∀ page, (f page).pageNum = page.pageNum) : (cache.update n f).Linked where
  nodup := by
    rw [unpinnedPages_update]
    exact h.nodup
  resident m hMem := by
    rw [unpinnedPages_update] at hMem
    rw [isSome_get_update]
    exact h.resident m hMem
  pageNum_eq m page hGet := by
    rcases get_update_eq_some hGet with ⟨rfl, old, hOld, rfl⟩ | ⟨-, hOld⟩
    · rw [hNum, h.pageNum_eq m old hOld]
    · exact h.pageNum_eq m page hOld

end Linked

namespace Sound

variable {cache : PCache P} {n : PageNum} {page : PageFrame P}

theorem empty (capacity : Nat) : (PCache.empty capacity : PCache P).Sound where
  toLinked := .empty capacity
  length_eq := rfl
  length_le := Nat.zero_le _
  mem_unpinnedPages n := by simp [PCache.empty, Unpinned, get]

theorem mem_unpinnedPages_iff (h : cache.Sound) (hPage : cache.get n = some page) :
    n ∈ cache.unpinnedPages ↔ page.refsNum = 0 := by
  rw [h.mem_unpinnedPages]
  simp [Unpinned, hPage]

/-- A resident page leaves the cache, held or not. -/
theorem drop (h : cache.Sound) (hPage : (cache.get n).isSome) : (cache.drop n).Sound where
  toLinked := h.toLinked.drop n
  length_eq := by
    rw [length_keys_drop hPage, ← h.length_eq]
    rfl
  length_le := (Nat.sub_le _ _).trans h.length_le
  mem_unpinnedPages m := by
    rw [unpinned_drop, ← h.mem_unpinnedPages]
    exact h.nodup.mem_erase_iff

/-- A new frame enters a cache with room. -/
theorem enter (h : cache.Sound) (hNone : cache.get page.pageNum = none)
    (hRoom : cache.length < cache.capacity) : (cache.enter page).Sound where
  toLinked := h.toLinked.enter page
  length_eq := (congrArg (· + 1) h.length_eq).trans (length_keys_insert hNone).symm
  length_le := hRoom
  mem_unpinnedPages m := by
    rw [unpinned_enter]
    by_cases hEq : m = page.pageNum
    · subst hEq
      rw [mem_unpinnedPages_enter_self (h.not_mem_unpinnedPages hNone)]
      simp
    · rw [mem_unpinnedPages_enter_of_ne hEq, h.mem_unpinnedPages]
      simp [hEq]

end Sound

section Calls

variable {cache : PCache P} {n : PageNum} {page : PageFrame P}
  {okay : PCachePutResult → PCache P → Prop} {failed : Empty → PCache P → Prop}
  {halted : PCache P → Prop}

theorem wp_assert {condition : PCache P → Bool} {okay : Unit → PCache P → Prop} :
    (assert condition).wp cache okay failed halted ↔
      if condition cache then okay () cache else halted cache := by
  simp only [assert, wp_bind, wp_read]
  split <;> simp_all

theorem wp_store (h : cache.Linked) (hNone : cache.get page.pageNum = none)
    (eviction : PCacheEviction) (hOkay : okay ⟨.success, eviction⟩ (cache.enter page)) :
    (store page eviction).wp cache okay failed halted := by
  have hNot := h.not_mem_unpinnedPages hNone
  by_cases hRefs : page.refsNum = 0
  · simpa [store, wp_assert, hRefs, insert, hNot, enter] using hOkay
  · simpa [store, hRefs, insert, enter] using hOkay

theorem remove_eq (hPage : cache.get n = some page)
    (hMem : n ∈ cache.unpinnedPages) (hRefs : page.refsNum = 0) :
    remove n cache = .ok .success (cache.drop n) := by
  refine eq_ok_of_wp ?_
  simp [remove, hPage, hRefs, wp_assert, hMem]

theorem remove_spec (h : cache.Sound) (n : PageNum) :
    (remove n).Returns cache
      fun _ after => after = cache ∨ ((cache.get n).isSome ∧ after = cache.drop n) := by
  cases hPage : cache.get n with
  | none => simp [remove, hPage]
  | some page =>
    by_cases hRefs : page.refsNum = 0
    · refine wp_of_ok (remove_eq hPage ((h.mem_unpinnedPages_iff hPage).2 hRefs) hRefs) ?_
      exact .inr ⟨rfl, rfl⟩
    · have hPos : page.refsNum > 0 := UInt32.pos_iff_ne_zero.2 hRefs
      simp [remove, hPage, hPos]

theorem forceRemove_spec (h : cache.Sound) (n : PageNum) :
    (forceRemove n).Returns cache
      fun _ after => after = cache ∨ ((cache.get n).isSome ∧ after = cache.drop n) := by
  cases hPage : cache.get n with
  | none => simp [forceRemove, hPage]
  | some page =>
    have hMem := h.mem_unpinnedPages_iff hPage
    by_cases hRefs : page.refsNum = 0
    · simp [forceRemove, hPage, hRefs, wp_assert, hMem]
    · simp [forceRemove, hPage, hRefs, wp_assert, hMem]

/-- A second frame of a resident page stops the process. -/
theorem put_of_isSome (hSome : (cache.get page.pageNum).isSome) :
    put page cache = .halt cache := by
  refine bind_halt ?_
  show (if (cache.get page.pageNum).isNone then pure () else halt : CacheOp P Unit) cache = _
  rw [if_neg (by simp [Option.isSome_iff_ne_none.1 hSome])]
  rfl

/-- How a `put` of a page that is not resident ends. -/
inductive PutStep (cache : PCache P) (page : PageFrame P) : PCachePutResult → PCache P → Prop where
  | room (hRoom : cache.length ≠ cache.capacity) :
      PutStep cache page ⟨.success, .none⟩ (cache.enter page)
  | full (hFull : cache.length = cache.capacity) (hVictim : cache.victim = none)
      (status : PCacheResult) (hStatus : status = .walPending ∨ status = .noVictim) :
      PutStep cache page ⟨status, .none⟩ cache
  | flush (hFull : cache.length = cache.capacity) (victim : PageFrame P)
      (hVictim : cache.victim = some victim)
      (hFlush : victim.isDirty = true ∧ victim.needFlushing = true) :
      PutStep cache page ⟨.dirtyFlush, false, some victim.pageNum, true⟩ cache
  | evict (hFull : cache.length = cache.capacity) (victim : PageFrame P)
      (hVictim : cache.victim = some victim)
      (hFlush : ¬(victim.isDirty = true ∧ victim.needFlushing = true)) :
      PutStep cache page ⟨.success, true, some victim.pageNum, victim.isDirty⟩
        ((cache.drop victim.pageNum).enter page)

section

variable (h : cache.Sound) (hNone : cache.get page.pageNum = none)
include h hNone

theorem put_spec : (put page).Returns cache (PutStep cache page) := by
  simp only [put, wp_bind, wp_assert, hNone, Option.isNone_none, if_true, wp_read, id_eq]
  by_cases hFull : cache.length = cache.capacity
  swap
  · rw [if_pos hFull]
    exact wp_store h.toLinked hNone _ (.room hFull)
  rw [if_neg (not_not_intro hFull)]
  by_cases hList : cache.unpinnedPages.length = 0
  · rw [if_pos hList]
    exact .full hFull (victim_eq_none_of_length hList) _ (.inr rfl)
  rw [if_neg hList]
  rcases hFind : findVictim none false cache.candidates with ⟨found, pending⟩
  have hVictim : cache.victim = found := by rw [victim, hFind]
  cases found with
  | none =>
    refine .full hFull hVictim _ ?_
    cases pending
    · exact .inr rfl
    · exact .inl rfl
  | some victim =>
    obtain ⟨hGet, hMem⟩ := (mem_candidates h.toLinked).1 (mem_candidates_of_victim hVictim)
    by_cases hFlush : victim.isDirty = true ∧ victim.needFlushing = true
    · simp only [if_pos hFlush]
      exact .flush hFull victim hVictim hFlush
    · have hRefs := (h.mem_unpinnedPages_iff hGet).1 hMem
      have hNe : page.pageNum ≠ victim.pageNum := by
        intro hEq
        rw [hEq, hGet] at hNone
        exact Option.some_ne_none _ hNone
      simp only [if_neg hFlush, wp_bind]
      refine wp_of_ok (remove_eq hGet hMem hRefs) ?_
      simp only [wp_assert, decide_true, if_true]
      refine wp_store (h.toLinked.drop _) ?_ _ (.evict hFull victim hVictim hFlush)
      rw [get_drop_ne cache hNe, hNone]

/-- A new frame takes the place of a victim. -/
theorem Sound.replace {victim : PageFrame P} (hVictim : cache.victim = some victim) :
    ((cache.drop victim.pageNum).enter page).Sound := by
  have hGet := ((mem_candidates h.toLinked).1 (mem_candidates_of_victim hVictim)).1
  have hSome : (cache.get victim.pageNum).isSome := by simp [hGet]
  have hPos : 0 < cache.length := by
    rw [h.length_eq]
    exact length_pos_of_mem (mem_keys_iff.2 hSome)
  refine (h.drop hSome).enter ?_ ?_
  · rw [get_drop_ne cache (by rintro hEq; simp [← hEq, hNone] at hSome), hNone]
  · have hLe := h.length_le
    show cache.length - 1 < cache.capacity
    omega

theorem PutStep.sound {result : PCachePutResult} {after : PCache P}
    (hStep : PutStep cache page result after) :
    after.Sound := by
  cases hStep with
  | room hRoom => exact h.enter hNone (lt_of_le_of_ne h.length_le hRoom)
  | full => exact h
  | flush => exact h
  | evict hFull victim hVictim hFlush => exact h.replace hNone hVictim

end

/-- The cache with another count of references to a page. -/
def recount (n : PageNum) (refsNum : UInt32) (cache : PCache P) : PCache P :=
  cache.update n fun page => { page with refsNum := refsNum }

theorem unpinnedPages_recount (refsNum : UInt32) :
    (cache.recount n refsNum).unpinnedPages = cache.unpinnedPages :=
  unpinnedPages_update cache n _

/-- The cache after one more reference to a page with `refs` of them. -/
def pinned (n : PageNum) (refs : UInt32) (cache : PCache P) : PCache P :=
  let cache := cache.recount n (refs + 1)
  if refs = 0 then { cache with unpinnedPages := cache.unpinnedPages.erase n } else cache

/-- The cache after one of `refs` references to a page is gone. -/
def unpinned (n : PageNum) (refs : UInt32) (cache : PCache P) : PCache P :=
  let cache := cache.recount n (refs - 1)
  if refs = 1 then { cache with unpinnedPages := listAdd n cache.unpinnedPages } else cache

theorem get_pinned (refs : UInt32) (m : PageNum) :
    (cache.pinned n refs).get m = (cache.recount n (refs + 1)).get m := by
  unfold pinned
  split <;> rfl

theorem get_unpinned (refs : UInt32) (m : PageNum) :
    (cache.unpinned n refs).get m = (cache.recount n (refs - 1)).get m := by
  unfold unpinned
  split <;> rfl

variable (h : cache.Sound) (hPage : cache.get n = some page)
include h hPage

theorem refPage_eq : refPage n cache = .ok true (cache.pinned n page.refsNum) := by
  refine eq_ok_of_wp ?_
  simp only [refPage, wp_bind, wp_read, hPage, wp_modify]
  by_cases hRefs : page.refsNum = 0
  · have hMem : n ∈ cache.unpinnedPages := (h.mem_unpinnedPages_iff hPage).2 hRefs
    simp [hRefs, pinPage, get_update_self, hPage, unpinnedPages_update, hMem, pinned, recount]
  · have hNe : page.refsNum + 1 ≠ 1 := fun hEq => hRefs (by simpa using hEq)
    simp [hRefs, hNe, pinned, recount]

theorem unrefPage_eq (hRefs : page.refsNum ≠ 0) :
    unrefPage n cache = .ok () (cache.unpinned n page.refsNum) := by
  have hNot : n ∉ cache.unpinnedPages := fun hMem => hRefs ((h.mem_unpinnedPages_iff hPage).1 hMem)
  refine eq_ok_of_wp ?_
  simp only [unrefPage, wp_bind, wp_read, hPage, wp_modify]
  by_cases hOne : page.refsNum = 1
  · simp [hOne, unpinPage, get_update_self, hPage, wp_assert, unpinnedPages_update, hNot,
      unpinned, recount]
  · have hNe : page.refsNum - 1 ≠ 0 := by grind
    simp [hOne, hNe, unpinned, recount]

end Calls

namespace Sound

variable {cache : PCache P} {n : PageNum} {page : PageFrame P}

variable (h : cache.Sound)
include h

theorem update (n : PageNum) {f : PageFrame P → PageFrame P}
    (hNum : ∀ page, (f page).pageNum = page.pageNum)
    (hRefs : ∀ page, (f page).refsNum = 0 ↔ page.refsNum = 0) : (cache.update n f).Sound where
  toLinked := h.toLinked.update n hNum
  length_eq := by
    rw [length_keys_update, ← h.length_eq]
    exact length_update cache n f
  length_le := by
    rw [length_update, capacity_update]
    exact h.length_le
  mem_unpinnedPages m := by
    rw [unpinnedPages_update, h.mem_unpinnedPages, unpinned_update]
    split
    · rename_i hEq
      simp [Unpinned, hEq, hRefs]
    · exact Iff.rfl

variable (hPage : cache.get n = some page)
include hPage

/-- A change of the counter and of the list that agree with each other. -/
theorem recount (refs : UInt32) (pages : List PageNum) (hNodup : pages.Nodup)
    (hPages : ∀ m, m ∈ pages ↔ if m = n then refs = 0 else m ∈ cache.unpinnedPages) :
    { cache.recount n refs with unpinnedPages := pages }.Sound := by
  have hLinked := h.toLinked.update n (f := fun page => { page with refsNum := refs }) fun _ => rfl
  refine ⟨⟨hNodup, ?_, hLinked.pageNum_eq⟩, ?_, ?_, ?_⟩
  · intro m hMem
    show ((cache.recount n refs).get m).isSome
    rw [PCache.recount, isSome_get_update]
    rw [hPages] at hMem
    split at hMem
    · rename_i hEq
      simp [hEq, hPage]
    · exact h.resident m hMem
  · show (cache.recount n refs).length = (cache.recount n refs).cacheMap.keys.length
    rw [PCache.recount, length_keys_update, ← h.length_eq]
    simp [PCache.update, hPage]
  · show (cache.recount n refs).length ≤ (cache.recount n refs).capacity
    simpa [PCache.recount, PCache.update, hPage] using h.length_le
  · intro m
    show m ∈ pages ↔ (cache.recount n refs).Unpinned m
    rw [hPages, PCache.recount, unpinned_update, h.mem_unpinnedPages]
    simp [hPage]

theorem pinned (hRange : page.refsNum + 1 ≠ 0) : (cache.pinned n page.refsNum).Sound := by
  unfold PCache.pinned
  split
  · refine h.recount hPage (page.refsNum + 1) _ ?_ ?_
    · rw [unpinnedPages_recount]
      exact h.nodup.erase n
    · intro m
      rw [unpinnedPages_recount, h.nodup.mem_erase_iff]
      by_cases hEq : m = n <;> simp [hEq, hRange]
  · rename_i hRefs
    refine h.recount hPage (page.refsNum + 1) (cache.recount n _).unpinnedPages ?_ ?_
    · rw [unpinnedPages_recount]
      exact h.nodup
    · intro m
      rw [unpinnedPages_recount]
      by_cases hEq : m = n
      · simp [hEq, h.mem_unpinnedPages_iff hPage, hRefs, hRange]
      · simp [hEq]

theorem unpinned (hRefs : page.refsNum ≠ 0) : (cache.unpinned n page.refsNum).Sound := by
  have hNot : n ∉ cache.unpinnedPages := fun hMem => hRefs ((h.mem_unpinnedPages_iff hPage).1 hMem)
  unfold PCache.unpinned
  split
  · rename_i hOne
    refine h.recount hPage (page.refsNum - 1) _ ?_ ?_
    · rw [unpinnedPages_recount]
      exact nodup_listAdd h.nodup
    · intro m
      rw [unpinnedPages_recount, mem_listAdd]
      by_cases hEq : m = n <;> simp [hEq, hOne]
  · rename_i hOne
    have hNe : page.refsNum - 1 ≠ 0 := by grind
    refine h.recount hPage (page.refsNum - 1) (cache.recount n _).unpinnedPages ?_ ?_
    · rw [unpinnedPages_recount]
      exact h.nodup
    · intro m
      rw [unpinnedPages_recount]
      by_cases hEq : m = n <;> simp [hEq, hNe, hNot]

end Sound

end PCache

end Stoneleaf
