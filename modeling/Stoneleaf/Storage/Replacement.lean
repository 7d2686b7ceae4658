import Mathlib.Logic.Function.Basic
import Stoneleaf.Storage.PCache

/-!
The replacement order of the page cache. A run of calls is observed together with the time at
which each page was last unpinned, and the page that a full cache gives up is compared with the
least recently unpinned one.
-/

namespace Stoneleaf

open Library List Program Function
open List.Sublist (refl)

/-- A call on the cache, or a change of a resident frame through a pointer to it. -/
inductive CacheEvent (P : Type) where
  | put (page : PageFrame P)
  | pin (pageNum : PageNum)
  | unpin (pageNum : PageNum)
  | remove (pageNum : PageNum)
  | forceRemove (pageNum : PageNum)
  | write (pageNum : PageNum) (data : P) (isDirty walPending needFlushing : Bool)

/-- A cache with the history of its unpinnings: the number of calls so far, and for each page the
call that last left it without references. -/
structure ObservedCache (P : Type) where
  cache : PCache P
  clock : Nat
  unpinnedAt : PageNum → Nat

namespace ObservedCache

open PCache

variable {P : Type} {page : PageFrame P}

def fresh (capacity : Nat) : ObservedCache P :=
  ⟨PCache.empty capacity, 0, fun _ => 0⟩

/-- The state after a call, which may have left a page without references. A call that trips an
assertion is the end of the process, so the run goes on without it. -/
def after {α : Type} (s : ObservedCache P) (outcome : Outcome (PCache P) Empty α)
    (unpins : α → Option PageNum) : ObservedCache P :=
  match outcome with
  | .ok value cache =>
    ⟨cache, s.clock + 1, match unpins value with
      | none => s.unpinnedAt
      | some n => Function.update s.unpinnedAt n s.clock⟩
  | _ => s

theorem after_of_wp {α : Type} {s : ObservedCache P} {x : CacheOp P α} {unpins : α → Option PageNum}
    (h : x.wp s.cache (fun _ _ => False) (fun _ _ => True) fun _ => True) :
    s.after (x s.cache) unpins = s := by
  cases hRun : x s.cache with
  | ok value cache => exact (okay_of_wp hRun h).elim
  | fail error cache => rfl
  | halt cache => rfl

/-- One event. A count of references is never moved out of its range. -/
def step (s : ObservedCache P) : CacheEvent P → ObservedCache P
  | .put page =>
    s.after (PCache.put page s.cache) fun result =>
      if result.status = .success ∧ page.refsNum = 0 then some page.pageNum else none
  | .pin n =>
    if (s.cache.get n).any fun page => page.refsNum + 1 = 0 then s
    else s.after (PCache.refPage n s.cache) fun _ => none
  | .unpin n =>
    if (s.cache.get n).any fun page => page.refsNum = 0 then s
    else s.after (PCache.unrefPage n s.cache) fun _ =>
      if (s.cache.get n).any fun page => page.refsNum = 1 then some n else none
  | .remove n => s.after (PCache.remove n s.cache) fun _ => none
  | .forceRemove n => s.after (PCache.forceRemove n s.cache) fun _ => none
  | .write n data isDirty walPending needFlushing =>
    { s with cache := s.cache.update n fun page =>
        { page with
          data := data
          isDirty := isDirty
          walPending := walPending
          needFlushing := needFlushing } }

def run (s : ObservedCache P) (events : List (CacheEvent P)) : ObservedCache P :=
  events.foldl step s

/-- A resident page without references that is not pending, clean or dirty as `isDirty` says. -/
def Candidate (s : ObservedCache P) (isDirty : Bool) (n : PageNum) : Prop :=
  ∃ page, s.cache.get n = some page ∧ page.refsNum = 0 ∧ page.walPending = false ∧
    page.isDirty = isDirty

/-- The candidate that was unpinned before all the others. -/
def LeastRecent (s : ObservedCache P) (isDirty : Bool) (n : PageNum) : Prop :=
  s.Candidate isDirty n ∧ ∀ m, s.Candidate isDirty m → s.unpinnedAt n ≤ s.unpinnedAt m

/-- A `put` of this frame gives up the least recently unpinned clean page, and reports the least
recently unpinned dirty one for flushing. -/
def ReplacesLeastRecent (s : ObservedCache P) (page : PageFrame P) : Prop :=
  ∀ result, (PCache.put page s.cache).value? = some result →
    ∀ n, result.eviction.pageNum = some n →
      (result.eviction.happened = true ∧ result.eviction.wasDirty = false → s.LeastRecent false n) ∧
      (result.status = .dirtyFlush → s.LeastRecent true n)

/-- A `put` of this frame has no choice: there is one clean candidate at most, and if there is none
and the last unpinned dirty one has to be flushed, there is no other dirty one. -/
def NoChoice (s : ObservedCache P) (page : PageFrame P) : Prop :=
  s.cache.get page.pageNum = none → s.cache.length = s.cache.capacity →
    (∀ n m, s.Candidate false n → s.Candidate false m → n = m) ∧
    ((∀ n, ¬s.Candidate false n) → ∀ n last, s.cache.get n = some last →
      last.needFlushing = true → s.Candidate true n →
      (∀ m, s.Candidate true m → s.unpinnedAt m ≤ s.unpinnedAt n) → ∀ m, s.Candidate true m → m = n)

/-- The list of unpinned pages is in the order of the unpinnings. -/
structure Ordered (s : ObservedCache P) : Prop where
  sound : s.cache.Sound
  sorted : s.cache.unpinnedPages.Pairwise fun n m => s.unpinnedAt n < s.unpinnedAt m
  past : ∀ n ∈ s.cache.unpinnedPages, s.unpinnedAt n < s.clock

namespace Ordered

variable {s : ObservedCache P} {cache : PCache P} {n : PageNum}

theorem fresh (capacity : Nat) : (ObservedCache.fresh capacity : ObservedCache P).Ordered where
  sound := .empty capacity
  sorted := List.Pairwise.nil
  past n hMem := by simp [ObservedCache.fresh, PCache.empty] at hMem

variable (h : s.Ordered)
include h

/-- Pages may leave the list at any time. -/
theorem sublist (hSound : cache.Sound) (hList : cache.unpinnedPages.Sublist s.cache.unpinnedPages) :
    (⟨cache, s.clock + 1, s.unpinnedAt⟩ : ObservedCache P).Ordered where
  sound := hSound
  sorted := h.sorted.sublist hList
  past n hMem := Nat.lt_succ_of_lt (h.past n (hList.subset hMem))

/-- A page that is unpinned goes to the end of the list. -/
theorem concat (hSound : cache.Sound) (rest : List PageNum)
    (hList : cache.unpinnedPages = rest ++ [n]) (hRest : rest.Sublist s.cache.unpinnedPages) :
    (⟨cache, s.clock + 1, update s.unpinnedAt n s.clock⟩ : ObservedCache P).Ordered := by
  have hNot : ∀ m ∈ rest, m ≠ n := by
    have hNodup := hSound.nodup
    rw [hList, nodup_append] at hNodup
    exact fun m hMem => hNodup.2.2 m hMem n (mem_singleton.2 rfl)
  have hOld : ∀ m ∈ rest, update s.unpinnedAt n s.clock m = s.unpinnedAt m :=
    fun m hMem => update_of_ne (hNot m hMem) _ _
  have hPast : ∀ m ∈ rest, s.unpinnedAt m < s.clock := fun m hMem =>
    h.past m (hRest.subset hMem)
  refine ⟨hSound, ?_, ?_⟩
  · rw [hList, pairwise_append]
    refine ⟨?_, pairwise_singleton _ _, ?_⟩
    · refine (h.sorted.sublist hRest).imp_of_mem ?_
      intro m k hM hK hLt
      show update s.unpinnedAt n s.clock m < update s.unpinnedAt n s.clock k
      rwa [hOld m hM, hOld k hK]
    · intro m hM k hK
      show update s.unpinnedAt n s.clock m < update s.unpinnedAt n s.clock k
      rw [mem_singleton.1 hK, update_self, hOld m hM]
      exact hPast m hM
  · intro m hM
    rw [hList, mem_append, mem_singleton] at hM
    show update s.unpinnedAt n s.clock m < s.clock + 1
    rcases hM with hM | rfl
    · rw [hOld m hM]
      exact Nat.lt_succ_of_lt (hPast m hM)
    · rw [update_self]
      exact Nat.lt_succ_self _

/-- The list after a frame has been entered. -/
theorem enter (hSound : (cache.enter page).Sound) (hNot : page.pageNum ∉ cache.unpinnedPages)
    (hList : cache.unpinnedPages.Sublist s.cache.unpinnedPages) (eviction : PCacheEviction) :
    (s.after (.ok (⟨.success, eviction⟩ : PCachePutResult) (cache.enter page)) fun result =>
      if result.status = .success ∧ page.refsNum = 0 then some page.pageNum else none).Ordered := by
  by_cases hRefs : page.refsNum = 0
  · simp only [after, hRefs, and_self, if_true]
    refine h.concat hSound cache.unpinnedPages ?_ hList
    simp [PCache.enter, PCache.insert, hRefs, listAdd, erase_of_not_mem hNot]
  · simp only [after, hRefs, and_false, if_false]
    refine h.sublist hSound ?_
    simpa [PCache.enter, PCache.insert, hRefs] using hList

theorem put (page : PageFrame P) : (s.step (.put page)).Ordered := by
  cases hGet : s.cache.get page.pageNum with
  | some old =>
    have hHalt : PCache.put page s.cache = .halt s.cache := put_of_isSome (by simp [hGet])
    simpa [step, after, hHalt] using h
  | none =>
    obtain ⟨result, cache, hRun, hStep⟩ := exists_ok_of_wp (put_spec h.sound hGet)
    have hSound := hStep.sound h.sound hGet
    have hNot := h.sound.not_mem_unpinnedPages hGet
    simp only [step, hRun]
    cases hStep with
    | room hRoom => exact h.enter hSound hNot (refl _) _
    | full hFull hVictim status hStatus =>
      have hFail : status ≠ .success := by rintro rfl; simp at hStatus
      simp only [after, hFail, false_and, if_false]
      exact h.sublist hSound (refl _)
    | flush hFull victim hVictim hFlush =>
      simp only [after, reduceCtorEq, false_and, if_false]
      exact h.sublist hSound (refl _)
    | evict hFull victim hVictim hFlush =>
      refine h.enter hSound ?_ erase_sublist _
      exact fun hMem => hNot (mem_of_mem_erase hMem)

theorem pin (n : PageNum) : (s.step (.pin n)).Ordered := by
  cases hGet : s.cache.get n with
  | none =>
    have hRun : PCache.refPage n s.cache = .ok false s.cache :=
      eq_ok_of_wp (by simp [PCache.refPage, hGet])
    simp only [step, hGet, Option.any_none, Bool.false_eq_true, if_false, hRun, after]
    exact h.sublist h.sound (refl _)
  | some page =>
    simp only [step, hGet, Option.any_some, decide_eq_true_eq]
    split
    · exact h
    · rename_i hRange
      rw [refPage_eq h.sound hGet]
      refine h.sublist (h.sound.pinned hGet hRange) ?_
      unfold PCache.pinned
      split
      · simp only [unpinnedPages_recount]
        exact erase_sublist
      · rw [unpinnedPages_recount]

theorem unpin (n : PageNum) : (s.step (.unpin n)).Ordered := by
  cases hGet : s.cache.get n with
  | none =>
    rw [step, hGet, Option.any_none, if_neg Bool.false_ne_true, after_of_wp]
    · exact h
    · simp [PCache.unrefPage, hGet]
  | some page =>
    simp only [step, hGet, Option.any_some, decide_eq_true_eq]
    split
    · exact h
    · rename_i hRefs
      have hSound := h.sound.unpinned hGet hRefs
      rw [unrefPage_eq h.sound hGet hRefs]
      by_cases hOne : page.refsNum = 1
      · simp only [after, hOne, if_true]
        have hNot : n ∉ s.cache.unpinnedPages := fun hMem =>
          hRefs ((h.sound.mem_unpinnedPages_iff hGet).1 hMem)
        rw [hOne] at hSound
        refine h.concat hSound s.cache.unpinnedPages ?_ (refl _)
        simp [PCache.unpinned, unpinnedPages_recount, listAdd, erase_of_not_mem hNot]
      · simp only [after, hOne, if_false]
        refine h.sublist hSound ?_
        simp [PCache.unpinned, hOne, unpinnedPages_recount]

/-- Either removal takes a page out of the list or leaves the cache as it was. -/
theorem removed {α : Type} {x : CacheOp P α}
    (hSpec : x.Returns s.cache fun _ after => after = s.cache ∨ ((s.cache.get n).isSome ∧
      after = s.cache.drop n)) :
    (s.after (x s.cache) fun _ => none).Ordered := by
  obtain ⟨value, cache, hRun, rfl | ⟨hSome, rfl⟩⟩ := exists_ok_of_wp hSpec
  · rw [hRun]
    exact h.sublist h.sound (refl _)
  · rw [hRun]
    exact h.sublist (h.sound.drop hSome) erase_sublist

protected theorem step (event : CacheEvent P) : (s.step event).Ordered := by
  cases event with
  | put page => exact h.put page
  | pin n => exact h.pin n
  | unpin n => exact h.unpin n
  | remove n => exact h.removed (remove_spec h.sound n)
  | forceRemove n => exact h.removed (forceRemove_spec h.sound n)
  | write n data isDirty walPending needFlushing =>
    refine ⟨h.sound.update n (fun _ => rfl) fun _ => Iff.rfl, ?_, ?_⟩
    · simp only [ObservedCache.step, unpinnedPages_update]
      exact h.sorted
    · simp only [ObservedCache.step, unpinnedPages_update]
      exact h.past

protected theorem run (events : List (CacheEvent P)) : (s.run events).Ordered := by
  induction events generalizing s with
  | nil => exact h
  | cons event events ih => exact ih (h.step event)

end Ordered

section Choice

variable {s : ObservedCache P} {isDirty : Bool} {n m : PageNum} {victim : PageFrame P}

section

variable (h : s.Ordered)
include h

theorem candidate_iff : s.Candidate isDirty n ↔
    ∃ page ∈ s.cache.candidates, page.pageNum = n ∧ eligible isDirty page = true := by
  simp only [mem_candidates h.sound.toLinked, eligible, Bool.and_eq_true, Bool.not_eq_true',
    beq_iff_eq]
  constructor
  · rintro ⟨page, hGet, hRefs, hPending, hDirty⟩
    have hNum := h.sound.pageNum_eq n page hGet
    refine ⟨page, ⟨by rwa [hNum], ?_⟩, hNum, hPending, hDirty⟩
    rw [hNum]
    exact (h.sound.mem_unpinnedPages_iff hGet).2 hRefs
  · rintro ⟨page, ⟨hGet, hMem⟩, rfl, hPending, hDirty⟩
    exact ⟨page, hGet, (h.sound.mem_unpinnedPages_iff hGet).1 hMem, hPending, hDirty⟩

/-- The search meets the frames in the reverse order of their unpinnings. -/
theorem candidates_sorted :
    s.cache.candidates.Pairwise fun a b => s.unpinnedAt b.pageNum < s.unpinnedAt a.pageNum := by
  refine List.Pairwise.filterMap _ ?_ (pairwise_reverse.2 h.sorted)
  intro a b hLt page hPage page' hPage'
  rw [h.sound.pageNum_eq a page hPage, h.sound.pageNum_eq b page' hPage']
  exact hLt

/-- The first frame of a kind that the search meets is the one that was unpinned last. -/
theorem find?_candidates (hFind : s.cache.candidates.find? (eligible isDirty) = some victim) :
    s.Candidate isDirty victim.pageNum ∧
      ∀ m, s.Candidate isDirty m →
        m = victim.pageNum ∨ s.unpinnedAt m < s.unpinnedAt victim.pageNum := by
  refine ⟨(candidate_iff h).2 ⟨victim, mem_of_find?_eq_some hFind, rfl, find?_some hFind⟩, ?_⟩
  intro m hM
  obtain ⟨page, hMem, rfl, hPage⟩ := (candidate_iff h).1 hM
  obtain ⟨-, before, rest, hList, hBefore⟩ := find?_eq_some_iff_append.1 hFind
  have hSorted := candidates_sorted h
  rw [hList] at hMem hSorted
  rcases mem_append.1 hMem with hMem | hMem
  · have hNot := hBefore page hMem
    simp [hPage] at hNot
  rcases mem_cons.1 hMem with rfl | hMem
  · exact .inl rfl
  · exact .inr ((pairwise_cons.1 (pairwise_append.1 hSorted).2.1).1 page hMem)

theorem find?_candidates_eq_none :
    s.cache.candidates.find? (eligible isDirty) = none ↔ ∀ n, ¬s.Candidate isDirty n := by
  simp only [find?_eq_none, candidate_iff h]
  constructor
  · rintro hNone n ⟨page, hMem, -, hPage⟩
    exact hNone page hMem hPage
  · intro hNone page hMem hPage
    exact hNone page.pageNum ⟨page, hMem, rfl, hPage⟩

/-- The page found last-unpinned is the least recent one exactly if it is the only one. -/
theorem leastRecent_iff (hFind : s.cache.candidates.find? (eligible isDirty) = some victim) :
    s.LeastRecent isDirty victim.pageNum ↔ ∀ m, s.Candidate isDirty m → m = victim.pageNum := by
  obtain ⟨hVictim, hLast⟩ := find?_candidates h hFind
  constructor
  · rintro ⟨-, hLeast⟩ m hM
    rcases hLast m hM with hEq | hLt
    · exact hEq
    · exact absurd (hLeast m hM) (Nat.not_le.2 hLt)
  · intro hOnly
    refine ⟨hVictim, ?_⟩
    intro m hM
    rw [hOnly m hM]

end

/-- What a `put` returned decides whether it kept the order. -/
theorem replacesLeastRecent_of_eq {result : PCachePutResult} {cache : PCache P}
    (hRun : PCache.put page s.cache = .ok result cache) :
    s.ReplacesLeastRecent page ↔ ∀ n, result.eviction.pageNum = some n →
      (result.eviction.happened = true ∧ result.eviction.wasDirty = false → s.LeastRecent false n) ∧
      (result.status = .dirtyFlush → s.LeastRecent true n) := by
  simp [ReplacesLeastRecent, hRun, Outcome.value?]

theorem victim_cases (h : s.cache.victim = some victim) :
    s.cache.candidates.find? (eligible false) = some victim ∨
      (s.cache.candidates.find? (eligible false) = none ∧
        s.cache.candidates.find? (eligible true) = some victim) := by
  rwa [PCache.victim, findVictim_fst, Option.none_or, Option.or_eq_some_iff] at h

theorem isDirty_of_find? (h : s.cache.candidates.find? (eligible isDirty) = some victim) :
    victim.isDirty = isDirty := by
  have hSome := find?_some h
  simp only [eligible, Bool.and_eq_true, beq_iff_eq] at hSome
  exact hSome.2

/-- A clean victim is the least recent one exactly if it was the only one. -/
theorem noChoice_of_clean (h : s.Ordered) (hNone : s.cache.get page.pageNum = none)
    (hFull : s.cache.length = s.cache.capacity)
    (hFind : s.cache.candidates.find? (eligible false) = some victim) :
    s.LeastRecent false victim.pageNum ↔ s.NoChoice page := by
  have hVictim := (find?_candidates h hFind).1
  rw [leastRecent_iff h hFind]
  constructor
  · intro hOnly _ _
    refine ⟨fun n m hN hM => (hOnly n hN).trans (hOnly m hM).symm, ?_⟩
    intro hClean
    exact absurd hVictim (hClean victim.pageNum)
  · intro hChoice m hM
    exact (hChoice hNone hFull).1 m victim.pageNum hM hVictim

/-- A dirty victim is the least recent one, if it has to be flushed, exactly if it was the only
one. -/
theorem noChoice_of_dirty (h : s.Ordered) (hNone : s.cache.get page.pageNum = none)
    (hFull : s.cache.length = s.cache.capacity)
    (hClean : s.cache.candidates.find? (eligible false) = none)
    (hFind : s.cache.candidates.find? (eligible true) = some victim) :
    (victim.needFlushing = true → s.LeastRecent true victim.pageNum) ↔ s.NoChoice page := by
  have hGet : s.cache.get victim.pageNum = some victim :=
    ((mem_candidates h.sound.toLinked).1 (mem_of_find?_eq_some hFind)).1
  have hNoClean := (find?_candidates_eq_none h).1 hClean
  obtain ⟨hVictim, hLast⟩ := find?_candidates h hFind
  rw [leastRecent_iff h hFind]
  constructor
  · intro hOnly _ _
    refine ⟨fun n m hN => absurd hN (hNoClean n), ?_⟩
    intro _ n last hGetN hNeed hN hMost m hM
    -- the last unpinned dirty page is the one the search ends with
    have hEq : n = victim.pageNum := by
      rcases hLast n hN with hEq | hLt
      · exact hEq
      · exact absurd (hMost victim.pageNum hVictim) (Nat.not_le.2 hLt)
    subst hEq
    rw [hGet] at hGetN
    cases hGetN
    exact hOnly hNeed m hM
  · intro hChoice hNeed
    refine (hChoice hNone hFull).2 hNoClean victim.pageNum victim hGet hNeed hVictim ?_
    intro m hM
    rcases hLast m hM with rfl | hLt
    · exact Nat.le_refl _
    · exact Nat.le_of_lt hLt

theorem replacesLeastRecent_iff (h : s.Ordered) (page : PageFrame P) :
    s.ReplacesLeastRecent page ↔ s.NoChoice page := by
  cases hNone : s.cache.get page.pageNum with
  | some old =>
    have hHalt : PCache.put page s.cache = .halt s.cache := put_of_isSome (by simp [hNone])
    simp [ReplacesLeastRecent, NoChoice, hHalt, Outcome.value?, hNone]
  | none =>
    obtain ⟨result, cache, hRun, hStep⟩ := exists_ok_of_wp (put_spec h.sound hNone)
    rw [replacesLeastRecent_of_eq hRun]
    cases hStep with
    | room hRoom => simp [NoChoice, hRoom, PCacheEviction.none]
    | full hFull hVictim status hStatus =>
      rw [PCache.victim, findVictim_fst, Option.none_or, Option.or_eq_none_iff] at hVictim
      have hClean := (find?_candidates_eq_none h).1 hVictim.1
      have hDirty := (find?_candidates_eq_none h).1 hVictim.2
      simp [NoChoice, hClean, hDirty, PCacheEviction.none]
    | flush hFull victim hVictim hFlush =>
      rcases victim_cases hVictim with hFind | ⟨hClean, hFind⟩
      · exact absurd (isDirty_of_find? hFind) (by simp [hFlush.1])
      · rw [← noChoice_of_dirty h hNone hFull hClean hFind]
        simp [hFlush.2]
    | evict hFull victim hVictim hFlush =>
      rcases victim_cases hVictim with hFind | ⟨hClean, hFind⟩
      · rw [← noChoice_of_clean h hNone hFull hFind]
        simp [isDirty_of_find? hFind]
      · rw [← noChoice_of_dirty h hNone hFull hClean hFind]
        have hDirty := isDirty_of_find? hFind
        simp only [hDirty, true_and] at hFlush
        simp [hDirty, hFlush]

end Choice

/-- In every run of the cache, a `put` gives up or reports the least recently unpinned page exactly
if it had no choice between two of them. -/
theorem replacement_leastRecent_iff (capacity : Nat) (events : List (CacheEvent P))
    (page : PageFrame P) :
    ((fresh capacity).run events).ReplacesLeastRecent page ↔
      ((fresh capacity).run events).NoChoice page :=
  replacesLeastRecent_iff ((Ordered.fresh capacity).run events) page

/-- A clean frame of a page in use. -/
def heldFrame (n : PageNum) : PageFrame Unit :=
  ⟨n, n, (), 1, false, false, false⟩

/-- Two clean pages fill the cache and are unpinned one after the other. The next page takes the
place of the second one. -/
theorem replacement_mostRecent :
    ¬((fresh 2).run [.put (heldFrame 1), .put (heldFrame 2), .unpin 1, .unpin 2]
      ).ReplacesLeastRecent (heldFrame 3) := by
  intro hLeast
  have hVictim := hLeast ⟨.success, true, some 2, false⟩ (by decide +kernel) 2 rfl
  have hOrder := (hVictim.1 ⟨rfl, rfl⟩).2 1 ⟨⟨1, 1, (), 0, false, false, false⟩, by decide +kernel⟩
  exact absurd hOrder (by decide +kernel)

end ObservedCache

end Stoneleaf
