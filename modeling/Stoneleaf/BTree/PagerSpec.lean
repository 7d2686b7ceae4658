import Stoneleaf.BTree.Represent
import Stoneleaf.Storage.PagerSteps

/-!
What the pager calls that change the database header do to the freelist and to the pages in
use. Specifications leave the pages in use as an arbitrary list, so that the tree code can
choose it.
-/

namespace Stoneleaf

open Library Program List Function
open OpState (body marked locked)

namespace PagerView

variable (v : PagerView DecodedPage) (n : PageNum)

def body : PageBody :=
  (v.pages n).body

theorem body_mark : (v.mark n).body = v.body := rfl

theorem body_write (page : DecodedPage) : (v.write n page).body = update v.body n page.body := by
  funext m
  by_cases h : m = n <;> simp [body, write, h]

theorem body_setHeader (ioFails : Nat → Bool) (header : DBHeader) :
    (v.setHeader (decodedEnv ioFails).format header).body = update v.body 0 (.metadata header) :=
  body_write v 0 _

end PagerView

open PagerView (body_setHeader body_mark body_write dbHeader_linked takeHead linkFreed effect)

theorem body_of_view {s : TreeState} {v : PagerView DecodedPage} (h : s.view = v) :
    s.body = v.body :=
  congrArg PagerView.body h

section Bodies

variable {s t : TreeState} {n m : PageNum} {node : PageNode} {body : PageBody}

@[simp] theorem Advances.written_iff : Advances s (t.written n node body) ↔ Advances s t :=
  Advances.iff_of_eq rfl rfl rfl rfl rfl

@[simp] theorem writable_written : Writable (s.written n node body) ↔ Writable s := Iff.rfl

@[simp] theorem held_written : Claimed (s.written n node body) m ↔ Claimed s m := Iff.rfl

@[simp] theorem body_written (node : PageNode) (body : PageBody) :
    (s.written n node body).body = update s.body n body := by
  funext m
  by_cases h : m = n
  · subst h
    simp [OpState.body, OpState.written]
  · simp [OpState.body, OpState.written, h]

@[simp] theorem body_framed (page : DecodedPage) :
    (s.framed n page).body = update s.body n page.body := by
  funext m
  by_cases h : m = n
  · subst h
    simp [body, OpState.framed]
  · simp [body, OpState.framed, h]

@[simp] theorem body_unref : (s.unref n).body = s.body := rfl

@[simp] theorem body_pinned : (s.pinned n).body = s.body := rfl

@[simp] theorem body_locked : (s.locked n).body = s.body := rfl

@[simp] theorem body_marked : (s.marked n).body = s.body := rfl

@[simp] theorem body_recorded (kind : PageEffectKind) : (s.recorded kind n).body = s.body := rfl

@[simp] theorem body_recordedAll (effects : List (PageEffect DecodedPage)) :
    (s.recordedAll effects).body = s.body := rfl

end Bodies

/-- The outcome of taking a page for a new tree page, next to the pages already in use. -/
structure Allocated (s s' : TreeState) (kind : V2PageKind) (used : List PageNum)
    (q : PageNum) (free : List PageNum) : Prop where
  freePages : FreePages s'.body s'.dbHeader free
  accounts : Accounts s'.dbHeader (q :: (used ++ free))
  root : s'.dbHeader.btreeRootPageNum = s.dbHeader.btreeRootPageNum
  same : ∀ n ∈ used, s'.body n = s.body n
  blank : s'.body q = .blank kind
  held : Claimed s' q
  advances : Advances s s'
  writable : Writable s'

variable {ioFails : Nat → Bool} {s : TreeState} {used free : List PageNum}
  {entries : List (Key × Value)}

theorem allocateNew_spec {t : TreeState} (kind : V2PageKind) (hWritable : Writable s)
    (hFree : FreePages s.body s.dbHeader free) (hAccounts : Accounts s.dbHeader (used ++ free))
    (hPresents : Presents s t s.view []) (hZero : t.latches 0 = some .exclusive) :
    (allocateNew (decodedEnv ioFails) kind).Returns t
      fun result s' => (result = none ∧ Faulty ioFails) ∨ ∃ q effects free',
        result = some (q, effects) ∧
          Allocated s (s'.recordedAll effects) kind used q free' := by
  have hFar : ∀ n ∈ used ++ free, n ≠ 0 ∧ n ≠ s.dbHeader.dbPageCount := fun n hn =>
    ⟨(hAccounts.bounds n hn).1, (hAccounts.bounds n hn).2.ne⟩
  have hNew : s.dbHeader.dbPageCount ≠ 0 := hFree.pageCount.ne'
  refine wp_conseq (allocateNew_view kind hNew hPresents hZero) ?_
  rintro result s' (hNone | ⟨rfl, hPlaced⟩)
  · exact Or.inl hNone
  have hHeader : s'.dbHeader = { s.dbHeader with dbPageCount := s.dbHeader.dbPageCount + 1 } :=
    congrArg PagerView.dbHeader hPlaced.view
  have hBody : s'.body = update (update s.body s.dbHeader.dbPageCount (.blank kind)) 0
      (.metadata s'.dbHeader) := by
    rw [hHeader, body_of_view hPlaced.view, PagerView.extend, body_setHeader,
      body_mark, body_mark, body_write]
    rfl
  refine Or.inr ⟨_, _, free, rfl, ⟨?_, ?_, ?_, ?_, hFree.chain.congr fun n hn => ?_⟩, ?_, ?_,
    fun n hn => ?_, ?_, hPlaced.claimed _ (by simp), by simpa using hPlaced.advances,
    (hPlaced.writable hWritable).recordedAll fun e he => hPlaced.claimed _ ?_⟩
  · simp [hBody]
  · simp [hHeader]
  · simp [hHeader, hFree.head]
  · simp [hHeader, hFree.count]
  · simp [hBody, hFar n (by simp [hn])]
  · rw [OpState.recordedAll_dbHeader, hHeader]
    refine ⟨nodup_cons.2 ⟨fun hMem => (hFar _ hMem).2 rfl, hAccounts.nodup⟩, ?_⟩
    intro n hn
    rcases mem_cons.1 hn with rfl | hn
    · exact ⟨hNew, Nat.lt_succ_self _⟩
    · exact ⟨(hAccounts.bounds n hn).1, Nat.lt_succ_of_lt (hAccounts.bounds n hn).2⟩
  · simp [hHeader]
  · simp [hBody, hFar n (by simp [hn])]
  · simp [hBody, hNew]
  · simp only [mem_cons, not_mem_nil, or_false] at he
    rcases he with rfl | rfl <;> simp [effect]

/-- The neighbour of a page on the freelist has another back link. -/
theorem FreeChain.linked {old : PageNum} (q prev : PageNum) (hChain : FreeChain s.body old free)
    (hNodup : free.Nodup) (hZero : 0 ∉ free) :
    FreeChain (s.view.linked decodedFormat q prev (free.headD 0)).body prev free ∧
      ∀ n ∉ free, (s.view.linked decodedFormat q prev (free.headD 0)).body n = s.body n := by
  cases free with
  | nil => exact ⟨trivial, fun _ _ => rfl⟩
  | cons r free =>
    have hr : r ≠ 0 := fun h => hZero (by simp [h])
    have hLinks : (s.pages r).body = .freelist (free.headD 0) old := hChain.1
    have hNext : (DecodedPage.readFreelistLinks (s.pages r)).1 = free.headD 0 := by
      simp [DecodedPage.readFreelistLinks, hLinks]
    have hBody : (s.view.linked decodedFormat q prev r).body =
        update s.body r (.freelist (free.headD 0) prev) := by
      rw [PagerView.linked, PagerView.beside, if_pos hr, PagerView.relink, body_write,
        ← hNext]
      rfl
    rw [headD_cons, hBody]
    refine ⟨⟨update_self .., hChain.2.congr fun n hn => ?_⟩, fun n hn => ?_⟩
    · simp [ne_of_mem_of_not_mem hn (nodup_cons.1 hNodup).1]
    · simp [ne_of_not_mem_cons hn]

theorem allocateFromFreelist_spec {t : TreeState} (kind : V2PageKind) {q : PageNum}
    (hWritable : Writable s) (hFree : FreePages s.body s.dbHeader (q :: free))
    (hAccounts : Accounts s.dbHeader (used ++ q :: free)) (hPresents : Presents s t s.view [])
    (hZero : t.latches 0 = some .exclusive) :
    (allocateFromFreelist (decodedEnv ioFails) q kind).Returns t
      fun result s' => (result = none ∧ Faulty ioFails) ∨ ∃ q effects free',
        result = some (q, effects) ∧
          Allocated s (s'.recordedAll effects) kind used q free' := by
  have hTaken : Accounts s.dbHeader (q :: (used ++ free)) := hAccounts.perm perm_middle
  have hq : q ≠ 0 := (hTaken.bounds q (by simp)).1
  have hFar : ∀ n ∈ used ++ free, n ≠ 0 ∧ n ≠ q := fun n hn =>
    ⟨(hTaken.bounds n (mem_cons_of_mem _ hn)).1, fun hEq =>
      (nodup_cons.1 hTaken.nodup).1 (hEq ▸ hn)⟩
  have hApart := nodup_append.1 (nodup_cons.1 hTaken.nodup).2
  have hLinks : (s.view.pages q).body = .freelist (free.headD 0) 0 := hFree.chain.1
  have hNext : (DecodedPage.readFreelistLinks (s.view.pages q)).1 = free.headD 0 := by
    simp [DecodedPage.readFreelistLinks, hLinks]
  refine wp_conseq (allocateFromFreelist_view kind hq hNext hPresents hZero) ?_
  rintro result s' (hNone | ⟨rfl, hTook⟩)
  · exact Or.inl hNone
  obtain ⟨hChain, hSame⟩ := FreeChain.linked q 0 hFree.chain.2 hApart.2.1
    fun hMem => (hFar 0 (by simp [hMem])).1 rfl
  have hHeader : s'.dbHeader = { s.dbHeader with
      freelistHeadPageNum := free.headD 0
      freelistPageCount := s.dbHeader.freelistPageCount - 1 } :=
    (congrArg PagerView.dbHeader hTook.view).trans (by
      simp only [takeHead, dbHeader_linked]
      rfl)
  have hBody : s'.body = update (update (s.view.linked decodedFormat q 0 (free.headD 0)).body 0
      (.metadata s'.dbHeader)) q (.blank kind) := by
    rw [hHeader, body_of_view hTook.view, takeHead, body_write,
      body_setHeader, dbHeader_linked]
    rfl
  refine Or.inr ⟨_, _, free, rfl, ⟨?_, ?_, ?_, ?_, hChain.congr fun n hn => ?_⟩, ?_, ?_,
    fun n hn => ?_, ?_, hTook.claimed q (by simp), by simpa using hTook.advances,
    (hTook.writable hWritable).recordedAll (hTook.effectsReady _)⟩
  · simp [hBody, hq.symm]
  · simpa [hHeader] using hFree.pageCount
  · simp [hHeader]
  · simp [hHeader, hFree.count]
  · simp [hBody, hFar n (by simp [hn])]
  · exact hTaken.of_pageCount_eq (by simp [hHeader])
  · simp [hHeader]
  · simpa [hBody, hFar n (by simp [hn])] using hSame n fun hMem => hApart.2.2 n hn n hMem rfl
  · simp [hBody]

theorem allocatePage_spec (kind : V2PageKind) (hFree : FreePages s.body s.dbHeader free)
    (hAccounts : Accounts s.dbHeader (used ++ free)) (hWritable : Writable s) :
    (allocatePage (decodedEnv ioFails) kind).Returns s
      fun result s' => (result = none ∧ Faulty ioFails) ∨ ∃ q effects free',
        result = some (q, effects) ∧
          Allocated s (s'.recordedAll effects) kind used q free' := by
  simp only [allocatePage, wp_bind]
  refine wp_lockExclusive (hWritable.noShared _) ?_
  simp only [OpState.locked_dbHeader, wp_read]
  have hLocked := (Presents.refl hWritable.noShared).locked 0
  have hHead : (if s.dbHeader.freelistPageCount > 0 then s.dbHeader.freelistHeadPageNum else 0) =
      free.headD 0 := by
    rw [hFree.count, hFree.head]
    cases free <;> simp
  rw [hHead]
  cases free with
  | nil =>
    simp only [headD_nil, ne_eq, not_true_eq_false, if_false]
    exact allocateNew_spec kind hWritable hFree hAccounts hLocked (by simp)
  | cons q free =>
    have hq : q ≠ 0 := (hAccounts.bounds q (by simp)).1
    simp only [headD_cons, ne_eq, hq, not_false_eq_true, if_true]
    exact allocateFromFreelist_spec kind hWritable hFree hAccounts hLocked (by simp)

/-- The outcome of giving a page back, next to the pages still in use. -/
structure Freed (s s' : TreeState) (used : List PageNum) (free : List PageNum) : Prop where
  freePages : FreePages s'.body s'.dbHeader free
  accounts : Accounts s'.dbHeader (used ++ free)
  root : s'.dbHeader.btreeRootPageNum = s.dbHeader.btreeRootPageNum
  same : ∀ n ∈ used, s'.body n = s.body n
  advances : Advances s s'
  writable : Writable s'

theorem freePage_spec {v : PageNum} (hFree : FreePages s.body s.dbHeader free)
    (hAccounts : Accounts s.dbHeader (v :: (used ++ free))) (hWritable : Writable s) :
    (freePage (decodedEnv ioFails) v).Returns s
      fun result s' => (result = none ∧ Faulty ioFails) ∨ ∃ effects, result = some effects ∧
        Freed s (s'.recordedAll effects) used (v :: free) := by
  obtain ⟨hv, hvLt⟩ := hAccounts.bounds v (by simp)
  have hFar : ∀ n ∈ used ++ free, n ≠ 0 ∧ n ≠ v := fun n hn =>
    ⟨(hAccounts.bounds n (mem_cons_of_mem _ hn)).1,
      fun hEq => (nodup_cons.1 hAccounts.nodup).1 (hEq ▸ hn)⟩
  have hRange : ¬(v = 0 ∨ v ≥ s.dbHeader.dbPageCount) := not_or.2 ⟨hv, Nat.not_le.2 hvLt⟩
  have hApart := nodup_append.1 (nodup_cons.1 hAccounts.nodup).2
  obtain ⟨hChain, hSame⟩ := FreeChain.linked v v hFree.chain hApart.2.1
    fun hMem => (hFar 0 (by simp [hMem])).1 rfl
  refine wp_conseq (freePage_view hRange hWritable.noShared) ?_
  rintro result s' (hNone | ⟨rfl, hFreed⟩)
  · exact Or.inl hNone
  have hReady := hFreed.effectsReady .free
  rw [hFree.head] at hFreed
  have hHeader : s'.dbHeader = { s.dbHeader with
      freelistHeadPageNum := v
      freelistPageCount := s.dbHeader.freelistPageCount + 1 } :=
    (congrArg PagerView.dbHeader hFreed.view).trans (by
      simp only [linkFreed, dbHeader_linked]
      rfl)
  have hBody : s'.body = update (update (s.view.linked decodedFormat v v (free.headD 0)).body v
      (.freelist (free.headD 0) 0)) 0 (.metadata s'.dbHeader) := by
    rw [hHeader, body_of_view hFreed.view, linkFreed, body_setHeader,
      body_write, dbHeader_linked]
    rfl
  refine Or.inr ⟨_, rfl, ⟨?_, ?_, ?_, ?_, ?_, hChain.congr fun n hn => ?_⟩, ?_, ?_,
    fun n hn => ?_, by simpa using hFreed.advances, (hFreed.writable hWritable).recordedAll hReady⟩
  · simp [hBody]
  · simpa [hHeader] using hFree.pageCount
  · simp [hHeader]
  · simp [hHeader, hFree.count]
  · simp [hBody, hv]
  · simp [hBody, hFar n (by simp [hn])]
  · exact (hAccounts.perm perm_middle.symm).of_pageCount_eq (by simp [hHeader])
  · simp [hHeader]
  · simpa [hBody, hFar n (by simp [hn])] using hSame n fun hMem => hApart.2.2 n hn n hMem rfl

/-- The outcome of pointing the header at another root. -/
structure Rerooted (s s' : TreeState) (root : PageNum) (free : List PageNum) : Prop where
  freePages : FreePages s'.body s'.dbHeader free
  pageCount : s'.dbHeader.dbPageCount = s.dbHeader.dbPageCount
  root : s'.dbHeader.btreeRootPageNum = root
  same : ∀ n, n ≠ 0 → s'.body n = s.body n
  advances : Advances s s'
  writable : Writable s'

theorem setBtreeRoot_spec {root : PageNum} (hFree : FreePages s.body s.dbHeader free)
    (hAccounts : Accounts s.dbHeader free) (hRoot : root < s.dbHeader.dbPageCount)
    (hWritable : Writable s) :
    (setBtreeRoot (decodedEnv ioFails) root).Returns s
      fun result s' => (result = none ∧ Faulty ioFails) ∨ ∃ effects, result = some effects ∧
        Rerooted s (s'.recordedAll effects) root free := by
  refine wp_conseq (setBtreeRoot_view (fun h => Nat.not_le.2 hRoot h.1) hWritable.noShared) ?_
  rintro result s' (hNone | ⟨rfl, hSet⟩)
  · exact Or.inl hNone
  have hHeader : s'.dbHeader = { s.dbHeader with btreeRootPageNum := root } :=
    congrArg PagerView.dbHeader hSet.view
  have hBody : s'.body = update s.body 0 (.metadata s'.dbHeader) := by
    rw [hHeader, body_of_view hSet.view, PagerView.setRoot, body_setHeader]
    rfl
  refine Or.inr ⟨_, rfl, ⟨?_, ?_, ?_, ?_, hFree.chain.congr fun n hn => ?_⟩, ?_, ?_,
    fun n hn => ?_, by simpa using hSet.advances, (hSet.writable hWritable).recordedAll
      fun e he => hSet.claimed _ (by simp_all [effect])⟩
  · simp [hBody]
  · simpa [hHeader] using hFree.pageCount
  · simp [hHeader, hFree.head]
  · simp [hHeader, hFree.count]
  · simp [hBody, (hAccounts.bounds n hn).1]
  · simp [hHeader]
  · simp [hHeader]
  · simp [hBody, hn]

/-- The outcome of making a fresh page with the given content the root. -/
structure Rooted (s s' : TreeState) (body : PageBody) (used : List PageNum) (q : PageNum)
    (free : List PageNum) : Prop where
  freePages : FreePages s'.body s'.dbHeader free
  accounts : Accounts s'.dbHeader (q :: (used ++ free))
  root : s'.dbHeader.btreeRootPageNum = q
  same : ∀ n ∈ used, s'.body n = s.body n
  node : s'.body q = body
  advances : Advances s s'
  writable : Writable s'

theorem Allocated.setBtreeRoot_spec {s₁ t : TreeState} {kind : V2PageKind} {root : PageNum}
    {body : PageBody} (hAllocated : Allocated s s₁ kind used root free)
    (hBody : t.body = update s₁.body root body) (hHeader : t.dbHeader = s₁.dbHeader)
    (hAdvances : Advances s t) (hWritable : Writable t) :
    (setBtreeRoot (decodedEnv ioFails) root).Returns t
      fun result s' => (result = none ∧ Faulty ioFails) ∨ ∃ effects, result = some effects ∧
        Rooted s ((s'.unref root).recordedAll effects) body used root free := by
  obtain ⟨hZero, hLt⟩ := hAllocated.accounts.bounds root (by simp)
  obtain ⟨hFresh, hNodup⟩ := nodup_cons.1 hAllocated.accounts.nodup
  have hOther : ∀ n ∈ used ++ free, t.body n = s₁.body n := fun n hn => by
    simp [hBody, show n ≠ root from fun hEq => hFresh (hEq ▸ hn)]
  have hFree : FreePages t.body t.dbHeader free := hHeader ▸ hAllocated.freePages.congr
    (by simp [hBody, hZero.symm]) fun n hn => hOther n (by simp [hn])
  have hAccounts : Accounts t.dbHeader free := ⟨(nodup_append.1 hNodup).2.1,
    fun n hn => hHeader ▸ hAllocated.accounts.bounds n (by simp [hn])⟩
  refine wp_conseq (Stoneleaf.setBtreeRoot_spec hFree hAccounts (hHeader ▸ hLt) hWritable) ?_
  rintro result s' (hNone | ⟨effects, rfl, hRerooted⟩)
  · exact Or.inl hNone
  refine Or.inr ⟨effects, rfl, hRerooted.freePages, ?_, hRerooted.root, fun n hn => ?_, ?_, ?_,
    hRerooted.writable⟩
  · exact hAllocated.accounts.of_pageCount_eq (hRerooted.pageCount.trans (by rw [hHeader]))
  · rw [← hAllocated.same n hn, ← hOther n (by simp [hn])]
    exact hRerooted.same n (hAllocated.accounts.bounds n (by simp [hn])).1
  · rw [← update_self root body s₁.body, ← hBody]
    exact hRerooted.same root hZero
  · simpa using hAdvances.trans hRerooted.advances

/-- The outcome of a mutation on the pages: a sound tree with the given entries. -/
def Settled (s s' : TreeState) (entries : List (Key × Value)) : Prop :=
  ∃ tree free, Represents s' tree free ∧ Sound tree ∧ treeEntries tree = entries ∧
    Advances s s' ∧ Writable s'

theorem Settled.of_advances {s₁ s' : TreeState} (hSettled : Settled s₁ s' entries)
    (hAdvances : Advances s s₁) : Settled s s' entries := by
  obtain ⟨tree, free, hRep, hSound, hEntries, hRest, hWritable⟩ := hSettled
  exact ⟨tree, free, hRep, hSound, hEntries, hAdvances.trans hRest, hWritable⟩

theorem Settled.unref {s' : TreeState} (n : PageNum) (hSettled : Settled s s' entries) :
    Settled s (s'.unref n) entries := by
  obtain ⟨tree, free, hRep, hSound, hEntries, hRest, hWritable⟩ := hSettled
  exact ⟨tree, free, hRep.of_eq rfl rfl, hSound, hEntries, by simpa using hRest, hWritable⟩

end Stoneleaf
