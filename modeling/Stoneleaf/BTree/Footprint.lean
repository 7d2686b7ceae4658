import Stoneleaf.BTree.Mutation
import Stoneleaf.Storage.PagerRules

/-!
What a mutation leaves behind, for pages of any format: every page it changed has a recorded
effect with the final content of the page, and the log has not been touched. The argument
walks through the code with a list of the pages that were changed and not recorded yet.
-/

namespace Stoneleaf

open Library Program List PendingBTreeAction

/-- A property of page contents that no operation on a page can break. -/
structure PageInvariant {P : Type} (format : PageFormat P) (Q : PageNum → P → Prop) : Prop where
  initializePage : ∀ n kind, Q n (format.initializePage n kind)
  flush : ∀ n node page page', Q n page → format.flush node page = some page' → Q n page'
  fillInitialLeaf : ∀ n page, Q n page → Q n (format.fillInitialLeaf page)
  fillInitialInternal : ∀ n page, Q n page → Q n (format.fillInitialInternal page)
  writeFreelistLinks : ∀ n next prev page, Q n page → Q n (format.writeFreelistLinks next prev page)
  serializeHeader : ∀ n header page, Q n page → Q n (format.serializeHeader header page)

/-- Since the state `s₀`, only the pages with a recorded effect and those listed as unrecorded
have changed, and the effects of all others are up to date. -/
structure Footprint {P : Type} (Q : PageNum → P → Prop) (s₀ : OpState P)
    (unrecorded : List PageNum) (pages : PageNum → P) (effects : List (PageEffect P))
    (wal : Wal P) : Prop where
  shaped : ∀ n, Q n (pages n)
  distinct : (effects.map PageEffect.pageNum).Nodup
  kept : ∀ n ∈ s₀.effects.map PageEffect.pageNum, n ∈ effects.map PageEffect.pageNum
  image : ∀ e ∈ effects, e.pageNum ∉ unrecorded → e.afterImage = pages e.pageNum
  same : ∀ n, n ∉ unrecorded → n ∉ effects.map PageEffect.pageNum → pages n = s₀.pages n
  wal : wal = s₀.wal

variable {P : Type} {env : PagerEnv P} {Q : PageNum → P → Prop} {s₀ s : OpState P}
  {n : PageNum} {page : P} {d d' : List PageNum} {α : Type}

def Tracked (Q : PageNum → P → Prop) (s₀ : OpState P) (unrecorded : List PageNum)
    (s : OpState P) : Prop :=
  Footprint Q s₀ unrecorded s.pages s.effects s.wal

namespace Tracked

variable (h : Tracked Q s₀ d s)
include h

theorem weaken (hSubset : d ⊆ d') : Tracked Q s₀ d' s where
  shaped := h.shaped
  distinct := h.distinct
  kept := h.kept
  image e he hn := h.image e he fun hMem => hn (hSubset hMem)
  same n hn := h.same n fun hMem => hn (hSubset hMem)
  wal := h.wal

theorem framed (hPage : Q n page) :
    Tracked Q s₀ (n :: d) (s.framed n page) where
  shaped m := by
    by_cases hm : m = n
    · subst hm
      simpa [OpState.framed] using hPage
    · simpa [OpState.framed, hm] using h.shaped m
  distinct := h.distinct
  kept := h.kept
  image e he hn := by
    obtain ⟨hNe, hOld⟩ := not_or.1 (mem_cons.not.1 hn)
    simpa [OpState.framed, hNe] using h.image e he hOld
  same m hn hm := by
    obtain ⟨hNe, hOld⟩ := not_or.1 (mem_cons.not.1 hn)
    simpa [OpState.framed, hNe] using h.same m hOld hm
  wal := h.wal

theorem recorded (kind : PageEffectKind) (hSubset : d ⊆ n :: d') :
    Tracked Q s₀ d' (s.recorded kind n) where
  shaped := h.shaped
  distinct := nodup_addEffect h.distinct
  kept m hm := mem_pageNums_addEffect.2 (Or.inr (h.kept m hm))
  image e he hn := by
    rcases mem_addEffect h.distinct he with ⟨hPage, hImage⟩ | ⟨hOld, hNe⟩
    · rw [hImage, hPage]
      rfl
    · exact h.image e hOld fun hMem => (mem_cons.1 (hSubset hMem)).elim hNe hn
  same m hn hm := by
    obtain ⟨hNe, hOld⟩ := not_or.1 (mem_pageNums_addEffect.not.1 hm)
    exact h.same m (fun hMem => (mem_cons.1 (hSubset hMem)).elim hNe hn) hOld
  wal := h.wal

/-- The effects that a pager call hands out name what it changed. -/
theorem recordedAll {effects : List (PageEffect P)}
    (hImages : ∀ e ∈ effects, e.afterImage = s.pages e.pageNum)
    (hSubset : d ⊆ effects.map PageEffect.pageNum ++ d') :
    Tracked Q s₀ d' (s.recordedAll effects) := by
  induction effects generalizing s d with
  | nil => exact h.weaken hSubset
  | cons e effects ih =>
    have hFirst : Tracked Q s₀ (effects.map PageEffect.pageNum ++ d')
        (s.recorded e.kind e.pageNum) := h.recorded e.kind hSubset
    have hState : s.recordedAll (e :: effects) =
        (s.recorded e.kind e.pageNum).recordedAll effects := by
      simp only [OpState.recordedAll, OpState.recorded, foldl_cons,
        ← hImages e mem_cons_self]
    rw [hState]
    exact ih hFirst (fun e' he => hImages e' (mem_cons_of_mem _ he)) (List.Subset.refl _)

end Tracked

/-- Partial correctness of a call that does not report a missing key. -/
abbrev Mutates {α : Type} (pre : OpState P → Prop) (x : Op P α) (post : α → OpState P → Prop) :
    Prop :=
  Triple pre x post fun e _ => e ≠ .keyNotInTree

/-- The call changes the list of unrecorded pages as given. -/
abbrev Tracks {α : Type} (Q : PageNum → P → Prop) (s₀ : OpState P) (x : Op P α)
    (d d' : List PageNum) : Prop :=
  Mutates (Tracked Q s₀ d) x fun _ => Tracked Q s₀ d'

/-- The frames, the header, the effects and the log are the same. -/
@[mk_iff]
structure SamePages (s s' : OpState P) : Prop where
  pages : s'.pages = s.pages
  dbHeader : s'.dbHeader = s.dbHeader
  effects : s'.effects = s.effects
  wal : s'.wal = s.wal

theorem SamePages.trans {s s' s'' : OpState P} (h : SamePages s s') (h' : SamePages s' s'') :
    SamePages s s'' :=
  ⟨h'.pages.trans h.pages, h'.dbHeader.trans h.dbHeader, h'.effects.trans h.effects,
    h'.wal.trans h.wal⟩

theorem Tracked.of_samePages {s' : OpState P} (h : Tracked Q s₀ d s) (hSame : SamePages s s') :
    Tracked Q s₀ d s' := by
  rw [Tracked, hSame.pages, hSame.effects, hSame.wal]
  exact h

/-- A call that only touches latches, pins and marks. -/
def Neutral {α : Type} (x : Op P α) : Prop :=
  ∀ s, x.wp s (fun _ s' => SamePages s s') (fun e _ => e ≠ .keyNotInTree) fun _ => True

theorem Neutral.tracks {x : Op P α} (h : Neutral x) : Tracks Q s₀ x d d := by
  intro s hs
  exact wp_conseq (h s) fun _ _ hSame => hs.of_samePages hSame

theorem Neutral.seq {α β : Type} {x : Op P α} {f : α → Op P β} {post : β → OpState P → Prop}
    (h : Neutral x) (hNext : ∀ a, Mutates (Tracked Q s₀ d) (f a) post) :
    Mutates (Tracked Q s₀ d) (x >>= f) post :=
  Triple.seq h.tracks hNext

theorem Neutral.pure (a : α) : Neutral (Pure.pure a : Op P α) :=
  fun _ => ⟨rfl, rfl, rfl, rfl⟩

theorem Neutral.fail {e : BTreeStatus} (h : e ≠ .keyNotInTree) :
    Neutral (Program.fail e : Op P α) :=
  fun _ => h

theorem Neutral.ite {c : Prop} [Decidable c] {x y : Op P α} (hx : Neutral x) (hy : Neutral y) :
    Neutral (if c then x else y) := by
  split
  · exact hx
  · exact hy

theorem Neutral.bind {α β : Type} {x : Op P α} {f : α → Op P β} (h : Neutral x)
    (hNext : ∀ a, Neutral (f a)) : Neutral (x >>= f) := by
  intro s
  refine wp_bind_of (h s) fun a s₁ hSame => ?_
  exact wp_conseq (hNext a s₁) fun _ _ hSame' => hSame.trans hSame'

section Primitives

theorem neutral_ioFault : Neutral (ioFault env) :=
  fun _ => ⟨rfl, rfl, rfl, rfl⟩

theorem neutral_lockExclusive : Neutral (P := P) (lockExclusive n) := by
  intro s
  simp [lockExclusive, wp_ite, samePages_iff]

theorem neutral_lockShared : Neutral (P := P) (lockShared n) := by
  intro s
  simp only [lockShared, wp_modify]
  split <;> exact ⟨rfl, rfl, rfl, rfl⟩

theorem neutral_release : Neutral (P := P) (release n) :=
  fun _ => ⟨rfl, rfl, rfl, rfl⟩

theorem neutral_releaseAllExclusiveExcept : Neutral (P := P) (releaseAllExclusiveExcept n) :=
  fun _ => ⟨rfl, rfl, rfl, rfl⟩

theorem neutral_releaseAll : Neutral (P := P) releaseAll :=
  fun _ => ⟨rfl, rfl, rfl, rfl⟩

theorem neutral_unrefPage : Neutral (P := P) (unrefPage n) :=
  fun _ => ⟨rfl, rfl, rfl, rfl⟩

theorem neutral_markWalPending : Neutral (P := P) (markWalPending n) := by
  intro s
  simp [markWalPending, wp_ite, samePages_iff]

theorem neutral_get : Neutral (get env n) := by
  intro s
  simp [get, wp_ite, OpState.called, samePages_iff]

theorem neutral_orHalt (o : Option α) : Neutral (P := P) (orHalt o) := by
  cases o <;> simp [Neutral, samePages_iff]

theorem neutral_peekPageType : Neutral (peekPageType env n) := by
  intro s
  simpa [peekPageType] using neutral_orHalt (env.format.peekPageType (s.pages n)) s

theorem neutral_decodeLeaf : Neutral (decodeLeaf env n) := by
  intro s
  simpa [decodeLeaf] using neutral_orHalt (env.format.decodeLeaf (s.pages n)) s

theorem neutral_decodeInternal : Neutral (decodeInternal env n) := by
  intro s
  simpa [decodeInternal] using neutral_orHalt (env.format.decodeInternal (s.pages n)) s

theorem tracks_recordPageEffect {kind : PageEffectKind} (d' : List PageNum)
    (hSubset : d ⊆ n :: d' := by simp) : Tracks Q s₀ (recordPageEffect kind n) d d' :=
  fun _ hs => hs.recorded kind hSubset

variable (hQ : PageInvariant env.format Q)
include hQ

theorem tracks_writeBack {node : PageNode} : Tracks Q s₀ (writeBack env n node) d (n :: d) := by
  intro s hs
  cases hFlush : env.format.flush node (s.pages n) with
  | none => simp [writeBack, hFlush]
  | some page =>
    simp only [writeBack, wp_bind, wp_frame, hFlush, wp_modify, wp_orHalt_some, wp_setFrame]
    exact hs.framed (hQ.flush n node _ page (hs.shaped n) hFlush)

end Primitives

section PagerCalls

/-- The effects that a pager call hands out are up to date and name all it changed. -/
def HandsOut (Q : PageNum → P → Prop) (s₀ : OpState P) (effects : List (PageEffect P))
    (s : OpState P) : Prop :=
  (∀ e ∈ effects, e.afterImage = s.pages e.pageNum) ∧
    Tracked Q s₀ (effects.map PageEffect.pageNum) s

/-- A pager call that returns a result hands out effects with it. -/
abbrev Hands {α : Type} (Q : PageNum → P → Prop) (s₀ : OpState P)
    (effectsOf : α → List (PageEffect P)) (x : Op P (Option α)) (d : List PageNum) : Prop :=
  Mutates (Tracked Q s₀ d) x fun result s => ∀ r ∈ result, HandsOut Q s₀ (effectsOf r) s

theorem tracks_recordPagerEffects {effects : List (PageEffect P)} :
    Mutates (HandsOut Q s₀ effects) (recordPagerEffects effects) fun _ => Tracked Q s₀ [] :=
  fun _ hs => hs.2.recordedAll hs.1 (by simp)

variable (hQ : PageInvariant env.format Q) {kind : V2PageKind}
include hQ

theorem tracks_setDbHeader {header : DBHeader} {d : List PageNum} :
    Tracks Q s₀ (setDbHeader env header) d (0 :: d) :=
  fun _ hs => hs.framed (hQ.serializeHeader 0 header _ (hs.shaped 0))

theorem tracks_setBtreeRoot {root : PageNum} :
    Hands Q s₀ id (setBtreeRoot env root) [] := by
  unfold setBtreeRoot
  refine neutral_lockExclusive.seq fun _ => ?_
  extract_lets rest
  have hRest : ∀ u, Hands Q s₀ id (rest u) [] := by
    intro u
    refine .seq (.read fun _ h => h) fun header => .ite (.pure (by simp)) ?_
    refine neutral_ioFault.seq fun _ => .ite (.pure (by simp)) ?_
    refine neutral_markWalPending.seq fun _ => .ite (.pure (by simp)) ?_
    refine .seq (tracks_setDbHeader hQ) fun _ s hs => ?_
    simp only [wp_bind, wp_pageEffect, wp_pure, Option.mem_def, Option.some.injEq, forall_eq']
    exact ⟨by simp, hs⟩
  exact .ite (neutral_lockExclusive.seq hRest) (hRest ())

theorem tracks_allocateNew :
    Hands Q s₀ Prod.snd (allocateNew env kind) [] := by
  unfold allocateNew
  refine .seq (.read fun _ h => h) fun header => ?_
  refine neutral_lockExclusive.seq fun _ => ?_
  refine neutral_ioFault.seq fun _ => .ite (.pure (by simp)) ?_
  refine neutral_markWalPending.seq fun _ => .ite (.pure (by simp)) fun s hs => ?_
  simp only [wp_bind, wp_setFrame, wp_modify, wp_read, wp_setDbHeader, wp_pageEffect, wp_pure,
    Option.mem_def, Option.some.injEq, forall_eq']
  refine ⟨by simp, ?_⟩
  have hNew := hs.framed (hQ.initializePage header.dbPageCount kind)
  exact hNew.framed (hQ.serializeHeader 0 _ _ (hNew.shaped 0))

theorem tracks_openFreelist {pageNum neighbour prev : PageNum} :
    Tracks Q s₀ (openFreelist env pageNum neighbour prev) [] [neighbour] := by
  have hStop : ∀ b : Bool, Tracks Q s₀ (pure b : Op P Bool) [] [neighbour] :=
    fun _ s hs => hs.weaken (by simp)
  unfold openFreelist
  extract_lets _ rest
  have hRest : ∀ u, Tracks Q s₀ (rest u) [] [neighbour] := by
    intro u
    refine neutral_ioFault.seq fun _ => .ite (hStop _) ?_
    refine neutral_markWalPending.seq fun _ => .ite (hStop _) ?_
    refine neutral_markWalPending.seq fun _ => .ite (hStop _) (.ite ?_ (hStop _))
    refine neutral_markWalPending.seq fun _ => .ite (hStop _) fun s hs => ?_
    simp only [wp_bind, wp_frame, wp_setFrame]
    exact hs.framed (hQ.writeFreelistLinks neighbour _ prev _ (hs.shaped neighbour))
  exact .ite (neutral_lockExclusive.seq hRest) (hRest ())

theorem tracks_allocateFromFreelist {head : PageNum} :
    Hands Q s₀ Prod.snd (allocateFromFreelist env head kind) [] := by
  unfold allocateFromFreelist
  refine neutral_lockExclusive.seq fun _ => ?_
  refine neutral_ioFault.seq fun _ => .ite (.pure (by simp)) ?_
  refine .seq (.read fun _ h => h) fun headFrame => ?_
  refine .seq (tracks_openFreelist hQ) fun _ => .ite (.pure (by simp)) ?_
  refine .seq (.read fun _ h => h) fun header => ?_
  refine .seq (tracks_setDbHeader hQ) fun _ s hs => ?_
  simp only [wp_bind, wp_setFrame, wp_modify, wp_freelistEffects, wp_pure, Option.mem_def,
    Option.some.injEq, forall_eq']
  have hHead := hs.framed (hQ.initializePage head kind)
  unfold PagerView.freelistEffects PagerView.beside
  refine ⟨by split <;> simp [PagerView.effect, OpState.view], hHead.weaken ?_⟩
  split <;> simp_all [PagerView.effect]

theorem tracks_allocatePage :
    Hands Q s₀ Prod.snd (allocatePage env kind) [] := by
  unfold allocatePage
  refine neutral_lockExclusive.seq fun _ => ?_
  refine .seq (.read fun _ h => h) fun header => ?_
  exact .ite (tracks_allocateFromFreelist hQ) (tracks_allocateNew hQ)

theorem tracks_freePage {pageNum : PageNum} :
    Hands Q s₀ id (freePage env pageNum) [] := by
  unfold freePage
  refine neutral_lockExclusive.seq fun _ => ?_
  refine neutral_lockExclusive.seq fun _ => ?_
  refine .seq (.read fun _ h => h) fun header => .ite (.pure (by simp)) ?_
  refine .seq (tracks_openFreelist hQ) fun _ => .ite (.pure (by simp)) fun s hs => ?_
  simp only [wp_bind, wp_frame, wp_setFrame, wp_setDbHeader, wp_freelistEffects, wp_pure,
    Option.mem_def, Option.some.injEq, forall_eq']
  have hFreed := hs.framed (hQ.writeFreelistLinks pageNum header.freelistHeadPageNum 0 _
    (hs.shaped pageNum))
  have hHeader := hFreed.framed (hQ.serializeHeader 0 { header with
      freelistHeadPageNum := pageNum
      freelistPageCount := header.freelistPageCount + 1 } _ (hFreed.shaped 0))
  unfold PagerView.freelistEffects PagerView.beside
  refine ⟨by split <;> simp [PagerView.effect, OpState.view], Tracked.weaken hHeader ?_⟩
  split <;> simp_all [PagerView.effect]

end PagerCalls

end Stoneleaf
