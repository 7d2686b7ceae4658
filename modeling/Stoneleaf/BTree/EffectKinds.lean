import Mathlib.Data.List.Induction
import Stoneleaf.BTree.WellFormed

/-!
# The effects of one action

An insert or a remove records an effect each time it touches a page, and
`PendingBTreeAction::add_effect` keeps one per page. Here the list it ends with is
compared with the history of each page: a page freed by the action is to end as freed,
also when freeing another page links it again.
-/

namespace Stoneleaf

open Library PendingBTreeAction List

section History

variable {P : Type}

/-- The effects recorded for a page, in order. -/
def effectsOn (n : PageNum) (recorded : List (PageEffect P)) : List (PageEffect P) :=
  recorded.filter (·.pageNum = n)

/-- What became of a page with these effects: it was freed and not allocated again, or
else it was allocated, or else it was only written. -/
def historyKind (kinds : List PageEffectKind) : PageEffectKind :=
  if .free ∈ kinds.reverse.takeWhile (· ≠ .allocate) then .free
  else if .allocate ∈ kinds then .allocate else .write

/-- The kind `add_effect` gives to the effect of a page that has one of kind `current`. -/
def mergeKind (current kind : PageEffectKind) : PageEffectKind :=
  if current = .allocate ∧ kind = .write then .allocate else kind

/-- The list names each page once, with the image recorded last and the kind that tells
what became of the page. -/
structure TellsHistory (recorded effects : List (PageEffect P)) : Prop where
  distinct : (effects.map PageEffect.pageNum).Nodup
  last n : effects.find? (·.pageNum = n) = (effectsOn n recorded).getLast?.map fun e =>
    { e with kind := historyKind ((effectsOn n recorded).map PageEffect.kind) }

/-- The last effect on the page writes it, although it was freed before. -/
def WrittenFreed (n : PageNum) (recorded : List (PageEffect P)) : Prop :=
  ∃ before, (effectsOn n recorded).map PageEffect.kind = before ++ [.write] ∧
    historyKind before = .free

theorem effectsOn_concat (n : PageNum) (recorded : List (PageEffect P)) (effect : PageEffect P) :
    effectsOn n (recorded ++ [effect]) =
      if effect.pageNum = n then effectsOn n recorded ++ [effect] else effectsOn n recorded := by
  rw [effectsOn, filter_append, filter_singleton]
  by_cases h : effect.pageNum = n <;> simp [h, effectsOn]

theorem historyKind_concat (kinds : List PageEffectKind) (kind : PageEffectKind) :
    historyKind (kinds ++ [kind]) = if kind = .write then historyKind kinds else kind := by
  cases kind <;> simp [historyKind]

theorem find?_addEffect (n : PageNum) (effects : List (PageEffect P)) (effect : PageEffect P) :
    (addEffect effects effect).find? (·.pageNum = n) =
      if effect.pageNum = n then
        some { effect with
          kind := mergeKind (((effects.find? (·.pageNum = n)).map PageEffect.kind).getD .write)
            effect.kind }
      else effects.find? (·.pageNum = n) := by
  induction effects with
  | nil =>
    rcases eq_or_ne effect.pageNum n with rfl | h
    · simp [addEffect, mergeKind]
    · simp [addEffect, h]
  | cons current rest ih =>
    by_cases hPage : current.pageNum = effect.pageNum
    · rcases eq_or_ne effect.pageNum n with rfl | h
      · by_cases hKind : current.kind = .allocate ∧ effect.kind = .write <;>
          simp [addEffect, mergeKind, hPage, hKind]
      · by_cases hKind : current.kind = .allocate ∧ effect.kind = .write <;>
          simp [addEffect, hPage, h, hKind]
    · rw [addEffect, if_neg hPage]
      rcases eq_or_ne effect.pageNum n with rfl | h
      · rw [find?_cons_of_neg (by simpa using hPage),
          find?_cons_of_neg (by simpa using hPage), ih]
      · rw [if_neg h] at ih ⊢
        rw [find?_cons, find?_cons, ih]

/-- The list after the recorded effects, page by page: the last one, with the kinds merged
in their order. -/
theorem find?_foldl_addEffect (n : PageNum) (recorded : List (PageEffect P)) :
    (recorded.foldl addEffect []).find? (·.pageNum = n) =
      (effectsOn n recorded).getLast?.map fun e =>
        { e with kind := ((effectsOn n recorded).map PageEffect.kind).foldl mergeKind .write } := by
  induction recorded using List.reverseRecOn with
  | nil => rfl
  | append_singleton recorded effect ih =>
    rw [foldl_append, foldl_cons, foldl_nil, find?_addEffect, ih, effectsOn_concat]
    by_cases h : effect.pageNum = n
    · rw [if_pos h, if_pos h, getLast?_concat, Option.map_some, map_append, foldl_append]
      cases hLast : effectsOn n recorded using List.reverseRecOn with
      | nil => rfl
      | append_singleton => simp
    · rw [if_neg h, if_neg h]

theorem nodup_foldl_addEffect (recorded : List (PageEffect P)) :
    ((recorded.foldl addEffect []).map PageEffect.pageNum).Nodup := by
  induction recorded using List.reverseRecOn with
  | nil => exact nodup_nil
  | append_singleton recorded effect ih =>
    rw [foldl_append]
    exact nodup_addEffect ih

/-- Merging the kinds in order agrees with the history on the pages that end as allocated. -/
theorem merged_eq_allocate_iff (kinds : List PageEffectKind) :
    kinds.foldl mergeKind .write = .allocate ↔ historyKind kinds = .allocate := by
  induction kinds using List.reverseRecOn with
  | nil => decide
  | append_singleton kinds kind ih =>
    rw [foldl_append, historyKind_concat]
    cases kind <;> simp [mergeKind, ih]

/-- The merged kind differs from the history only for a page written after it was freed. -/
theorem merged_eq_historyKind_iff (kinds : List PageEffectKind) :
    kinds.foldl mergeKind .write = historyKind kinds ↔
      ¬∃ before, kinds = before ++ [.write] ∧ historyKind before = .free := by
  cases kinds using List.reverseRecOn with
  | nil => simp [historyKind]
  | append_singleton kinds kind =>
    have hMerged := merged_eq_allocate_iff kinds
    rw [foldl_append, historyKind_concat]
    cases kind with
    | write =>
      cases hKind : historyKind kinds <;> simp_all [mergeKind]
    | allocate => simp [mergeKind]
    | free => simp [mergeKind]

/-- The effects of an action tell what became of its pages unless it writes a page it has
freed. -/
theorem tells_history_iff (recorded : List (PageEffect P)) :
    TellsHistory recorded (recorded.foldl addEffect []) ↔ ∀ n, ¬WrittenFreed n recorded := by
  have hKind : ∀ n, (recorded.foldl addEffect []).find? (·.pageNum = n) =
      (effectsOn n recorded).getLast?.map (fun e =>
        { e with kind := historyKind ((effectsOn n recorded).map PageEffect.kind) }) ↔
      ¬WrittenFreed n recorded := by
    intro n
    rw [WrittenFreed, ← merged_eq_historyKind_iff, find?_foldl_addEffect]
    cases effectsOn n recorded using List.reverseRecOn with
    | nil => simp [historyKind]
    | append_singleton => simp
  constructor
  · intro h n
    exact (hKind n).1 (h.last n)
  · intro h
    exact ⟨nodup_foldl_addEffect recorded, fun n => (hKind n).2 (h n)⟩

end History

section Collapse

/-- What the removal of a key of the twins does with the freelist: it frees the right leaf, then the
root. -/
def freeTwins : Op DecodedPage (List (PageEffect DecodedPage)) := do
  let leaf ← Program.orHalt (← freePage (decodedEnv fun _ => false) 3)
  let root ← Program.orHalt (← freePage (decodedEnv fun _ => false) 1)
  return leaf ++ root

/-- The kinds in the record of the removal of the smallest key. -/
def collapseKinds (s : TreeState) : Option (List (PageEffectKind × PageNum)) :=
  (removeImpl (decodedEnv fun _ => false)
    (.action 1 1 (.deleteUndo (rowKey 0) (ValueCodec.makeBool true)))
    (rowKey 0) s).state.wal.records.getLast?.map fun record =>
      record.effects.map fun e => (e.kind, e.pageNum)

/-- Freeing the root links the freed leaf, so its effect is that of a written page, also in
the record of the removal. -/
theorem collapse_not_tells_history : ∃ s recorded s',
    openPager decodedFormat twinFile .empty = some s ∧ freeTwins s = .ok recorded s' ∧
      ¬TellsHistory recorded (recorded.foldl addEffect []) ∧
      collapseKinds s = some [(.write, 2), (.free, 1), (.write, 0), (.write, 3)] := by
  refine ⟨_, _, _, rfl, rfl, ?_, by decide +kernel⟩
  intro h
  have hKind := congrArg (Option.map PageEffect.kind) (h.last 3)
  revert hKind
  decide +kernel

end Collapse

end Stoneleaf
