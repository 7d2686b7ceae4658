import Stoneleaf.BTree.Page

/-!
Write-ahead log records in memory. A page image is a parameter: the same records carry raw
page bytes or decoded pages. The log itself is a flat list here; segments come later.
-/

namespace Stoneleaf

open List

abbrev Lsn := Nat

abbrev TransactionId := Nat

inductive AbortReason where
  | clientRequest
  | deadlockVictim
  | statementFailure
  | internalError
deriving DecidableEq, Repr

inductive PageEffectKind where
  | write
  | allocate
  | free
deriving DecidableEq, Repr

inductive SystemActionKind where
  | btreeSplit
  | btreeMerge
  | pageMaintenance
deriving DecidableEq, Repr

/-- The logical inverse of one user operation. -/
inductive UndoDescriptor where
  | insertUndo (key : Key)
  | updateUndo (key : Key) (oldValue : Value)
  | deleteUndo (key : Key) (oldValue : Value)
deriving DecidableEq

/-- One page named by a record, with the content the page is to have. -/
structure PageEffect (P : Type) where
  kind : PageEffectKind
  pageNum : PageNum
  afterImage : P

inductive WalPayload (P : Type) where
  | txnBegin
  | btreeAction (undo : UndoDescriptor) (effects : List (PageEffect P))
  | compensation (undoOfLsn undoNextLsn : Lsn) (effects : List (PageEffect P))
  | systemAction (kind : SystemActionKind) (effects : List (PageEffect P))
  | txnCommit (raftIndex : Nat)
  | txnAbort (reason : AbortReason)
  | txnEnd

structure PendingWalRecord (P : Type) where
  transactionId : TransactionId
  prevLsn : Lsn
  payload : WalPayload P

structure WalRecord (P : Type) where
  lsn : Lsn
  transactionId : TransactionId
  prevLsn : Lsn
  payload : WalPayload P

namespace WalPayload

/-- The page effects of a payload; lifecycle records have none. -/
def effects {P : Type} : WalPayload P → List (PageEffect P)
  | btreeAction _ effects => effects
  | compensation _ _ effects => effects
  | systemAction _ effects => effects
  | _ => []

end WalPayload

namespace WalRecord

def effects {P : Type} (record : WalRecord P) : List (PageEffect P) :=
  record.payload.effects

end WalRecord

namespace PendingBTreeAction

variable {P : Type} {effects : List (PageEffect P)} {effect : PageEffect P}

/-- Keep one effect per page. A page allocated by the action stays allocated by it when it
is written again; any other later effect replaces the earlier one. -/
def addEffect (effects : List (PageEffect P)) (effect : PageEffect P) : List (PageEffect P) :=
  match effects with
  | [] => [effect]
  | current :: rest =>
    if current.pageNum = effect.pageNum then
      (if current.kind = .allocate ∧ effect.kind = .write then
        { effect with kind := .allocate } else effect) :: rest
    else current :: addEffect rest effect

/-- The pages named after adding an effect are those named before and the effect's page. -/
theorem mem_pageNums_addEffect {n : PageNum} :
    n ∈ (addEffect effects effect).map PageEffect.pageNum ↔
      n = effect.pageNum ∨ n ∈ effects.map PageEffect.pageNum := by
  induction effects with
  | nil => simp [addEffect]
  | cons current rest ih =>
    simp only [addEffect]
    split
    · rename_i hPage
      rw [map_cons, map_cons, mem_cons, mem_cons, hPage]
      split <;> tauto
    · simp only [map_cons, mem_cons, ih]
      tauto

theorem nodup_addEffect (h : (effects.map PageEffect.pageNum).Nodup) :
    ((addEffect effects effect).map PageEffect.pageNum).Nodup := by
  induction effects with
  | nil => simp [addEffect]
  | cons current rest ih =>
    obtain ⟨hFirst, hRest⟩ := nodup_cons.1 h
    simp only [addEffect]
    split
    · rename_i hPage
      rw [map_cons, nodup_cons]
      rw [hPage] at hFirst
      split <;> exact ⟨hFirst, hRest⟩
    · rename_i hPage
      rw [map_cons, nodup_cons, mem_pageNums_addEffect]
      exact ⟨not_or.2 ⟨hPage, hFirst⟩, ih hRest⟩

/-- After an effect is added, its page has its image and every other page what it had. -/
theorem mem_addEffect {effect e : PageEffect P} (hDistinct : (effects.map PageEffect.pageNum).Nodup)
    (h : e ∈ addEffect effects effect) :
    (e.pageNum = effect.pageNum ∧ e.afterImage = effect.afterImage) ∨
      (e ∈ effects ∧ e.pageNum ≠ effect.pageNum) := by
  induction effects with
  | nil =>
    simp only [addEffect, mem_singleton] at h
    subst h
    exact Or.inl ⟨rfl, rfl⟩
  | cons current rest ih =>
    obtain ⟨hFirst, hRest⟩ := nodup_cons.1 hDistinct
    simp only [addEffect] at h
    split at h
    · rename_i hPage
      rcases mem_cons.1 h with rfl | hMem
      · left
        split <;> exact ⟨rfl, rfl⟩
      · refine Or.inr ⟨mem_cons_of_mem _ hMem, fun hEq => hFirst ?_⟩
        rw [hPage, ← hEq]
        exact mem_map_of_mem hMem
    · rename_i hPage
      rcases mem_cons.1 h with rfl | hMem
      · exact Or.inr ⟨mem_cons_self, hPage⟩
      · rcases ih hRest hMem with hNew | ⟨hOld, hNe⟩
        · exact Or.inl hNew
        · exact Or.inr ⟨mem_cons_of_mem _ hOld, hNe⟩

end PendingBTreeAction

/-- The log as one sequence of records with consecutive numbers. Records before `firstLsn`
are no longer retained. -/
structure Wal (P : Type) where
  firstLsn : Lsn
  records : List (WalRecord P)
  firstLsn_pos : 0 < firstLsn
  numbered : ∀ i record, records[i]? = some record → record.lsn = firstLsn + i

namespace Wal

variable {P : Type}

def empty : Wal P where
  firstLsn := 1
  records := []
  firstLsn_pos := Nat.one_pos
  numbered := by simp

/-- The number the next record will get. -/
def nextLsn (wal : Wal P) : Lsn :=
  wal.firstLsn + wal.records.length

theorem nextLsn_pos (wal : Wal P) : 0 < wal.nextLsn :=
  Nat.add_pos_left wal.firstLsn_pos _

/-- The record that `append` stores for a pending record. -/
def sealRecord (wal : Wal P) (pending : PendingWalRecord P) : WalRecord P where
  lsn := wal.nextLsn
  transactionId := pending.transactionId
  prevLsn := pending.prevLsn
  payload := pending.payload

def append (wal : Wal P) (pending : PendingWalRecord P) : Wal P where
  firstLsn := wal.firstLsn
  records := wal.records ++ [wal.sealRecord pending]
  firstLsn_pos := wal.firstLsn_pos
  numbered i record h := by
    rw [getElem?_append] at h
    split at h
    · exact wal.numbered i record h
    · rename_i hLe
      obtain ⟨hi, rfl⟩ : i - wal.records.length = 0 ∧ wal.sealRecord pending = record := by
        simpa [getElem?_singleton] using h
      have hEq : i = wal.records.length :=
        Nat.le_antisymm (Nat.sub_eq_zero_iff_le.1 hi) (Nat.not_lt.1 hLe)
      rw [hEq]
      rfl

@[simp] theorem nextLsn_append (wal : Wal P) (pending : PendingWalRecord P) :
    (wal.append pending).nextLsn = wal.nextLsn + 1 := by
  simp [nextLsn, append, Nat.add_assoc]

end Wal

end Stoneleaf
