import Stoneleaf.Transaction.LockState
import Stoneleaf.Transaction.WaitForGraph

/-!
The transaction table: which transactions exist, in which state, and the key locks each one
holds. A handle is modelled by the transaction's id, which is never given out twice. The
sections of `commit` and `abort` that run under the table's mutex are separate functions.
-/

namespace Stoneleaf

open List

inductive TransactionState where
  | active
  | abortRequested
  | committing
  | aborting
  | committed
  | aborted
deriving DecidableEq, Repr

structure HeldKeyLock where
  key : Key
  mode : LockMode
deriving DecidableEq

/-- How far the thread that ends a transaction has come. Only one thread gets past the first
section of `commit` and `abort`. -/
inductive Ending where
  | undecided
  /-- Inside `release_locks`, with these locks still to go. -/
  | releasing (rest : List HeldKeyLock)
  /-- `release_locks` found a lock the transaction does not own. -/
  | failed
  | released
  /-- Also gone from the wait-for graph. -/
  | unlinked
deriving DecidableEq

structure Transaction where
  state : TransactionState := .active
  heldKeyLocks : List HeldKeyLock := []
  ending : Ending := .undecided
deriving DecidableEq

inductive CommitStatus where
  | success
  | transactionNotFound
  | invalidState
deriving DecidableEq, Repr

inductive AbortStatus where
  | success
  | transactionNotFound
  | invalidState
deriving DecidableEq, Repr

inductive WaitRegistrationStatus where
  | registered
  | deadlock
  | transactionNotFound
  | blockerNotFound
deriving DecidableEq, Repr

/-- Only the strongest mode is kept for each key. -/
def recordHeld (key : Key) (mode : LockMode) : List HeldKeyLock → List HeldKeyLock
  | [] => [⟨key, mode⟩]
  | held :: rest =>
    if held.key = key then
      (if mode = .exclusive then { held with mode := .exclusive } else held) :: rest
    else held :: recordHeld key mode rest

structure TransactionManager where
  activeTransactions : TransactionId → Option Transaction
  /-- Zero once all ids have been given out. -/
  nextTransactionId : TransactionId
  waitForGraph : WaitForGraph

namespace TransactionManager

/-- A manager that has read its next id from the log. -/
def fresh (nextTransactionId : TransactionId) : TransactionManager where
  activeTransactions := fun _ => none
  nextTransactionId := nextTransactionId
  waitForGraph := .empty

def setTransaction (manager : TransactionManager) (txnId : TransactionId)
    (transaction : Option Transaction) : TransactionManager :=
  { manager with
    activeTransactions := Function.update manager.activeTransactions txnId transaction }

/-- A new active transaction, or `none` when the ids are exhausted. -/
def begin (manager : TransactionManager) : Option (TransactionId × TransactionManager) :=
  if manager.nextTransactionId = 0 then none
  else
    some (manager.nextTransactionId,
      { activeTransactions := Function.update manager.activeTransactions
          manager.nextTransactionId (some {})
        nextTransactionId := (manager.nextTransactionId + 1) % 2 ^ 64
        waitForGraph := manager.waitForGraph.addNode manager.nextTransactionId })

def isActive (manager : TransactionManager) (txnId : TransactionId) : Bool :=
  match manager.activeTransactions txnId with
  | none => false
  | some transaction => transaction.state = .active

/-- Note a lock the lock manager has granted; `none` when the transaction is not active. -/
def recordLock (manager : TransactionManager) (txnId : TransactionId) (key : Key)
    (mode : LockMode) : Option TransactionManager :=
  match manager.activeTransactions txnId with
  | none => none
  | some transaction =>
    if transaction.state ≠ .active then none
    else
      some (manager.setTransaction txnId (some
        { transaction with heldKeyLocks := recordHeld key mode transaction.heldKeyLocks }))

def registerWait (manager : TransactionManager) (waitingTxn : TransactionId)
    (blockers : List TransactionId) : WaitRegistrationStatus × TransactionManager :=
  if manager.isActive waitingTxn = false then (.transactionNotFound, manager)
  else if ∃ blocker ∈ blockers, (manager.activeTransactions blocker).isNone then
    (.blockerNotFound, manager)
  else
    match manager.waitForGraph.addEdges waitingTxn blockers with
    | none => (.deadlock, manager)
    | some graph => (.registered, { manager with waitForGraph := graph })

def removeWait (manager : TransactionManager) (waitingTxn : TransactionId) : TransactionManager :=
  { manager with waitForGraph := manager.waitForGraph.removeOutgoing waitingTxn }

/-- The first section of `commit` and `abort`: take the transaction out of its present state. -/
def claim {ε : Type} (notFound invalidState : ε) (allowed : List TransactionState)
    (state : TransactionState) (manager : TransactionManager) (txnId : TransactionId) :
    Except ε TransactionManager :=
  match manager.activeTransactions txnId with
  | none => .error notFound
  | some transaction =>
    if transaction.state ∈ allowed then
      .ok (manager.setTransaction txnId (some { transaction with state := state }))
    else .error invalidState

def claimCommit : TransactionManager → TransactionId → Except CommitStatus TransactionManager :=
  claim .transactionNotFound .invalidState [.active] .committing

def claimAbort : TransactionManager → TransactionId → Except AbortStatus TransactionManager :=
  claim .transactionNotFound .invalidState [.active, .abortRequested] .aborting

/-- The decision is on record: the transaction changes from `claimed` to its final state and
`release_locks` starts with the lock taken last. -/
def settle (claimed final : TransactionState) (manager : TransactionManager)
    (txnId : TransactionId) : TransactionManager :=
  match manager.activeTransactions txnId with
  | none => manager
  | some transaction =>
    if transaction.state = claimed then
      manager.setTransaction txnId (some { transaction with
          state := final
          ending := .releasing transaction.heldKeyLocks.reverse })
    else manager

/-- `wait_for_graph_.remove`, once all locks are released. -/
def unlink (manager : TransactionManager) (txnId : TransactionId) : TransactionManager :=
  match manager.activeTransactions txnId with
  | none => manager
  | some transaction =>
    if transaction.ending = .released then
      { manager.setTransaction txnId (some { transaction with ending := .unlinked }) with
        waitForGraph := manager.waitForGraph.remove txnId }
    else manager

/-- The last section: the transaction leaves the table. -/
def removeTransaction (manager : TransactionManager) (txnId : TransactionId) :
    TransactionManager :=
  match manager.activeTransactions txnId with
  | none => manager
  | some transaction =>
    if transaction.ending = .unlinked then manager.setTransaction txnId none else manager

end TransactionManager

section Held

variable {key : Key} {mode m : LockMode} {held : List HeldKeyLock} {lock : HeldKeyLock}

theorem map_key_recordHeld (key : Key) (mode : LockMode) (held : List HeldKeyLock) :
    (recordHeld key mode held).map HeldKeyLock.key =
      if key ∈ held.map HeldKeyLock.key then held.map HeldKeyLock.key
      else held.map HeldKeyLock.key ++ [key] := by
  induction held with
  | nil => simp [recordHeld]
  | cons first rest ih =>
    by_cases hKey : first.key = key
    · by_cases hMode : mode = .exclusive
      · simp [recordHeld, hKey, hMode]
      · simp [recordHeld, hKey, hMode]
    · simp only [recordHeld, hKey, if_false, map_cons, ih, mem_cons, Ne.symm hKey, false_or]
      by_cases hMem : key ∈ rest.map HeldKeyLock.key
      · simp [hMem]
      · simp [hMem]

theorem nodup_recordHeld (h : (held.map HeldKeyLock.key).Nodup) :
    ((recordHeld key mode held).map HeldKeyLock.key).Nodup := by
  rw [map_key_recordHeld]
  by_cases hMem : key ∈ held.map HeldKeyLock.key
  · rwa [if_pos hMem]
  · rw [if_neg hMem]
    exact nodup_append.2 ⟨h, by simp, fun k hk l hl hEq => hMem (by
      rw [← mem_singleton.1 hl, ← hEq]
      exact hk)⟩

theorem mem_recordHeld_of_ne (h : lock.key ≠ key) :
    lock ∈ recordHeld key mode held ↔ lock ∈ held := by
  induction held with
  | nil =>
    simp only [recordHeld, mem_singleton, not_mem_nil, iff_false]
    rintro rfl
    exact h rfl
  | cons first rest ih =>
    by_cases hKey : first.key = key
    · have hNe : ∀ m', lock ≠ ⟨key, m'⟩ := fun m' hEq => h (hEq ▸ rfl)
      obtain ⟨firstKey, firstMode⟩ := first
      obtain rfl : firstKey = key := hKey
      cases mode with
      | shared => simp [recordHeld]
      | exclusive => simp [recordHeld, hNe]
    · simp [recordHeld, hKey, ih]

/-- The mode recorded for the key itself, if it was held at most in shared mode before. -/
theorem mem_recordHeld_self (hNodup : (held.map HeldKeyLock.key).Nodup)
    (hOld : ∀ m', ⟨key, m'⟩ ∈ held → m' = .shared) :
    ⟨key, m⟩ ∈ recordHeld key mode held ↔ m = mode := by
  induction held with
  | nil => simp [recordHeld]
  | cons first rest ih =>
    obtain ⟨hFresh, hRest⟩ := nodup_cons.1 hNodup
    by_cases hKey : first.key = key
    · have hOut : ⟨key, m⟩ ∉ rest := fun hMem =>
        hFresh (hKey ▸ mem_map.2 ⟨_, hMem, rfl⟩)
      obtain ⟨firstKey, firstMode⟩ := first
      obtain rfl : firstKey = key := hKey
      obtain rfl : firstMode = .shared := hOld _ mem_cons_self
      cases mode with
      | shared | exclusive => simp [recordHeld, hOut]
    · have hNe : (⟨key, m⟩ : HeldKeyLock) ≠ first := fun hEq => hKey (hEq ▸ rfl)
      simp only [recordHeld, hKey, if_false, mem_cons, hNe, false_or]
      exact ih hRest fun m' hMem => hOld m' (mem_cons_of_mem _ hMem)

end Held

end Stoneleaf
