import Stoneleaf.Transaction.LockAgreement

/-!
Lock table and transactions along every interleaving. Each step keeps every key in agreement with
the transactions, provided no call takes a lock away behind a transaction's back.
-/

namespace Stoneleaf

open List Function TransactionManager LockState Transaction
open LockSystem (step releaseNext)

/-- The locks the lock table has to hold for the transaction. -/
def Transaction.claims (transaction : Transaction) : List HeldKeyLock :=
  match transaction.ending with
  | .undecided => transaction.heldKeyLocks
  | .releasing rest => rest
  | _ => []

/-- What holds of every transaction in the table. -/
structure Transaction.Sound (transaction : Transaction) : Prop where
  keys : (transaction.claims.map HeldKeyLock.key).Nodup
  undecided : transaction.state ∈ [.active, .abortRequested, .committing, .aborting] →
    transaction.ending = .undecided
  releases : transaction.ending ≠ .failed

namespace TransactionManager

variable {manager manager' : TransactionManager} {t u : TransactionId} {key k : Key}
  {mode m : LockMode} {transaction old new : Transaction}

/-- The transaction expects to own the key in this mode. -/
def Claims (manager : TransactionManager) (key : Key) (t : TransactionId) (mode : LockMode) :
    Prop :=
  ∃ transaction, manager.activeTransactions t = some transaction ∧
    ⟨key, mode⟩ ∈ transaction.claims

/-- The id has been given out. -/
def Used (manager : TransactionManager) (t : TransactionId) : Prop :=
  manager.nextTransactionId = 0 ∨ t < manager.nextTransactionId

structure TableSound (manager : TransactionManager) : Prop where
  transactions : ∀ t transaction, manager.activeTransactions t = some transaction →
    transaction.Sound
  used : ∀ t transaction, manager.activeTransactions t = some transaction → manager.Used t
  bound : manager.nextTransactionId < 2 ^ 64

/-- The graph plays no part. -/
theorem TableSound.withGraph (h : manager.TableSound) (graph : WaitForGraph) :
    TableSound { manager with waitForGraph := graph } :=
  ⟨h.transactions, h.used, h.bound⟩

theorem isActive_iff :
    manager.isActive t = true ↔
      ∃ transaction, manager.activeTransactions t = some transaction ∧
        transaction.state = .active := by
  cases h : manager.activeTransactions t with
  | none | some transaction => simp [isActive, h]

@[simp] theorem setTransaction_self (manager : TransactionManager) (t : TransactionId)
    (transaction : Option Transaction) :
    (manager.setTransaction t transaction).activeTransactions t = transaction :=
  update_self _ _ _

theorem setTransaction_of_ne (h : u ≠ t) (transaction : Option Transaction) :
    (manager.setTransaction t transaction).activeTransactions u = manager.activeTransactions u :=
  update_of_ne h _ _

theorem TableSound.setTransaction (h : manager.TableSound)
    (hOld : manager.activeTransactions t = some old) (hNew : new.Sound) :
    (manager.setTransaction t (some new)).TableSound := by
  refine ⟨fun u transaction hu => ?_, fun u transaction hu => ?_, h.bound⟩
  · by_cases hEq : u = t
    · subst hEq
      rw [setTransaction_self] at hu
      exact Option.some.inj hu ▸ hNew
    · rw [setTransaction_of_ne hEq] at hu
      exact h.transactions u transaction hu
  · by_cases hEq : u = t
    · exact hEq ▸ h.used t old hOld
    · rw [setTransaction_of_ne hEq] at hu
      exact h.used u transaction hu

theorem claims_iff (h : manager.activeTransactions t = some transaction) :
    manager.Claims k t m ↔ ⟨k, m⟩ ∈ transaction.claims := by
  simp [Claims, h]

theorem claims_setTransaction_self :
    (manager.setTransaction t (some new)).Claims k t m ↔ ⟨k, m⟩ ∈ new.claims := by
  simp [Claims]

theorem claims_setTransaction_of_ne (h : u ≠ t) (transaction : Option Transaction) :
    (manager.setTransaction t transaction).Claims k u m ↔ manager.Claims k u m := by
  rw [Claims, setTransaction_of_ne h, Claims]

theorem isActive_setTransaction_of_ne (h : u ≠ t) (transaction : Option Transaction) :
    (manager.setTransaction t transaction).isActive u = manager.isActive u := by
  rw [isActive, setTransaction_of_ne h, isActive]

theorem claims_setTransaction (hFind : manager.activeTransactions t = some old)
    (h : ⟨k, m⟩ ∈ new.claims ↔ ⟨k, m⟩ ∈ old.claims) :
    (manager.setTransaction t (some new)).Claims k u m ↔ manager.Claims k u m := by
  by_cases hEq : u = t
  · subst hEq
    rw [claims_setTransaction_self, claims_iff hFind]
    exact h
  · exact claims_setTransaction_of_ne hEq _

theorem isActive_setTransaction (new : Transaction)
    (hFind : manager.activeTransactions t = some old) (hState : new.state = old.state) :
    (manager.setTransaction t (some new)).isActive u = manager.isActive u := by
  by_cases hEq : u = t
  · subst hEq
    simp [isActive, hFind, hState]
  · exact isActive_setTransaction_of_ne hEq _

theorem TableSound.not_active (h : manager.TableSound)
    (hFind : manager.activeTransactions t = some transaction)
    (hDecided : transaction.ending ≠ .undecided) : ¬manager.isActive t = true := by
  intro hActive
  obtain ⟨other, hOther, hState⟩ := isActive_iff.1 hActive
  obtain rfl := Option.some.inj (hFind.symm.trans hOther)
  exact hDecided ((h.transactions t _ hFind).undecided (by simp [hState]))

/-- Recording a lock is possible exactly for an active transaction, and changes only what it
holds of this key. -/
theorem recordLock_spec (hTable : manager.TableSound)
    (hOld : ∀ m', manager.Claims key t m' → m' = .shared)
    (hRecord : manager.recordLock t key mode = some manager') :
    manager.isActive t = true ∧ manager'.TableSound ∧
      (∀ u, manager'.isActive u = manager.isActive u) ∧
      (∀ k u, k ≠ key ∨ u ≠ t → ∀ m, manager'.Claims k u m ↔ manager.Claims k u m) ∧
      (∀ m, manager'.Claims key t m ↔ m = mode) ∧
      manager'.nextTransactionId = manager.nextTransactionId ∧
      manager'.waitForGraph = manager.waitForGraph := by
  cases hFind : manager.activeTransactions t with
  | none => simp [recordLock, hFind] at hRecord
  | some transaction =>
    have hSound := hTable.transactions t transaction hFind
    obtain ⟨state, held, ending⟩ := transaction
    by_cases hState : state = .active
    · subst hState
      obtain rfl : ending = .undecided := hSound.undecided (by simp)
      have hKeys : (held.map HeldKeyLock.key).Nodup := hSound.keys
      simp only [recordLock, hFind, ne_eq, not_true_eq_false, if_false,
        Option.some.injEq] at hRecord
      subst hRecord
      refine ⟨isActive_iff.2 ⟨_, hFind, rfl⟩, hTable.setTransaction hFind
        ⟨nodup_recordHeld hKeys, fun _ => rfl, Ending.noConfusion⟩,
        fun u => isActive_setTransaction _ hFind rfl, fun k u hOther m => ?_, fun m => ?_, rfl, rfl⟩
      · by_cases hEq : u = t
        · subst hEq
          rw [claims_setTransaction_self, claims_iff hFind]
          exact mem_recordHeld_of_ne (hOther.resolve_right (by simp))
        · exact claims_setTransaction_of_ne hEq _
      · rw [claims_setTransaction_self]
        exact mem_recordHeld_self hKeys fun m' hMem => hOld m' ((claims_iff hFind).2 hMem)
    · simp [recordLock, hFind, hState] at hRecord

theorem recordLock_eq_none (hRecord : manager.recordLock t key mode = none) :
    manager.isActive t = false := by
  cases hFind : manager.activeTransactions t with
  | none => simp [isActive, hFind]
  | some transaction =>
    by_cases hState : transaction.state = .active
    · simp [recordLock, hFind, hState] at hRecord
    · simp [isActive, hFind, hState]

/-- A wait is registered only for an active transaction and touches nothing but the graph. -/
theorem registerWait_spec {blockers : List TransactionId}
    (h : manager.registerWait t blockers = (.registered, manager')) :
    manager.isActive t = true ∧ (∀ u ∈ blockers, (manager.activeTransactions u).isSome) ∧
      ∃ graph, manager.waitForGraph.addEdges t blockers = some graph ∧
        manager' = { manager with waitForGraph := graph } := by
  by_cases hActive : manager.isActive t = true
  · rw [registerWait, if_neg (by simp [hActive])] at h
    by_cases hBlockers : ∃ blocker ∈ blockers, (manager.activeTransactions blocker).isNone
    · rw [if_pos hBlockers] at h
      cases h
    · rw [if_neg hBlockers] at h
      cases hAdd : manager.waitForGraph.addEdges t blockers with
      | none =>
        rw [hAdd] at h
        cases h
      | some graph =>
        rw [hAdd] at h
        obtain ⟨-, rfl⟩ := Prod.mk.inj h
        refine ⟨hActive, fun u hu => ?_, graph, rfl, rfl⟩
        by_contra hNone
        exact hBlockers ⟨u, hu, by simpa using hNone⟩
  · rw [registerWait, if_pos (by simpa using hActive)] at h
    cases h

end TransactionManager

namespace LockSystem

variable {system system' : LockSystem} {t : TransactionId} {key : Key} {waiter : Waiter}
  {manager : TransactionManager} {state : LockState} {recorded : Option TransactionManager}
  {grant : Grant}

/-- Lock table, unrecorded grants and transactions fit together. -/
structure Sound (system : LockSystem) : Prop where
  located : ∀ shard grant, system.granting shard = some grant → shardOf grant.key = shard
  table : system.manager.TableSound
  keys : ∀ key, KeyAgrees (system.manager.Claims key) (fun t => system.manager.isActive t = true)
    system.manager.Used (system.states key) (system.unrecorded key)

@[simp] theorem unrecorded_setState (state : LockState) (k : Key) :
    (system.setState key state).unrecorded k = system.unrecorded k := rfl

@[simp] theorem unrecorded_withManager (manager : TransactionManager) (k : Key) :
    (system.withManager manager).unrecorded k = system.unrecorded k := rfl

@[simp] theorem states_withManager (manager : TransactionManager) :
    (system.withManager manager).states = system.states := rfl

@[simp] theorem withManager_self (system : LockSystem) :
    system.withManager system.manager = system := rfl

@[simp] theorem states_setState_self (state : LockState) :
    (system.setState key state).states key = state := update_self _ _ _

theorem unrecorded_of_isNone (h : (system.granting (shardOf key)).isNone) :
    system.unrecorded key = [] := by
  rw [unrecorded, Option.isNone_iff_eq_none.1 h]

/-- A step that works on one key and leaves the claims on all others. -/
theorem Sound.change (h : system.Sound) (key : Key)
    (hStates : ∀ k, k ≠ key → system'.states k = system.states k)
    (hUnrecorded : ∀ k, k ≠ key → system'.unrecorded k = system.unrecorded k)
    (hLocated : ∀ shard grant, system'.granting shard = some grant → shardOf grant.key = shard)
    (hTable : system'.manager.TableSound)
    (hClaims : ∀ k, k ≠ key → ∀ t m, system'.manager.Claims k t m ↔ system.manager.Claims k t m)
    (hActive : ∀ t, system'.manager.isActive t = system.manager.isActive t)
    (hNext : system'.manager.nextTransactionId = system.manager.nextTransactionId)
    (hKey : KeyAgrees (system'.manager.Claims key) (fun t => system.manager.isActive t = true)
      system.manager.Used (system'.states key) (system'.unrecorded key)) : system'.Sound := by
  have hUsed : system'.manager.Used = system.manager.Used := by
    funext t
    simp only [TransactionManager.Used, hNext]
  have hSame : (fun t => system'.manager.isActive t = true) =
      fun t => system.manager.isActive t = true := by
    funext t
    rw [hActive]
  refine ⟨hLocated, hTable, fun k => ?_⟩
  rw [hUsed, hSame]
  by_cases hEq : k = key
  · subst hEq
    exact hKey
  · rw [hStates k hEq, hUnrecorded k hEq]
    exact (h.keys k).congr (hClaims k hEq) (fun _ _ _ hOld => hOld) (fun _ _ hOld => hOld)
      fun _ hOld => hOld

theorem setState_eq_self (h : system.states key = state) :
    system.setState key state = system := by
  subst h
  simp [setState]

theorem Sound.key_of_isNone (h : system.Sound) (hFree : (system.granting (shardOf key)).isNone) :
    KeyAgrees (system.manager.Claims key) (fun t => system.manager.isActive t = true)
      system.manager.Used (system.states key) [] := by
  rw [← unrecorded_of_isNone hFree]
  exact h.keys key

/-- The call that is refused after it was granted: the key's entry is erased, and with it the
other owners of the key. -/
def ErasesOwners (system : LockSystem) (t : TransactionId) (key : Key) : Prop :=
  system.manager.isActive t = false ∧ t ∉ (system.states key).sharedOwners ∧
    (system.states key).sharedOwners ≠ [] ∧ (system.states key).exclusiveOwner = none ∧
    (system.states key).waiters = []

instance (system : LockSystem) (t : TransactionId) (key : Key) :
    Decidable (system.ErasesOwners t key) :=
  inferInstanceAs (Decidable (_ ∧ _))

/-- What a request does when it arrives: nothing, if it is refused or its lock is held already; or
it is granted, as nobody is in its way; or it joins the queue. -/
inductive Arrives (system : LockSystem) (key : Key) (waiter : Waiter) : LockSystem → Prop
  | idle : Arrives system key waiter system
  | granted (manager : TransactionManager) (hFree : (system.states key).Available waiter)
      (hRecord : system.manager.recordLock waiter.txnId key waiter.lockMode = some manager) :
      Arrives system key waiter
        ((system.setState key ((system.states key).give waiter)).withManager manager)
  | queued (graph : WaitForGraph) (hActive : system.manager.isActive waiter.txnId = true)
      (hAdd : system.manager.waitForGraph.addEdges waiter.txnId
        ((system.states key).blockers waiter) = some graph)
      (hOwner : (system.states key).exclusiveOwner ≠ some waiter.txnId)
      (hBusy : ¬(system.states key).Available waiter) :
      Arrives system key waiter ((system.setState key { system.states key with
        waiters := (system.states key).waiters ++ [waiter] }).withManager
          { system.manager with waitForGraph := graph })

theorem await_arrives (hOwner : (system.states key).exclusiveOwner ≠ some waiter.txnId)
    (hBusy : ¬(system.states key).Available waiter) :
    Arrives system key waiter
      (system.await key waiter ((system.states key).blockers waiter)).1 := by
  cases hRegister : system.manager.registerWait waiter.txnId
      ((system.states key).blockers waiter) with
  | mk status manager =>
    simp only [LockSystem.await, hRegister]
    cases status with
    | registered =>
      obtain ⟨hActive, -, graph, hAdd, rfl⟩ := registerWait_spec hRegister
      exact .queued graph hActive hAdd hOwner hBusy
    | deadlock => exact .idle
    | transactionNotFound => exact .idle
    | blockerNotFound => exact .idle

theorem lockShared_arrives (hAllowed : ¬system.ErasesOwners t key) :
    Arrives system key ⟨t, .shared⟩ (system.lockShared t key).1 := by
  unfold lockShared
  dsimp only
  split
  · exact .idle
  next hShared =>
  split
  · exact .idle
  next hOwner =>
  split
  next hFree =>
    cases hRecord : system.manager.recordLock t key .shared with
    | some manager => exact .granted manager ⟨hFree.1, hFree.2, LockMode.noConfusion⟩ hRecord
    | none =>
      have hNil : (system.states key).sharedOwners = [] := by
        by_contra hSome
        exact hAllowed ⟨recordLock_eq_none hRecord, hShared, hSome, hFree⟩
      have hEmpty : system.states key = {} := by
        rw [← hNil, ← hFree.1, ← hFree.2]
      simpa only [setState_eq_self hEmpty] using Arrives.idle
  next hBusy => exact await_arrives hOwner fun hFree => hBusy ⟨hFree.1, hFree.2.1⟩

theorem lockExclusive_arrives (hNodup : (system.states key).sharedOwners.Nodup) :
    Arrives system key ⟨t, .exclusive⟩ (system.lockExclusive t key).1 := by
  have hOnly := only_requester_iff (t := t) hNodup
  rw [and_comm] at hOnly
  unfold lockExclusive
  dsimp only
  split
  · exact .idle
  next hOwner =>
  split
  next hFree =>
    obtain ⟨hAlone, hNone, hQueue⟩ := hFree
    rw [hOnly] at hAlone
    cases hRecord : system.manager.recordLock t key .exclusive with
    | some manager => exact .granted manager ⟨hNone, hQueue, fun _ => hAlone⟩ hRecord
    | none =>
      simp only
      -- Whichever entry is put back, it is the one that was there.
      split
      next hPromotion =>
        have hBack : ((system.states key).sharedOwners.filter (· ≠ t)).insert t =
            (system.states key).sharedOwners := by
          rw [eq_singleton_of_only hNodup hAlone hPromotion]
          simp
        rw [setState_eq_self (by rw [hBack, ← hNone])]
        exact .idle
      next hNew =>
        have hNil : (system.states key).sharedOwners = [] :=
          eq_nil_iff_forall_not_mem.2 fun u hu => hNew (hAlone u hu ▸ hu)
        rw [setState_eq_self (by rw [← hNil, ← hNone, ← hQueue])]
        exact .idle
  next hBusy =>
    exact await_arrives hOwner fun hFree =>
      hBusy ⟨hOnly.2 (hFree.2.2 rfl), hFree.1, hFree.2.1⟩

theorem Sound.arrives (h : system.Sound) (hFree : (system.granting (shardOf key)).isNone)
    (hArrives : Arrives system key waiter system') : system'.Sound := by
  have hKey := h.key_of_isNone hFree
  cases hArrives with
  | idle => exact h
  | granted manager hAvailable hRecord =>
    obtain ⟨-, hTable, hActive, hOthers, hSelf, hNext, -⟩ := recordLock_spec
      h.table (hKey.shared_of_claims (by simp [hAvailable.1])) hRecord
    refine h.change key (fun k hk => update_of_ne hk _ _) (fun _ _ => rfl) h.located
      hTable (fun k hk u m => hOthers k u (.inl hk) m) hActive hNext ?_
    rw [unrecorded_withManager, unrecorded_setState, unrecorded_of_isNone hFree,
      states_withManager, states_setState_self]
    exact hKey.give hAvailable (fun u hu m => hOthers key u (.inr hu) m) hSelf
  | queued graph hActive hAdd hOwner hBusy =>
    obtain ⟨transaction, hFind, -⟩ := isActive_iff.1 hActive
    refine h.change key (fun k hk => update_of_ne hk _ _) (fun k _ => rfl) h.located
      (h.table.withGraph graph) (fun _ _ _ _ => Iff.rfl) (fun _ => rfl) rfl ?_
    rw [unrecorded_withManager, unrecorded_setState, unrecorded_of_isNone hFree,
      states_withManager, states_setState_self]
    exact hKey.await hActive (h.table.used _ _ hFind)

theorem waiters_ofGranted (releaser : Option TransactionId) (granted : List Waiter) :
    ((Grant.ofGranted key releaser granted).map Grant.waiters).getD [] = granted := by
  cases granted with
  | nil => rfl
  | cons waiter rest => rfl

theorem key_of_ofGranted {releaser : Option TransactionId} {granted : List Waiter}
    (h : Grant.ofGranted key releaser granted = some grant) : grant.key = key := by
  cases granted with
  | nil => cases h
  | cons waiter rest =>
    obtain rfl := Option.some.inj h
    rfl

/-- The system after a thread that holds the shard's mutex has worked on a key. -/
def regrant (system : LockSystem) (key : Key) (state : LockState) (grant : Option Grant)
    (manager : TransactionManager) : LockSystem where
  states := Function.update system.states key state
  granting := Function.update system.granting (shardOf key) grant
  manager := manager

section Regrant

variable {state : LockState} {grant : Option Grant} {manager : TransactionManager}

@[simp] theorem states_regrant_self :
    (system.regrant key state grant manager).states key = state :=
  update_self _ _ _

theorem states_regrant_of_ne {k : Key} (hk : k ≠ key) :
    (system.regrant key state grant manager).states k = system.states k :=
  update_of_ne hk _ _

theorem unrecorded_regrant_self (hNew : ∀ grant', grant = some grant' → grant'.key = key) :
    (system.regrant key state grant manager).unrecorded key =
      (grant.map Grant.waiters).getD [] := by
  simp only [unrecorded, regrant, update_self]
  cases grant with
  | none => rfl
  | some grant => simp [hNew grant rfl]

theorem unrecorded_regrant_of_ne {k : Key} (hk : k ≠ key)
    (hOld : ∀ grant, system.granting (shardOf key) = some grant → grant.key = key)
    (hNew : ∀ grant', grant = some grant' → grant'.key = key) :
    (system.regrant key state grant manager).unrecorded k = system.unrecorded k := by
  by_cases hShard : shardOf k = shardOf key
  · have hNone : system.unrecorded k = [] := by
      rw [unrecorded, hShard]
      cases hCurrent : system.granting (shardOf key) with
      | none => rfl
      | some current => simp [hOld current hCurrent, Ne.symm hk]
    rw [hNone, unrecorded]
    simp only [regrant, hShard, update_self]
    cases grant with
    | none => rfl
    | some grant => simp [hNew grant rfl, Ne.symm hk]
  · simp only [unrecorded, regrant, update_of_ne hShard]

theorem Sound.regrant (h : system.Sound)
    (hOld : ∀ grant, system.granting (shardOf key) = some grant → grant.key = key)
    (hNew : ∀ grant', grant = some grant' → grant'.key = key) (hTable : manager.TableSound)
    (hClaims : ∀ k, k ≠ key → ∀ t m, manager.Claims k t m ↔ system.manager.Claims k t m)
    (hActive : ∀ t, manager.isActive t = system.manager.isActive t)
    (hNext : manager.nextTransactionId = system.manager.nextTransactionId)
    (hKey : KeyAgrees (manager.Claims key) (fun t => system.manager.isActive t = true)
      system.manager.Used state ((grant.map Grant.waiters).getD [])) :
    (system.regrant key state grant manager).Sound := by
  refine h.change key (fun k hk => states_regrant_of_ne hk)
    (fun k hk => unrecorded_regrant_of_ne hk hOld hNew) (fun shard grant' hGrant => ?_) hTable
    hClaims hActive hNext ?_
  · change Function.update _ _ _ _ = _ at hGrant
    by_cases hShard : shard = shardOf key
    · subst hShard
      rw [update_self] at hGrant
      rw [hNew grant' hGrant]
    · rw [update_of_ne hShard] at hGrant
      exact h.located shard grant' hGrant
  · rw [unrecorded_regrant_self hNew, states_regrant_self]
    exact hKey

end Regrant

section Recording

variable (hGrant : system.granting (shardOf grant.key) = some grant)
  (hRecorded : system.manager.recordLock grant.waiter.txnId grant.key grant.waiter.lockMode =
    recorded)
  (hManager : manager = (recorded.getD system.manager).removeWait grant.waiter.txnId)
  (hState : state = if recorded.isSome then system.states grant.key
    else (system.states grant.key).withdraw grant.waiter)
include hGrant hRecorded hManager hState

/-- Recording one grant hands on the rest of its pass, or begins another pass after the last. -/
theorem recordGrant_eq :
    ∃ state' grant',
      system.recordGrant (shardOf grant.key) = system.regrant grant.key state' grant' manager ∧
      (∀ next, grant' = some next → next.key = grant.key) ∧
      (state' = state ∧ (grant'.map Grant.waiters).getD [] = grant.rest ∧
          grant'.any Grant.retry = (grant.retry || recorded.isNone) ∨
        grant.rest = [] ∧ state' = state.grantWaiters.1 ∧
          (grant'.map Grant.waiters).getD [] = state.grantWaiters.2) := by
  subst hRecorded hManager hState
  simp only [recordGrant, hGrant]
  cases grant.rest with
  | cons next rest =>
    refine ⟨_, some { grant with waiter := next, rest := rest, retry := _ }, rfl,
      fun _ hSome => ?_, .inl ⟨rfl, rfl, rfl⟩⟩
    rw [← Option.some.inj hSome]
  | nil =>
    simp only
    split
    next hRetry =>
      refine ⟨_, _, ?_, fun _ => key_of_ofGranted, .inr ⟨trivial, rfl,
        waiters_ofGranted grant.releaser _⟩⟩
      simp only [grantPass, regrant, setState, withManager, update_idem]
    next hDone =>
      exact ⟨_, none, rfl, fun _ hNone => (by cases hNone),
        .inl ⟨rfl, rfl, (Bool.eq_false_of_not_eq_true hDone).symm⟩⟩

/-- What one recorded or cancelled request does to its key and its transaction. -/
theorem Sound.recordNext (h : system.Sound) :
    manager.TableSound ∧
      (∀ k, k ≠ grant.key → ∀ t m, manager.Claims k t m ↔ system.manager.Claims k t m) ∧
      (∀ t, manager.isActive t = system.manager.isActive t) ∧
      manager.nextTransactionId = system.manager.nextTransactionId ∧
      KeyAgrees (manager.Claims grant.key) (fun t => system.manager.isActive t = true)
        system.manager.Used state grant.rest := by
  have hKey := h.keys grant.key
  have hUnrecorded : system.unrecorded grant.key = grant.waiter :: grant.rest := by
    rw [unrecorded, hGrant]
    simp [Grant.waiters]
  rw [hUnrecorded] at hKey
  subst hManager hState
  cases recorded with
  | none =>
    have hInactive := recordLock_eq_none hRecorded
    exact ⟨h.table.withGraph _, fun _ _ _ _ => Iff.rfl, fun _ => rfl, rfl,
      hKey.cancel (by simp [hInactive])⟩
  | some manager =>
    obtain ⟨hActive, hTable, hSame, hOthers, hSelf, hNext, -⟩ :=
      recordLock_spec h.table
        (fun m hClaim => hKey.unrecorded_shared _ m hClaim (by simp)) hRecorded
    exact ⟨hTable.withGraph _, fun k hk t m => hOthers k t (.inl hk) m, hSame,
      hNext, hKey.record hActive (fun u hu m => hOthers _ u (.inr hu) m) hSelf⟩

end Recording

theorem Sound.recordGrant (h : system.Sound) (shard : Fin shardCount) :
    (system.recordGrant shard).Sound := by
  cases hGrant : system.granting shard with
  | none => simpa only [LockSystem.recordGrant, hGrant] using h
  | some grant =>
    obtain rfl := h.located shard grant hGrant
    obtain ⟨hTable, hClaims, hActive, hNext, hKey⟩ := h.recordNext hGrant rfl rfl rfl
    have hOld : ∀ grant', system.granting (shardOf grant.key) = some grant' →
        grant'.key = grant.key := by
      intro grant' hOther
      rw [Option.some.inj (hGrant.symm.trans hOther)]
    obtain ⟨state, next, hEq, hNew, hPart⟩ := recordGrant_eq hGrant rfl rfl rfl
    rw [hEq]
    refine h.regrant hOld hNew hTable hClaims hActive hNext ?_
    rcases hPart with ⟨rfl, hWaiters, -⟩ | ⟨hRest, rfl, hWaiters⟩
    · rw [hWaiters]
      exact hKey
    · rw [hRest] at hKey
      rw [hWaiters]
      exact hKey.pass

/-- An `unlock` is answered with `NotOwner` unless it takes away a lock of its transaction. -/
theorem unlock_of_not_owns {mode : LockMode} (releaser : Option TransactionId)
    (h : ¬(system.states key).Owns t mode) :
    system.unlock releaser t key mode = (system, .notOwner) := by
  cases mode with
  | shared =>
    rw [owns_shared] at h
    simp [unlock, h]
  | exclusive =>
    rw [owns_exclusive] at h
    simp [unlock, h]

theorem unlock_of_owns {mode : LockMode} (releaser : Option TransactionId)
    (h : (system.states key).Owns t mode) :
    system.unlock releaser t key mode =
      (system.grantPass key releaser ((system.states key).withdraw ⟨t, mode⟩), .success) := by
  cases mode with
  | shared =>
    rw [owns_shared] at h
    simp [unlock, h, LockState.withdraw]
  | exclusive =>
    rw [owns_exclusive] at h
    simp [unlock, h, LockState.withdraw]

/-- One turn of `release_locks`: the lock is found, given back and handed on. -/
theorem Sound.releaseLock {transaction : Transaction} {lock : HeldKeyLock}
    {rest : List HeldKeyLock} (h : system.Sound)
    (hFind : system.manager.activeTransactions t = some transaction)
    (hEnding : transaction.ending = .releasing (lock :: rest))
    (hFree : (system.granting (shardOf lock.key)).isNone) :
    (system.states lock.key).Owns t lock.mode ∧
      ((system.grantPass lock.key (some t) ((system.states lock.key).withdraw
        ⟨t, lock.mode⟩)).withManager (system.manager.setTransaction t
          (some { transaction with ending := .releasing rest }))).Sound := by
  have hSound := h.table.transactions t transaction hFind
  obtain ⟨state, held, ending⟩ := transaction
  obtain rfl : ending = .releasing (lock :: rest) := hEnding
  obtain ⟨key, mode⟩ := lock
  have hKeys : key ∉ rest.map HeldKeyLock.key ∧ (rest.map HeldKeyLock.key).Nodup :=
    nodup_cons.1 hSound.keys
  have hKey := h.key_of_isNone hFree
  have hOwns : (system.states key).Owns t mode :=
    hKey.owns_iff.2 ((claims_iff hFind).2 mem_cons_self)
  have hInactive : state ∉ [.active, .abortRequested, .committing, .aborting] :=
    fun hState => by cases hSound.undecided hState
  refine ⟨hOwns, h.regrant (fun grant hGrant => ?_) (fun _ => key_of_ofGranted)
    (h.table.setTransaction hFind ⟨hKeys.2, fun hState => absurd hState hInactive,
      Ending.noConfusion⟩) (fun k hk u m => claims_setTransaction hFind ?_)
      (fun u => isActive_setTransaction _ hFind rfl) rfl ?_⟩
  · rw [Option.isNone_iff_eq_none.1 hFree] at hGrant
    cases hGrant
  · simp only [claims, mem_cons, HeldKeyLock.mk.injEq, hk, false_and, false_or]
  · rw [waiters_ofGranted]
    refine (hKey.release hOwns (fun u hu m =>
      claims_setTransaction_of_ne hu _) fun m hClaim => ?_).pass
    rw [claims_setTransaction_self] at hClaim
    exact hKeys.1 (mem_map.2 ⟨_, hClaim, rfl⟩)

/-- A step in the transaction table that leaves all claims. -/
theorem Sound.retable (h : system.Sound) (hTable : manager.TableSound)
    (hClaims : ∀ k t m, manager.Claims k t m ↔ system.manager.Claims k t m)
    (hPending : ∀ k t, system.manager.Claims k t .shared → system.Pending t k →
      system.manager.isActive t = true → manager.isActive t = true)
    (hActive : ∀ t, system.manager.Used t → manager.isActive t = true →
      system.manager.isActive t = true) (hUsed : ∀ t, system.manager.Used t → manager.Used t) :
    (system.withManager manager).Sound :=
  ⟨h.located, hTable, fun k => (h.keys k).congr (hClaims k) (hPending k)
    (fun w hw => hActive _ ((h.keys k).used w (mem_append_right _ hw))) hUsed⟩

/-- The counter of ids ends at zero. -/
theorem le_wrapped_next {n t : Nat} (hBound : n < 2 ^ 64) (hLe : t ≤ n) :
    (n + 1) % 2 ^ 64 = 0 ∨ t < (n + 1) % 2 ^ 64 := by
  omega

theorem Sound.begin (h : system.Sound) : (system.step .begin).Sound := by
  by_cases hExhausted : system.manager.nextTransactionId = 0
  · simpa [step, TransactionManager.begin, hExhausted] using h
  have hFresh : ∀ t, system.manager.Used t → t ≠ system.manager.nextTransactionId := by
    rintro t (hZero | hLt) rfl
    · exact hExhausted hZero
    · exact lt_irrefl _ hLt
  have hUsed : ∀ t, t ≤ system.manager.nextTransactionId →
      (system.manager.nextTransactionId + 1) % 2 ^ 64 = 0 ∨
        t < (system.manager.nextTransactionId + 1) % 2 ^ 64 := by
    exact fun t => le_wrapped_next h.table.bound
  have hNone : system.manager.activeTransactions system.manager.nextTransactionId = none := by
    by_contra hSome
    obtain ⟨transaction, hFind⟩ := Option.ne_none_iff_exists'.1 hSome
    exact hFresh _ (h.table.used _ _ hFind) rfl
  simp only [step, TransactionManager.begin, hExhausted, if_false]
  refine h.retable ⟨fun t transaction ht => ?_, fun t transaction ht => ?_, ?_⟩ (fun k t m => ?_)
    (fun k t hClaim _ hActive => ?_) (fun t ht hActive => ?_) fun t ht => ?_
  · by_cases hEq : t = system.manager.nextTransactionId
    · subst hEq
      simp only [update_self, Option.some.injEq] at ht
      subst ht
      exact ⟨nodup_nil, fun _ => rfl, Ending.noConfusion⟩
    · simp only [update_of_ne hEq] at ht
      exact h.table.transactions t transaction ht
  · by_cases hEq : t = system.manager.nextTransactionId
    · exact hUsed t hEq.le
    · simp only [update_of_ne hEq] at ht
      exact (h.table.used t transaction ht).elim (fun hZero => absurd hZero hExhausted)
        fun hLt => hUsed t hLt.le
  · exact Nat.mod_lt _ (Nat.two_pow_pos 64)
  · by_cases hEq : t = system.manager.nextTransactionId
    · subst hEq
      simp [TransactionManager.Claims, hNone, claims]
    · simp [TransactionManager.Claims, update_of_ne hEq]
  · obtain ⟨transaction, hFind, hState⟩ := isActive_iff.1 hActive
    have hEq := hFresh t (h.table.used t transaction hFind)
    exact isActive_iff.2 ⟨transaction, by simpa [hEq] using hFind, hState⟩
  · obtain ⟨transaction, hFind, hState⟩ := isActive_iff.1 hActive
    exact isActive_iff.2 ⟨transaction, by simpa [hFresh t ht] using hFind, hState⟩
  · exact ht.elim (fun hZero => absurd hZero hExhausted) fun hLt => hUsed t hLt.le

/-- No request of the transaction is pending for a key that it already holds in shared mode. -/
def Settled (system : LockSystem) (t : TransactionId) : Prop :=
  ∀ lock ∈ ((system.manager.activeTransactions t).map Transaction.heldKeyLocks).getD [],
    lock.mode = .shared → ¬system.Pending t lock.key

instance (system : LockSystem) (t : TransactionId) : Decidable (system.Settled t) :=
  inferInstanceAs (Decidable (∀ lock ∈ _, _))

/-- A step that changes one transaction of the table, but not its claims. -/
theorem Sound.setTransaction {old new : Transaction} (h : system.Sound)
    (hFind : system.manager.activeTransactions t = some old) (hNew : new.Sound)
    (hClaims : ∀ lock, lock ∈ new.claims ↔ lock ∈ old.claims)
    (hActive : new.state = .active → old.state = .active)
    (hSettled : old.state = .active → new.state = .active ∨ system.Settled t) :
    (system.withManager (system.manager.setTransaction t (some new))).Sound := by
  refine h.retable (h.table.setTransaction hFind hNew)
    (fun k u m => claims_setTransaction hFind (hClaims _))
    (fun k u hClaim hQueued hOld => ?_) (fun u _ hNow => ?_) fun u hu => hu
  · by_cases hEq : u = t
    · subst hEq
      rw [claims_iff hFind] at hClaim
      obtain ⟨transaction, hOther, hState⟩ := isActive_iff.1 hOld
      obtain rfl := Option.some.inj (hFind.symm.trans hOther)
      have hOpen := (h.table.transactions u _ hFind).undecided (by simp [hState])
      rcases hSettled hState with hStays | hNone
      · exact isActive_iff.2 ⟨new, by simp, hStays⟩
      · rw [claims, hOpen] at hClaim
        exact absurd hQueued (hNone ⟨k, .shared⟩ (by simpa [hFind] using hClaim) rfl)
    · rwa [isActive_setTransaction_of_ne hEq]
  · by_cases hEq : u = t
    · subst hEq
      obtain ⟨transaction, hOther, hState⟩ := isActive_iff.1 hNow
      obtain rfl := Option.some.inj ((setTransaction_self _ _ _).symm.trans hOther)
      exact isActive_iff.2 ⟨old, hFind, hActive hState⟩
    · rwa [isActive_setTransaction_of_ne hEq] at hNow

/-- What the calls that end a transaction can do: nothing, or a step that leaves its claims, which
puts an end to its activity only while it is awake; a lock given back; and its removal. -/
inductive Ends (system : LockSystem) (t : TransactionId) (awake : Prop) : LockSystem → Prop
  | idle : Ends system t awake system
  | changes (old new : Transaction) (hFind : system.manager.activeTransactions t = some old)
      (hNew : new.Sound) (hClaims : ∀ lock, lock ∈ new.claims ↔ lock ∈ old.claims)
      (hActive : new.state = .active → old.state = .active)
      (hAwake : old.state = .active → new.state = .active ∨ awake) :
      Ends system t awake (system.withManager (system.manager.setTransaction t (some new)))
  | releases (old : Transaction) (lock : HeldKeyLock) (rest : List HeldKeyLock)
      (hFind : system.manager.activeTransactions t = some old)
      (hEnding : old.ending = .releasing (lock :: rest))
      (hFree : (system.granting (shardOf lock.key)).isNone) :
      Ends system t awake ((system.grantPass lock.key (some t) ((system.states lock.key).withdraw
        ⟨t, lock.mode⟩)).withManager (system.manager.setTransaction t
          (some { old with ending := .releasing rest })))
  | unlinks (old : Transaction) (hFind : system.manager.activeTransactions t = some old)
      (hEnding : old.ending = .released) :
      Ends system t awake (system.withManager
        { system.manager.setTransaction t (some { old with ending := .unlinked }) with
          waitForGraph := system.manager.waitForGraph.remove t })
  | leaves (old : Transaction) (hFind : system.manager.activeTransactions t = some old)
      (hEnding : old.ending = .unlinked) :
      Ends system t awake (system.withManager (system.manager.setTransaction t none))

section

variable {awake : Prop}

theorem unlink_ends : Ends system t awake (system.withManager (system.manager.unlink t)) := by
  cases hFind : system.manager.activeTransactions t with
  | none => simpa only [unlink, hFind, withManager_self] using Ends.idle
  | some old =>
    by_cases hEnding : old.ending = .released
    · simp only [unlink, hFind, hEnding, if_true]
      exact .unlinks old hFind hEnding
    · simpa only [unlink, hFind, hEnding, if_false, withManager_self] using
        Ends.idle

theorem removeTransaction_ends :
    Ends system t awake (system.withManager (system.manager.removeTransaction t)) := by
  cases hFind : system.manager.activeTransactions t with
  | none => simpa only [TransactionManager.removeTransaction, hFind, withManager_self] using
    Ends.idle
  | some old =>
    by_cases hEnding : old.ending = .unlinked
    · simp only [TransactionManager.removeTransaction, hFind, hEnding, if_true]
      exact .leaves old hFind hEnding
    · simpa only [TransactionManager.removeTransaction, hFind, hEnding, if_false,
        withManager_self] using Ends.idle

variable (h : system.Sound)
include h

/-- The first section of `commit` or `abort`. -/
theorem Sound.claim_ends {ε : Type} {notFound invalidState : ε} {allowed : List TransactionState}
    {claimed : TransactionState} (hAwake : awake)
    (hAllowed : ∀ state ∈ allowed, state ∈ [.active, .abortRequested, .committing, .aborting])
    (hClaimed : claimed ∈ [.abortRequested, .committing, .aborting])
    (hClaim : system.manager.claim notFound invalidState allowed claimed t = .ok manager) :
    Ends system t awake (system.withManager manager) := by
  cases hFind : system.manager.activeTransactions t with
  | none => simp [claim, hFind] at hClaim
  | some old =>
    have hSound := h.table.transactions t old hFind
    by_cases hOld : old.state ∈ allowed
    · simp only [claim, hFind, hOld, if_true, Except.ok.injEq] at hClaim
      subst hClaim
      obtain ⟨state, held, ending⟩ := old
      obtain rfl : ending = .undecided := hSound.undecided (hAllowed state hOld)
      refine .changes _ _ hFind ⟨hSound.keys, fun _ => rfl, Ending.noConfusion⟩ (fun _ => Iff.rfl)
        (fun hActive => ?_) fun _ => .inr hAwake
      obtain rfl : claimed = .active := hActive
      simp at hClaimed
    · simp [claim, hFind, hOld] at hClaim

theorem Sound.claimCommit_ends (hAwake : awake) :
    Ends system t awake (system.step (.claimCommit t)) := by
  cases hClaim : system.manager.claimCommit t with
  | error status => simpa only [step, hClaim] using Ends.idle
  | ok manager =>
    simp only [step, hClaim]
    exact h.claim_ends hAwake (by simp) (by simp) hClaim

theorem Sound.claimAbort_ends (hAwake : awake) :
    Ends system t awake (system.step (.claimAbort t)) := by
  cases hClaim : system.manager.claimAbort t with
  | error status => simpa only [step, hClaim] using Ends.idle
  | ok manager =>
    simp only [step, hClaim]
    exact h.claim_ends hAwake (by simp) (by simp) hClaim

theorem Sound.settle_ends {claimed final : TransactionState}
    (hClaimed : claimed ∈ [.committing, .aborting]) (hFinal : final ∈ [.committed, .aborted]) :
    Ends system t awake (system.withManager (system.manager.settle claimed final t)) := by
  cases hFind : system.manager.activeTransactions t with
  | none => simpa only [settle, hFind, withManager_self] using Ends.idle
  | some old =>
    have hSound := h.table.transactions t old hFind
    by_cases hState : old.state = claimed
    · subst hState
      simp only [settle, hFind, if_true]
      obtain ⟨state, held, ending⟩ := old
      obtain rfl : ending = .undecided :=
        hSound.undecided (mem_cons_of_mem _ (mem_cons_of_mem _ hClaimed))
      have hKeys : (held.map HeldKeyLock.key).Nodup := hSound.keys
      refine .changes _ _ hFind ⟨?_, fun hOpen => ?_, Ending.noConfusion⟩ (fun lock => ?_)
        (fun hActive => ?_) fun hActive => ?_
      · simpa [claims, map_reverse] using hKeys
      · have hOpen : final ∈ [.active, .abortRequested, .committing, .aborting] := hOpen
        rcases mem_cons.1 hFinal with rfl | hFinal
        · simp at hOpen
        · rw [mem_singleton.1 hFinal] at hOpen
          simp at hOpen
      · simp [claims]
      · rw [show final = .active from hActive] at hFinal
        simp at hFinal
      · rw [show state = .active from hActive] at hClaimed
        simp at hClaimed
    · simpa only [settle, hFind, hState, if_false, withManager_self] using
        Ends.idle

/-- Once its locks are gone, a transaction has no claims. -/
theorem Sound.finish {old : Transaction} (new : Transaction)
    (hFind : system.manager.activeTransactions t = some old)
    (hOld : old.ending ∈ [.releasing [], .released])
    (hState : new.state = old.state) (hEnding : new.ending ∈ [.released, .unlinked]) :
    new.Sound ∧ ∀ lock, lock ∈ new.claims ↔ lock ∈ old.claims := by
  have hSound := h.table.transactions t old hFind
  obtain ⟨state, held, ending⟩ := new
  have hNone : old.claims = [] := by
    simp only [mem_cons, not_mem_nil, or_false] at hOld
    rcases hOld with hOld | hOld
    · simp [claims, hOld]
    · simp [claims, hOld]
  have hNone' : claims ⟨state, held, ending⟩ = [] := by
    simp only [mem_cons, not_mem_nil, or_false] at hEnding
    rcases hEnding with rfl | rfl
    · rfl
    · rfl
  refine ⟨⟨?_, fun hOpen => ?_, ?_⟩, fun lock => by rw [hNone, hNone']⟩
  · rw [hNone']
    exact nodup_nil
  · rw [hSound.undecided (hState ▸ hOpen)] at hOld
    simp at hOld
  · rintro hFailed
    rw [hFailed] at hEnding
    simp at hEnding

theorem Sound.releaseNext_ends : Ends system t awake (system.releaseNext t) := by
  cases hFind : system.manager.activeTransactions t with
  | none => simpa only [releaseNext, hFind] using Ends.idle
  | some old =>
    cases hEnding : old.ending with
    | releasing locks =>
      cases locks with
      | nil =>
        simp only [releaseNext, hFind, hEnding]
        split
        · obtain ⟨hNew, hClaims⟩ := h.finish { old with heldKeyLocks := [], ending := .released }
            hFind (by simp [hEnding]) rfl (by simp)
          exact .changes _ _ hFind hNew hClaims (fun hActive => hActive) .inl
        · exact .idle
      | cons lock rest =>
        simp only [releaseNext, hFind, hEnding]
        split
        next hFree =>
          simp only [unlock_of_owns _ (h.releaseLock hFind hEnding hFree.1).1, if_true]
          exact .releases old lock rest hFind hEnding hFree.1
        next => exact .idle
    | undecided | failed | released | unlinked =>
      simpa only [releaseNext, hFind, hEnding] using Ends.idle

theorem Sound.leave {old : Transaction} (hFind : system.manager.activeTransactions t = some old)
    (hEnding : old.ending = .unlinked) :
    (system.withManager (system.manager.setTransaction t none)).Sound := by
  have hGone : ∀ u new, (system.manager.setTransaction t none).activeTransactions u = some new →
      u ≠ t ∧ system.manager.activeTransactions u = some new := by
    intro u new hu
    by_cases hEq : u = t
    · subst hEq
      rw [setTransaction_self] at hu
      cases hu
    · exact ⟨hEq, by rwa [setTransaction_of_ne hEq] at hu⟩
  refine h.retable ⟨fun u new hu => h.table.transactions u new (hGone u new hu).2,
    fun u new hu => h.table.used u new (hGone u new hu).2, h.table.bound⟩ (fun k u m => ?_)
    (fun k u hClaim _ hActive => ?_) (fun u _ hActive => ?_) fun u hu => hu
  · by_cases hEq : u = t
    · subst hEq
      simp [TransactionManager.Claims, hFind, claims, hEnding]
    · exact claims_setTransaction_of_ne hEq _
  · have hEq : u ≠ t := by
      rintro rfl
      exact h.table.not_active hFind (by simp [hEnding]) hActive
    rwa [isActive_setTransaction_of_ne hEq]
  · obtain ⟨new, hNew, hState⟩ := isActive_iff.1 hActive
    exact isActive_iff.2 ⟨new, (hGone u new hNew).2, hState⟩

end

theorem Sound.ends (h : system.Sound) (hEnds : Ends system t (system.Settled t) system') :
    system'.Sound := by
  cases hEnds with
  | idle => exact h
  | changes old new hFind hNew hClaims hActive hAwake =>
    exact h.setTransaction hFind hNew hClaims hActive hAwake
  | releases old lock rest hFind hEnding hFree => exact (h.releaseLock hFind hEnding hFree).2
  | unlinks old hFind hEnding =>
    obtain ⟨hNew, hClaims⟩ := h.finish { old with ending := .unlinked } hFind (by simp [hEnding])
      rfl (by simp)
    have hDone := h.setTransaction hFind hNew hClaims (fun hActive => hActive) .inl
    exact ⟨h.located, hDone.table.withGraph _, hDone.keys⟩
  | leaves old hFind hEnding => exact h.leave hFind hEnding

/-- The calls under which the two records of ownership stay together. A refused call must not
find other shared owners, nobody unlocks behind `release_locks`, and a transaction is not ended
while one of its requests is pending for a key it already shares. -/
def Allowed (system : LockSystem) : Event → Prop
  | .lockShared t key => ¬system.ErasesOwners t key
  | .unlock t key mode => ¬(system.states key).Owns t mode
  | .claimCommit t => system.Settled t
  | .claimAbort t => system.Settled t
  | _ => True

instance (system : LockSystem) : (event : Event) → Decidable (system.Allowed event)
  | .lockShared t key => inferInstanceAs (Decidable (¬system.ErasesOwners t key))
  | .unlock t key mode => inferInstanceAs (Decidable (¬(system.states key).Owns t mode))
  | .claimCommit t | .claimAbort t => inferInstanceAs (Decidable (system.Settled t))
  | .begin | .lockExclusive _ _ | .recordGrant _ | .settleCommit _ | .settleAbort _
  | .releaseNext _ | .unlink _ | .removeTransaction _ => .isTrue trivial

theorem Sound.step (h : system.Sound) {event : Event} (hAllowed : system.Allowed event) :
    (system.step event).Sound := by
  cases event with
  | begin => exact h.begin
  | lockShared t key =>
    simp only [LockSystem.step]
    split
    · exact h.arrives ‹_› (lockShared_arrives hAllowed)
    · exact h
  | lockExclusive t key =>
    simp only [LockSystem.step]
    split
    · exact h.arrives ‹_› (lockExclusive_arrives (h.keys key).nodup)
    · exact h
  | unlock t key mode =>
    simp only [LockSystem.step]
    split
    · rw [unlock_of_not_owns none hAllowed]
      exact h
    · exact h
  | recordGrant shard => exact h.recordGrant shard
  | claimCommit t => exact h.ends (h.claimCommit_ends hAllowed)
  | claimAbort t => exact h.ends (h.claimAbort_ends hAllowed)
  | settleCommit t | settleAbort t => exact h.ends (h.settle_ends (by simp) (by simp))
  | releaseNext t => exact h.ends h.releaseNext_ends
  | unlink t => exact h.ends unlink_ends
  | removeTransaction t => exact h.ends removeTransaction_ends

theorem sound_fresh (next : UInt64) : (fresh next.toNat).Sound where
  located := fun _ _ hGrant => by cases hGrant
  table := ⟨fun _ _ hFind => (by cases hFind), fun _ _ hFind => (by cases hFind), next.toNat_lt⟩
  keys := fun key => by
    refine KeyAgrees.empty fun t m => ?_
    rintro ⟨_, hFind, -⟩
    cases hFind

theorem Sound.run (h : system.Sound) {events : List Event}
    (hConforms : Conforms Allowed system events) : (system.run events).Sound := by
  induction events generalizing system with
  | nil => exact h
  | cons event events ih => exact ih (h.step hConforms.1) hConforms.2

/-- In every run of allowed calls the lock table and the transactions agree on every key whose
grants are recorded, an exclusive owner is alone, and `release_locks` finds every lock. -/
theorem lockTable_agrees (next : UInt64) (events : List Event)
    (hConforms : Conforms Allowed (fresh next.toNat) events) :
    (∀ t transaction key mode,
      ((fresh next.toNat).run events).manager.activeTransactions t = some transaction →
      transaction.state = .active → ((fresh next.toNat).run events).unrecorded key = [] →
      (⟨key, mode⟩ ∈ transaction.heldKeyLocks ↔
        (((fresh next.toNat).run events).states key).Owns t mode)) ∧
    (∀ key t, (((fresh next.toNat).run events).states key).exclusiveOwner = some t →
      (((fresh next.toNat).run events).states key).sharedOwners = []) ∧
    ∀ t transaction,
      ((fresh next.toNat).run events).manager.activeTransactions t = some transaction →
      transaction.ending ≠ .failed := by
  have hSound := (sound_fresh next).run hConforms
  refine ⟨fun t transaction key mode hFind hState hRecorded => ?_,
    fun key => (hSound.keys key).exclusive,
    fun t transaction hFind => (hSound.table.transactions t transaction hFind).releases⟩
  have hKey := hSound.keys key
  rw [hRecorded] at hKey
  rw [hKey.owns_iff, TransactionManager.claims_iff hFind, Transaction.claims,
    (hSound.table.transactions t transaction hFind).undecided (by simp [hState])]

/-- A key of the examples below. -/
def sampleKey : Key := ⟨⟨.string, 1, [107]⟩, rfl⟩

/-- Two transactions share a key, one waits to write it and gets it when the other commits. -/
theorem lockTable_agrees_promotion :
    (((fresh 1).run [.begin, .begin, .lockShared 1 sampleKey, .lockShared 2 sampleKey,
      .lockExclusive 1 sampleKey, .claimCommit 2, .settleCommit 2, .releaseNext 2,
      .recordGrant (shardOf sampleKey)]).states sampleKey).exclusiveOwner = some 1 ∧
    (((fresh 1).run [.begin, .begin, .lockShared 1 sampleKey, .lockShared 2 sampleKey,
      .lockExclusive 1 sampleKey, .claimCommit 2, .settleCommit 2, .releaseNext 2,
      .recordGrant (shardOf sampleKey)]).states sampleKey).sharedOwners = [] := by
  refine ⟨?owner, (lockTable_agrees 1 _ (by decide +kernel)).2.1 sampleKey 1 ?owner⟩
  decide +kernel

/-- A shared request of a transaction that does not exist erases the owner of the key: the
transaction still lists the lock, and its commit fails when it comes to release it. -/
theorem lockShared_unknown_erases_owner :
    let shared := (fresh 1).run [.begin, .lockShared 1 sampleKey, .lockShared 99 sampleKey]
    shared.manager.activeTransactions 1 = some ⟨.active, [⟨sampleKey, .shared⟩], .undecided⟩ ∧
      shared.unrecorded sampleKey = [] ∧ ¬(shared.states sampleKey).Owns 1 .shared ∧
      (shared.run [.claimCommit 1, .settleCommit 1, .releaseNext 1]).manager.activeTransactions 1 =
        some ⟨.committed, [⟨sampleKey, .shared⟩], .failed⟩ := by
  decide +kernel

end LockSystem

end Stoneleaf
