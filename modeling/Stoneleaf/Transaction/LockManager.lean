import Mathlib.Logic.Function.Basic
import Stoneleaf.Transaction.TransactionManager

/-!
The lock manager attached to its transaction manager. A step is what one thread does under one
mutex: a lock call is one step, since it enters the transaction table once, while a thread that
hands a released key on to the queue records one grant per step and keeps the shard's mutex in
between. A key without an entry in its shard has the empty lock state.
-/

namespace Stoneleaf

def shardCount : Nat := 64

/-- The 64-bit FNV-1a hash of the key's type and bytes. -/
def keyHash (key : Key) : UInt64 :=
  key.data.foldl (fun hash byte => (hash ^^^ byte.toUInt64) * 1099511628211)
    ((14695981039346656037 ^^^ UInt64.ofNat key.type.toByte) * 1099511628211)

def shardOf (key : Key) : Fin shardCount :=
  ⟨(keyHash key).toNat % shardCount, Nat.mod_lt _ (Nat.zero_lt_succ 63)⟩

inductive LockManagerStatus where
  | success
  | txnHoldsExclusive
  | txnHoldsShared
  | busy
  | notOwner
  | deadlock
  | transactionNotFound
deriving DecidableEq, Repr

/-- A thread inside `grant_waiters`: the granted requests it has not recorded yet. -/
structure Grant where
  key : Key
  waiter : Waiter
  rest : List Waiter
  /-- A request of this pass was cancelled, so the queue is looked at once more. -/
  retry : Bool
  /-- The transaction whose `release_locks` is the caller, if any. -/
  releaser : Option TransactionId
deriving DecidableEq

namespace Grant

def waiters (grant : Grant) : List Waiter := grant.waiter :: grant.rest

/-- A pass that granted nothing leaves nothing to record. -/
def ofGranted (key : Key) (releaser : Option TransactionId) : List Waiter → Option Grant
  | [] => none
  | waiter :: rest => some ⟨key, waiter, rest, false, releaser⟩

end Grant

structure LockSystem where
  states : Key → LockState
  /-- The thread that holds a shard's mutex between two steps. -/
  granting : Fin shardCount → Option Grant
  manager : TransactionManager

namespace LockSystem

def fresh (nextTransactionId : TransactionId) : LockSystem where
  states := fun _ => {}
  granting := fun _ => none
  manager := .fresh nextTransactionId

def setState (system : LockSystem) (key : Key) (state : LockState) : LockSystem :=
  { system with states := Function.update system.states key state }

def withManager (system : LockSystem) (manager : TransactionManager) : LockSystem :=
  { system with manager := manager }

/-- The granted requests of the key that are not recorded yet. -/
def unrecorded (system : LockSystem) (key : Key) : List Waiter :=
  match system.granting (shardOf key) with
  | none => []
  | some grant => if grant.key = key then grant.waiters else []

/-- A request of the transaction for the key is queued, or granted and not recorded. -/
def Pending (system : LockSystem) (txnId : TransactionId) (key : Key) : Prop :=
  txnId ∈ ((system.states key).waiters ++ system.unrecorded key).map Waiter.txnId

instance (system : LockSystem) (txnId : TransactionId) (key : Key) :
    Decidable (system.Pending txnId key) :=
  inferInstanceAs (Decidable (txnId ∈ _))

/-- Queue a request behind the others. It is taken out again when the wait is refused. -/
def await (system : LockSystem) (key : Key) (waiter : Waiter) (blockers : List TransactionId) :
    LockSystem × Option LockManagerStatus :=
  let state := system.states key
  match system.manager.registerWait waiter.txnId blockers with
  | (.registered, manager) =>
    ((system.setState key { state with waiters := state.waiters ++ [waiter] }).withManager
      manager, none)
  | (.deadlock, _) => (system, some .deadlock)
  | (.transactionNotFound, _) => (system, some .transactionNotFound)
  | (.blockerNotFound, _) => (system, some .transactionNotFound)

/-- The status is `none` while the caller sleeps. -/
def lockShared (system : LockSystem) (txnId : TransactionId) (key : Key) :
    LockSystem × Option LockManagerStatus :=
  let state := system.states key
  if txnId ∈ state.sharedOwners then (system, some .txnHoldsShared)
  else if state.exclusiveOwner = some txnId then (system, some .txnHoldsExclusive)
  else if state.exclusiveOwner = none ∧ state.waiters = [] then
    match system.manager.recordLock txnId key .shared with
    | some manager =>
      ((system.setState key
        { state with sharedOwners := state.sharedOwners.insert txnId }).withManager manager,
        some .success)
    -- The source erases the whole entry of the key, not only the refused owner.
    | none => (system.setState key {}, some .transactionNotFound)
  else
    system.await key ⟨txnId, .shared⟩ (state.exclusiveOwner.toList ++
      (state.waiters.filter fun waiter => waiter.lockMode = .exclusive).map Waiter.txnId)

def lockExclusive (system : LockSystem) (txnId : TransactionId) (key : Key) :
    LockSystem × Option LockManagerStatus :=
  let state := system.states key
  if state.exclusiveOwner = some txnId then (system, some .txnHoldsExclusive)
  else
    let isPromotion := txnId ∈ state.sharedOwners
    let noOtherSharedOwner :=
      state.sharedOwners = [] ∨ isPromotion ∧ state.sharedOwners.length = 1
    if noOtherSharedOwner ∧ state.exclusiveOwner = none ∧ state.waiters = [] then
      match system.manager.recordLock txnId key .exclusive with
      | some manager =>
        ((system.setState key { state with
            sharedOwners := state.sharedOwners.filter (· ≠ txnId)
            exclusiveOwner := some txnId }).withManager manager, some .success)
      | none =>
        if isPromotion then
          (system.setState key { state with
              sharedOwners := (state.sharedOwners.filter (· ≠ txnId)).insert txnId
              exclusiveOwner := none }, some .transactionNotFound)
        else (system.setState key {}, some .transactionNotFound)
    else
      system.await key ⟨txnId, .exclusive⟩ (state.exclusiveOwner.toList ++
        state.sharedOwners.filter (· ≠ txnId) ++ state.waiters.map Waiter.txnId)

/-- One pass of `grant_waiters` over the queue of a key. -/
def grantPass (system : LockSystem) (key : Key) (releaser : Option TransactionId)
    (state : LockState) : LockSystem :=
  { system with
    states := Function.update system.states key state.grantWaiters.1
    granting := Function.update system.granting (shardOf key)
      (Grant.ofGranted key releaser state.grantWaiters.2) }

/-- `unlock_shared` and `unlock_exclusive`, up to the first pass over the queue. -/
def unlock (system : LockSystem) (releaser : Option TransactionId) (txnId : TransactionId)
    (key : Key) (mode : LockMode) : LockSystem × LockManagerStatus :=
  let state := system.states key
  match mode with
  | .shared =>
    if txnId ∉ state.sharedOwners then (system, .notOwner)
    else
      (system.grantPass key releaser
        { state with sharedOwners := state.sharedOwners.filter (· ≠ txnId) }, .success)
  | .exclusive =>
    if state.exclusiveOwner ≠ some txnId then (system, .notOwner)
    else (system.grantPass key releaser { state with exclusiveOwner := none }, .success)

/-- Record one granted request, or cancel it when its transaction is no longer active; then go on
with the pass. -/
def recordGrant (system : LockSystem) (shard : Fin shardCount) : LockSystem :=
  match system.granting shard with
  | none => system
  | some grant =>
    let waiter := grant.waiter
    let recorded := system.manager.recordLock waiter.txnId grant.key waiter.lockMode
    let state := system.states grant.key
    let state := if recorded.isSome then state else state.withdraw waiter
    let retry := grant.retry || recorded.isNone
    let system := (system.setState grant.key state).withManager
      ((recorded.getD system.manager).removeWait waiter.txnId)
    match grant.rest with
    | next :: rest =>
      { system with
        granting := Function.update system.granting shard
          (some { grant with waiter := next, rest := rest, retry := retry }) }
    | [] =>
      if retry then system.grantPass grant.key grant.releaser state
      else { system with granting := Function.update system.granting shard none }

/-- No thread that runs this transaction's `release_locks` is inside `grant_waiters`. -/
def ReleaserFree (system : LockSystem) (txnId : TransactionId) : Prop :=
  ∀ shard grant, system.granting shard = some grant → grant.releaser ≠ some txnId

instance (system : LockSystem) (txnId : TransactionId) : Decidable (system.ReleaserFree txnId) :=
  decidable_of_iff (∀ shard, (system.granting shard).all fun grant =>
    grant.releaser ≠ some txnId) <| by
    refine forall_congr' fun shard => ?_
    cases system.granting shard with
    | none => simp
    | some grant => simp

/-- One turn of the loop in `release_locks`, or its end. -/
def releaseNext (system : LockSystem) (txnId : TransactionId) : LockSystem :=
  match system.manager.activeTransactions txnId with
  | none => system
  | some transaction =>
    match transaction.ending with
    | .releasing (lock :: rest) =>
      if (system.granting (shardOf lock.key)).isNone ∧ system.ReleaserFree txnId then
        let (system, status) := system.unlock (some txnId) txnId lock.key lock.mode
        let ending := if status = .success then Ending.releasing rest else .failed
        system.withManager
          (system.manager.setTransaction txnId (some { transaction with ending := ending }))
      else system
    | .releasing [] =>
      if system.ReleaserFree txnId then
        system.withManager (system.manager.setTransaction txnId
          (some { transaction with heldKeyLocks := [], ending := .released }))
      else system
    | _ => system

/-- What a thread can do next. A lock or unlock call has to find the shard's mutex free. -/
inductive Event where
  | begin
  | lockShared (txnId : TransactionId) (key : Key)
  | lockExclusive (txnId : TransactionId) (key : Key)
  | unlock (txnId : TransactionId) (key : Key) (mode : LockMode)
  | recordGrant (shard : Fin shardCount)
  | claimCommit (txnId : TransactionId)
  | claimAbort (txnId : TransactionId)
  | settleCommit (txnId : TransactionId)
  | settleAbort (txnId : TransactionId)
  | releaseNext (txnId : TransactionId)
  | unlink (txnId : TransactionId)
  | removeTransaction (txnId : TransactionId)

def step (system : LockSystem) : Event → LockSystem
  | .begin =>
    match system.manager.begin with
    | none => system
    | some (_, manager) => system.withManager manager
  | .lockShared txnId key =>
    if (system.granting (shardOf key)).isNone then (system.lockShared txnId key).1 else system
  | .lockExclusive txnId key =>
    if (system.granting (shardOf key)).isNone then (system.lockExclusive txnId key).1
    else system
  | .unlock txnId key mode =>
    if (system.granting (shardOf key)).isNone then (system.unlock none txnId key mode).1
    else system
  | .recordGrant shard => system.recordGrant shard
  | .claimCommit txnId =>
    match system.manager.claimCommit txnId with
    | .error _ => system
    | .ok manager => system.withManager manager
  | .claimAbort txnId =>
    match system.manager.claimAbort txnId with
    | .error _ => system
    | .ok manager => system.withManager manager
  | .settleCommit txnId => system.withManager (system.manager.settle .committing .committed txnId)
  | .settleAbort txnId => system.withManager (system.manager.settle .aborting .aborted txnId)
  | .releaseNext txnId => system.releaseNext txnId
  | .unlink txnId => system.withManager (system.manager.unlink txnId)
  | .removeTransaction txnId => system.withManager (system.manager.removeTransaction txnId)

def run (system : LockSystem) (events : List Event) : LockSystem :=
  events.foldl step system

/-- Every step of the run meets the condition, in the state it is made in. -/
def Conforms (allowed : LockSystem → Event → Prop) : LockSystem → List Event → Prop
  | _, [] => True
  | system, event :: events =>
    allowed system event ∧ Conforms allowed (system.step event) events

instance {allowed : LockSystem → Event → Prop} [∀ system event, Decidable (allowed system event)] :
    (system : LockSystem) → (events : List Event) → Decidable (Conforms allowed system events)
  | _, [] => .isTrue trivial
  | system, event :: events =>
    have : Decidable (Conforms allowed (system.step event) events) :=
      instDecidableConforms (system.step event) events
    inferInstanceAs (Decidable (allowed system event ∧ _))

end LockSystem

end Stoneleaf
