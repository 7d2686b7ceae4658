import Stoneleaf.Transaction.LockRun

/-!
The queue of a key. Requests are granted in the order in which they arrive, on arrival, when a lock
is given up, or when a grant is cancelled because its transaction has ended meanwhile. The first
request of the queue has an owner in its way, except while a cancelled grant is being retried. A
transaction may have several requests in a queue, but never one of them exclusive: such a request
would wait for its own transaction.
-/

namespace Stoneleaf

open List Function

namespace LockState

variable {state state' : LockState} {waiter : Waiter} {t : TransactionId}

/-- Another transaction owns the key in a mode that excludes the request. -/
def Conflicts (state : LockState) (waiter : Waiter) : Prop :=
  (∃ t, state.exclusiveOwner = some t ∧ t ≠ waiter.txnId) ∨
    waiter.lockMode = .exclusive ∧ ∃ t ∈ state.sharedOwners, t ≠ waiter.txnId

/-- One step at a key. The requests that were granted are the first of those that were queued,
with the one that has just arrived as the last; nobody else becomes an owner. -/
structure InOrder (arrived granted : List Waiter) (state state' : LockState) : Prop where
  queue : state.waiters ++ arrived = granted ++ state'.waiters
  owners : ∀ w ∈ granted, state'.Owns w.txnId w.lockMode
  onlyGranted : ∀ t mode, state'.Owns t mode → state.Owns t mode ∨ ⟨t, mode⟩ ∈ granted

theorem InOrder.refl (state : LockState) : InOrder [] [] state state :=
  ⟨by simp, by simp, fun _ _ h => .inl h⟩

/-- Of two requests of one transaction in a queue, none is exclusive. -/
def Single (queue : List Waiter) : Prop :=
  queue.Pairwise fun a b => a.txnId = b.txnId → a.lockMode = .shared ∧ b.lockMode = .shared

/-- What holds of a key in every state. -/
structure Arranged (state : LockState) : Prop where
  nodup : state.sharedOwners.Nodup
  exclusive : ∀ t, state.exclusiveOwner = some t → state.sharedOwners = []
  notOwner : ∀ w ∈ state.waiters, state.exclusiveOwner ≠ some w.txnId
  single : Single state.waiters

theorem Arranged.conflicts (h : state.Arranged) (hBlocked : state.FrontBlocked)
    {rest : List Waiter} (hFront : state.waiters = waiter :: rest) : state.Conflicts waiter := by
  rcases hBlocked waiter rest hFront with ⟨t, hOwner⟩ | hShared
  · refine .inl ⟨t, hOwner, ?_⟩
    rintro rfl
    exact h.notOwner waiter (by simp [hFront]) hOwner
  · exact .inr hShared

theorem arranged_empty : ({} : LockState).Arranged :=
  ⟨nodup_nil, by simp, by simp, List.Pairwise.nil⟩

/-- A request that is granted on arrival. -/
theorem Arranged.give (h : state.Arranged) (hFree : state.Available waiter) :
    (state.give waiter).Arranged ∧ InOrder [waiter] [waiter] state (state.give waiter) := by
  have hQueue : state.waiters = [] := hFree.2.1
  refine ⟨⟨nodup_give h.nodup, fun _ => hFree.sharedOwners_give, by simp [hQueue], ?_⟩,
    ?_, ?_, fun u mode hOwns => ?_⟩
  · simp [Single, hQueue]
  · simp [hQueue]
  · simp [hFree.owns_give_iff]
  · rw [hFree.owns_give_iff] at hOwns
    split at hOwns
    next hEq => exact .inr (by simp [hEq, hOwns])
    next => exact .inl hOwns

/-- A request that has to wait joins the end of the queue. -/
theorem Arranged.await (h : state.Arranged) (hOwner : state.exclusiveOwner ≠ some waiter.txnId)
    (hSelf : waiter.txnId ∉ state.blockers waiter) :
    Arranged { state with waiters := state.waiters ++ [waiter] } := by
  refine ⟨h.nodup, h.exclusive, ?_, ?_⟩
  · intro w hw
    rcases mem_append.1 hw with hOld | hNew
    · exact h.notOwner w hOld
    · rw [mem_singleton.1 hNew]
      exact hOwner
  · refine pairwise_append.2 ⟨h.single, pairwise_singleton _ _, ?_⟩
    intro w hw w' hw' hSame
    obtain rfl := mem_singleton.1 hw'
    by_contra hModes
    refine hSelf (hSame ▸ mem_blockers_of_mem hw ?_)
    cases hFirst : w.lockMode with
    | exclusive => exact .inl rfl
    | shared =>
      cases hSecond : w'.lockMode with
      | exclusive => exact .inr rfl
      | shared => exact absurd ⟨hFirst, hSecond⟩ hModes

/-- An owner is taken out. -/
theorem Arranged.withdraw (h : state.Arranged) : (state.withdraw waiter).Arranged where
  nodup := nodup_withdraw h.nodup
  exclusive := fun _ => exclusive_withdraw h.exclusive
  notOwner := fun w hw hOwner => by
    have hOwns : (state.withdraw waiter).Owns w.txnId .exclusive := hOwner
    rw [withdraw_waiters] at hw
    exact h.notOwner w hw (owns_withdraw_iff.1 hOwns).1
  single := by
    rw [withdraw_waiters]
    exact h.single

theorem InOrder.withdraw : InOrder [] [] state (state.withdraw waiter) :=
  ⟨by simp, by simp, fun _ _ hOwns => .inl (owns_withdraw_iff.1 hOwns).1⟩

theorem InOrder.trans {between : LockState} {granted : List Waiter}
    (h : InOrder [] [] state between) (hNext : InOrder [] granted between state') :
    InOrder [] granted state state' where
  queue := by simpa using h.queue.trans (by simpa using hNext.queue)
  owners := hNext.owners
  onlyGranted := fun t mode hOwns => (hNext.onlyGranted t mode hOwns).imp_left fun hOld =>
    (h.onlyGranted t mode hOld).resolve_right not_mem_nil

/-- A pass over the queue. -/
theorem Arranged.pass (h : state.Arranged) :
    state.grantWaiters.1.Arranged ∧ state.grantWaiters.1.FrontBlocked ∧
      InOrder [] state.grantWaiters.2 state state.grantWaiters.1 ∧
      ∀ u ∈ state.sharedOwners, u ∈ state.grantWaiters.1.sharedOwners ∨
        state.grantWaiters.1.exclusiveOwner = some u := by
  have hPassed := grantWaiters_passed h.nodup h.exclusive
  have hSingle := h.single
  rw [hPassed.queue] at hSingle
  obtain ⟨hGranted, hRest, hAcross⟩ := pairwise_append.1 hSingle
  refine ⟨⟨hPassed.nodup, hPassed.exclusive, fun w hw hOwner => ?_, hRest⟩, hPassed.front,
    ⟨by simpa using hPassed.queue, fun w hw => ?_, hPassed.onlyGranted⟩, fun u hu => ?_⟩
  · rcases hPassed.onlyGranted w.txnId .exclusive hOwner with hOld | hFirst
    · exact h.notOwner w (by simp [hPassed.queue, hw]) hOld
    · cases (hAcross _ hFirst w hw rfl).1
  · -- No shared request of a transaction stands before its exclusive one.
    refine (hPassed.owners w hw).resolve_right fun hBoth => ?_
    have hNe : w ≠ ⟨w.txnId, .exclusive⟩ := fun hEq => by
      cases (congrArg Waiter.lockMode hEq).symm.trans hBoth.1
    have : Std.Symm fun a b : Waiter => a.txnId = b.txnId →
        a.lockMode = .shared ∧ b.lockMode = .shared := ⟨fun a b h hEq => (h hEq.symm).symm⟩
    cases (hGranted.forall hw hBoth.2 hNe rfl).2
  · exact (hPassed.kept u .shared hu).imp_right fun hGiven => hGiven.2

end LockState

namespace TransactionManager

variable {manager manager' : TransactionManager} {t : TransactionId} {key : Key} {mode : LockMode}

/-- No active transaction has begun to release its locks. -/
def Undecided (manager : TransactionManager) : Prop :=
  ∀ t transaction, manager.activeTransactions t = some transaction →
    transaction.state = .active → transaction.ending = .undecided

variable (h : manager.Undecided)
include h

theorem Undecided.setTransaction {new : Option Transaction} (hNew : ∀ transaction ∈ new,
    transaction.state = .active → transaction.ending = .undecided) :
    (manager.setTransaction t new).Undecided := by
  intro u transaction hFind
  by_cases hEq : u = t
  · subst hEq
    rw [setTransaction_self] at hFind
    exact hNew transaction hFind
  · rw [setTransaction_of_ne hEq] at hFind
    exact h u transaction hFind

theorem Undecided.recordLock (hRecord : manager.recordLock t key mode = some manager') :
    manager'.Undecided := by
  unfold TransactionManager.recordLock at hRecord
  split at hRecord
  · cases hRecord
  next transaction hFind =>
    split at hRecord
    · cases hRecord
    · obtain rfl := Option.some.inj hRecord
      refine h.setTransaction ?_
      rintro _ ⟨⟩
      exact h t transaction hFind

theorem Undecided.claim {ε : Type} {notFound invalidState : ε} {allowed : List TransactionState}
    {claimed : TransactionState} (hClaimed : claimed ≠ .active)
    (hClaim : manager.claim notFound invalidState allowed claimed t = .ok manager') :
    manager'.Undecided := by
  unfold TransactionManager.claim at hClaim
  split at hClaim
  · cases hClaim
  · split at hClaim
    · obtain rfl := Except.ok.inj hClaim
      refine h.setTransaction ?_
      rintro _ ⟨⟩ hActive
      exact absurd hActive hClaimed
    · cases hClaim

theorem Undecided.settle {claimed final : TransactionState} (hFinal : final ≠ .active) :
    (manager.settle claimed final t).Undecided := by
  unfold TransactionManager.settle
  split
  · exact h
  · split
    · refine h.setTransaction ?_
      rintro _ ⟨⟩ hActive
      exact absurd hActive hFinal
    · exact h

/-- The ending of a transaction that has begun to release its locks goes on. -/
theorem Undecided.end {old : Transaction} (hFind : manager.activeTransactions t = some old)
    (hDecided : old.ending ≠ .undecided) (new : Transaction) (hState : new.state = old.state) :
    (manager.setTransaction t (some new)).Undecided := by
  refine h.setTransaction ?_
  rintro _ ⟨⟩ hActive
  exact absurd (h t old hFind (hState ▸ hActive)) hDecided

theorem Undecided.not_active {old : Transaction} (hFind : manager.activeTransactions t = some old)
    (hDecided : old.ending ≠ .undecided) : manager.isActive t ≠ true := by
  intro hActive
  obtain ⟨other, hOther, hState⟩ := isActive_iff.1 hActive
  obtain rfl := Option.some.inj (hFind.symm.trans hOther)
  exact hDecided (h t _ hFind hState)

end TransactionManager

namespace LockSystem

variable {system : LockSystem} {t : TransactionId} {key : Key} {waiter : Waiter}

/-- The lock and unlock calls of a key are made by active transactions, and a transaction does not
unlock a key while it waits for it. All else may happen at any time; in particular a transaction may
be committed or aborted while its request is queued. -/
def Requested (system : LockSystem) : Event → Prop
  | .lockShared txnId _ => system.manager.isActive txnId = true
  | .lockExclusive txnId _ => system.manager.isActive txnId = true
  | .unlock txnId key _ => system.manager.isActive txnId = true ∧ ¬system.Pending txnId key
  | _ => True

/-- A thread has cancelled a grant of the key and is about to look at the queue once more. -/
def Retrying (system : LockSystem) (key : Key) : Prop :=
  ∃ grant, system.granting (shardOf key) = some grant ∧ grant.key = key ∧ grant.retry = true

/-- The lock that an event asks for on a key. -/
def requestFor (key : Key) : Event → Option Waiter
  | .lockShared txnId k => if k = key then some ⟨txnId, .shared⟩ else none
  | .lockExclusive txnId k => if k = key then some ⟨txnId, .exclusive⟩ else none
  | _ => none

/-- What holds in every state: every key is arranged, and the front of its queue is blocked. -/
structure Attended (system : LockSystem) : Prop where
  keys : ∀ key, (system.states key).Arranged
  front : ∀ key, ¬system.Retrying key → (system.states key).FrontBlocked
  located : ∀ shard grant, system.granting shard = some grant → shardOf grant.key = shard
  undecided : system.manager.Undecided

/-- What one step does to a key: the requests are served in order, and a promotion keeps its shared
lock until it is granted. -/
structure Serves (system : LockSystem) (event : Event) (key : Key) (state' : LockState) :
    Prop where
  inOrder : ∃ arrived granted, (arrived = [] ∨ ∃ waiter, requestFor key event = some waiter ∧
    arrived = [waiter]) ∧ LockState.InOrder arrived granted (system.states key) state'
  promotion : ∀ t, system.manager.isActive t = true → t ∈ (system.states key).sharedOwners →
    ⟨t, .exclusive⟩ ∈ (system.states key).waiters →
    t ∈ state'.sharedOwners ∨ state'.exclusiveOwner = some t

theorem Serves.refl (event : Event) (key : Key) : Serves system event key (system.states key) :=
  ⟨⟨[], [], .inl rfl, .refl _⟩, fun _ _ h _ => .inl h⟩

/-- A step to a system that is attended, and that serves every key. -/
def Advances (system : LockSystem) (event : Event) (system' : LockSystem) : Prop :=
  system'.Attended ∧ ∀ key, Serves system event key (system'.states key)

/-- No transaction waits for itself. -/
theorem not_mem_of_addEdges {graph graph' : WaitForGraph} {blockers : List TransactionId}
    (h : graph.addEdges t blockers = some graph') : t ∉ blockers := by
  intro hMem
  unfold WaitForGraph.addEdges at h
  split at h
  · cases h
  next hNode =>
    have hSelf : graph.pathExists t t = true := by
      simpa [WaitForGraph.pathExists] using hNode
    rw [if_pos ⟨t, hMem, .inr hSelf⟩] at h
    cases h

section

variable (h : system.Attended) {event : Event} {manager : TransactionManager} {state : LockState}
include h

theorem Attended.withManager (hManager : manager.Undecided) :
    system.Advances event (system.withManager manager) :=
  ⟨⟨h.keys, h.front, h.located, hManager⟩, fun key => .refl event key⟩

/-- A step of a thread that holds the shard's mutex for a key. -/
theorem Attended.regrant {grant : Option Grant}
    (hOld : ∀ grant, system.granting (shardOf key) = some grant → grant.key = key)
    (hNew : ∀ grant', grant = some grant' → grant'.key = key) (hManager : manager.Undecided)
    (hKey : state.Arranged) (hFront : grant.any Grant.retry = false → state.FrontBlocked)
    (hServes : Serves system event key state) :
    system.Advances event (system.regrant key state grant manager) := by
  refine ⟨⟨fun k => ?_, fun k hRetry => ?_, fun shard grant' hGrant => ?_, hManager⟩, fun k => ?_⟩
  · by_cases hEq : k = key
    · rw [hEq, states_regrant_self]
      exact hKey
    · rw [states_regrant_of_ne hEq]
      exact h.keys k
  · by_cases hEq : k = key
    · subst hEq
      rw [states_regrant_self]
      refine hFront (Bool.eq_false_of_not_eq_true fun hAny => hRetry ?_)
      obtain ⟨grant', rfl, hFlag⟩ := (Option.any_eq_true _ _).1 hAny
      exact ⟨grant', update_self _ _ _, hNew grant' rfl, hFlag⟩
    · rw [states_regrant_of_ne hEq]
      refine h.front k ?_
      rintro ⟨other, hOther, rfl, hFlag⟩
      by_cases hShard : shardOf other.key = shardOf key
      · rw [hShard] at hOther
        exact hEq (hOld other hOther)
      · refine hRetry ⟨other, ?_, rfl, hFlag⟩
        simpa only [LockSystem.regrant, update_of_ne hShard] using hOther
  · change update _ _ _ _ = _ at hGrant
    by_cases hShard : shard = shardOf key
    · subst hShard
      rw [update_self] at hGrant
      rw [hNew grant' hGrant]
    · rw [update_of_ne hShard] at hGrant
      exact h.located shard grant' hGrant
  · by_cases hEq : k = key
    · rw [hEq, states_regrant_self]
      exact hServes
    · rw [states_regrant_of_ne hEq]
      exact .refl event k

/-- A free shard's mutex is taken for a key and given back. -/
theorem Attended.setState (hFree : (system.granting (shardOf key)).isNone)
    (hManager : manager.Undecided) (hKey : state.Arranged) (hFront : state.FrontBlocked)
    (hServes : Serves system event key state) :
    system.Advances event ((system.setState key state).withManager manager) := by
  have hNone := Option.isNone_iff_eq_none.1 hFree
  have hStep : system.regrant key state none manager =
      (system.setState key state).withManager manager := by
    simp only [LockSystem.regrant, ← hNone, update_eq_self]
    rfl
  rw [← hStep]
  refine h.regrant (fun grant hGrant => ?_) (fun _ hSome => by cases hSome) hManager hKey
    (fun _ => hFront) hServes
  rw [hNone] at hGrant
  cases hGrant

theorem Attended.not_retrying (hFree : (system.granting (shardOf key)).isNone) :
    (system.states key).FrontBlocked := by
  refine h.front key ?_
  rintro ⟨grant, hGrant, -⟩
  rw [hGrant] at hFree
  cases hFree

theorem Attended.arrives {system' : LockSystem} (hEvent : requestFor key event = some waiter)
    (hFree : (system.granting (shardOf key)).isNone)
    (hArrives : system.Arrives key waiter system') :
    system.Advances event system' := by
  have hFront := h.not_retrying hFree
  cases hArrives with
  | idle => exact h.withManager h.undecided
  | granted manager hAvailable hRecord =>
    obtain ⟨hKey, hInOrder⟩ := (h.keys key).give hAvailable
    refine h.setState hFree (h.undecided.recordLock hRecord) hKey ?_
      ⟨⟨_, _, .inr ⟨_, hEvent, rfl⟩, hInOrder⟩, fun u _ _ hu => ?_⟩
    · simp [LockState.FrontBlocked, hAvailable.2.1]
    · rw [hAvailable.2.1] at hu
      cases hu
  | queued graph _ hAdd hOwner hBusy =>
    exact h.setState hFree h.undecided ((h.keys key).await hOwner (not_mem_of_addEdges hAdd))
      (LockState.frontBlocked_of_busy hFront hBusy) ⟨⟨[waiter], [], .inr ⟨waiter, hEvent, rfl⟩,
        rfl, by simp, fun _ _ hOwns => .inl hOwns⟩, fun _ _ hu _ => .inl hu⟩

omit h in
/-- The queue moves on, after an owner may have been taken out that is no active promotion. -/
theorem serves_pass (hKey : state.Arranged)
    (hInOrder : LockState.InOrder [] [] (system.states key) state)
    (hKept : ∀ u, system.manager.isActive u = true → u ∈ (system.states key).sharedOwners →
      ⟨u, .exclusive⟩ ∈ (system.states key).waiters → u ∈ state.sharedOwners) :
    Serves system event key state.grantWaiters.1 := by
  obtain ⟨-, -, hPass, hStill⟩ := hKey.pass
  exact ⟨⟨[], _, .inl rfl, hInOrder.trans hPass⟩,
    fun u hActive hu hQueued => hStill u (hKept u hActive hu hQueued)⟩

/-- An owner of a key gives its lock up, and the queue moves on. -/
theorem Attended.release {mode : LockMode} {releaser : Option TransactionId}
    (hFree : (system.granting (shardOf key)).isNone) (hManager : manager.Undecided)
    (hOther : system.manager.isActive t = true → ⟨t, .exclusive⟩ ∉ (system.states key).waiters) :
    system.Advances event ((system.grantPass key releaser ((system.states key).withdraw
      ⟨t, mode⟩)).withManager manager) := by
  have hKey : ((system.states key).withdraw ⟨t, mode⟩).Arranged := (h.keys key).withdraw
  refine h.regrant (fun grant hGrant => ?_) (fun _ => key_of_ofGranted) hManager hKey.pass.1
    (fun _ => hKey.pass.2.1) (serves_pass hKey .withdraw fun u hActive hu hQueued => ?_)
  · rw [hGrant] at hFree
    cases hFree
  · have hStill : ((system.states key).withdraw ⟨t, mode⟩).Owns u .shared := by
      refine LockState.owns_withdraw_iff.2 ⟨hu, ?_⟩
      rintro ⟨rfl, -⟩
      exact hOther hActive hQueued
    exact hStill

theorem Attended.unlock (hFree : (system.granting (shardOf key)).isNone) (mode : LockMode)
    (hRequested : system.Requested (.unlock t key mode)) :
    system.Advances (.unlock t key mode) (system.unlock none t key mode).1 := by
  by_cases hOwns : (system.states key).Owns t mode
  · rw [unlock_of_owns none hOwns]
    refine h.release hFree h.undecided fun _ hQueued => hRequested.2 ?_
    exact mem_map.2 ⟨_, mem_append_left _ hQueued, rfl⟩
  · rw [unlock_of_not_owns none hOwns]
    exact h.withManager h.undecided

theorem Attended.releaseNext : system.Advances (.releaseNext t) (system.releaseNext t) := by
  have hIdle : system.Advances (.releaseNext t) system := h.withManager h.undecided
  unfold LockSystem.releaseNext
  split
  · exact hIdle
  next old hFind =>
    split
    next lock rest hEnding =>
      have hDecided : old.ending ≠ .undecided := by simp [hEnding]
      split
      next hFree =>
        by_cases hOwns : (system.states lock.key).Owns t lock.mode
        · rw [unlock_of_owns _ hOwns]
          exact h.release hFree.1 (h.undecided.end hFind hDecided _ rfl)
            fun hActive => absurd hActive (h.undecided.not_active hFind hDecided)
        · rw [unlock_of_not_owns _ hOwns]
          exact h.withManager (h.undecided.end hFind hDecided _ rfl)
      next => exact hIdle
    next hEnding =>
      split
      · exact h.withManager (h.undecided.end hFind (by simp [hEnding]) _ rfl)
      · exact hIdle
    next => exact hIdle

/-- The next granted request is recorded, or cancelled if its transaction has ended. -/
theorem Attended.recordGrant (shard : Fin shardCount) :
    system.Advances (.recordGrant shard) (system.recordGrant shard) := by
  cases hGrant : system.granting shard with
  | none =>
    simp only [LockSystem.recordGrant, hGrant]
    exact h.withManager h.undecided
  | some grant =>
    obtain rfl := h.located shard grant hGrant
    have hHeld : ∀ grant', system.granting (shardOf grant.key) = some grant' →
        grant'.key = grant.key := by
      intro grant' hOther
      rw [Option.some.inj (hGrant.symm.trans hOther)]
    obtain ⟨state', next, hEq, hNew, hPart⟩ := recordGrant_eq hGrant rfl rfl rfl
    rw [hEq]
    cases hRecord : system.manager.recordLock grant.waiter.txnId grant.key
      grant.waiter.lockMode with
    | some manager =>
      have hManager : (manager.removeWait grant.waiter.txnId).Undecided :=
        fun u => h.undecided.recordLock hRecord u
      simp only [hRecord, Option.isSome_some, if_true, Option.isNone_some, Bool.or_false] at hPart
      rw [Option.getD_some]
      rcases hPart with ⟨rfl, -, hRetry⟩ | ⟨-, rfl, -⟩
      · refine h.regrant hHeld hNew hManager (h.keys _) (fun hDone => ?_)
          (.refl _ _)
        refine h.front _ ?_
        rintro ⟨other, hOther, -, hFlag⟩
        obtain rfl := Option.some.inj (hGrant.symm.trans hOther)
        rw [hRetry, hFlag] at hDone
        cases hDone
      · exact h.regrant hHeld hNew hManager (h.keys _).pass.1
          (fun _ => (h.keys _).pass.2.1) (serves_pass (h.keys _) (.refl _) fun _ _ hu _ => hu)
    | none =>
      have hInactive := TransactionManager.recordLock_eq_none hRecord
      have hKey : ((system.states grant.key).withdraw grant.waiter).Arranged :=
        (h.keys grant.key).withdraw
      have hKept : ∀ u, system.manager.isActive u = true →
          u ∈ (system.states grant.key).sharedOwners →
          u ∈ ((system.states grant.key).withdraw grant.waiter).sharedOwners := by
        intro u hActive hu
        have hStill : ((system.states grant.key).withdraw grant.waiter).Owns u .shared := by
          refine LockState.owns_withdraw_iff.2 ⟨hu, ?_⟩
          rintro ⟨rfl, -⟩
          cases hInactive.symm.trans hActive
        exact hStill
      simp only [hRecord, Option.isSome_none, Bool.false_eq_true, if_false, Option.isNone_none,
        Bool.or_true] at hPart
      rw [Option.getD_none]
      rcases hPart with ⟨rfl, -, hRetry⟩ | ⟨-, rfl, -⟩
      · refine h.regrant hHeld hNew h.undecided hKey (fun hDone => ?_)
          ⟨⟨[], [], .inl rfl, .withdraw⟩, fun u hActive hu _ => .inl (hKept u hActive hu)⟩
        cases hRetry.symm.trans hDone
      · exact h.regrant hHeld hNew h.undecided hKey.pass.1 (fun _ => hKey.pass.2.1)
          (serves_pass hKey .withdraw fun u hActive hu _ => hKept u hActive hu)

theorem Attended.begin : system.Advances .begin (system.step .begin) := by
  dsimp only [LockSystem.step]
  split
  · exact h.withManager h.undecided
  next id manager hBegin =>
    refine h.withManager ?_
    unfold TransactionManager.begin at hBegin
    split at hBegin
    · cases hBegin
    obtain ⟨rfl, rfl⟩ := Prod.mk.inj (Option.some.inj hBegin)
    have hFresh : (system.manager.setTransaction system.manager.nextTransactionId
        (some {})).Undecided := by
      refine h.undecided.setTransaction ?_
      rintro _ ⟨⟩ -
      rfl
    exact hFresh

theorem Attended.step (hRequested : system.Requested event) :
    system.Advances event (system.step event) := by
  have hIdle : system.Advances event system := h.withManager h.undecided
  cases event with
  | begin => exact h.begin
  | recordGrant shard => exact h.recordGrant shard
  | releaseNext t => exact h.releaseNext
  | lockShared t key =>
    dsimp only [LockSystem.step]
    split
    next hFree =>
      refine h.arrives (if_pos rfl) hFree (lockShared_arrives fun hErases => ?_)
      cases hErases.1.symm.trans hRequested
    next => exact hIdle
  | lockExclusive t key =>
    dsimp only [LockSystem.step]
    split
    next hFree => exact h.arrives (if_pos rfl) hFree (lockExclusive_arrives (h.keys key).nodup)
    next => exact hIdle
  | unlock t key mode =>
    dsimp only [LockSystem.step]
    split
    next hFree => exact h.unlock hFree mode hRequested
    next => exact hIdle
  | claimCommit t | claimAbort t =>
    dsimp only [LockSystem.step]
    split
    · exact hIdle
    next hClaim => exact h.withManager (h.undecided.claim (by simp) hClaim)
  | settleCommit t | settleAbort t => exact h.withManager (h.undecided.settle (by simp))
  | unlink t =>
    refine h.withManager ?_
    unfold TransactionManager.unlink
    split
    · exact h.undecided
    next old hFind =>
      split
      next hEnding => exact h.undecided.end hFind (by simp [hEnding]) _ rfl
      next => exact h.undecided
  | removeTransaction t =>
    refine h.withManager ?_
    unfold TransactionManager.removeTransaction
    split
    · exact h.undecided
    · split
      · exact h.undecided.setTransaction fun _ hNone => by cases hNone
      · exact h.undecided

theorem Attended.run {events : List Event} (hConforms : Conforms Requested system events) :
    (system.run events).Attended := by
  induction events generalizing system with
  | nil => exact h
  | cons event events ih => exact ih (h.step hConforms.1).1 hConforms.2

end

theorem attended_fresh (next : TransactionId) : (fresh next).Attended where
  keys := fun _ => LockState.arranged_empty
  front := fun _ _ => by simp [LockState.FrontBlocked, fresh]
  located := fun _ _ hGrant => by cases hGrant
  undecided := fun _ _ hFind => by cases hFind

/-- A writer is aborted in the queue, and the owner before it commits. -/
def abandonedQueue : List Event :=
  [.begin, .begin, .begin, .lockExclusive 1 sampleKey, .lockExclusive 2 sampleKey,
    .lockShared 3 sampleKey, .claimAbort 2, .claimCommit 1, .settleCommit 1, .releaseNext 1]

end LockSystem

end Stoneleaf
