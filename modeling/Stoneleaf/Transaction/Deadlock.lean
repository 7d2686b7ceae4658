import Stoneleaf.Transaction.LockRun

/-!
Waiting transactions. Every transaction is run by one thread, which sleeps while its request is
queued and gives up locks only by ending the transaction. The edges a request registers when it is
queued cover whatever it waits for later, and the graph never has a cycle.
-/

namespace Stoneleaf

open Library Relation List LockState LockSystem TransactionManager Function Waiter

section Queue

variable {edge edge' : TransactionId → TransactionId → Prop} {state : LockState}
  {waiter : Waiter} {rest unrecorded : List Waiter} {t : TransactionId}

/-- The queue of one key against the wait-for graph. -/
structure QueueEdges (edge : TransactionId → TransactionId → Prop) (state : LockState)
    (unrecorded : List Waiter) : Prop where
  single : ((state.waiters ++ unrecorded).map Waiter.txnId).Nodup
  notOwner : ∀ w ∈ state.waiters, state.exclusiveOwner ≠ some w.txnId
  edges : ∀ before w after, state.waiters = before ++ w :: after → ∀ other, other ≠ w.txnId →
    state.Obstructs before w other → edge w.txnId other

/-- In addition, the first request of the queue cannot be granted. -/
structure QueueSound (edge : TransactionId → TransactionId → Prop) (state : LockState)
    (unrecorded : List Waiter) : Prop extends QueueEdges edge state unrecorded where
  front : state.FrontBlocked

theorem QueueSound.of_nil (hQueue : state.waiters = []) : QueueSound edge state [] where
  single := by simp [hQueue]
  notOwner := by simp [hQueue]
  edges := by simp [hQueue]
  front := by simp [LockState.FrontBlocked, hQueue]

/-- Only edges from a queued request to what is in its way matter. -/
theorem QueueSound.mono (h : QueueSound edge state unrecorded)
    (hEdges : ∀ before w after, state.waiters = before ++ w :: after → ∀ other,
      state.Obstructs before w other → edge w.txnId other → edge' w.txnId other) :
    QueueSound edge' state unrecorded :=
  { h with
    edges := fun before w after hQueue other hNe hObstructs =>
      hEdges before w after hQueue other hObstructs
        (h.edges before w after hQueue other hNe hObstructs) }

/-- Fewer owners, and with them fewer obstacles. -/
theorem QueueEdges.withdraw (h : QueueEdges edge state []) (waiter : Waiter) :
    QueueEdges edge (state.withdraw waiter) [] := by
  have hOwns : ∀ u m, (state.withdraw waiter).Owns u m → state.Owns u m :=
    fun u m hOwner => (owns_withdraw_iff.1 hOwner).1
  refine ⟨by simpa using h.single, fun w hw hOwner => ?_, fun before w after hQueue other hNe
    hObstructs => ?_⟩
  · rw [withdraw_waiters] at hw
    exact h.notOwner w hw (hOwns w.txnId .exclusive hOwner)
  · rw [withdraw_waiters] at hQueue
    refine h.edges before w after hQueue other hNe ?_
    cases hObstructs with
    | exclusiveOwner hOwner => exact .exclusiveOwner (hOwns other .exclusive hOwner)
    | sharedOwner hMode hOwner => exact .sharedOwner hMode (hOwns other .shared hOwner)
    | earlierRequest earlier hMem hTxn hModes => exact .earlierRequest earlier hMem hTxn hModes

/-- A pass turns requests into owners, so whoever is in the way now was in the way before. -/
theorem QueueEdges.pass (h : QueueEdges edge state []) (hNodup : state.sharedOwners.Nodup)
    (hExclusive : ∀ t, state.exclusiveOwner = some t → state.sharedOwners = []) :
    QueueSound edge state.grantWaiters.1 state.grantWaiters.2 := by
  have hPassed := grantWaiters_passed hNodup hExclusive
  have hSingle : (state.waiters.map txnId).Nodup := by simpa using h.single
  have hQueue := hPassed.queue
  rw [hQueue] at hSingle
  refine ⟨⟨((perm_append_comm).map txnId).nodup hSingle, fun w hw hOwner => ?_,
    fun before w after hRest other hNe hObstructs => ?_⟩, hPassed.front⟩
  · rcases hPassed.onlyGranted w.txnId .exclusive hOwner with hOld | hNew
    · exact h.notOwner w (by rw [hQueue]; exact mem_append_right _ hw) hOld
    · rw [map_append] at hSingle
      exact disjoint_of_nodup_append hSingle (mem_map.2 ⟨_, hNew, rfl⟩)
        (mem_map.2 ⟨w, hw, rfl⟩)
  · have hWhole : state.waiters = (state.grantWaiters.2 ++ before) ++ w :: after := by
      rw [append_assoc, ← hRest]
      exact hQueue
    refine h.edges _ w after hWhole other hNe ?_
    cases hObstructs with
    | exclusiveOwner hOwner =>
      rcases hPassed.onlyGranted other .exclusive hOwner with hOld | hNew
      · exact .exclusiveOwner hOld
      · exact .earlierRequest _ (mem_append_left _ hNew) rfl (.inl rfl)
    | sharedOwner hMode hOwner =>
      rcases hPassed.onlyGranted other .shared hOwner with hOld | hNew
      · exact .sharedOwner hMode hOld
      · exact .earlierRequest _ (mem_append_left _ hNew) rfl (.inr hMode)
    | earlierRequest earlier hMem hTxn hModes =>
      exact .earlierRequest earlier (mem_append_right _ hMem) hTxn hModes

/-- A request joins the queue with edges to everything in its way. -/
theorem QueueSound.await (h : QueueSound edge state [])
    (hFresh : waiter.txnId ∉ state.waiters.map txnId)
    (hOwner : state.exclusiveOwner ≠ some waiter.txnId)
    (hMono : ∀ a b, edge a b → edge' a b)
    (hEdges : ∀ other, other ≠ waiter.txnId → state.Obstructs state.waiters waiter other →
      edge' waiter.txnId other)
    (hBusy : ¬state.Available waiter) :
    QueueSound edge' { state with waiters := state.waiters ++ [waiter] } [] := by
  have hSame : ∀ {before w other}, LockState.Obstructs
      { state with waiters := state.waiters ++ [waiter] } before w other →
      state.Obstructs before w other := by
    intro before w other hObstructs
    cases hObstructs with
    | exclusiveOwner hOwner => exact .exclusiveOwner hOwner
    | sharedOwner hMode hOwner => exact .sharedOwner hMode hOwner
    | earlierRequest earlier hMem hTxn hModes => exact .earlierRequest earlier hMem hTxn hModes
  refine ⟨⟨?_, fun w hw => ?_, fun before w after hQueue other hNe hObstructs => ?_⟩,
    frontBlocked_of_busy h.front hBusy⟩
  · have hSingle : (state.waiters.map txnId).Nodup := by simpa using h.single
    simp only [append_nil, map_append, map_cons, map_nil]
    exact nodup_append.2 ⟨hSingle, by simp, fun a ha b hb hEq => hFresh (by
      rw [← mem_singleton.1 hb, ← hEq]
      exact ha)⟩
  · rcases mem_append.1 hw with hOld | hNew
    · exact h.notOwner w hOld
    · rw [mem_singleton.1 hNew]
      exact hOwner
  · change state.waiters ++ [waiter] = before ++ w :: after at hQueue
    rcases eq_nil_or_concat after with rfl | ⟨after, last, rfl⟩
    · obtain ⟨rfl, hLast⟩ := append_inj' hQueue rfl
      obtain rfl : waiter = w := by simpa using hLast
      exact hEdges other hNe (hSame hObstructs)
    · rw [concat_eq_append, ← cons_append, ← append_assoc] at hQueue
      obtain ⟨hOld, -⟩ := append_inj' hQueue rfl
      exact hMono _ _ (h.edges before w after hOld other hNe (hSame hObstructs))

/-- The first unrecorded request has been recorded and its edges are gone. -/
theorem QueueSound.record (h : QueueSound edge state (waiter :: rest))
    (hEdges : ∀ a b, a ≠ waiter.txnId → edge a b → edge' a b) : QueueSound edge' state rest := by
  have hSingle : ((state.waiters ++ waiter :: rest).map txnId).Nodup := h.single
  have hDisjoint : ∀ w ∈ state.waiters, w.txnId ≠ waiter.txnId := by
    intro w hw hEq
    rw [map_append] at hSingle
    refine disjoint_of_nodup_append hSingle (mem_map.2 ⟨w, hw, rfl⟩) ?_
    rw [hEq]
    exact mem_cons_self
  refine ⟨⟨?_, h.notOwner, fun before w after hQueue other hNe hObstructs => ?_⟩, h.front⟩
  · have hSub : (state.waiters ++ rest).Sublist (state.waiters ++ waiter :: rest) :=
      (sublist_cons_self waiter rest).append_left state.waiters
    exact (hSub.map txnId).nodup hSingle
  · exact hEdges _ _ (hDisjoint w (by simp [hQueue]))
      (h.edges before w after hQueue other hNe hObstructs)

theorem QueueEdges.alone {before after : List Waiter} (h : QueueEdges edge state unrecorded)
    (hQueue : state.waiters = before ++ waiter :: after) :
    ∀ w ∈ before, w.txnId ≠ waiter.txnId := by
  intro w hw hEq
  have hSingle := h.single
  rw [hQueue, append_assoc, map_append] at hSingle
  refine disjoint_of_nodup_append hSingle (mem_map.2 ⟨w, hw, rfl⟩) ?_
  rw [hEq]
  exact mem_cons_self

variable (h : QueueSound edge state unrecorded) (hNodup : state.sharedOwners.Nodup)
include h hNodup

/-- Every queued request waits for somebody. -/
theorem QueueSound.exists_waitsFor (hMem : waiter ∈ state.waiters) :
    ∃ other, state.WaitsFor waiter other := by
  obtain ⟨before, after, hQueue⟩ := append_of_mem hMem
  have hAlone := h.alone hQueue
  have hWaits : ∀ other, other ≠ waiter.txnId → state.Obstructs before waiter other →
      ∃ other, state.WaitsFor waiter other := fun other hNe hObstructs =>
    ⟨other, hObstructs.waitsFor hQueue hAlone hNe hNodup⟩
  cases hOwner : state.exclusiveOwner with
  | some t =>
    refine hWaits t (fun hEq => h.notOwner waiter hMem ?_) (.exclusiveOwner hOwner)
    rw [hOwner, hEq]
  | none =>
    cases before with
    | nil =>
      rcases h.front waiter after hQueue with ⟨t, hSome⟩ | ⟨hMode, t, ht, hNe⟩
      · rw [hOwner] at hSome
        cases hSome
      · exact hWaits t hNe (.sharedOwner hMode ht)
    | cons first before =>
      rcases h.front first _ hQueue with ⟨t, hSome⟩ | ⟨hMode, -⟩
      · rw [hOwner] at hSome
        cases hSome
      · exact hWaits first.txnId (hAlone first mem_cons_self)
          (.earlierRequest first mem_cons_self rfl (.inl hMode))

/-- Everything a queued request waits for is covered by an edge. -/
theorem QueueSound.edge_of_waitsFor {other : TransactionId} (hWaits : state.WaitsFor waiter other) :
    edge waiter.txnId other := by
  obtain ⟨before, after, hQueue⟩ := append_of_mem hWaits.1
  exact h.edges before waiter after hQueue other hWaits.2.1
    (hWaits.obstructs hQueue (h.alone hQueue) (h.notOwner waiter hWaits.1) hNodup)

end Queue

/-- The lock system with the threads that call it: the key a transaction's thread last went to
sleep on. -/
structure Callers where
  locks : LockSystem
  waiting : TransactionId → Option Key

namespace Callers

def fresh (nextTransactionId : TransactionId) : Callers where
  locks := .fresh nextTransactionId
  waiting := fun _ => none

/-- The thread of the transaction sleeps. -/
def Blocked (callers : Callers) (t : TransactionId) : Prop :=
  match callers.waiting t with
  | none => False
  | some key => callers.locks.Pending t key

instance (callers : Callers) (t : TransactionId) : Decidable (callers.Blocked t) := by
  unfold Blocked
  split <;> infer_instance

/-- A thread makes a call for an active transaction, or ends a transaction, only while awake; it
never unlocks a key by itself. -/
def Permitted (callers : Callers) : LockSystem.Event → Prop
  | .lockShared t _ => callers.locks.manager.isActive t = true ∧ ¬callers.Blocked t
  | .lockExclusive t _ => callers.locks.manager.isActive t = true ∧ ¬callers.Blocked t
  | .unlock _ _ _ => False
  | .claimCommit t => ¬callers.Blocked t
  | .claimAbort t => ¬callers.Blocked t
  | _ => True

instance (callers : Callers) : (event : LockSystem.Event) → Decidable (callers.Permitted event)
  | .lockShared t _ | .lockExclusive t _ =>
    inferInstanceAs (Decidable (callers.locks.manager.isActive t = true ∧ ¬callers.Blocked t))
  | .unlock _ _ _ => .isFalse id
  | .claimCommit t | .claimAbort t => inferInstanceAs (Decidable (¬callers.Blocked t))
  | .begin | .recordGrant _ | .settleCommit _ | .settleAbort _ | .releaseNext _ | .unlink _
  | .removeTransaction _ => .isTrue trivial

/-- The thread whose call has left a request in the queue goes to sleep. -/
def asleepAfter (locks : LockSystem) (waiting : TransactionId → Option Key) :
    LockSystem.Event → TransactionId → Option Key
  | .lockShared t key =>
    if locks.Pending t key then Function.update waiting t (some key) else waiting
  | .lockExclusive t key =>
    if locks.Pending t key then Function.update waiting t (some key) else waiting
  | _ => waiting

/-- A call that no thread can make at this point does not happen. -/
def step (callers : Callers) (event : LockSystem.Event) : Callers :=
  if callers.Permitted event then
    { locks := callers.locks.step event
      waiting := asleepAfter (callers.locks.step event) callers.waiting event }
  else callers

def run (callers : Callers) (events : List LockSystem.Event) : Callers :=
  events.foldl step callers

/-- A transaction has a request in some queue. -/
def Queued (callers : Callers) (t : TransactionId) : Prop :=
  ∃ key, t ∈ (callers.locks.states key).waiters.map Waiter.txnId

/-- The first transaction has a queued request that waits for the second. -/
def Waits (callers : Callers) (t u : TransactionId) : Prop :=
  ∃ key waiter, waiter.txnId = t ∧ (callers.locks.states key).WaitsFor waiter u

variable {callers : Callers} {locks locks' : LockSystem} {t u : TransactionId} {key : Key}
  {waiting waiting' : TransactionId → Option Key}

/-- The queues against the graph and the sleeping threads. -/
structure Orderly (locks : LockSystem) (waiting : TransactionId → Option Key) : Prop where
  graph : locks.manager.waitForGraph.Sound
  asleep : ∀ t key, locks.Pending t key → waiting t = some key
  active : ∀ t key, locks.Pending t key → locks.manager.isActive t = true
  queues : ∀ key, QueueSound locks.manager.waitForGraph.Edge (locks.states key)
    (locks.unrecorded key)

theorem pending_iff : locks.Pending t key ↔
    t ∈ (locks.states key).waiters.map txnId ∨
      t ∈ (locks.unrecorded key).map txnId := by
  rw [LockSystem.Pending, map_append, mem_append]

theorem not_pending_of_not_blocked (h : Orderly callers.locks callers.waiting)
    (hAwake : ¬callers.Blocked t) (key : Key) : ¬callers.locks.Pending t key := by
  intro hPending
  refine hAwake ?_
  rw [Blocked, h.asleep t key hPending]
  exact hPending

section

variable (h : Orderly locks waiting) {manager : TransactionManager}
include h

/-- A step in the transaction table. -/
theorem Orderly.retable (hGraph : manager.waitForGraph.Sound)
    (hActive : ∀ u key, locks.Pending u key → locks.manager.isActive u = true →
      manager.isActive u = true)
    (hEdges : ∀ key before w after, (locks.states key).waiters = before ++ w :: after → ∀ other,
      (locks.states key).Obstructs before w other → locks.manager.waitForGraph.Edge w.txnId other →
        manager.waitForGraph.Edge w.txnId other) :
    Orderly (locks.withManager manager) waiting where
  graph := hGraph
  asleep := h.asleep
  active := fun u key hPending => hActive u key hPending (h.active u key hPending)
  queues := fun key => (h.queues key).mono (hEdges key)

/-- A step that works on one key. -/
theorem Orderly.change (key : Key) (hGraph : locks'.manager.waitForGraph.Sound)
    (hStates : ∀ k, k ≠ key → locks'.states k = locks.states k)
    (hUnrecorded : ∀ k, k ≠ key → locks'.unrecorded k = locks.unrecorded k)
    (hActive : ∀ u, locks'.manager.isActive u = locks.manager.isActive u)
    (hEdges : ∀ k, k ≠ key → ∀ w ∈ (locks.states k).waiters, ∀ other,
      locks.manager.waitForGraph.Edge w.txnId other →
        locks'.manager.waitForGraph.Edge w.txnId other)
    (hAsleep : ∀ u k, k ≠ key → waiting u = some k → locks.Pending u k → waiting' u = some k)
    (hKey : ∀ u, locks'.Pending u key → waiting' u = some key ∧ locks.manager.isActive u = true)
    (hQueue : QueueSound locks'.manager.waitForGraph.Edge (locks'.states key)
      (locks'.unrecorded key)) :
    Orderly locks' waiting' := by
  have hPending : ∀ u k, k ≠ key → (locks'.Pending u k ↔ locks.Pending u k) := by
    intro u k hk
    rw [pending_iff, pending_iff, hStates k hk, hUnrecorded k hk]
  refine ⟨hGraph, fun u k hu => ?_, fun u k hu => ?_, fun k => ?_⟩
  · by_cases hEq : k = key
    · subst hEq
      exact (hKey u hu).1
    · rw [hPending u k hEq] at hu
      exact hAsleep u k hEq (h.asleep u k hu) hu
  · rw [hActive]
    by_cases hEq : k = key
    · subst hEq
      exact (hKey u hu).2
    · exact h.active u k ((hPending u k hEq).1 hu)
  · by_cases hEq : k = key
    · subst hEq
      exact hQueue
    · rw [hStates k hEq, hUnrecorded k hEq]
      exact (h.queues k).mono fun before w after hSplit other _ hEdge =>
        hEdges k hEq w (by simp [hSplit]) other hEdge

/-- The thread sleeps if its request has joined the queue. -/
theorem Orderly.arrives {waiter : Waiter} (hSound : locks.Sound)
    (hFree : (locks.granting (shardOf key)).isNone) (hAwake : ∀ k, ¬locks.Pending waiter.txnId k)
    (hArrives : locks.Arrives key waiter locks') :
    Orderly locks' (if locks'.Pending waiter.txnId key
      then Function.update waiting waiter.txnId (some key) else waiting) := by
  have hUnrecorded := unrecorded_of_isNone hFree
  cases hArrives with
  | idle =>
    rw [if_neg (hAwake key)]
    exact h
  | granted manager hAvailable hRecord =>
    obtain ⟨-, -, hActive, -, -, -, hGraph⟩ := recordLock_spec hSound.table
      ((hSound.key_of_isNone hFree).shared_of_claims (by simp [hAvailable.1])) hRecord
    have hQueue : ((locks.states key).give waiter).waiters = [] := by simp [hAvailable.2.1]
    have hNone : ∀ u, ¬((locks.setState key ((locks.states key).give waiter)).withManager
        manager).Pending u key := by
      intro u
      rw [pending_iff, unrecorded_withManager, unrecorded_setState,
        hUnrecorded, states_withManager, states_setState_self, hQueue]
      simp
    rw [if_neg (hNone _)]
    refine h.change key (hGraph ▸ h.graph) (fun k hk => update_of_ne hk _ _)
      (fun _ _ => rfl) hActive (fun _ _ _ _ _ hEdge => hGraph ▸ hEdge)
      (fun _ _ _ hAsleep _ => hAsleep) (fun u hu => absurd hu (hNone u)) ?_
    rw [unrecorded_withManager, unrecorded_setState, hUnrecorded,
      states_withManager, states_setState_self]
    exact .of_nil hQueue
  | queued graph hActive hAdd hOwner hBusy =>
    obtain ⟨-, -, hEdges, -⟩ := h.graph.consistent.addEdges_spec hAdd
    have hFresh : waiter.txnId ∉ (locks.states key).waiters.map txnId :=
      fun hMem => hAwake key (pending_iff.2 (.inl hMem))
    have hKey := h.queues key
    rw [hUnrecorded] at hKey
    rw [if_pos (pending_iff.2 (.inl (by simp)))]
    refine h.change key (h.graph.addEdges hAdd)
      (fun k hk => update_of_ne hk _ _) (fun _ _ => rfl) (fun _ => rfl)
      (fun k _ w _ other hEdge => (hEdges _ _).2 (.inl hEdge))
      (fun u k _ hAsleep hPending => ?_) (fun u hu => ?_) ?_
    · have hNe : u ≠ waiter.txnId := by
        rintro rfl
        exact hAwake k hPending
      rw [update_of_ne hNe]
      exact hAsleep
    · by_cases hEq : u = waiter.txnId
      · subst hEq
        exact ⟨update_self _ _ _, hActive⟩
      · have hOld : locks.Pending u key := by
          rw [pending_iff] at hu ⊢
          simpa [hEq] using hu
        rw [update_of_ne hEq]
        exact ⟨h.asleep u key hOld, h.active u key hOld⟩
    · rw [unrecorded_withManager, unrecorded_setState, hUnrecorded,
        states_withManager, states_setState_self]
      exact hKey.await hFresh hOwner (fun a b hEdge => (hEdges a b).2 (.inl hEdge))
        (fun other hNe hObstructs => (hEdges _ _).2 (.inr ⟨rfl, hObstructs.mem_blockers hNe⟩))
        hBusy

/-- A thread that holds the shard's mutex has worked on a key. -/
theorem Orderly.regrant {state : LockState} {grant : Option Grant}
    (hOld : ∀ grant, locks.granting (shardOf key) = some grant → grant.key = key)
    (hNew : ∀ grant', grant = some grant' → grant'.key = key) (hGraph : manager.waitForGraph.Sound)
    (hActive : ∀ u, manager.isActive u = locks.manager.isActive u)
    (hEdges : ∀ k, k ≠ key → ∀ w ∈ (locks.states k).waiters, ∀ other,
      locks.manager.waitForGraph.Edge w.txnId other → manager.waitForGraph.Edge w.txnId other)
    (hPending : ∀ w ∈ state.waiters ++ (grant.map Grant.waiters).getD [], locks.Pending w.txnId key)
    (hQueue : QueueSound manager.waitForGraph.Edge state ((grant.map Grant.waiters).getD [])) :
    Orderly (locks.regrant key state grant manager) waiting := by
  have hUnrecorded : (locks.regrant key state grant manager).unrecorded key =
      (grant.map Grant.waiters).getD [] := unrecorded_regrant_self hNew
  refine h.change key hGraph (fun k hk => states_regrant_of_ne hk)
    (fun k hk => unrecorded_regrant_of_ne hk hOld hNew) hActive hEdges
    (fun _ _ _ hAsleep _ => hAsleep) (fun u hu => ?_) ?_
  · rw [LockSystem.Pending, hUnrecorded, states_regrant_self] at hu
    obtain ⟨w, hw, rfl⟩ := mem_map.1 hu
    exact ⟨h.asleep _ _ (hPending w hw), h.active _ _ (hPending w hw)⟩
  · rw [hUnrecorded, states_regrant_self]
    exact hQueue

end

/-- A pass keeps or grants the requests of the queue. -/
theorem mem_of_grantWaiters {state : LockState} (hNodup : state.sharedOwners.Nodup)
    (hExclusive : ∀ t, state.exclusiveOwner = some t → state.sharedOwners = []) {w : Waiter}
    (hw : w ∈ state.grantWaiters.1.waiters ++ state.grantWaiters.2) : w ∈ state.waiters := by
  rw [(grantWaiters_passed hNodup hExclusive).queue]
  simpa [or_comm] using hw

section

variable (h : Orderly locks waiting)
include h

/-- One recorded grant. A sleeping transaction is active, so no grant is cancelled. -/
theorem Orderly.recordGrant (hSound : locks.Sound) (shard : Fin shardCount) :
    Orderly (locks.recordGrant shard) waiting := by
  cases hGrant : locks.granting shard with
  | none => simpa only [LockSystem.recordGrant, hGrant] using h
  | some grant =>
    obtain rfl := hSound.located shard grant hGrant
    have hUnrecorded : locks.unrecorded grant.key = grant.waiter :: grant.rest := by
      rw [LockSystem.unrecorded, hGrant]
      simp [Grant.waiters]
    have hQueue := h.queues grant.key
    have hKey := hSound.keys grant.key
    rw [hUnrecorded] at hQueue hKey
    have hPending : locks.Pending grant.waiter.txnId grant.key :=
      pending_iff.2 (.inr (by simp [hUnrecorded]))
    have hActive := h.active _ _ hPending
    cases hRecord : locks.manager.recordLock grant.waiter.txnId grant.key
        grant.waiter.lockMode with
    | none =>
      rw [recordLock_eq_none hRecord] at hActive
      cases hActive
    | some manager =>
      obtain ⟨-, -, hSame, -, -, -, hGraph⟩ := recordLock_spec hSound.table
        (fun m hClaim => hKey.unrecorded_shared _ m hClaim (by simp)) hRecord
      have hEdge : ∀ a b, (manager.removeWait grant.waiter.txnId).waitForGraph.Edge a b ↔
          locks.manager.waitForGraph.Edge a b ∧ a ≠ grant.waiter.txnId := by
        intro a b
        rw [TransactionManager.removeWait, ← hGraph]
        exact WaitForGraph.edge_removeOutgoing
      have hRecorded := hQueue.record fun a b hNe hOld => (hEdge a b).2 ⟨hOld, hNe⟩
      have hOthers : ∀ k, k ≠ grant.key → ∀ w ∈ (locks.states k).waiters, ∀ other,
          locks.manager.waitForGraph.Edge w.txnId other →
          (manager.removeWait grant.waiter.txnId).waitForGraph.Edge w.txnId other := by
        intro k hk w hw other hOld
        refine (hEdge _ _).2 ⟨hOld, fun hEq => hk ?_⟩
        have hAsleep := h.asleep w.txnId k
          (pending_iff.2 (.inl (mem_map.2 ⟨w, hw, rfl⟩)))
        rw [hEq, h.asleep _ _ hPending] at hAsleep
        exact (Option.some.inj hAsleep).symm
      have hSound' : (manager.removeWait grant.waiter.txnId).waitForGraph.Sound := by
        rw [TransactionManager.removeWait, hGraph]
        exact h.graph.removeOutgoing _
      have hHeld : ∀ grant', locks.granting (shardOf grant.key) = some grant' →
          grant'.key = grant.key := by
        intro grant' hOther
        rw [Option.some.inj (hGrant.symm.trans hOther)]
      have hStill : ∀ w ∈ (locks.states grant.key).waiters ++ grant.rest,
          locks.Pending w.txnId grant.key := by
        intro w hw
        rw [LockSystem.Pending, hUnrecorded]
        refine mem_map.2 ⟨w, ?_, rfl⟩
        rw [mem_append] at hw ⊢
        exact hw.imp_right (mem_cons_of_mem _)
      obtain ⟨state, next, hEq, hNew, hPart⟩ := recordGrant_eq hGrant hRecord rfl rfl
      rw [hEq]
      rcases hPart with ⟨rfl, hWaiters, -⟩ | ⟨hRest, rfl, hWaiters⟩
      · rw [← hWaiters] at hRecorded hStill
        exact h.regrant hHeld hNew hSound' hSame hOthers hStill hRecorded
      · rw [hRest] at hRecorded hStill
        refine h.regrant hHeld hNew hSound' hSame hOthers (fun w hw => ?_) ?_
        · rw [hWaiters] at hw
          exact hStill w (mem_append_left _ (mem_of_grantWaiters hKey.nodup hKey.exclusive hw))
        · rw [hWaiters]
          exact hRecorded.toQueueEdges.pass hKey.nodup hKey.exclusive

/-- A released key is handed on to the queue. -/
theorem Orderly.releaseLock {transaction new : Transaction} {mode : LockMode} (hSound : locks.Sound)
    (hFind : locks.manager.activeTransactions t = some transaction)
    (hState : new.state = transaction.state) (hFree : (locks.granting (shardOf key)).isNone) :
    Orderly ((locks.grantPass key (some t) ((locks.states key).withdraw ⟨t, mode⟩)).withManager
      (locks.manager.setTransaction t (some new))) waiting := by
  have hKey := hSound.key_of_isNone hFree
  have hQueue := h.queues key
  rw [unrecorded_of_isNone hFree] at hQueue
  have hNodup : ((locks.states key).withdraw ⟨t, mode⟩).sharedOwners.Nodup :=
    nodup_withdraw hKey.nodup
  have hExclusive : ∀ u, ((locks.states key).withdraw ⟨t, mode⟩).exclusiveOwner = some u → _ :=
    fun _ => exclusive_withdraw hKey.exclusive
  refine h.regrant (fun grant hGrant => ?_) (fun _ => key_of_ofGranted) h.graph
    (fun u => isActive_setTransaction _ hFind hState)
    (fun _ _ _ _ _ hEdge => hEdge) (fun w hw => ?_) ?_
  · rw [Option.isNone_iff_eq_none.1 hFree] at hGrant
    cases hGrant
  · rw [waiters_ofGranted] at hw
    have hOld := mem_of_grantWaiters hNodup hExclusive hw
    rw [withdraw_waiters] at hOld
    exact pending_iff.2 (.inl (mem_map.2 ⟨w, hOld, rfl⟩))
  · rw [waiters_ofGranted]
    exact (hQueue.toQueueEdges.withdraw _).pass hNodup hExclusive

/-- A step of the table that leaves the graph and takes nobody's activity who sleeps. -/
theorem Orderly.setTransaction {old new : Transaction}
    (hFind : locks.manager.activeTransactions t = some old)
    (hActive : old.state = .active → new.state = .active ∨ ∀ key, ¬locks.Pending t key) :
    Orderly (locks.withManager (locks.manager.setTransaction t (some new))) waiting := by
  refine h.retable h.graph (fun u key hPending hOld => ?_) fun _ _ _ _ _ _ _ hEdge => hEdge
  by_cases hEq : u = t
  · subst hEq
    obtain ⟨transaction, hOther, hState⟩ := isActive_iff.1 hOld
    obtain rfl := Option.some.inj (hFind.symm.trans hOther)
    rcases hActive hState with hStays | hNone
    · exact isActive_iff.2 ⟨new, by simp, hStays⟩
    · exact absurd hPending (hNone key)
  · rwa [isActive_setTransaction_of_ne hEq]

/-- A transaction past its decision owns nothing and waits for nothing once its locks are
released, so nobody waits for it. -/
theorem Orderly.unlink {old : Transaction} (hSound : locks.Sound)
    (hFind : locks.manager.activeTransactions t = some old) (hEnding : old.ending = .released) :
    Orderly (locks.withManager
      { locks.manager.setTransaction t (some { old with ending := .unlinked }) with
        waitForGraph := locks.manager.waitForGraph.remove t }) waiting := by
  have hIdle : ∀ key, ¬locks.Pending t key := fun key hPending =>
    hSound.table.not_active hFind (by simp [hEnding]) (h.active t key hPending)
  have hNotOwner : ∀ key m, ¬(locks.states key).Owns t m := by
    intro key m hOwns
    obtain ⟨other, hOther, hClaim⟩ := (hSound.keys key).claimed t m hOwns fun hMem =>
      hIdle key (pending_iff.2 (.inr hMem))
    obtain rfl := Option.some.inj (hFind.symm.trans hOther)
    simp [Transaction.claims, hEnding] at hClaim
  refine h.retable (h.graph.remove t)
    (fun u key _ hOld => (isActive_setTransaction { old with
      ending := .unlinked } hFind rfl).trans hOld)
    fun key before w after hQueue other hObstructs hEdge =>
      h.graph.consistent.edge_remove.2 ⟨hEdge, ?_, ?_⟩
  · rintro rfl
    exact hIdle key (pending_iff.2 (.inl (by simp [hQueue])))
  · rintro rfl
    cases hObstructs with
    | exclusiveOwner hOwner => exact hNotOwner key .exclusive hOwner
    | sharedOwner _ hOwner => exact hNotOwner key .shared hOwner
    | earlierRequest earlier hMem hTxn _ =>
      refine hIdle key (pending_iff.2 (.inl (mem_map.2 ⟨earlier, ?_, hTxn⟩)))
      rw [hQueue]
      exact mem_append_left _ hMem

theorem Orderly.ends (hSound : locks.Sound)
    (hEnds : locks.Ends t (∀ key, ¬locks.Pending t key) locks') : Orderly locks' waiting := by
  cases hEnds with
  | idle => exact h
  | changes old new hFind _ _ _ hAwake => exact h.setTransaction hFind hAwake
  | releases old lock rest hFind hEnding hFree => exact h.releaseLock hSound hFind rfl hFree
  | unlinks old hFind hEnding => exact h.unlink hSound hFind hEnding
  | leaves old hFind hEnding =>
    refine h.retable h.graph (fun u key _ hOld => ?_) fun _ _ _ _ _ _ _ hEdge => hEdge
    have hEq : u ≠ t := by
      rintro rfl
      exact hSound.table.not_active hFind (by simp [hEnding]) hOld
    exact (isActive_setTransaction_of_ne hEq _).trans hOld

theorem Orderly.begin (hSound : locks.Sound) : Orderly (locks.step .begin) waiting := by
  by_cases hExhausted : locks.manager.nextTransactionId = 0
  · simpa [LockSystem.step, TransactionManager.begin, hExhausted] using h
  simp only [LockSystem.step, TransactionManager.begin, hExhausted, if_false]
  refine h.retable (h.graph.addNode _) (fun u key _ hOld => ?_)
    fun _ _ _ _ _ _ _ hEdge => (WaitForGraph.edge_addNode _ _ _).2 hEdge
  obtain ⟨transaction, hFind, hState⟩ := isActive_iff.1 hOld
  have hNe : u ≠ locks.manager.nextTransactionId := by
    rintro rfl
    rcases hSound.table.used _ _ hFind with hZero | hLt
    · exact hExhausted hZero
    · exact lt_irrefl _ hLt
  exact isActive_iff.2 ⟨transaction, by simpa [hNe] using hFind, hState⟩

end

/-- Lock table, transactions, queues and graph together. -/
structure Sound (callers : Callers) : Prop where
  locks : callers.locks.Sound
  orderly : Orderly callers.locks callers.waiting

theorem Sound.allowed (h : callers.Sound) {event : LockSystem.Event}
    (hPermitted : callers.Permitted event) : callers.locks.Allowed event := by
  cases event with
  | lockShared t key =>
    rintro ⟨hInactive, -⟩
    rw [hPermitted.1] at hInactive
    cases hInactive
  | unlock t key mode => exact absurd hPermitted id
  | claimCommit t | claimAbort t =>
    exact fun lock _ _ => not_pending_of_not_blocked h.orderly hPermitted lock.key
  | begin => trivial
  | lockExclusive t key => trivial
  | recordGrant shard => trivial
  | settleCommit t => trivial
  | settleAbort t => trivial
  | releaseNext t => trivial
  | unlink t => trivial
  | removeTransaction t => trivial

theorem Sound.step (h : callers.Sound) (event : LockSystem.Event) : (callers.step event).Sound := by
  by_cases hPermitted : callers.Permitted event
  · rw [Callers.step, if_pos hPermitted]
    refine ⟨h.locks.step (h.allowed hPermitted), ?_⟩
    cases event with
    | begin => exact h.orderly.begin h.locks
    | lockShared t key =>
      have hAwake := not_pending_of_not_blocked h.orderly hPermitted.2
      simp only [LockSystem.step, asleepAfter]
      split
      · exact h.orderly.arrives h.locks ‹_› hAwake
          (lockShared_arrives (h.allowed hPermitted))
      · rw [if_neg (hAwake key)]
        exact h.orderly
    | lockExclusive t key =>
      have hAwake := not_pending_of_not_blocked h.orderly hPermitted.2
      simp only [LockSystem.step, asleepAfter]
      split
      · exact h.orderly.arrives h.locks ‹_› hAwake
          (lockExclusive_arrives (h.locks.keys key).nodup)
      · rw [if_neg (hAwake key)]
        exact h.orderly
    | unlock t key mode => exact absurd hPermitted id
    | recordGrant shard => exact h.orderly.recordGrant h.locks shard
    | claimCommit t =>
      exact h.orderly.ends h.locks
        (h.locks.claimCommit_ends (not_pending_of_not_blocked h.orderly hPermitted))
    | claimAbort t =>
      exact h.orderly.ends h.locks
        (h.locks.claimAbort_ends (not_pending_of_not_blocked h.orderly hPermitted))
    | settleCommit t | settleAbort t =>
      exact h.orderly.ends h.locks (h.locks.settle_ends (by simp) (by simp))
    | releaseNext t => exact h.orderly.ends h.locks h.locks.releaseNext_ends
    | unlink t => exact h.orderly.ends h.locks unlink_ends
    | removeTransaction t => exact h.orderly.ends h.locks removeTransaction_ends
  · rw [Callers.step, if_neg hPermitted]
    exact h

theorem Sound.run (h : callers.Sound) (events : List LockSystem.Event) :
    (callers.run events).Sound := by
  induction events generalizing callers with
  | nil => exact h
  | cons event events ih => exact ih (h.step event)

theorem sound_fresh (next : UInt64) : (fresh next.toNat).Sound where
  locks := LockSystem.sound_fresh next
  orderly := by
    have hNone : ∀ t key, ¬(fresh next.toNat).locks.Pending t key := fun t key hPending => by
      cases hPending
    exact ⟨.empty, fun t key hPending => absurd hPending (hNone t key),
      fun t key hPending => absurd hPending (hNone t key), fun key => .of_nil rfl⟩

section

variable (h : callers.Sound)
include h

/-- Whatever a request waits for is an edge of the graph. -/
theorem Sound.edge_of_waits (hWaits : callers.Waits t u) :
    callers.locks.manager.waitForGraph.Edge t u := by
  obtain ⟨key, waiter, rfl, hWaits⟩ := hWaits
  exact (h.orderly.queues key).edge_of_waitsFor (h.locks.keys key).nodup hWaits

/-- An owner is in the transaction table: its lock is recorded there, or about to be. -/
theorem Sound.isSome_of_owns {mode : LockMode} (hOwns : (callers.locks.states key).Owns u mode) :
    (callers.locks.manager.activeTransactions u).isSome := by
  by_cases hMem : u ∈ (callers.locks.unrecorded key).map txnId
  · obtain ⟨transaction, hFind, -⟩ :=
      isActive_iff.1 (h.orderly.active u key (pending_iff.2 (.inr hMem)))
    simp [hFind]
  · obtain ⟨transaction, hFind, -⟩ := (h.locks.keys key).claimed u mode hOwns hMem
    simp [hFind]

theorem Sound.isSome_of_waits (hWaits : callers.Waits t u) :
    (callers.locks.manager.activeTransactions u).isSome := by
  obtain ⟨key, waiter, rfl, hWaits⟩ := hWaits
  have hQueues := h.orderly.queues key
  have hNodup := (h.locks.keys key).nodup
  obtain ⟨before, after, hQueue⟩ := append_of_mem hWaits.1
  have hObstructs := hWaits.obstructs hQueue (hQueues.alone hQueue)
    (hQueues.notOwner waiter hWaits.1) hNodup
  cases hObstructs with
  | exclusiveOwner hOwner => exact h.isSome_of_owns (show LockState.Owns _ u .exclusive from hOwner)
  | sharedOwner _ hOwner => exact h.isSome_of_owns (show LockState.Owns _ u .shared from hOwner)
  | earlierRequest earlier hMem hTxn _ =>
    have hQueued : u ∈ (callers.locks.states key).waiters.map txnId := by
      rw [hQueue, ← hTxn]
      exact mem_map_of_mem (mem_append_left _ hMem)
    obtain ⟨transaction, hFind, -⟩ :=
      isActive_iff.1 (h.orderly.active u key (pending_iff.2 (.inl hQueued)))
    simp [hFind]

theorem Sound.acyclic_waits : Acyclic callers.Waits :=
  h.orderly.graph.acyclic.mono fun _ _ hWaits => h.edge_of_waits hWaits

/-- Following what a queued request waits for ends at a transaction that is not queued. -/
theorem Sound.exists_running (hQueued : callers.Queued t) :
    ∃ u, TransGen callers.Waits t u ∧ ¬callers.Queued u ∧
      (callers.locks.manager.activeTransactions u).isSome := by
  have hNext : ∀ v, callers.Queued v → ∃ w, callers.Waits v w := by
    rintro v ⟨key, hMem⟩
    obtain ⟨waiter, hWaiter, rfl⟩ := mem_map.1 hMem
    obtain ⟨other, hWaits⟩ :=
      (h.orderly.queues key).exists_waitsFor (h.locks.keys key).nodup hWaiter
    exact ⟨other, key, waiter, rfl, hWaits⟩
  obtain ⟨first, hFirst⟩ := hNext t hQueued
  obtain ⟨u, hReach, hLast⟩ := h.acyclic_waits.exists_sink
    (fun a b hWaits => AList.mem_keys.1 (h.edge_of_waits hWaits).source_mem) first
  have hPath : TransGen callers.Waits t u := TransGen.head' hFirst hReach
  refine ⟨u, hPath, fun hQueued => ?_, ?_⟩
  · obtain ⟨w, hWaits⟩ := hNext u hQueued
    exact hLast w hWaits
  · obtain ⟨v, -, hWaits⟩ := TransGen.tail'_iff.1 hPath
    exact h.isSome_of_waits hWaits

end

/-- In every interleaving of the calls of any number of transactions over any number of keys, what
a queued request really waits for is an edge of the wait-for graph, those waits have no cycle, and
every queued transaction's chain of waits ends at a running one. -/
theorem no_undetected_deadlock (next : UInt64) (events : List LockSystem.Event) :
    (∀ t u, ((fresh next.toNat).run events).Waits t u →
      ((fresh next.toNat).run events).locks.manager.waitForGraph.Edge t u) ∧
    Acyclic ((fresh next.toNat).run events).Waits ∧
    ∀ t, ((fresh next.toNat).run events).Queued t →
      ∃ u, TransGen ((fresh next.toNat).run events).Waits t u ∧
        ¬((fresh next.toNat).run events).Queued u ∧
        (((fresh next.toNat).run events).locks.manager.activeTransactions u).isSome := by
  have hSound := (sound_fresh next).run events
  exact ⟨fun t u hWaits => hSound.edge_of_waits hWaits, hSound.acyclic_waits,
    fun t hQueued => hSound.exists_running hQueued⟩

end Callers

end Stoneleaf
