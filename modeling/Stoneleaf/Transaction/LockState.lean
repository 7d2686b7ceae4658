import Mathlib.Data.List.Nodup
import Mathlib.Data.Option.Basic
import Stoneleaf.Log.WalRecord

/-!
The lock state of one key: its owners and the queue of requests that wait for it. The owners
are a set in the source and a list without repetition here.
-/

namespace Stoneleaf

open List

inductive LockMode where
  | shared
  | exclusive
deriving DecidableEq, Repr

/-- A request in the queue of a key. -/
structure Waiter where
  txnId : TransactionId
  lockMode : LockMode
deriving DecidableEq, Repr

structure LockState where
  sharedOwners : List TransactionId := []
  exclusiveOwner : Option TransactionId := none
  waiters : List Waiter := []
deriving DecidableEq, Repr

namespace LockState

/-- The loop over the queue: what is left of the lock state, and the requests granted. -/
def grantQueue (sharedOwners : List TransactionId) : List Waiter → LockState × List Waiter
  | [] => ({ sharedOwners := sharedOwners }, [])
  | waiter :: queue =>
    match waiter.lockMode with
    | .exclusive =>
      -- A promoting waiter may replace its own retained shared lock.
      let onlyRequesterIsShared :=
        sharedOwners.length = 1 ∧ waiter.txnId ∈ sharedOwners
      if sharedOwners = [] ∨ onlyRequesterIsShared then
        ({ sharedOwners := sharedOwners.filter (· ≠ waiter.txnId)
           exclusiveOwner := some waiter.txnId
           waiters := queue }, [waiter])
      else ({ sharedOwners := sharedOwners, waiters := waiter :: queue }, [])
    | .shared =>
      let (state, granted) := grantQueue (sharedOwners.insert waiter.txnId) queue
      (state, waiter :: granted)

/-- One pass over the queue; an exclusive owner blocks it. -/
def grantWaiters (state : LockState) : LockState × List Waiter :=
  if state.exclusiveOwner.isSome ∨ state.waiters = [] then (state, [])
  else grantQueue state.sharedOwners state.waiters

/-- Take back what a cancelled request was granted. -/
def withdraw (state : LockState) (waiter : Waiter) : LockState :=
  match waiter.lockMode with
  | .shared => { state with sharedOwners := state.sharedOwners.filter (· ≠ waiter.txnId) }
  | .exclusive =>
    if state.exclusiveOwner = some waiter.txnId then { state with exclusiveOwner := none }
    else state

/-- The transaction is an owner of the key in this mode. -/
def Owns (state : LockState) (txnId : TransactionId) : LockMode → Prop
  | .shared => txnId ∈ state.sharedOwners
  | .exclusive => state.exclusiveOwner = some txnId

instance (state : LockState) (txnId : TransactionId) : (mode : LockMode) →
    Decidable (state.Owns txnId mode)
  | .shared => inferInstanceAs (Decidable (txnId ∈ state.sharedOwners))
  | .exclusive => inferInstanceAs (Decidable (state.exclusiveOwner = some txnId))

@[simp] theorem owns_shared (state : LockState) (t : TransactionId) :
    state.Owns t .shared ↔ t ∈ state.sharedOwners := Iff.rfl

@[simp] theorem owns_exclusive (state : LockState) (t : TransactionId) :
    state.Owns t .exclusive ↔ state.exclusiveOwner = some t := Iff.rfl

section Withdraw

variable {state : LockState} {waiter : Waiter} {t : TransactionId} {mode : LockMode}

@[simp] theorem withdraw_waiters : (state.withdraw waiter).waiters = state.waiters := by
  obtain ⟨u, mode⟩ := waiter
  cases mode with
  | shared => rfl
  | exclusive =>
    simp only [withdraw]
    split <;> rfl

theorem nodup_withdraw (h : state.sharedOwners.Nodup) :
    (state.withdraw waiter).sharedOwners.Nodup := by
  obtain ⟨u, mode⟩ := waiter
  cases mode with
  | shared => exact h.filter _
  | exclusive =>
    simp only [withdraw]
    split <;> exact h

/-- Withdrawing a request takes ownership only from its own transaction. -/
theorem owns_withdraw_iff :
    (state.withdraw waiter).Owns t mode ↔
      state.Owns t mode ∧ ¬(t = waiter.txnId ∧ mode = waiter.lockMode) := by
  obtain ⟨u, requested⟩ := waiter
  cases requested with
  | shared =>
    cases mode with
    | shared => simp [withdraw]
    | exclusive => simp [withdraw]
  | exclusive =>
    cases mode with
    | shared =>
      simp only [withdraw, owns_shared, reduceCtorEq, and_false, not_false_eq_true, and_true]
      split <;> rfl
    | exclusive =>
      by_cases hOwner : state.exclusiveOwner = some u
      · simp only [withdraw, hOwner, if_true, owns_exclusive, reduceCtorEq, Option.some.injEq,
          and_true, false_iff, not_and, not_not]
        exact Eq.symm
      · simp only [withdraw, hOwner, if_false, owns_exclusive, and_true, iff_self_and]
        rintro hOwns rfl
        exact hOwner hOwns

theorem exclusive_withdraw (h : ∀ t, state.exclusiveOwner = some t → state.sharedOwners = [])
    (hOwner : (state.withdraw waiter).exclusiveOwner = some t) :
    (state.withdraw waiter).sharedOwners = [] := by
  have hOld : state.exclusiveOwner = some t :=
    (owns_withdraw_iff.1 ((owns_exclusive (state.withdraw waiter) t).2 hOwner)).1
  refine eq_nil_iff_forall_not_mem.2 fun u hu => ?_
  have hShared : u ∈ state.sharedOwners :=
    (owns_withdraw_iff.1 ((owns_shared (state.withdraw waiter) u).2 hu)).1
  rw [h t hOld] at hShared
  cases hShared

end Withdraw

/-- The request at the head of the queue cannot be granted to the present owners' side. -/
def FrontBlocked (state : LockState) : Prop :=
  ∀ waiter rest, state.waiters = waiter :: rest →
    (∃ t, state.exclusiveOwner = some t) ∨
      waiter.lockMode = .exclusive ∧ ∃ t ∈ state.sharedOwners, t ≠ waiter.txnId

/-- How a pass over the queue can end: it granted shared requests up to the end or to a blocked
exclusive request, or its last grant was exclusive and left one owner. -/
inductive Pass (owners : List TransactionId) (queue : List Waiter) : LockState → List Waiter → Prop
  | shared (granted rest : List Waiter) (owners' : List TransactionId)
      (hQueue : queue = granted ++ rest) (hModes : ∀ w ∈ granted, w.lockMode = .shared)
      (hOwners : ∀ t, t ∈ owners' ↔ t ∈ owners ∨ ∃ w ∈ granted, w.txnId = t)
      (hNodup : owners'.Nodup)
      (hBlocked : FrontBlocked { sharedOwners := owners', waiters := rest }) :
      Pass owners queue { sharedOwners := owners', waiters := rest } granted
  | exclusive (granted rest : List Waiter) (t : TransactionId)
      (hQueue : queue = granted ++ ⟨t, .exclusive⟩ :: rest)
      (hModes : ∀ w ∈ granted, w.lockMode = .shared) (hOwn : ∀ w ∈ granted, w.txnId = t)
      (hOwners : ∀ u ∈ owners, u = t) :
      Pass owners queue { exclusiveOwner := some t, waiters := rest }
        (granted ++ [⟨t, .exclusive⟩])

variable {owners : List TransactionId} {state : LockState} {t : TransactionId}

/-- The test under which an exclusive request is granted: nobody but the requester owns the key. -/
theorem only_requester_iff (hNodup : owners.Nodup) :
    (owners = [] ∨ owners.length = 1 ∧ t ∈ owners) ↔ ∀ u ∈ owners, u = t := by
  constructor
  · rintro (rfl | ⟨hLength, hMem⟩) u hu
    · simp at hu
    · obtain ⟨v, rfl⟩ := length_eq_one_iff.1 hLength
      rw [mem_singleton.1 hu, mem_singleton.1 hMem]
  · intro hAll
    cases owners with
    | nil => exact .inl rfl
    | cons u rest =>
      obtain rfl : u = t := hAll u mem_cons_self
      cases rest with
      | nil => simp
      | cons v rest =>
        obtain rfl : v = u := hAll v (by simp)
        simp at hNodup

theorem eq_singleton_of_only (hNodup : owners.Nodup) (hOnly : ∀ u ∈ owners, u = t)
    (hMem : t ∈ owners) : owners = [t] := by
  rcases (only_requester_iff hNodup).2 hOnly with rfl | ⟨hLength, -⟩
  · cases hMem
  · obtain ⟨u, rfl⟩ := length_eq_one_iff.1 hLength
    rw [hOnly u mem_cons_self]

theorem grantQueue_pass (hNodup : owners.Nodup) (queue : List Waiter) :
    Pass owners queue (grantQueue owners queue).1 (grantQueue owners queue).2 := by
  induction queue generalizing owners with
  | nil => exact .shared [] [] _ rfl (by simp) (by simp) hNodup (by simp [FrontBlocked])
  | cons waiter queue ih =>
    obtain ⟨t, mode⟩ := waiter
    cases mode with
    | exclusive =>
      by_cases hOnly : ∀ u ∈ owners, u = t
      · have hNone : owners.filter (· ≠ t) = [] := by simpa using hOnly
        simp only [grantQueue, (only_requester_iff hNodup).2 hOnly, if_true, hNone]
        exact .exclusive [] _ _ rfl (by simp) (by simp) hOnly
      · simp only [grantQueue, mt (only_requester_iff hNodup).1 hOnly, if_false]
        refine .shared [] _ _ rfl (by simp) (by simp) hNodup ?_
        rintro w rest hFront
        obtain ⟨rfl, -⟩ := List.cons.inj hFront
        push Not at hOnly
        exact .inr ⟨rfl, hOnly⟩
    | shared =>
      simp only [grantQueue]
      have hInsert : Pass (owners.insert t) queue _ _ := ih hNodup.insert
      generalize grantQueue (owners.insert t) queue = result at hInsert ⊢
      obtain ⟨state, granted⟩ := result
      cases hInsert with
      | shared granted rest owners' hQueue hModes hOwners hNodup' hBlocked =>
        refine .shared _ _ _ (by rw [hQueue]; rfl) ?_ (fun u => ?_) hNodup' hBlocked
        · simpa using hModes
        · rw [hOwners, mem_insert_iff]
          simp only [mem_cons, exists_eq_or_imp]
          tauto
      | exclusive granted rest u hQueue hModes hOwn hOwners =>
        have hEq : t = u := hOwners t (by simp)
        subst hEq
        refine .exclusive (⟨t, .shared⟩ :: granted) _ _ (by rw [hQueue]; rfl) ?_ ?_
          fun v hv => hOwners v (by simp [hv])
        · simpa using hModes
        · simpa using hOwn

/-- A pass over the queue of a key, from any state without an exclusive owner. -/
theorem grantWaiters_pass (hNodup : state.sharedOwners.Nodup)
    (hFree : state.exclusiveOwner = none) :
    Pass state.sharedOwners state.waiters state.grantWaiters.1 state.grantWaiters.2 := by
  obtain ⟨owners, exclusive, waiters⟩ := state
  obtain rfl : exclusive = none := hFree
  by_cases hNil : waiters = []
  · subst hNil
    exact .shared [] [] _ rfl (by simp) (by simp) hNodup (by simp [FrontBlocked])
  · simpa [grantWaiters, hNil] using grantQueue_pass hNodup waiters

theorem grantWaiters_of_exclusive (h : state.exclusiveOwner = some t) :
    state.grantWaiters = (state, []) := by
  simp [grantWaiters, h]

/-- What a pass does to a key, however it ends. -/
structure Passed (state state' : LockState) (granted : List Waiter) : Prop where
  queue : state.waiters = granted ++ state'.waiters
  nodup : state'.sharedOwners.Nodup
  exclusive : ∀ t, state'.exclusiveOwner = some t → state'.sharedOwners = []
  owners : ∀ w ∈ granted, state'.Owns w.txnId w.lockMode ∨
    w.lockMode = .shared ∧ ⟨w.txnId, .exclusive⟩ ∈ granted
  onlyGranted : ∀ t mode, state'.Owns t mode → state.Owns t mode ∨ ⟨t, mode⟩ ∈ granted
  kept : ∀ t mode, state.Owns t mode → state'.Owns t mode ∨
    ⟨t, .exclusive⟩ ∈ granted ∧ state'.exclusiveOwner = some t
  free : granted ≠ [] → state.exclusiveOwner = none
  front : state'.FrontBlocked

theorem grantWaiters_passed (hNodup : state.sharedOwners.Nodup)
    (hExclusive : ∀ t, state.exclusiveOwner = some t → state.sharedOwners = []) :
    Passed state state.grantWaiters.1 state.grantWaiters.2 := by
  cases hFree : state.exclusiveOwner with
  | some t =>
    rw [grantWaiters_of_exclusive hFree]
    exact ⟨rfl, hNodup, hExclusive, by simp, fun _ _ h => .inl h, fun _ _ h => .inl h, by simp,
      fun _ _ _ => .inl ⟨t, hFree⟩⟩
  | none =>
    have hPass := grantWaiters_pass hNodup hFree
    generalize state.grantWaiters = result at hPass
    obtain ⟨state', granted⟩ := result
    cases hPass with
    | shared granted rest owners' hQueue hModes hOwners hNodup' hBlocked =>
      refine ⟨hQueue, hNodup', by simp, fun w hw => .inl ?_, fun t mode hOwns => ?_,
        fun t mode hOwns => .inl ?_, fun _ => hFree, hBlocked⟩
      · rw [hModes w hw]
        exact (hOwners w.txnId).2 (.inr ⟨w, hw, rfl⟩)
      · cases mode with
        | exclusive => cases hOwns
        | shared =>
          rcases (hOwners t).1 hOwns with hOld | ⟨w, hw, rfl⟩
          · exact .inl hOld
          · exact .inr (hModes w hw ▸ hw)
      · cases mode with
        | exclusive => cases hFree.symm.trans hOwns
        | shared => exact (hOwners t).2 (.inl hOwns)
    | exclusive granted rest u hQueue hModes hOwn hOwners =>
      refine ⟨by simpa using hQueue, nodup_nil, fun _ _ => rfl, fun w hw => ?_,
        fun t mode hOwns => .inr ?_, fun t mode hOwns => .inr ?_, fun _ => hFree,
        fun _ _ _ => .inl ⟨u, rfl⟩⟩
      · rcases mem_append.1 hw with hFirst | hLast
        · exact .inr ⟨hModes w hFirst, by simp [hOwn w hFirst]⟩
        · obtain rfl := mem_singleton.1 hLast
          exact .inl rfl
      · cases mode with
        | shared => cases hOwns
        | exclusive =>
          obtain rfl := Option.some.inj hOwns
          simp
      · cases mode with
        | exclusive => cases hFree.symm.trans hOwns
        | shared =>
          rw [hOwners t hOwns]
          exact ⟨by simp, rfl⟩

section Waiting

/-- The lock state if only the given transactions used the key. -/
def restrict (state : LockState) (keep : TransactionId → Bool) : LockState where
  sharedOwners := state.sharedOwners.filter keep
  exclusiveOwner := state.exclusiveOwner.filter keep
  waiters := state.waiters.filter fun waiter => keep waiter.txnId

/-- The request waits for the other transaction: even with everybody else gone, a pass over the
queue would not grant it. -/
def WaitsFor (state : LockState) (waiter : Waiter) (other : TransactionId) : Prop :=
  waiter ∈ state.waiters ∧ other ≠ waiter.txnId ∧
    waiter ∉ (state.restrict fun t => t = waiter.txnId ∨ t = other).grantWaiters.2

instance (state : LockState) (waiter : Waiter) (other : TransactionId) :
    Decidable (state.WaitsFor waiter other) :=
  inferInstanceAs (Decidable (_ ∧ _ ∧ _))

variable {waiter : Waiter} {other : TransactionId} {before after : List Waiter}

/-- The ways in which another transaction stands in the way of a queued request. -/
inductive Obstructs (state : LockState) (before : List Waiter) (waiter : Waiter)
    (other : TransactionId) : Prop
  | exclusiveOwner (h : state.exclusiveOwner = some other)
  | sharedOwner (hMode : waiter.lockMode = .exclusive) (h : other ∈ state.sharedOwners)
  | earlierRequest (earlier : Waiter) (hMem : earlier ∈ before) (hTxn : earlier.txnId = other)
      (hModes : earlier.lockMode = .exclusive ∨ waiter.lockMode = .exclusive)

/-- The shared requests at the head of the queue are all granted. -/
theorem grantQueue_of_shared {granted : List Waiter} (hModes : ∀ w ∈ granted, w.lockMode = .shared)
    (queue : List Waiter) :
    (grantQueue owners (granted ++ queue)).2 = granted ++
      (grantQueue (granted.foldl (fun owners w => owners.insert w.txnId) owners) queue).2 := by
  induction granted generalizing owners with
  | nil => rfl
  | cons w granted ih =>
    have hShared : w.lockMode = .shared := hModes w mem_cons_self
    simp only [cons_append, grantQueue, hShared, foldl_cons]
    rw [ih fun v hv => hModes v (mem_cons_of_mem _ hv)]

/-- Requests that a pass grants: nothing but shared requests ahead, and for an exclusive one
nothing ahead and no other owner. -/
theorem mem_grantWaiters (ahead after : List Waiter) (hFree : state.exclusiveOwner = none)
    (hNodup : state.sharedOwners.Nodup) (hQueue : state.waiters = ahead ++ waiter :: after)
    (hModes : ∀ w ∈ ahead, w.lockMode = .shared)
    (hExclusive : waiter.lockMode = .exclusive →
      ahead = [] ∧ ∀ u ∈ state.sharedOwners, u = waiter.txnId) :
    waiter ∈ state.grantWaiters.2 := by
  have hPass : state.grantWaiters = grantQueue state.sharedOwners (ahead ++ waiter :: after) := by
    simp [grantWaiters, hFree, hQueue]
  rw [hPass, grantQueue_of_shared hModes]
  refine mem_append_right _ ?_
  cases hMode : waiter.lockMode with
  | shared => simp [grantQueue, hMode]
  | exclusive =>
    obtain ⟨rfl, hOnly⟩ := hExclusive hMode
    simp [grantQueue, hMode, (only_requester_iff hNodup).2 hOnly]

/-- Every wait has a cause, when the transaction has no other request in the queue. -/
theorem WaitsFor.obstructs (hWaits : state.WaitsFor waiter other)
    (hQueue : state.waiters = before ++ waiter :: after)
    (hAlone : ∀ w ∈ before, w.txnId ≠ waiter.txnId)
    (hOwner : state.exclusiveOwner ≠ some waiter.txnId) (hNodup : state.sharedOwners.Nodup) :
    Obstructs state before waiter other := by
  obtain ⟨-, -, hBlocked⟩ := hWaits
  by_contra hNone
  have hEarlier : ∀ w ∈ before, w.txnId = other →
      w.lockMode = .shared ∧ waiter.lockMode = .shared := by
    intro w hw hTxn
    by_contra hModes
    refine hNone (.earlierRequest w hw hTxn ?_)
    cases hFirst : w.lockMode with
    | exclusive => exact .inl rfl
    | shared =>
      cases hSecond : waiter.lockMode with
      | exclusive => exact .inr rfl
      | shared => exact absurd ⟨hFirst, hSecond⟩ hModes
  have hAhead : ∀ w ∈ before.filter (fun w => decide (w.txnId = waiter.txnId ∨ w.txnId = other)),
      w ∈ before ∧ w.txnId = other := by
    intro w hw
    obtain ⟨hMem, hKeep⟩ := mem_filter.1 hw
    exact ⟨hMem, (of_decide_eq_true hKeep).resolve_left (hAlone w hMem)⟩
  refine hBlocked (mem_grantWaiters
    (before.filter fun w => decide (w.txnId = waiter.txnId ∨ w.txnId = other))
    (after.filter fun w => decide (w.txnId = waiter.txnId ∨ w.txnId = other)) ?_
    (hNodup.filter _) ?_ (fun w hw => ?_) fun hMode => ⟨?_, ?_⟩)
  · cases hExclusive : state.exclusiveOwner with
    | none => simp [restrict, hExclusive]
    | some t =>
      have hThird : ¬(t = waiter.txnId ∨ t = other) := by
        rintro (rfl | rfl)
        · exact hOwner hExclusive
        · exact hNone (.exclusiveOwner hExclusive)
      simpa [restrict, hExclusive, Option.filter] using hThird
  · rw [restrict, hQueue, filter_append, filter_cons_of_pos (by simp)]
  · exact (hEarlier w (hAhead w hw).1 (hAhead w hw).2).1
  · refine eq_nil_iff_forall_not_mem.2 fun w hw => ?_
    have hShared := (hEarlier w (hAhead w hw).1 (hAhead w hw).2).2
    rw [hMode] at hShared
    cases hShared
  · intro u hu
    obtain ⟨hMem, hKeep⟩ := mem_filter.1 hu
    rcases of_decide_eq_true hKeep with hSelf | rfl
    · exact hSelf
    · exact absurd (.sharedOwner hMode hMem) hNone

/-- A beginning of the queue with the request in it holds everything ahead of the request. -/
theorem mem_of_append_eq {granted rest : List Waiter}
    (hQueue : granted ++ rest = before ++ waiter :: after) (hGranted : waiter ∈ granted)
    (hAlone : waiter ∉ before) : ∀ w ∈ before, w ∈ granted := by
  intro w hw
  rcases append_eq_append_iff.1 hQueue with ⟨tail, rfl, -⟩ | ⟨tail, rfl, -⟩
  · exact absurd (mem_append_left _ hGranted) hAlone
  · exact mem_append_left _ hw

/-- What a grant tells of the state before: no exclusive owner, no other owner of any kind for an
exclusive request, and nothing incompatible ahead in the queue. -/
theorem of_mem_grantWaiters (hNodup : state.sharedOwners.Nodup)
    (hQueue : state.waiters = before ++ waiter :: after) (hAlone : waiter ∉ before)
    (hGranted : waiter ∈ state.grantWaiters.2) :
    state.exclusiveOwner = none ∧
      (waiter.lockMode = .exclusive → ∀ u ∈ state.sharedOwners, u = waiter.txnId) ∧
      ∀ w ∈ before, w.txnId = waiter.txnId ∨ w.lockMode = .shared ∧ waiter.lockMode = .shared := by
  have hFree : state.exclusiveOwner = none := by
    cases hExclusive : state.exclusiveOwner with
    | none => rfl
    | some t =>
      rw [grantWaiters_of_exclusive hExclusive] at hGranted
      cases hGranted
  refine ⟨hFree, ?_⟩
  have hPass := grantWaiters_pass hNodup hFree
  generalize state.grantWaiters = result at hPass hGranted
  obtain ⟨state', granted⟩ := result
  cases hPass with
  | shared granted rest owners' hStart hModes =>
    have hShared : waiter.lockMode = .shared := hModes waiter hGranted
    refine ⟨fun hMode => ?_, fun w hw => .inr ⟨hModes w ?_, hShared⟩⟩
    · rw [hShared] at hMode
      cases hMode
    · exact mem_of_append_eq (hStart.symm.trans hQueue) hGranted hAlone w hw
  | exclusive granted rest t hStart hModes hOwn hOwners =>
    have hTxn : ∀ w ∈ granted ++ [⟨t, .exclusive⟩], w.txnId = t := by
      intro w hw
      rcases mem_append.1 hw with hFirst | hLast
      · exact hOwn w hFirst
      · rw [mem_singleton.1 hLast]
    have hSelf : waiter.txnId = t := hTxn waiter hGranted
    refine ⟨fun _ u hu => (hOwners u hu).trans hSelf.symm, fun w hw => .inl ?_⟩
    have hWhole : granted ++ [⟨t, .exclusive⟩] ++ rest = before ++ waiter :: after := by
      rw [append_assoc]
      exact hStart.symm.trans hQueue
    rw [hSelf]
    exact hTxn w (mem_of_append_eq hWhole hGranted hAlone w hw)

/-- Each of these is a wait. -/
theorem Obstructs.waitsFor (hObstructs : Obstructs state before waiter other)
    (hQueue : state.waiters = before ++ waiter :: after)
    (hAlone : ∀ w ∈ before, w.txnId ≠ waiter.txnId) (hNe : other ≠ waiter.txnId)
    (hNodup : state.sharedOwners.Nodup) : state.WaitsFor waiter other := by
  refine ⟨by simp [hQueue], hNe, fun hGranted => ?_⟩
  have hWaiters : (state.restrict fun t => t = waiter.txnId ∨ t = other).waiters =
      before.filter (fun w => decide (w.txnId = waiter.txnId ∨ w.txnId = other)) ++ waiter ::
        after.filter (fun w => decide (w.txnId = waiter.txnId ∨ w.txnId = other)) := by
    rw [restrict, hQueue, filter_append, filter_cons_of_pos (by simp)]
  obtain ⟨hFree, hOwners, hAhead⟩ := of_mem_grantWaiters (hNodup.filter _) hWaiters
    (fun hMem => hAlone waiter (mem_of_mem_filter hMem) rfl) hGranted
  cases hObstructs with
  | exclusiveOwner h => simp [restrict, h, Option.filter] at hFree
  | sharedOwner hMode h => exact hNe (hOwners hMode other (mem_filter.2 ⟨h, by simp⟩))
  | earlierRequest earlier hMem hTxn hModes =>
    rcases hAhead earlier (mem_filter.2 ⟨hMem, by simp [hTxn]⟩) with hSelf | ⟨hFirst, hSecond⟩
    · exact hAlone earlier hMem hSelf
    · rw [hFirst, hSecond] at hModes
      simp at hModes

end Waiting

section Arrival

variable {waiter : Waiter} {other : TransactionId}

/-- Nobody is in the way of a request that arrives. -/
def Available (state : LockState) (waiter : Waiter) : Prop :=
  state.exclusiveOwner = none ∧ state.waiters = [] ∧
    (waiter.lockMode = .exclusive → ∀ u ∈ state.sharedOwners, u = waiter.txnId)

/-- The lock state with the request granted. -/
def give (state : LockState) (waiter : Waiter) : LockState :=
  match waiter.lockMode with
  | .shared => { state with sharedOwners := state.sharedOwners.insert waiter.txnId }
  | .exclusive =>
    { state with
      sharedOwners := state.sharedOwners.filter (· ≠ waiter.txnId)
      exclusiveOwner := some waiter.txnId }

/-- The transactions a request has to wait for. -/
def blockers (state : LockState) (waiter : Waiter) : List TransactionId :=
  match waiter.lockMode with
  | .shared => state.exclusiveOwner.toList ++
      (state.waiters.filter fun waiter => waiter.lockMode = .exclusive).map Waiter.txnId
  | .exclusive => state.exclusiveOwner.toList ++
      state.sharedOwners.filter (· ≠ waiter.txnId) ++ state.waiters.map Waiter.txnId

@[simp] theorem give_waiters : (state.give waiter).waiters = state.waiters := by
  obtain ⟨t, mode⟩ := waiter
  cases mode <;> rfl

theorem nodup_give (hNodup : state.sharedOwners.Nodup) :
    (state.give waiter).sharedOwners.Nodup := by
  obtain ⟨t, mode⟩ := waiter
  cases mode with
  | shared => exact hNodup.insert
  | exclusive => exact hNodup.filter _

theorem Available.sharedOwners_give (h : state.Available waiter)
    (hOwner : (state.give waiter).exclusiveOwner = some t) :
    (state.give waiter).sharedOwners = [] := by
  obtain ⟨u, mode⟩ := waiter
  cases mode with
  | shared => cases h.1.symm.trans hOwner
  | exclusive => simpa [give] using h.2.2 rfl

theorem Available.owns_give_iff (h : state.Available waiter) {mode : LockMode} :
    (state.give waiter).Owns t mode ↔
      if t = waiter.txnId then mode = waiter.lockMode else state.Owns t mode := by
  obtain ⟨hFree, -, hOnly⟩ := h
  obtain ⟨u, requested⟩ := waiter
  cases requested with
  | shared => cases mode <;> by_cases hEq : t = u <;> simp [give, hEq, hFree]
  | exclusive =>
    cases mode with
    | shared =>
      have hNone : t ≠ u → t ∉ state.sharedOwners := fun hNe hMem => hNe (hOnly rfl t hMem)
      by_cases hEq : t = u
      · simp [give, hEq]
      · simp [give, hEq, hNone hEq]
    | exclusive => by_cases hEq : t = u <;> simp [give, hEq, hFree, eq_comm]

/-- A request that has to wait finds an owner in its way, or a queue. -/
theorem frontBlocked_of_busy (hFront : state.FrontBlocked) (hBusy : ¬state.Available waiter) :
    FrontBlocked { state with waiters := state.waiters ++ [waiter] } := by
  intro w rest hQueue
  change state.waiters ++ [waiter] = w :: rest at hQueue
  cases hOld : state.waiters with
  | cons first tail =>
    rw [hOld] at hQueue
    obtain ⟨rfl, -⟩ := List.cons.inj hQueue
    exact hFront _ tail hOld
  | nil =>
    rw [hOld] at hQueue
    obtain ⟨rfl, -⟩ := List.cons.inj hQueue
    by_contra hNone
    push Not at hNone
    exact hBusy ⟨Option.eq_none_iff_forall_ne_some.2 hNone.1, hOld, hNone.2⟩

/-- Also an earlier request of the same transaction is waited for. -/
theorem mem_blockers_of_mem {earlier : Waiter} (hMem : earlier ∈ state.waiters)
    (hModes : earlier.lockMode = .exclusive ∨ waiter.lockMode = .exclusive) :
    earlier.txnId ∈ state.blockers waiter := by
  obtain ⟨t, mode⟩ := waiter
  cases mode with
  | exclusive => exact mem_append_right _ (mem_map.2 ⟨earlier, hMem, rfl⟩)
  | shared =>
    have hMode : earlier.lockMode = .exclusive := hModes.resolve_right LockMode.noConfusion
    exact mem_append_right _ (mem_map.2 ⟨earlier, mem_filter.2 ⟨hMem, by simpa using hMode⟩, rfl⟩)

theorem Obstructs.mem_blockers (h : state.Obstructs state.waiters waiter other)
    (hNe : other ≠ waiter.txnId) : other ∈ state.blockers waiter := by
  obtain ⟨t, mode⟩ := waiter
  cases h with
  | exclusiveOwner hOwner => cases mode <;> simp [blockers, hOwner]
  | sharedOwner hMode hOwner =>
    obtain rfl : mode = .exclusive := hMode
    simp_all [blockers]
  | earlierRequest earlier hMem hTxn hModes =>
    subst hTxn
    exact mem_blockers_of_mem hMem hModes

end Arrival

end LockState

end Stoneleaf
