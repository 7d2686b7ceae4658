import Stoneleaf.Transaction.LockManager

/-!
One key: the owners in its lock state against the locks the transactions hold of it. Ownership is
stored twice, and while a thread is still recording the grants of a pass the lock state is ahead.
-/

namespace Stoneleaf

open List LockState Waiter

/-- What the unrecorded grants of a key tell of its owners. A cancelled request of the same
transaction may have taken back what a later one was granted, hence the condition on `active`. -/
inductive GrantShape (active : TransactionId → Prop) (state : LockState) : List Waiter → Prop
  | nothing : GrantShape active state []
  | shared (granted : List Waiter) (hFree : state.exclusiveOwner = none)
      (hGranted : ∀ w ∈ granted, w.lockMode = .shared ∧
        (active w.txnId → w.txnId ∈ state.sharedOwners)) : GrantShape active state granted
  | exclusive (granted : List Waiter) (t : TransactionId) (hOwner : state.exclusiveOwner = some t)
      (hGranted : ∀ w ∈ granted, w = ⟨t, .shared⟩) :
      GrantShape active state (granted ++ [⟨t, .exclusive⟩])

/-- One key: its lock state and unrecorded grants against the locks the transactions claim. A
transaction with unrecorded grants is between the two. -/
structure KeyAgrees (claims : TransactionId → LockMode → Prop) (active used : TransactionId → Prop)
    (state : LockState) (unrecorded : List Waiter) : Prop where
  nodup : state.sharedOwners.Nodup
  exclusive : ∀ t, state.exclusiveOwner = some t → state.sharedOwners = []
  owned : ∀ t m, claims t m → t ∉ unrecorded.map Waiter.txnId → state.Owns t m
  claimed : ∀ t m, state.Owns t m → t ∉ unrecorded.map Waiter.txnId → claims t m
  pending : ∀ t, claims t .shared → t ∈ (state.waiters ++ unrecorded).map Waiter.txnId → active t
  unrecorded_shared : ∀ t m, claims t m → t ∈ unrecorded.map Waiter.txnId → m = .shared
  shape : GrantShape active state unrecorded
  used : ∀ w ∈ state.waiters ++ unrecorded, used w.txnId

variable {claims claims' : TransactionId → LockMode → Prop}
  {active active' used used' : TransactionId → Prop} {state : LockState} {t : TransactionId}
  {waiter : Waiter} {rest unrecorded : List Waiter}

section

variable (h : GrantShape active state (waiter :: rest))
include h

/-- The first of several grants: one of a shared pass, or of a pass for one transaction, which ends
with its exclusive request. -/
theorem GrantShape.first : GrantShape active state rest ∧
    (state.exclusiveOwner = none ∧ waiter.lockMode = .shared ∧
      (active waiter.txnId → waiter.txnId ∈ state.sharedOwners) ∨
    ∃ t, state.exclusiveOwner = some t ∧ (waiter = ⟨t, .exclusive⟩ ∧ rest = [] ∨
      waiter = ⟨t, .shared⟩ ∧ t ∈ rest.map txnId)) := by
  generalize hAll : waiter :: rest = granted at h
  cases h with
  | nothing => cases hAll
  | shared _ hFree hGranted =>
    subst hAll
    exact ⟨.shared rest hFree fun w hw => hGranted w (mem_cons_of_mem _ hw),
      .inl ⟨hFree, hGranted waiter mem_cons_self⟩⟩
  | exclusive granted t hOwner hGranted =>
    cases granted with
    | nil =>
      obtain ⟨rfl, rfl⟩ := List.cons.inj hAll
      exact ⟨.nothing, .inr ⟨t, hOwner, .inl ⟨rfl, rfl⟩⟩⟩
    | cons first granted =>
      obtain ⟨rfl, rfl⟩ := List.cons.inj hAll
      exact ⟨.exclusive granted t hOwner fun w hw => hGranted w (mem_cons_of_mem _ hw),
        .inr ⟨t, hOwner, .inr ⟨hGranted _ mem_cons_self, by simp⟩⟩⟩

/-- An exclusive grant is the last of its pass. -/
theorem GrantShape.of_exclusive (hMode : waiter.lockMode = .exclusive) :
    rest = [] ∧ ∃ t, state.exclusiveOwner = some t := by
  obtain ⟨-, ⟨-, hShared, -⟩ | ⟨t, hOwner, ⟨-, hLast⟩ | ⟨rfl, -⟩⟩⟩ := h.first
  · rw [hShared] at hMode
    cases hMode
  · exact ⟨hLast, t, hOwner⟩
  · cases hMode

/-- Taking back the first grant leaves the shape of the others. -/
theorem GrantShape.cancel (hInactive : ¬active waiter.txnId) :
    GrantShape active (state.withdraw waiter) rest := by
  obtain ⟨hRest, hFirst⟩ := h.first
  cases hRest with
  | nothing => exact .nothing
  | shared _ hFree hGranted =>
    obtain ⟨u, mode⟩ := waiter
    obtain ⟨-, rfl, -⟩ | ⟨t, hOwner, -⟩ := hFirst
    · refine .shared rest hFree fun w hw => ?_
      obtain ⟨hMode, hOwner⟩ := hGranted w hw
      refine ⟨hMode, fun hActive => mem_filter.2 ⟨hOwner hActive, ?_⟩⟩
      have hNe : w.txnId ≠ u := fun hEq => hInactive (hEq ▸ hActive)
      simpa using hNe
    · cases hFree.symm.trans hOwner
  | exclusive granted t hOwner hGranted =>
    obtain ⟨hFree, -⟩ | ⟨u, -, ⟨-, hNil⟩ | ⟨rfl, -⟩⟩ := hFirst
    · cases hFree.symm.trans hOwner
    · simp at hNil
    · exact .exclusive granted t hOwner hGranted

/-- The owner an unrecorded request has been made. -/
theorem GrantShape.owns (hActive : active waiter.txnId)
    (hLast : waiter.txnId ∉ rest.map txnId) :
    state.Owns waiter.txnId waiter.lockMode := by
  obtain ⟨-, ⟨-, hMode, hOwner⟩ | ⟨t, hOwner, ⟨rfl, -⟩ | ⟨rfl, hMem⟩⟩⟩ := h.first
  · rw [hMode]
    exact hOwner hActive
  · exact hOwner
  · exact absurd hMem hLast

end

/-- The exclusive owner of a key with unrecorded grants is the one of the last of them. -/
theorem GrantShape.mem_of_exclusiveOwner (h : GrantShape active state unrecorded)
    (hSome : unrecorded ≠ []) (hOwner : state.exclusiveOwner = some t) :
    ⟨t, .exclusive⟩ ∈ unrecorded := by
  cases h with
  | nothing => exact absurd rfl hSome
  | shared _ hFree _ =>
    rw [hFree] at hOwner
    cases hOwner
  | exclusive granted u hOwner' hGranted =>
    obtain rfl : u = t := Option.some.inj (hOwner'.symm.trans hOwner)
    simp

namespace KeyAgrees

/-- The transactions change, but not what they claim of this key. -/
theorem congr (h : KeyAgrees claims active used state unrecorded)
    (hClaims : ∀ t m, claims' t m ↔ claims t m)
    (hPending : ∀ t, claims t .shared → t ∈ (state.waiters ++ unrecorded).map txnId →
      active t → active' t)
    (hActive : ∀ w ∈ unrecorded, active' w.txnId → active w.txnId)
    (hUsed : ∀ t, used t → used' t) : KeyAgrees claims' active' used' state unrecorded where
  nodup := h.nodup
  exclusive := h.exclusive
  owned := fun t m hClaim => h.owned t m ((hClaims t m).1 hClaim)
  claimed := fun t m hOwns hOut => (hClaims t m).2 (h.claimed t m hOwns hOut)
  pending := fun t hClaim hMem => by
    have hOld := (hClaims t .shared).1 hClaim
    exact hPending t hOld hMem (h.pending t hOld hMem)
  unrecorded_shared := fun t m hClaim => h.unrecorded_shared t m ((hClaims t m).1 hClaim)
  shape := by
    cases h.shape with
    | nothing => exact .nothing
    | shared _ hFree hGranted =>
      exact .shared _ hFree fun w hw =>
        ⟨(hGranted w hw).1, fun hNow => (hGranted w hw).2 (hActive w hw hNow)⟩
    | exclusive granted t hOwner hGranted => exact .exclusive granted t hOwner hGranted
  used := fun w hw => hUsed _ (h.used w hw)

/-- A pass over the queue makes owners of the requests it grants. -/
theorem pass (h : KeyAgrees claims active used state []) :
    KeyAgrees claims active used state.grantWaiters.1 state.grantWaiters.2 := by
  have hPassed := grantWaiters_passed h.nodup h.exclusive
  have hOwned : ∀ t m, claims t m → state.Owns t m := fun t m hClaim => h.owned t m hClaim (by simp)
  have hMem : ∀ w, w ∈ state.grantWaiters.1.waiters ++ state.grantWaiters.2 →
      w ∈ state.waiters ++ [] := by
    intro w hw
    rw [hPassed.queue]
    simpa [or_comm] using hw
  refine ⟨hPassed.nodup, hPassed.exclusive, fun t m hClaim hOut => ?_, fun t m hOwns hOut => ?_,
    fun t hClaim hPending => ?_, fun t m hClaim hGranted => ?_, ?_,
      fun w hw => h.used w (hMem w hw)⟩
  · refine (hPassed.kept t m (hOwned t m hClaim)).resolve_right fun hNew => hOut ?_
    exact mem_map.2 ⟨_, hNew.1, rfl⟩
  · refine h.claimed t m ((hPassed.onlyGranted t m hOwns).resolve_right fun hNew => hOut ?_)
      (by simp)
    exact mem_map.2 ⟨_, hNew, rfl⟩
  · obtain ⟨w, hw, rfl⟩ := mem_map.1 hPending
    exact h.pending _ hClaim (mem_map.2 ⟨w, hMem w hw, rfl⟩)
  · cases m with
    | shared => rfl
    | exclusive =>
      have hFree := hPassed.free fun hNil => by simp [hNil] at hGranted
      cases hFree.symm.trans (hOwned t _ hClaim)
  · cases hFree : state.exclusiveOwner with
    | some u =>
      rw [grantWaiters_of_exclusive hFree]
      exact .nothing
    | none =>
      have hPass := grantWaiters_pass h.nodup hFree
      generalize state.grantWaiters = result at hPass
      obtain ⟨state', granted⟩ := result
      cases hPass with
      | shared granted rest owners hQueue hModes hOwners =>
        exact .shared granted rfl fun w hw =>
          ⟨hModes w hw, fun _ => (hOwners _).2 (.inr ⟨w, hw, rfl⟩)⟩
      | exclusive granted rest u hQueue hModes hOwn =>
        refine .exclusive granted u rfl fun w hw => ?_
        obtain ⟨t, mode⟩ := w
        obtain rfl : mode = .shared := hModes _ hw
        obtain rfl : t = u := hOwn _ hw
        rfl

section

variable (h : KeyAgrees claims active used state (waiter :: rest))
include h

/-- The owner with the first unrecorded grant owns the key in the mode it was granted. -/
theorem mode_eq_of_owns {m : LockMode} (hOwns : state.Owns waiter.txnId m)
    (hLast : waiter.txnId ∉ rest.map txnId) :
    m = waiter.lockMode := by
  cases hMode : waiter.lockMode with
  | shared =>
    cases m with
    | shared => rfl
    | exclusive =>
      have hMem := h.shape.mem_of_exclusiveOwner (by simp) hOwns
      rcases mem_cons.1 hMem with hEq | hRest
      · rw [← hEq] at hMode
        cases hMode
      · exact absurd (mem_map.2 ⟨_, hRest, rfl⟩) hLast
  | exclusive =>
    cases m with
    | exclusive => rfl
    | shared =>
      obtain ⟨-, u, hOwner⟩ := h.shape.of_exclusive hMode
      rw [owns_shared, h.exclusive u hOwner] at hOwns
      cases hOwns

/-- The next grant of the pass is recorded in its transaction. -/
theorem record (hActive : active waiter.txnId)
    (hOthers : ∀ u, u ≠ waiter.txnId → ∀ m, claims' u m ↔ claims u m)
    (hSelf : ∀ m, claims' waiter.txnId m ↔ m = waiter.lockMode) :
    KeyAgrees claims' active used state rest := by
  have hMem : ∀ u, u ∈ rest.map txnId → u ∈ (waiter :: rest).map txnId :=
    fun u hu => mem_cons_of_mem _ hu
  have hOut : ∀ u, u ≠ waiter.txnId → u ∉ rest.map txnId →
      u ∉ (waiter :: rest).map txnId :=
    fun u => not_mem_cons_of_ne_of_not_mem
  refine ⟨h.nodup, h.exclusive, fun u m hClaim hu => ?_, fun u m hOwns hu => ?_,
    fun u hClaim hPending => ?_, fun u m hClaim hu => ?_, h.shape.first.1, fun w hw => ?_⟩
  · by_cases hEq : u = waiter.txnId
    · subst hEq
      rw [(hSelf m).1 hClaim]
      exact h.shape.owns hActive hu
    · exact h.owned u m ((hOthers u hEq m).1 hClaim) (hOut u hEq hu)
  · by_cases hEq : u = waiter.txnId
    · subst hEq
      exact (hSelf m).2 (h.mode_eq_of_owns hOwns hu)
    · exact (hOthers u hEq m).2 (h.claimed u m hOwns (hOut u hEq hu))
  · by_cases hEq : u = waiter.txnId
    · rw [hEq]
      exact hActive
    · refine h.pending u ((hOthers u hEq .shared).1 hClaim) ?_
      rw [map_append, mem_append] at hPending ⊢
      exact hPending.imp_right (hMem u)
  · by_cases hEq : u = waiter.txnId
    · subst hEq
      rw [(hSelf m).1 hClaim]
      cases hMode : waiter.lockMode with
      | shared => rfl
      | exclusive =>
        rw [(h.shape.of_exclusive hMode).1] at hu
        cases hu
    · exact h.unrecorded_shared u m ((hOthers u hEq m).1 hClaim) (hMem u hu)
  · refine h.used w ?_
    rw [mem_append] at hw ⊢
    exact hw.imp_right (mem_cons_of_mem _)

/-- The next grant of the pass is cancelled. Its transaction claims nothing of the key, since it
could not have ended with a request for a key it already held. -/
theorem cancel (hInactive : ¬active waiter.txnId) :
    KeyAgrees claims active used (state.withdraw waiter) rest := by
  have hNoClaim : ∀ m, ¬claims waiter.txnId m := by
    intro m hClaim
    have hShared := h.unrecorded_shared _ m hClaim (by simp)
    rw [hShared] at hClaim
    exact hInactive (h.pending _ hClaim (by simp))
  have hOut : ∀ u, u ≠ waiter.txnId → u ∉ rest.map txnId →
      u ∉ (waiter :: rest).map txnId :=
    fun u => not_mem_cons_of_ne_of_not_mem
  refine ⟨nodup_withdraw h.nodup, fun _ => exclusive_withdraw h.exclusive,
    fun u m hClaim hu => ?_, fun u m hOwns hu => ?_, fun u hClaim hMem => ?_,
    fun u m hClaim hu => ?_, h.shape.cancel hInactive, fun w hw => ?_⟩
  · have hNe : u ≠ waiter.txnId := by
      rintro rfl
      exact hNoClaim m hClaim
    exact owns_withdraw_iff.2
      ⟨h.owned u m hClaim (hOut u hNe hu), fun hBoth => hNe hBoth.1⟩
  · obtain ⟨hOld, hOther⟩ := owns_withdraw_iff.1 hOwns
    by_cases hEq : u = waiter.txnId
    · subst hEq
      exact absurd ⟨rfl, h.mode_eq_of_owns hOld hu⟩ hOther
    · exact h.claimed u m hOld (hOut u hEq hu)
  · refine h.pending u hClaim ?_
    rw [withdraw_waiters, map_append, mem_append] at hMem
    rw [map_append, mem_append]
    exact hMem.imp_right (mem_cons_of_mem _)
  · exact h.unrecorded_shared u m hClaim (mem_cons_of_mem _ hu)
  · refine h.used w ?_
    rw [withdraw_waiters, mem_append] at hw
    rw [mem_append]
    exact hw.imp_right (mem_cons_of_mem _)

end

/-- Without unrecorded grants the two records of ownership are the same. -/
theorem owns_iff (h : KeyAgrees claims active used state []) {m : LockMode} :
    state.Owns t m ↔ claims t m :=
  ⟨fun hOwns => h.claimed t m hOwns (by simp), fun hClaim => h.owned t m hClaim (by simp)⟩

/-- Who is not the exclusive owner claims at most a shared lock. -/
theorem shared_of_claims (h : KeyAgrees claims active used state [])
    (hNot : state.exclusiveOwner ≠ some t) (m : LockMode) (hClaim : claims t m) : m = .shared := by
  cases m with
  | shared => rfl
  | exclusive => exact absurd (h.owns_iff.2 hClaim) hNot

theorem of_owns_iff (hNodup : state.sharedOwners.Nodup)
    (hExclusive : ∀ t, state.exclusiveOwner = some t → state.sharedOwners = [])
    (hOwns : ∀ t m, state.Owns t m ↔ claims t m)
    (hPending : ∀ t, claims t .shared → t ∈ state.waiters.map txnId → active t)
    (hUsed : ∀ w ∈ state.waiters, used w.txnId) : KeyAgrees claims active used state [] where
  nodup := hNodup
  exclusive := hExclusive
  owned := fun t m hClaim _ => (hOwns t m).2 hClaim
  claimed := fun t m hOwns' _ => (hOwns t m).1 hOwns'
  pending := fun t hClaim hMem => hPending t hClaim (by simpa using hMem)
  unrecorded_shared := fun _ _ _ hMem => by cases hMem
  shape := .nothing
  used := fun w hw => hUsed w (by simpa using hw)

theorem empty (h : ∀ t m, ¬claims t m) : KeyAgrees claims active used {} [] := by
  refine of_owns_iff nodup_nil (fun _ hOwner => (by cases hOwner)) (fun t m => ?_)
    (fun t hClaim => absurd hClaim (h t _)) fun _ hMem => (by cases hMem)
  cases m with
  | shared => simp [h]
  | exclusive => simp [h]

variable (h : KeyAgrees claims active used state [])
include h

/-- A lock given at once. -/
theorem give (hFree : state.Available waiter)
    (hOthers : ∀ u, u ≠ waiter.txnId → ∀ m, claims' u m ↔ claims u m)
    (hSelf : ∀ m, claims' waiter.txnId m ↔ m = waiter.lockMode) :
    KeyAgrees claims' active used (state.give waiter) [] := by
  refine of_owns_iff (nodup_give h.nodup) (fun _ => hFree.sharedOwners_give)
    (fun u m => ?_) (by simp [hFree.2.1]) (by simp [hFree.2.1])
  rw [hFree.owns_give_iff]
  split
  next hEq =>
    subst hEq
    exact (hSelf m).symm
  next hEq => rw [hOthers u hEq, h.owns_iff]

/-- A request of an active transaction joins the queue. -/
theorem await (hActive : active waiter.txnId) (hUsed : used waiter.txnId) :
    KeyAgrees claims active used { state with waiters := state.waiters ++ [waiter] } [] := by
  refine of_owns_iff h.nodup h.exclusive (fun u m => ?_) (fun u hClaim hMem => ?_) fun w hw => ?_
  · rw [← h.owns_iff]
    cases m <;> rfl
  · rw [map_append, mem_append] at hMem
    rcases hMem with hOld | hNew
    · exact h.pending u hClaim (by simpa using hOld)
    · obtain rfl : u = waiter.txnId := by simpa using hNew
      exact hActive
  · rcases mem_append.1 hw with hOld | hNew
    · exact h.used w (by simpa using hOld)
    · rw [mem_singleton.1 hNew]
      exact hUsed

/-- The state of the key after an owner has been taken out. -/
theorem release {m : LockMode} (hOwns : state.Owns t m)
    (hOthers : ∀ u, u ≠ t → ∀ m, claims' u m ↔ claims u m) (hSelf : ∀ m, ¬claims' t m) :
    KeyAgrees claims' active used (state.withdraw ⟨t, m⟩) [] := by
  have hMode : ∀ m', state.Owns t m' → m' = m := by
    intro m' hOther
    cases m with
    | shared =>
      cases m' with
      | shared => rfl
      | exclusive =>
        rw [owns_shared, h.exclusive t hOther] at hOwns
        cases hOwns
    | exclusive =>
      cases m' with
      | exclusive => rfl
      | shared =>
        rw [owns_shared, h.exclusive t hOwns] at hOther
        cases hOther
  refine of_owns_iff (nodup_withdraw h.nodup)
    (fun _ => exclusive_withdraw h.exclusive) (fun u m' => ?_) (fun u hClaim hMem => ?_)
    fun w hw => ?_
  · rw [owns_withdraw_iff]
    by_cases hEq : u = t
    · subst hEq
      simp only [hSelf, true_and, iff_false, not_and, not_not]
      exact hMode m'
    · rw [hOthers u hEq, ← h.owns_iff]
      simp [hEq]
  · rw [withdraw_waiters] at hMem
    by_cases hEq : u = t
    · exact absurd (hEq ▸ hClaim) (hSelf _)
    · exact h.pending u ((hOthers u hEq _).1 hClaim) (by simpa using hMem)
  · rw [withdraw_waiters] at hw
    exact h.used w (by simpa using hw)

end KeyAgrees

end Stoneleaf
