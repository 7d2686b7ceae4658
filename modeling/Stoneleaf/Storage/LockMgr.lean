import Mathlib.Data.Fintype.Pi
import Mathlib.Data.List.Induction
import Mathlib.Data.List.Infix

/-!
# The file lock

`LockMgr` moves a process between the lock states with advisory locks on three bytes of the
database file. One call takes several `fcntl` calls, and other processes may come between them.
Each process is modelled up to its next `fcntl` call, so that a run interleaves these.
-/

namespace Stoneleaf.LockMgr

open Function List

inductive Lock where
  | nolock | shared | reserved | exclusive

inductive PrimitiveLockType where
  | read | write
  deriving DecidableEq

inductive LockMgrStatus where
  | success | busy
  deriving DecidableEq

inductive LockState where
  | nolock | shared | reserved | pending | exclusive
  deriving DecidableEq

inductive LockByte where
  | pending | reserved | shared
  deriving DecidableEq

instance : Fintype LockByte :=
  ⟨{.pending, .reserved, .shared}, fun byte => by cases byte <;> decide⟩

/-- A computation of a process up to its next `fcntl(F_SETLK)`; the type `none` is `F_UNLCK`. -/
inductive Calls (α : Type) where
  | done (value : α)
  | setLock (type : Option PrimitiveLockType) (byte : LockByte) (next : LockMgrStatus → Calls α)
  | abort

namespace Calls

def bind {α β : Type} : Calls α → (α → Calls β) → Calls β
  | done value, f => f value
  | setLock type byte next, f => setLock type byte fun status => (next status).bind f
  | abort, _ => abort

instance : Monad Calls where
  pure := done
  bind := bind

end Calls

/-- A function of `LockMgr`, which reads and writes `lock_state`. -/
abbrev LockOp (α : Type) := StateT LockState Calls α

section Functions

def abort {α : Type} : LockOp α :=
  StateT.lift .abort

def acquirePrimitiveLock (type : PrimitiveLockType) (byte : LockByte) : LockOp LockMgrStatus :=
  StateT.lift (.setLock (some type) byte .done)

def releasePrimitiveLock (byte : LockByte) : LockOp LockMgrStatus :=
  StateT.lift (.setLock none byte .done)

def acquireShared : LockOp LockMgrStatus := do
  if (← get) = .nolock then
    let pendingByteRead ← acquirePrimitiveLock .read .pending
    if pendingByteRead ≠ .success then return .busy
    let sharedByteRead ← acquirePrimitiveLock .read .shared
    if (← releasePrimitiveLock .pending) ≠ .success then abort
    if sharedByteRead ≠ .success then return .busy
    set LockState.shared
  return .success

def acquireReserved : LockOp LockMgrStatus := do
  let lockState ← get
  if lockState ≠ .nolock ∧ lockState ≠ .shared then return .success
  if lockState ≠ .shared then
    if (← acquireShared) ≠ .success then return .busy
  let reservedByteWrite ← acquirePrimitiveLock .write .reserved
  if reservedByteWrite = .busy then
    if lockState ≠ .shared then
      if (← releasePrimitiveLock .shared) ≠ .success then abort
      set LockState.nolock
    return .busy
  set LockState.reserved
  return .success

def acquireExclusiveFromNolock : LockOp LockMgrStatus := do
  let sharedByteWrite ← acquirePrimitiveLock .write .shared
  if sharedByteWrite ≠ .success then return .busy
  set LockState.exclusive
  return .success

def maxExclusiveRetries : Nat := 32

def maxPendingRetries : Nat := 32

/-- The loops of `acquire_exclusive_from_reserved`: try until the byte is locked. -/
def tryWrite (byte : LockByte) : Nat → LockOp Bool
  | 0 => return false
  | retries + 1 => do
    if (← acquirePrimitiveLock .write byte) = .success then return true
    tryWrite byte retries

def acquireExclusiveFromReserved : LockOp LockMgrStatus := do
  let acquiredPending ← tryWrite .pending maxPendingRetries
  if ¬acquiredPending then return .busy
  set LockState.pending
  if ← tryWrite .shared maxExclusiveRetries then
    if (← releasePrimitiveLock .pending) ≠ .success then abort
    if (← releasePrimitiveLock .reserved) ≠ .success then abort
    set LockState.exclusive
    return .success
  if (← releasePrimitiveLock .pending) ≠ .success then abort
  set LockState.reserved
  return .busy

def releaseShared : LockOp LockMgrStatus :=
  releasePrimitiveLock .shared

def releaseReserved : LockOp LockMgrStatus := do
  if (← releasePrimitiveLock .shared) ≠ .success then return .busy
  if (← releasePrimitiveLock .reserved) ≠ .success then return .busy
  return .success

def releasePending : LockOp LockMgrStatus := do
  if (← releasePrimitiveLock .shared) ≠ .success then return .busy
  if (← releasePrimitiveLock .reserved) ≠ .success then return .busy
  if (← releasePrimitiveLock .pending) ≠ .success then return .busy
  return .success

def releaseExclusive : LockOp LockMgrStatus :=
  releasePrimitiveLock .shared

def releaseAllLocks : LockOp LockMgrStatus := do
  let release ← match ← get with
    | .nolock => return .success
    | .shared => releaseShared
    | .reserved => releaseReserved
    | .pending => releasePending
    | .exclusive => releaseExclusive
  if release ≠ .success then abort
  set LockState.nolock
  return .success

def lock : Lock → LockOp LockMgrStatus
  | .nolock => return .success
  | .shared => acquireShared
  | .reserved => acquireReserved
  | .exclusive => do
    match ← get with
    | .exclusive => return .success
    | .nolock => acquireExclusiveFromNolock
    | .reserved => acquireExclusiveFromReserved
    | _ => return .busy

def unlock : Lock → LockOp LockMgrStatus
  | .exclusive => do
    return if (← get) = .exclusive then .success else .busy
  | .reserved => do
    match ← get with
    | .nolock | .shared => return .busy
    | .reserved => return .success
    | .pending => abort
    | .exclusive =>
      if (← acquirePrimitiveLock .write .reserved) ≠ .success then abort
      if (← acquirePrimitiveLock .read .shared) ≠ .success then abort
      set LockState.reserved
      return .success
  | .shared => do
    match ← get with
    | .nolock => return .busy
    | .shared => return .success
    | .reserved =>
      if (← releasePrimitiveLock .reserved) ≠ .success then abort
      set LockState.shared
      return .success
    | .pending => abort
    | .exclusive =>
      if (← acquirePrimitiveLock .read .shared) ≠ .success then abort
      set LockState.shared
      return .success
  | .nolock => releaseAllLocks

end Functions

section System

/-- The public functions. -/
inductive Request where
  | lock (target : Lock)
  | unlock (target : Lock)
  | releaseAllLocks

def Request.op : Request → LockOp LockMgrStatus
  | lock target => LockMgr.lock target
  | unlock target => LockMgr.unlock target
  | releaseAllLocks => LockMgr.releaseAllLocks

/-- The locks of a process on the three bytes. -/
abbrev Held := LockByte → Option PrimitiveLockType

/-- What is left of a call of a public function. -/
abbrev Rest := Calls (LockMgrStatus × LockState)

/-- A process with the rest of its current call, or what its last one returned. -/
structure Process where
  calls : Rest
  held : Held

/-- Two processes cannot hold these locks on one byte. -/
def Conflict : Option PrimitiveLockType → Option PrimitiveLockType → Bool
  | some .write, some _ => true
  | some .read, some .write => true
  | _, _ => false

inductive Step (ι : Type) where
  | call (p : ι) (request : Request)
  | fcntl (p : ι)

variable {ι : Type} [Fintype ι] [DecidableEq ι]

/-- A call is made by a process that is not within another one. -/
def Process.called (x : Process) (request : Request) : Process :=
  match x.calls with
  | .done (_, lockState) => { x with calls := request.op.run lockState }
  | _ => x

/-- The next `fcntl` call of a process fails if and only if another process is in its way. -/
def moved (s : ι → Process) (p : ι) : Process :=
  match (s p).calls with
  | .setLock type byte next =>
    if ∃ q, q ≠ p ∧ Conflict type ((s q).held byte) then { s p with calls := next .busy }
    else ⟨next .success, Function.update (s p).held byte type⟩
  | _ => s p

def step (s : ι → Process) : Step ι → ι → Process
  | .call p request => Function.update s p ((s p).called request)
  | .fcntl p => Function.update s p (moved s p)

def start : ι → Process :=
  fun _ => ⟨.done (.success, .nolock), fun _ => none⟩

def run (steps : List (Step ι)) : ι → Process :=
  steps.foldl step start

end System

section Invariant

/-- The locks that belong to a state between two calls. -/
def bytesOf : LockState → Held
  | .nolock, _ => none
  | .shared, .shared => some .read
  | .reserved, .shared => some .read
  | .reserved, .reserved => some .write
  | .exclusive, .shared => some .write
  | .pending, .shared => some .read
  | .pending, _ => some .write
  | _, _ => none

/-- Whoever holds the reserved byte holds the shared byte as well. -/
def Covered (held : Held) : Prop :=
  held .reserved = none ∨ held .shared ≠ none
  deriving Decidable

/-- What a call leaves behind. -/
def Settled (result : LockMgrStatus × LockState) (held : Held) : Prop :=
  result.2 ≠ .pending ∧ held = bytesOf result.2
  deriving Decidable

variable {α β : Type} {held : Held} {post : α → Held → Prop} {calls : Rest} {lockState : LockState}

/-- The rest of the call does not abort, whatever the other processes hold, and ends with
`post`. It unlocks what it holds. Only an unlock and a change of the process's own write lock
are sure to succeed. -/
def Calls.wp : Calls α → Held → (α → Held → Prop) → Prop
  | .done value, held, post => post value held
  | .setLock type byte next, held, post =>
    Covered held ∧ (type = none → held byte ≠ none) ∧
      (next .success).wp (Function.update held byte type) post ∧
      (type = none ∨ held byte = some .write ∨ (next .busy).wp held post)
  | .abort, _, _ => False

theorem Calls.wp_bind {x : Calls α} {f : α → Calls β} {post : β → Held → Prop} :
    x.wp held (fun a held' => (f a).wp held' post) → (x.bind f).wp held post := by
  induction x generalizing held with
  | done => exact id
  | abort => exact id
  | setLock type byte next ih =>
    rintro ⟨hCovered, hHolds, hSuccess, hBusy⟩
    exact ⟨hCovered, hHolds, ih _ hSuccess, hBusy.imp_right (Or.imp_right (ih _))⟩

theorem wp_tryWrite {byte : LockByte} {retries : Nat} {post : Bool × LockState → Held → Prop}
    (hCovered : Covered held)
    (hTrue : post (true, lockState) (Function.update held byte (some .write)))
    (hFalse : post (false, lockState) held) :
    ((tryWrite byte retries).run lockState).wp held post := by
  induction retries with
  | zero => exact hFalse
  | succ retries ih =>
    exact ⟨hCovered, fun h => absurd h (Option.some_ne_none _), hTrue, Or.inr (Or.inr ih)⟩

instance Calls.decidableWp [∀ a held, Decidable (post a held)] :
    (x : Calls α) → (held : Held) → Decidable (x.wp held post)
  | .done value, held => inferInstanceAs (Decidable (post value held))
  | .setLock type byte next, held =>
    have := decidableWp (next .success) (Function.update held byte type)
    have := decidableWp (next .busy) held
    inferInstanceAs (Decidable (_ ∧ _ ∧ _ ∧ (_ ∨ _ ∨ _)))
  | .abort, _ => inferInstanceAs (Decidable False)

theorem acquireExclusiveFromReserved_settles :
    (acquireExclusiveFromReserved.run .reserved).wp (bytesOf .reserved) Settled := by
  refine Calls.wp_bind (wp_tryWrite (by decide) ?_ (by decide))
  change (Calls.bind ((tryWrite .shared maxExclusiveRetries).run .pending) _).wp _ _
  exact Calls.wp_bind (wp_tryWrite (by decide) (by decide) (by decide))

/-- The release of a reserved lock after its first unlock. -/
def HalfReleased (calls : Rest) : Prop :=
  ∃ next, releaseAllLocks.run .reserved = .setLock none .shared next ∧ calls = next .success

/-- Where a process can stand: in a call that cannot abort, at the start of one of the two calls
that uncover the reserved byte or depend on it, or within the first of these. -/
inductive Orderly : Rest → Held → Prop where
  | safe {calls : Rest} {held : Held} : calls.wp held Settled → Orderly calls held
  | releasing : Orderly (releaseAllLocks.run .reserved) (bytesOf .reserved)
  | halfway {calls : Rest} : HalfReleased calls →
      Orderly calls (Function.update (bytesOf .reserved) .shared none)
  | downgrading : Orderly ((unlock .reserved).run .exclusive) (bytesOf .exclusive)

theorem Orderly.op (hState : lockState ≠ .pending) (request : Request) :
    Orderly (request.op.run lockState) (bytesOf lockState) := by
  rcases request with target | target | _
  · refine .safe ?_
    cases target <;> cases lockState <;>
      first | exact absurd rfl hState | exact acquireExclusiveFromReserved_settles | decide
  · cases target <;> cases lockState <;>
      first
      | exact absurd rfl hState
      | exact .releasing
      | exact .downgrading
      | exact .safe (by decide)
  · cases lockState <;>
      first | exact absurd rfl hState | exact .releasing | exact .safe (by decide)

theorem Orderly.covered_or (h : Orderly calls held) :
    Covered held ∨ HalfReleased calls := by
  cases h with
  | safe hSafe =>
    left
    cases calls with
    | done result =>
      rw [hSafe.2]
      cases result.2 <;> decide
    | setLock => exact hSafe.1
    | abort => exact hSafe.elim
  | releasing => exact Or.inl (by decide)
  | halfway hHalf => exact Or.inr hHalf
  | downgrading => exact Or.inl (by decide)

theorem Orderly.ne_abort (h : Orderly calls held) :
    calls ≠ .abort := by
  rintro rfl
  cases h with
  | safe hSafe => exact hSafe
  | halfway hHalf =>
    obtain ⟨next, hNext, hAbort⟩ := hHalf
    cases hNext
    cases hAbort

/-- Halfway through its release a process still holds the reserved byte. -/
theorem Orderly.holds_reserved (h : Orderly calls held) (hHalf : HalfReleased calls) :
    held .reserved ≠ none := by
  cases h with
  | safe hSafe =>
    obtain ⟨next, hNext, rfl⟩ := hHalf
    cases hNext
    exact hSafe.2.1 rfl
  | halfway => decide
  | releasing => decide
  | downgrading =>
    obtain ⟨next, hNext, hCalls⟩ := hHalf
    cases hNext
    cases hCalls

theorem Orderly.settled {result : LockMgrStatus × LockState} (h : Orderly (.done result) held) :
    Settled result held := by
  generalize hCalls : Calls.done result = calls at h
  cases h with
  | safe hSafe =>
    subst hCalls
    exact hSafe
  | halfway hHalf =>
    obtain ⟨next, hNext, rfl⟩ := hHalf
    cases hNext
    cases hCalls
  | releasing => cases hCalls
  | downgrading => cases hCalls

variable {calls : Rest} {type : Option PrimitiveLockType} {byte : LockByte}
  {next : LockMgrStatus → Rest}

variable (h : Orderly calls held) (hCalls : calls = .setLock type byte next)
include h hCalls

theorem Orderly.success : Orderly (next .success) (Function.update held byte type) := by
  cases h with
  | safe hSafe =>
    subst hCalls
    exact .safe hSafe.2.2.1
  | releasing =>
    cases hCalls
    exact .halfway ⟨_, rfl, rfl⟩
  | halfway hHalf =>
    obtain ⟨next, hNext, rfl⟩ := hHalf
    cases hNext
    cases hCalls
    exact .safe (by decide)
  | downgrading =>
    cases hCalls
    exact .safe (by decide)

/-- Only the call that leaves the exclusive state aborts when it is blocked. -/
theorem Orderly.busy (hBlocked : type ≠ none ∧ held byte ≠ some .write) :
    Orderly (next .busy) held ∨
      (calls = (unlock .reserved).run .exclusive ∧ held = bytesOf .exclusive) := by
  cases h with
  | safe hSafe =>
    subst hCalls
    exact Or.inl (.safe ((hSafe.2.2.2.resolve_left hBlocked.1).resolve_left hBlocked.2))
  | releasing =>
    cases hCalls
    exact absurd rfl hBlocked.1
  | halfway hHalf =>
    obtain ⟨next, hNext, rfl⟩ := hHalf
    cases hNext
    cases hCalls
    exact absurd rfl hBlocked.1
  | downgrading => exact Or.inr ⟨rfl, rfl⟩

end Invariant

section Runs

variable {ι : Type} {s : ι → Process} {p : ι} {type : Option PrimitiveLockType} {byte : LockByte}
  {next : LockMgrStatus → Rest}

structure Sound (s : ι → Process) : Prop where
  orderly p : Orderly (s p).calls (s p).held
  compatible p q byte : p ≠ q → Conflict ((s p).held byte) ((s q).held byte) = false

/-- The process is to lock the reserved byte again to leave the exclusive state, while another
one has released the shared byte and not yet the reserved byte. -/
def Crosses (s : ι → Process) (p : ι) : Prop :=
  (s p).calls = (unlock .reserved).run .exclusive ∧ ∃ q, q ≠ p ∧ HalfReleased (s q).calls

theorem conflict_comm (a b : Option PrimitiveLockType) : Conflict a b = Conflict b a := by
  rcases a with _ | _ | _ <;> rcases b with _ | _ | _ <;> rfl

theorem Sound.start : Sound (start : ι → Process) :=
  ⟨fun _ => .safe ⟨by decide, rfl⟩, fun _ _ _ _ => rfl⟩

/-- A call that another process blocks is not an unlock, and the process has no write lock. -/
theorem Sound.blocked (hSound : Sound s)
    (h : ∃ q, q ≠ p ∧ Conflict type ((s q).held byte)) :
    type ≠ none ∧ (s p).held byte ≠ some .write := by
  obtain ⟨q, hq, hConflict⟩ := h
  constructor
  · rintro rfl
    cases hConflict
  · intro hWrite
    have hNone := hSound.compatible p q byte hq.symm
    rw [hWrite] at hNone
    cases hHeld : (s q).held byte with
    | none =>
      rw [hHeld, conflict_comm] at hConflict
      cases hConflict
    | some =>
      rw [hHeld] at hNone
      cases hNone

/-- The reserved byte is locked by a process that has released the shared byte. -/
theorem Sound.crosses (hSound : Sound s) (hCalls : (s p).calls = .setLock type byte next)
    (hBlocked : ∃ q, q ≠ p ∧ Conflict type ((s q).held byte))
    (hDowngrade : (s p).calls = (unlock .reserved).run .exclusive ∧
      (s p).held = bytesOf .exclusive) : Crosses s p := by
  obtain ⟨q, hq, hConflict⟩ := hBlocked
  refine ⟨hDowngrade.1, q, hq, (hSound.orderly q).covered_or.resolve_left fun hCovered => ?_⟩
  have hShared := hSound.compatible p q .shared hq.symm
  rw [hDowngrade.2] at hShared
  rw [hDowngrade.1] at hCalls
  cases hCalls
  rcases hCovered with hNone | hSome
  · rw [hNone] at hConflict
    cases hConflict
  · obtain ⟨type, hType⟩ := Option.ne_none_iff_exists'.1 hSome
    rw [hType] at hShared
    cases hShared

variable [DecidableEq ι]

/-- A process that moves keeps the others compatible if its new locks are. -/
theorem Sound.update {x : Process} (hSound : Sound s) (hOrderly : Orderly x.calls x.held)
    (hHeld : ∀ q byte, q ≠ p → Conflict (x.held byte) ((s q).held byte) = false) :
    Sound (Function.update s p x) where
  orderly q := by
    rcases eq_or_ne q p with rfl | hq
    · rwa [update_self]
    · rw [update_of_ne hq]
      exact hSound.orderly q
  compatible q r byte hne := by
    rcases eq_or_ne q p with rfl | hq
    · rw [update_self, update_of_ne hne.symm]
      exact hHeld r byte hne.symm
    · rw [update_of_ne hq]
      rcases eq_or_ne r p with rfl | hr
      · rw [update_self, conflict_comm]
        exact hHeld q byte hq
      · rw [update_of_ne hr]
        exact hSound.compatible q r byte hne

variable [Fintype ι]

theorem Sound.fcntl (hSound : Sound s) (hCross : ¬Crosses s p) : Sound (step s (.fcntl p)) := by
  have hOrderly := hSound.orderly p
  have hStays := fun q byte hq => hSound.compatible p q byte (Ne.symm hq)
  cases hCalls : (s p).calls with
  | done | abort =>
    simp only [step, moved, hCalls]
    exact hSound.update hOrderly hStays
  | setLock type byte next =>
    simp only [step, moved, hCalls]
    split
    · rename_i hBlocked
      refine hSound.update ?_ hStays
      exact (hOrderly.busy hCalls (hSound.blocked hBlocked)).resolve_right
        fun hDowngrade => hCross (hSound.crosses hCalls hBlocked hDowngrade)
    · rename_i hFree
      refine hSound.update (hOrderly.success hCalls) (fun q other hq => ?_)
      dsimp only
      rcases eq_or_ne other byte with rfl | hOther
      · rw [update_self]
        exact Bool.eq_false_iff.2 fun hConflict => hFree ⟨q, hq, hConflict⟩
      · rw [update_of_ne hOther]
        exact hStays q other hq

theorem Sound.aborts (hSound : Sound s) (hCross : Crosses s p) :
    (step s (.fcntl p) p).calls = .abort := by
  obtain ⟨hCalls, q, hq, hHalf⟩ := hCross
  obtain ⟨type, hType⟩ := Option.ne_none_iff_exists'.1
    ((hSound.orderly q).holds_reserved hHalf)
  have hBlocked : ∃ q, q ≠ p ∧ Conflict (some .write) ((s q).held .reserved) :=
    ⟨q, hq, by rw [hType]; rfl⟩
  rw [step, update_self, moved, hCalls]
  change (ite _ _ _ : Process).calls = _
  rw [if_pos hBlocked]
  rfl

omit [Fintype ι] in
theorem Sound.call (hSound : Sound s) (request : Request) :
    Sound (Function.update s p ((s p).called request)) := by
  have hOrderly := hSound.orderly p
  have hStays := fun q byte hq => hSound.compatible p q byte (Ne.symm hq)
  cases hCalls : (s p).calls with
  | done result =>
    rw [hCalls] at hOrderly
    obtain ⟨hState, hHeld⟩ := hOrderly.settled
    simp only [Process.called, hCalls]
    refine hSound.update ?_ hStays
    rw [hHeld]
    exact .op hState request
  | setLock | abort =>
    simp only [Process.called, hCalls]
    exact hSound.update (hCalls ▸ hOrderly) hStays

theorem step_abort {event : Step ι} (h : (s p).calls = .abort) :
    (step s event p).calls = .abort := by
  cases event with
  | call q request =>
    rcases eq_or_ne p q with rfl | hq
    · rw [step, update_self, Process.called, h]
      exact h
    · rw [step, update_of_ne hq]
      exact h
  | fcntl q =>
    rcases eq_or_ne p q with rfl | hq
    · rw [step, update_self, moved, h]
      exact h
    · rw [step, update_of_ne hq]
      exact h

theorem run_concat (steps : List (Step ι)) (event : Step ι) :
    run (steps ++ [event]) = step (run steps) event :=
  foldl_append

/-- A run without such a step is sound, and one with it has an aborted process. -/
theorem run_cases (steps : List (Step ι)) :
    ((∀ front p, front ++ [.fcntl p] <+: steps → ¬Crosses (run front) p) ∧ Sound (run steps)) ∨
      ((∃ front p, front ++ [.fcntl p] <+: steps ∧ Crosses (run front) p) ∧
        ∃ p, (run steps p).calls = .abort) := by
  induction steps using List.reverseRecOn with
  | nil =>
    exact Or.inl ⟨by simp, .start⟩
  | append_singleton steps event ih =>
    rw [run_concat]
    rcases ih with ⟨hFront, hSound⟩ | ⟨⟨front, p, hPrefix, hCross⟩, q, hAbort⟩
    · by_cases h : ∃ p, event = .fcntl p ∧ Crosses (run steps) p
      · obtain ⟨p, rfl, hCross⟩ := h
        exact Or.inr ⟨⟨steps, p, prefix_rfl, hCross⟩, p, hSound.aborts hCross⟩
      · refine Or.inl ⟨fun front p hPrefix hCross => ?_, ?_⟩
        · rcases prefix_concat_iff.1 hPrefix with hEq | hShort
          · obtain ⟨rfl, hEvent⟩ := append_inj' hEq rfl
            exact h ⟨p, (singleton_inj.1 hEvent).symm, hCross⟩
          · exact hFront front p hShort hCross
        · cases event with
          | call p request => exact hSound.call request
          | fcntl p => exact hSound.fcntl fun hCross => h ⟨p, rfl, hCross⟩
    · exact Or.inr ⟨⟨front, p, hPrefix.trans (prefix_append _ _), hCross⟩, q, step_abort hAbort⟩

/-- In every run of any number of processes, none aborts unless one leaves the exclusive state
while another is halfway through the release of its reserved lock. -/
theorem never_aborts_iff (steps : List (Step ι)) :
    (∀ p, (run steps p).calls ≠ .abort) ↔
      ∀ front p, front ++ [.fcntl p] <+: steps → ¬Crosses (run front) p := by
  rcases run_cases steps with ⟨hNone, hSound⟩ | ⟨⟨front, p, hPrefix, hCross⟩, q, hAbort⟩
  · exact iff_of_true (fun p => (hSound.orderly p).ne_abort) hNone
  · exact iff_of_false (fun h => h q hAbort) (fun h => h front p hPrefix hCross)

/-- One process releases its reserved lock; between its two unlocks another one takes the
exclusive lock and wants to go back to the reserved one. -/
def crossing : List (Step (Fin 2)) :=
  [.call 1 (.lock .reserved), .fcntl 1, .fcntl 1, .fcntl 1, .fcntl 1,
    .call 1 (.unlock .nolock), .fcntl 1,
    .call 0 (.lock .exclusive), .fcntl 0, .call 0 (.unlock .reserved), .fcntl 0]

theorem crossing_aborts : (run crossing 0).calls = .abort :=
  rfl

end Runs

end Stoneleaf.LockMgr
