import Mathlib.Logic.Basic

/-!
Programs over an explicit state that may return a value, return an error code with
the state they reached, or stop the process. The error case keeps the state, so the
effects of a call that reports a failure stay visible. Preconditions are weakest
preconditions with one postcondition per outcome. A stopped process keeps the state it
reached only for statements about what had happened by then.
-/

namespace Stoneleaf.Library

/-- How a call ends: with a value, with an error code, or by stopping the process. -/
inductive Outcome (σ ε α : Type) where
  | ok (value : α) (state : σ)
  | fail (error : ε) (state : σ)
  | halt (state : σ)

/-- The state that a call reached. -/
def Outcome.state {σ ε α : Type} : Outcome σ ε α → σ
  | ok _ s => s
  | fail _ s => s
  | halt s => s

/-- Whether a call returned. -/
def Outcome.isOk {σ ε α : Type} : Outcome σ ε α → Bool
  | ok _ _ => true
  | _ => false

/-- What a call returned. -/
def Outcome.value? {σ ε α : Type} : Outcome σ ε α → Option α
  | ok a _ => some a
  | _ => none

/-- The error of a call that failed. -/
def Outcome.error? {σ ε α : Type} : Outcome σ ε α → Option ε
  | fail e _ => some e
  | _ => none

/-- A call, as a function of the state it starts in. -/
def Program (σ ε α : Type) : Type :=
  σ → Outcome σ ε α

namespace Program

variable {σ ε α β : Type}

instance : Monad (Program σ ε) where
  pure a := fun s => .ok a s
  bind x f := fun s =>
    match x s with
    | .ok a s' => f a s'
    | .fail e s' => .fail e s'
    | .halt s' => .halt s'

/-- Return an error code, leaving the state as it stands. -/
def fail (e : ε) : Program σ ε α :=
  fun s => .fail e s

/-- Stop the process. -/
def halt : Program σ ε α :=
  fun s => .halt s

/-- Observe the state. -/
def read (f : σ → α) : Program σ ε α :=
  fun s => .ok (f s) s

/-- Update the state. -/
def modify (f : σ → σ) : Program σ ε Unit :=
  fun s => .ok () (f s)

/-- The value of an optional result whose absence stops the process. -/
def orHalt : Option α → Program σ ε α
  | some a => pure a
  | none => halt

/-- The value of a computation that may throw. -/
def ofExcept : Except ε α → Program σ ε α
  | .ok a => pure a
  | .error e => fail e

/-- Run a call and then clean up, whether it returned or failed. -/
def ensuring (x : Program σ ε α) (cleanup : σ → σ) : Program σ ε α :=
  fun s =>
    match x s with
    | .ok a s' => .ok a (cleanup s')
    | .fail e s' => .fail e (cleanup s')
    | .halt s' => .halt s'

/-- Run a call and, when it fails, update the state before the failure goes on. -/
def onFail (x : Program σ ε α) (handle : σ → σ) : Program σ ε α :=
  fun s =>
    match x s with
    | .ok a s' => .ok a s'
    | .fail e s' => .fail e (handle s')
    | .halt s' => .halt s'

/-- Run a call on a part of a larger state. -/
def zoom {τ : Type} (view : τ → σ) (put : σ → τ → τ) (x : Program σ ε α) : Program τ ε α :=
  fun t =>
    match x (view t) with
    | .ok a s' => .ok a (put s' t)
    | .fail e s' => .fail e (put s' t)
    | .halt s' => .halt (put s' t)

/-- Every outcome of the call satisfies its postcondition. -/
def wp (x : Program σ ε α) (s : σ) (okay : α → σ → Prop) (failed : ε → σ → Prop)
    (halted : σ → Prop) : Prop :=
  match x s with
  | .ok a s' => okay a s'
  | .fail e s' => failed e s'
  | .halt s' => halted s'

/-- The call returns, where its postcondition holds. -/
abbrev Returns (x : Program σ ε α) (s : σ) (okay : α → σ → Prop) : Prop :=
  x.wp s okay (fun _ _ => False) fun _ => False

/-- The call returns, or it fails, for which there has to be a fault. -/
abbrev Attains (x : Program σ ε α) (fault : Prop) (s : σ) (okay : α → σ → Prop) : Prop :=
  x.wp s okay (fun _ _ => fault) fun _ => False

/-- However the call ends, it reaches a state with a property. -/
abbrev Reaches (x : Program σ ε α) (s : σ) (P : σ → Prop) : Prop :=
  x.wp s (fun _ => P) (fun _ => P) P

variable {s : σ} {okay okay' : β → σ → Prop} {failed failed' : ε → σ → Prop}
  {halted halted' : σ → Prop} {x : Program σ ε β} {f : α → Program σ ε β} {s' : σ}

@[simp] theorem wp_pure (b : β) :
    (pure b : Program σ ε β).wp s okay failed halted ↔ okay b s :=
  Iff.rfl

@[simp] theorem wp_fail (e : ε) :
    (fail e : Program σ ε β).wp s okay failed halted ↔ failed e s :=
  Iff.rfl

@[simp] theorem wp_halt :
    (halt : Program σ ε β).wp s okay failed halted ↔ halted s :=
  Iff.rfl

@[simp] theorem wp_read (f : σ → β) :
    (read f : Program σ ε β).wp s okay failed halted ↔ okay (f s) s :=
  Iff.rfl

@[simp] theorem wp_modify (f : σ → σ) {okay : Unit → σ → Prop} :
    (modify f : Program σ ε Unit).wp s okay failed halted ↔ okay () (f s) :=
  Iff.rfl

@[simp] theorem wp_orHalt_some (b : β) :
    (orHalt (some b) : Program σ ε β).wp s okay failed halted ↔ okay b s :=
  Iff.rfl

@[simp] theorem wp_orHalt_none :
    (orHalt none : Program σ ε β).wp s okay failed halted ↔ halted s :=
  Iff.rfl

@[simp] theorem wp_ofExcept_ok (b : β) :
    (ofExcept (.ok b) : Program σ ε β).wp s okay failed halted ↔ okay b s :=
  Iff.rfl

/-- Sequencing composes preconditions; errors and halts of the first call are final. -/
@[simp] theorem wp_bind (x : Program σ ε α) (f : α → Program σ ε β) :
    (x >>= f).wp s okay failed halted ↔
      x.wp s (fun a s' => (f a).wp s' okay failed halted) failed halted := by
  change (match (match x s with
      | .ok a s' => f a s'
      | .fail e s' => .fail e s'
      | .halt s' => .halt s') with
    | .ok a s' => okay a s'
    | .fail e s' => failed e s'
    | .halt s' => halted s') ↔ _
  unfold wp
  cases x s <;> rfl

@[simp] theorem wp_ensuring (x : Program σ ε β) (cleanup : σ → σ) :
    (x.ensuring cleanup).wp s okay failed halted ↔
      x.wp s (fun b s' => okay b (cleanup s')) (fun e s' => failed e (cleanup s')) halted := by
  unfold wp ensuring
  cases x s <;> rfl

@[simp] theorem wp_onFail (x : Program σ ε β) (handle : σ → σ) :
    (x.onFail handle).wp s okay failed halted ↔
      x.wp s okay (fun e s' => failed e (handle s')) halted := by
  unfold wp onFail
  cases x s <;> rfl

@[simp] theorem wp_zoom {τ : Type} (view : τ → σ) (put : σ → τ → τ) (x : Program σ ε β) {t : τ}
    {okay : β → τ → Prop} {failed : ε → τ → Prop} {halted : τ → Prop} :
    (x.zoom view put).wp t okay failed halted ↔
      x.wp (view t) (fun b s' => okay b (put s' t)) (fun e s' => failed e (put s' t))
        (fun s' => halted (put s' t)) := by
  unfold wp zoom
  cases x (view t) <;> rfl

theorem wp_ite (c : Prop) [Decidable c] (x y : Program σ ε β) :
    (if c then x else y).wp s okay failed halted ↔
      (c → x.wp s okay failed halted) ∧ (¬c → y.wp s okay failed halted) := by
  by_cases h : c <;> simp [h]

/-- Postconditions may be weakened outcome by outcome. -/
theorem wp_mono (h : x.wp s okay failed halted) (hOk : ∀ b s', okay b s' → okay' b s')
    (hFail : ∀ e s', failed e s' → failed' e s') (hHalt : ∀ s', halted s' → halted' s') :
    x.wp s okay' failed' halted' := by
  unfold wp at h ⊢
  cases hRun : x s with
  | ok b s' =>
    rw [hRun] at h
    exact hOk b s' h
  | fail e s' =>
    rw [hRun] at h
    exact hFail e s' h
  | halt s' =>
    rw [hRun] at h
    exact hHalt s' h

theorem wp_true (x : Program σ ε β) (s : σ) :
    x.wp s (fun _ _ => True) (fun _ _ => True) fun _ => True := by
  unfold wp
  cases x s <;> trivial

/-- The usual way to use a specification: it covers the first call, and what it
establishes suffices for the rest. -/
theorem wp_bind_of {x : Program σ ε α} {mid : α → σ → Prop} (h : x.wp s mid failed halted)
    (hNext : ∀ a s', mid a s' → (f a).wp s' okay failed halted) :
    (x >>= f).wp s okay failed halted :=
  (wp_bind x f).2 (wp_mono h hNext (fun _ _ hFail => hFail) (fun _ hHalt => hHalt))

theorem wp_conseq (h : x.wp s okay failed halted) (hOk : ∀ b s', okay b s' → okay' b s') :
    x.wp s okay' failed halted :=
  wp_mono h hOk (fun _ _ hFail => hFail) (fun _ hHalt => hHalt)

theorem wp_weaken (h : x.wp s okay failed halted) (hOk : ∀ b s', okay b s' → okay' b s')
    (hFail : ∀ e s', failed e s' → failed' e s') :
    x.wp s okay' failed' halted :=
  wp_mono h hOk hFail fun _ hHalt => hHalt

/-- A call that returns cannot miss what is asked of its other outcomes. -/
theorem wp_of_returns (h : x.Returns s okay) (hOk : ∀ b s', okay b s' → okay' b s') :
    x.wp s okay' failed halted :=
  wp_mono h hOk (fun _ _ hFail => hFail.elim) fun _ hHalt => hHalt.elim

theorem wp_and (h : x.wp s okay failed halted) (h' : x.wp s okay' failed' halted') :
    x.wp s (fun b s' => okay b s' ∧ okay' b s') (fun e s' => failed e s' ∧ failed' e s')
      (fun s' => halted s' ∧ halted' s') := by
  unfold wp at h h' ⊢
  cases hRun : x s <;> rw [hRun] at h h' <;> exact ⟨h, h'⟩

theorem okay_of_wp {b : β} (hRun : x s = .ok b s') (h : x.wp s okay failed halted) : okay b s' := by
  unfold wp at h
  rwa [hRun] at h

theorem fail_of_wp {e : ε} (hRun : x s = .fail e s') (h : x.wp s okay failed halted) :
    failed e s' := by
  unfold wp at h
  rwa [hRun] at h

theorem halt_of_wp (hRun : x s = .halt s') (h : x.wp s okay failed halted) : halted s' := by
  unfold wp at h
  rwa [hRun] at h

theorem wp_of_ok {b : β} (hRun : x s = .ok b s') (h : okay b s') :
    x.wp s okay failed halted := by
  unfold wp
  rwa [hRun]

theorem bind_ok {x : Program σ ε α} {a : α} (hRun : x s = .ok a s') : (x >>= f) s = f a s' := by
  change (match x s with
    | .ok a s' => f a s'
    | .fail e s' => .fail e s'
    | .halt s' => .halt s') = _
  rw [hRun]

theorem bind_fail {x : Program σ ε α} {e : ε} (hRun : x s = .fail e s') :
    (x >>= f) s = .fail e s' := by
  change (match x s with
    | .ok a s' => f a s'
    | .fail e s' => .fail e s'
    | .halt s' => .halt s') = _
  rw [hRun]

theorem bind_halt {x : Program σ ε α} (hRun : x s = .halt s') : (x >>= f) s = .halt s' := by
  change (match x s with
    | .ok a s' => f a s'
    | .fail e s' => .fail e s'
    | .halt s' => .halt s') = _
  rw [hRun]

theorem bind_assoc {γ : Type} (x : Program σ ε α) (f : α → Program σ ε β) (g : β → Program σ ε γ) :
    x >>= f >>= g = x >>= fun a => f a >>= g := by
  funext s
  cases hRun : x s with
  | fail e s' => rw [bind_fail hRun, bind_fail (bind_fail hRun)]
  | halt s' => rw [bind_halt hRun, bind_halt (bind_halt hRun)]
  | ok a s' =>
    rw [bind_ok hRun]
    have hFirst : (x >>= f) s = f a s' := bind_ok hRun
    cases hNext : f a s' with
    | ok b t => rw [bind_ok (hFirst.trans hNext), bind_ok hNext]
    | fail e t => rw [bind_fail (hFirst.trans hNext), bind_fail hNext]
    | halt t => rw [bind_halt (hFirst.trans hNext), bind_halt hNext]

theorem state_of_wp {P : σ → Prop} (h : x.Reaches s P) : P (x s).state := by
  unfold Reaches wp at h
  cases hRun : x s <;> rw [hRun] at h <;> exact h

theorem Reaches.mono {P Q : σ → Prop} (h : x.Reaches s P) (hImp : ∀ s', P s' → Q s') :
    x.Reaches s Q :=
  wp_mono h (fun _ => hImp) (fun _ => hImp) hImp

theorem exists_ok_of_wp (h : x.Returns s okay) :
    ∃ b s', x s = .ok b s' ∧ okay b s' := by
  unfold Returns wp at h
  cases hRun : x s with
  | ok b s' => exact ⟨b, s', rfl, by rwa [hRun] at h⟩
  | fail e s' => rw [hRun] at h; exact h.elim
  | halt s' => rw [hRun] at h; exact h.elim

theorem isOk_iff_of_wp {P : Prop} (h : x.wp s (fun _ _ => P) (fun _ _ => ¬P) fun _ => False) :
    (x s).isOk = true ↔ P := by
  cases hRun : x s with
  | ok b s' => exact iff_of_true rfl (okay_of_wp hRun h)
  | fail e s' => exact iff_of_false Bool.false_ne_true (fail_of_wp hRun h)
  | halt s' => exact (halt_of_wp hRun h).elim

theorem isOk_eq_false_of_wp (h : x.wp s (fun _ _ => False) (fun _ _ => True) fun _ => True) :
    (x s).isOk = false := by
  cases hRun : x s with
  | ok b s' => exact (okay_of_wp hRun h).elim
  | fail e s' => rfl
  | halt s' => rfl

theorem eq_ok_of_wp {b : β} (h : x.Returns s fun b' t => b' = b ∧ t = s') : x s = .ok b s' := by
  obtain ⟨_, _, hRun, rfl, rfl⟩ := exists_ok_of_wp h
  exact hRun

theorem eq_fail_of_wp {e : ε}
    (h : x.wp s (fun _ _ => False) (fun e' t => e' = e ∧ t = s') fun _ => False) :
    x s = .fail e s' := by
  unfold wp at h
  cases hRun : x s with
  | ok b t => rw [hRun] at h; exact h.elim
  | fail e' t =>
    rw [hRun] at h
    obtain ⟨rfl, rfl⟩ := h
    rfl
  | halt t => rw [hRun] at h; exact h.elim

/-- Partial correctness: started where `pre` holds, the call returns where `post` holds, and fails
where `failed` does. -/
def Triple (pre : σ → Prop) (x : Program σ ε α) (post : α → σ → Prop) (failed : ε → σ → Prop) :
    Prop :=
  ∀ s, pre s → x.wp s post failed fun _ => True

namespace Triple

variable {pre mid : σ → Prop} {post : α → σ → Prop} {failed : ε → σ → Prop} {f : β → Program σ ε α}

theorem pure {a : α} (h : ∀ s, pre s → post a s) :
    Triple pre (Pure.pure a : Program σ ε α) post failed :=
  h

theorem done {a : α} : Triple pre (Pure.pure a : Program σ ε α) (fun _ => pre) failed :=
  fun _ hs => hs

theorem fail {e : ε} (h : ∀ s, pre s → failed e s) : Triple pre (Program.fail e) post failed :=
  h

theorem bind {between : β → σ → Prop} (h : Triple pre x between failed)
    (hNext : ∀ b, Triple (between b) (f b) post failed) :
    Triple pre (x >>= f) post failed :=
  fun s hs => wp_bind_of (h s hs) hNext

/-- Sequencing when the value is known. -/
theorem bind_eq {b : β} (h : Triple pre x (fun a s => a = b ∧ mid s) failed)
    (hNext : Triple mid (f b) post failed) : Triple pre (x >>= f) post failed :=
  h.bind fun a s hs => by
    rw [hs.1]
    exact hNext s hs.2

/-- Sequencing when what holds in between does not depend on the value. -/
theorem seq (h : Triple pre x (fun _ => mid) failed) (hNext : ∀ b, Triple mid (f b) post failed) :
    Triple pre (x >>= f) post failed :=
  h.bind hNext

theorem read {f : σ → α} (h : ∀ s, pre s → post (f s) s) :
    Triple pre (Program.read f : Program σ ε α) post failed :=
  h

theorem ite {c : Prop} [Decidable c] {x y : Program σ ε α} (hThen : Triple pre x post failed)
    (hElse : Triple pre y post failed) : Triple pre (if c then x else y) post failed := by
  split
  · exact hThen
  · exact hElse

theorem ensuring {x : Program σ ε α} {cleanup : σ → σ}
    (h : Triple pre x (fun a s => post a (cleanup s)) fun e s => failed e (cleanup s)) :
    Triple pre (x.ensuring cleanup) post failed :=
  fun s hs => (wp_ensuring x cleanup).2 (h s hs)

theorem onFail {x : Program σ ε α} {handle : σ → σ}
    (h : Triple pre x post fun e s => failed e (handle s)) :
    Triple pre (x.onFail handle) post failed :=
  fun s hs => (wp_onFail x handle).2 (h s hs)

theorem conseq {x : Program σ ε α} {pre' : σ → Prop} {post' : α → σ → Prop}
    (h : Triple pre x post failed) (hPre : ∀ s, pre' s → pre s)
    (hPost : ∀ a s, post a s → post' a s) : Triple pre' x post' failed :=
  fun s hs => wp_conseq (h s (hPre s hs)) hPost

end Triple

end Program

end Stoneleaf.Library
