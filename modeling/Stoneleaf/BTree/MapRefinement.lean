import Stoneleaf.BTree.WellFormed

/-!
The tree as a finite map from keys to values: what lookups answer after any sequence of mutations
and undos that return. Whether a call returns is another matter: it may be refused, fail to read a
page, or end the process when it has to split an internal page.
-/

namespace Stoneleaf

open Library Program TreeMutation

variable {ioFails : Nat → Bool} {pending : PendingMutation} {s s' : TreeState}
  {entries : List (Key × Value)} {map map' : Key → Option Value}

/-- What `get` answers when no page read fails. -/
def Finds (s : TreeState) (key : Key) : Option Value → Prop
  | some value => (lookup (decodedEnv fun _ => false) key s).value? = some value
  | none => (lookup (decodedEnv fun _ => false) key s).error? = some .keyNotInTree

/-- A map that holds the answers of all lookups. -/
def Shows (s : TreeState) (map : Key → Option Value) : Prop :=
  ∀ key, Finds s key (map key)

theorem not_faulty : ¬Faulty fun _ => false := by
  rintro ⟨call, hFails⟩
  cases hFails

theorem Holds.shows (hHolds : Holds s entries) (hUsable : s.storagePoisoned = false) :
    Shows s (valueOf entries) := by
  obtain ⟨tree, free, hRep, hSound, rfl⟩ := hHolds
  intro key
  have hSpec : (lookup (decodedEnv fun _ => false) key).wp s _ _ _ := lookup_spec hRep hSound
  cases hRun : lookup (decodedEnv fun _ => false) key s with
  | ok value s' =>
    rw [(okay_of_wp hRun hSpec).1]
    exact congrArg Outcome.value? hRun
  | fail e s' =>
    rcases fail_of_wp hRun hSpec with hFaulty | hPoisoned | ⟨rfl, hAbsent, -⟩
    · exact (not_faulty hFaulty).elim
    · exact absurd hPoisoned (by simp [hUsable])
    · rw [hAbsent]
      exact congrArg Outcome.error? hRun
  | halt s' => exact (halt_of_wp hRun hSpec).elim

/-- A tree that answers lookups is in use. -/
theorem Shows.usable (h : Shows s map) : s.storagePoisoned = false := by
  by_contra hPoisoned
  have hRefused : (lookup (decodedEnv fun _ => false) (rowKey 0)).wp s (fun _ _ => False)
      (fun e _ => e ≠ .keyNotInTree) fun _ => True := by
    simp [lookup, Bool.eq_true_of_not_eq_false hPoisoned]
  have hKey := h (rowKey 0)
  cases hRun : lookup (decodedEnv fun _ => false) (rowKey 0) s with
  | ok value s' => exact okay_of_wp hRun hRefused
  | fail e s' =>
    have hOther := fail_of_wp hRun hRefused
    cases hMap : map (rowKey 0) <;>
      simp_all [Finds, Outcome.value?, Outcome.error?]
  | halt s' =>
    cases hMap : map (rowKey 0) <;> simp_all [Finds, Outcome.value?, Outcome.error?]

theorem Shows.unique (h : Shows s map) (h' : Shows s map') : map = map' := by
  funext key
  have hKey := h key
  have hKey' := h' key
  cases hRun : lookup (decodedEnv fun _ => false) key s <;> cases hMap : map key <;>
    cases hMap' : map' key <;> simp_all [Finds, Outcome.value?, Outcome.error?]

namespace TreeMutation

def key : TreeMutation → Key
  | insert key _ | remove key => key

/-- The mutation of a map. -/
def apply (map : Key → Option Value) : TreeMutation → Key → Option Value
  | insert key value => Function.update map key (some value)
  | remove key => Function.update map key none

def returned (map : Key → Option Value) : TreeMutation → Option Value
  | insert _ _ => none
  | remove key => map key

/-- The undo that `put` and `remove` of the key store record, from a lookup of the key. -/
def undo (previous : Option Value) : TreeMutation → Option UndoDescriptor
  | insert key _ => some (previous.elim (.insertUndo key) (.updateUndo key))
  | remove key => previous.map (.deleteUndo key)

variable {mutation : TreeMutation} {v : Option Value}

/-- A mutation that returns does to the entries of the tree what it does to a map. -/
theorem run_spec (hHolds : Holds s entries) :
    (mutation.run (decodedEnv ioFails) pending).wp s
      (fun v s' => v = mutation.returned (valueOf entries) ∧ Finished s s' ∧
        ∃ entries', Holds s' entries' ∧ valueOf entries' = mutation.apply (valueOf entries))
      (fun _ _ => True) fun _ => True := by
  obtain ⟨tree, free, hRep, hSound, rfl⟩ := hHolds
  cases mutation with
  | insert key value =>
    refine (wp_bind _ _).2 (wp_mono (insertImpl_spec hRep hSound) ?_ (fun _ _ _ => trivial)
      fun _ _ => trivial)
    rintro _ s' ⟨-, hHolds', hFinished⟩
    exact ⟨rfl, hFinished, _, hHolds', valueOf_insertEntry key value _⟩
  | remove key =>
    refine (wp_bind _ _).2 (wp_mono (removeImpl_spec hRep hSound) ?_ (fun _ _ _ => trivial)
      fun _ _ => trivial)
    rintro v s' ⟨hValue, hHolds', hFinished⟩
    exact ⟨hValue.symm, hFinished, _, hHolds', valueOf_removeEntry key _⟩

end TreeMutation

theorem usable_of_ready (hReady : ¬Refused ioFails s) : s.storagePoisoned = false :=
  Bool.eq_false_of_not_eq_true fun hPoisoned => hReady (.inr (.inl hPoisoned))

theorem remove_absent {key : Key} (hHolds : Holds s entries) (hReady : ¬Refused ioFails s)
    (hNone : valueOf entries key = none) :
    ∃ s', removeImpl (decodedEnv ioFails) pending key s = .fail .keyNotInTree s' ∧
      s'.pages = s.pages ∧ s'.dbHeader = s.dbHeader ∧ s'.wal = s.wal := by
  obtain ⟨tree, free, hRep, hSound, rfl⟩ := hHolds
  have hSpec : (removeImpl (decodedEnv ioFails) pending key).wp s _ _ _ :=
    removeImpl_spec hRep hSound
  have hLogged : (removeImpl (decodedEnv ioFails) pending key).wp s _ _ _ :=
    removeImpl_logged decodedFormat_pageInvariant fun _ => trivial
  cases hRun : removeImpl (decodedEnv ioFails) pending key s with
  | ok v s' =>
    rw [(okay_of_wp hRun hSpec).1] at hNone
    cases hNone
  | fail e s' =>
    obtain ⟨rfl, -⟩ := (fail_of_wp hRun hSpec).resolve_left hReady
    have hSame := fail_of_wp hRun hLogged rfl
    exact ⟨s', rfl, hSame.pages, hSame.dbHeader, hSame.wal⟩
  | halt s' => exact (halt_of_wp hRun hSpec).elim

/-- The mutation that an undo makes. -/
def UndoDescriptor.mutation : UndoDescriptor → TreeMutation
  | insertUndo key => .remove key
  | updateUndo key oldValue => .insert key oldValue
  | deleteUndo key oldValue => .insert key oldValue

/-- The recorded undo takes a mutation of a map back. -/
theorem TreeMutation.apply_undo {mutation : TreeMutation} {undo : UndoDescriptor}
    (h : undo ∈ mutation.undo (map mutation.key)) :
    undo.mutation.apply (mutation.apply map) = map := by
  cases mutation with
  | insert key value =>
    obtain rfl := Option.mem_some_iff.1 h
    cases hOld : map key <;>
      simp [TreeMutation.key, hOld, UndoDescriptor.mutation, apply]
  | remove key =>
    obtain ⟨old, hOld, rfl⟩ := Option.map_eq_some_iff.1 h
    simp [UndoDescriptor.mutation, apply, ← hOld, TreeMutation.key]

/-- A call that changes the tree, with the record it is to be logged in. -/
inductive TreeCall where
  | mutate (pending : PendingMutation) (mutation : TreeMutation)
  | undo (pending : PendingMutation) (descriptor : UndoDescriptor)

namespace TreeCall

def run {P : Type} (env : PagerEnv P) : TreeCall → Op P (Option Value)
  | mutate pending mutation => mutation.run env pending
  | undo pending descriptor => do
    applyUndo env pending descriptor
    return none

def runAll {P : Type} (env : PagerEnv P) : List TreeCall → Op P (List (Option Value))
  | [] => return []
  | call :: calls => do
    let answer ← call.run env
    return answer :: (← runAll env calls)

/-- The call on a map. -/
def apply (map : Key → Option Value) : TreeCall → Key → Option Value
  | mutate _ mutation => mutation.apply map
  | undo _ descriptor => descriptor.mutation.apply map

def returned (map : Key → Option Value) : TreeCall → Option Value
  | mutate _ mutation => mutation.returned map
  | undo _ _ => none

def answers (map : Key → Option Value) : List TreeCall → List (Option Value)
  | [] => []
  | call :: calls => call.returned map :: answers (call.apply map) calls

/-- An undo is the mutation it stands for, without its answer. -/
theorem wp_undo {P : Type} {env : PagerEnv P} {descriptor : UndoDescriptor} {s : OpState P}
    {okay : Option Value → OpState P → Prop} {failed : BTreeStatus → OpState P → Prop}
    {halted : OpState P → Prop}
    (h : (descriptor.mutation.run env pending).wp s (fun _ => okay none) failed halted) :
    ((undo pending descriptor).run env).wp s okay failed halted := by
  cases descriptor <;>
    simpa [run, applyUndo, UndoDescriptor.mutation, TreeMutation.run] using h

theorem run_spec (call : TreeCall) (hHolds : Holds s entries) :
    (call.run (decodedEnv ioFails)).wp s
      (fun v s' => v = call.returned (valueOf entries) ∧ Finished s s' ∧
        ∃ entries', Holds s' entries' ∧ valueOf entries' = call.apply (valueOf entries))
      (fun _ _ => True) fun _ => True := by
  cases call with
  | mutate pending mutation => exact TreeMutation.run_spec hHolds
  | undo pending descriptor =>
    exact wp_undo (wp_conseq (TreeMutation.run_spec hHolds) fun _ _ hDone => ⟨rfl, hDone.2⟩)

/-- Calls that return do to the entries of the tree what they do to a map. -/
theorem runAll_spec (calls : List TreeCall) (hHolds : Holds s entries) :
    (runAll (decodedEnv ioFails) calls).wp s
      (fun answered s' => answered = answers (valueOf entries) calls ∧
        s'.storagePoisoned = s.storagePoisoned ∧
        ∃ entries', Holds s' entries' ∧ valueOf entries' = calls.foldl apply (valueOf entries))
      (fun _ _ => True) fun _ => True := by
  induction calls generalizing s entries with
  | nil => exact ⟨rfl, rfl, entries, hHolds, rfl⟩
  | cons call calls ih =>
    rw [runAll, wp_bind]
    refine wp_conseq (call.run_spec hHolds) ?_
    rintro v s₁ ⟨rfl, hFinished, entries₁, hHolds₁, hMap₁⟩
    rw [wp_bind]
    refine wp_conseq (ih hHolds₁) ?_
    rintro answered s₂ ⟨rfl, hUsable, entries₂, hHolds₂, hMap₂⟩
    rw [hMap₁] at hMap₂ ⊢
    exact ⟨rfl, hUsable.trans hFinished.storagePoisoned, entries₂, hHolds₂, hMap₂⟩

end TreeCall

/-- A removal that merges the twins, and its undo. -/
def twinCalls : List TreeCall :=
  [.mutate (.action 1 1 (.deleteUndo (rowKey 0) (ValueCodec.makeBool true))) (.remove (rowKey 0)),
    .undo (.compensation 1 2 2 1) (.deleteUndo (rowKey 0) (ValueCodec.makeBool true))]

end Stoneleaf
