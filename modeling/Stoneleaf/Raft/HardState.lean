import Stoneleaf.Library.Endian
import Stoneleaf.Raft.NodeAddress

/-!
The hard state of a node: its term and its vote, kept in a small file that is replaced as a
whole. A new state is written to a temporary file, synchronized and renamed over the old one, so
that whatever stops the process the file holds one state or the other. The store itself refuses
to go back to an earlier term and to change a vote within a term.
-/

namespace Stoneleaf

open Library Program List

structure RaftHardState where
  term : UInt64
  votedFor : Option (List UInt8)
deriving DecidableEq, Repr

namespace RaftHardState

def initial : RaftHardState :=
  ⟨0, none⟩

def headerSize : Nat :=
  8 + 1 + 4

def decodeState (encoded : List UInt8) : Except Exception RaftHardState :=
  if encoded.length < headerSize then .error (.runtimeError "Raft hard state is truncated")
  else
    let term := ofBigEndian (encoded.take 8)
    let hasVote := ofBigEndian ((encoded.drop 8).take 1)
    let voteLength := ofBigEndian ((encoded.drop 9).take 4)
    if hasVote > 1 then .error (.runtimeError "Raft hard state has an invalid vote flag")
    else if encoded.length ≠ headerSize + voteLength then
      .error (.runtimeError "Raft hard-state vote length disagrees with file size")
    else if hasVote = 0 ∧ voteLength ≠ 0 then
      .error (.runtimeError "Raft hard state has vote bytes without a vote")
    else if hasVote = 1 ∧ voteLength = 0 then
      .error (.runtimeError "Raft hard state has an empty voted-for identity")
    else if term = 0 ∧ hasVote = 1 then .error (.runtimeError "Raft term zero cannot carry a vote")
    else .ok ⟨.ofNat term, if hasVote = 1 then some (encoded.drop headerSize) else none⟩

/-- A term, a vote flag and the vote itself, as they lie in the file. -/
def image (term : UInt64) (hasVote : Nat) (vote : List UInt8) : List UInt8 :=
  bigEndian 8 term.toNat ++ (bigEndian 1 hasVote ++ (bigEndian 4 vote.length ++ vote))

def encodeState (state : RaftHardState) : Except Exception (List UInt8) :=
  if state.term = 0 ∧ state.votedFor ≠ none then
    .error (.invalidArgument "Raft term zero cannot carry a vote")
  else if state.votedFor = some [] then
    .error (.invalidArgument "Raft voted-for identity must not be empty")
  else if (state.votedFor.getD []).length > 2 ^ 32 - 1 then
    .error (.invalidArgument "Raft voted-for identity is too large")
  else .ok (image state.term (if state.votedFor.isSome then 1 else 0) (state.votedFor.getD []))

theorem decodeState_image {term : UInt64} {hasVote : Nat} {vote : List UInt8} (hFlag : hasVote ≤ 1)
    (hVote : hasVote = 0 ↔ vote = []) (hZero : ¬(term = 0 ∧ hasVote = 1))
    (hSize : vote.length < 2 ^ 32) :
    decodeState (image term hasVote vote) =
      .ok ⟨term, if hasVote = 1 then some vote else none⟩ := by
  have hLength : (image term hasVote vote).length = headerSize + vote.length := by
    simp only [image, headerSize, length_append, length_bigEndian]
    omega
  have hTerm : ofBigEndian ((image term hasVote vote).take 8) = term.toNat := by
    have hLt : term.toNat < 256 ^ 8 := term.toNat_lt
    rw [image, take_append_of_le_length (by simp), take_of_length_le (by simp),
      ofBigEndian_bigEndian, Nat.mod_eq_of_lt hLt]
  have hDrop : (image term hasVote vote).drop 8 =
      bigEndian 1 hasVote ++ (bigEndian 4 vote.length ++ vote) := by
    rw [image, drop_left' (by simp)]
  have hDrop' : (image term hasVote vote).drop 9 = bigEndian 4 vote.length ++ vote := by
    rw [show (9 : Nat) = 8 + 1 from rfl, ← drop_drop, hDrop, drop_left' (by simp)]
  have hRest : (image term hasVote vote).drop headerSize = vote := by
    rw [show headerSize = 9 + 4 from rfl, ← drop_drop, hDrop', drop_left' (by simp)]
  have hHas : ofBigEndian (((image term hasVote vote).drop 8).take 1) = hasVote := by
    rw [hDrop, take_left' (by simp), ofBigEndian_bigEndian]
    omega
  have hCount : ofBigEndian (((image term hasVote vote).drop 9).take 4) = vote.length := by
    change vote.length < 256 ^ 4 at hSize
    rw [hDrop', take_left' (by simp), ofBigEndian_bigEndian, Nat.mod_eq_of_lt hSize]
  have hNoBytes : ¬(hasVote = 0 ∧ vote.length ≠ 0) := by
    rw [hVote, ← length_eq_zero_iff]
    omega
  have hSomeBytes : ¬(hasVote = 1 ∧ vote.length = 0) := by
    rw [length_eq_zero_iff, ← hVote]
    omega
  have hZero' : ¬(term.toNat = 0 ∧ hasVote = 1) := by
    rwa [← UInt64.toNat_inj] at hZero
  have hLong : ¬headerSize + vote.length < headerSize := by omega
  have hValid : ¬hasVote > 1 := by omega
  simp only [decodeState, hLength, if_neg hLong, hTerm, hHas, hCount, if_neg hValid, ne_eq,
    not_true, if_false, if_neg hNoBytes, if_neg hSomeBytes, if_neg hZero', hRest,
    UInt64.ofNat_toNat]

theorem decodeState_encodeState {state : RaftHardState} {encoded : List UInt8}
    (h : state.encodeState = .ok encoded) : decodeState encoded = .ok state := by
  obtain ⟨term, votedFor⟩ := state
  unfold encodeState at h
  split at h
  · cases h
  next hZero =>
  split at h
  · cases h
  next hEmpty =>
  split at h
  · cases h
  next hLarge =>
  obtain rfl := Except.ok.inj h
  cases votedFor with
  | none => exact decodeState_image (by simp) (by simp) (by simp) (by simp)
  | some vote =>
    refine decodeState_image (by simp) ?_ (by simpa using hZero) ?_
    · simpa using hEmpty
    · simp only [Option.getD_some] at hLarge ⊢
      omega

/-- A later hard state: the term has not decreased, and no vote has changed within a term. -/
structure Follows (old new : RaftHardState) : Prop where
  term : old.term ≤ new.term
  vote : old.term = new.term → old.votedFor ≠ none → new.votedFor = old.votedFor

namespace Follows

variable {a b c : RaftHardState}

theorem refl (a : RaftHardState) : Follows a a :=
  ⟨UInt64.le_refl _, fun _ _ => rfl⟩

theorem trans (h : Follows a b) (h' : Follows b c) : Follows a c where
  term := UInt64.le_trans h.term h'.term
  vote := by
    intro hTerm hVote
    have hFirst : a.term = b.term := UInt64.le_antisymm h.term (hTerm ▸ h'.term)
    have hKept := h.vote hFirst hVote
    rw [h'.vote (hFirst.symm.trans hTerm) (hKept ▸ hVote), hKept]

/-- Of two states, one of which follows the other, only one has a vote in a term. -/
theorem vote_unique (h : Follows a b ∨ Follows b a) (hTerm : a.term = b.term)
    (ha : a.votedFor ≠ none) (hb : b.votedFor ≠ none) : a.votedFor = b.votedFor := by
  rcases h with h | h
  · exact (h.vote hTerm ha).symm
  · exact h.vote hTerm.symm hb

end Follows

end RaftHardState

/-- The contents of the state file and of the temporary file. -/
structure HardStateFiles where
  state : Option (List UInt8)
  temporary : Option (List UInt8)
deriving DecidableEq, Repr

/-- The file operations that replace the state. -/
inductive HardStateStep where
  | openTemporary
  | writeTemporary (encoded : List UInt8)
  | syncTemporary
  | renameTemporary
  | syncDirectory

namespace HardStateStep

def apply (files : HardStateFiles) : HardStateStep → HardStateFiles
  | openTemporary => { files with temporary := some [] }
  | writeTemporary encoded => { files with temporary := some encoded }
  | syncTemporary => files
  | renameTemporary => ⟨files.temporary, none⟩
  | syncDirectory => files

/-- What a step leaves that did not get to its end. Only a write can have done a part. -/
def cut (torn : Nat) (files : HardStateFiles) : HardStateStep → HardStateFiles
  | writeTemporary encoded => { files with temporary := some (encoded.take torn) }
  | _ => files

end HardStateStep

/-- The step at which a call is stopped, and whether that ends the process or only throws. -/
structure Interruption where
  ordinal : Nat
  torn : Nat
  crash : Bool
deriving DecidableEq, Repr

/-- What a process reads from the files when it starts. -/
def HardStateFiles.recorded (files : HardStateFiles) : Except Exception RaftHardState :=
  match files.state with
  | none => .ok .initial
  | some encoded => RaftHardState.decodeState encoded

structure RaftHardStateStore where
  opened : Bool
  state : RaftHardState
  files : HardStateFiles

abbrev HardStateOp : Type → Type :=
  Program RaftHardStateStore Exception

namespace RaftHardStateStore

/-- The store of a process that has not opened it yet. -/
def closed (files : HardStateFiles) : RaftHardStateStore :=
  ⟨false, .initial, files⟩

def openStore : HardStateOp Unit := do
  if (← read opened) = true then
    fail (.runtimeError "Raft hard-state store is already open")
  let loaded ← ofExcept (← read fun store => store.files.recorded)
  modify fun store => { store with opened := true, state := loaded }

def load : HardStateOp RaftHardState := do
  if (← read opened) = false then fail (.runtimeError "Raft hard-state store is not open")
  read state

/-- Run one file operation, unless the call is stopped there. -/
def fileStep (interruption : Option Interruption) (ordinal : Nat) (step : HardStateStep) :
    HardStateOp Unit :=
  match interruption with
  | none => modify fun store => { store with files := step.apply store.files }
  | some stop =>
    if stop.ordinal = ordinal then do
      modify fun store => { store with files := step.cut stop.torn store.files }
      if stop.crash then halt else fail (.systemError "Raft hard-state file operation failed")
    else modify fun store => { store with files := step.apply store.files }

def persist (interruption : Option Interruption) (new : RaftHardState) : HardStateOp Unit := do
  if (← read opened) = false then fail (.runtimeError "Raft hard-state store is not open")
  let old ← read state
  if new.term < old.term then fail (.invalidArgument "Raft term must not decrease")
  if new.term = old.term ∧ old.votedFor ≠ none ∧ old.votedFor ≠ new.votedFor then
    fail (.invalidArgument "Raft vote cannot change within one term")
  let encoded ← ofExcept new.encodeState
  fileStep interruption 0 .openTemporary
  fileStep interruption 1 (.writeTemporary encoded)
  fileStep interruption 2 .syncTemporary
  fileStep interruption 3 .renameTemporary
  modify fun store => { store with state := new }
  fileStep interruption 4 .syncDirectory

section Spec

variable {store : RaftHardStateStore} {interruption : Option Interruption}

/-- The store is open, and the state it remembers is the one that a new process would read. -/
structure InSync (store : RaftHardStateStore) : Prop where
  opened : store.opened = true
  recorded : store.files.recorded = .ok store.state

theorem wp_fileStep {ordinal : Nat} {step : HardStateStep} {okay : Unit → RaftHardStateStore → Prop}
    {failed : Exception → RaftHardStateStore → Prop} {halted : RaftHardStateStore → Prop}
    (hOkay : okay () { store with files := step.apply store.files })
    (hFailed : ∀ e torn, failed e { store with files := step.cut torn store.files })
    (hHalted : ∀ torn, halted { store with files := step.cut torn store.files }) :
    (fileStep interruption ordinal step).wp store okay failed halted := by
  unfold fileStep
  cases interruption with
  | none => exact hOkay
  | some stop =>
    dsimp only
    split
    · simp only [wp_bind, wp_modify, wp_ite, wp_halt, wp_fail]
      exact ⟨fun _ => hHalted _, fun _ => hFailed _ _⟩
    · exact hOkay

/-- A new process reads a state that was in the store when the process before it stopped. -/
theorem openStore_spec {files : HardStateFiles} {state : RaftHardState}
    (hRecorded : files.recorded = .ok state) :
    openStore (closed files) = .ok () ⟨true, state, files⟩ := by
  have hRead : (ofExcept files.recorded : HardStateOp RaftHardState) (closed files) =
      .ok state (closed files) := by
    rw [hRecorded]
    rfl
  exact bind_ok hRead

theorem persist_spec (hSync : store.InSync) (new : RaftHardState) :
    (persist interruption new).wp store
      (fun _ store' => store.state.Follows new ∧ store'.InSync ∧ store'.state = new)
      (fun _ store' => store'.InSync ∧ (store'.state = store.state ∨
        store.state.Follows new ∧ store'.state = new))
      (fun store' => store'.files.recorded = .ok store.state ∨
        store.state.Follows new ∧ store'.files.recorded = .ok new) := by
  have hRead := hSync.recorded
  unfold persist
  simp only [wp_bind, wp_read, wp_ite, hSync.opened, Bool.true_eq_false, wp_fail,
    false_imp_iff, true_and, not_false_iff, true_imp_iff]
  refine ⟨fun _ => ⟨hSync, .inl trivial⟩,
    fun hTerm => ⟨fun _ => ⟨hSync, .inl trivial⟩, fun hVote => ?_⟩⟩
  have hFollows : store.state.Follows new := by
    refine ⟨UInt64.not_lt.1 hTerm, fun hSame hSome => ?_⟩
    by_contra hNe
    exact hVote ⟨hSame.symm, hSome, fun hEq => hNe hEq.symm⟩
  cases hEncode : new.encodeState with
  | error e => exact ⟨hSync, .inl rfl⟩
  | ok encoded =>
    have hDecode := RaftHardState.decodeState_encodeState hEncode
    simp only [wp_ofExcept_ok]
    -- Until the rename the state file is as it was, and afterwards it holds the new state.
    refine wp_fileStep ?_ (fun _ _ => ⟨hSync, .inl rfl⟩) fun _ => .inl hRead
    refine wp_fileStep ?_ (fun _ _ => ⟨⟨hSync.opened, hRead⟩, .inl rfl⟩) fun _ => .inl hRead
    refine wp_fileStep ?_ (fun _ _ => ⟨⟨hSync.opened, hRead⟩, .inl rfl⟩) fun _ => .inl hRead
    refine wp_fileStep ?_ (fun _ _ => ⟨⟨hSync.opened, hRead⟩, .inl rfl⟩) fun _ => .inl hRead
    rw [wp_modify]
    exact wp_fileStep ⟨hFollows, ⟨hSync.opened, hDecode⟩, rfl⟩
      (fun _ _ => ⟨⟨hSync.opened, hDecode⟩, .inr ⟨hFollows, rfl⟩⟩)
      fun _ => .inr ⟨hFollows, hDecode⟩

end Spec

end RaftHardStateStore

end Stoneleaf
