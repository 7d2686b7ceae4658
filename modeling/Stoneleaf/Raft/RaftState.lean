import Stoneleaf.Raft.HardState

/-!
The state of a node in the election protocol. The term and the vote change only through the hard
state: the store is asked first, and memory follows when the store has returned. A call that
throws may therefore leave memory behind the store, but never ahead of it. Timers and condition
variables have no effect on the other fields and are left out.
-/

namespace Stoneleaf

open Library Program NodeAddress RaftHardStateStore

structure ClusterMember where
  raft : NodeAddress
  databaseServer : NodeAddress
deriving DecidableEq, Repr

inductive RaftRole where
  | leader
  | follower
  | candidate
deriving DecidableEq, Repr

structure RaftState where
  state : RaftRole
  currentTerm : UInt64
  votedFor : Option NodeAddress
  leaderRaftAddress : Option NodeAddress
  selfRaftAddress : NodeAddress
  peers : List NodeAddress
  clusterNodes : List (NodeAddress × NodeAddress)
  sendNext : List (NodeAddress × UInt64)
  replicatedIndex : List (NodeAddress × UInt64)
  votes : List NodeAddress
  commitIndex : UInt64
  lastApplied : UInt64
deriving DecidableEq, Repr

/-- What the constructor collects from the rows of the configuration. -/
structure Membership where
  self : Option NodeAddress
  peers : List NodeAddress
  clusterNodes : List (NodeAddress × NodeAddress)

namespace Membership

def empty : Membership :=
  ⟨none, [], []⟩

/-- The next row. A row with a Raft address that was seen before is skipped. -/
def add (selfClientAddress : NodeAddress) (seen : Membership) (member : ClusterMember) :
    Membership :=
  if member.raft ∈ seen.clusterNodes.map Prod.fst then seen
  else if member.databaseServer = selfClientAddress then
    { seen with
      self := some member.raft
      clusterNodes := seen.clusterNodes ++ [(member.raft, member.databaseServer)] }
  else
    { seen with
      peers := seen.peers ++ [member.raft]
      clusterNodes := seen.clusterNodes ++ [(member.raft, member.databaseServer)] }

end Membership

namespace RaftState

/-- The constructor, given what the hard state store has loaded. -/
def create (cluster : List ClusterMember) (selfClientAddress : NodeAddress)
    (hardState : RaftHardState) (lastApplied : UInt64) : Except Exception RaftState :=
  let membership := cluster.foldl (Membership.add selfClientAddress) .empty
  match membership.self with
  | none => .error (.invalidArgument
      "Error: Couldn't find a matching row for self_client_address")
  | some self => do
    let votedFor ← hardState.votedFor.mapM NodeAddress.fromString
    return {
      state := .follower
      currentTerm := hardState.term
      votedFor
      leaderRaftAddress := none
      selfRaftAddress := self
      peers := membership.peers
      clusterNodes := membership.clusterNodes
      sendNext := []
      replicatedIndex := []
      votes := []
      commitIndex := lastApplied
      lastApplied }

def clusterSize (raft : RaftState) : Nat :=
  raft.clusterNodes.length

def isPeer (raft : RaftState) (address : NodeAddress) : Bool :=
  address != raft.selfRaftAddress && (raft.clusterNodes.map Prod.fst).contains address

def becomeLeader (lastLogIndex : UInt64) (raft : RaftState) : RaftState :=
  { raft with
    sendNext := raft.peers.map fun peer => (peer, lastLogIndex + 1)
    replicatedIndex := raft.peers.map fun peer => (peer, 0)
    leaderRaftAddress := some raft.selfRaftAddress
    state := .leader }

/-- Record a granted vote, and tell whether there is a majority now. -/
def recordVote (peer : NodeAddress) (raft : RaftState) : Bool × RaftState :=
  let votes := raft.votes.insert peer
  (decide (votes.length + 1 ≥ raft.clusterSize / 2 + 1), { raft with votes })

/-- The term and the vote as the store keeps them. -/
def hardState (raft : RaftState) : RaftHardState :=
  ⟨raft.currentTerm, raft.votedFor.map NodeAddress.toString⟩

end RaftState

structure RaftNode where
  store : RaftHardStateStore
  raft : RaftState

abbrev NodeOp : Type → Type :=
  Program RaftNode Exception

namespace RaftNode

def onStore {α : Type} (x : HardStateOp α) : NodeOp α :=
  zoom RaftNode.store (fun store node => { node with store }) x

def updateRaft (f : RaftState → RaftState) : NodeOp Unit :=
  modify fun node => { node with raft := f node.raft }

def advanceTerm (interruption : Option Interruption) (newTerm : UInt64)
    (newVote : Option NodeAddress) : NodeOp Unit := do
  if newTerm ≤ (← read raft).currentTerm then
    fail (.invalidArgument "Error (RaftState.advance_term): Invalid new term value.")
  onStore (RaftHardStateStore.persist interruption ⟨newTerm, newVote.map NodeAddress.toString⟩)
  updateRaft fun raft =>
    { raft with
      votedFor := newVote, votes := [], leaderRaftAddress := none, currentTerm := newTerm }

def grantVote (interruption : Option Interruption) (candidate : NodeAddress)
    (candidateLastLogIndex candidateLastLogTerm ownLastLogIndex ownLastLogTerm : UInt64) :
    NodeOp Bool := do
  let raft ← read raft
  if raft.votedFor ≠ none ∧ raft.votedFor ≠ some candidate then return false
  if ¬(candidateLastLogTerm > ownLastLogTerm ∨
      candidateLastLogTerm = ownLastLogTerm ∧ candidateLastLogIndex ≥ ownLastLogIndex) then
    return false
  if raft.votedFor ≠ some candidate then
    onStore (RaftHardStateStore.persist interruption ⟨raft.currentTerm, some candidate.toString⟩)
    updateRaft fun raft => { raft with votedFor := some candidate }
  return true

def becomeCandidate (interruption : Option Interruption) : NodeOp Unit := do
  let raft ← read raft
  advanceTerm interruption (raft.currentTerm + 1) (some raft.selfRaftAddress)
  updateRaft fun raft => { raft with state := .candidate }

def becomeFollower (interruption : Option Interruption) (newTerm : UInt64)
    (leader : Option NodeAddress) : NodeOp Unit := do
  if newTerm > (← read raft).currentTerm then advanceTerm interruption newTerm none
  updateRaft fun raft => { raft with leaderRaftAddress := leader, state := .follower }

/-- A process that starts opens its store and builds the state from what was recorded. -/
def boot (cluster : List ClusterMember) (selfClientAddress : NodeAddress) (lastApplied : UInt64) :
    HardStateOp RaftNode := do
  RaftHardStateStore.openStore
  let hardState ← RaftHardStateStore.load
  let raft ← ofExcept (RaftState.create cluster selfClientAddress hardState lastApplied)
  read fun store => ⟨store, raft⟩

section Spec

variable {node : RaftNode} {interruption : Option Interruption} {raft : RaftState}

/-- The vote, if there is one, is the text of an address. -/
def Named (state : RaftHardState) : Prop :=
  ∃ vote : Option NodeAddress, state.votedFor = vote.map NodeAddress.toString

/-- A step of a running node: the hard state only moves on, and memory is left as it was or has
caught up with the store. -/
structure Moves (node node' : RaftNode) : Prop where
  inSync : node'.store.InSync
  follows : node.store.state.Follows node'.store.state
  named : Named node.store.state → Named node'.store.state
  memory : node'.raft.hardState = node.raft.hardState ∨
    node'.store.state = node'.raft.hardState ∧ node.raft.currentTerm ≤ node'.raft.currentTerm

/-- The files hold the state from before a call, or the one that the call was to persist. -/
def Leaves (node : RaftNode) (new : RaftHardState) (files : HardStateFiles) : Prop :=
  files.recorded = .ok node.store.state ∨
    node.store.state.Follows new ∧ files.recorded = .ok new

theorem Moves.refl (hSync : node.store.InSync) : Moves node node :=
  ⟨hSync, .refl _, id, .inl rfl⟩

/-- What else changes in memory does not matter. -/
theorem Moves.of_hardState {node' : RaftNode} (h : Moves node node')
    (hSame : raft.hardState = node'.raft.hardState) : Moves node ⟨node'.store, raft⟩ := by
  have hTerm : raft.currentTerm = node'.raft.currentTerm := congrArg RaftHardState.term hSame
  refine ⟨h.inSync, h.follows, h.named, ?_⟩
  rw [hSame, hTerm]
  exact h.memory

theorem Moves.persisted {store : RaftHardStateStore}
    (hFollows : node.store.state.Follows raft.hardState) (hStore : store.InSync)
    (hState : store.state = raft.hardState) (hTerm : node.raft.currentTerm ≤ raft.currentTerm) :
    Moves node ⟨store, raft⟩ :=
  ⟨hStore, hState ▸ hFollows, fun _ => ⟨raft.votedFor, by rw [hState]; rfl⟩, .inr ⟨hState, hTerm⟩⟩

section

variable (hSync : node.store.InSync)
include hSync

theorem onStore_persist_spec {new : RaftHardState} (hNamed : Named new) :
    (onStore (persist interruption new)).wp node
      (fun _ node' => ∃ store, node' = { node with store } ∧ node.store.state.Follows new ∧
        store.InSync ∧ store.state = new)
      (fun _ node' => Moves node node' ∧ node'.raft = node.raft)
      (fun node' => Leaves node new node'.store.files) := by
  rw [onStore, wp_zoom]
  refine wp_weaken (persist_spec hSync new) ?_ ?_
  · exact fun _ store h => ⟨store, rfl, h⟩
  · rintro _ store ⟨hStore, hSame | ⟨hFollows, hNew⟩⟩
    · exact ⟨⟨hStore, hSame ▸ .refl _, fun h => hSame ▸ h, .inl rfl⟩, rfl⟩
    · exact ⟨⟨hStore, hNew ▸ hFollows, fun _ => hNew ▸ hNamed, .inl rfl⟩, rfl⟩

theorem advanceTerm_spec (newTerm : UInt64) (newVote : Option NodeAddress) :
    (advanceTerm interruption newTerm newVote).wp node
      (fun _ node' => Moves node node' ∧ node.raft.currentTerm < newTerm ∧
        node'.raft = { node.raft with
          votedFor := newVote, votes := [], leaderRaftAddress := none, currentTerm := newTerm } ∧
        node'.store.state = ⟨newTerm, newVote.map toString⟩)
      (fun _ node' => Moves node node' ∧ node'.raft = node.raft)
      (fun node' => Leaves node ⟨newTerm, newVote.map toString⟩ node'.store.files) := by
  unfold advanceTerm
  simp only [wp_bind, wp_read, wp_ite, wp_fail]
  refine ⟨fun _ => ⟨.refl hSync, trivial⟩, fun hTerm => ?_⟩
  have hLess : node.raft.currentTerm < newTerm := UInt64.not_le.1 hTerm
  refine wp_conseq (onStore_persist_spec hSync ⟨newVote, rfl⟩) ?_
  rintro _ _ ⟨store, rfl, hFollows, hStore, hState⟩
  exact ⟨.persisted hFollows hStore hState (UInt64.le_of_lt hLess), hLess, rfl, hState⟩

theorem grantVote_spec (candidate : NodeAddress)
    (candidateIndex candidateTerm ownIndex ownTerm : UInt64) :
    (grantVote interruption candidate candidateIndex candidateTerm ownIndex ownTerm).wp node
      (fun granted node' => Moves node node' ∧
        (granted = true → node'.raft = { node.raft with votedFor := some candidate } ∧
          (candidateTerm > ownTerm ∨ candidateTerm = ownTerm ∧ candidateIndex ≥ ownIndex)) ∧
        (granted = false → node'.raft = node.raft))
      (fun _ node' => Moves node node' ∧ node'.raft = node.raft)
      (fun node' => Leaves node
        ⟨node.raft.currentTerm, some candidate.toString⟩ node'.store.files) := by
  unfold grantVote
  simp only [wp_bind, wp_read, wp_ite, wp_pure]
  refine ⟨fun _ => ⟨.refl hSync, by simp, fun _ => trivial⟩, fun hOther => ⟨fun _ =>
    ⟨.refl hSync, by simp, fun _ => trivial⟩, fun hLate => ?_⟩⟩
  have hUpToDate := not_not.1 hLate
  refine ⟨fun hNew => ?_, fun hAgain => ?_⟩
  · refine wp_conseq (onStore_persist_spec hSync ⟨some candidate, rfl⟩) ?_
    rintro _ _ ⟨store, rfl, hFollows, hStore, hState⟩
    exact ⟨.persisted hFollows hStore hState (UInt64.le_refl _),
      fun _ => ⟨rfl, hUpToDate⟩, by simp⟩
  · have hVoted : node.raft.votedFor = some candidate := not_not.1 hAgain
    refine ⟨.refl hSync, fun _ => ⟨?_, hUpToDate⟩, by simp⟩
    rw [← hVoted]

theorem becomeCandidate_spec :
    (becomeCandidate interruption).wp node
      (fun _ node' => Moves node node' ∧ node.raft.currentTerm < node.raft.currentTerm + 1 ∧
        node'.raft = { node.raft with
          votedFor := some node.raft.selfRaftAddress, votes := [], leaderRaftAddress := none,
          currentTerm := node.raft.currentTerm + 1, state := .candidate } ∧
        node'.store.state = node'.raft.hardState)
      (fun _ node' => Moves node node' ∧ node'.raft = node.raft)
      (fun node' => Leaves node
        ⟨node.raft.currentTerm + 1, some node.raft.selfRaftAddress.toString⟩
          node'.store.files) := by
  unfold becomeCandidate
  simp only [wp_bind, wp_read]
  refine wp_conseq (advanceTerm_spec hSync _ _) ?_
  rintro _ ⟨store, raft⟩ ⟨hMoves, hLess, hRaft, hState⟩
  change raft = _ at hRaft
  subst hRaft
  exact ⟨hMoves.of_hardState rfl, hLess, rfl, hState⟩

theorem becomeFollower_spec (newTerm : UInt64) (leader : Option NodeAddress) :
    (becomeFollower interruption newTerm leader).wp node
      (fun _ node' => Moves node node' ∧
        (node.raft.currentTerm < newTerm ∧ node'.raft = { node.raft with
            votedFor := none, votes := [], leaderRaftAddress := leader, currentTerm := newTerm,
            state := .follower } ∨
          ¬node.raft.currentTerm < newTerm ∧
            node'.raft = { node.raft with leaderRaftAddress := leader, state := .follower }))
      (fun _ node' => Moves node node' ∧ node'.raft = node.raft)
      (fun node' => Leaves node ⟨newTerm, none⟩ node'.store.files) := by
  unfold becomeFollower
  simp only [wp_bind, wp_read, wp_ite]
  refine ⟨fun hHigher => ?_, fun hNot => ?_⟩
  · refine wp_conseq (advanceTerm_spec hSync _ _) ?_
    rintro _ ⟨store, raft⟩ ⟨hMoves, hLess, hRaft, -⟩
    change raft = _ at hRaft
    subst hRaft
    exact ⟨hMoves.of_hardState rfl, .inl ⟨hLess, rfl⟩⟩
  · exact ⟨(Moves.refl hSync).of_hardState rfl, .inr ⟨hNot, rfl⟩⟩

end

/-- A vote that is read back at all is the vote that was recorded. -/
theorem mapM_fromString_eq {vote read : Option NodeAddress}
    (h : (vote.map toString).mapM fromString = .ok read) : read = vote := by
  cases vote with
  | none => exact (Except.ok.inj h).symm
  | some address =>
    obtain ⟨host, port⟩ := address
    by_cases hHost : host = []
    · subst hHost
      simp [Option.mapM_some, fromString_toString_nil, Functor.map, Except.map] at h
    · have hRead := fromString_toString ⟨host, port⟩ hHost
      simp only [Option.map_some, Option.mapM_some, hRead, Functor.map, Except.map] at h
      exact (Except.ok.inj h).symm

theorem create_spec {cluster : List ClusterMember} {self : NodeAddress} {lastApplied : UInt64}
    {hardState : RaftHardState} (hNamed : Named hardState)
    (hCreate : RaftState.create cluster self hardState lastApplied = .ok raft) :
    raft.hardState = hardState ∧ raft.state = .follower := by
  obtain ⟨vote, hVote⟩ := hNamed
  unfold RaftState.create at hCreate
  dsimp only at hCreate
  split at hCreate
  · cases hCreate
  · cases hRead : hardState.votedFor.mapM fromString with
    | error e =>
      rw [hRead] at hCreate
      cases hCreate
    | ok read =>
      rw [hRead] at hCreate
      obtain rfl := Except.ok.inj hCreate
      rw [hVote] at hRead
      obtain rfl := mapM_fromString_eq hRead
      exact ⟨by rw [RaftState.hardState, ← hVote], rfl⟩

theorem boot_spec {files : HardStateFiles} {state : RaftHardState}
    (hRecorded : files.recorded = .ok state) (hNamed : Named state) (cluster : List ClusterMember)
    (self : NodeAddress) (lastApplied : UInt64) :
    (boot cluster self lastApplied).wp (.closed files)
      (fun node _ => node.store = ⟨true, state, files⟩ ∧ node.raft.hardState = state)
      (fun _ _ => True) (fun _ => False) := by
  unfold boot
  simp only [wp_bind]
  refine wp_of_ok (openStore_spec hRecorded) ?_
  simp only [load, wp_bind, wp_read, wp_ite, Bool.true_eq_false, false_imp_iff,
    true_and, not_false_iff, true_imp_iff]
  cases hCreate : RaftState.create cluster self state lastApplied with
  | error e => trivial
  | ok raft => exact ⟨rfl, (create_spec hNamed hCreate).1⟩

end Spec

end RaftNode

end Stoneleaf
