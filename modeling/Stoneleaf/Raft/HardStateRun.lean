import Stoneleaf.Raft.RaftState

/-!
A node over the lives of its processes. Its calls may be stopped at any file operation, the
process may stop at any time, and new processes start from what the files hold. The machine keeps
every hard state that was ever recorded and every vote that was ever answered; the recorded
states form a chain, and everything else follows from that.
-/

namespace Stoneleaf

open Library Program List RaftNode

/-- The calls that take part in elections. -/
inductive RaftCall where
  | advanceTerm (newTerm : UInt64) (newVote : Option NodeAddress)
  | grantVote (candidate : NodeAddress)
      (candidateLastLogIndex candidateLastLogTerm ownLastLogIndex ownLastLogTerm : UInt64)
  | becomeCandidate
  | becomeFollower (newTerm : UInt64) (leader : Option NodeAddress)
  | recordVote (peer : NodeAddress)
  | becomeLeader (lastLogIndex : UInt64)

namespace RaftCall

/-- Make the call. The result is the candidate that is answered with a vote, if there is one. -/
def run (interruption : Option Interruption) : RaftCall → NodeOp (Option NodeAddress)
  | advanceTerm newTerm newVote => do
    RaftNode.advanceTerm interruption newTerm newVote
    return none
  | grantVote candidate candidateIndex candidateTerm ownIndex ownTerm => do
    let granted ← RaftNode.grantVote interruption candidate candidateIndex candidateTerm ownIndex
      ownTerm
    return if granted then some candidate else none
  | becomeCandidate => do
    RaftNode.becomeCandidate interruption
    return none
  | becomeFollower newTerm leader => do
    RaftNode.becomeFollower interruption newTerm leader
    return none
  | recordVote peer => do
    RaftNode.updateRaft fun raft => (raft.recordVote peer).2
    return none
  | becomeLeader lastLogIndex => do
    RaftNode.updateRaft (RaftState.becomeLeader lastLogIndex)
    return none

/-- The hard state that the call hands to the store, if it gets that far. -/
def persisting (raft : RaftState) : RaftCall → Option RaftHardState
  | advanceTerm newTerm newVote => some ⟨newTerm, newVote.map NodeAddress.toString⟩
  | grantVote candidate _ _ _ _ => some ⟨raft.currentTerm, some candidate.toString⟩
  | becomeCandidate => some ⟨raft.currentTerm + 1, some raft.selfRaftAddress.toString⟩
  | becomeFollower newTerm _ => some ⟨newTerm, none⟩
  | recordVote _ => none
  | becomeLeader _ => none

theorem named_of_persisting {call : RaftCall} {raft : RaftState} {new : RaftHardState}
    (h : call.persisting raft = some new) : RaftNode.Named new := by
  cases call with
  | advanceTerm newTerm newVote => exact Option.some.inj h ▸ ⟨newVote, rfl⟩
  | grantVote candidate _ _ _ _ => exact Option.some.inj h ▸ ⟨some candidate, rfl⟩
  | becomeCandidate => exact Option.some.inj h ▸ ⟨some raft.selfRaftAddress, rfl⟩
  | becomeFollower newTerm _ => exact Option.some.inj h ▸ ⟨none, rfl⟩
  | recordVote _ => cases h
  | becomeLeader _ => cases h

/-- What any call does to a node whose memory agrees with its files. -/
theorem run_spec {node : RaftNode} (hSync : node.store.InSync) (interruption : Option Interruption)
    (call : RaftCall) :
    (call.run interruption).wp node
      (fun answered node' => node.Moves node' ∧
        ∀ candidate, answered = some candidate → node'.raft.votedFor = some candidate)
      (fun _ node' => node.Moves node')
      (fun node' => node'.store.files.recorded = .ok node.store.state ∨
        ∃ new, call.persisting node.raft = some new ∧ node.store.state.Follows new ∧
          node'.store.files.recorded = .ok new) := by
  have hLeft {new : RaftHardState} (hNew : call.persisting node.raft = some new)
      {files : HardStateFiles} (h : node.Leaves new files) :
      files.recorded = .ok node.store.state ∨
        ∃ new, call.persisting node.raft = some new ∧ node.store.state.Follows new ∧
          files.recorded = .ok new :=
    h.imp_right fun h => ⟨new, hNew, h⟩
  cases call with
  | advanceTerm newTerm newVote =>
    rw [run, wp_bind]
    exact wp_mono (advanceTerm_spec hSync newTerm newVote)
      (fun _ _ h => ⟨h.1, by simp⟩) (fun _ _ h => h.1) fun _ h => hLeft rfl h
  | grantVote candidate candidateIndex candidateTerm ownIndex ownTerm =>
    rw [run, wp_bind]
    refine wp_mono (grantVote_spec hSync candidate candidateIndex candidateTerm ownIndex
      ownTerm) ?_ (fun _ _ h => h.1) fun _ h => hLeft rfl h
    rintro granted node' ⟨hMoves, hGranted, -⟩
    refine ⟨hMoves, fun answered hAnswered => ?_⟩
    cases granted with
    | false => cases hAnswered
    | true =>
      obtain rfl := Option.some.inj hAnswered
      rw [(hGranted rfl).1]
  | becomeCandidate =>
    rw [run, wp_bind]
    exact wp_mono (becomeCandidate_spec hSync)
      (fun _ _ h => ⟨h.1, by simp⟩) (fun _ _ h => h.1) fun _ h => hLeft rfl h
  | becomeFollower newTerm leader =>
    rw [run, wp_bind]
    exact wp_mono (becomeFollower_spec hSync newTerm leader)
      (fun _ _ h => ⟨h.1, by simp⟩) (fun _ _ h => h.1) fun _ h => hLeft rfl h
  | recordVote peer | becomeLeader lastLogIndex =>
    exact ⟨(RaftNode.Moves.refl hSync).of_hardState rfl, by simp⟩

end RaftCall

/-- A process is running, or there are only its files. -/
inductive RaftLife where
  | running (node : RaftNode)
  | down (files : HardStateFiles)

def RaftLife.files : RaftLife → HardStateFiles
  | running node => node.store.files
  | down files => files

inductive HardStateEvent where
  | call (call : RaftCall) (interruption : Option Interruption)
  | stop
  | start (cluster : List ClusterMember) (selfClientAddress : NodeAddress) (lastApplied : UInt64)

/-- A node with all hard states that were recorded, the latest one last, and all votes that were
answered, each with its term. -/
structure HardStateMachine where
  life : RaftLife
  history : List RaftHardState
  answered : List (UInt64 × NodeAddress)

namespace HardStateMachine

/-- A node that has never run. -/
def fresh : HardStateMachine :=
  ⟨.down ⟨none, none⟩, [.initial], []⟩

/-- The machine in its next state, with what the files record by then. -/
def become (machine : HardStateMachine) (life : RaftLife) : HardStateMachine :=
  { machine with life, history := machine.history ++ life.files.recorded.toOption.toList }

def answer (machine : HardStateMachine) (term : UInt64) (candidate : Option NodeAddress) :
    HardStateMachine :=
  { machine with answered := machine.answered ++ candidate.toList.map fun c => (term, c) }

def next (machine : HardStateMachine) : HardStateEvent → HardStateMachine
  | .call call interruption =>
    match machine.life with
    | .down _ => machine
    | .running node =>
      match call.run interruption node with
      | .ok candidate node' =>
        (machine.become (.running node')).answer node'.raft.currentTerm candidate
      | .fail _ node' => machine.become (.running node')
      | .halt node' => machine.become (.down node'.store.files)
  | .stop => machine.become (.down machine.life.files)
  | .start cluster selfClientAddress lastApplied =>
    match machine.life with
    | .running _ => machine
    | .down files =>
      match RaftNode.boot cluster selfClientAddress lastApplied (.closed files) with
      | .ok node _ => machine.become (.running node)
      | _ => machine

def run (machine : HardStateMachine) (events : List HardStateEvent) : HardStateMachine :=
  events.foldl next machine

/-- What holds of a machine in every state that it reaches. -/
structure Sound (machine : HardStateMachine) : Prop where
  chain : machine.history.Pairwise RaftHardState.Follows
  recorded : ∃ earlier state, machine.history = earlier ++ [state] ∧
    machine.life.files.recorded = .ok state
  named : ∀ state ∈ machine.history, RaftNode.Named state
  running : ∀ node, machine.life = .running node → node.store.InSync ∧
    node.raft.currentTerm ≤ node.store.state.term ∧
      (node.raft.hardState.votedFor ≠ none → node.raft.hardState ∈ machine.history)
  answered : ∀ vote ∈ machine.answered,
    (⟨vote.1, some vote.2.toString⟩ : RaftHardState) ∈ machine.history

variable {machine : HardStateMachine} {term : UInt64} {state : RaftHardState}

theorem sound_fresh : fresh.Sound where
  chain := pairwise_singleton _ _
  recorded := ⟨[], .initial, rfl, rfl⟩
  named := by
    intro state hMem
    obtain rfl := mem_singleton.1 hMem
    exact ⟨none, rfl⟩
  running := fun _ hLife => by cases hLife
  answered := fun _ hMem => absurd hMem not_mem_nil

/-- The machine stays sound when the files record a state that follows the one before. -/
theorem Sound.become (h : machine.Sound) {life : RaftLife} {old new : RaftHardState}
    (hOld : machine.life.files.recorded = .ok old) (hNew : life.files.recorded = .ok new)
    (hFollows : old.Follows new) (hNamed : RaftNode.Named new)
    (hRunning : ∀ node, life = .running node → node.store.InSync ∧
      node.raft.currentTerm ≤ node.store.state.term ∧ (node.raft.hardState.votedFor ≠ none →
          node.raft.hardState ∈ machine.history ∨ node.raft.hardState = new)) :
    (machine.become life).Sound := by
  have hHistory : (machine.become life).history = machine.history ++ [new] := by
    simp [HardStateMachine.become, hNew, Except.toOption]
  obtain ⟨earlier, state, hLast, hState⟩ := h.recorded
  obtain rfl : state = old := Except.ok.inj (hState.symm.trans hOld)
  refine ⟨?_, ⟨machine.history, new, hHistory, hNew⟩, ?_, ?_, ?_⟩
  · rw [hHistory, pairwise_append]
    refine ⟨h.chain, pairwise_singleton _ _, ?_⟩
    intro a ha b hb
    obtain rfl := mem_singleton.1 hb
    have hChain := h.chain
    rw [hLast] at ha hChain
    rcases mem_append.1 ha with ha | ha
    · exact ((pairwise_append.1 hChain).2.2 a ha state (by simp)).trans hFollows
    · obtain rfl := mem_singleton.1 ha
      exact hFollows
  · intro state hMem
    rw [hHistory, mem_append, mem_singleton] at hMem
    exact hMem.elim (h.named state) fun hEq => hEq ▸ hNamed
  · intro node hLife
    obtain ⟨hSync, hTerm, hVote⟩ := hRunning node hLife
    refine ⟨hSync, hTerm, fun hSome => ?_⟩
    rw [hHistory, mem_append, mem_singleton]
    exact hVote hSome
  · intro vote hMem
    rw [hHistory]
    exact mem_append_left _ (h.answered vote hMem)

theorem Sound.of_recorded (h : machine.Sound) (hState : machine.life.files.recorded = .ok state) :
    state ∈ machine.history ∧ RaftNode.Named state := by
  obtain ⟨earlier, last, hLast, hRecorded⟩ := h.recorded
  obtain rfl : last = state := Except.ok.inj (hRecorded.symm.trans hState)
  have hMem : last ∈ machine.history := by simp [hLast]
  exact ⟨hMem, h.named last hMem⟩

/-- What an event can do to a machine. -/
inductive Change (machine : HardStateMachine) : HardStateMachine → Prop where
  | idle : Change machine machine
  | moves (node node' : RaftNode) (candidate : Option NodeAddress)
      (hLife : machine.life = .running node) (hMoves : node.Moves node')
      (hVote : ∀ c, candidate = some c → node'.raft.votedFor = some c) :
      Change machine ((machine.become (.running node')).answer node'.raft.currentTerm candidate)
  | stops (old new : RaftHardState) (files : HardStateFiles)
      (hOld : machine.life.files.recorded = .ok old) (hNew : files.recorded = .ok new)
      (hFollows : old.Follows new) (hNamed : RaftNode.Named new) :
      Change machine (machine.become (.down files))
  | starts (state : RaftHardState) (files : HardStateFiles) (raft : RaftState)
      (hLife : machine.life = .down files) (hState : files.recorded = .ok state)
      (hRaft : raft.hardState = state) :
      Change machine (machine.become (.running ⟨⟨true, state, files⟩, raft⟩))

theorem Sound.change (h : machine.Sound) (event : HardStateEvent) :
    Change machine (machine.next event) := by
  obtain ⟨_, state, -, hState⟩ := h.recorded
  have hNamed := (h.of_recorded hState).2
  cases event with
  | stop => exact .stops state state _ hState hState (.refl state) hNamed
  | call call interruption =>
    unfold next
    cases hLife : machine.life with
    | down files => exact .idle
    | running node =>
      obtain ⟨hSync, -⟩ := h.running node hLife
      have hSpec := RaftCall.run_spec hSync interruption call
      dsimp only
      cases hRun : call.run interruption node with
      | ok candidate node' =>
        obtain ⟨hMoves, hVote⟩ := okay_of_wp hRun hSpec
        exact .moves node node' candidate hLife hMoves hVote
      | fail e node' =>
        have hMoves := fail_of_wp hRun hSpec
        have hChange := Change.moves node node' none hLife hMoves (by simp)
        simpa [answer] using hChange
      | halt node' =>
        have hOld : machine.life.files.recorded = .ok node.store.state := hLife ▸ hSync.recorded
        rcases halt_of_wp hRun hSpec with hSame | ⟨new, hNew, hFollows, hRecorded⟩
        · exact .stops _ _ _ hOld hSame (.refl _) (h.of_recorded hOld).2
        · exact .stops _ _ _ hOld hRecorded hFollows (RaftCall.named_of_persisting hNew)
  | start cluster self lastApplied =>
    unfold next
    cases hLife : machine.life with
    | running node => exact .idle
    | down files =>
      rw [hLife] at hState
      have hSpec := boot_spec hState hNamed cluster self lastApplied
      dsimp only
      cases hRun : RaftNode.boot cluster self lastApplied (.closed files) with
      | ok node store =>
        obtain ⟨hStore, hRaft⟩ := okay_of_wp hRun hSpec
        obtain ⟨nodeStore, raft⟩ := node
        change nodeStore = _ at hStore
        subst hStore
        exact .starts state files raft hLife hState hRaft
      | fail e store => exact .idle
      | halt store => exact .idle

theorem Sound.next (h : machine.Sound) (event : HardStateEvent) : (machine.next event).Sound := by
  have hChange := h.change event
  generalize machine.next event = machine' at hChange
  cases hChange with
  | idle => exact h
  | stops old new files hOld hNew hFollows hNamed =>
    exact h.become hOld hNew hFollows hNamed fun _ hLife => by cases hLife
  | starts state files raft hLife hState hRaft =>
    have hOld : machine.life.files.recorded = .ok state := hLife ▸ hState
    refine h.become hOld hState (.refl state) (h.of_recorded hOld).2 ?_
    intro node hNode
    obtain rfl := RaftLife.running.inj hNode
    refine ⟨⟨rfl, hState⟩, ?_, fun _ => .inr hRaft⟩
    rw [← hRaft]
    exact UInt64.le_refl _
  | moves node node' candidate hLife hMoves hVote =>
    obtain ⟨hSync, hTerm, hMemory⟩ := h.running node hLife
    have hOld : machine.life.files.recorded = .ok node.store.state := hLife ▸ hSync.recorded
    have hBecome : (machine.become (.running node')).Sound := by
      refine h.become hOld hMoves.inSync.recorded hMoves.follows
        (hMoves.named (h.of_recorded hOld).2) ?_
      intro other hOther
      obtain rfl := RaftLife.running.inj hOther
      refine ⟨hMoves.inSync, ?_, ?_⟩
      · rcases hMoves.memory with hSame | ⟨hState, -⟩
        · have hCurrent : node'.raft.currentTerm = node.raft.currentTerm :=
            congrArg RaftHardState.term hSame
          rw [hCurrent]
          exact UInt64.le_trans hTerm hMoves.follows.term
        · rw [hState]
          exact UInt64.le_refl _
      · rcases hMoves.memory with hSame | ⟨hState, -⟩
        · rw [hSame]
          exact fun hSome => .inl (hMemory hSome)
        · exact fun _ => .inr hState.symm
    refine ⟨hBecome.chain, hBecome.recorded, hBecome.named, hBecome.running, ?_⟩
    intro vote hMem
    rcases mem_append.1 hMem with hMem | hMem
    · exact hBecome.answered vote hMem
    · obtain ⟨c, hc, rfl⟩ := mem_map.1 hMem
      have hVoted := hVote c (Option.mem_toList.1 hc)
      have hHard : node'.raft.hardState = ⟨node'.raft.currentTerm, some c.toString⟩ := by
        rw [RaftState.hardState, hVoted]
        rfl
      have hMem := (hBecome.running node' rfl).2.2 (by simp [hHard])
      rwa [hHard] at hMem

theorem Sound.run (h : machine.Sound) (events : List HardStateEvent) :
    (machine.run events).Sound := by
  induction events generalizing machine with
  | nil => exact h
  | cons event events ih => exact ih (h.next event)

/-- The term has come this far, in the files and in memory. -/
structure Reached (term : UInt64) (machine : HardStateMachine) : Prop where
  recorded : ∀ state, machine.life.files.recorded = .ok state → term ≤ state.term
  running : ∀ node, machine.life = .running node → term ≤ node.raft.currentTerm

theorem Reached.next (hReached : Reached term machine) (h : machine.Sound)
    (event : HardStateEvent) :
    Reached term (machine.next event) := by
  have hChange := h.change event
  generalize machine.next event = machine' at hChange
  cases hChange with
  | idle => exact hReached
  | stops old new files hOld hNew hFollows _ =>
    refine ⟨fun state hState => ?_, fun _ hLife => by cases hLife⟩
    obtain rfl : new = state := Except.ok.inj (hNew.symm.trans hState)
    exact UInt64.le_trans (hReached.recorded old hOld) hFollows.term
  | starts state files raft hLife hState hRaft =>
    have hTerm : term ≤ state.term := hReached.recorded state (hLife ▸ hState)
    refine ⟨fun other hOther => ?_, fun node hNode => ?_⟩
    · obtain rfl : state = other := Except.ok.inj (hState.symm.trans hOther)
      exact hTerm
    · obtain rfl := RaftLife.running.inj hNode
      rw [← hRaft] at hTerm
      exact hTerm
  | moves node node' candidate hLife hMoves _ =>
    obtain ⟨hSync, -⟩ := h.running node hLife
    have hOld : term ≤ node.store.state.term := hReached.recorded _ (hLife ▸ hSync.recorded)
    refine ⟨fun state hState => ?_, fun other hOther => ?_⟩
    · obtain rfl : node'.store.state = state :=
        Except.ok.inj (hMoves.inSync.recorded.symm.trans hState)
      exact UInt64.le_trans hOld hMoves.follows.term
    · obtain rfl := RaftLife.running.inj hOther
      have hCurrent := hReached.running node hLife
      rcases hMoves.memory with hSame | ⟨-, hLe⟩
      · have hEq : node'.raft.currentTerm = node.raft.currentTerm :=
          congrArg RaftHardState.term hSame
        rwa [hEq]
      · exact UInt64.le_trans hCurrent hLe

theorem Reached.run (hReached : Reached term machine) (h : machine.Sound)
    (events : List HardStateEvent) : Reached term (machine.run events) := by
  induction events generalizing machine with
  | nil => exact hReached
  | cons event events ih => exact ih (hReached.next h event) (h.next event)

/-- A new process that opens the store finds this state. -/
def ReadsBack (files : HardStateFiles) (state : RaftHardState) : Prop :=
  ∃ store, RaftHardStateStore.openStore (.closed files) = .ok () store ∧ store.state = state

/-- The node has recorded a vote for the candidate in the term, or answered with one. -/
def Voted (machine : HardStateMachine) (term : UInt64) (candidate : NodeAddress) : Prop :=
  ⟨term, some candidate.toString⟩ ∈ machine.history ∨ (term, candidate) ∈ machine.answered

theorem readsBack_of_recorded {files : HardStateFiles} (h : files.recorded = .ok state) :
    ReadsBack files state :=
  ⟨_, RaftHardStateStore.openStore_spec h, rfl⟩

theorem Sound.voted_unique (h : machine.Sound) {a b : NodeAddress} (ha : machine.Voted term a)
    (hb : machine.Voted term b) : a = b := by
  have hRecorded {c : NodeAddress} (hc : machine.Voted term c) :
      (⟨term, some c.toString⟩ : RaftHardState) ∈ machine.history :=
    hc.elim id (h.answered (term, c))
  have hChain : RaftHardState.Follows ⟨term, some a.toString⟩ ⟨term, some b.toString⟩ ∨
      RaftHardState.Follows ⟨term, some b.toString⟩ ⟨term, some a.toString⟩ := by
    have hSymm : Std.Symm fun x y : RaftHardState => x.Follows y ∨ y.Follows x :=
      ⟨fun _ _ h => h.symm⟩
    have hAll : machine.history.Pairwise fun x y => x.Follows y ∨ y.Follows x :=
      h.chain.imp fun h => .inl h
    exact hAll.forall_of_forall (fun x _ => .inl (.refl x)) (hRecorded ha) (hRecorded hb)
  have hSame := RaftHardState.Follows.vote_unique hChain rfl (by simp) (by simp)
  exact NodeAddress.toString_injective (Option.some.inj hSame)

/-- Whatever stops the processes of a node, at whatever file operation: the next process finds the
state that was persisted last or the one that was being persisted, the term never goes back, and
the node votes for one candidate in a term at most. -/
theorem hardState_survives (events : List HardStateEvent) :
    (∀ node, (fresh.run events).life = .running node → ReadsBack node.store.files node.store.state ∧
        ∀ call interruption node', RaftCall.run interruption call node = .halt node' →
          ∃ state, ReadsBack node'.store.files state ∧
            (state = node.store.state ∨ call.persisting node.raft = some state)) ∧
      (∀ later node node', (fresh.run events).life = .running node →
        ((fresh.run events).run later).life = .running node' →
          node.raft.currentTerm ≤ node'.raft.currentTerm) ∧
      ∀ term a b, (fresh.run events).Voted term a → (fresh.run events).Voted term b → a = b := by
  have hSound := sound_fresh.run events
  refine ⟨fun node hLife => ?_, fun later node node' hLife hLater => ?_,
    fun _ _ _ => hSound.voted_unique⟩
  · obtain ⟨hSync, -⟩ := hSound.running node hLife
    refine ⟨readsBack_of_recorded hSync.recorded, fun call interruption node' hHalt => ?_⟩
    rcases halt_of_wp hHalt (RaftCall.run_spec hSync interruption call) with
      hSame | ⟨new, hNew, -, hRecorded⟩
    · exact ⟨_, readsBack_of_recorded hSame, .inl rfl⟩
    · exact ⟨new, readsBack_of_recorded hRecorded, .inr hNew⟩
  · obtain ⟨hSync, hTerm, -⟩ := hSound.running node hLife
    have hReached : Reached node.raft.currentTerm (fresh.run events) := by
      refine ⟨fun state hState => ?_, fun other hOther => ?_⟩
      · rw [hLife] at hState
        obtain rfl : node.store.state = state := Except.ok.inj (hSync.recorded.symm.trans hState)
        exact hTerm
      · rw [hLife] at hOther
        obtain rfl := RaftLife.running.inj hOther
        exact UInt64.le_refl _
    exact (hReached.run hSound later).running node' hLater

/-- A campaign that crashes between the rename and the synchronization of the directory: the next
process is in the new term and refuses its vote to another candidate. -/
example :
    let self : NodeAddress := ⟨[97], 1⟩
    let other : NodeAddress := ⟨[98], 2⟩
    let start : HardStateEvent := .start [⟨self, self⟩, ⟨other, other⟩] self 0
    let machine := fresh.run [start, .call .becomeCandidate (some ⟨4, 0, true⟩), start,
      .call (.grantVote other 0 0 0 0) none]
    machine.history.getLast? = some ⟨1, some self.toString⟩ ∧ machine.answered = [] := by
  decide +kernel

end HardStateMachine

end Stoneleaf
