import Stoneleaf.Raft.RaftService

/-!
What a step of a server can do, as far as elections are concerned. A handler leaves the campaign of
its server alone or ends it, and only a follower's log changes. Votes that were given stay recorded
through every step and every crash, and memory never holds another vote of the same term.
-/

namespace Stoneleaf

open Library Program RaftNode NodeAddress

/-- The state was recorded after all given votes, and names the vote of its own term. -/
structure RaftHardState.Keeps (state : RaftHardState) (given : UInt64 → NodeAddress → Prop) :
    Prop where
  named : RaftNode.Named state
  votes : ∀ term candidate, given term candidate →
    RaftHardState.Follows ⟨term, some candidate.toString⟩ state

theorem RaftHardState.Keeps.follows {old new : RaftHardState}
    {given : UInt64 → NodeAddress → Prop} (h : old.Keeps given) (hFollows : old.Follows new)
    (hNamed : RaftNode.Named new) : new.Keeps given where
  named := hNamed
  votes := fun term candidate hGiven => (h.votes term candidate hGiven).trans hFollows

/-- The part of the state that the configuration gives. -/
structure RaftState.SameMembers (raft raft' : RaftState) : Prop where
  self : raft'.selfRaftAddress = raft.selfRaftAddress
  peers : raft'.peers = raft.peers
  clusterNodes : raft'.clusterNodes = raft.clusterNodes

namespace RaftNode

variable {node node' : RaftNode} {given : UInt64 → NodeAddress → Prop} {files : HardStateFiles}

/-- The store keeps the votes given so far, and memory knows no other vote in its term. -/
structure Upright (given : UInt64 → NodeAddress → Prop) (node : RaftNode) : Prop where
  inSync : node.store.InSync
  keeps : node.store.state.Keeps given
  memory : node.raft.hardState.Follows node.store.state
  agrees : ∀ candidate, given node.raft.currentTerm candidate →
    node.raft.votedFor ≠ none → node.raft.votedFor = some candidate

theorem Upright.moves (h : node.Upright given) (hMoves : node.Moves node') :
    node'.Upright given := by
  have hKeeps : node'.store.state.Keeps given :=
    h.keeps.follows hMoves.follows (hMoves.named h.keeps.named)
  refine ⟨hMoves.inSync, hKeeps, ?_, ?_⟩
  · rcases hMoves.memory with hSame | ⟨hState, -⟩
    · rw [hSame]
      exact h.memory.trans hMoves.follows
    · rw [hState]
      exact .refl _
  · intro candidate hGiven hSome
    rcases hMoves.memory with hSame | ⟨hState, -⟩
    · have hTerm : node'.raft.currentTerm = node.raft.currentTerm :=
        congrArg RaftHardState.term hSame
      have hVote : node'.raft.votedFor = node.raft.votedFor :=
        Option.map_injective toString_injective
          (congrArg RaftHardState.votedFor hSame)
      rw [hVote] at hSome ⊢
      exact h.agrees candidate (hTerm ▸ hGiven) hSome
    · have hFollows := hKeeps.votes _ _ hGiven
      rw [hState] at hFollows
      have hVote := hFollows.vote rfl (by simp)
      exact Option.map_injective toString_injective hVote

/-- What a step of a node does that is not part of a campaign: it steps down, or it stays in its
role with the votes that it has collected. -/
structure Advances (node node' : RaftNode) : Prop where
  inSync : node'.store.InSync
  upright : ∀ given, node.Upright given → node'.Upright given
  members : node.raft.SameMembers node'.raft
  term : node.raft.currentTerm ≤ node'.raft.currentTerm
  role : node'.raft.state = .follower ∨
    node'.raft.state = node.raft.state ∧ node'.raft.currentTerm = node.raft.currentTerm ∧
      node'.raft.votes = node.raft.votes

theorem Advances.refl (hSync : node.store.InSync) : node.Advances node :=
  ⟨hSync, fun _ h => h, ⟨rfl, rfl, rfl⟩, UInt64.le_refl _, .inr ⟨rfl, rfl, rfl⟩⟩

theorem Advances.trans {node'' : RaftNode} (h : node.Advances node')
    (h' : node'.Advances node'') : node.Advances node'' := by
  refine ⟨h'.inSync, fun given hUp => h'.upright given (h.upright given hUp), ?_,
    UInt64.le_trans h.term h'.term, ?_⟩
  · exact ⟨h'.members.self.trans h.members.self, h'.members.peers.trans h.members.peers,
      h'.members.clusterNodes.trans h.members.clusterNodes⟩
  · rcases h'.role with hDown | ⟨hState, hTerm, hVotes⟩
    · exact .inl hDown
    · rw [hState, hTerm, hVotes]
      exact h.role

/-- The call moves the hard state, and what is left of memory is as it was. -/
theorem Moves.advances (h : node.Moves node') (hRaft : node'.raft = node.raft) :
    node.Advances node' := by
  refine ⟨h.inSync, fun _ hUp => hUp.moves h, ?_, ?_, ?_⟩ <;> rw [hRaft]
  · exact ⟨rfl, rfl, rfl⟩
  · exact UInt64.le_refl _
  · exact .inr ⟨rfl, rfl, rfl⟩

/-- A process that starts from these files has every vote that the node had. -/
def Survives (node : RaftNode) (files : HardStateFiles) : Prop :=
  ∃ state, files.recorded = .ok state ∧ ∀ given, node.Upright given → state.Keeps given

theorem Leaves.survives {new : RaftHardState} (h : node.Leaves new files) (hNamed : Named new) :
    node.Survives files := by
  rcases h with hSame | ⟨hFollows, hNew⟩
  · exact ⟨_, hSame, fun _ hUp => hUp.keeps⟩
  · exact ⟨new, hNew, fun _ hUp => hUp.keeps.follows hFollows hNamed⟩

theorem Advances.survives (h : node.Advances node') : node.Survives node'.store.files :=
  ⟨_, h.inSync.recorded, fun given hUp => (h.upright given hUp).keeps⟩

theorem Survives.of_advances (h : node'.Survives files) (hAdvances : node.Advances node') :
    node.Survives files := by
  obtain ⟨state, hRecorded, hKeeps⟩ := h
  exact ⟨state, hRecorded, fun given hUp => hKeeps given (hAdvances.upright given hUp)⟩

section Calls

variable {interruption : Option Interruption}

theorem becomeFollower_advances (hSync : node.store.InSync) (newTerm : UInt64)
    (leader : Option NodeAddress) :
    (becomeFollower interruption newTerm leader).wp node
      (fun _ node' => node.Advances node' ∧ node'.raft.state = .follower ∧
        (node.raft.currentTerm ≤ newTerm → node'.raft.currentTerm = newTerm))
      (fun _ node' => node.Advances node')
      (fun node' => node.Survives node'.store.files) := by
  refine wp_mono (becomeFollower_spec hSync newTerm leader) ?_
    (fun _ _ h => h.1.advances h.2) fun _ h => h.survives ⟨none, rfl⟩
  rintro _ ⟨store, raft⟩ ⟨hMoves, ⟨hLess, hRaft⟩ | ⟨hNot, hRaft⟩⟩
  · change raft = _ at hRaft
    subst hRaft
    exact ⟨⟨hMoves.inSync, fun _ hUp => hUp.moves hMoves, ⟨rfl, rfl, rfl⟩,
      UInt64.le_of_lt hLess, .inl rfl⟩, rfl, fun _ => rfl⟩
  · change raft = _ at hRaft
    subst hRaft
    refine ⟨⟨hMoves.inSync, fun _ hUp => hUp.moves hMoves, ⟨rfl, rfl, rfl⟩,
      UInt64.le_refl _, .inl rfl⟩, rfl, fun hLe => ?_⟩
    exact UInt64.le_antisymm hLe (UInt64.not_lt.1 hNot)

theorem grantVote_advances (hSync : node.store.InSync) (candidate : NodeAddress)
    (candidateIndex candidateTerm ownIndex ownTerm : UInt64) :
    (grantVote interruption candidate candidateIndex candidateTerm ownIndex ownTerm).wp node
      (fun granted node' => node.Advances node' ∧ node'.raft.currentTerm = node.raft.currentTerm ∧
        (granted = true → node'.raft.votedFor = some candidate ∧
          LogPosition.AtMost ⟨ownTerm, ownIndex⟩ ⟨candidateTerm, candidateIndex⟩))
      (fun _ node' => node.Advances node')
      (fun node' => node.Survives node'.store.files) := by
  refine wp_mono (grantVote_spec hSync candidate candidateIndex candidateTerm ownIndex ownTerm) ?_
    (fun _ _ h => h.1.advances h.2) fun _ h => h.survives ⟨some candidate, rfl⟩
  rintro granted node' ⟨hMoves, hGranted, hRefused⟩
  cases granted with
  | false =>
    have hRaft := hRefused rfl
    exact ⟨hMoves.advances hRaft, by rw [hRaft], by simp⟩
  | true =>
    obtain ⟨hRaft, hUpToDate⟩ := hGranted rfl
    have hAdvances : node.Advances node' := by
      refine ⟨hMoves.inSync, fun _ hUp => hUp.moves hMoves, ?_, ?_, ?_⟩ <;> rw [hRaft]
      · exact ⟨rfl, rfl, rfl⟩
      · exact UInt64.le_refl _
      · exact .inr ⟨rfl, rfl, rfl⟩
    refine ⟨hAdvances, by rw [hRaft], fun _ => ⟨by rw [hRaft], ?_⟩⟩
    exact hUpToDate.imp_right fun h => ⟨h.1.symm, h.2⟩

/-- A change of memory that leaves the hard state and the campaign alone. -/
theorem Advances.of_raft {raft : RaftState} (h : node.Advances node')
    (hHard : raft.hardState = node'.raft.hardState) (hMembers : node'.raft.SameMembers raft)
    (hRole : raft.state = node'.raft.state) (hVotes : raft.votes = node'.raft.votes) :
    node.Advances ⟨node'.store, raft⟩ := by
  have hMoves : node'.Moves ⟨node'.store, raft⟩ := (Moves.refl h.inSync).of_hardState hHard
  have hTerm : raft.currentTerm = node'.raft.currentTerm := congrArg RaftHardState.term hHard
  refine h.trans ⟨hMoves.inSync, fun _ hUp => hUp.moves hMoves, hMembers, ?_,
    .inr ⟨hRole, hTerm, hVotes⟩⟩
  change _ ≤ raft.currentTerm
  rw [hTerm]
  exact UInt64.le_refl _

end Calls

end RaftNode

/-- The state of a server whose campaign has begun. -/
def RaftState.campaigning (raft : RaftState) : RaftState :=
  { raft with
    votedFor := some raft.selfRaftAddress, votes := [], leaderRaftAddress := none,
    currentTerm := raft.currentTerm + 1, state := .candidate }

namespace RaftServer

variable {server server' : RaftServer} {interruption : Option Interruption} {node : RaftNode}

/-- What a handler does to its server: the calls that are waited for stay, and the log changes
only when the server follows a leader. -/
structure Proceeds (server server' : RaftServer) : Prop where
  node : server.node.Advances server'.node
  calls : server'.calls = server.calls
  log : server'.log = server.log ∨ server'.raft.state = .follower

theorem Proceeds.refl (hSync : server.node.store.InSync) : server.Proceeds server :=
  ⟨.refl hSync, rfl, .inl rfl⟩

theorem Proceeds.of_node (h : server.node.Advances node) :
    server.Proceeds { server with node } :=
  ⟨h, rfl, .inl rfl⟩

/-- A follower that goes on: its log is its own affair. -/
theorem Proceeds.follow {log : RaftLog} (h : server.node.Advances node)
    (hState : node.raft.state = .follower) : server.Proceeds { server with node, log } :=
  ⟨h, rfl, .inr hState⟩

/-- A server that has not stepped down is where it was. -/
theorem Proceeds.same (h : server.Proceeds server') (hState : server'.raft.state ≠ .follower) :
    server'.raft.state = server.raft.state ∧
      server'.raft.currentTerm = server.raft.currentTerm ∧
        server'.raft.votes = server.raft.votes ∧ server'.log = server.log := by
  obtain ⟨hRole, hTerm, hVotes⟩ := h.node.role.resolve_left hState
  exact ⟨hRole, hTerm, hVotes, h.log.resolve_right hState⟩

/-- A handler at work on a server: whatever it returns, it proceeds when it fails, and when it stops
the server survives. -/
abbrev Handles {α : Type} (server : RaftServer) (x : ServerOp α) (start : RaftServer)
    (okay : α → RaftServer → Prop) : Prop :=
  x.wp start okay (fun _ server' => server.Proceeds server')
    fun server' => server.node.Survives server'.node.store.files

section RequestVote

variable {first second : Option Interruption}

/-- The server has given its vote to the sender of the request. -/
structure Grants (server server' : RaftServer) (candidate : NodeAddress)
    (request : RequestVoteRequest) : Prop where
  term : server'.raft.currentTerm = request.term
  vote : server'.raft.votedFor = some candidate
  position : server.log.position.AtMost request.position

theorem considerVote_spec (hSync : server.node.store.InSync) (candidate : NodeAddress)
    (request : RequestVoteRequest) (hTerm : ¬request.term < server.raft.currentTerm) :
    server.Handles (considerVote first second candidate request) server fun response server' =>
      server.Proceeds server' ∧
        (response.voteGranted = true → server.Grants server' candidate request) := by
  -- The vote itself, from wherever the first part has left the node.
  have hVote {node : RaftNode} (hAdvances : server.node.Advances node)
      (hCurrent : node.raft.currentTerm = request.term) :
      server.Handles (do
        let log ← read RaftServer.log
        let granted ← onNode (RaftNode.grantVote second candidate request.lastLogIdx
          request.lastLogTerm (.ofNat log.lastIndex) log.lastTerm)
        return (⟨(← read raft).currentTerm, granted⟩ : RequestVoteResponse)) { server with node }
        fun response server' => server.Proceeds server' ∧
          (response.voteGranted = true → server.Grants server' candidate request) := by
    simp only [wp_bind, wp_read, onNode, wp_zoom, wp_pure]
    refine wp_mono (grantVote_advances hAdvances.inSync candidate _ _ _ _) ?_
      (fun _ _ h => .of_node (hAdvances.trans h)) ?_
    · rintro granted node' ⟨hNext, hSame, hGranted⟩
      refine ⟨.of_node (hAdvances.trans hNext), fun hTrue => ?_⟩
      obtain ⟨hVoted, hPosition⟩ := hGranted hTrue
      exact ⟨hSame.trans hCurrent, hVoted, hPosition⟩
    · exact fun node' h => h.of_advances hAdvances
  unfold considerVote
  simp only [wp_bind, wp_read, wp_ite]
  refine ⟨fun hHigher => ?_, fun hNot => ?_⟩
  · rw [onNode, wp_zoom]
    refine wp_weaken (becomeFollower_advances hSync request.term none) ?_
      (fun _ _ h => .of_node h)
    rintro _ node ⟨hAdvances, -, hTo⟩
    have hRest := hVote hAdvances (hTo (UInt64.le_of_lt hHigher))
    simpa only [wp_bind, wp_read] using hRest
  · have hSame : server.raft.currentTerm = request.term :=
      UInt64.le_antisymm (UInt64.not_lt.1 hTerm) (UInt64.not_lt.1 hNot)
    have hRest := hVote (.refl hSync) hSame
    simpa only [wp_bind, wp_read] using hRest

theorem requestVote_spec (hSync : server.node.store.InSync) (request : RequestVoteRequest) :
    server.Handles (requestVote first second request) server fun reply server' =>
      server.Proceeds server' ∧
        ∀ response, reply = .ok response → response.voteGranted = true →
          ∃ candidate, fromString request.candidate = .ok candidate ∧
            server.Grants server' candidate request := by
  unfold requestVote
  cases hParse : fromString request.candidate with
  | error e => exact ⟨.refl hSync, by simp⟩
  | ok candidate =>
    simp only [wp_bind, wp_read, wp_ite, wp_pure]
    refine ⟨fun _ => ⟨.refl hSync, by simp⟩, fun _ => ⟨fun _ => ⟨.refl hSync, ?_⟩, fun hTerm => ?_⟩⟩
    · rintro response hResponse hGranted
      obtain rfl := Except.ok.inj hResponse
      cases hGranted
    · refine wp_conseq (considerVote_spec hSync candidate request hTerm) ?_
      rintro response server' ⟨hProceeds, hGrants⟩
      refine ⟨hProceeds, fun other hOther hGranted => ?_⟩
      obtain rfl := Except.ok.inj hOther
      exact ⟨candidate, rfl, hGrants hGranted⟩

end RequestVote

section AppendEntries

theorem followLeader_advances (hSync : node.store.InSync) (term : UInt64) (leader : NodeAddress) :
    (followLeader interruption term leader).wp node
      (fun _ node' => node.Advances node' ∧ node'.raft.state = .follower)
      (fun _ node' => node.Advances node')
      (fun node' => node.Survives node'.store.files) := by
  unfold followLeader
  simp only [wp_bind, wp_read, wp_ite]
  refine ⟨fun _ => ?_, fun hSame => ?_⟩
  · exact wp_conseq (becomeFollower_advances hSync term (some leader))
      fun _ _ h => ⟨h.1, h.2.1⟩
  · have hState : node.raft.state = .follower := by
      by_contra hOther
      exact hSame (.inr hOther)
    have hAdvances : node.Advances
        ⟨node.store, { node.raft with leaderRaftAddress := some leader }⟩ :=
      (RaftNode.Advances.refl hSync).of_raft rfl ⟨rfl, rfl, rfl⟩ rfl rfl
    exact ⟨hAdvances, hState⟩

/-- Whatever happens to the log of a follower, it goes on as a follower. -/
theorem wp_onLog {α : Type} {log : RaftLog} {okay : α → RaftServer → Prop} (x : RaftOp α)
    (h : server.node.Advances node) (hState : node.raft.state = .follower)
    (hOkay : ∀ a log, okay a { server with node, log }) :
    server.Handles (onLog x) { server with node, log } okay := by
  rw [Handles, onLog, wp_zoom]
  exact wp_mono (wp_true x log) (fun a log _ => hOkay a log) (fun _ _ _ => .follow h hState)
    fun _ _ => h.survives

theorem advanceCommit_eq (leaderCommit lastNew : UInt64) (raft : RaftState) :
    ∃ commitIndex, advanceCommit leaderCommit lastNew raft = { raft with commitIndex } := by
  unfold advanceCommit
  dsimp only
  split
  · exact ⟨_, rfl⟩
  · exact ⟨raft.commitIndex, rfl⟩

/-- From here on the server is a follower, and only the log and the commit index change. -/
theorem replicate_spec (h : server.node.Advances node) (hState : node.raft.state = .follower)
    (request : AppendEntriesRequest) (entries : List RaftMutationEntry) :
    server.Handles (replicate request entries) { server with node }
      fun _ server' => server.Proceeds server' := by
  unfold replicate
  rw [Handles, wp_bind]
  refine wp_onLog _ h hState fun matched log => ?_
  simp only [wp_bind, wp_ite, wp_read, wp_pure]
  refine ⟨fun _ => wp_onLog _ h hState fun _ log => ?_, fun _ => .follow h hState⟩
  simp only [onNode, wp_zoom, RaftNode.updateRaft, wp_modify]
  obtain ⟨commitIndex, hCommit⟩ := advanceCommit_eq request.leaderCommitIdx
    (lastNewIndex request.prevLogIdx entries) node.raft
  rw [hCommit]
  exact .follow (h.of_raft rfl ⟨rfl, rfl, rfl⟩ rfl rfl) hState

theorem appendEntries_spec (hSync : server.node.store.InSync) (request : AppendEntriesRequest) :
    server.Handles (appendEntries interruption request) server
      fun _ server' => server.Proceeds server' := by
  unfold appendEntries
  cases fromString request.leader with
  | error e => exact .refl hSync
  | ok leader =>
    cases request.entries.mapM RaftProtoCodec.entryFromProto with
    | error e => exact .refl hSync
    | ok entries =>
      simp only [wp_bind, wp_read, wp_ite, wp_pure, acceptEntries]
      refine ⟨fun _ => .refl hSync, fun _ => ⟨fun _ => .refl hSync, fun _ => ?_⟩⟩
      rw [onNode, wp_zoom]
      refine wp_weaken (followLeader_advances hSync request.term leader) ?_
        (fun _ _ h => .of_node h)
      rintro _ node ⟨hAdvances, hState⟩
      exact replicate_spec hAdvances hState request entries

end AppendEntries

section Campaign

/-- The server has begun a campaign, or has won it at once as the only member. -/
structure Campaigns (server server' : RaftServer) (calls : List VoteCall) : Prop where
  inSync : server'.node.store.InSync
  upright : ∀ given, server.node.Upright given → server'.node.Upright given
  notLeader : server.raft.state ≠ .leader
  term : server.raft.currentTerm < server.raft.currentTerm + 1
  log : server'.log = server.log
  waiting : server'.calls = server.calls ++ calls
  begun : server'.raft = server.raft.campaigning ∧
      calls = voteCalls server.raft.campaigning server.log ∨
    server'.raft = server.raft.campaigning.becomeLeader (.ofNat server.log.lastIndex) ∧
      calls = [] ∧ server.raft.clusterSize / 2 + 1 ≤ 1

variable {calls : List VoteCall}

/-- Won or not, the server is in a new term and has voted for itself. -/
theorem Campaigns.raft (h : server.Campaigns server' calls) :
    server.raft.SameMembers server'.raft ∧
      server'.raft.currentTerm = server.raft.currentTerm + 1 ∧
        server'.raft.votedFor = some server.raft.selfRaftAddress ∧ server'.raft.votes = [] := by
  rcases h.begun with ⟨hRaft, -⟩ | ⟨hRaft, -⟩
  · rw [hRaft]
    exact ⟨⟨rfl, rfl, rfl⟩, rfl, rfl, rfl⟩
  · rw [hRaft]
    exact ⟨⟨rfl, rfl, rfl⟩, rfl, rfl, rfl⟩

/-- The requests of a campaign name its term and the end of its log. -/
theorem Campaigns.mem_calls (h : server.Campaigns server' calls) {call : VoteCall}
    (hMem : call ∈ calls) :
    call.candidate = server.raft.selfRaftAddress ∧ call.peer ∈ server.raft.peers ∧
      call.request.term = server.raft.currentTerm + 1 ∧
        call.request.candidate = call.candidate.toString ∧
          call.request.position = server.log.position := by
  rcases h.begun with ⟨-, hCalls⟩ | ⟨-, hCalls, -⟩
  · rw [hCalls] at hMem
    obtain ⟨peer, hPeer, rfl⟩ := List.mem_map.1 hMem
    exact ⟨rfl, hPeer, rfl, rfl, rfl⟩
  · rw [hCalls] at hMem
    cases hMem

theorem campaign_spec (hSync : server.node.store.InSync) :
    server.Handles (campaign interruption) server fun calls server' =>
      calls = [] ∧ server' = server ∨ server.Campaigns server' calls := by
  unfold campaign
  simp only [wp_bind, wp_read, wp_ite, wp_pure, id]
  refine ⟨fun _ => .inl ⟨trivial, trivial⟩, fun hStart => ?_⟩
  have hNotLeader : server.raft.state ≠ .leader := fun hState => hStart (.inr hState)
  rw [onNode, wp_zoom]
  refine wp_mono (becomeCandidate_spec hSync) ?_
    (fun _ _ h => .of_node (h.1.advances h.2))
    fun _ h => h.survives ⟨some server.raft.selfRaftAddress, rfl⟩
  rintro _ ⟨store, raft⟩ ⟨hMoves, hLess, hRaft, -⟩
  change raft = server.raft.campaigning at hRaft
  subst hRaft
  refine ⟨fun hSolo => ?_, fun _ => ?_⟩
  · have hLeads : server.node.Moves
        ⟨store, server.raft.campaigning.becomeLeader (.ofNat server.log.lastIndex)⟩ :=
      hMoves.of_hardState rfl
    exact .inr ⟨hLeads.inSync, fun _ hUp => hUp.moves hLeads, hNotLeader, hLess, rfl,
      (List.append_nil _).symm, .inr ⟨rfl, rfl, hSolo⟩⟩
  · exact .inr ⟨hMoves.inSync, fun _ hUp => hUp.moves hMoves, hNotLeader, hLess, rfl, rfl,
      .inl ⟨rfl, rfl⟩⟩

/-- The vote of a peer was counted. -/
structure Counts (server server' : RaftServer) (call : VoteCall) : Prop where
  inSync : server'.node.store.InSync
  upright : ∀ given, server.node.Upright given → server'.node.Upright given
  log : server'.log = server.log
  calls : server'.calls = server.calls
  candidate : server.raft.state = .candidate
  term : call.request.term = server.raft.currentTerm
  counted : server'.raft = (server.raft.recordVote call.peer).2 ∨
    server'.raft = (server.raft.recordVote call.peer).2.becomeLeader (.ofNat server.log.lastIndex) ∧
      (server.raft.recordVote call.peer).1 = true

theorem countVote_spec (hSync : server.node.store.InSync) (call : VoteCall)
    (response : RequestVoteResponse) :
    (countVote interruption call response).wp server
      (fun _ server' => server.Proceeds server' ∨
        response.voteGranted = true ∧ server.Counts server' call)
      (fun _ server' => server.node.Survives server'.node.store.files)
      (fun server' => server.node.Survives server'.node.store.files) := by
  unfold countVote
  simp only [wp_bind, wp_read, wp_ite, wp_pure]
  refine ⟨fun _ => ?_, fun _ => ⟨fun _ => .inl (.refl hSync), fun hCurrent =>
    ⟨fun _ => .inl (.refl hSync), fun hGranted => ?_⟩⟩⟩
  · rw [onNode, wp_zoom]
    exact wp_weaken (becomeFollower_advances hSync response.term none)
      (fun _ _ h => .inl (.of_node h.1)) (fun _ _ h => h.survives)
  · obtain ⟨hTerm, hState⟩ := not_or.1 hCurrent
    have hMoves {raft : RaftState} (hHard : raft.hardState = server.raft.hardState) :
        server.node.Moves ⟨server.node.store, raft⟩ :=
      (RaftNode.Moves.refl hSync).of_hardState hHard
    have hYes : response.voteGranted = true := by simpa using hGranted
    simp only [onNode, wp_zoom, RaftNode.updateRaft, wp_modify]
    refine ⟨fun hMajority => .inr ⟨hYes, ?_⟩, fun _ => .inr ⟨hYes, ?_⟩⟩
    · exact ⟨hSync, fun _ hUp => hUp.moves (hMoves rfl), rfl, rfl, not_not.1 hState,
        not_not.1 hTerm, .inr ⟨rfl, hMajority⟩⟩
    · exact ⟨hSync, fun _ hUp => hUp.moves (hMoves rfl), rfl, rfl, not_not.1 hState,
        not_not.1 hTerm, .inl rfl⟩

end Campaign

end RaftServer

end Stoneleaf
