import Mathlib.Data.Finset.Card
import Mathlib.Data.List.Dedup
import Stoneleaf.Log.LogLoss
import Stoneleaf.Raft.Cluster

/-!
Elections in a cluster. A candidate's log does not change while it is a candidate, since entries
are only accepted by followers, and a campaign always has a term of its own. The votes that a
candidate has counted are therefore votes for the log that it wins with. That a server votes once
in a term rests on its hard state, which keeps every vote through crashes.
-/

namespace Stoneleaf

open Library Program List RaftServer RaftState NodeAddress

section Membership

/-- What the constructor makes of the configuration. -/
structure RaftState.Joined (members : List ClusterMember) (raft : RaftState) : Prop where
  size : raft.clusterSize = (members.map ClusterMember.raft).dedup.length
  self : raft.selfRaftAddress ∈ members.map ClusterMember.raft
  peers : ∀ peer ∈ raft.peers, peer ∈ members.map ClusterMember.raft
  notSelf : raft.selfRaftAddress ∉ raft.peers

/-- What is known after some rows. -/
structure Membership.Sound (rows : List ClusterMember) (seen : Membership) : Prop where
  nodup : (seen.clusterNodes.map Prod.fst).Nodup
  mem : ∀ address, address ∈ seen.clusterNodes.map Prod.fst ↔
    address ∈ rows.map ClusterMember.raft
  peers : ∀ peer ∈ seen.peers, peer ∈ seen.clusterNodes.map Prod.fst
  self : ∀ self, seen.self = some self →
    self ∈ seen.clusterNodes.map Prod.fst ∧ self ∉ seen.peers

theorem Membership.Sound.add {rows : List ClusterMember} {seen : Membership}
    (h : seen.Sound rows) (self : NodeAddress) (member : ClusterMember) :
    (Membership.add self seen member).Sound (rows ++ [member]) := by
  have hMem (address : NodeAddress) : address ∈ (rows ++ [member]).map ClusterMember.raft ↔
      address ∈ seen.clusterNodes.map Prod.fst ∨ address = member.raft := by
    rw [map_append, mem_append, ← h.mem]
    simp
  unfold Membership.add
  split
  next hSeen =>
    refine ⟨h.nodup, fun address => ?_, h.peers, h.self⟩
    rw [hMem]
    exact ⟨.inl, fun hOr => hOr.elim id fun hEq => hEq ▸ hSeen⟩
  next hNew =>
    have hNodup : ((seen.clusterNodes ++ [(member.raft, member.databaseServer)]).map
        Prod.fst).Nodup := by
      rw [map_append]
      exact h.nodup.append (nodup_singleton _) (by simpa using hNew)
    have hKeys (address : NodeAddress) :
        address ∈ (seen.clusterNodes ++ [(member.raft, member.databaseServer)]).map Prod.fst ↔
          address ∈ seen.clusterNodes.map Prod.fst ∨ address = member.raft := by
      simp [map_append]
    split
    · refine ⟨hNodup, fun address => by rw [hMem, hKeys], ?_, ?_⟩
      · exact fun peer hPeer => (hKeys peer).2 (.inl (h.peers peer hPeer))
      · intro address hAddress
        obtain rfl := Option.some.inj hAddress
        exact ⟨(hKeys _).2 (.inr rfl), fun hPeer => hNew (h.peers _ hPeer)⟩
    · refine ⟨hNodup, fun address => by rw [hMem, hKeys], ?_, ?_⟩
      · intro peer hPeer
        rcases mem_append.1 hPeer with hOld | hLast
        · exact (hKeys peer).2 (.inl (h.peers peer hOld))
        · exact (hKeys peer).2 (.inr (mem_singleton.1 hLast))
      · intro address hAddress
        obtain ⟨hNode, hNotPeer⟩ := h.self address hAddress
        refine ⟨(hKeys address).2 (.inl hNode), fun hPeer => ?_⟩
        rcases mem_append.1 hPeer with hOld | hLast
        · exact hNotPeer hOld
        · exact hNew (mem_singleton.1 hLast ▸ hNode)

theorem Membership.sound_foldl (self : NodeAddress) (members : List ClusterMember) :
    (members.foldl (Membership.add self) .empty).Sound members := by
  induction members using List.reverseRecOn with
  | nil => exact ⟨nodup_nil, by simp [Membership.empty], by simp [Membership.empty],
      by simp [Membership.empty]⟩
  | append_singleton rows member ih =>
    rw [foldl_append]
    exact ih.add self member

theorem RaftState.create_joined {members : List ClusterMember} {self : NodeAddress}
    {hardState : RaftHardState} {lastApplied : UInt64} {raft : RaftState}
    (h : create members self hardState lastApplied = .ok raft) :
    raft.Joined members ∧ raft.state = .follower := by
  have hSound := Membership.sound_foldl self members
  unfold create at h
  dsimp only at h
  split at h
  · cases h
  next address hSelf =>
    cases hRead : hardState.votedFor.mapM fromString with
    | error e =>
      rw [hRead] at h
      cases h
    | ok vote =>
      rw [hRead] at h
      obtain rfl := Except.ok.inj h
      obtain ⟨hNode, hNotPeer⟩ := hSound.self address hSelf
      refine ⟨⟨?_, (hSound.mem _).1 hNode, ?_, hNotPeer⟩, rfl⟩
      · rw [clusterSize, ← length_map (f := Prod.fst),
          ← toFinset_card_of_nodup hSound.nodup, ← toFinset_card_of_nodup (nodup_dedup _)]
        congr 1
        ext address
        simp only [mem_toFinset, mem_dedup]
        exact hSound.mem address
      · exact fun peer hPeer => (hSound.mem peer).1 (hSound.peers peer hPeer)

end Membership

/-- The voter has given its vote, when its log was not ahead of the given position. -/
def Supports (grants : List VoteGrant) (voter candidate : NodeAddress) (term : UInt64)
    (position : LogPosition) : Prop :=
  ∃ grant ∈ grants, grant.voter = voter ∧ grant.candidate = candidate ∧ grant.term = term ∧
    grant.position.AtMost position

/-- A majority of the members has voted for the leader in its term, and each of them had a log by
then that was not ahead of the one the leader has won with. -/
def Election.Won (members : List ClusterMember) (election : Election) : Prop :=
  ∃ voters : List NodeAddress, voters.Nodup ∧
    (∀ voter ∈ voters, voter ∈ members.map ClusterMember.raft) ∧
      (members.map ClusterMember.raft).dedup.length < 2 * voters.length ∧
        ∀ voter ∈ voters, Supports election.granted voter election.leader election.term
          election.position

variable {grants : List VoteGrant}

theorem Supports.append {voter candidate : NodeAddress} {term : UInt64} {position : LogPosition}
    (h : Supports grants voter candidate term position) (more : List VoteGrant) :
    Supports (grants ++ more) voter candidate term position := by
  obtain ⟨grant, hMem, hRest⟩ := h
  exact ⟨grant, mem_append_left _ hMem, hRest⟩

namespace RaftCluster

variable {members : List ClusterMember} {cluster : RaftCluster} {address : NodeAddress}
  {server server' : RaftServer} {life : ServerLife} {grants more : List VoteGrant}
  {elections : List Election}

/-- The votes of one server. -/
def Given (grants : List VoteGrant) (voter : NodeAddress) (term : UInt64)
    (candidate : NodeAddress) : Prop :=
  ∃ grant ∈ grants, grant.voter = voter ∧ grant.term = term ∧ grant.candidate = candidate

/-- A campaign that is under way: the votes that were counted are for the candidate's log. -/
structure Campaigning (grants : List VoteGrant) (server : RaftServer) : Prop where
  nodup : server.raft.votes.Nodup
  peers : ∀ voter ∈ server.raft.votes, voter ∈ server.raft.peers
  votes : ∀ voter ∈ server.raft.selfRaftAddress :: server.raft.votes,
    Supports grants voter server.raft.selfRaftAddress server.raft.currentTerm server.log.position
  calls : ∀ call ∈ server.calls, call.request.term = server.raft.currentTerm →
    call.request.position = server.log.position

/-- What holds of a running server. -/
structure Serves (members : List ClusterMember) (grants : List VoteGrant)
    (elections : List Election) (address : NodeAddress) (server : RaftServer) : Prop where
  upright : server.node.Upright (Given grants address)
  self : server.raft.selfRaftAddress = address
  joined : server.raft.Joined members
  calls : ∀ call ∈ server.calls, call.candidate = address ∧ call.peer ∈ server.raft.peers ∧
    call.request.term ≤ server.raft.currentTerm
  candidate : server.raft.state = .candidate → Campaigning grants server
  leader : server.raft.state = .leader → ∃ election ∈ elections, election.leader = address ∧
    election.term = server.raft.currentTerm ∧ election.position = server.log.position

/-- What holds of a server, running or not. -/
def Lives (members : List ClusterMember) (grants : List VoteGrant) (elections : List Election)
    (address : NodeAddress) : ServerLife → Prop
  | .running server => Serves members grants elections address server
  | .down files => ∃ state, files.recorded = .ok state ∧ state.Keeps (Given grants address)

/-- An answer with a vote stands for a vote that was given. -/
def Backed (grants : List VoteGrant) (reply : VoteReply) : Prop :=
  reply.response.voteGranted = true → Supports grants reply.call.peer reply.call.candidate
    reply.call.request.term reply.call.request.position

/-- What holds of a cluster in every state that it reaches. -/
structure Lawful (members : List ClusterMember) (cluster : RaftCluster) : Prop where
  lives : ∀ address, Lives members cluster.grants cluster.elections address (cluster.lives address)
  sent : ∀ call ∈ cluster.sent, call.request.candidate = call.candidate.toString
  replies : ∀ reply ∈ cluster.replies, Backed cluster.grants reply
  unique : ∀ grant ∈ cluster.grants, ∀ other ∈ cluster.grants, grant.voter = other.voter →
    grant.term = other.term → grant.candidate = other.candidate
  elections : ∀ election ∈ cluster.elections, election.Won members ∧
    election.granted ⊆ cluster.grants

theorem given_append_of_ne {voter : NodeAddress} (h : ∀ grant ∈ more, grant.voter ≠ voter) :
    Given (grants ++ more) voter = Given grants voter := by
  funext term candidate
  refine propext ⟨?_, ?_⟩
  · rintro ⟨grant, hMem, hVoter, hRest⟩
    rcases mem_append.1 hMem with hOld | hNew
    · exact ⟨grant, hOld, hVoter, hRest⟩
    · exact absurd hVoter (h grant hNew)
  · rintro ⟨grant, hMem, hRest⟩
    exact ⟨grant, mem_append_left _ hMem, hRest⟩

theorem Campaigning.append (h : Campaigning grants server) (more : List VoteGrant) :
    Campaigning (grants ++ more) server :=
  ⟨h.nodup, h.peers, fun voter hVoter => (h.votes voter hVoter).append more, h.calls⟩

/-- What others do does not concern a server. -/
theorem Lives.append (h : Lives members grants elections address life)
    (hMore : ∀ grant ∈ more, grant.voter ≠ address) (later : List Election) :
    Lives members (grants ++ more) (elections ++ later) address life := by
  have hGiven : Given (grants ++ more) address = Given grants address := given_append_of_ne hMore
  cases life with
  | down files =>
    obtain ⟨state, hRecorded, hKeeps⟩ := h
    exact ⟨state, hRecorded, hGiven ▸ hKeeps⟩
  | running server =>
    refine ⟨hGiven ▸ h.upright, h.self, h.joined, h.calls, fun hState => ?_, fun hState => ?_⟩
    · exact (h.candidate hState).append more
    · obtain ⟨election, hMem, hRest⟩ := h.leader hState
      exact ⟨election, mem_append_left _ hMem, hRest⟩

/-- A step of one server keeps the cluster lawful if it leaves that server as it should be, and
everything that the step adds is in order. -/
theorem Lawful.record (h : Lawful members cluster) {sent : List VoteCall} {replies : List VoteReply}
    (hLife : Lives members (cluster.grants ++ grants) (cluster.elections ++ elections) address life)
    (hSent : ∀ call ∈ sent, call.request.candidate = call.candidate.toString)
    (hReplies : ∀ reply ∈ replies, Backed (cluster.grants ++ grants) reply)
    (hGrants : ∀ grant ∈ grants, grant.voter = address ∧
      ∀ other ∈ cluster.grants ++ grants, other.voter = address → grant.term = other.term →
        grant.candidate = other.candidate)
    (hElections : ∀ election ∈ elections, election.Won members ∧
      election.granted ⊆ cluster.grants ++ grants) :
    Lawful members (cluster.record address life sent replies grants elections) where
  lives := by
    intro other
    by_cases hOther : other = address
    · subst hOther
      simpa only [RaftCluster.record, Function.update_self] using hLife
    · have hNot : ∀ grant ∈ grants, grant.voter ≠ other :=
        fun grant hMem hVoter => hOther (hVoter ▸ (hGrants grant hMem).1)
      have hLives := (h.lives other).append hNot elections
      simpa only [RaftCluster.record, Function.update_of_ne hOther] using hLives
  sent := fun call hMem => (mem_append.1 hMem).elim (h.sent call) (hSent call)
  replies := by
    intro reply hMem
    rcases mem_append.1 hMem with hOld | hNew
    · exact fun hGranted => (h.replies reply hOld hGranted).append grants
    · exact hReplies reply hNew
  unique := by
    intro grant hGrant other hOther hVoter hTerm
    rcases mem_append.1 hGrant with hOld | hNew
    · rcases mem_append.1 hOther with hOld' | hNew'
      · exact h.unique grant hOld other hOld' hVoter hTerm
      · have hRest := hGrants other hNew'
        exact (hRest.2 grant hGrant (hVoter.trans hRest.1) hTerm.symm).symm
    · have hRest := hGrants grant hNew
      exact hRest.2 other hOther (hVoter ▸ hRest.1) hTerm
  elections := by
    intro election hMem
    rcases mem_append.1 hMem with hOld | hNew
    · obtain ⟨hWon, hSub⟩ := h.elections election hOld
      exact ⟨hWon, fun _ hGrant => mem_append_left _ (hSub hGrant)⟩
    · exact hElections election hNew

theorem Lawful.become (h : Lawful members cluster)
    (hLife : Lives members cluster.grants cluster.elections address life) :
    Lawful members (cluster.become address life) :=
  h.record (by simpa using hLife) (by simp) (by simp) (by simp) (by simp)

section Votes

variable {node : RaftNode} {grants : List VoteGrant} {candidate : NodeAddress}
  {position : LogPosition}

variable (h : node.Upright (Given grants address)) (hVote : node.raft.votedFor = some candidate)
include h hVote

/-- A vote that is in memory already can be given: no other was given in the term. -/
theorem grant_unique :
    ∀ grant ∈ grants, grant.voter = address → node.raft.currentTerm = grant.term →
      candidate = grant.candidate := by
  intro grant hMem hVoter hTerm
  have hSame := h.agrees grant.candidate ⟨grant, hMem, hVoter, hTerm.symm, rfl⟩ (by simp [hVote])
  exact Option.some.inj (hVote.symm.trans hSame)

theorem upright_grant :
    node.Upright (Given (grants ++ [⟨address, candidate, node.raft.currentTerm, position⟩])
      address) := by
  have hCases {term : UInt64} {other : NodeAddress}
      (hGiven : Given (grants ++ [⟨address, candidate, node.raft.currentTerm, position⟩]) address
        term other) : Given grants address term other ∨
          term = node.raft.currentTerm ∧ other = candidate := by
    obtain ⟨grant, hMem, hVoter, hTerm, hCandidate⟩ := hGiven
    rcases mem_append.1 hMem with hOld | hNew
    · exact .inl ⟨grant, hOld, hVoter, hTerm, hCandidate⟩
    · obtain rfl := mem_singleton.1 hNew
      exact .inr ⟨hTerm.symm, hCandidate.symm⟩
  have hHard : node.raft.hardState = ⟨node.raft.currentTerm, some candidate.toString⟩ := by
    rw [hardState, hVote]
    rfl
  refine ⟨h.inSync, ⟨h.keeps.named, ?_⟩, h.memory, ?_⟩
  · intro term other hGiven
    rcases hCases hGiven with hOld | ⟨rfl, rfl⟩
    · exact h.keeps.votes term other hOld
    · exact hHard ▸ h.memory
  · intro other hGiven hSome
    rcases hCases hGiven with hOld | ⟨-, rfl⟩
    · exact h.agrees other hOld hSome
    · exact hVote

end Votes

section Steps

variable {grants : List VoteGrant} {elections : List Election} {reply : VoteReply}

theorem joined_of_sameMembers {raft raft' : RaftState} (h : raft.Joined members)
    (hSame : raft.SameMembers raft') : raft'.Joined members := by
  refine ⟨?_, ?_, ?_, ?_⟩
  · rw [clusterSize, hSame.clusterNodes]
    exact h.size
  · rw [hSame.self]
    exact h.self
  · rw [hSame.peers]
    exact h.peers
  · rw [hSame.self, hSame.peers]
    exact h.notSelf

section

variable (h : Serves members grants elections address server)
include h

/-- A handler keeps a server in order. -/
theorem Serves.proceeds (hProceeds : server.Proceeds server') :
    Serves members grants elections address server' := by
  have hNode := hProceeds.node
  have hSelf : server'.raft.selfRaftAddress = server.raft.selfRaftAddress := hNode.members.self
  have hPeers : server'.raft.peers = server.raft.peers := hNode.members.peers
  refine ⟨hNode.upright _ h.upright, hSelf.trans h.self, joined_of_sameMembers h.joined
    hNode.members, ?_, fun hState => ?_, fun hState => ?_⟩
  · intro call hMem
    rw [hProceeds.calls] at hMem
    obtain ⟨hCandidate, hPeer, hTerm⟩ := h.calls call hMem
    exact ⟨hCandidate, hPeers ▸ hPeer, UInt64.le_trans hTerm hNode.term⟩
  · obtain ⟨hSame, hTerm, hVotes, hLog⟩ := hProceeds.same (by simp [hState])
    have hOld := h.candidate (hSame ▸ hState)
    refine ⟨?_, ?_, ?_, ?_⟩
    · rw [hVotes]
      exact hOld.nodup
    · rw [hVotes, hPeers]
      exact hOld.peers
    · rw [hVotes, hSelf, hTerm, hLog]
      exact hOld.votes
    · rw [hProceeds.calls, hTerm, hLog]
      exact hOld.calls
  · obtain ⟨hSame, hTerm, -, hLog⟩ := hProceeds.same (by simp [hState])
    rw [hTerm, hLog]
    exact h.leader (hSame ▸ hState)

/-- The files of a server that ends are in order. -/
theorem Serves.ends {files : HardStateFiles} (hSurvives : server.node.Survives files) :
    Lives members grants elections address (.down files) := by
  obtain ⟨state, hRecorded, hKeeps⟩ := hSurvives
  exact ⟨state, hRecorded, hKeeps _ h.upright⟩

/-- A server that has begun a campaign has its own vote, and no other one yet. -/
theorem Serves.campaigns {calls : List VoteCall} (hCampaigns : server.Campaigns server' calls)
    {elections' : List Election}
    (hLeader : server'.raft.state = .leader → ∃ election ∈ elections', election.leader = address ∧
      election.term = server'.raft.currentTerm ∧ election.position = server'.log.position) :
    Serves members (grants ++ [⟨address, address, server'.raft.currentTerm, server.log.position⟩])
      elections' address server' := by
  obtain ⟨hSame, hTerm, hVoted, hVotes⟩ := hCampaigns.raft
  have hSelf : server'.raft.selfRaftAddress = address := hSame.self.trans h.self
  rw [h.self] at hVoted
  -- Calls of earlier campaigns have earlier terms.
  have hWaiting : ∀ call ∈ server'.calls, (call.candidate = address ∧
      call.peer ∈ server.raft.peers) ∧ (call.request.term < server'.raft.currentTerm ∨
        call.request.term = server'.raft.currentTerm ∧
          call.request.position = server'.log.position) := by
    intro call hMem
    rw [hCampaigns.waiting] at hMem
    rw [hTerm, hCampaigns.log]
    rcases mem_append.1 hMem with hOld | hNew
    · obtain ⟨hCandidate, hPeer, hLe⟩ := h.calls call hOld
      exact ⟨⟨hCandidate, hPeer⟩, .inl (UInt64.lt_of_le_of_lt hLe hCampaigns.term)⟩
    · obtain ⟨hCandidate, hPeer, hOwn, -, hPosition⟩ := hCampaigns.mem_calls hNew
      exact ⟨⟨hCandidate.trans h.self, hPeer⟩, .inr ⟨hOwn, hPosition⟩⟩
  refine ⟨upright_grant (hCampaigns.upright _ h.upright) hVoted, hSelf,
    joined_of_sameMembers h.joined hSame, ?_, fun _ => ?_, hLeader⟩
  · intro call hMem
    obtain ⟨⟨hCandidate, hPeer⟩, hRest⟩ := hWaiting call hMem
    refine ⟨hCandidate, hSame.peers ▸ hPeer, ?_⟩
    exact hRest.elim UInt64.le_of_lt fun hEq => UInt64.le_of_eq hEq.1
  · refine ⟨by simp [hVotes], by simp [hVotes], ?_, ?_⟩
    · intro voter hVoter
      rw [hVotes, mem_singleton, hSelf] at hVoter
      subst hVoter
      rw [hSelf, hCampaigns.log]
      exact ⟨_, mem_append_right _ (mem_singleton_self _), rfl, rfl, rfl, .refl _⟩
    · intro call hMem hOwn
      obtain ⟨-, hLess | hEq⟩ := hWaiting call hMem
      · exact absurd hOwn (UInt64.ne_of_lt hLess)
      · exact hEq.2

end

theorem Lawful.serves (h : Lawful members cluster)
    (hLife : cluster.lives address = .running server) :
    Serves members cluster.grants cluster.elections address server := by
  have hLives := h.lives address
  rwa [hLife] at hLives

theorem mem_decided {granted : List VoteGrant} {election : Election}
    (h : election ∈ decided granted server server') : server'.raft.state = .leader ∧
      election = ⟨server'.raft.selfRaftAddress, server'.raft.currentTerm, server'.log.position,
        granted⟩ := by
  unfold decided at h
  split at h
  next hBoth => exact ⟨hBoth.2, mem_singleton.1 h⟩
  next => cases h

theorem exists_decided (granted : List VoteGrant) (hBefore : server.raft.state ≠ .leader)
    (hAfter : server'.raft.state = .leader) : ∃ election ∈ decided granted server server',
      election.leader = server'.raft.selfRaftAddress ∧
        election.term = server'.raft.currentTerm ∧ election.position = server'.log.position := by
  rw [decided, if_pos ⟨hBefore, hAfter⟩]
  exact ⟨_, mem_singleton_self _, rfl, rfl, rfl⟩

/-- A campaign that begins is recorded with the candidate's own vote, and with the election if that
vote decides it. -/
theorem Lawful.campaigns (h : Lawful members cluster)
    (hServes : Serves members cluster.grants cluster.elections address server)
    {calls : List VoteCall} (hCampaigns : server.Campaigns server' calls) :
    Lawful members (cluster.record address (.running server') calls [] (ownVote server server')
      (decided (cluster.grants ++ ownVote server server') server server')) := by
  obtain ⟨hSame, hTerm, hVoted, hVotes⟩ := hCampaigns.raft
  have hSelf : server'.raft.selfRaftAddress = address := hSame.self.trans hServes.self
  rw [hServes.self] at hVoted
  have hOwn : ownVote server server' =
      [⟨address, address, server'.raft.currentTerm, server.log.position⟩] := by
    have hNew : server'.raft.currentTerm ≠ server.raft.currentTerm := by
      rw [hTerm]
      exact (UInt64.ne_of_lt hCampaigns.term).symm
    rw [ownVote, if_pos hNew, hSelf]
  rw [hOwn]
  have hUp := hCampaigns.upright _ hServes.upright
  refine h.record (hServes.campaigns hCampaigns ?_) ?_ (by simp) ?_ ?_
  · intro hState
    obtain ⟨election, hMem, hLeader⟩ := exists_decided _ hCampaigns.notLeader hState
    exact ⟨election, mem_append_right _ hMem, hSelf ▸ hLeader⟩
  · intro call hMem
    exact (hCampaigns.mem_calls hMem).2.2.2.1
  · intro grant hMem
    obtain rfl := mem_singleton.1 hMem
    refine ⟨rfl, fun other hOther hVoter hEq => ?_⟩
    rcases mem_append.1 hOther with hOld | hNew
    · exact grant_unique hUp hVoted other hOld hVoter hEq
    · rw [mem_singleton.1 hNew]
  · intro election hMem
    obtain ⟨hState, rfl⟩ := mem_decided hMem
    refine ⟨?_, List.Subset.refl _⟩
    -- Only a server that is a majority by itself has won already.
    obtain ⟨hRaft, -⟩ | ⟨-, -, hSolo⟩ := hCampaigns.begun
    · rw [hRaft] at hState
      cases hState
    · refine ⟨[address], nodup_singleton _, ?_, ?_, ?_⟩
      · intro voter hVoter
        rw [mem_singleton.1 hVoter, ← hServes.self]
        exact hServes.joined.self
      · rw [← hServes.joined.size, length_singleton]
        omega
      · intro voter hVoter
        rw [mem_singleton.1 hVoter, hSelf, hCampaigns.log]
        exact ⟨_, mem_append_right _ (mem_singleton_self _), rfl, rfl, rfl, .refl _⟩

theorem Lawful.runCampaign (h : Lawful members cluster) (address : NodeAddress)
    (interruption : Option Interruption) :
    Lawful members (cluster.runCampaign address interruption) := by
  unfold RaftCluster.runCampaign
  cases hLife : cluster.lives address with
  | down files => exact h
  | running server =>
    have hServes := h.serves hLife
    have hSpec := @campaign_spec server interruption hServes.upright.inSync
    dsimp only
    cases hRun : campaign interruption server with
    | fail e server' =>
      have hNext := fail_of_wp hRun hSpec
      exact h.become (hServes.proceeds hNext)
    | halt server' =>
      have hLeft := halt_of_wp hRun hSpec
      exact h.become (hServes.ends hLeft)
    | ok calls server' =>
      dsimp only
      rcases okay_of_wp hRun hSpec with ⟨rfl, rfl⟩ | hCampaigns
      · have hOwn : ownVote server' server' = [] := if_neg (not_not.2 rfl)
        have hNobody : decided (cluster.grants ++ []) server' server' = [] :=
          if_neg fun hBoth => hBoth.1 hBoth.2
        rw [hOwn, hNobody]
        exact h.become hServes
      · exact h.campaigns hServes hCampaigns

/-- The address that a request names is the one that has sent it. -/
theorem eq_of_fromString {text : List UInt8} {sender candidate : NodeAddress}
    (hText : text = sender.toString) (h : fromString text = .ok candidate) :
    candidate = sender := by
  have hRead : ((some sender).map toString).mapM fromString =
      .ok (some candidate) := by
    rw [Option.map_some, Option.mapM_some, ← hText, h]
    rfl
  exact Option.some.inj (RaftNode.mapM_fromString_eq hRead)

/-- A vote that is given is recorded with the answer. -/
theorem Lawful.voted (h : Lawful members cluster) {call : VoteCall}
    (hServes : Serves members cluster.grants cluster.elections call.peer server)
    (hProceeds : server.Proceeds server')
    (hGrants : server.Grants server' call.candidate call.request) {response : RequestVoteResponse} :
    Lawful members (cluster.record call.peer (.running server') [] [⟨call, response⟩]
      [⟨call.peer, call.candidate, server'.raft.currentTerm, server.log.position⟩] []) := by
  have hNext := hServes.proceeds hProceeds
  have hVoted : server'.node.raft.votedFor = some call.candidate := hGrants.vote
  refine h.record ?_ (by simp) ?_ ?_ (by simp)
  · rw [append_nil]
    exact ⟨upright_grant hNext.upright hVoted, hNext.self, hNext.joined, hNext.calls,
      fun hState => (hNext.candidate hState).append _, hNext.leader⟩
  · intro reply hMem _
    rw [mem_singleton.1 hMem]
    exact ⟨_, mem_append_right _ (mem_singleton_self _), rfl, rfl, hGrants.term, hGrants.position⟩
  · intro grant hMem
    obtain rfl := mem_singleton.1 hMem
    refine ⟨rfl, fun other hOther hVoter hTerm => ?_⟩
    rcases mem_append.1 hOther with hOld | hNew
    · exact grant_unique hNext.upright hVoted other hOld hVoter hTerm
    · rw [mem_singleton.1 hNew]

theorem Lawful.runRequestVote (h : Lawful members cluster) {call : VoteCall}
    (hSent : call ∈ cluster.sent) (first second : Option Interruption) :
    Lawful members (cluster.runRequestVote call first second) := by
  unfold RaftCluster.runRequestVote
  cases hLife : cluster.lives call.peer with
  | down files => exact h
  | running server =>
    have hServes := h.serves hLife
    have hSpec := @requestVote_spec server first second hServes.upright.inSync
      call.request
    dsimp only
    cases hRun : requestVote first second call.request server with
    | fail e server' =>
      have hNext := fail_of_wp hRun hSpec
      exact h.become (hServes.proceeds hNext)
    | halt server' =>
      have hLeft := halt_of_wp hRun hSpec
      exact h.become (hServes.ends hLeft)
    | ok reply server' =>
      obtain ⟨hNext, hGranted⟩ := okay_of_wp hRun hSpec
      cases reply with
      | error e => exact h.become (hServes.proceeds hNext)
      | ok response =>
        dsimp only
        unfold votesIn
        split
        next hYes =>
          obtain ⟨candidate, hParse, hGrants⟩ := hGranted response rfl hYes
          obtain rfl := eq_of_fromString (h.sent call hSent) hParse
          exact h.voted hServes hNext hGrants
        next hNo =>
          refine h.record ?_ (by simp) ?_ (by simp) (by simp)
          · rw [append_nil, append_nil]
            exact hServes.proceeds hNext
          · intro reply hMem hYes
            rw [mem_singleton.1 hMem] at hYes
            exact absurd hYes hNo

/-- A vote that is counted is one for the log of the candidate. -/
theorem Serves.counts (h : Serves members grants elections address server)
    (hReply : Backed grants reply) (hYes : reply.response.voteGranted = true)
    (hMem : reply.call ∈ server.calls) (hCounts : server.Counts server' reply.call) :
    server.raft.SameMembers server'.raft ∧
      server'.raft.currentTerm = server.raft.currentTerm ∧
        server'.raft.votes = server.raft.votes.insert reply.call.peer ∧
          Campaigning grants server' := by
  have hOld := h.candidate hCounts.candidate
  obtain ⟨hCandidate, hPeer, -⟩ := h.calls reply.call hMem
  have hFields : server.raft.SameMembers server'.raft ∧
      server'.raft.currentTerm = server.raft.currentTerm ∧
        server'.raft.votes = server.raft.votes.insert reply.call.peer := by
    rcases hCounts.counted with hRaft | ⟨hRaft, -⟩
    · rw [hRaft]
      exact ⟨⟨rfl, rfl, rfl⟩, rfl, rfl⟩
    · rw [hRaft]
      exact ⟨⟨rfl, rfl, rfl⟩, rfl, rfl⟩
  obtain ⟨hSame, hTerm, hVotes⟩ := hFields
  have hVote : Supports grants reply.call.peer server.raft.selfRaftAddress
      server.raft.currentTerm server.log.position := by
    have hBacked := hReply hYes
    rwa [hCandidate, ← h.self, hCounts.term, hOld.calls reply.call hMem hCounts.term] at hBacked
  refine ⟨hSame, hTerm, hVotes, ?_, ?_, ?_, ?_⟩
  · rw [hVotes]
    exact hOld.nodup.insert
  · intro voter hVoter
    rw [hVotes, mem_insert_iff] at hVoter
    rw [hSame.peers]
    exact hVoter.elim (fun hEq => hEq ▸ hPeer) (hOld.peers voter)
  · intro voter hVoter
    rw [hVotes, hSame.self, mem_cons, mem_insert_iff] at hVoter
    rw [hSame.self, hTerm, hCounts.log]
    rcases hVoter with rfl | rfl | hVoter
    · exact hOld.votes _ mem_cons_self
    · exact hVote
    · exact hOld.votes voter (mem_cons_of_mem _ hVoter)
  · rw [hCounts.calls, hTerm, hCounts.log]
    exact hOld.calls

/-- A majority of counted votes has won the election. -/
theorem Campaigning.won (h : Campaigning grants server) (hJoined : server.raft.Joined members)
    (hMajority : server.raft.votes.length + 1 ≥ server.raft.clusterSize / 2 + 1) :
    Election.Won members ⟨server.raft.selfRaftAddress, server.raft.currentTerm,
      server.log.position, grants⟩ := by
  refine ⟨server.raft.selfRaftAddress :: server.raft.votes, ?_, ?_, ?_, h.votes⟩
  · exact nodup_cons.2 ⟨fun hMem => hJoined.notSelf (h.peers _ hMem), h.nodup⟩
  · intro voter hVoter
    rcases mem_cons.1 hVoter with rfl | hVoter
    · exact hJoined.self
    · exact hJoined.peers voter (h.peers voter hVoter)
  · rw [← hJoined.size, length_cons]
    omega

section

variable (h : Lawful members cluster)
include h

theorem Lawful.counts (hServes : Serves members cluster.grants cluster.elections address server)
    (hReply : reply ∈ cluster.replies) (hYes : reply.response.voteGranted = true)
    (hMem : reply.call ∈ server.calls) (hCounts : server.Counts server' reply.call) :
    Lawful members (cluster.record address (.running server') [] [] []
      (decided cluster.grants server server')) := by
  obtain ⟨hSame, hTerm, hVotes, hCampaigning⟩ :=
    hServes.counts (h.replies reply hReply) hYes hMem hCounts
  have hJoined := joined_of_sameMembers hServes.joined hSame
  have hSelf : server'.raft.selfRaftAddress = address := hSame.self.trans hServes.self
  have hNotLeader : server.raft.state ≠ .leader := by
    rw [hCounts.candidate]
    decide
  refine h.record ?_ (by simp) (by simp) (by simp) ?_
  · rw [append_nil]
    refine ⟨hCounts.upright _ hServes.upright, hSelf, hJoined, ?_, fun _ => hCampaigning, ?_⟩
    · rw [hCounts.calls, hSame.peers, hTerm]
      exact hServes.calls
    · intro hState
      obtain ⟨election, hElection, hLeader⟩ := exists_decided cluster.grants hNotLeader hState
      exact ⟨election, mem_append_right _ hElection, hSelf ▸ hLeader⟩
  · intro election hElection
    obtain ⟨hState, rfl⟩ := mem_decided hElection
    refine ⟨hCampaigning.won hJoined ?_, subset_append_left _ _⟩
    rcases hCounts.counted with hRaft | ⟨-, hMajority⟩
    · rw [hRaft] at hState
      rw [show server.raft.state = _ from hState] at hNotLeader
      exact absurd rfl hNotLeader
    · rw [hVotes, clusterSize, hSame.clusterNodes]
      exact of_decide_eq_true hMajority

theorem Lawful.runCountVote (hReply : reply ∈ cluster.replies)
    (interruption : Option Interruption) :
    Lawful members (cluster.runCountVote reply interruption) := by
  unfold RaftCluster.runCountVote
  cases hLife : cluster.lives reply.call.candidate with
  | down files => exact h
  | running server =>
    dsimp only
    split
    next hMem =>
      have hServes := h.serves hLife
      have hSpec := @countVote_spec server interruption hServes.upright.inSync
        reply.call reply.response
      cases hRun : countVote interruption reply.call reply.response server with
      | fail e server' =>
        have hLeft := fail_of_wp hRun hSpec
        exact h.become (hServes.ends hLeft)
      | halt server' =>
        have hLeft := halt_of_wp hRun hSpec
        exact h.become (hServes.ends hLeft)
      | ok _ server' =>
        rcases okay_of_wp hRun hSpec with hNext | ⟨hYes, hCounts⟩
        · have hNobody : decided cluster.grants server server' = [] := by
            refine if_neg fun hBoth => hBoth.1 ?_
            exact (hNext.same (by simp [hBoth.2])).1.symm.trans hBoth.2
          dsimp only
          rw [hNobody]
          exact h.become (hServes.proceeds hNext)
        · exact h.counts hServes hReply hYes hMem hCounts
    next => exact h

theorem Lawful.runAppendEntries (address : NodeAddress) (request : AppendEntriesRequest)
    (interruption : Option Interruption) :
    Lawful members (cluster.runAppendEntries address request interruption) := by
  unfold RaftCluster.runAppendEntries
  cases hLife : cluster.lives address with
  | down files => exact h
  | running server =>
    have hServes := h.serves hLife
    have hSpec := @appendEntries_spec server interruption hServes.upright.inSync
      request
    dsimp only
    cases hRun : appendEntries interruption request server with
    | ok reply server' =>
      have hNext := okay_of_wp hRun hSpec
      exact h.become (hServes.proceeds hNext)
    | fail e server' =>
      have hNext := fail_of_wp hRun hSpec
      exact h.become (hServes.proceeds hNext)
    | halt server' =>
      have hLeft := halt_of_wp hRun hSpec
      exact h.become (hServes.ends hLeft)

end

theorem boot_joined (self : NodeAddress) (lastApplied : UInt64) (store : RaftHardStateStore) :
    (RaftNode.boot members self lastApplied).wp store
      (fun node _ => node.raft.Joined members ∧ node.raft.state = .follower)
      (fun _ _ => True) (fun _ => True) := by
  unfold RaftNode.boot
  rw [wp_bind]
  refine wp_mono (wp_true _ store) (fun _ opened _ => ?_) (fun _ _ _ => trivial) fun _ _ => trivial
  rw [wp_bind]
  refine wp_mono (wp_true _ opened) (fun hardState loaded _ => ?_) (fun _ _ _ => trivial)
    fun _ _ => trivial
  cases hCreate : create members self hardState lastApplied with
  | error e => trivial
  | ok raft => exact create_joined hCreate

/-- A process that starts has the votes of those before it. -/
theorem upright_boot {state : RaftHardState} {files : HardStateFiles} {node : RaftNode}
    (hKeeps : state.Keeps (Given grants address)) (hRecorded : files.recorded = .ok state)
    (hStore : node.store = ⟨true, state, files⟩) (hRaft : node.raft.hardState = state) :
    node.Upright (Given grants address) := by
  have hState : node.store.state = state := by rw [hStore]
  refine ⟨?_, hState ▸ hKeeps, ?_, ?_⟩
  · rw [hStore]
    exact ⟨rfl, hRecorded⟩
  · rw [hRaft, hState]
    exact .refl _
  · intro candidate hGiven _
    have hFollows := hKeeps.votes _ _ hGiven
    rw [← hRaft] at hFollows
    exact Option.map_injective toString_injective (hFollows.vote rfl (by simp))

theorem Lawful.runStart (h : Lawful members cluster) (address self : NodeAddress) (log : RaftLog)
    (lastApplied : UInt64) :
    Lawful members (cluster.runStart members address self log lastApplied) := by
  unfold RaftCluster.runStart
  have hLives := h.lives address
  cases hLife : cluster.lives address with
  | running server => exact h
  | down files =>
    rw [hLife] at hLives
    obtain ⟨state, hRecorded, hKeeps⟩ := hLives
    have hSpec := wp_and (RaftNode.boot_spec hRecorded hKeeps.named members self lastApplied)
      (boot_joined self lastApplied _)
    dsimp only
    cases hRun : RaftNode.boot members self lastApplied (.closed files) with
    | fail e store => exact h
    | halt store => exact h
    | ok node store =>
      obtain ⟨⟨hStore, hRaft⟩, hJoined, hState⟩ := okay_of_wp hRun hSpec
      dsimp only
      split
      next hSelf =>
        refine h.become ⟨upright_boot hKeeps hRecorded hStore hRaft, hSelf, hJoined,
          by simp, fun hCandidate => ?_, fun hLeader => ?_⟩
        · rw [show node.raft.state = _ from hCandidate] at hState
          cases hState
        · rw [show node.raft.state = _ from hLeader] at hState
          cases hState
      next => exact h

theorem Lawful.next (h : Lawful members cluster) (event : ClusterEvent) :
    Lawful members (cluster.next members event) := by
  cases event with
  | start address self log lastApplied => exact h.runStart address self log lastApplied
  | stop address =>
    dsimp only [RaftCluster.next]
    cases hLife : cluster.lives address with
    | down files => exact h
    | running server =>
      have hServes := h.serves hLife
      exact h.become (hServes.ends (RaftNode.Advances.refl hServes.upright.inSync).survives)
  | shutDown address =>
    dsimp only [RaftCluster.next]
    cases hLife : cluster.lives address with
    | down files => exact h
    | running server =>
      have hServes := h.serves hLife
      have hProceeds : server.Proceeds { server with shuttingDown := true } :=
        ⟨.refl hServes.upright.inSync, rfl, .inl rfl⟩
      exact h.become (hServes.proceeds hProceeds)
  | campaign address interruption => exact h.runCampaign address interruption
  | requestVote ordinal first second =>
    dsimp only [RaftCluster.next]
    cases hSent : cluster.sent[ordinal]? with
    | none => exact h
    | some call => exact h.runRequestVote (mem_of_getElem? hSent) first second
  | countVote ordinal interruption =>
    dsimp only [RaftCluster.next]
    cases hReply : cluster.replies[ordinal]? with
    | none => exact h
    | some reply => exact h.runCountVote (mem_of_getElem? hReply) interruption
  | appendEntries address request interruption =>
    exact h.runAppendEntries address request interruption

theorem lawful_fresh : Lawful members fresh where
  lives := by
    intro address
    refine ⟨.initial, rfl, ⟨none, rfl⟩, ?_⟩
    rintro term candidate ⟨grant, hMem, -⟩
    cases hMem
  sent := fun _ hMem => absurd hMem not_mem_nil
  replies := fun _ hMem => absurd hMem not_mem_nil
  unique := fun _ hMem => absurd hMem not_mem_nil
  elections := fun _ hMem => absurd hMem not_mem_nil

theorem Lawful.run (h : Lawful members cluster) (events : List ClusterEvent) :
    Lawful members (cluster.run members events) := by
  induction events generalizing cluster with
  | nil => exact h
  | cons event events ih => exact ih (h.next event)

end Steps

section Trio

/-- Three members, each with its address for clients. -/
def trio : List ClusterMember :=
  [⟨⟨[97], 1⟩, ⟨[97], 2⟩⟩, ⟨⟨[98], 1⟩, ⟨[98], 2⟩⟩, ⟨⟨[99], 1⟩, ⟨[99], 2⟩⟩]

/-- A log of which only the end matters here. -/
def logEndingAt (position : LogPosition) : RaftLog :=
  { RaftLog.closed ⟨Log.tinyConfig, Log.tinyConfig_initialLsn⟩ .empty with
    nextIndex := position.index.toNat + 1, lastTerm := position.term }

/-- The first member campaigns with a log of a later term, and wins with the vote of the second. -/
def trioElection : List ClusterEvent :=
  [.start ⟨[97], 1⟩ ⟨[97], 2⟩ (logEndingAt ⟨2, 3⟩) 0,
    .start ⟨[98], 1⟩ ⟨[98], 2⟩ (logEndingAt ⟨1, 5⟩) 0, .campaign ⟨[97], 1⟩ none,
    .requestVote 0 none none, .countVote 0 none]

/-- The voter restarts and campaigns in the term after. -/
def trioRestart : List ClusterEvent :=
  [.stop ⟨[98], 1⟩, .start ⟨[98], 1⟩ ⟨[98], 2⟩ (logEndingAt ⟨1, 5⟩) 0, .campaign ⟨[98], 1⟩ none]

/-- The term in which a server leads. -/
def leadingTerm : ServerLife → Option UInt64
  | .down _ => none
  | .running server => if server.raft.state = .leader then some server.raft.currentTerm else none

theorem leads_of_leadingTerm {term : UInt64} (h : leadingTerm life = some term) :
    ∃ server, life = .running server ∧ server.raft.state = .leader ∧
      server.raft.currentTerm = term := by
  cases life with
  | down files => cases h
  | running server =>
    dsimp only [leadingTerm] at h
    split at h
    next hState => exact ⟨server, rfl, hState, Option.some.inj h⟩
    next => cases h

end Trio

section Safety

/-- A step leaves the cluster alone or records the step of one server. -/
theorem elections_subset_next (cluster : RaftCluster) (event : ClusterEvent) :
    cluster.elections ⊆ (cluster.next members event).elections := by
  have hRecord (address life sent replies grants elections) : cluster.elections ⊆
      (cluster.record address life sent replies grants elections).elections :=
    subset_append_left _ _
  cases event
  all_goals
    dsimp only [next, runStart, runCampaign, runRequestVote, runCountVote, runAppendEntries]
    repeat' split
  all_goals first | exact List.Subset.refl _ | exact hRecord _ _ _ _ _ _

/-- Elections stay recorded. -/
theorem elections_subset_run (cluster : RaftCluster) (events : List ClusterEvent) :
    cluster.elections ⊆ (cluster.run members events).elections := by
  induction events generalizing cluster with
  | nil => exact List.Subset.refl _
  | cons event events ih => exact List.Subset.trans (elections_subset_next cluster event) (ih _)

/-- Two majorities share a member, and that member has voted once. -/
theorem Lawful.leader_unique (h : Lawful members cluster) {election other : Election}
    (hElection : election ∈ cluster.elections) (hOther : other ∈ cluster.elections)
    (hTerm : election.term = other.term) : election.leader = other.leader := by
  obtain ⟨⟨voters, hNodup, hSub, hMajority, hVotes⟩, hGranted⟩ := h.elections election hElection
  obtain ⟨⟨voters', hNodup', hSub', hMajority', hVotes'⟩, hGranted'⟩ := h.elections other hOther
  have hCard (list : List NodeAddress) (hList : list.Nodup) :
      list.toFinset.card = list.length := toFinset_card_of_nodup hList
  have hShared : (voters.toFinset ∩ voters'.toFinset).Nonempty := by
    refine Finset.inter_nonempty_of_card_lt_card_add_card
      (s := (members.map ClusterMember.raft).toFinset) ?_ ?_ ?_
    · exact fun voter hMem => mem_toFinset.2 (hSub voter (mem_toFinset.1 hMem))
    · exact fun voter hMem => mem_toFinset.2 (hSub' voter (mem_toFinset.1 hMem))
    · rw [card_toFinset, hCard _ hNodup, hCard _ hNodup']
      omega
  obtain ⟨voter, hVoter⟩ := hShared
  rw [Finset.mem_inter, mem_toFinset, mem_toFinset] at hVoter
  obtain ⟨grant, hMem, hBy, hFor, hIn, -⟩ := hVotes voter hVoter.1
  obtain ⟨grant', hMem', hBy', hFor', hIn', -⟩ := hVotes' voter hVoter.2
  have hSame := h.unique grant (hGranted hMem) grant' (hGranted' hMem') (hBy.trans hBy'.symm)
    (hIn.trans (hTerm.trans hIn'.symm))
  rw [← hFor, ← hFor', hSame]

/-- Whenever a server leads, a majority of the members has voted for it in its term, and none of
them had a log by then that was ahead of the one the leader has won with. -/
theorem leader_has_majority (members : List ClusterMember) (events : List ClusterEvent)
    (address : NodeAddress) (server : RaftServer)
    (hLife : (fresh.run members events).lives address = .running server)
    (hLeader : server.raft.state = .leader) :
    Election.Won members ⟨address, server.raft.currentTerm, server.log.position,
      (fresh.run members events).grants⟩ := by
  have hLawful : Lawful members (fresh.run members events) := lawful_fresh.run events
  obtain ⟨election, hMem, hBy, hTerm, hPosition⟩ := (hLawful.serves hLife).leader hLeader
  obtain ⟨⟨voters, hNodup, hMembers, hMajority, hVotes⟩, hGranted⟩ :=
    hLawful.elections election hMem
  refine ⟨voters, hNodup, hMembers, hMajority, fun voter hVoter => ?_⟩
  obtain ⟨grant, hGrant, hRest⟩ := hVotes voter hVoter
  rw [hBy, hTerm, hPosition] at hRest
  exact ⟨grant, hGranted hGrant, hRest⟩

theorem leader_has_majority_trio : ∃ server,
    (fresh.run trio trioElection).lives ⟨[97], 1⟩ = .running server ∧
      server.raft.state = .leader ∧
        Election.Won trio ⟨⟨[97], 1⟩, server.raft.currentTerm, server.log.position,
          (fresh.run trio trioElection).grants⟩ := by
  obtain ⟨server, hLife, hState, -⟩ := leads_of_leadingTerm
    (show leadingTerm ((fresh.run trio trioElection).lives ⟨[97], 1⟩) = some 1 by decide +kernel)
  exact ⟨server, hLife, hState, leader_has_majority trio trioElection _ server hLife hState⟩

/-- Two servers that lead in the same term, at whatever times, are one. -/
theorem leader_of_term_unique (members : List ClusterMember) (events later : List ClusterEvent)
    (address other : NodeAddress) (server server' : RaftServer)
    (hLife : (fresh.run members events).lives address = .running server)
    (hLeader : server.raft.state = .leader)
    (hLife' : ((fresh.run members events).run members later).lives other = .running server')
    (hLeader' : server'.raft.state = .leader)
    (hTerm : server.raft.currentTerm = server'.raft.currentTerm) : address = other := by
  have hLawful : Lawful members (fresh.run members events) := lawful_fresh.run events
  obtain ⟨election, hMem, hBy, hIn, -⟩ := (hLawful.serves hLife).leader hLeader
  obtain ⟨election', hMem', hBy', hIn', -⟩ := ((hLawful.run later).serves hLife').leader hLeader'
  have hLater : election ∈ ((fresh.run members events).run members later).elections :=
    elections_subset_run _ later hMem
  have hSame := (hLawful.run later).leader_unique hLater hMem' (hIn.trans (hTerm.trans hIn'.symm))
  rw [← hBy, ← hBy', hSame]

theorem leader_of_term_unique_trio : ∃ server server',
    (fresh.run trio trioElection).lives ⟨[97], 1⟩ = .running server ∧
      ((fresh.run trio trioElection).run trio trioRestart).lives ⟨[97], 1⟩ =
        .running server' ∧ server.raft.state = .leader ∧ server'.raft.state = .leader ∧
          (⟨[97], 1⟩ : NodeAddress) = ⟨[97], 1⟩ := by
  obtain ⟨server, hLife, hState, hTerm⟩ := leads_of_leadingTerm
    (show leadingTerm ((fresh.run trio trioElection).lives ⟨[97], 1⟩) = some 1 by decide +kernel)
  obtain ⟨server', hLife', hState', hTerm'⟩ := leads_of_leadingTerm
    (show leadingTerm (((fresh.run trio trioElection).run trio trioRestart).lives ⟨[97], 1⟩) =
      some 1 by decide +kernel)
  exact ⟨server, server', hLife, hLife', hState, hState',
    leader_of_term_unique trio trioElection trioRestart _ _ server server' hLife hState hLife'
      hState' (hTerm.trans hTerm'.symm)⟩

end Safety

end RaftCluster

end Stoneleaf
