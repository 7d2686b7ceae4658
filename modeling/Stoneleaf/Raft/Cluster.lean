import Stoneleaf.Raft.ServerSpec

/-!
A cluster of servers that elect their leaders. Its steps are campaigns, deliveries of vote
requests, of their answers and of entries, and processes that end and start again. A message stays
in the network once it was sent, so that it may be delivered late, more than once or never. Next to
the servers the cluster keeps every vote that was given, with the end of the voter's log at that
moment, and every election that was won.
-/

namespace Stoneleaf

open Library Program

/-- A vote, with the end of the voter's log when it was given. -/
structure VoteGrant where
  voter : NodeAddress
  candidate : NodeAddress
  term : UInt64
  position : LogPosition
deriving DecidableEq, Repr

structure VoteReply where
  call : VoteCall
  response : RequestVoteResponse
deriving DecidableEq, Repr

/-- A server became the leader of a term: the end of its log and all votes by then. -/
structure Election where
  leader : NodeAddress
  term : UInt64
  position : LogPosition
  granted : List VoteGrant
deriving DecidableEq, Repr

/-- A process is running, or there are only the files of its hard state. -/
inductive ServerLife where
  | running (server : RaftServer)
  | down (files : HardStateFiles)

structure RaftCluster where
  lives : NodeAddress → ServerLife
  sent : List VoteCall
  replies : List VoteReply
  grants : List VoteGrant
  elections : List Election

/-- What can happen next. Messages are named by their place in the network, and a request with
entries may be any request. A server may campaign whenever it does not lead: its timer only makes
campaigns rarer. -/
inductive ClusterEvent where
  | start (address selfClientAddress : NodeAddress) (log : RaftLog) (lastApplied : UInt64)
  | stop (address : NodeAddress)
  | shutDown (address : NodeAddress)
  | campaign (address : NodeAddress) (interruption : Option Interruption)
  | requestVote (ordinal : Nat) (first second : Option Interruption)
  | countVote (ordinal : Nat) (interruption : Option Interruption)
  | appendEntries (address : NodeAddress) (request : AppendEntriesRequest)
      (interruption : Option Interruption)

namespace RaftCluster

/-- No server has run, and nothing was sent. -/
def fresh : RaftCluster :=
  ⟨fun _ => .down ⟨none, none⟩, [], [], [], []⟩

/-- A server's step, with what it adds to the network and to the history. -/
def record (cluster : RaftCluster) (address : NodeAddress) (life : ServerLife)
    (sent : List VoteCall) (replies : List VoteReply) (grants : List VoteGrant)
    (elections : List Election) : RaftCluster where
  lives := Function.update cluster.lives address life
  sent := cluster.sent ++ sent
  replies := cluster.replies ++ replies
  grants := cluster.grants ++ grants
  elections := cluster.elections ++ elections

/-- A step that sends nothing and in which nobody votes or wins. -/
def become (cluster : RaftCluster) (address : NodeAddress) (life : ServerLife) : RaftCluster :=
  cluster.record address life [] [] [] []

/-- The election that a step from one state of a server to the next has decided, if any. -/
def decided (granted : List VoteGrant) (server server' : RaftServer) : List Election :=
  if server.raft.state ≠ .leader ∧ server'.raft.state = .leader then
    [⟨server'.raft.selfRaftAddress, server'.raft.currentTerm, server'.log.position, granted⟩]
  else []

/-- A campaign in a new term begins with the candidate's own vote. -/
def ownVote (server server' : RaftServer) : List VoteGrant :=
  if server'.raft.currentTerm ≠ server.raft.currentTerm then
    [⟨server'.raft.selfRaftAddress, server'.raft.selfRaftAddress, server'.raft.currentTerm,
      server.log.position⟩]
  else []

def runCampaign (cluster : RaftCluster) (address : NodeAddress)
    (interruption : Option Interruption) : RaftCluster :=
  match cluster.lives address with
  | .down _ => cluster
  | .running server =>
    match RaftServer.campaign interruption server with
    | .ok calls server' =>
      let grants := ownVote server server'
      cluster.record address (.running server') calls [] grants
        (decided (cluster.grants ++ grants) server server')
    -- The thread that campaigns ends, and the process goes on.
    | .fail _ server' => cluster.become address (.running server')
    | .halt server' => cluster.become address (.down server'.node.store.files)

/-- The vote in an answer, if there is one. -/
def votesIn (call : VoteCall) (server server' : RaftServer) (response : RequestVoteResponse) :
    List VoteGrant :=
  if response.voteGranted = true then
    [⟨call.peer, call.candidate, server'.raft.currentTerm, server.log.position⟩]
  else []

def runRequestVote (cluster : RaftCluster) (call : VoteCall) (first second : Option Interruption) :
    RaftCluster :=
  match cluster.lives call.peer with
  | .down _ => cluster
  | .running server =>
    match RaftServer.requestVote first second call.request server with
    | .ok (.ok response) server' =>
      cluster.record call.peer (.running server') [] [⟨call, response⟩]
        (votesIn call server server' response) []
    | .ok (.error _) server' => cluster.become call.peer (.running server')
    | .fail _ server' => cluster.become call.peer (.running server')
    | .halt server' => cluster.become call.peer (.down server'.node.store.files)

/-- An answer reaches the thread that waits for it, if the process is still the same. -/
def runCountVote (cluster : RaftCluster) (reply : VoteReply) (interruption : Option Interruption) :
    RaftCluster :=
  match cluster.lives reply.call.candidate with
  | .down _ => cluster
  | .running server =>
    if reply.call ∈ server.calls then
      match RaftServer.countVote interruption reply.call reply.response server with
      | .ok _ server' =>
        cluster.record reply.call.candidate (.running server') [] [] []
          (decided cluster.grants server server')
      -- A thread that throws ends the process.
      | .fail _ server' => cluster.become reply.call.candidate (.down server'.node.store.files)
      | .halt server' => cluster.become reply.call.candidate (.down server'.node.store.files)
    else cluster

def runAppendEntries (cluster : RaftCluster) (address : NodeAddress)
    (request : AppendEntriesRequest) (interruption : Option Interruption) : RaftCluster :=
  match cluster.lives address with
  | .down _ => cluster
  | .running server =>
    match RaftServer.appendEntries interruption request server with
    | .ok _ server' => cluster.become address (.running server')
    | .fail _ server' => cluster.become address (.running server')
    | .halt server' => cluster.become address (.down server'.node.store.files)

/-- A new process with any log. It serves the address that the configuration has for it. -/
def runStart (members : List ClusterMember) (cluster : RaftCluster)
    (address selfClientAddress : NodeAddress) (log : RaftLog) (lastApplied : UInt64) :
    RaftCluster :=
  match cluster.lives address with
  | .running _ => cluster
  | .down files =>
    match RaftNode.boot members selfClientAddress lastApplied (.closed files) with
    | .ok node _ =>
      if node.raft.selfRaftAddress = address then
        cluster.become address (.running ⟨node, log, [], false⟩)
      else cluster
    | _ => cluster

def next (members : List ClusterMember) (cluster : RaftCluster) : ClusterEvent → RaftCluster
  | .start address selfClientAddress log lastApplied =>
    cluster.runStart members address selfClientAddress log lastApplied
  | .stop address =>
    match cluster.lives address with
    | .down _ => cluster
    | .running server => cluster.become address (.down server.node.store.files)
  | .shutDown address =>
    match cluster.lives address with
    | .down _ => cluster
    | .running server => cluster.become address (.running { server with shuttingDown := true })
  | .campaign address interruption => cluster.runCampaign address interruption
  | .requestVote ordinal first second =>
    match cluster.sent[ordinal]? with
    | none => cluster
    | some call => cluster.runRequestVote call first second
  | .countVote ordinal interruption =>
    match cluster.replies[ordinal]? with
    | none => cluster
    | some reply => cluster.runCountVote reply interruption
  | .appendEntries address request interruption =>
    cluster.runAppendEntries address request interruption

def run (members : List ClusterMember) (cluster : RaftCluster) (events : List ClusterEvent) :
    RaftCluster :=
  events.foldl (next members) cluster

end RaftCluster

end Stoneleaf
