import Stoneleaf.Raft.RaftProtoCodec
import Stoneleaf.Raft.RaftState

/-!
A running server: the state of its node, its replicated log and the vote requests that its last
campaigns wait for. Each handler holds the state lock from its first look at the state to its end,
so a handler is one step. A handler that throws answers the caller with an error and keeps what it
has changed by then; a thread that waits for a vote and throws ends the process.
-/

namespace Stoneleaf

open Library Program

/-- The text that an exception carries. -/
def Exception.what : Exception → String
  | invalidArgument what => what
  | runtimeError what => what
  | outOfRange what => what
  | lengthError what => what
  | systemError what => what

/-- The end of a log, as campaigns and votes compare logs. -/
structure LogPosition where
  term : UInt64
  index : UInt64
deriving DecidableEq, Repr

namespace LogPosition

/-- A later term wins, and in one term the longer log. -/
def AtMost (a b : LogPosition) : Prop :=
  a.term < b.term ∨ a.term = b.term ∧ a.index ≤ b.index

instance (a b : LogPosition) : Decidable (a.AtMost b) :=
  inferInstanceAs (Decidable (_ ∨ _))

theorem AtMost.refl (a : LogPosition) : a.AtMost a :=
  .inr ⟨rfl, UInt64.le_refl _⟩

end LogPosition

def RaftLog.position (log : RaftLog) : LogPosition :=
  ⟨log.lastTerm, .ofNat log.lastIndex⟩

def RequestVoteRequest.position (request : RequestVoteRequest) : LogPosition :=
  ⟨request.lastLogTerm, request.lastLogIdx⟩

/-- A vote request to one peer, which a thread of the candidate waits for. -/
structure VoteCall where
  candidate : NodeAddress
  peer : NodeAddress
  request : RequestVoteRequest
deriving DecidableEq, Repr

structure RaftServer where
  node : RaftNode
  log : RaftLog
  calls : List VoteCall
  shuttingDown : Bool

abbrev ServerOp : Type → Type :=
  Program RaftServer Exception

/-- A status of the transport other than success, with its text. -/
structure InvalidArgument where
  message : String
deriving DecidableEq, Repr

abbrev RpcReply : Type → Type :=
  Except InvalidArgument

namespace RaftServer

def raft (server : RaftServer) : RaftState :=
  server.node.raft

def onNode {α : Type} (x : NodeOp α) : ServerOp α :=
  x.zoom RaftServer.node fun node server => { server with node }

def onLog {α : Type} (x : RaftOp α) : ServerOp α :=
  x.zoom RaftServer.log fun log server => { server with log }

section RequestVote

/-- The vote itself. The two interruptions are for the two hard states that may be persisted. -/
def considerVote (first second : Option Interruption) (candidate : NodeAddress)
    (request : RequestVoteRequest) : ServerOp RequestVoteResponse := do
  if request.term > (← read raft).currentTerm then
    onNode (RaftNode.becomeFollower first request.term none)
  let log ← read RaftServer.log
  let granted ← onNode (RaftNode.grantVote second candidate request.lastLogIdx
    request.lastLogTerm (.ofNat log.lastIndex) log.lastTerm)
  return ⟨(← read raft).currentTerm, granted⟩

def requestVote (first second : Option Interruption) (request : RequestVoteRequest) :
    ServerOp (RpcReply RequestVoteResponse) :=
  match NodeAddress.fromString request.candidate with
  | .error e => return .error ⟨e.what⟩
  | .ok candidate => do
    let raft ← read raft
    if raft.isPeer candidate = false then return .error ⟨"sender not in cluster config"⟩
    else if request.term < raft.currentTerm then return .ok ⟨raft.currentTerm, false⟩
    else return .ok (← considerVote first second candidate request)

end RequestVote

section AppendEntries

/-- The sender has the current term, so it is the leader, whatever its entries are. -/
def followLeader (interruption : Option Interruption) (term : UInt64) (leader : NodeAddress) :
    NodeOp Unit := do
  let raft ← read RaftNode.raft
  if term > raft.currentTerm ∨ raft.state ≠ .follower then
    RaftNode.becomeFollower interruption term (some leader)
  else RaftNode.updateRaft fun raft => { raft with leaderRaftAddress := some leader }

/-- The number of entries that the log has already, looking at entry `k` and those after it. At
the first one with another term the log is cut. -/
def skipPresent (prevIndex : UInt64) : Nat → List RaftMutationEntry → RaftOp Nat
  | k, [] => return k
  | k, entry :: rest => do
    let idx := prevIndex + 1 + .ofNat k
    let existing ← RaftLog.termAt idx.toNat
    if existing = 0 then return k
    else if existing ≠ entry.term then
      RaftLog.truncateSuffix idx.toNat
      return k
    else skipPresent prevIndex (k + 1) rest

def lastNewIndex (prevIndex : UInt64) (entries : List RaftMutationEntry) : UInt64 :=
  prevIndex + .ofNat entries.length

/-- Write what is new, and make everything durable that the request covers. -/
def storeEntries (prevIndex : UInt64) (entries : List RaftMutationEntry) : RaftOp Unit := do
  let newFrom ← skipPresent prevIndex 0 entries
  if newFrom < entries.length then
    RaftLog.appendFromLeader (prevIndex + 1 + .ofNat newFrom) (entries.drop newFrom)
  if lastNewIndex prevIndex entries > 0 then
    RaftLog.syncThrough (lastNewIndex prevIndex entries).toNat

/-- The commit index follows the leader's, as far as the request covers the log. -/
def advanceCommit (leaderCommit lastNew : UInt64) (raft : RaftState) : RaftState :=
  let commitBound := min leaderCommit lastNew
  if commitBound > raft.commitIndex then { raft with commitIndex := commitBound } else raft

/-- The consistency check. Nothing precedes the first entry, and a log that is too short has term
zero at the index. -/
def prevLogMatches (request : AppendEntriesRequest) : RaftOp Bool :=
  if request.prevLogIdx > 0 then do
    let term ← RaftLog.termAt request.prevLogIdx.toNat
    return decide (term = request.prevLogTerm)
  else return true

/-- What a follower does with the entries of its leader. -/
def replicate (request : AppendEntriesRequest) (entries : List RaftMutationEntry) :
    ServerOp AppendEntriesResponse := do
  let matched ← onLog (prevLogMatches request)
  if matched = true then
    onLog (storeEntries request.prevLogIdx entries)
    onNode (RaftNode.updateRaft
      (advanceCommit request.leaderCommitIdx (lastNewIndex request.prevLogIdx entries)))
  return ⟨(← read raft).currentTerm, matched⟩

def acceptEntries (interruption : Option Interruption) (request : AppendEntriesRequest)
    (leader : NodeAddress) (entries : List RaftMutationEntry) : ServerOp AppendEntriesResponse := do
  onNode (followLeader interruption request.term leader)
  replicate request entries

/-- All entries are decoded before the state is looked at. -/
def appendEntries (interruption : Option Interruption) (request : AppendEntriesRequest) :
    ServerOp (RpcReply AppendEntriesResponse) :=
  match NodeAddress.fromString request.leader with
  | .error e => return .error ⟨e.what⟩
  | .ok leader =>
    match request.entries.mapM RaftProtoCodec.entryFromProto with
    | .error e => return .error ⟨e.what⟩
    | .ok entries => do
      let raft ← read raft
      if raft.isPeer leader = false then
        return .error ⟨"leader address not part of the cluster"⟩
      else if request.term < raft.currentTerm then return .ok ⟨raft.currentTerm, false⟩
      else return .ok (← acceptEntries interruption request leader entries)

end AppendEntries

section Campaign

/-- The requests of a campaign: one for each peer, with the end of the candidate's log. -/
def voteCalls (raft : RaftState) (log : RaftLog) : List VoteCall :=
  raft.peers.map fun peer =>
    ⟨raft.selfRaftAddress, peer,
      ⟨raft.currentTerm, raft.selfRaftAddress.toString, .ofNat log.lastIndex, log.lastTerm⟩⟩

/-- The first part of `RaftElection::campaign`, up to the requests that it sends. A server that is
a majority by itself sends none. -/
def campaign (interruption : Option Interruption) : ServerOp (List VoteCall) := do
  let server ← read id
  if server.shuttingDown = true ∨ server.raft.state = .leader then return []
  else
    onNode (RaftNode.becomeCandidate interruption)
    let raft ← read raft
    if raft.clusterSize / 2 + 1 ≤ 1 then
      onNode (RaftNode.updateRaft (RaftState.becomeLeader (.ofNat server.log.lastIndex)))
      return []
    else
      let calls := voteCalls raft server.log
      modify fun server => { server with calls := server.calls ++ calls }
      return calls

/-- The other part: what the thread of one peer does with the answer. -/
def countVote (interruption : Option Interruption) (call : VoteCall)
    (response : RequestVoteResponse) : ServerOp Unit := do
  let raft ← read raft
  if response.term > raft.currentTerm then
    onNode (RaftNode.becomeFollower interruption response.term none)
  else if call.request.term ≠ raft.currentTerm ∨ raft.state ≠ .candidate then return ()
  else if response.voteGranted = false then return ()
  else
    let (majority, raft) := raft.recordVote call.peer
    onNode (RaftNode.updateRaft fun _ => raft)
    if majority then
      let log ← read RaftServer.log
      onNode (RaftNode.updateRaft (RaftState.becomeLeader (.ofNat log.lastIndex)))

end Campaign

end RaftServer

end Stoneleaf
