import Stoneleaf.Raft.RaftLogRefinement
import Stoneleaf.Raft.RaftService

/-!
A follower against the log of its leader. The requests are slices of the leader's log, and they may
be lost, repeated or reordered. The follower cuts its log only at an entry that the leader does not
have, so it never loses an entry of the leader's log, and what it commits is in that log.
-/

namespace Stoneleaf

open Library Program List

namespace RaftLog

variable {log : RaftLog} {leader entries : List RaftMutationEntry} {m n : Nat}

/-- Log matching: where two entries have one index and one term, the logs agree up to there. -/
def Matching (leader entries : List RaftMutationEntry) : Prop :=
  ∀ index a b, leader[index]? = some a → entries[index]? = some b → a.term = b.term →
    leader.take (index + 1) <+: entries

/-- The log matches the leader's and agrees with it up to an index. -/
def Shares (leader : List RaftMutationEntry) (n : Nat) (log : RaftLog) : Prop :=
  ∃ entries, log.Stores entries ∧ Matching leader entries ∧ leader.take n <+: entries

theorem Shares.mono (h : Shares leader n log) (hLe : m ≤ n) : Shares leader m log := by
  obtain ⟨entries, hLog, hMatching, hAgree⟩ := h
  exact ⟨entries, hLog, hMatching, (take_prefix_take_left hLe).trans hAgree⟩

/-- A log that the leader has given. -/
theorem Stores.shares (hLog : log.Stores (leader.take n)) : Shares leader n log := by
  refine ⟨_, hLog, fun index a b _ hEntry _ => take_prefix_take_left ?_, prefix_rfl⟩
  have hShort := (List.getElem?_eq_some_iff.1 hEntry).1
  rw [length_take] at hShort
  omega

/-- Calls that return build a log with the entries that they build on lists. -/
theorem stores_runCalls {config : RaftConfig} {calls : List Call}
    (hOk : (runCalls calls (closed config .empty)).isOk = true)
    (hOpen : (runCalls calls (closed config .empty)).state.segments.isEmpty = false) :
    (runCalls calls (closed config .empty)).state.Stores (calls.foldl Call.apply []) := by
  have hStart : Represents (closed config .empty) [] := .inl ⟨rfl, .inl ⟨rfl, rfl⟩⟩
  cases hRun : runCalls calls (closed config .empty) with
  | ok _ log =>
    rcases okay_of_wp hRun (runCalls_represents hStart calls) with ⟨hClosed, -⟩ | hStores
    · simp [hRun, Outcome.state, hClosed] at hOpen
    · exact hStores
  | fail _ _ | halt _ => simp [hRun, Outcome.isOk] at hOk

theorem termOf_succ (entries : List RaftMutationEntry) (n : Nat) :
    termOf entries (n + 1) = (entries[n]?.map RaftMutationEntry.term).getD 0 :=
  if_neg n.succ_ne_zero

section Stores

variable (h : log.Stores entries)
include h

theorem Stores.termAt_eq (index : Nat) : termAt index log = .ok (termOf entries index) log := by
  obtain ⟨before, last, hOpened, rfl⟩ := h
  exact termAt_spec hOpened index

theorem Stores.length_lt : entries.length < 2 ^ 64 := by
  obtain ⟨before, last, hOpened, rfl⟩ := h
  have hNext := hOpened.next_eq
  have hBound := hOpened.nextIndex_le
  omega

theorem Stores.term_ne_zero {entry : RaftMutationEntry} (hEntry : entry ∈ entries) :
    entry.term ≠ 0 := by
  obtain ⟨before, last, hOpened, rfl⟩ := h
  obtain ⟨extent, hExtent, hRecord⟩ := mem_flatMap.1 hEntry
  have hStorable := (hOpened.held extent hExtent).sound.storable entry hRecord
  obtain ⟨hHeader, -⟩ := RaftEntryCodec.encode_eq_ok_iff.1 hStorable.encode_eq
  intro hZero
  simp [RaftEntryCodec.validateHeader, hZero] at hHeader

theorem Stores.lastIndex_eq : log.lastIndex = entries.length := by
  obtain ⟨before, last, hOpened, rfl⟩ := h
  rw [lastIndex, hOpened.next_eq]
  exact if_neg (Nat.succ_ne_zero _)

end Stores

theorem Shares.le_lastIndex (h : Shares leader n log) (hInside : n ≤ leader.length) :
    n ≤ log.lastIndex := by
  obtain ⟨entries, hLog, -, hAgree⟩ := h
  rw [hLog.lastIndex_eq, ← length_take_of_le hInside]
  exact hAgree.length_le

end RaftLog

namespace RaftServer

open RaftLog

variable {log leaderLog : RaftLog} {leader entries more : List RaftMutationEntry} {prev : UInt64}
  {m : Nat} (hLeader : leaderLog.Stores leader) (hInside : m ≤ leader.length)
include hLeader hInside

section

variable (hLog : log.Stores entries) (hMatching : Matching leader entries)
  (hAgree : leader.take m <+: entries)
include hLog hMatching hAgree

/-- Looking for new entries keeps what agrees with the leader's log. If one is found, nothing else
is left. -/
theorem skipPresent_spec {k : Nat} (hPrev : leader.take (prev.toNat + k) <+: entries)
    (hMore : more <+: leader.drop (prev.toNat + k)) :
    (skipPresent prev k more).wp log
      (fun n log' => n = k + more.length ∧ Shares leader (max m (prev.toNat + n)) log' ∨
        n < k + more.length ∧ m ≤ prev.toNat + n ∧ log'.Stores (leader.take (prev.toNat + n)))
      (fun _ log' => log' = log) fun _ => False := by
  induction more generalizing k with
  | nil =>
    refine .inl ⟨rfl, entries, hLog, hMatching, ?_⟩
    rcases max_choice m (prev.toNat + k) with hMax | hMax <;> rwa [hMax]
  | cons entry more ih =>
    have hEntry : leader[prev.toNat + k]? = some entry := by
      obtain ⟨rest, hRest⟩ := hMore
      rw [← head?_drop, ← hRest]
      rfl
    obtain ⟨hShort, -⟩ := List.getElem?_eq_some_iff.1 hEntry
    have hIdx : (prev + 1 + .ofNat k).toNat = prev.toNat + k + 1 := by
      have hLength := hLeader.length_lt
      rw [UInt64.toNat_add, UInt64.toNat_add, UInt64.toNat_ofNat', UInt64.toNat_one]
      omega
    have hLength := length_take_of_le hShort.le
    rw [skipPresent, wp_bind]
    refine wp_of_ok (hLog.termAt_eq _) ?_
    rw [hIdx, termOf_succ]
    cases hHere : entries[prev.toNat + k]? with
    | none =>
      -- the log ends here
      have hEnd : leader.take (prev.toNat + k) = entries :=
        hPrev.eq_of_length_le (by rw [hLength]; exact getElem?_eq_none_iff.1 hHere)
      have hLe := hAgree.length_le
      rw [← hEnd, hLength, length_take_of_le hInside] at hLe
      exact .inr ⟨by simp, hLe, hEnd ▸ hLog⟩
    | some existing =>
      have hTerm := hLog.term_ne_zero (mem_of_getElem? hHere)
      simp only [Option.map_some, Option.getD_some, hTerm, if_false]
      by_cases hSame : existing.term = entry.term
      · rw [if_neg (not_not.2 hSame)]
        have hRest : more <+: leader.drop (prev.toNat + (k + 1)) := by
          simpa [Nat.add_assoc] using hMore.drop 1
        refine wp_conseq (ih (hMatching _ _ _ hEntry hHere hSame.symm) hRest) fun n log' hNext => ?_
        simpa [Nat.add_assoc, Nat.add_comm 1] using hNext
      · rw [if_pos hSame, wp_bind]
        obtain ⟨before, last, hOpened, rfl⟩ := hLog
        refine wp_conseq (truncateSuffix_opened hOpened _) ?_
        rintro _ log' ⟨-, -, hStores, -⟩
        have hTake := prefix_iff_eq_take.1 hPrev
        rw [hLength] at hTake
        rw [Nat.add_sub_cancel, ← hTake] at hStores
        refine .inr ⟨by simp, ?_, hStores⟩
        -- a longer agreement would contain the conflict
        refine Nat.le_of_not_lt fun hLt => hSame ?_
        obtain ⟨rest, hRest⟩ := hAgree
        rw [← hRest, getElem?_append_left (by rwa [length_take_of_le hInside]),
          getElem?_take_of_lt hLt, hEntry] at hHere
        exact congrArg _ (Option.some.inj hHere).symm

theorem storeEntries_spec (hPrev : leader.take prev.toNat <+: entries)
    (hMore : more <+: leader.drop prev.toNat) :
    (storeEntries prev more).wp log
      (fun _ => Shares leader (max m (prev.toNat + more.length))) (fun _ => Shares leader m)
      fun _ => False := by
  have hSync : ∀ log', Shares leader (max m (prev.toNat + more.length)) log' →
      (if lastNewIndex prev more > 0 then syncThrough (lastNewIndex prev more).toNat
        else pure ()).wp log' (fun _ => Shares leader (max m (prev.toNat + more.length)))
        (fun _ => Shares leader m) fun _ => False := by
    intro log' hShares
    rw [wp_ite]
    refine ⟨fun _ => ?_, fun _ => hShares⟩
    obtain ⟨_, ⟨before, last, hOpened, rfl⟩, hRest⟩ := id hShares
    refine wp_weaken (syncThrough_opened hOpened _) ?_ ?_
    · exact fun _ log' hSynced => ⟨_, ⟨before, last, hSynced.1, rfl⟩, hRest⟩
    · rintro _ _ rfl
      exact hShares.mono (le_max_left _ _)
  -- the entries of the batch from some place on, as many as could be written
  have hJoin : ∀ n c, leader.take (prev.toNat + n) ++ (more.drop n).take c =
      leader.take (prev.toNat + n + min c (more.length - n)) := by
    intro n c
    have hPart : more.drop n = (leader.drop (prev.toNat + n)).take (more.length - n) := by
      rw [← drop_drop, ← drop_take, ← prefix_iff_eq_take.1 hMore]
    rw [hPart, take_take, ← take_add]
  unfold storeEntries
  simp only [wp_bind]
  refine wp_weaken (skipPresent_spec hLeader hInside hLog hMatching hAgree (k := 0) hPrev hMore)
    ?_ ?_
  · intro n log' hNext
    rw [Nat.zero_add] at hNext
    rcases hNext with ⟨rfl, hShares⟩ | ⟨hShort, hLe, before, last, hOpened, hRecords⟩
    · rw [if_neg (lt_irrefl _)]
      exact hSync log' hShares
    · rw [if_pos hShort, wp_bind]
      refine wp_weaken (appendFromLeader_opened hOpened _ _) ?_ ?_
      · rintro _ log₁ ⟨hStores, -⟩
        rw [hRecords, ← take_length (l := more.drop n), hJoin, length_drop] at hStores
        exact hSync log₁ (hStores.shares.mono (by omega))
      · rintro _ log₁ ⟨count, hStores⟩
        rw [hRecords, hJoin] at hStores
        exact hStores.shares.mono (by omega)
  · rintro _ _ rfl
    exact ⟨entries, hLog, hMatching, hAgree⟩

end

/-- The request carries a slice of a leader's log, with the true index and term before it. -/
structure Slice (leader : List RaftMutationEntry) (request : AppendEntriesRequest)
    (more : List RaftMutationEntry) : Prop where
  inside : request.prevLogIdx.toNat ≤ leader.length
  term : request.prevLogTerm = termOf leader request.prevLogIdx.toNat
  decoded : request.entries.mapM RaftProtoCodec.entryFromProto = .ok more
  entries : more <+: leader.drop request.prevLogIdx.toNat

/-- A follower agrees with its leader up to an index. From its first value on, the commit index has
only grown, and neither over that index nor over what leaders have sent. -/
structure Agrees (leader : List RaftMutationEntry) (first sent m : Nat) (server : RaftServer) :
    Prop where
  shares : Shares leader m server.log
  inside : m ≤ leader.length
  first_le : first ≤ server.raft.commitIndex.toNat
  committed : server.raft.commitIndex.toNat ≤ max first (min sent m)

/-- An answer that reports success covers the entries of its request. -/
def covered (request : AppendEntriesRequest) (more : List RaftMutationEntry) :
    RpcReply AppendEntriesResponse → Nat
  | .ok ⟨_, true⟩ => request.prevLogIdx.toNat + more.length
  | _ => 0

omit hLeader hInside

theorem followLeader_commitIndex (interruption : Option Interruption) (term : UInt64)
    (address : NodeAddress) (node : RaftNode) :
    (followLeader interruption term address).Reaches node
      fun node' => node'.raft.commitIndex = node.raft.commitIndex := by
  unfold followLeader RaftNode.becomeFollower RaftNode.advanceTerm RaftNode.updateRaft
    RaftNode.onStore
  simp only [Reaches, wp_bind, wp_read, wp_ite, wp_fail, wp_zoom, wp_modify, implies_true, and_true,
    true_and]
  exact fun _ _ _ => wp_true _ _

variable {request : AppendEntriesRequest} {server : RaftServer} {first sent : Nat}

/-- The commit index of a leader is followed as far as the entries of the request reach. -/
theorem advanceCommit_commitIndex (leaderCommit lastNew : UInt64) (raft : RaftState) :
    (advanceCommit leaderCommit lastNew raft).commitIndex.toNat =
      max raft.commitIndex.toNat (min leaderCommit.toNat lastNew.toNat) := by
  have hMin : (min leaderCommit lastNew).toNat = min leaderCommit.toNat lastNew.toNat := by
    by_cases hLe : leaderCommit ≤ lastNew
    · rw [min_eq_left (UInt64.le_iff_toNat_le.1 hLe)]
      exact congrArg _ (if_pos hLe)
    · rw [min_eq_right (UInt64.lt_iff_toNat_lt.1 (UInt64.not_le.1 hLe)).le]
      exact congrArg _ (if_neg hLe)
  rw [← hMin]
  unfold advanceCommit
  dsimp only
  split
  next hMore => exact (max_eq_right (UInt64.lt_iff_toNat_lt.1 hMore).le).symm
  next hLess => exact (max_eq_left (UInt64.le_iff_toNat_le.1 (UInt64.not_lt.1 hLess))).symm

section Handler

variable (hLeader : leaderLog.Stores leader) (hSlice : Slice leader request more)
include hLeader hSlice

/-- A follower that finds the index and term before the slice agrees with the leader up to there. -/
theorem prevLogMatches_spec (hLog : log.Stores entries) (hMatching : Matching leader entries) :
    (prevLogMatches request).Returns log fun matched log' => log' = log ∧
      (matched = true → leader.take request.prevLogIdx.toNat <+: entries) := by
  unfold prevLogMatches
  rw [Returns, wp_ite]
  refine ⟨fun hPos => ?_, fun hZero => ⟨rfl, fun _ => ?_⟩⟩
  · rw [wp_bind]
    refine wp_of_ok (hLog.termAt_eq _) ⟨rfl, fun hTerm => ?_⟩
    rw [decide_eq_true_iff, hSlice.term] at hTerm
    obtain ⟨n, hn⟩ := Nat.exists_eq_succ_of_ne_zero (Nat.ne_of_gt (UInt64.lt_iff_toNat_lt.1 hPos))
    have hInside := hSlice.inside
    rw [hn] at hTerm hInside ⊢
    have ha := getElem?_eq_getElem hInside
    rw [Nat.succ_eq_add_one, termOf_succ, termOf_succ, ha] at hTerm
    cases hb : entries[n]? with
    | none =>
      exact absurd (by simpa [hb] using hTerm.symm) (hLeader.term_ne_zero (mem_of_getElem? ha))
    | some b => exact hMatching n _ b ha hb (by simpa [hb] using hTerm.symm)
  · have hNone : request.prevLogIdx.toNat = 0 := by
      simpa [UInt64.lt_iff_toNat_lt] using hZero
    rw [hNone]
    exact nil_prefix

variable (h : Agrees leader first sent m server) (hSent : request.leaderCommitIdx.toNat ≤ sent)
include h hSent

theorem replicate_agrees :
    (replicate request more).wp server
      (fun response => Agrees leader first sent (max m (covered request more (.ok response))))
      (fun _ => Agrees leader first sent m) fun _ => False := by
  obtain ⟨entries, hLog, hMatching, hAgree⟩ := h.shares
  have hBound : request.prevLogIdx.toNat + more.length ≤ leader.length := by
    have hInside := hSlice.inside
    have hLength := hSlice.entries.length_le
    rw [length_drop] at hLength
    omega
  unfold replicate onLog
  simp only [wp_bind, wp_zoom]
  refine wp_of_returns (prevLogMatches_spec hLeader hSlice hLog hMatching) ?_
  rintro matched _ ⟨rfl, hPrev⟩
  cases matched with
  | false => simpa [covered] using h
  | true =>
    simp only [if_true, wp_bind, wp_zoom, onNode, RaftNode.updateRaft, wp_modify, wp_read, wp_pure]
    refine wp_weaken (storeEntries_spec hLeader h.inside hLog hMatching hAgree (hPrev rfl)
      hSlice.entries) (fun _ log' hShares => ?_) fun _ log' hShares => { h with shares := hShares }
    have hLast : (lastNewIndex request.prevLogIdx more).toNat ≤
        request.prevLogIdx.toNat + more.length := by
      rw [lastNewIndex, UInt64.toNat_add, UInt64.toNat_ofNat']
      exact (Nat.mod_le _ _).trans (Nat.add_le_add_left (Nat.mod_le _ _) _)
    have hCommit := advanceCommit_commitIndex request.leaderCommitIdx
      (lastNewIndex request.prevLogIdx more) server.raft
    have hCommitted := h.committed
    refine ⟨hShares, max_le h.inside hBound, ?_, ?_⟩
    · exact hCommit ▸ h.first_le.trans (le_max_left _ _)
    · simp only [covered]
      change (advanceCommit _ _ server.raft).commitIndex.toNat ≤ _
      omega

theorem appendEntries_agrees (interruption : Option Interruption) :
    (appendEntries interruption request).wp server
      (fun reply => Agrees leader first sent (max m (covered request more reply)))
      (fun _ => Agrees leader first sent m) fun server' => Agrees leader first sent m server' := by
  have hSame : ∀ node : RaftNode, node.raft.commitIndex = server.raft.commitIndex →
      Agrees leader first sent m { server with node } := fun node hCommit =>
    ⟨h.shares, h.inside, hCommit ▸ h.first_le, hCommit ▸ h.committed⟩
  have hRefused : Agrees leader first sent (max m 0) server := by rwa [Nat.max_zero]
  unfold appendEntries
  cases NodeAddress.fromString request.leader with
  | error e => exact hRefused
  | ok address =>
    rw [hSlice.decoded]
    simp only [wp_bind, wp_read, wp_ite, wp_pure, acceptEntries, onNode, wp_zoom]
    refine ⟨fun _ => hRefused, fun _ => ⟨fun _ => hRefused, fun _ => ?_⟩⟩
    refine wp_mono (followLeader_commitIndex interruption request.term address server.node) ?_
      (fun _ => hSame) hSame
    exact fun _ node hCommit => wp_mono (replicate_agrees hLeader hSlice (hSame node hCommit) hSent)
      (fun _ _ hEnd => hEnd) (fun _ _ hEnd => hEnd) fun _ hFalse => hFalse.elim

end Handler

/-- The server after the given requests, whether their handlers return or throw. -/
def deliver (server : RaftServer) (requests : List AppendEntriesRequest) : RaftServer :=
  requests.foldl (fun server request => (appendEntries none request server).state) server

section Deliver

variable (hLeader : leaderLog.Stores leader) {requests : List AppendEntriesRequest}
  (hSlices : ∀ request ∈ requests, request.leaderCommitIdx.toNat ≤ sent ∧
    ∃ more, Slice leader request more)
include hLeader hSlices

theorem deliver_agrees (h : Agrees leader first sent m server) :
    ∃ n ≥ m, Agrees leader first sent n (deliver server requests) := by
  induction requests generalizing server m with
  | nil => exact ⟨m, le_rfl, h⟩
  | cons request requests ih =>
    obtain ⟨⟨hSent, more, hSlice⟩, hSlices⟩ := forall_mem_cons.1 hSlices
    have hStep : (appendEntries none request).Reaches server fun server' =>
        ∃ n ≥ m, Agrees leader first sent n server' :=
      wp_mono (appendEntries_agrees hLeader hSlice h hSent none)
        (fun _ _ hNext => ⟨_, le_max_left _ _, hNext⟩) (fun _ _ hNext => ⟨m, le_rfl, hNext⟩)
        fun _ hNext => ⟨m, le_rfl, hNext⟩
    obtain ⟨n, hLe, hNext⟩ := state_of_wp hStep
    obtain ⟨k, hLe', hEnd⟩ := ih hSlices hNext
    exact ⟨k, hLe.trans hLe', hEnd⟩

theorem deliver_agrees_of_shares {n : Nat} (hInside : n ≤ leader.length)
    (h : Shares leader n server.log) :
    ∃ k ≥ n, Agrees leader server.raft.commitIndex.toNat sent k (deliver server requests) :=
  deliver_agrees hLeader hSlices ⟨h, hInside, le_rfl, le_max_left _ _⟩

end Deliver

section Pair

/-- The entries of a leader of the second term, and its log. -/
def aheadEntries : List RaftMutationEntry :=
  [⟨1, 1, []⟩, ⟨2, 2, []⟩]

def aheadLog : RaftLog :=
  (runCalls [.openLog, .append 1 [], .append 2 []] (closed tinyConfig .empty)).state

/-- The other member of the cluster starts. After the first of the leader's entries its log has one
of an earlier term. -/
def behind : RaftServer where
  node := (RaftNode.boot [⟨⟨[97], 1⟩, ⟨[97], 2⟩⟩, ⟨⟨[98], 1⟩, ⟨[98], 2⟩⟩] ⟨[98], 2⟩ 0
    (.closed ⟨none, none⟩)).value?.get (by decide +kernel)
  log := (runCalls [.openLog, .append 1 [], .append 1 []] (closed tinyConfig .empty)).state
  calls := []
  shuttingDown := false

def secondEntry : AppendEntriesRequest :=
  ⟨2, [97, 58, 49], 1, 1, [⟨2, 2, []⟩], 2⟩

end Pair

end RaftServer

end Stoneleaf
