import Stoneleaf.Raft.Election

/-!
The configuration file of a cluster. Each row names a member by two addresses. Rows are told apart
by the spelling of their addresses, while everything that runs compares parsed hosts and ports;
the two agree as long as every port is spelled the way it is written.
-/

namespace Stoneleaf

open Library List NodeAddress

variable {cluster : List ClusterMember}

namespace ClusterConfig

def newline : UInt8 := 10

/-- The sign that starts a comment. -/
def hash : UInt8 := 35

/-- The lines of a file, as `getline` returns them one by one. -/
def lines : List UInt8 → List (List UInt8)
  | [] => []
  | byte :: rest =>
    if byte = newline then [] :: lines rest
    else
      match lines rest with
      | [] => [[byte]]
      | line :: more => (byte :: line) :: more

def isSpace (byte : UInt8) : Bool :=
  byte == 32 || (9 ≤ byte && byte ≤ 13)

/-- The words of a line before its comment. -/
def fields (line : List UInt8) : List (List UInt8) :=
  ((line.takeWhile (· != hash)).splitOnP isSpace).filter (!·.isEmpty)

/-- Bytes as they appear in a message. -/
def shown (text : List UInt8) : String :=
  String.ofList (text.map fun byte => Char.ofNat byte.toNat)

def malformed (path : String) (lineNumber : Nat) (why : String) : Exception :=
  .runtimeError ("Cluster config " ++ path ++ " line " ++ toString lineNumber ++ ": " ++ why)

/-- The two sets of spellings and the members read so far. -/
structure Parsing where
  raftAddresses : List (List UInt8)
  clientAddresses : List (List UInt8)
  cluster : List ClusterMember

def readMember (raftText clientText : List UInt8) : Except Exception ClusterMember := do
  return ⟨← NodeAddress.fromString raftText, ← NodeAddress.fromString clientText⟩

/-- A row with two words. -/
def addMember (path : String) (lineNumber : Nat) (parsing : Parsing)
    (raftText clientText : List UInt8) : Except Exception Parsing :=
  match readMember raftText clientText with
  | .error error => .error (malformed path lineNumber error.what)
  | .ok member =>
    if raftText ∈ parsing.raftAddresses then
      .error (malformed path lineNumber ("duplicate raft address " ++ shown raftText))
    else if clientText ∈ parsing.clientAddresses then
      .error (malformed path lineNumber ("duplicate database server address " ++ shown clientText))
    else .ok {
      raftAddresses := raftText :: parsing.raftAddresses
      clientAddresses := clientText :: parsing.clientAddresses
      cluster := parsing.cluster ++ [member] }

/-- A row. Blank lines and lines with only a comment are skipped. -/
def parseLine (path : String) (lineNumber : Nat) (parsing : Parsing) (line : List UInt8) :
    Except Exception Parsing :=
  match fields line with
  | [] => .ok parsing
  | [_] => .error (malformed path lineNumber "expected '<raft_addr> <database_server_addr>'")
  | [raftText, clientText] => addMember path lineNumber parsing raftText clientText
  | _ => .error (malformed path lineNumber "expected exactly two addresses")

def parseLines (path : String) : Nat → Parsing → List (List UInt8) → Except Exception Parsing
  | _, parsing, [] => .ok parsing
  | lineNumber, parsing, line :: rest => do
    let parsing ← parseLine path lineNumber parsing line
    parseLines path (lineNumber + 1) parsing rest

/-- The members of a configuration file. A file that cannot be read has no content. -/
def parseClusterConfig (path : String) (file : Option (List UInt8)) :
    Except Exception (List ClusterMember) :=
  match file with
  | none => .error (.runtimeError ("Cannot read cluster config " ++ path))
  | some text => do
    let parsing ← parseLines path 1 ⟨[], [], []⟩ (lines text)
    if parsing.cluster = [] then
      .error (.runtimeError ("Cluster config " ++ path ++ " has no nodes"))
    else return parsing.cluster

/-- The two spellings in a row. -/
def spelling (line : List UInt8) : List (List UInt8 × List UInt8) :=
  match fields line with
  | [raftText, clientText] => [(raftText, clientText)]
  | _ => []

/-- The spellings of the members in the file. -/
def spellings (text : List UInt8) : List (List UInt8 × List UInt8) :=
  (lines text).flatMap spelling

/-- A member was read from these spellings. -/
def ReadFrom (row : List UInt8 × List UInt8) (member : ClusterMember) : Prop :=
  NodeAddress.fromString row.1 = .ok member.raft ∧
    NodeAddress.fromString row.2 = .ok member.databaseServer

/-- What is known after some rows. -/
structure Parsing.Holds (parsing : Parsing) (rows : List (List UInt8 × List UInt8)) : Prop where
  read : List.Forall₂ ReadFrom rows parsing.cluster
  raftAddresses : ∀ text, text ∈ parsing.raftAddresses ↔ text ∈ rows.map Prod.fst
  clientAddresses : ∀ text, text ∈ parsing.clientAddresses ↔ text ∈ rows.map Prod.snd
  raftNodup : (rows.map Prod.fst).Nodup
  clientNodup : (rows.map Prod.snd).Nodup

variable {path : String} {lineNumber : Nat} {parsing parsing' : Parsing}
  {rows : List (List UInt8 × List UInt8)} {raftText clientText : List UInt8}

theorem readFrom_of_readMember {member : ClusterMember}
    (h : readMember raftText clientText = .ok member) : ReadFrom (raftText, clientText) member := by
  obtain ⟨raft, hRaft, h⟩ := bind_eq_ok_iff.1 h
  obtain ⟨client, hClient, h⟩ := bind_eq_ok_iff.1 h
  cases h
  exact ⟨hRaft, hClient⟩

theorem Parsing.Holds.addMember (hHolds : parsing.Holds rows)
    (h : addMember path lineNumber parsing raftText clientText = .ok parsing') :
    parsing'.Holds (rows ++ [(raftText, clientText)]) := by
  unfold ClusterConfig.addMember at h
  split at h
  · cases h
  · rename_i member hMember
    obtain ⟨hRaft, h⟩ := guard_eq_ok_iff.1 h
    obtain ⟨hClient, h⟩ := guard_eq_ok_iff.1 h
    cases h
    rw [hHolds.raftAddresses] at hRaft
    rw [hHolds.clientAddresses] at hClient
    refine ⟨?_, ?_, ?_, ?_, ?_⟩
    · exact rel_append hHolds.read (.cons (readFrom_of_readMember hMember) .nil)
    · intro text
      rw [mem_cons, hHolds.raftAddresses, map_append, mem_append, or_comm]
      simp
    · intro text
      rw [mem_cons, hHolds.clientAddresses, map_append, mem_append, or_comm]
      simp
    · rw [map_append]
      exact hHolds.raftNodup.append (nodup_singleton _) (by simpa using hRaft)
    · rw [map_append]
      exact hHolds.clientNodup.append (nodup_singleton _) (by simpa using hClient)

theorem Parsing.Holds.parseLine {line : List UInt8} (hHolds : parsing.Holds rows)
    (h : parseLine path lineNumber parsing line = .ok parsing') :
    parsing'.Holds (rows ++ spelling line) := by
  unfold ClusterConfig.parseLine at h
  split at h
  · rename_i hFields
    cases h
    rwa [spelling, hFields, append_nil]
  · cases h
  · rename_i hFields
    rw [spelling, hFields]
    exact hHolds.addMember h
  · cases h

theorem Parsing.Holds.parseLines {file : List (List UInt8)} (hHolds : parsing.Holds rows)
    (h : parseLines path lineNumber parsing file = .ok parsing') :
    parsing'.Holds (rows ++ file.flatMap spelling) := by
  induction file generalizing lineNumber parsing rows with
  | nil =>
    cases h
    rwa [flatMap_nil, append_nil]
  | cons line rest ih =>
    obtain ⟨middle, hLine, hRest⟩ := bind_eq_ok_iff.1 h
    rw [flatMap_cons, ← append_assoc]
    exact ih (hHolds.parseLine hLine) hRest

/-- The members of an accepted file were read from its spellings, which are all different. -/
theorem holds_of_parseClusterConfig {text : List UInt8}
    (h : parseClusterConfig path (some text) = .ok cluster) :
    ∃ parsing : Parsing, parsing.cluster = cluster ∧ parsing.Holds (spellings text) := by
  obtain ⟨parsing, hLines, h⟩ := bind_eq_ok_iff.1 h
  obtain ⟨-, h⟩ := guard_eq_ok_iff.1 h
  cases h
  have hStart : (⟨[], [], []⟩ : Parsing).Holds [] :=
    ⟨.nil, by simp, by simp, nodup_nil, nodup_nil⟩
  exact ⟨parsing, rfl, hStart.parseLines hLines⟩

end ClusterConfig

section Membership

variable {members : List ClusterMember} {self : NodeAddress}

theorem Membership.peers_subset_add (seen : Membership) (member : ClusterMember) :
    seen.peers ⊆ (Membership.add self seen member).peers := by
  unfold Membership.add
  split
  · exact List.Subset.refl _
  · split
    · exact List.Subset.refl _
    · exact subset_append_left _ _

/-- With different addresses in all rows no row is skipped. -/
theorem Membership.mem_peers (hNodup : (members.map ClusterMember.raft).Nodup)
    {member : ClusterMember} (hMember : member ∈ members)
    (hOther : member.databaseServer ≠ self) :
    member.raft ∈ (members.foldl (Membership.add self) .empty).peers := by
  induction members using List.reverseRecOn with
  | nil => cases hMember
  | append_singleton rows last ih =>
    rw [foldl_append]
    rw [map_append, nodup_append] at hNodup
    rcases mem_append.1 hMember with hBefore | hLast
    · exact Membership.peers_subset_add _ _ (ih hNodup.1 hBefore)
    · obtain rfl := mem_singleton.1 hLast
      have hNew : member.raft ∉
          (rows.foldl (Membership.add self) .empty).clusterNodes.map Prod.fst := by
        rw [(Membership.sound_foldl self rows).mem]
        exact fun hSeen => hNodup.2.2 _ hSeen _ (by simp) rfl
      simp only [foldl_cons, foldl_nil]
      rw [Membership.add, if_neg hNew, if_neg hOther]
      exact mem_append_right _ mem_cons_self

/-- The peers are those of the rows. -/
theorem RaftState.peers_of_create {hardState : RaftHardState} {lastApplied : UInt64}
    {raft : RaftState} (h : RaftState.create members self hardState lastApplied = .ok raft) :
    raft.peers = (members.foldl (Membership.add self) .empty).peers := by
  unfold RaftState.create at h
  dsimp only at h
  split at h
  · cases h
  · obtain ⟨vote, -, h⟩ := bind_eq_ok_iff.1 h
    cases h
    rfl

end Membership

namespace ClusterConfig

/-- A configuration as its readers take it to be: different members, spelled as in the file, and
the same cluster for each of them. -/
structure Faithful (text : List UInt8) (cluster : List ClusterMember) : Prop where
  raft : (cluster.map ClusterMember.raft).Nodup
  databaseServer : (cluster.map ClusterMember.databaseServer).Nodup
  rendered : cluster.map (fun member => (member.raft.toString, member.databaseServer.toString)) =
    spellings text
  built : ∀ member ∈ cluster, ∀ hardState lastApplied raft,
    RaftState.create cluster member.databaseServer hardState lastApplied = .ok raft →
      raft.clusterSize = cluster.length ∧
        ∀ other ∈ cluster, other ≠ member → other.raft ∈ raft.peers

/-- Every port in the file is spelled without a superfluous leading zero. -/
def PlainPorts (text : List UInt8) : Prop :=
  ∀ row ∈ spellings text, PlainDecimal (NodeAddress.portText row.1) ∧
    PlainDecimal (NodeAddress.portText row.2)

theorem rendered_iff {rows : List (List UInt8 × List UInt8)}
    (h : List.Forall₂ ReadFrom rows cluster) :
    cluster.map (fun member => (member.raft.toString, member.databaseServer.toString)) = rows ↔
      ∀ row ∈ rows, PlainDecimal (portText row.1) ∧
        PlainDecimal (portText row.2) := by
  induction h with
  | nil => simp
  | @cons row member rows cluster hRow _ ih =>
    rw [map_cons, List.cons.injEq, ih, forall_mem_cons,
      ← toString_eq_iff hRow.1, ← toString_eq_iff hRow.2, Prod.ext_iff]

theorem Faithful.of_rendered {text : List UInt8} {parsing : Parsing}
    (hHolds : parsing.Holds (spellings text))
    (hRendered : cluster.map (fun member =>
      (member.raft.toString, member.databaseServer.toString)) = spellings text) :
    Faithful text cluster := by
  have hRaft : (cluster.map ClusterMember.raft).Nodup := by
    have hTexts := hHolds.raftNodup
    rw [← hRendered, map_map] at hTexts
    refine List.Nodup.of_map toString ?_
    rwa [map_map]
  have hServer : (cluster.map ClusterMember.databaseServer).Nodup := by
    have hTexts := hHolds.clientNodup
    rw [← hRendered, map_map] at hTexts
    refine List.Nodup.of_map toString ?_
    rwa [map_map]
  refine ⟨hRaft, hServer, hRendered, ?_⟩
  intro member hMember hardState lastApplied raft hCreate
  constructor
  · rw [(RaftState.create_joined hCreate).1.size, hRaft.dedup, length_map]
  · intro other hOther hNe
    rw [RaftState.peers_of_create hCreate]
    refine Membership.mem_peers hRaft hOther fun hSame => hNe ?_
    exact inj_on_of_nodup_map hServer hOther hMember hSame

/-- An accepted file is what its readers take it to be exactly if its ports are plain. -/
theorem faithful_iff_plainPorts (path : String) (text : List UInt8) :
    (∀ cluster, parseClusterConfig path (some text) = .ok cluster → Faithful text cluster) ↔
      ((∃ cluster, parseClusterConfig path (some text) = .ok cluster) → PlainPorts text) := by
  constructor
  · rintro hFaithful ⟨cluster, hParse⟩
    obtain ⟨parsing, rfl, hHolds⟩ := holds_of_parseClusterConfig hParse
    exact (rendered_iff hHolds.read).1 (hFaithful _ hParse).rendered
  · intro hPlain cluster hParse
    obtain ⟨parsing, rfl, hHolds⟩ := holds_of_parseClusterConfig hParse
    exact .of_rendered hHolds ((rendered_iff hHolds.read).2 (hPlain ⟨_, hParse⟩))

/-- The rows `h:080 c:1` and `h:80 c:2`. -/
def doubledText : List UInt8 :=
  [104, 58, 48, 56, 48, 32, 99, 58, 49, 10, 104, 58, 56, 48, 32, 99, 58, 50, 10]

/-- The member that both rows name, with its two database servers. -/
def doubledCluster : List ClusterMember :=
  [⟨⟨[104], 80⟩, ⟨[99], 1⟩⟩, ⟨⟨[104], 80⟩, ⟨[99], 2⟩⟩]

/-- Two spellings of one address are accepted as two members. Their Raft addresses are the same,
the first one is not written as in the file, and the first node takes itself for the whole
cluster. -/
theorem doubledText_accepted :
    (parseClusterConfig "cluster" (some doubledText)).toOption = some doubledCluster ∧
      ¬(doubledCluster.map ClusterMember.raft).Nodup ∧
      doubledCluster.map (fun member => member.raft.toString) ≠
        (spellings doubledText).map Prod.fst ∧
      ((RaftState.create doubledCluster ⟨[99], 1⟩ ⟨0, none⟩ 0).toOption.map
        fun raft => (raft.clusterSize, raft.peers)) = some (1, []) := by
  decide +kernel

end ClusterConfig

end Stoneleaf
