import Mathlib.Data.List.AList
import Stoneleaf.Library.Reachability
import Stoneleaf.Log.WalRecord

/-!
The wait-for graph of the transaction manager. An edge from one transaction to another says
that the first waits for the second. The edges are stored twice, by source and by
destination; a set of transactions is a list here, since its order is never used.
-/

namespace Stoneleaf

open Library Relation AList

/-- The transactions linked to each transaction. -/
abbrev LinkIndex := AList fun _ : TransactionId => List TransactionId

namespace LinkIndex

def links (index : LinkIndex) (txnId : TransactionId) : List TransactionId :=
  (index.lookup txnId).getD []

/-- Change the set of a transaction that has one. -/
def modify (index : LinkIndex) (txnId : TransactionId)
    (f : List TransactionId → List TransactionId) : LinkIndex :=
  match index.lookup txnId with
  | none => index
  | some set => index.insert txnId (f set)

/-- Take `txnId` out of the sets of all the given transactions. -/
def eraseFrom (index : LinkIndex) (owners : List TransactionId) (txnId : TransactionId) :
    LinkIndex :=
  owners.foldl (fun index owner => index.modify owner (List.filter (· ≠ txnId))) index

variable {index : LinkIndex} {a b k t : TransactionId} {f : List TransactionId → List TransactionId}

theorem links_of_not_mem (h : a ∉ index) : links index a = [] := by
  simp [links, lookup_eq_none.2 h]

theorem mem_of_mem_links (h : b ∈ links index a) : a ∈ index := by
  by_contra hNot
  simp [links_of_not_mem hNot] at h

@[simp] theorem links_insert_self (index : LinkIndex) (a : TransactionId)
    (set : List TransactionId) : links (index.insert a set) a = set := by
  simp [links]

theorem links_insert_ne (h : a ≠ k) (set : List TransactionId) :
    links (index.insert k set) a = links index a := by
  simp [links, lookup_insert_ne h]

@[simp] theorem links_erase_self (index : LinkIndex) (a : TransactionId) :
    links (index.erase a) a = [] := by
  simp [links]

theorem links_erase_ne (h : a ≠ k) : links (index.erase k) a = links index a := by
  simp [links, lookup_erase_ne h]

@[simp] theorem mem_modify {f : List TransactionId → List TransactionId} :
    a ∈ index.modify k f ↔ a ∈ index := by
  cases hLookup : index.lookup k with
  | none => simp [modify, hLookup]
  | some set =>
    have hMem : k ∈ index := lookup_isSome.1 (by simp [hLookup])
    simp only [modify, hLookup, mem_insert, or_iff_right_iff_imp]
    rintro rfl
    exact hMem

theorem links_modify_self (h : k ∈ index) :
    links (index.modify k f) k = f (links index k) := by
  obtain ⟨set, hSet⟩ := Option.isSome_iff_exists.1 (lookup_isSome.2 h)
  simp [modify, links, hSet]

theorem links_modify_ne (h : a ≠ k) :
    links (index.modify k f) a = links index a := by
  cases hLookup : index.lookup k with
  | none => simp [modify, hLookup]
  | some set =>
    simp only [modify, hLookup]
    exact links_insert_ne h _

theorem mem_links_modify_filter :
    b ∈ links (index.modify k (List.filter (· ≠ t))) a ↔
      b ∈ links index a ∧ ¬(a = k ∧ b = t) := by
  by_cases hEq : a = k
  · subst hEq
    by_cases hMem : a ∈ index
    · rw [links_modify_self hMem]
      simp
    · rw [links_of_not_mem (by simpa using hMem), links_of_not_mem hMem]
      simp
  · rw [links_modify_ne hEq]
    simp [hEq]

@[simp] theorem mem_eraseFrom (owners : List TransactionId) :
    a ∈ index.eraseFrom owners t ↔ a ∈ index := by
  induction owners generalizing index with
  | nil => rfl
  | cons owner rest ih => exact ih.trans mem_modify

theorem mem_links_eraseFrom (owners : List TransactionId) :
    b ∈ links (index.eraseFrom owners t) a ↔ b ∈ links index a ∧ ¬(a ∈ owners ∧ b = t) := by
  induction owners generalizing index with
  | nil => simp [eraseFrom]
  | cons owner rest ih =>
    refine ih.trans ?_
    rw [mem_links_modify_filter, List.mem_cons]
    tauto

end LinkIndex

structure WaitForGraph where
  outgoingLinks : LinkIndex
  incomingLinks : LinkIndex

namespace WaitForGraph

open LinkIndex

def empty : WaitForGraph := ⟨∅, ∅⟩

def addNode (graph : WaitForGraph) (txnId : TransactionId) : WaitForGraph :=
  if txnId ∈ graph.outgoingLinks then graph
  else
    { outgoingLinks := graph.outgoingLinks.insert txnId []
      incomingLinks := if txnId ∈ graph.incomingLinks then graph.incomingLinks
        else graph.incomingLinks.insert txnId [] }

def remove (graph : WaitForGraph) (txnId : TransactionId) : WaitForGraph :=
  if txnId ∉ graph.outgoingLinks ∨ txnId ∉ graph.incomingLinks then graph
  else
    { outgoingLinks := (graph.outgoingLinks.eraseFrom (links graph.incomingLinks txnId)
        txnId).erase txnId
      incomingLinks := (graph.incomingLinks.eraseFrom (links graph.outgoingLinks txnId)
        txnId).erase txnId }

/-- Whether `source` reaches `target`. The search visits at most the start and the ends of the
stored edges. -/
def pathExists (graph : WaitForGraph) (source target : TransactionId) : Bool :=
  if source ∉ graph.outgoingLinks ∨ target ∉ graph.outgoingLinks then false
  else if source = target then true
  else search (links graph.outgoingLinks) target
    (source :: graph.outgoingLinks.entries.flatMap Sigma.snd).length [source] [source]

/-- One edge in both indexes; an edge that is there already stays. -/
def insertEdge (source : TransactionId) (graph : WaitForGraph) (target : TransactionId) :
    WaitForGraph :=
  if target ∈ links graph.outgoingLinks source then graph
  else
    { outgoingLinks := graph.outgoingLinks.modify source (List.insert target)
      incomingLinks := graph.incomingLinks.modify target (List.insert source) }

/-- All edges of one request, or `none` when the request is refused. -/
def addEdges (graph : WaitForGraph) (source : TransactionId)
    (destinations : List TransactionId) : Option WaitForGraph :=
  if source ∉ graph.outgoingLinks then none
  else if ∃ target ∈ destinations,
      target ∉ graph.incomingLinks ∨ graph.pathExists target source then none
  else some (destinations.foldl (insertEdge source) graph)

def removeOutgoing (graph : WaitForGraph) (txnId : TransactionId) : WaitForGraph :=
  if txnId ∉ graph.outgoingLinks then graph
  else
    { outgoingLinks := graph.outgoingLinks.insert txnId []
      incomingLinks := graph.incomingLinks.eraseFrom (links graph.outgoingLinks txnId) txnId }

variable {graph graph' : WaitForGraph} {a b t : TransactionId}
  {destinations : List TransactionId}

/-- The first transaction waits for the second. -/
def Edge (graph : WaitForGraph) (a b : TransactionId) : Prop :=
  b ∈ links graph.outgoingLinks a

instance (graph : WaitForGraph) (a b : TransactionId) : Decidable (graph.Edge a b) :=
  inferInstanceAs (Decidable (b ∈ links graph.outgoingLinks a))

/-- The two indexes have the same nodes and the same edges. -/
structure Consistent (graph : WaitForGraph) : Prop where
  nodes : ∀ t, t ∈ graph.outgoingLinks ↔ t ∈ graph.incomingLinks
  converse : ∀ a b, graph.Edge a b ↔ a ∈ links graph.incomingLinks b

theorem Edge.source_mem (hEdge : graph.Edge a b) : a ∈ graph.outgoingLinks :=
  mem_of_mem_links hEdge

theorem Consistent.target_mem (h : graph.Consistent) (hEdge : graph.Edge a b) :
    b ∈ graph.outgoingLinks :=
  (h.nodes b).2 (mem_of_mem_links ((h.converse a b).1 hEdge))

theorem consistent_empty : empty.Consistent :=
  ⟨fun _ => by simp [empty], fun a b => by simp [Edge, links, empty]⟩

/-- What `pathExists` decides, on any graph. -/
theorem pathExists_iff :
    graph.pathExists a b = true ↔
      a ∈ graph.outgoingLinks ∧ b ∈ graph.outgoingLinks ∧ ReflTransGen graph.Edge a b := by
  by_cases hNodes : a ∈ graph.outgoingLinks ∧ b ∈ graph.outgoingLinks
  · obtain ⟨ha, hb⟩ := hNodes
    by_cases hEq : a = b
    · subst hEq
      simp [pathExists, ha, ReflTransGen.refl]
    · have hSearch : search (links graph.outgoingLinks) b
          (a :: graph.outgoingLinks.entries.flatMap Sigma.snd).length [a] [a] = true ↔
          ReflTransGen graph.Edge a b := by
        refine search_eq_true_iff List.mem_cons_self (fun v _ n hn => ?_) hEq le_rfl
        obtain ⟨set, hSet⟩ := Option.isSome_iff_exists.1
          (lookup_isSome.2 (mem_of_mem_links hn))
        have hIn : n ∈ set := by simpa [links, hSet] using hn
        refine List.mem_cons_of_mem _ (List.mem_flatMap.2 ⟨⟨v, set⟩, ?_, hIn⟩)
        exact mem_lookup_iff.1 hSet
      simpa [pathExists, ha, hb, hEq] using hSearch
  · have hRefused : a ∉ graph.outgoingLinks ∨ b ∉ graph.outgoingLinks := by tauto
    rw [pathExists, if_pos hRefused]
    simp only [Bool.false_eq_true, false_iff]
    tauto

theorem edge_addNode (t a b : TransactionId) : (graph.addNode t).Edge a b ↔ graph.Edge a b := by
  by_cases hMem : t ∈ graph.outgoingLinks
  · simp [addNode, hMem]
  · simp only [addNode, hMem, if_false, Edge]
    by_cases hEq : a = t
    · subst hEq
      simp [links_of_not_mem hMem]
    · rw [links_insert_ne hEq]

theorem Consistent.addNode (h : graph.Consistent) (t : TransactionId) :
    (graph.addNode t).Consistent := by
  by_cases hMem : t ∈ graph.outgoingLinks
  · simpa [WaitForGraph.addNode, hMem] using h
  have hIn : t ∉ graph.incomingLinks := fun hNot => hMem ((h.nodes t).2 hNot)
  refine ⟨fun a => ?_, fun a b => ?_⟩
  · simp [WaitForGraph.addNode, hMem, hIn, h.nodes a]
  · rw [edge_addNode, h.converse]
    simp only [WaitForGraph.addNode, hMem, hIn, if_false]
    by_cases hEq : b = t
    · subst hEq
      simp [links_of_not_mem hIn]
    · rw [links_insert_ne hEq]

theorem mem_removeOutgoing :
    a ∈ (graph.removeOutgoing t).outgoingLinks ↔ a ∈ graph.outgoingLinks := by
  by_cases hMem : t ∈ graph.outgoingLinks
  · simp only [removeOutgoing, hMem, not_true_eq_false, if_false, mem_insert,
      or_iff_right_iff_imp]
    rintro rfl
    exact hMem
  · simp [removeOutgoing, hMem]

theorem edge_removeOutgoing :
    (graph.removeOutgoing t).Edge a b ↔ graph.Edge a b ∧ a ≠ t := by
  by_cases hMem : t ∈ graph.outgoingLinks
  · simp only [removeOutgoing, hMem, not_true_eq_false, if_false, Edge]
    by_cases hEq : a = t
    · subst hEq
      simp
    · rw [links_insert_ne hEq]
      simp [hEq]
  · simp only [removeOutgoing, hMem, not_false_eq_true, if_true, iff_self_and]
    rintro hEdge rfl
    exact hMem (mem_of_mem_links hEdge)

section

variable (h : graph.Consistent)
include h

theorem Consistent.removeOutgoing (t : TransactionId) : (graph.removeOutgoing t).Consistent := by
  by_cases hMem : t ∈ graph.outgoingLinks
  · refine ⟨fun a => ?_, fun a b => ?_⟩
    · rw [mem_removeOutgoing, h.nodes a]
      simp [WaitForGraph.removeOutgoing, hMem]
    · rw [edge_removeOutgoing]
      simp only [WaitForGraph.removeOutgoing, hMem, not_true_eq_false, if_false,
        mem_links_eraseFrom, ← h.converse]
      refine and_congr_right fun hEdge => ?_
      constructor
      · rintro hNe ⟨-, rfl⟩
        exact hNe rfl
      · rintro hNot rfl
        exact hNot ⟨hEdge, rfl⟩
  · simpa [WaitForGraph.removeOutgoing, hMem] using h

theorem Consistent.mem_remove :
    a ∈ (graph.remove t).outgoingLinks ↔ a ∈ graph.outgoingLinks ∧ a ≠ t := by
  by_cases hMem : t ∈ graph.outgoingLinks
  · simp [WaitForGraph.remove, hMem, (h.nodes t).1 hMem, and_comm]
  · simp only [WaitForGraph.remove, hMem, not_false_eq_true, true_or, if_true, iff_self_and]
    rintro ha rfl
    exact hMem ha

theorem Consistent.edge_remove : (graph.remove t).Edge a b ↔ graph.Edge a b ∧ a ≠ t ∧ b ≠ t := by
  by_cases hMem : t ∈ graph.outgoingLinks
  · simp only [WaitForGraph.remove, hMem, (h.nodes t).1 hMem, not_true_eq_false, or_self,
      if_false, Edge]
    by_cases hEq : a = t
    · subst hEq
      simp
    · rw [links_erase_ne hEq, mem_links_eraseFrom]
      refine and_congr_right fun hEdge => ?_
      have hIn : a ∈ links graph.incomingLinks b := (h.converse a b).1 hEdge
      constructor
      · refine fun hNot => ⟨hEq, ?_⟩
        rintro rfl
        exact hNot ⟨hIn, rfl⟩
      · rintro ⟨-, hNe⟩ ⟨-, rfl⟩
        exact hNe rfl
  · simp only [WaitForGraph.remove, hMem, not_false_eq_true, true_or, if_true, iff_self_and]
    intro hEdge
    constructor
    · rintro rfl
      exact hMem hEdge.source_mem
    · rintro rfl
      exact hMem (h.target_mem hEdge)

theorem Consistent.remove (t : TransactionId) : (graph.remove t).Consistent := by
  by_cases hMem : t ∈ graph.outgoingLinks
  · have hIn := (h.nodes t).1 hMem
    refine ⟨fun a => ?_, fun a b => ?_⟩
    · rw [h.mem_remove, h.nodes a]
      simp [WaitForGraph.remove, hMem, hIn, and_comm]
    · rw [h.edge_remove]
      simp only [WaitForGraph.remove, hMem, hIn, not_true_eq_false, or_self, if_false]
      by_cases hEq : b = t
      · subst hEq
        simp
      · rw [links_erase_ne hEq, mem_links_eraseFrom, ← h.converse]
        refine and_congr_right fun hEdge => ?_
        constructor
        · rintro ⟨hNe, -⟩ ⟨-, rfl⟩
          exact hNe rfl
        · refine fun hNot => ⟨?_, hEq⟩
          rintro rfl
          exact hNot ⟨hEdge, rfl⟩
  · simpa [WaitForGraph.remove, hMem] using h

end

theorem mem_insertEdge :
    a ∈ (insertEdge t graph b).outgoingLinks ↔ a ∈ graph.outgoingLinks := by
  by_cases hOld : b ∈ links graph.outgoingLinks t
  · simp [insertEdge, hOld]
  · simp [insertEdge, hOld]

theorem edge_insertEdge (hSource : t ∈ graph.outgoingLinks) {c : TransactionId} :
    (insertEdge t graph c).Edge a b ↔ graph.Edge a b ∨ a = t ∧ b = c := by
  by_cases hOld : c ∈ links graph.outgoingLinks t
  · simp only [insertEdge, hOld, if_true, iff_self_or]
    rintro ⟨rfl, rfl⟩
    exact hOld
  · simp only [insertEdge, hOld, if_false, Edge]
    by_cases hEq : a = t
    · subst hEq
      rw [links_modify_self hSource, List.mem_insert_iff]
      tauto
    · rw [links_modify_ne hEq]
      tauto

theorem Consistent.insertEdge (h : graph.Consistent) (hSource : t ∈ graph.outgoingLinks)
    {c : TransactionId} (hTarget : c ∈ graph.incomingLinks) :
    (insertEdge t graph c).Consistent := by
  by_cases hOld : c ∈ links graph.outgoingLinks t
  · simpa [WaitForGraph.insertEdge, hOld] using h
  refine ⟨fun a => ?_, fun a b => ?_⟩
  · rw [mem_insertEdge, h.nodes a]
    simp [WaitForGraph.insertEdge, hOld]
  · rw [edge_insertEdge hSource, h.converse]
    simp only [WaitForGraph.insertEdge, hOld, if_false]
    by_cases hEq : b = c
    · subst hEq
      rw [links_modify_self hTarget, List.mem_insert_iff]
      tauto
    · rw [links_modify_ne hEq]
      tauto

/-- What a fold of single insertions adds. -/
theorem insertEdges_spec (destinations : List TransactionId) (hSource : t ∈ graph.outgoingLinks)
    (hConsistent : graph.Consistent)
    (hTargets : ∀ b ∈ destinations, b ∈ graph.incomingLinks) :
    (destinations.foldl (insertEdge t) graph).Consistent ∧
      (∀ a, a ∈ (destinations.foldl (insertEdge t) graph).outgoingLinks ↔ a ∈ graph.outgoingLinks) ∧
      ∀ a b, (destinations.foldl (insertEdge t) graph).Edge a b ↔
        graph.Edge a b ∨ a = t ∧ b ∈ destinations := by
  induction destinations generalizing graph with
  | nil => simp [hConsistent]
  | cons c rest ih =>
    have hNext := hConsistent.insertEdge hSource (hTargets c List.mem_cons_self)
    obtain ⟨hDone, hNodes, hEdges⟩ := ih (mem_insertEdge.2 hSource) hNext fun b hb => by
      rw [← hNext.nodes, mem_insertEdge, hConsistent.nodes]
      exact hTargets b (List.mem_cons_of_mem _ hb)
    refine ⟨hDone, fun a => (hNodes a).trans mem_insertEdge, fun a b => ?_⟩
    rw [List.foldl_cons, hEdges, edge_insertEdge hSource, List.mem_cons]
    tauto

/-- A request is refused exactly when one of its nodes is missing or it would close a cycle. -/
theorem Consistent.addEdges_eq_none_iff (h : graph.Consistent) :
    graph.addEdges t destinations = none ↔
      t ∉ graph.outgoingLinks ∨
        ∃ b ∈ destinations, b ∉ graph.outgoingLinks ∨ ReflTransGen graph.Edge b t := by
  by_cases hSource : t ∈ graph.outgoingLinks
  · simp only [WaitForGraph.addEdges, hSource, not_true_eq_false, if_false, false_or,
      ite_eq_left_iff, reduceCtorEq, imp_false, not_not, pathExists_iff, ← h.nodes, true_and]
    refine exists_congr fun b => and_congr_right fun _ => ?_
    tauto
  · simp [WaitForGraph.addEdges, hSource]

/-- An accepted request adds exactly its edges. -/
theorem Consistent.addEdges_spec (h : graph.Consistent)
    (hAdd : graph.addEdges t destinations = some graph') :
    graph'.Consistent ∧ (∀ a, a ∈ graph'.outgoingLinks ↔ a ∈ graph.outgoingLinks) ∧
      (∀ a b, graph'.Edge a b ↔ graph.Edge a b ∨ a = t ∧ b ∈ destinations) ∧
      ∀ b ∈ destinations, ¬ReflTransGen graph.Edge b t := by
  have hAccepted : graph.addEdges t destinations ≠ none := by simp [hAdd]
  rw [Ne, h.addEdges_eq_none_iff] at hAccepted
  push Not at hAccepted
  obtain ⟨hSource, hTargets⟩ := hAccepted
  obtain ⟨hDone, hNodes, hEdges⟩ := insertEdges_spec destinations hSource h
    fun b hb => (h.nodes b).1 (hTargets b hb).1
  have hResult : destinations.foldl (WaitForGraph.insertEdge t) graph = graph' := by
    by_cases hBad : ∃ target ∈ destinations,
        target ∉ graph.incomingLinks ∨ graph.pathExists target t
    · simp [WaitForGraph.addEdges, hSource, hBad] at hAdd
    · simpa [WaitForGraph.addEdges, hSource, hBad] using hAdd
  rw [hResult] at hDone hNodes hEdges
  exact ⟨hDone, hNodes, hEdges, fun b hb => (hTargets b hb).2⟩

/-- Both indexes agree and no transaction waits for itself, directly or through others. -/
structure Sound (graph : WaitForGraph) : Prop where
  consistent : graph.Consistent
  acyclic : Acyclic graph.Edge

namespace Sound

theorem empty : WaitForGraph.empty.Sound := by
  refine ⟨consistent_empty, fun a hCycle => ?_⟩
  obtain ⟨b, hEdge, -⟩ := TransGen.head'_iff.1 hCycle
  simp [Edge, links, WaitForGraph.empty] at hEdge

variable (h : graph.Sound)
include h

theorem addNode (t : TransactionId) : (graph.addNode t).Sound :=
  ⟨h.consistent.addNode t, h.acyclic.mono fun a b => (edge_addNode t a b).1⟩

theorem removeOutgoing (t : TransactionId) : (graph.removeOutgoing t).Sound :=
  ⟨h.consistent.removeOutgoing t, h.acyclic.mono fun _ _ hEdge => (edge_removeOutgoing.1 hEdge).1⟩

theorem remove (t : TransactionId) : (graph.remove t).Sound :=
  ⟨h.consistent.remove t, h.acyclic.mono fun _ _ hEdge => (h.consistent.edge_remove.1 hEdge).1⟩

theorem addEdges (hAdd : graph.addEdges t destinations = some graph') : graph'.Sound := by
  obtain ⟨hDone, -, hEdges, hTargets⟩ := h.consistent.addEdges_spec hAdd
  exact ⟨hDone, (h.acyclic.add hTargets).mono fun a b => (hEdges a b).1⟩

end Sound

/-- A call that changes the graph. -/
inductive Call where
  | addNode (txnId : TransactionId)
  | addEdges (source : TransactionId) (destinations : List TransactionId)
  | removeOutgoing (txnId : TransactionId)
  | remove (txnId : TransactionId)

/-- What a call returns, and the graph after it. Only `add_edges` can be refused, and it checks its
whole request before it touches the graph. -/
def call (graph : WaitForGraph) : Call → Bool × WaitForGraph
  | .addNode txnId => (true, graph.addNode txnId)
  | .addEdges source destinations =>
    match graph.addEdges source destinations with
    | none => (false, graph)
    | some graph' => (true, graph')
  | .removeOutgoing txnId => (true, graph.removeOutgoing txnId)
  | .remove txnId => (true, graph.remove txnId)

def runCalls (graph : WaitForGraph) (calls : List Call) : WaitForGraph :=
  calls.foldl (fun graph c => (graph.call c).2) graph

theorem Sound.call (h : graph.Sound) (c : Call) : (graph.call c).2.Sound := by
  cases c with
  | addNode txnId => exact h.addNode txnId
  | removeOutgoing txnId => exact h.removeOutgoing txnId
  | remove txnId => exact h.remove txnId
  | addEdges source destinations =>
    dsimp only [WaitForGraph.call]
    cases hAdd : graph.addEdges source destinations with
    | none => exact h
    | some graph' => exact h.addEdges hAdd

theorem Sound.runCalls (h : graph.Sound) (calls : List Call) : (graph.runCalls calls).Sound := by
  induction calls generalizing graph with
  | nil => exact h
  | cons c calls ih => exact ih (h.call c)

/-- After any calls the two indexes are converse to each other and there is no cycle. A request for
edges is refused, and then changes nothing, if a node is missing or if it would close a cycle;
otherwise it adds exactly its edges. -/
theorem graph_tracks_edges (calls : List Call) (source : TransactionId)
    (destinations : List TransactionId) :
    let graph := empty.runCalls calls
    let result := graph.call (.addEdges source destinations)
    (∀ a b, b ∈ links graph.outgoingLinks a ↔ a ∈ links graph.incomingLinks b) ∧
      (∀ a, ¬TransGen graph.Edge a a) ∧
      (result.1 = false ↔ source ∉ graph.outgoingLinks ∨ ∃ b ∈ destinations,
        b ∉ graph.outgoingLinks ∨ b = source ∨ TransGen graph.Edge b source) ∧
      (result.1 = false → result.2 = graph) ∧
      (result.1 = true → (∀ a, a ∈ result.2.outgoingLinks ↔ a ∈ graph.outgoingLinks) ∧
        ∀ a b, result.2.Edge a b ↔ graph.Edge a b ∨ a = source ∧ b ∈ destinations) := by
  intro graph result
  have hSound : graph.Sound := Sound.empty.runCalls calls
  have hRefused : graph.addEdges source destinations = none ↔
      source ∉ graph.outgoingLinks ∨ ∃ b ∈ destinations,
        b ∉ graph.outgoingLinks ∨ b = source ∨ TransGen graph.Edge b source := by
    rw [hSound.consistent.addEdges_eq_none_iff]
    simp only [reflTransGen_iff_eq_or_transGen, eq_comm]
  refine ⟨hSound.consistent.converse, hSound.acyclic, ?_⟩
  cases hAdd : graph.addEdges source destinations with
  | none =>
    have hResult : result = (false, graph) := by
      dsimp only [result, WaitForGraph.call]
      rw [hAdd]
    rw [hResult, ← hRefused, hAdd]
    simp
  | some graph' =>
    have hResult : result = (true, graph') := by
      dsimp only [result, WaitForGraph.call]
      rw [hAdd]
    obtain ⟨-, hNodes, hEdges, -⟩ := hSound.consistent.addEdges_spec hAdd
    rw [hResult, ← hRefused, hAdd]
    exact ⟨by simp, by simp, fun _ => ⟨hNodes, hEdges⟩⟩

end WaitForGraph

end Stoneleaf
