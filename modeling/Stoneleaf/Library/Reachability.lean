import Mathlib.Data.Fintype.Card
import Mathlib.Data.Set.Finite.Basic
import Mathlib.Data.List.Basic
import Mathlib.Logic.Relation

/-!
Breadth-first search in a directed graph given by the neighbours of each node, and relations
without cycles. The search has an iteration budget; one turn for every node is enough.
-/

namespace Stoneleaf.Library

open Relation List

section Search

variable {α : Type} [DecidableEq α]

/-- Look through the neighbours of one node. The answer is `none` at the goal; otherwise the
queue and the visited nodes, with every neighbour seen for the first time added to both. -/
def visitNeighbours (goal : α) : List α → List α → List α → Option (List α × List α)
  | [], pending, visited => some (pending, visited)
  | neighbour :: rest, pending, visited =>
    if neighbour = goal then none
    else if neighbour ∈ visited then visitNeighbours goal rest pending visited
    else visitNeighbours goal rest (pending ++ [neighbour]) (neighbour :: visited)

/-- Breadth-first search for the goal, with at most `fuel` nodes taken off the queue. -/
def search (next : α → List α) (goal : α) : Nat → List α → List α → Bool
  | 0, _, _ => false
  | _ + 1, [], _ => false
  | fuel + 1, current :: pending, visited =>
    match visitNeighbours goal (next current) pending visited with
    | none => true
    | some (pending, visited) => search next goal fuel pending visited

variable {next : α → List α} {goal start : α}

theorem visitNeighbours_eq_none_iff (goal : α) :
    ∀ neighbours pending visited : List α,
      visitNeighbours goal neighbours pending visited = none ↔ goal ∈ neighbours := by
  intro neighbours
  induction neighbours with
  | nil => simp [visitNeighbours]
  | cons neighbour rest ih =>
    intro pending visited
    by_cases hGoal : neighbour = goal
    · simp [visitNeighbours, hGoal]
    · by_cases hSeen : neighbour ∈ visited
      · simp [visitNeighbours, hGoal, hSeen, ih, Ne.symm hGoal]
      · simp [visitNeighbours, hGoal, hSeen, ih, Ne.symm hGoal]

/-- What a search knows of the nodes it has reached. Only nodes still in the queue may have
neighbours it has not seen. -/
structure Explored (next : α → List α) (goal start : α) (pending visited : List α) : Prop where
  start_mem : start ∈ visited
  goal_not_mem : goal ∉ visited
  nodup : visited.Nodup
  pending_mem : ∀ v ∈ pending, v ∈ visited
  reached : ∀ v ∈ visited, ReflTransGen (fun v n => n ∈ next v) start v
  closed : ∀ v ∈ visited, v ∉ pending → ∀ n ∈ next v, n ∈ visited

/-- Looking through one node's neighbours without meeting the goal adds exactly the new ones,
each once. -/
theorem visitNeighbours_eq_some {pending' visited' : List α} :
    ∀ {neighbours pending visited : List α},
      visitNeighbours goal neighbours pending visited = some (pending', visited') →
      visited.Nodup → goal ∉ visited →
        visited'.Nodup ∧ goal ∉ visited' ∧
        (∀ v, v ∈ visited' ↔ v ∈ visited ∨ v ∈ neighbours) ∧
        (∀ v, v ∈ pending' ↔ v ∈ pending ∨ v ∈ neighbours ∧ v ∉ visited) ∧
        visited'.length + pending.length = visited.length + pending'.length := by
  intro neighbours
  induction neighbours with
  | nil =>
    rintro pending visited hVisit hNodup hGoal
    obtain ⟨rfl, rfl⟩ := Prod.mk.inj (Option.some.inj hVisit)
    simp [hNodup, hGoal]
  | cons neighbour rest ih =>
    intro pending visited hVisit hNodup hGoal
    by_cases hEq : neighbour = goal
    · simp [visitNeighbours, hEq] at hVisit
    by_cases hSeen : neighbour ∈ visited
    · rw [visitNeighbours, if_neg hEq, if_pos hSeen] at hVisit
      obtain ⟨hNodup', hGoal', hVisited, hPending, hLength⟩ := ih hVisit hNodup hGoal
      refine ⟨hNodup', hGoal', fun v => ?_, fun v => ?_, hLength⟩
      · rw [hVisited, mem_cons]
        grind
      · rw [hPending, mem_cons]
        grind
    · rw [visitNeighbours, if_neg hEq, if_neg hSeen] at hVisit
      obtain ⟨hNodup', hGoal', hVisited, hPending, hLength⟩ := ih hVisit
        (nodup_cons.2 ⟨hSeen, hNodup⟩) (by simp [Ne.symm hEq, hGoal])
      refine ⟨hNodup', hGoal', fun v => ?_, fun v => ?_, ?_⟩
      · rw [hVisited, mem_cons, mem_cons]
        tauto
      · rw [hPending, mem_append, mem_singleton, mem_cons, mem_cons]
        grind
      · simp only [length_append, length_cons, length_nil] at hLength
        omega

theorem Explored.visit {current : α} {pending visited pending' visited' : List α}
    (h : Explored next goal start (current :: pending) visited)
    (hVisit : visitNeighbours goal (next current) pending visited = some (pending', visited')) :
    Explored next goal start pending' visited' := by
  obtain ⟨hNodup, hGoal, hVisited, hPending, -⟩ :=
    visitNeighbours_eq_some hVisit h.nodup h.goal_not_mem
  have hCurrent : current ∈ visited := h.pending_mem current mem_cons_self
  refine ⟨(hVisited start).2 (.inl h.start_mem), hGoal, hNodup, fun v hv => ?_, fun v hv => ?_,
    fun v hv hDone n hn => ?_⟩
  · rcases (hPending v).1 hv with hOld | ⟨hNew, -⟩
    · exact (hVisited v).2 (.inl (h.pending_mem v (mem_cons_of_mem _ hOld)))
    · exact (hVisited v).2 (.inr hNew)
  · rcases (hVisited v).1 hv with hOld | hNew
    · exact h.reached v hOld
    · exact (h.reached current hCurrent).tail hNew
  · rw [hPending] at hDone
    push Not at hDone
    rcases (hVisited v).1 hv with hOld | hNew
    · by_cases hEq : v = current
      · exact (hVisited n).2 (.inr (hEq ▸ hn))
      · have hOut : v ∉ current :: pending := by simp [hEq, hDone.1]
        exact (hVisited n).2 (.inl (h.closed v hOld hOut n hn))
    · by_cases hEq : v = current
      · exact (hVisited n).2 (.inr (hEq ▸ hn))
      · have hOut : v ∉ current :: pending := by simp [hEq, hDone.1]
        exact (hVisited n).2 (.inl (h.closed v (hDone.2 hNew) hOut n hn))

omit [DecidableEq α] in
/-- With the queue empty everything reachable has been visited, so not the goal. -/
theorem Explored.not_reachable {visited : List α} (h : Explored next goal start [] visited) :
    ¬ReflTransGen (fun v n => n ∈ next v) start goal := by
  have hAll : ∀ v, ReflTransGen (fun v n => n ∈ next v) start v → v ∈ visited := by
    intro v hPath
    induction hPath with
    | refl => exact h.start_mem
    | tail _ hStep ih => exact h.closed _ ih (by simp) _ hStep
  exact fun hPath => h.goal_not_mem (hAll goal hPath)

/-- The search from any point on: every turn takes one node off the queue, and a node enters
the queue only when it is first visited. -/
theorem search_eq_true_iff_of_explored {nodes : List α}
    (hNodes : ∀ v ∈ nodes, ∀ n ∈ next v, n ∈ nodes) :
    ∀ {fuel : Nat} {pending visited : List α}, Explored next goal start pending visited →
      visited ⊆ nodes → nodes.length + pending.length ≤ fuel + visited.length →
      (search next goal fuel pending visited = true ↔
        ReflTransGen (fun v n => n ∈ next v) start goal) := by
  intro fuel
  induction fuel with
  | zero =>
    intro pending visited hExplored hSubset hFuel
    have hLe := (hExplored.nodup.subperm hSubset).length_le
    have hNil : pending = [] := eq_nil_of_length_eq_zero (by omega)
    subst hNil
    simpa [search] using hExplored.not_reachable
  | succ fuel ih =>
    intro pending visited hExplored hSubset hFuel
    cases pending with
    | nil => simpa [search] using hExplored.not_reachable
    | cons current pending =>
      have hCurrent : current ∈ visited := hExplored.pending_mem current mem_cons_self
      cases hVisit : visitNeighbours goal (next current) pending visited with
      | none =>
        have hGoal := (visitNeighbours_eq_none_iff goal _ _ _).1 hVisit
        simp only [search, hVisit, true_iff]
        exact (hExplored.reached current hCurrent).tail hGoal
      | some result =>
        obtain ⟨pending', visited'⟩ := result
        obtain ⟨-, -, hVisited, -, hLength⟩ :=
          visitNeighbours_eq_some hVisit hExplored.nodup hExplored.goal_not_mem
        simp only [search, hVisit]
        refine ih (hExplored.visit hVisit) (fun v hv => ?_) ?_
        · rcases (hVisited v).1 hv with hOld | hNew
          · exact hSubset hOld
          · exact hNodes current (hSubset hCurrent) v hNew
        · simp only [length_cons] at hFuel
          omega

/-- Breadth-first search finds the goal exactly if there is a path to it. -/
theorem search_eq_true_iff {nodes : List α} {fuel : Nat} (hStart : start ∈ nodes)
    (hNodes : ∀ v ∈ nodes, ∀ n ∈ next v, n ∈ nodes) (hNe : start ≠ goal)
    (hFuel : nodes.length ≤ fuel) :
    search next goal fuel [start] [start] = true ↔
      ReflTransGen (fun v n => n ∈ next v) start goal := by
  refine search_eq_true_iff_of_explored hNodes ⟨by simp, by simp [Ne.symm hNe], by simp,
    by simp, fun v hv => ?_, by simp⟩ (by simpa using hStart) (by simp [hFuel])
  obtain rfl : v = start := by simpa using hv
  exact .refl

end Search

section Acyclic

variable {α : Type} {r r' : α → α → Prop} {t : α} {targets : List α}

/-- No node reaches itself in one or more steps. -/
def Acyclic (r : α → α → Prop) : Prop := ∀ a, ¬TransGen r a a

theorem Acyclic.mono (h : Acyclic r) (hLe : ∀ a b, r' a b → r a b) : Acyclic r' :=
  fun a hCycle => h a (TransGen.mono hLe a a hCycle)

/-- A path that may use new edges out of `t` either avoids them or runs through `t`. -/
theorem reflTransGen_add_cases {x y : α}
    (hPath : ReflTransGen (fun a b => r a b ∨ a = t ∧ b ∈ targets) x y) :
    ReflTransGen r x y ∨ ReflTransGen r x t ∧ ∃ b ∈ targets, ReflTransGen r b y := by
  induction hPath with
  | refl => exact .inl .refl
  | tail _ hStep ih =>
    rcases hStep with hOld | ⟨rfl, hNew⟩
    · rcases ih with hPlain | ⟨hTo, b, hb, hFrom⟩
      · exact .inl (hPlain.tail hOld)
      · exact .inr ⟨hTo, b, hb, hFrom.tail hOld⟩
    · rcases ih with hPlain | ⟨hTo, -⟩
      · exact .inr ⟨hPlain, _, hNew, .refl⟩
      · exact .inr ⟨hTo, _, hNew, .refl⟩

/-- New edges out of `t` close no cycle when none of their ends reaches `t`. -/
theorem Acyclic.add (h : Acyclic r) (hTargets : ∀ b ∈ targets, ¬ReflTransGen r b t) :
    Acyclic (fun a b => r a b ∨ a = t ∧ b ∈ targets) := by
  intro a hCycle
  obtain ⟨c, hFirst, hRest⟩ := TransGen.head'_iff.1 hCycle
  rcases hFirst with hOld | ⟨rfl, hNew⟩
  · rcases reflTransGen_add_cases hRest with hPlain | ⟨hTo, b, hb, hFrom⟩
    · exact h a (TransGen.head' hOld hPlain)
    · exact hTargets b hb ((hFrom.tail hOld).trans hTo)
  · rcases reflTransGen_add_cases hRest with hPlain | ⟨hTo, -⟩
    · exact hTargets c hNew hPlain
    · exact hTargets c hNew hTo

/-- Following the edges of an acyclic relation with finitely many sources ends in a node
without one. -/
theorem Acyclic.exists_sink (h : Acyclic r) {sources : List α}
    (hSources : ∀ a b, r a b → a ∈ sources) (a : α) :
    ∃ b, ReflTransGen r a b ∧ ∀ c, ¬r b c := by
  let below : {x // x ∈ sources} → {x // x ∈ sources} → Prop := fun x y => TransGen r y.1 x.1
  have hTrans : IsTrans _ below := ⟨fun _ _ _ hxy hyz => hyz.trans hxy⟩
  have hIrrefl : Std.Irrefl below := ⟨fun x hCycle => h x.1 hCycle⟩
  have hFinite : Finite {x // x ∈ sources} := (finite_toSet sources).to_subtype
  have hWell : WellFounded below := Finite.wellFounded_of_trans_of_irrefl below
  have hInside : ∀ x : {x // x ∈ sources}, ∃ b, ReflTransGen r x.1 b ∧ ∀ c, ¬r b c := by
    intro x
    induction x using hWell.induction with
    | _ x ih =>
      by_cases hSink : ∀ c, ¬r x.1 c
      · exact ⟨x.1, .refl, hSink⟩
      · push Not at hSink
        obtain ⟨c, hStep⟩ := hSink
        by_cases hMem : c ∈ sources
        · obtain ⟨b, hPath, hEnd⟩ := ih ⟨c, hMem⟩ (.single hStep)
          exact ⟨b, hPath.head hStep, hEnd⟩
        · exact ⟨c, .single hStep, fun d hd => hMem (hSources c d hd)⟩
  by_cases hMem : a ∈ sources
  · exact hInside ⟨a, hMem⟩
  · exact ⟨a, .refl, fun c hc => hMem (hSources a c hc)⟩

end Acyclic

end Stoneleaf.Library
