import Stoneleaf.Library.SearchTree
import Stoneleaf.Library.ListCut

/-!
The order of a search tree, stated node by node: the keys of each node increase, and each
separator of a branch lies above the entries of the child before it and not above those of
the child after it. When every child holds an entry this is the same as one increasing
sequence of marks.
-/

namespace Stoneleaf.Library

open List

variable {ι κ ν : Type} {h : Nat}

namespace SearchTree

section Shape

/-- Branches have one child more than separators, and no child is without entries. -/
def Proper : {h : Nat} → SearchTree ι κ ν h → Prop
  | 0, _ => True
  | _ + 1, t => (BranchNode.children t).length = (BranchNode.keys t).length + 1 ∧
      ∀ c ∈ BranchNode.children t, Proper c ∧ c.entries ≠ []

@[simp] theorem proper_branch {i : ι} {ks : List κ} {cs : List (SearchTree ι κ ν h)} :
    Proper (branch i ks cs) ↔ cs.length = ks.length + 1 ∧ ∀ c ∈ cs, Proper c ∧ c.entries ≠ [] :=
  Iff.rfl

theorem Proper.entries_ne_nil {t : SearchTree ι κ ν (h + 1)} (hProper : Proper t) :
    t.entries ≠ [] := by
  obtain ⟨i, ks, cs, rfl⟩ := eq_branch t
  obtain ⟨hLength, hChildren⟩ := proper_branch.1 hProper
  obtain ⟨c, cs, rfl⟩ := exists_cons_of_length_eq_add_one hLength
  rw [entries_branch_flatMap hLength, flatMap_cons]
  exact append_ne_nil_of_left_ne_nil (hChildren c mem_cons_self).2 _

/-- The marks of a tree begin and end with entries. -/
theorem exists_marks_ends : ∀ {h : Nat} {t : SearchTree ι κ ν h}, Proper t → t.entries ≠ [] →
    (∃ e ∈ t.entries, ∃ rest, t.marks = toLex (e.1, true) :: rest) ∧
      ∃ e ∈ t.entries, ∃ rest, t.marks = rest ++ [toLex (e.1, true)] := by
  intro h
  induction h with
  | zero =>
    intro t _ hNonempty
    obtain ⟨i, es, rfl⟩ := eq_leaf t
    simp only [entries_leaf, marks_leaf] at hNonempty ⊢
    obtain ⟨e, rest, rfl⟩ := exists_cons_of_ne_nil hNonempty
    obtain ⟨init, last, hLast⟩ := eq_nil_or_concat (e :: rest) |>.resolve_left (by simp)
    refine ⟨⟨e, by simp, _, rfl⟩, last, ?_, init.map fun e => toLex (e.1, true), ?_⟩
    · simp [hLast]
    · simp [hLast]
  | succ h ih =>
    intro t hProper _
    obtain ⟨i, ks, cs, rfl⟩ := eq_branch t
    obtain ⟨hLength, hChildren⟩ := proper_branch.1 hProper
    rw [entries_branch_flatMap hLength]
    constructor
    · obtain ⟨c, cs, rfl⟩ := exists_cons_of_length_eq_add_one hLength
      obtain ⟨hc, hNonempty⟩ := hChildren c mem_cons_self
      obtain ⟨⟨e, he, rest, hMarks⟩, -⟩ := ih hc hNonempty
      have hCut := marks_branch_cut (i := i) (l := []) (r := ks) (x := []) (y := cs) c rfl
      refine ⟨e, by simp [he], rest ++ (weaveRight tokens ks cs).filterMap Token.asMark, ?_⟩
      rw [nil_append, nil_append] at hCut
      rw [hCut, hMarks]
      rfl
    · obtain ⟨x, c, rfl⟩ := eq_nil_or_concat cs |>.resolve_left (by rintro rfl; simp at hLength)
      rw [concat_eq_append] at *
      obtain ⟨hc, hNonempty⟩ := hChildren c (by simp)
      obtain ⟨-, e, he, rest, hMarks⟩ := ih hc hNonempty
      have hCut := marks_branch_cut (i := i) (l := ks) (r := []) (x := x) (y := []) c
        (by simpa using hLength)
      refine ⟨e, by simp [he], (weaveLeft tokens ks x).filterMap Token.asMark ++ rest, ?_⟩
      rw [append_nil] at hCut
      rw [hCut, hMarks]
      simp

end Shape

section Order

variable [LinearOrder κ]

/-- Each separator lies above the child before it and not above the child after it. -/
def Separates (keys : List κ) (children : List (SearchTree ι κ ν h)) : Prop :=
  ∀ i k, keys[i]? = some k →
    (∀ c, children[i]? = some c → ∀ e ∈ c.entries, e.1 < k) ∧
      ∀ c, children[i + 1]? = some c → ∀ e ∈ c.entries, k ≤ e.1

/-- The order of a tree, node by node. -/
def WellOrdered : {h : Nat} → SearchTree ι κ ν h → Prop
  | 0, t => ((LeafNode.entries t).map Prod.fst).Pairwise (· < ·)
  | _ + 1, t => (BranchNode.keys t).Pairwise (· < ·) ∧
      Separates (BranchNode.keys t) (BranchNode.children t) ∧
      ∀ c ∈ BranchNode.children t, WellOrdered c

@[simp] theorem wellOrdered_leaf {i : ι} {es : List (κ × ν)} :
    WellOrdered (leaf i es) ↔ (es.map Prod.fst).Pairwise (· < ·) := Iff.rfl

@[simp] theorem wellOrdered_branch {i : ι} {ks : List κ} {cs : List (SearchTree ι κ ν h)} :
    WellOrdered (branch i ks cs) ↔
      ks.Pairwise (· < ·) ∧ Separates ks cs ∧ ∀ c ∈ cs, WellOrdered c := Iff.rfl

variable {t : SearchTree ι κ ν h} {k : κ} {cs : List (SearchTree ι κ ν h)} {c : SearchTree ι κ ν h}
  {ks : List κ}

/-- A key above all entries of a tree is above all of its marks. -/
theorem marks_lt_separator (hProper : Proper t) (hNonempty : t.entries ≠ [])
    (hSorted : t.marks.Pairwise (· < ·)) (hAbove : ∀ e ∈ t.entries, e.1 < k) :
    ∀ m ∈ t.marks, m < toLex (k, false) := by
  obtain ⟨-, e, he, rest, hMarks⟩ := exists_marks_ends hProper hNonempty
  have hLast : (toLex (e.1, true) : κ ×ₗ Bool) < toLex (k, false) :=
    Prod.Lex.toLex_lt_toLex.2 (Or.inl (hAbove e he))
  rw [hMarks] at hSorted ⊢
  intro m hm
  rcases mem_append.1 hm with hm | hm
  · exact ((pairwise_append.1 hSorted).2.2 m hm _ (by simp)).trans hLast
  · rwa [mem_singleton.1 hm]

/-- A key not above any entry of a tree comes before all marks of a list that starts with that
tree. -/
theorem separator_lt_marks {B : List (κ ×ₗ Bool)} (hProper : Proper t)
    (hNonempty : t.entries ≠ []) (hSorted : (t.marks ++ B).Pairwise (· < ·))
    (hBelow : ∀ e ∈ t.entries, k ≤ e.1) : ∀ m ∈ t.marks ++ B, toLex (k, false) < m := by
  obtain ⟨⟨e, he, rest, hMarks⟩, -⟩ := exists_marks_ends hProper hNonempty
  have hFirst : (toLex (k, false) : κ ×ₗ Bool) < toLex (e.1, true) := by
    rcases (hBelow e he).lt_or_eq with hLt | hEq
    · exact Prod.Lex.toLex_lt_toLex.2 (Or.inl hLt)
    · exact Prod.Lex.toLex_lt_toLex.2 (Or.inr ⟨hEq, show false < true by decide⟩)
  rw [hMarks, cons_append, pairwise_cons] at hSorted
  rw [hMarks, cons_append]
  intro m hm
  rcases mem_cons.1 hm with rfl | hm
  · exact hFirst
  · exact hFirst.trans (hSorted.1 m hm)

theorem Separates.tail {k : κ} (hSeparates : Separates (k :: ks) (c :: cs)) :
    Separates ks cs :=
  fun i k' hk => hSeparates (i + 1) k' hk

/-- Ordered children with separators that fit make one increasing sequence. -/
theorem sorted_weave (hLength : cs.length = ks.length)
    (hChildren : ∀ c' ∈ c :: cs, Proper c' ∧ c'.entries ≠ [] ∧ c'.marks.Pairwise (· < ·))
    (hSeparates : Separates ks (c :: cs)) :
    (c.marks ++ (weaveRight tokens ks cs).filterMap Token.asMark).Pairwise (· < ·) := by
  induction cs generalizing c ks with
  | nil =>
    have hNil : ks = [] := length_eq_zero_iff.1 hLength.symm
    subst hNil
    simpa using (hChildren c mem_cons_self).2.2
  | cons d cs ih =>
    obtain ⟨k, ks, rfl⟩ := exists_cons_of_length_eq_add_one hLength.symm
    obtain ⟨hc, hcNonempty, hcSorted⟩ := hChildren c mem_cons_self
    obtain ⟨hd, hdNonempty, -⟩ := hChildren d (by simp)
    have hRest := ih (by simpa using hLength)
      (fun c' hc' => hChildren c' (mem_cons_of_mem _ hc')) hSeparates.tail
    obtain ⟨hAbove, hBelow⟩ := hSeparates 0 k rfl
    have hLeft := marks_lt_separator hc hcNonempty hcSorted (hAbove c rfl)
    have hRight := separator_lt_marks hd hdNonempty hRest (hBelow d rfl)
    rw [weaveRight_cons, filterMap_cons_some (Token.asMark_separator k), filterMap_append]
    refine pairwise_append.2 ⟨hcSorted, pairwise_cons.2 ⟨hRight, hRest⟩, ?_⟩
    intro m hm m' hm'
    rcases mem_cons.1 hm' with rfl | hm'
    · exact hLeft m hm
    · exact (hLeft m hm).trans (hRight m' hm')

/-- The children and separators of an ordered branch fit. -/
theorem separates_of_sorted {i : ι} (hLength : cs.length = ks.length + 1)
    (hSorted : (branch i ks cs).marks.Pairwise (· < ·)) : Separates ks cs := by
  intro n k hk
  obtain ⟨hn, -⟩ := List.getElem?_eq_some_iff.1 hk
  obtain ⟨l, k', r, rfl, rfl⟩ := exists_cut hn
  obtain rfl : k' = k := Option.some.inj ((getElem?_cut rfl).symm.trans hk)
  obtain ⟨x, a, y', rfl, hx⟩ := exists_cut
    (show l.length < cs.length by rw [hLength, length_append, length_cons]; omega)
  obtain ⟨b, y, rfl⟩ : ∃ b y, y' = b :: y := by
    refine exists_cons_of_ne_nil ?_
    rintro rfl
    simp only [length_append, length_cons, length_nil] at hLength
    omega
  rw [marks_branch_pair a b k' hx.symm] at hSorted
  have hPair := (pairwise_append.1 (pairwise_append.1 hSorted).1).2.1
  obtain ⟨-, hRight, hLeft⟩ := pairwise_append.1 hPair
  have hEntry : ∀ {c : SearchTree ι κ ν h} {e : κ × ν}, e ∈ c.entries →
      (toLex (e.1, true) : κ ×ₗ Bool) ∈ c.marks := fun {c e} he =>
    (entries_sublist_marks c.tokens).mem (mem_map.2 ⟨e, he, rfl⟩)
  constructor
  · intro c hc e he
    obtain rfl : a = c := Option.some.inj ((getElem?_cut hx).symm.trans hc)
    rcases Prod.Lex.toLex_lt_toLex.1 (hLeft _ (hEntry he) _ mem_cons_self) with
      hLt | ⟨-, hFalse⟩
    · exact hLt
    · exact absurd hFalse (show ¬(true < false) by decide)
  · intro c hc e he
    obtain rfl : b = c := Option.some.inj ((getElem?_cut_succ hx).symm.trans hc)
    rcases Prod.Lex.toLex_lt_toLex.1 ((pairwise_cons.1 hRight).1 _ (hEntry he)) with
      hLt | ⟨hEq, -⟩
    · exact hLt.le
    · exact hEq.le

/-- The marks of an ordered branch include those of each child in order. -/
theorem sorted_child {i : ι} (hLength : cs.length = ks.length + 1)
    (hSorted : (branch i ks cs).marks.Pairwise (· < ·)) (hc : c ∈ cs) :
    c.marks.Pairwise (· < ·) := by
  obtain ⟨n, hn, rfl⟩ := getElem_of_mem hc
  obtain ⟨x, c, y, rfl, rfl⟩ := exists_cut hn
  have hLe : x.length ≤ ks.length := by
    simp only [length_append, length_cons] at hLength
    omega
  have hCut := marks_branch_cut (i := i) (l := ks.take x.length) (r := ks.drop x.length)
    (x := x) (y := y) c (by simp [hLe])
  rw [take_append_drop] at hCut
  rw [hCut] at hSorted
  simpa using (pairwise_append.1 (pairwise_append.1 hSorted).1).2.1

/-- The two readings of the order agree. -/
theorem sorted_marks_iff : ∀ {h : Nat} {t : SearchTree ι κ ν h}, Proper t →
    (t.marks.Pairwise (· < ·) ↔ WellOrdered t) := by
  intro h
  induction h with
  | zero =>
    intro t _
    obtain ⟨i, es, rfl⟩ := eq_leaf t
    simp [pairwise_map, Prod.Lex.toLex_lt_toLex]
  | succ h ih =>
    intro t hProper
    obtain ⟨i, ks, cs, rfl⟩ := eq_branch t
    obtain ⟨hLength, hChildren⟩ := proper_branch.1 hProper
    rw [wellOrdered_branch]
    constructor
    · intro hSorted
      refine ⟨?_, separates_of_sorted hLength hSorted, fun c hc => ?_⟩
      · rw [marks_branch] at hSorted
        exact sorted_separators hLength hSorted
      · exact (ih (hChildren c hc).1).1 (sorted_child hLength hSorted hc)
    · rintro ⟨-, hSeparates, hOrdered⟩
      obtain ⟨c, cs, rfl⟩ := exists_cons_of_length_eq_add_one hLength
      have hWeave := sorted_weave (by simpa using hLength) (fun c' hc' =>
        ⟨(hChildren c' hc').1, (hChildren c' hc').2, (ih (hChildren c' hc').1).2 (hOrdered c' hc')⟩)
        hSeparates
      rw [marks_branch, weave, filterMap_append]
      exact hWeave

end Order

end SearchTree

end Stoneleaf.Library
