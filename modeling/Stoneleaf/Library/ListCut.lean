import Mathlib.Data.List.InsertIdx

/-!
Indexed list operations at a known cut. When a list is given as two parts, an index equal to
the length of the first part addresses the boundary, and every indexed operation there is a
plain rearrangement of the parts.
-/

namespace Stoneleaf.Library

variable {α : Type} {i : Nat} {l r : List α} {a b : α}

section

variable (h : i = l.length)
include h

theorem insertIdx_cut : (l ++ r).insertIdx i a = l ++ a :: r := by
  subst h
  induction l with
  | nil => simp
  | cons x l ih => simpa using ih

theorem eraseIdx_cut : (l ++ a :: r).eraseIdx i = l ++ r := by
  subst h
  induction l with
  | nil => simp
  | cons x l ih => simpa using ih

theorem set_cut : (l ++ a :: r).set i b = l ++ b :: r := by
  subst h
  induction l with
  | nil => simp
  | cons x l ih => simp

theorem getElem?_cut : (l ++ a :: r)[i]? = some a := by
  subst h
  simp

theorem getElem?_cut_succ {c : α} : (l ++ a :: c :: r)[i + 1]? = some c := by
  subst h
  simp

end

theorem exists_cut {xs : List α} (h : i < xs.length) :
    ∃ before x after, xs = before ++ x :: after ∧ i = before.length := by
  refine ⟨xs.take i, xs[i], xs.drop (i + 1), ?_, ?_⟩
  · simp
  · simp [Nat.le_of_lt h]

end Stoneleaf.Library
