import Mathlib.Data.List.TakeWhile
import Mathlib.Order.Lattice

/-!
Binary search over a list that a decidable test splits into two parts. The search is written
with an explicit iteration budget; the length of the list is always enough.
-/

namespace Stoneleaf.Library

open List

variable {α : Type} {before after : List α}

/-- Narrow the interval from `left` to `right` to the first position failing the test. -/
def bisectLoop (test : α → Bool) (xs : List α) : Nat → Nat → Nat → Nat
  | 0, left, _ => left
  | fuel + 1, left, right =>
    if left < right then
      let mid := left + (right - left) / 2
      match xs[mid]? with
      | some x =>
        if test x then bisectLoop test xs fuel (mid + 1) right
        else bisectLoop test xs fuel left mid
      | none => left
    else left

def bisect (test : α → Bool) (xs : List α) : Nat :=
  bisectLoop test xs xs.length 0 xs.length

/-- The loop keeps the split position inside its interval, which shrinks at every turn. -/
theorem bisectLoop_eq {test : α → Bool} (hBefore : ∀ x ∈ before, test x = true)
    (hAfter : ∀ x ∈ after, test x = false) :
    ∀ (fuel left right : Nat), left ≤ before.length → before.length ≤ right →
      right ≤ (before ++ after).length → right - left ≤ fuel →
      bisectLoop test (before ++ after) fuel left right = before.length := by
  intro fuel
  induction fuel with
  | zero =>
    intro left right hLeft hRight _ hFuel
    simp only [bisectLoop]
    omega
  | succ fuel ih =>
    intro left right hLeft hRight hLength hFuel
    simp only [bisectLoop]
    by_cases hLt : left < right
    · have hMid : left + (right - left) / 2 < (before ++ after).length := by omega
      rw [if_pos hLt, getElem?_eq_getElem hMid]
      by_cases hSide : left + (right - left) / 2 < before.length
      · have hTest : test (before ++ after)[left + (right - left) / 2] = true := by
          rw [getElem_append_left hSide]
          exact hBefore _ (getElem_mem _)
        simp only [hTest, if_true]
        exact ih _ _ (by omega) hRight hLength (by omega)
      · have hTest : test (before ++ after)[left + (right - left) / 2] = false := by
          rw [getElem_append_right (Nat.le_of_not_lt hSide)]
          exact hAfter _ (getElem_mem _)
        simp only [hTest, Bool.false_eq_true, if_false]
        exact ih _ _ hLeft (by omega) (by omega) (by omega)
    · rw [if_neg hLt]
      omega

theorem bisect_append {test : α → Bool} (hBefore : ∀ x ∈ before, test x = true)
    (hAfter : ∀ x ∈ after, test x = false) :
    bisect test (before ++ after) = before.length := by
  unfold bisect
  exact bisectLoop_eq hBefore hAfter _ _ _ (Nat.zero_le _) (by simp) le_rfl (by omega)

/-- A sorted list splits at any bound into the smaller elements and the rest. -/
theorem exists_split_of_pairwise_le [LinearOrder α] (xs : List α) (hSorted : xs.Pairwise (· ≤ ·))
    (bound : α) :
    ∃ before after, xs = before ++ after ∧ (∀ x ∈ before, x < bound) ∧
      ∀ x ∈ after, bound ≤ x := by
  induction xs with
  | nil => exact ⟨[], [], rfl, by simp, by simp⟩
  | cons x xs ih =>
    obtain ⟨hHead, hTail⟩ := pairwise_cons.1 hSorted
    rcases lt_or_ge x bound with hLt | hGe
    · obtain ⟨before, after, rfl, hBefore, hAfter⟩ := ih hTail
      refine ⟨x :: before, after, rfl, ?_, hAfter⟩
      rintro y (_ | ⟨_, hy⟩)
      · exact hLt
      · exact hBefore y hy
    · refine ⟨[], x :: xs, rfl, by simp, ?_⟩
      rintro y (_ | ⟨_, hy⟩)
      · exact hGe
      · exact hGe.trans (hHead y hy)

end Stoneleaf.Library
