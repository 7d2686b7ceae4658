import Stoneleaf.Log.Layout

/-!
A chain of segments as one list of records: where in the list a segment lies, and which segment
has a given number.
-/

namespace Stoneleaf

open List

variable {R : Type} {expected : Nat} {extents a b : List (Extent R)} {extent : Extent R}

/-- The records of all segments, in order. -/
def chainRecords (extents : List (Extent R)) : List R :=
  extents.flatMap Extent.records

@[simp] theorem chainRecords_append :
    chainRecords (a ++ b) = chainRecords a ++ chainRecords b := by
  simp [chainRecords]

@[simp] theorem chainRecords_cons :
    chainRecords (extent :: b) = extent.records ++ chainRecords b := by
  simp [chainRecords]

@[simp] theorem chainRecords_nil : chainRecords ([] : List (Extent R)) = [] :=
  rfl

namespace Segment.Chained

/-- A segment begins behind the records of those before it. -/
theorem base_eq (h : Chained expected ((a ++ extent :: b).map Extent.segment)) :
    extent.base = expected + (chainRecords a).length := by
  induction a generalizing expected with
  | nil => exact h.1
  | cons first a ih =>
    rw [cons_append, map_cons] at h
    have hBase : first.base = expected := h.1
    rw [ih h.2, chainRecords_cons, length_append]
    change first.base + first.records.length + _ = _
    omega

theorem next_eq (h : Chained expected ((a ++ [extent]).map Extent.segment)) :
    extent.next = expected + (chainRecords (a ++ [extent])).length := by
  rw [Extent.next, h.base_eq, chainRecords_append, length_append, Nat.add_assoc,
    chainRecords_cons, chainRecords_nil, append_nil]

/-- Every number up to the end of the chain lies in one of its segments. -/
theorem exists_extent (h : Chained expected (extents.map Extent.segment)) {number : Nat}
    (hLow : expected ≤ number) (hHigh : number < expected + (chainRecords extents).length) :
    ∃ a extent b, extents = a ++ extent :: b ∧ extent.base ≤ number ∧ number < extent.next := by
  induction extents generalizing expected with
  | nil => simp at hHigh; omega
  | cons first rest ih =>
    have hBase : first.base = expected := h.1
    by_cases hFirst : number < first.next
    · exact ⟨[], first, rest, rfl, hBase.le.trans hLow, hFirst⟩
    · have hNext : first.next = expected + first.records.length := by rw [← hBase, Extent.next]
      obtain ⟨a, extent, b, rfl, hIn⟩ := ih h.2 (Nat.le_of_not_lt hFirst) (by
        rw [chainRecords_cons, length_append] at hHigh
        change number < first.next + _
        omega)
      exact ⟨first :: a, extent, b, rfl, hIn⟩

variable (h : Chained expected ((a ++ extent :: b).map Extent.segment))
include h

/-- The record with a number, in the list and in its segment. -/
theorem getElem?_eq {number : Nat} (hLow : extent.base ≤ number) (hHigh : number < extent.next) :
    (chainRecords (a ++ extent :: b))[number - expected]? =
      extent.records[number - extent.base]? := by
  have hBase := h.base_eq
  rw [Extent.next] at hHigh
  rw [chainRecords_append, chainRecords_cons, getElem?_append_right (by omega),
    getElem?_append_left (by omega)]
  congr 1
  omega

/-- The segments before one end before it. -/
theorem next_le {earlier : Extent R} (hMem : earlier ∈ a) : earlier.next ≤ extent.base := by
  obtain ⟨c, d, rfl⟩ := append_of_mem hMem
  rw [append_assoc, cons_append, map_append, chained_append, map_cons] at h
  refine h.2.2.le_base ?_ (mem_map.2 ⟨extent, by simp, rfl⟩)
  intro segment hSegment
  obtain ⟨e, -, rfl⟩ := mem_map.1 hSegment
  exact e.base_le_next

end Segment.Chained

end Stoneleaf
