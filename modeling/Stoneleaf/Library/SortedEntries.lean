import Mathlib.Data.List.Basic
import Mathlib.Logic.Function.Basic
import Mathlib.Order.Lattice

/-!
Entries of a map as a list. Insertion and removal are given by the keys below and above the
one at hand, so that a list cut at that key shows the result at once; what a key is mapped to
afterwards does not depend on the order of the list.
-/

namespace Stoneleaf.Library

open List

variable {κ ν : Type} [LinearOrder κ] {before after es : List (κ × ν)} {key k : κ} {v : ν}

/-- The value of a key. -/
def valueOf (es : List (κ × ν)) (k : κ) : Option ν :=
  es.lookup k

def insertEntry (key : κ) (v : ν) (es : List (κ × ν)) : List (κ × ν) :=
  es.filter (fun e => e.1 < key) ++ (key, v) :: es.filter (fun e => key < e.1)

def removeEntry (key : κ) (es : List (κ × ν)) : List (κ × ν) :=
  es.filter (fun e => e.1 < key) ++ es.filter (fun e => key < e.1)

theorem valueOf_append (a b : List (κ × ν)) (k : κ) :
    valueOf (a ++ b) k = (valueOf a k).or (valueOf b k) := by
  induction a with
  | nil => simp [valueOf]
  | cons e a ih =>
    obtain ⟨k', v⟩ := e
    simp only [valueOf, cons_append, lookup_cons] at ih ⊢
    cases k == k' <;> simp [ih]

theorem valueOf_cons (e : κ × ν) (es : List (κ × ν)) (k : κ) :
    valueOf (e :: es) k = if k = e.1 then some e.2 else valueOf es k := by
  obtain ⟨k', v⟩ := e
  by_cases h : k = k'
  · simp [valueOf, h]
  · have hFalse : (k == k') = false := by simpa using h
    simp [valueOf, lookup_cons, hFalse, h]

theorem valueOf_eq_none_iff : valueOf es k = none ↔ k ∉ es.map Prod.fst := by
  induction es with
  | nil => simp [valueOf]
  | cons e es ih =>
    rw [valueOf_cons]
    by_cases h : k = e.1 <;> simp [h, ih]

theorem mem_of_valueOf_eq_some (h : valueOf es k = some v) : (k, v) ∈ es := by
  induction es with
  | nil => simp [valueOf] at h
  | cons e es ih =>
    rw [valueOf_cons] at h
    split at h
    · rename_i hKey
      rw [hKey, ← Option.some.inj h]
      exact mem_cons_self
    · exact mem_cons_of_mem _ (ih h)

theorem valueOf_map {μ : Type} (f : ν → μ) (es : List (κ × ν)) (k : κ) :
    valueOf (es.map fun e => (e.1, f e.2)) k = (valueOf es k).map f := by
  induction es with
  | nil => rfl
  | cons e es ih =>
    rw [map_cons, valueOf_cons, valueOf_cons]
    split
    · rfl
    · exact ih

theorem valueOf_cut (hBefore : ∀ e ∈ before, e.1 < key) (v : ν) (after : List (κ × ν)) :
    valueOf (before ++ (key, v) :: after) key = some v := by
  have hNone : valueOf before key = none := by
    rw [valueOf_eq_none_iff, mem_map]
    rintro ⟨e, he, rfl⟩
    exact (hBefore e he).false
  simp [valueOf_append, valueOf_cons, hNone]

theorem valueOf_filter (p : κ → Bool) (k : κ) :
    valueOf (es.filter fun e => p e.1) k = if p k then valueOf es k else none := by
  induction es with
  | nil => simp [valueOf]
  | cons e es ih =>
    rw [valueOf_cons, filter_cons]
    by_cases h : p e.1
    · rw [if_pos h, valueOf_cons, ih]
      by_cases hk : k = e.1 <;> simp [hk, h]
    · rw [if_neg h, ih]
      by_cases hk : k = e.1 <;> simp [hk, h]

theorem valueOf_insertEntry [DecidableEq κ] (key : κ) (v : ν) (es : List (κ × ν)) :
    valueOf (insertEntry key v es) = Function.update (valueOf es) key (some v) := by
  funext k
  rw [insertEntry, valueOf_append, valueOf_cons, valueOf_filter (fun k => decide (k < key)),
    valueOf_filter (fun k => decide (key < k))]
  rcases lt_trichotomy k key with hLt | rfl | hGt
  · simp [hLt, hLt.ne, hLt.not_gt]
  · simp
  · simp [hGt, hGt.ne', hGt.not_gt]

theorem valueOf_removeEntry [DecidableEq κ] (key : κ) (es : List (κ × ν)) :
    valueOf (removeEntry key es) = Function.update (valueOf es) key none := by
  funext k
  rw [removeEntry, valueOf_append, valueOf_filter (fun k => decide (k < key)),
    valueOf_filter (fun k => decide (key < k))]
  rcases lt_trichotomy k key with hLt | rfl | hGt
  · simp [hLt, hLt.ne, hLt.not_gt]
  · simp
  · simp [hGt, hGt.ne', hGt.not_gt]

theorem mem_of_mem_removeEntry {e : κ × ν} (h : e ∈ removeEntry key es) : e ∈ es := by
  rcases mem_append.1 h with h | h
  · exact (mem_filter.1 h).1
  · exact (mem_filter.1 h).1

theorem eq_or_mem_of_mem_insertEntry {e : κ × ν} (h : e ∈ insertEntry key v es) :
    e = (key, v) ∨ e ∈ es := by
  rcases mem_append.1 h with h | h
  · exact Or.inr (mem_filter.1 h).1
  · rcases mem_cons.1 h with h | h
    · exact Or.inl h
    · exact Or.inr (mem_filter.1 h).1

theorem pairwise_removeEntry (h : es.Pairwise fun a b => a.1 < b.1) (key : κ) :
    (removeEntry key es).Pairwise fun a b => a.1 < b.1 := by
  refine pairwise_append.2 ⟨h.filter _, h.filter _, fun a ha b hb => ?_⟩
  have hBelow : a.1 < key := by simpa using (mem_filter.1 ha).2
  have hAbove : key < b.1 := by simpa using (mem_filter.1 hb).2
  exact hBelow.trans hAbove

theorem pairwise_insertEntry (h : es.Pairwise fun a b => a.1 < b.1) (key : κ) (v : ν) :
    (insertEntry key v es).Pairwise fun a b => a.1 < b.1 := by
  refine pairwise_append.2 ⟨h.filter _, pairwise_cons.2 ⟨fun b hb => ?_, h.filter _⟩,
    fun a ha b hb => ?_⟩
  · simpa using (mem_filter.1 hb).2
  · have hBelow : a.1 < key := by simpa using (mem_filter.1 ha).2
    rcases mem_cons.1 hb with rfl | hb
    · exact hBelow
    · have hAbove : key < b.1 := by simpa using (mem_filter.1 hb).2
      exact hBelow.trans hAbove

section Cut

variable (hBefore : ∀ e ∈ before, e.1 < key) (hAfter : ∀ e ∈ after, key < e.1)
include hBefore hAfter

variable (mid : List (κ × ν)) (hMid : ∀ e ∈ mid, e.1 = key)
include mid hMid

theorem filter_lt_cut : (before ++ mid ++ after).filter (fun e => e.1 < key) = before := by
  have hKeep : before.filter (fun e => e.1 < key) = before :=
    filter_eq_self.2 fun e he => by simpa using hBefore e he
  have hDrop : mid.filter (fun e => e.1 < key) = [] :=
    filter_eq_nil_iff.2 fun e he => by simp [hMid e he]
  have hRest : after.filter (fun e => e.1 < key) = [] :=
    filter_eq_nil_iff.2 fun e he => by simpa using (hAfter e he).le
  simp [hKeep, hDrop, hRest]

theorem filter_gt_cut : (before ++ mid ++ after).filter (fun e => key < e.1) = after := by
  have hKeep : after.filter (fun e => key < e.1) = after :=
    filter_eq_self.2 fun e he => by simpa using hAfter e he
  have hDrop : mid.filter (fun e => key < e.1) = [] :=
    filter_eq_nil_iff.2 fun e he => by simp [hMid e he]
  have hRest : before.filter (fun e => key < e.1) = [] :=
    filter_eq_nil_iff.2 fun e he => by simpa using (hBefore e he).le
  simp [hKeep, hDrop, hRest]

theorem insertEntry_cut (v : ν) :
    insertEntry key v (before ++ mid ++ after) = before ++ (key, v) :: after := by
  rw [insertEntry, filter_lt_cut hBefore hAfter mid hMid, filter_gt_cut hBefore hAfter mid hMid]

theorem removeEntry_cut : removeEntry key (before ++ mid ++ after) = before ++ after := by
  rw [removeEntry, filter_lt_cut hBefore hAfter mid hMid, filter_gt_cut hBefore hAfter mid hMid]

end Cut

end Stoneleaf.Library
