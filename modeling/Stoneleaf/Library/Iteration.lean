import Mathlib.Data.List.Infix
import Mathlib.Data.List.Lex
import Stoneleaf.Library.Program

/-!
Iteration over a list by calls that may fail. What a caller sees of one call is a value of
some type: an entry, the end, or a failure. A call that fails leaves the iterator where it is,
so the calls that do not fail show the list from its front and then the end for ever.
-/

namespace Stoneleaf.Library

open List Program

/-- How an iterator over `ε` appears to its caller. -/
structure Display (ε α : Type) where
  entry : ε → α
  ended : α
  isRead : α → Bool
  isRead_entry : ∀ e, isRead (entry e) = true
  isRead_ended : isRead ended = true

namespace Display

variable {ε α : Type} (display : Display ε α)

/-- What is seen when these entries are left. -/
def front : List ε → α
  | [] => display.ended
  | e :: _ => display.entry e

/-- The entries in order, each once, and then nothing but the end. -/
def showing (entries : List ε) (count : Nat) : List α :=
  entries.map display.entry ++ List.replicate count display.ended

/-- What a caller sees of an iterator over the given entries. -/
structure Shows (faulty : Prop) (wanted : List ε) (sights : List α) : Prop where
  failed : ∀ sight ∈ sights, display.isRead sight = false → faulty
  shown : sights.filter display.isRead <+: display.showing wanted sights.length

variable {display} {faulty : Prop} {wanted : List ε} {sights : List α}

theorem isRead_front (entries : List ε) : display.isRead (display.front entries) = true := by
  cases entries with
  | nil => exact display.isRead_ended
  | cons e entries => exact display.isRead_entry e

theorem showing_succ (entries : List ε) (count : Nat) :
    display.showing entries count <+: display.showing entries (count + 1) := by
  rw [showing, showing, replicate_succ', ← append_assoc]
  exact prefix_append _ _

theorem front_cons_showing (entries : List ε) (count : Nat) :
    display.front entries :: display.showing entries.tail count <+:
      display.showing entries (count + 1) := by
  cases entries with
  | nil => exact prefix_rfl
  | cons e entries => exact cons_prefix_cons.2 ⟨rfl, showing_succ entries count⟩

namespace Shows

theorem nil : display.Shows faulty wanted [] :=
  ⟨fun _ h => absurd h not_mem_nil, nil_prefix⟩

theorem cons_read (h : display.Shows faulty wanted.tail sights) :
    display.Shows faulty wanted (display.front wanted :: sights) := by
  refine ⟨?_, ?_⟩
  · intro sight hSight hFailed
    obtain rfl | hSight := mem_cons.1 hSight
    · rw [isRead_front] at hFailed
      exact absurd hFailed (by decide)
    · exact h.failed sight hSight hFailed
  · rw [filter_cons_of_pos (isRead_front wanted), length_cons]
    exact (cons_prefix_cons.2 ⟨rfl, h.shown⟩).trans (front_cons_showing wanted _)

theorem cons_failed (h : display.Shows faulty wanted sights) (hFaulty : faulty) {sight : α}
    (hSight : display.isRead sight = false) : display.Shows faulty wanted (sight :: sights) := by
  refine ⟨?_, ?_⟩
  · intro sight' hMem hFailed
    obtain rfl | hMem := mem_cons.1 hMem
    · exact hFaulty
    · exact h.failed sight' hMem hFailed
  · rw [filter_cons_of_neg (by simp [hSight]), length_cons]
    exact h.shown.trans (showing_succ wanted _)

/-- Without faults the calls show exactly the entries and then the end. -/
theorem eq_take (h : display.Shows faulty wanted sights) (hNoFault : ¬faulty) :
    sights = (display.showing wanted sights.length).take sights.length := by
  have hAll : sights.filter display.isRead = sights := by
    rw [filter_eq_self]
    intro sight hSight
    by_contra hRead
    exact hNoFault (h.failed sight hSight (Bool.eq_false_iff.2 hRead))
  have hShown := h.shown
  rw [hAll] at hShown
  exact prefix_iff_eq_take.1 hShown

end Shows

end Display

section Cursors

variable {σ η γ ρ τ ε : Type} (next : γ → Program σ η (ρ × γ)) (current : γ → Program σ η τ)

/-- Move a cursor the given number of times and look at it after each move. -/
def visit : Nat → γ → Program σ η (List (ρ × τ) × γ)
  | 0, cursor => return ([], cursor)
  | count + 1, cursor => do
    let (status, cursor) ← next cursor
    let result ← current cursor
    let (sights, cursor) ← visit count cursor
    return ((status, result) :: sights, cursor)

/-- A cursor iterates over a list: a move takes the front off what is left, or fails and leaves
everything as it was, and a look shows the front. -/
structure Iterates (display : Display ε (ρ × τ)) (faulty : Prop)
    (rests : γ → List ε → σ → Prop) : Prop where
  move : ∀ {cursor : γ} {rest : List ε} {s : σ}, rests cursor rest s →
    (next cursor).wp s
      (fun moved s' => ((∀ result, display.isRead (moved.1, result) = false) ∧ faulty ∧
          rests moved.2 rest s') ∨
        (moved.1 = (display.front rest.tail).1 ∧ rests moved.2 rest.tail s'))
      (fun _ _ => False) (fun _ => False)
  look : ∀ {cursor : γ} {rest : List ε} {s : σ}, rests cursor rest s →
    (current cursor).wp s (fun result s' => result = (display.front rest).2 ∧ s' = s)
      (fun _ _ => False) (fun _ => False)

variable {next current} {display : Display ε (ρ × τ)} {faulty : Prop}
  {rests : γ → List ε → σ → Prop}

/-- A cursor that iterates over a list shows what comes after its current entry. -/
theorem Iterates.visit (h : Iterates next current display faulty rests) :
    ∀ {count : Nat} {cursor : γ} {rest : List ε} {s : σ}, rests cursor rest s →
    (Library.visit next current count cursor).wp s
      (fun visited s' => visited.1.length = count ∧ display.Shows faulty rest.tail visited.1 ∧
        ∃ rest', rests visited.2 rest' s')
      (fun _ _ => False) (fun _ => False) := by
  intro count
  induction count with
  | zero =>
    intro cursor rest s hRests
    exact ⟨rfl, .nil, rest, hRests⟩
  | succ count ih =>
    intro cursor rest s hRests
    simp only [Library.visit, wp_bind]
    refine wp_conseq (h.move hRests) ?_
    rintro ⟨status, cursor'⟩ s₁ (⟨hFailed, hFaulty, hRests₁⟩ | ⟨hStatus, hRests₁⟩)
    · refine wp_conseq (h.look hRests₁) ?_
      rintro result _ ⟨-, rfl⟩
      refine wp_conseq (ih hRests₁) ?_
      rintro ⟨sights, cursor''⟩ s₂ ⟨hLength, hShows, hLeft⟩
      exact ⟨congrArg (· + 1) hLength, hShows.cons_failed hFaulty (hFailed result), hLeft⟩
    · refine wp_conseq (h.look hRests₁) ?_
      rintro result _ ⟨rfl, rfl⟩
      refine wp_conseq (ih hRests₁) ?_
      rintro ⟨sights, cursor''⟩ s₂ ⟨hLength, hShows, hLeft⟩
      refine ⟨congrArg (· + 1) hLength, ?_, hLeft⟩
      simp only at hStatus
      rw [hStatus]
      exact hShows.cons_read

end Cursors

section Contiguous

variable {α : Type}

/-- Where no element after a rejected one is accepted, stopping at the first rejected element
selects the same as going through the whole list. -/
theorem takeWhile_eq_filter {p : α → Bool} {l : List α}
    (h : l.Pairwise fun a b => p b = true → p a = true) : l.takeWhile p = l.filter p := by
  induction l with
  | nil => rfl
  | cons a l ih =>
    obtain ⟨hHead, hTail⟩ := pairwise_cons.1 h
    cases hp : p a with
    | true => rw [takeWhile_cons_of_pos hp, filter_cons_of_pos hp, ih hTail]
    | false =>
      have hNone : l.filter p = [] := by
        rw [filter_eq_nil_iff]
        intro b hb hAccepted
        rw [hHead b hb hAccepted] at hp
        exact absurd hp (by decide)
      rw [takeWhile_cons_of_neg (by simp [hp]), filter_cons_of_neg (by simp [hp]),
        hNone]

/-- Words that start with the same letters are contiguous in the dictionary, from the word that
consists of these letters on. -/
theorem isPrefix_of_between [LinearOrder α] {text a b : List α} (hText : text ≤ a) (hLe : a ≤ b)
    (hb : text <+: b) : text <+: a := by
  induction text generalizing a b with
  | nil => exact nil_prefix
  | cons x text ih =>
    obtain ⟨rest, rfl⟩ := hb
    cases a with
    | nil => exact absurd hText (not_le.2 (by simp))
    | cons y a =>
      rw [← not_lt, cons_lt_cons_iff, not_or, not_and, not_lt] at hText
      rw [← not_lt, cons_append, cons_lt_cons_iff, not_or, not_and, not_lt] at hLe
      obtain rfl : y = x := le_antisymm hLe.1 hText.1
      have hRest : text ≤ a := not_lt.1 (hText.2 rfl)
      have hAfter : a ≤ text ++ rest := not_lt.1 (hLe.2 rfl)
      exact cons_prefix_cons.2 ⟨rfl, ih hRest hAfter (prefix_append _ _)⟩

end Contiguous

end Stoneleaf.Library
