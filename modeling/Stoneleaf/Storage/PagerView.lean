import Mathlib.Logic.Function.Basic
import Stoneleaf.Storage.PageFormat

/-!
What a pager shows of its pages, and what its calls do to that. It leaves open where a page is
kept: in a cache in front of a file, or in a table of all pages.
-/

namespace Stoneleaf

open Function

/-- What the pages hold, which of them are marked, and the header in memory. -/
structure PagerView (P : Type) where
  pages : PageNum → P
  walPending : PageNum → Bool
  dbHeader : DBHeader

namespace PagerView

variable {P : Type} (v : PagerView P)

def mark (n : PageNum) : PagerView P :=
  { v with walPending := update v.walPending n true }

def write (n : PageNum) (page : P) : PagerView P :=
  { v with pages := update v.pages n page }

def setHeader (format : PageFormat P) (header : DBHeader) : PagerView P :=
  { v.write 0 (format.serializeHeader header (v.pages 0)) with dbHeader := header }

def effect (kind : PageEffectKind) (n : PageNum) : PageEffect P :=
  ⟨kind, n, v.pages n⟩

/-- The neighbour of a page on the freelist, if there is one. -/
def beside (neighbour : PageNum) : Option PageNum :=
  if neighbour ≠ 0 then some neighbour else none

def marks (n : PageNum) : Option PageNum → PagerView P
  | none => (v.mark 0).mark n
  | some m => ((v.mark 0).mark n).mark m

/-- Another back link for a page of the freelist. -/
def relink (format : PageFormat P) (prev : PageNum) : Option PageNum → PagerView P
  | none => v
  | some n => v.write n
      (format.writeFreelistLinks (format.readFreelistLinks (v.pages n)).1 prev (v.pages n))

def freelistEffects (kind : PageEffectKind) (n neighbour : PageNum) : List (PageEffect P) :=
  v.effect .write 0 :: (beside neighbour).toList.map (v.effect .write) ++ [v.effect kind n]

/-- The pages of a change to the freelist are marked, and the neighbour has its new back link. -/
def linked (format : PageFormat P) (n prev neighbour : PageNum) : PagerView P :=
  (v.marks n (beside neighbour)).relink format prev (beside neighbour)

/-- The head of the freelist is taken. -/
def takeHead (format : PageFormat P) (head next : PageNum) (kind : V2PageKind) : PagerView P :=
  let linked := v.linked format head 0 next
  (linked.setHeader format { linked.dbHeader with
    freelistHeadPageNum := next
    freelistPageCount := linked.dbHeader.freelistPageCount - 1 }).write head
      (format.initializePage head kind)

/-- A page is put in front of the freelist. -/
def linkFreed (format : PageFormat P) (n oldHead : PageNum) : PagerView P :=
  let linked := v.linked format n n oldHead
  (linked.write n (format.writeFreelistLinks oldHead 0 (linked.pages n))).setHeader format
    { linked.dbHeader with
      freelistHeadPageNum := n
      freelistPageCount := linked.dbHeader.freelistPageCount + 1 }

/-- A new page is placed behind the others. -/
def extend (format : PageFormat P) (n : PageNum) (kind : V2PageKind) : PagerView P :=
  let placed := ((v.write n (format.initializePage n kind)).mark n).mark 0
  placed.setHeader format { v.dbHeader with dbPageCount := v.dbHeader.dbPageCount + 1 }

def setRoot (format : PageFormat P) (rootPageNum : PageNum) : PagerView P :=
  (v.mark 0).setHeader format { v.dbHeader with btreeRootPageNum := rootPageNum }

def installLsn (format : PageFormat P) (n : PageNum) (lsn : Lsn) : PagerView P :=
  { v.write n (format.installLsn lsn (v.pages n)) with
    walPending := update v.walPending n false }

variable {v} {format : PageFormat P} {prev : PageNum} {neighbour : Option PageNum} {n m : PageNum}

theorem walPending_mark_self : (v.mark n).walPending n = true := by
  simp [mark]

theorem pages_setHeader {header : DBHeader} : (v.setHeader format header).pages 0 =
    format.serializeHeader (v.setHeader format header).dbHeader (v.pages 0) := by
  simp [setHeader, write]

theorem dbHeader_linked (n m : PageNum) : (v.linked format n prev m).dbHeader = v.dbHeader := by
  unfold linked
  cases beside m <;> rfl

theorem walPending_marks (h : m = 0 ∨ m = n ∨ m ∈ neighbour) :
    (v.marks n neighbour).walPending m = true := by
  cases neighbour <;> simp [marks, mark, update_apply] at h ⊢ <;> tauto

theorem walPending_linked (q : PageNum) (h : m = 0 ∨ m = n ∨ m ∈ beside q) :
    (v.linked format n prev q).walPending m = true := by
  have hMarks := walPending_marks (v := v) h
  unfold linked
  cases hBeside : beside q <;> simpa [relink, write, hBeside] using hMarks

end PagerView

end Stoneleaf
