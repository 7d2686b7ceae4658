import Mathlib.Data.List.Nodup
import Mathlib.Data.Prod.Lex

/-!
Multiway search trees whose leaves all lie at the same depth and whose nodes carry a label.
The whole shape of a tree is read off one sequence of tokens, in order: the label of a node
before anything in it, and a separator between the two subtrees it separates. Splitting,
merging and rotating nodes change that sequence locally, and what a tree holds, which labels
it uses and whether it is ordered are all read off it.
-/

namespace Stoneleaf.Library

open List

/-- One item of the in-order reading of a tree. -/
inductive Token (ι κ ν : Type) where
  | label (i : ι)
  | separator (k : κ)
  | entry (k : κ) (v : ν)

namespace Token

variable {ι κ ν : Type}

def asLabel : Token ι κ ν → Option ι
  | label i => some i
  | _ => none

def asEntry : Token ι κ ν → Option (κ × ν)
  | entry k v => some (k, v)
  | _ => none

/-- Position in the key order. A separator comes just before an entry with the same key. -/
def asMark : Token ι κ ν → Option (κ ×ₗ Bool)
  | label _ => none
  | separator k => some (toLex (k, false))
  | entry k _ => some (toLex (k, true))

@[simp] theorem asLabel_label (i : ι) : (label i : Token ι κ ν).asLabel = some i := rfl

@[simp] theorem asLabel_separator (k : κ) : (separator k : Token ι κ ν).asLabel = none := rfl

@[simp] theorem asLabel_entry (k : κ) (v : ν) : (entry k v : Token ι κ ν).asLabel = none := rfl

@[simp] theorem asEntry_label (i : ι) : (label i : Token ι κ ν).asEntry = none := rfl

@[simp] theorem asEntry_separator (k : κ) : (separator k : Token ι κ ν).asEntry = none := rfl

@[simp] theorem asEntry_entry (k : κ) (v : ν) :
    (entry k v : Token ι κ ν).asEntry = some (k, v) := rfl

@[simp] theorem asMark_label (i : ι) : (label i : Token ι κ ν).asMark = none := rfl

@[simp] theorem asMark_separator (k : κ) :
    (separator k : Token ι κ ν).asMark = some (toLex (k, false)) := rfl

@[simp] theorem asMark_entry (k : κ) (v : ν) :
    (entry k v : Token ι κ ν).asMark = some (toLex (k, true)) := rfl

/-- The tokens of the entries of a leaf. -/
def ofEntries (entries : List (κ × ν)) : List (Token ι κ ν) :=
  entries.map fun e => entry e.1 e.2

@[simp] theorem ofEntries_nil : (ofEntries [] : List (Token ι κ ν)) = [] := rfl

@[simp] theorem ofEntries_cons (e : κ × ν) (es : List (κ × ν)) :
    (ofEntries (e :: es) : List (Token ι κ ν)) = entry e.1 e.2 :: ofEntries es := rfl

variable (es : List (κ × ν))

@[simp] theorem filterMap_asLabel_ofEntries :
    (ofEntries es : List (Token ι κ ν)).filterMap asLabel = [] := by
  induction es <;> simp_all

@[simp] theorem filterMap_asEntry_ofEntries :
    (ofEntries es : List (Token ι κ ν)).filterMap asEntry = es := by
  induction es <;> simp_all

@[simp] theorem filterMap_asMark_ofEntries :
    (ofEntries es : List (Token ι κ ν)).filterMap asMark =
      es.map fun e => toLex (e.1, true) := by
  induction es <;> simp_all

end Token

structure LeafNode (ι κ ν : Type) where
  label : ι
  entries : List (κ × ν)

structure BranchNode (ι κ T : Type) where
  label : ι
  keys : List κ
  children : List T

/-- Trees of a given height; a tree of height zero is a leaf. -/
def SearchTree (ι κ ν : Type) : Nat → Type
  | 0 => LeafNode ι κ ν
  | h + 1 => BranchNode ι κ (SearchTree ι κ ν h)

section Weave

variable {ι κ ν T : Type} (f : T → List (Token ι κ ν)) {x : Token ι κ ν} {children : List T}
  {keys : List κ}

/-- Children to the left of a position, each followed by its separator. -/
def weaveLeft (keys : List κ) (children : List T) : List (Token ι κ ν) :=
  (List.zipWith (fun k c => f c ++ [.separator k]) keys children).flatten

/-- Children to the right of a position, each preceded by its separator. -/
def weaveRight (keys : List κ) (children : List T) : List (Token ι κ ν) :=
  (List.zipWith (fun k c => .separator k :: f c) keys children).flatten

/-- The children of a node with the separators between them. -/
def weave (keys : List κ) : List T → List (Token ι κ ν)
  | [] => []
  | c :: cs => f c ++ weaveRight f keys cs

@[simp] theorem weaveLeft_nil : weaveLeft f ([] : List κ) [] = [] := rfl

@[simp] theorem weaveRight_nil : weaveRight f ([] : List κ) [] = [] := rfl

@[simp] theorem weaveLeft_cons (k : κ) (ks : List κ) (c : T) (cs : List T) :
    weaveLeft f (k :: ks) (c :: cs) = f c ++ .separator k :: weaveLeft f ks cs := by
  simp [weaveLeft]

@[simp] theorem weaveRight_cons (k : κ) (ks : List κ) (c : T) (cs : List T) :
    weaveRight f (k :: ks) (c :: cs) = .separator k :: (f c ++ weaveRight f ks cs) := by
  simp [weaveRight]

theorem weaveLeft_append {l l' : List κ} {x x' : List T} (h : x.length = l.length) :
    weaveLeft f (l ++ l') (x ++ x') = weaveLeft f l x ++ weaveLeft f l' x' := by
  simp [weaveLeft, zipWith_append h.symm]

theorem weaveRight_append {l l' : List κ} {x x' : List T} (h : x.length = l.length) :
    weaveRight f (l ++ l') (x ++ x') = weaveRight f l x ++ weaveRight f l' x' := by
  simp [weaveRight, zipWith_append h.symm]

/-- Two nodes side by side read as one node with the separator between them. -/
theorem weave_append {l r : List κ} {x y : List T} (k : κ) (h : x.length = l.length + 1)
    (hy : y ≠ []) :
    weave f (l ++ k :: r) (x ++ y) = weave f l x ++ .separator k :: weave f r y := by
  obtain ⟨c, x, rfl⟩ := exists_cons_of_length_eq_add_one h
  obtain ⟨d, y, rfl⟩ := exists_cons_of_ne_nil hy
  have hLength : x.length = l.length := by simpa using h
  simp [weave, weaveRight_append f hLength]

theorem mem_flatten_zipWith {α : Type} {g : κ → T → List α} {x : α} {p : κ → Prop} {q : T → Prop}
    (hg : ∀ k c, x ∈ g k c ↔ p k ∨ q c) (h : children.length = keys.length) :
    x ∈ (zipWith g keys children).flatten ↔ (∃ k ∈ keys, p k) ∨ ∃ c ∈ children, q c := by
  induction children generalizing keys with
  | nil =>
    have hNil : keys = [] := length_eq_zero_iff.1 h.symm
    simp [hNil]
  | cons d children ih =>
    obtain ⟨k, keys, rfl⟩ := exists_cons_of_length_eq_add_one h.symm
    simp only [zipWith_cons_cons, flatten_cons, mem_append, hg, ih (by simpa using h),
      mem_cons, exists_eq_or_imp]
    exact or_or_or_comm

theorem mem_weaveLeft (h : children.length = keys.length) :
    x ∈ weaveLeft f keys children ↔ (∃ k ∈ keys, x = .separator k) ∨ ∃ c ∈ children, x ∈ f c :=
  mem_flatten_zipWith (by simp [or_comm]) h

theorem mem_weaveRight (h : children.length = keys.length) :
    x ∈ weaveRight f keys children ↔ (∃ k ∈ keys, x = .separator k) ∨ ∃ c ∈ children, x ∈ f c :=
  mem_flatten_zipWith (by simp) h

theorem mem_weave {c : T} (h : children.length = keys.length + 1) (hc : c ∈ children)
    (hx : x ∈ f c) :
    x ∈ weave f keys children := by
  obtain ⟨d, children, rfl⟩ := exists_cons_of_length_eq_add_one h
  rw [weave, mem_append]
  rcases mem_cons.1 hc with rfl | hc
  · exact Or.inl hx
  · exact Or.inr ((mem_weaveRight f (by simpa using h)).2 (Or.inr ⟨c, hc, hx⟩))

/-- A node read around one of its children. -/
theorem weave_cut {l r : List κ} {x y : List T} (c : T) (h : x.length = l.length) :
    weave f (l ++ r) (x ++ c :: y) = weaveLeft f l x ++ f c ++ weaveRight f r y := by
  induction x generalizing l with
  | nil =>
    have hNil : l = [] := length_eq_zero_iff.1 h.symm
    subst hNil
    simp [weave]
  | cons a x ih =>
    obtain ⟨k, l, rfl⟩ := exists_cons_of_length_eq_add_one h.symm
    have hLength : x.length = l.length := by simpa using h
    have hTail := ih hLength
    cases x with
    | nil =>
      have hNil : l = [] := length_eq_zero_iff.1 hLength.symm
      subst hNil
      simp [weave]
    | cons b x =>
      simp only [cons_append, weave, weaveRight_cons, weaveLeft_cons] at hTail ⊢
      simp only [hTail, append_assoc, cons_append]

end Weave

namespace SearchTree

variable {ι κ ν : Type} {h : Nat}

def label : {h : Nat} → SearchTree ι κ ν h → ι
  | 0, t => LeafNode.label t
  | _ + 1, t => BranchNode.label t

/-- The number of entries of a leaf, or of separators of a branch. -/
def size : {h : Nat} → SearchTree ι κ ν h → Nat
  | 0, t => (LeafNode.entries t).length
  | _ + 1, t => (BranchNode.keys t).length

def tokens : {h : Nat} → SearchTree ι κ ν h → List (Token ι κ ν)
  | 0, t => .label (LeafNode.label t) :: Token.ofEntries (LeafNode.entries t)
  | _ + 1, t => .label (BranchNode.label t) :: weave tokens (BranchNode.keys t)
    (BranchNode.children t)

def leaf (label : ι) (entries : List (κ × ν)) : SearchTree ι κ ν 0 :=
  LeafNode.mk label entries

def branch {h : Nat} (label : ι) (keys : List κ) (children : List (SearchTree ι κ ν h)) :
    SearchTree ι κ ν (h + 1) :=
  BranchNode.mk label keys children

@[simp] theorem label_leaf (i : ι) (es : List (κ × ν)) : (leaf i es).label = i := rfl

@[simp] theorem label_branch {h : Nat} (i : ι) (ks : List κ) (cs : List (SearchTree ι κ ν h)) :
    (branch i ks cs).label = i := rfl

@[simp] theorem size_leaf (i : ι) (es : List (κ × ν)) : (leaf i es).size = es.length := rfl

@[simp] theorem size_branch {h : Nat} (i : ι) (ks : List κ) (cs : List (SearchTree ι κ ν h)) :
    (branch i ks cs).size = ks.length := rfl

@[simp] theorem tokens_leaf (i : ι) (es : List (κ × ν)) :
    (leaf i es).tokens = .label i :: Token.ofEntries es := rfl

@[simp] theorem tokens_branch {h : Nat} (i : ι) (ks : List κ) (cs : List (SearchTree ι κ ν h)) :
    (branch i ks cs).tokens = .label i :: weave tokens ks cs := rfl

theorem eq_leaf (t : SearchTree ι κ ν 0) : ∃ i es, t = leaf i es :=
  ⟨LeafNode.label t, LeafNode.entries t, rfl⟩

theorem eq_branch (t : SearchTree ι κ ν (h + 1)) : ∃ i ks cs, t = branch i ks cs :=
  ⟨BranchNode.label t, BranchNode.keys t, BranchNode.children t, rfl⟩

def labels {h : Nat} (t : SearchTree ι κ ν h) : List ι :=
  t.tokens.filterMap Token.asLabel

def entries {h : Nat} (t : SearchTree ι κ ν h) : List (κ × ν) :=
  t.tokens.filterMap Token.asEntry

def marks {h : Nat} (t : SearchTree ι κ ν h) : List (κ ×ₗ Bool) :=
  t.tokens.filterMap Token.asMark

@[simp] theorem labels_leaf (i : ι) (es : List (κ × ν)) : (leaf i es).labels = [i] := by
  simp [labels]

@[simp] theorem entries_leaf (i : ι) (es : List (κ × ν)) : (leaf i es).entries = es := by
  simp [entries, filterMap_cons]

@[simp] theorem marks_leaf (i : ι) (es : List (κ × ν)) :
    (leaf i es).marks = es.map fun e => toLex (e.1, true) := by
  simp [marks, filterMap_cons]

theorem labels_branch (i : ι) (ks : List κ) (cs : List (SearchTree ι κ ν h)) :
    (branch i ks cs).labels = i :: (weave tokens ks cs).filterMap Token.asLabel := by
  simp [labels]

theorem entries_branch (i : ι) (ks : List κ) (cs : List (SearchTree ι κ ν h)) :
    (branch i ks cs).entries = (weave tokens ks cs).filterMap Token.asEntry := by
  simp [entries, filterMap_cons]

theorem marks_branch (i : ι) (ks : List κ) (cs : List (SearchTree ι κ ν h)) :
    (branch i ks cs).marks = (weave tokens ks cs).filterMap Token.asMark := by
  simp [marks, filterMap_cons]

theorem label_mem_labels (t : SearchTree ι κ ν h) : t.label ∈ t.labels := by
  cases h with
  | zero =>
    obtain ⟨i, es, rfl⟩ := eq_leaf t
    simp
  | succ h =>
    obtain ⟨i, ks, cs, rfl⟩ := eq_branch t
    simp [labels_branch]

end SearchTree

section Branches

variable {ι κ ν : Type} {h : Nat}

/-- Separators aside, a branch reads as its children in turn. -/
theorem filterMap_weave {α T : Type} {f : T → List (Token ι κ ν)} {g : Token ι κ ν → Option α}
    (hg : ∀ k, g (.separator k) = none) {keys : List κ} {children : List T}
    (hLength : children.length = keys.length + 1) :
    (weave f keys children).filterMap g = children.flatMap fun c => (f c).filterMap g := by
  obtain ⟨c, children, rfl⟩ := exists_cons_of_length_eq_add_one hLength
  replace hLength : children.length = keys.length := by simpa using hLength
  rw [weave, filterMap_append, flatMap_cons, append_cancel_left_eq]
  induction children generalizing keys with
  | nil =>
    have hNil : keys = [] := length_eq_zero_iff.1 hLength.symm
    subst hNil
    rfl
  | cons d children ih =>
    obtain ⟨k, keys, rfl⟩ := exists_cons_of_length_eq_add_one hLength.symm
    simp [hg, ih (by simpa using hLength)]

namespace SearchTree

variable {cs : List (SearchTree ι κ ν h)} {x y : List (SearchTree ι κ ν h)} {i : ι}

theorem labels_branch_flatMap {ks : List κ} (hLength : cs.length = ks.length + 1) :
    (branch i ks cs).labels = i :: cs.flatMap labels := by
  rw [labels_branch, filterMap_weave (fun _ => rfl) hLength]
  rfl

theorem entries_branch_flatMap {ks : List κ} (hLength : cs.length = ks.length + 1) :
    (branch i ks cs).entries = cs.flatMap entries := by
  rw [entries_branch, filterMap_weave (fun _ => rfl) hLength]
  rfl

theorem marks_branch_cut {l r : List κ} (t : SearchTree ι κ ν h) (hLength : x.length = l.length) :
    (branch i (l ++ r) (x ++ t :: y)).marks =
      (weaveLeft tokens l x).filterMap Token.asMark ++ t.marks ++
        (weaveRight tokens r y).filterMap Token.asMark := by
  rw [marks_branch, weave_cut tokens t hLength]
  simp [marks]

theorem marks_branch_pair {l r : List κ} (a b : SearchTree ι κ ν h) (k : κ)
    (hLength : x.length = l.length) :
    (branch i (l ++ k :: r) (x ++ a :: b :: y)).marks =
      (weaveLeft tokens l x).filterMap Token.asMark ++ (a.marks ++ toLex (k, false) :: b.marks) ++
        (weaveRight tokens r y).filterMap Token.asMark := by
  rw [marks_branch, weave_cut tokens a hLength]
  simp [marks]

end SearchTree

end Branches

/-- A branch with one child left out. -/
structure Frame (ι κ T : Type) where
  label : ι
  keysLeft : List κ
  left : List T
  keysRight : List κ
  right : List T
  left_length : left.length = keysLeft.length
  right_length : right.length = keysRight.length

/-- The surroundings of a subtree of the given height, from its parent up to the root. -/
inductive Context (ι κ ν : Type) : Nat → Type where
  | top {h : Nat} : Context ι κ ν h
  | under {h : Nat} (frame : Frame ι κ (SearchTree ι κ ν h)) (up : Context ι κ ν (h + 1)) :
      Context ι κ ν h

namespace Frame

variable {ι κ ν : Type} {h : Nat}

def fill (frame : Frame ι κ (SearchTree ι κ ν h)) (t : SearchTree ι κ ν h) :
    SearchTree ι κ ν (h + 1) :=
  SearchTree.branch frame.label (frame.keysLeft ++ frame.keysRight)
    (frame.left ++ t :: frame.right)

@[simp] theorem label_fill (frame : Frame ι κ (SearchTree ι κ ν h)) (t : SearchTree ι κ ν h) :
    (frame.fill t).label = frame.label := rfl

/-- Two neighbours in the place of one child. -/
def pair (frame : Frame ι κ (SearchTree ι κ ν h)) (a : SearchTree ι κ ν h) (k : κ)
    (b : SearchTree ι κ ν h) : SearchTree ι κ ν (h + 1) :=
  SearchTree.branch frame.label (frame.keysLeft ++ k :: frame.keysRight)
    (frame.left ++ a :: b :: frame.right)

theorem length_fill {T : Type} {t : T} (frame : Frame ι κ T) :
    (frame.left ++ t :: frame.right).length = (frame.keysLeft ++ frame.keysRight).length + 1 := by
  simp [frame.left_length, frame.right_length, Nat.add_assoc]

theorem length_pair {T : Type} {a b : T} {k : κ} (frame : Frame ι κ T) :
    (frame.left ++ a :: b :: frame.right).length =
      (frame.keysLeft ++ k :: frame.keysRight).length + 1 := by
  simp [frame.left_length, frame.right_length, Nat.add_assoc]

end Frame

namespace Context

variable {ι κ ν : Type}

/-- Put a subtree back into its surroundings. -/
def close : {h : Nat} → Context ι κ ν h → SearchTree ι κ ν h →
    (height : Nat) × SearchTree ι κ ν height
  | h, .top, t => ⟨h, t⟩
  | _, .under frame up, t => up.close (frame.fill t)

@[simp] theorem close_top {h : Nat} (t : SearchTree ι κ ν h) :
    (Context.top : Context ι κ ν h).close t = ⟨h, t⟩ := rfl

@[simp] theorem close_under {h : Nat} (frame : Frame ι κ (SearchTree ι κ ν h))
    (up : Context ι κ ν (h + 1)) (t : SearchTree ι κ ν h) :
    (Context.under frame up).close t = up.close (frame.fill t) := rfl

/-- The label of the root depends on the label of the subtree only. -/
theorem label_close_congr {h : Nat} (c : Context ι κ ν h) {t t' : SearchTree ι κ ν h}
    (hLabel : t'.label = t.label) : (c.close t').2.label = (c.close t).2.label := by
  cases c with
  | top => exact hLabel
  | under frame up => exact label_close_congr up rfl

def leftTokens : {h : Nat} → Context ι κ ν h → List (Token ι κ ν)
  | _, .top => []
  | _, .under frame up =>
    up.leftTokens ++ .label frame.label ::
      weaveLeft SearchTree.tokens frame.keysLeft frame.left

def rightTokens : {h : Nat} → Context ι κ ν h → List (Token ι κ ν)
  | _, .top => []
  | _, .under frame up =>
    weaveRight SearchTree.tokens frame.keysRight frame.right ++ up.rightTokens

@[simp] theorem leftTokens_top {h : Nat} :
    (Context.top : Context ι κ ν h).leftTokens = [] := rfl

@[simp] theorem rightTokens_top {h : Nat} :
    (Context.top : Context ι κ ν h).rightTokens = [] := rfl

@[simp] theorem leftTokens_under {h : Nat} (frame : Frame ι κ (SearchTree ι κ ν h))
    (up : Context ι κ ν (h + 1)) :
    (Context.under frame up).leftTokens = up.leftTokens ++ .label frame.label ::
      weaveLeft SearchTree.tokens frame.keysLeft frame.left := rfl

@[simp] theorem rightTokens_under {h : Nat} (frame : Frame ι κ (SearchTree ι κ ν h))
    (up : Context ι κ ν (h + 1)) :
    (Context.under frame up).rightTokens =
      weaveRight SearchTree.tokens frame.keysRight frame.right ++ up.rightTokens := rfl

/-- Around a subtree the reading of a tree depends on the surroundings only. -/
theorem tokens_close {h : Nat} (c : Context ι κ ν h) (t : SearchTree ι κ ν h) :
    (c.close t).2.tokens = c.leftTokens ++ t.tokens ++ c.rightTokens := by
  induction c with
  | top => simp
  | under frame up ih =>
    rw [close_under, ih, Frame.fill, SearchTree.tokens_branch,
      weave_cut SearchTree.tokens t frame.left_length]
    simp

theorem labels_close {h : Nat} (c : Context ι κ ν h) (t : SearchTree ι κ ν h) :
    (c.close t).2.labels =
      c.leftTokens.filterMap Token.asLabel ++ t.labels ++
        c.rightTokens.filterMap Token.asLabel := by
  simp [SearchTree.labels, tokens_close]

/-- The labels of the surroundings of a subtree. -/
def labels {h : Nat} (c : Context ι κ ν h) : List ι :=
  c.leftTokens.filterMap Token.asLabel ++ c.rightTokens.filterMap Token.asLabel

theorem labels_close_perm {h : Nat} (c : Context ι κ ν h) (t : SearchTree ι κ ν h) :
    (c.close t).2.labels.Perm (c.labels ++ t.labels) := by
  rw [labels_close, labels, append_assoc, append_assoc]
  exact List.Perm.append_left _ perm_append_comm

section Under

variable {h : Nat} {frame : Frame ι κ (SearchTree ι κ ν h)} {up : Context ι κ ν (h + 1)} {i : ι}

theorem label_mem_labels_under : frame.label ∈ (Context.under frame up).labels := by
  simp [labels]

theorem mem_labels_under_of_up (hi : i ∈ up.labels) : i ∈ (Context.under frame up).labels := by
  simp only [labels, leftTokens_under, rightTokens_under, filterMap_append, mem_append] at hi ⊢
  tauto

theorem mem_labels_under_of_sibling {c : SearchTree ι κ ν h} (hc : c ∈ frame.left ++ frame.right)
    (hi : i ∈ c.labels) : i ∈ (Context.under frame up).labels := by
  obtain ⟨x, hx, hLabel⟩ := mem_filterMap.1 hi
  simp only [labels, ← filterMap_append]
  refine mem_filterMap.2 ⟨x, ?_, hLabel⟩
  simp only [leftTokens_under, rightTokens_under, mem_append, mem_cons]
  rcases mem_append.1 hc with hc | hc
  · exact Or.inl (Or.inr (Or.inr ((mem_weaveLeft _ frame.left_length).2 (Or.inr ⟨_, hc, hx⟩))))
  · exact Or.inr (Or.inl ((mem_weaveRight _ frame.right_length).2 (Or.inr ⟨_, hc, hx⟩)))

end Under

variable (c : Context ι κ ν h) (t : SearchTree ι κ ν h)

theorem entries_close :
    (c.close t).2.entries =
      c.leftTokens.filterMap Token.asEntry ++ t.entries ++
        c.rightTokens.filterMap Token.asEntry := by
  simp [SearchTree.entries, tokens_close]

theorem marks_close :
    (c.close t).2.marks =
      c.leftTokens.filterMap Token.asMark ++ t.marks ++ c.rightTokens.filterMap Token.asMark := by
  simp [SearchTree.marks, tokens_close]

end Context

namespace Context

variable {ι κ ν : Type} {h : Nat} {x y : List (SearchTree ι κ ν h)}

/-- Replace the separator just to the left of a subtree, if there is one. -/
def raise (k : κ) : {h : Nat} → Context ι κ ν h → Context ι κ ν h
  | _, .top => .top
  | _, .under ⟨i, [], x, r, y, hx, hy⟩ up => .under ⟨i, [], x, r, y, hx, hy⟩ (up.raise k)
  | _, .under ⟨i, k₀ :: l, x, r, y, hx, hy⟩ up =>
    .under ⟨i, (k₀ :: l).dropLast ++ [k], x, r, y, by simpa using hx, hy⟩ up

theorem raise_under_nil (k : κ) {i : ι} {r : List κ} {hx : x.length = ([] : List κ).length}
    {hy : y.length = r.length} (up : Context ι κ ν (h + 1)) :
    raise k (.under ⟨i, [], x, r, y, hx, hy⟩ up) = .under ⟨i, [], x, r, y, hx, hy⟩ (up.raise k) :=
  rfl

theorem length_snoc (l : List κ) (k k' : κ) : (l ++ [k]).length = (l ++ [k']).length := by
  simp

theorem length_snoc_eq {T : Type} {x : List T} {l : List κ} (h : x.length = l.length) (c : T)
    (k : κ) :
    (x ++ [c]).length = (l ++ [k]).length := by
  simp [h]

theorem raise_under_snoc (k k₀ : κ) {i : ι} {l r : List κ} {hx : x.length = (l ++ [k₀]).length}
    {hy : y.length = r.length} (up : Context ι κ ν (h + 1)) :
    raise k (.under ⟨i, l ++ [k₀], x, r, y, hx, hy⟩ up) =
      .under ⟨i, l ++ [k], x, r, y, hx.trans (length_snoc l k₀ k), hy⟩ up := by
  cases l with
  | nil => rfl
  | cons k₁ l =>
    have hLast : (k₁ :: (l ++ [k₀])).dropLast = k₁ :: l := by
      rw [← cons_append, dropLast_concat]
    simp [raise, hLast]

theorem weaveLeft_snoc {T : Type} (f : T → List (Token ι κ ν)) {l : List κ} {x : List T} (k : κ)
    (c : T) (hLength : x.length = l.length) :
    weaveLeft f (l ++ [k]) (x ++ [c]) = weaveLeft f l x ++ (f c ++ [.separator k]) := by
  simp [weaveLeft_append f hLength]

/-- A frame has no separator on the left, or a last one. -/
theorem frame_cases {motive : Frame ι κ (SearchTree ι κ ν h) → Prop}
    (nil : ∀ i r y hy, motive ⟨i, [], [], r, y, rfl, hy⟩)
    (snoc : ∀ (i : ι) (l : List κ) (k : κ) (x : List (SearchTree ι κ ν h)) c r y
      (hx : x.length = l.length) hy, motive ⟨i, l ++ [k], x ++ [c], r, y,
        length_snoc_eq hx c k, hy⟩)
    (frame : Frame ι κ (SearchTree ι κ ν h)) : motive frame := by
  obtain ⟨i, l, x, r, y, hx, hy⟩ := frame
  rcases eq_nil_or_concat l with rfl | ⟨l, k, rfl⟩
  · have hNil : x = [] := length_eq_zero_iff.1 hx
    subst hNil
    exact nil i r y hy
  · rcases eq_nil_or_concat x with rfl | ⟨x, c, rfl⟩
    · simp at hx
    · simp only [concat_eq_append] at hx ⊢
      exact snoc i l k x c r y (by simpa using hx) hy

theorem rightTokens_raise (k : κ) (c : Context ι κ ν h) :
    (c.raise k).rightTokens = c.rightTokens := by
  induction c with
  | top => rfl
  | under frame up ih =>
    induction frame using frame_cases with
    | nil i r y hy => rw [raise_under_nil, rightTokens_under, rightTokens_under, ih]
    | snoc i l k₀ x c r y hx hy => rw [raise_under_snoc]; rfl

/-- Apart from separators nothing changes. -/
theorem leftTokens_raise {α : Type} {g : Token ι κ ν → Option α} (hg : ∀ k, g (.separator k) = none)
    (k : κ) (c : Context ι κ ν h) :
    (c.raise k).leftTokens.filterMap g = c.leftTokens.filterMap g := by
  induction c with
  | top => rfl
  | under frame up ih =>
    induction frame using frame_cases with
    | nil i r y hy => simp [raise_under_nil, ih]
    | snoc i l k₀ x c r y hx hy =>
      rw [raise_under_snoc, leftTokens_under, leftTokens_under]
      simp [weaveLeft_snoc _ _ _ hx, hg, filterMap_cons]

/-- The last mark to the left of a subtree is a separator, and it alone is replaced. -/
theorem leftMarks_raise (k : κ) (c : Context ι κ ν h) :
    (∃ A k₀, c.leftTokens.filterMap Token.asMark = A ++ [toLex (k₀, false)] ∧
      (c.raise k).leftTokens.filterMap Token.asMark = A ++ [toLex (k, false)]) ∨
    (c.leftTokens.filterMap Token.asMark = [] ∧
      (c.raise k).leftTokens.filterMap Token.asMark = []) := by
  induction c with
  | top => exact Or.inr ⟨rfl, rfl⟩
  | under frame up ih =>
    induction frame using frame_cases with
    | nil i r y hy => simpa [raise_under_nil, filterMap_cons] using ih
    | snoc i l k₀ x c r y hx hy =>
      left
      rw [raise_under_snoc, leftTokens_under, leftTokens_under]
      refine ⟨up.leftTokens.filterMap Token.asMark ++
        (weaveLeft SearchTree.tokens l x).filterMap Token.asMark ++ c.marks, k₀, ?_, ?_⟩ <;>
      simp [weaveLeft_snoc _ _ _ hx, SearchTree.marks, filterMap_cons]

end Context

section Sorted

variable {κ : Type} [LinearOrder κ] {A B : List (κ ×ₗ Bool)} {a b k : κ}

/-- A separator may be put in front of any entry that follows an entry. -/
theorem sorted_insert_separator
    (h : (A ++ toLex (a, true) :: toLex (b, true) :: B).Pairwise (· < ·)) :
    (A ++ toLex (a, true) :: toLex (b, false) :: toLex (b, true) :: B).Pairwise (· < ·) := by
  simp only [pairwise_append, pairwise_cons, mem_cons, forall_eq_or_imp] at h ⊢
  obtain ⟨hA, ⟨⟨hab, ha⟩, hb, hB⟩, hCross⟩ := h
  have hLt : a < b := by simpa [Prod.Lex.toLex_lt_toLex] using hab
  have hSep : (toLex (a, true) : κ ×ₗ Bool) < toLex (b, false) := by
    simp [Prod.Lex.toLex_lt_toLex, hLt]
  have hEntry : (toLex (b, false) : κ ×ₗ Bool) < toLex (b, true) := by
    simp [Prod.Lex.toLex_lt_toLex]
  refine ⟨hA, ⟨⟨hSep, hab, ha⟩, ⟨hEntry, fun m hm => hEntry.trans (hb m hm)⟩, hb, hB⟩, ?_⟩
  intro m hm
  obtain ⟨hma, hmb, hmB⟩ := hCross m hm
  exact ⟨hma, hma.trans hSep, hmb, hmB⟩

/-- A separator may be raised to the entry that follows it. -/
theorem sorted_raise_separator
    (h : (A ++ toLex (k, false) :: toLex (b, true) :: B).Pairwise (· < ·)) :
    (A ++ toLex (b, false) :: toLex (b, true) :: B).Pairwise (· < ·) := by
  simp only [pairwise_append, pairwise_cons, mem_cons, forall_eq_or_imp] at h ⊢
  obtain ⟨hA, ⟨⟨hkb, -⟩, hb, hB⟩, hCross⟩ := h
  have hLe : k ≤ b := by
    rcases Prod.Lex.toLex_lt_toLex.1 hkb with hLt | ⟨hEq, -⟩
    · exact hLt.le
    · exact hEq.le
  have hSep : (toLex (k, false) : κ ×ₗ Bool) ≤ toLex (b, false) := by
    rcases hLe.lt_or_eq with hLt | rfl
    · exact (Prod.Lex.toLex_lt_toLex.2 (Or.inl hLt)).le
    · exact le_rfl
  have hEntry : (toLex (b, false) : κ ×ₗ Bool) < toLex (b, true) := by
    simp [Prod.Lex.toLex_lt_toLex]
  refine ⟨hA, ⟨⟨hEntry, fun m hm => hEntry.trans (hb m hm)⟩, hb, hB⟩, ?_⟩
  intro m hm
  obtain ⟨hmk, hmb, hmB⟩ := hCross m hm
  exact ⟨hmk.trans_le hSep, hmb, hmB⟩

omit [LinearOrder κ] in
theorem entries_sublist_marks {ι ν : Type} (l : List (Token ι κ ν)) :
    ((l.filterMap Token.asEntry).map fun e => toLex (e.1, true)).Sublist
      (l.filterMap Token.asMark) := by
  induction l with
  | nil => exact List.Sublist.slnil
  | cons x l ih =>
    cases x with
    | label i => simpa [filterMap_cons] using ih
    | separator k => simpa [filterMap_cons] using ih.cons _
    | entry k v => simpa [filterMap_cons] using ih

omit [LinearOrder κ] in
theorem separators_sublist_marks {ι ν T : Type} (f : T → List (Token ι κ ν)) {keys : List κ}
    {children : List T} (h : children.length = keys.length + 1) :
    (keys.map fun k => toLex (k, false)).Sublist
      ((weave f keys children).filterMap Token.asMark) := by
  obtain ⟨c, children, rfl⟩ := exists_cons_of_length_eq_add_one h
  replace h : children.length = keys.length := by simpa using h
  rw [weave, filterMap_append]
  refine List.Sublist.trans ?_ (sublist_append_right _ _)
  induction children generalizing keys with
  | nil =>
    have hNil : keys = [] := length_eq_zero_iff.1 h.symm
    simp [hNil]
  | cons d children ih =>
    obtain ⟨k, keys, rfl⟩ := exists_cons_of_length_eq_add_one h.symm
    have hRest := ih (by simpa using h)
    simpa using hRest.trans (sublist_append_right _ _)

theorem sorted_entries {ι ν : Type} {l : List (Token ι κ ν)}
    (h : (l.filterMap Token.asMark).Pairwise (· < ·)) :
    ((l.filterMap Token.asEntry).map Prod.fst).Pairwise (· < ·) := by
  have hEntries := h.sublist (entries_sublist_marks l)
  rw [pairwise_map] at hEntries ⊢
  refine hEntries.imp fun {a b} hLt => ?_
  simpa [Prod.Lex.toLex_lt_toLex] using hLt

theorem sorted_separators {ι ν T : Type} {f : T → List (Token ι κ ν)} {keys : List κ}
    {children : List T} (hLength : children.length = keys.length + 1)
    (h : ((weave f keys children).filterMap Token.asMark).Pairwise (· < ·)) :
    keys.Pairwise (· < ·) := by
  have hKeys := h.sublist (separators_sublist_marks f hLength)
  rw [pairwise_map] at hKeys
  refine hKeys.imp fun {a b} hLt => ?_
  simpa [Prod.Lex.toLex_lt_toLex] using hLt

end Sorted

end Stoneleaf.Library
