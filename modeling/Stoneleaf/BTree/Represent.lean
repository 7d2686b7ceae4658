import Mathlib.Data.List.Perm.Basic
import Stoneleaf.Library.SearchTree
import Stoneleaf.Storage.PagerRules

/-!
The search tree and the freelist that a set of decoded pages represents. Nodes of the tree
are labelled by the pages that store them, so that a page used twice shows up as a repeated
label.
-/

namespace Stoneleaf

open Library SearchTree List

abbrev PageTree := SearchTree PageNum Key Value

abbrev PageContext := Context PageNum Key Value

/-- A tree of some height. -/
abbrev SomeTree := (height : Nat) × PageTree height

/-- An internal node with one child left out. -/
abbrev PageGap (h : Nat) := Frame PageNum Key (PageTree h)

/-- The pages hold the tree. -/
def Stored (body : PageNum → PageBody) : {h : Nat} → PageTree h → Prop
  | 0, t => body (LeafNode.label t) = .leaf (BLeafPage.ofEntries (LeafNode.entries t))
  | _ + 1, t =>
    body (BranchNode.label t) =
      .internal ⟨BranchNode.keys t, (BranchNode.children t).map label⟩ ∧
    (BranchNode.children t).length = (BranchNode.keys t).length + 1 ∧
    ∀ c ∈ BranchNode.children t, Stored body c

/-- Key counts of a page that is not the root, and of all pages below it. -/
def Filled : {h : Nat} → PageTree h → Prop
  | 0, t => minKeys btreeOrder ≤ (LeafNode.entries t).length ∧
      (LeafNode.entries t).length ≤ maxKeys btreeOrder
  | _ + 1, t => minKeys btreeOrder ≤ (BranchNode.keys t).length ∧
      (BranchNode.keys t).length ≤ maxKeys btreeOrder ∧
      ∀ c ∈ BranchNode.children t, Filled c

/-- Key counts of all pages strictly below a page. -/
def ChildrenFilled : {h : Nat} → PageTree h → Prop
  | 0, _ => True
  | _ + 1, t => ∀ c ∈ BranchNode.children t, Filled c

/-- Key counts of a whole tree. The root has no minimum, except that a branch separates at
least two children. -/
def RootFilled {h : Nat} (t : PageTree h) : Prop :=
  t.size ≤ maxKeys btreeOrder ∧ (h ≠ 0 → 1 ≤ t.size) ∧ ChildrenFilled t

section Nodes

variable {h : Nat} {body body' : PageNum → PageBody}

section

variable (i : PageNum)
include i

@[simp] theorem stored_leaf (es : List (Key × Value)) :
    Stored body (leaf i es) ↔ body i = .leaf (BLeafPage.ofEntries es) := Iff.rfl

@[simp] theorem stored_branch (ks : List Key) (cs : List (PageTree h)) :
    Stored body (branch i ks cs) ↔
      body i = .internal ⟨ks, cs.map label⟩ ∧ cs.length = ks.length + 1 ∧
        ∀ c ∈ cs, Stored body c := Iff.rfl

@[simp] theorem filled_leaf (es : List (Key × Value)) :
    Filled (leaf i es) ↔ 99 ≤ es.length ∧ es.length ≤ 199 := Iff.rfl

@[simp] theorem filled_branch (ks : List Key) (cs : List (PageTree h)) :
    Filled (branch i ks cs) ↔
      99 ≤ ks.length ∧ ks.length ≤ 199 ∧ ∀ c ∈ cs, Filled c := Iff.rfl

@[simp] theorem childrenFilled_leaf (es : List (Key × Value)) :
    ChildrenFilled (leaf i es : PageTree 0) ↔ True := Iff.rfl

@[simp] theorem childrenFilled_branch (ks : List Key) (cs : List (PageTree h)) :
    ChildrenFilled (branch i ks cs) ↔ ∀ c ∈ cs, Filled c := Iff.rfl

end

theorem filled_iff (t : PageTree h) :
    Filled t ↔ 99 ≤ t.size ∧ t.size ≤ 199 ∧ ChildrenFilled t := by
  cases h with
  | zero =>
    obtain ⟨i, es, rfl⟩ := eq_leaf t
    simp
  | succ h =>
    obtain ⟨i, ks, cs, rfl⟩ := eq_branch t
    simp

theorem mem_labels_branch {i n : PageNum} {ks : List Key} {cs : List (PageTree h)} {c : PageTree h}
    (hLength : cs.length = ks.length + 1) (hc : c ∈ cs) (hn : n ∈ c.labels) :
    n ∈ (branch i ks cs).labels := by
  obtain ⟨x, hx, hLabel⟩ := mem_filterMap.1 hn
  exact mem_filterMap.2 ⟨x, mem_cons_of_mem _ (mem_weave _ hLength hc hx), hLabel⟩

/-- Only the pages of a tree matter for it being stored. -/
theorem Stored.congr {t : PageTree h} (hStored : Stored body t)
    (hAgree : ∀ n ∈ t.labels, body' n = body n) : Stored body' t := by
  induction h with
  | zero =>
    obtain ⟨i, es, rfl⟩ := eq_leaf t
    rw [stored_leaf] at hStored ⊢
    rw [hAgree i (label_mem_labels _), hStored]
  | succ h ih =>
    obtain ⟨i, ks, cs, rfl⟩ := eq_branch t
    rw [stored_branch] at hStored ⊢
    obtain ⟨hBody, hLength, hChildren⟩ := hStored
    refine ⟨?_, hLength, fun c hc => ?_⟩
    · rw [hAgree i (label_mem_labels _), hBody]
    · exact ih (hChildren c hc) fun n hn => hAgree n (mem_labels_branch hLength hc hn)

/-- A stored tree has fewer levels than pages. -/
theorem Stored.height_lt {t : PageTree h} (hStored : Stored body t) : h < t.labels.length := by
  induction h with
  | zero =>
    obtain ⟨i, es, rfl⟩ := eq_leaf t
    simp [labels]
  | succ h ih =>
    obtain ⟨i, ks, cs, rfl⟩ := eq_branch t
    obtain ⟨-, hLength, hChildren⟩ := hStored
    obtain ⟨c, cs, rfl⟩ := exists_cons_of_length_eq_add_one hLength
    have hFirst : h < c.labels.length := ih (hChildren c mem_cons_self)
    simp only [labels, tokens_branch, weave, filterMap_cons,
      Token.asLabel_label, filterMap_append, length_cons, length_append] at hFirst ⊢
    omega

end Nodes

section Around

variable {h : Nat} {body body' : PageNum → PageBody}

/-- The surroundings are stored, around a subtree on the given page. -/
def StoredAround (body : PageNum → PageBody) : {h : Nat} → PageContext h → PageNum → Prop
  | _, .top, _ => True
  | _, .under frame up, hole =>
    body frame.label = .internal ⟨frame.keysLeft ++ frame.keysRight,
      frame.left.map label ++ hole :: frame.right.map label⟩ ∧
    (∀ c ∈ frame.left ++ frame.right, Stored body c) ∧ StoredAround body up frame.label

/-- Key counts of a subtree in the given surroundings: as of a root where there are none. -/
def FilledIn : {h : Nat} → PageContext h → PageTree h → Prop
  | _, .top, t => RootFilled t
  | _, .under _ _, t => Filled t

/-- Least number of separators of a branch in the given surroundings. -/
def minSeparators : {h : Nat} → PageContext h → Nat
  | _, .top => 1
  | _, .under _ _ => minKeys btreeOrder

/-- Key counts of the surroundings. -/
def FilledAround : {h : Nat} → PageContext h → Prop
  | _, .top => True
  | _, .under frame up =>
    minSeparators up ≤ (frame.keysLeft ++ frame.keysRight).length ∧
    (frame.keysLeft ++ frame.keysRight).length ≤ maxKeys btreeOrder ∧
    (∀ c ∈ frame.left ++ frame.right, Filled c) ∧ FilledAround up

theorem stored_fill_iff (frame : PageGap h) (t : PageTree h) :
    Stored body (frame.fill t) ↔
      body frame.label = .internal ⟨frame.keysLeft ++ frame.keysRight,
        frame.left.map label ++ t.label :: frame.right.map label⟩ ∧
      (∀ c ∈ frame.left ++ frame.right, Stored body c) ∧ Stored body t := by
  rw [Frame.fill, stored_branch]
  simp only [frame.length_fill, true_and, map_append, map_cons, mem_append, mem_cons]
  grind

/-- A stored tree is a stored subtree in stored surroundings. -/
theorem stored_close_iff (c : PageContext h) (t : PageTree h) :
    Stored body (c.close t).2 ↔ StoredAround body c t.label ∧ Stored body t := by
  induction c with
  | top => simp [StoredAround]
  | under frame up ih =>
    rw [Context.close_under, ih, stored_fill_iff, Frame.label_fill]
    simp only [StoredAround]
    tauto

theorem filledIn_branch_iff {up : PageContext (h + 1)} {i : PageNum} {ks : List Key}
    {cs : List (PageTree h)} : FilledIn up (branch i ks cs) ↔
      minSeparators up ≤ ks.length ∧ ks.length ≤ maxKeys btreeOrder ∧ ∀ c ∈ cs, Filled c := by
  cases up with
  | top =>
    simp only [FilledIn, RootFilled, size_branch, childrenFilled_branch, minSeparators, ne_eq,
      Nat.add_one_ne_zero, not_false_eq_true, forall_const]
    tauto
  | under frame up =>
    simp only [FilledIn, filled_branch, minSeparators, minKeys_btreeOrder, maxKeys_btreeOrder]

theorem rootFilled_close_iff (c : PageContext h) (t : PageTree h) :
    RootFilled (c.close t).2 ↔ FilledAround c ∧ FilledIn c t := by
  induction c with
  | top => simp [FilledAround, FilledIn]
  | under frame up ih =>
    rw [Context.close_under, ih, Frame.fill, filledIn_branch_iff]
    simp only [FilledAround, FilledIn, forall_mem_append, forall_mem_cons]
    tauto

/-- Only the pages of the surroundings matter for them being stored. -/
theorem StoredAround.congr {c : PageContext h} {hole : PageNum} (hStored : StoredAround body c hole)
    (hAgree : ∀ n ∈ c.labels, body' n = body n) : StoredAround body' c hole := by
  induction c generalizing hole with
  | top => trivial
  | under frame up ih =>
    obtain ⟨hBody, hSiblings, hUp⟩ := hStored
    refine ⟨?_, fun c hc => ?_, ?_⟩
    · rw [hAgree _ Context.label_mem_labels_under, hBody]
    · exact (hSiblings c hc).congr fun n hn =>
        hAgree n (Context.mem_labels_under_of_sibling hc hn)
    · exact ih hUp fun n hn => hAgree n (Context.mem_labels_under_of_up hn)

end Around

/-- Free pages, linked in both directions; the first one is linked back to the given page. -/
def FreeChain (body : PageNum → PageBody) : PageNum → List PageNum → Prop
  | _, [] => True
  | prev, n :: rest => body n = .freelist (rest.headD 0) prev ∧ FreeChain body n rest

variable {body body' : PageNum → PageBody}

theorem FreeChain.congr {prev : PageNum} {free : List PageNum} (hChain : FreeChain body prev free)
    (hAgree : ∀ n ∈ free, body' n = body n) :
    FreeChain body' prev free := by
  induction free generalizing prev with
  | nil => trivial
  | cons n rest ih =>
    obtain ⟨hBody, hRest⟩ := hChain
    refine ⟨?_, ih hRest fun m hm => hAgree m (mem_cons_of_mem _ hm)⟩
    rw [hAgree n mem_cons_self, hBody]

/-- Page zero mirrors the header, and the header describes the freelist. -/
structure FreePages (body : PageNum → PageBody) (header : DBHeader) (free : List PageNum) :
    Prop where
  metadata : body 0 = .metadata header
  pageCount : 0 < header.dbPageCount
  head : header.freelistHeadPageNum = free.headD 0
  count : header.freelistPageCount = free.length
  chain : FreeChain body 0 free

theorem FreePages.congr {header : DBHeader} {free : List PageNum}
    (hFree : FreePages body header free) (hZero : body' 0 = body 0)
    (hAgree : ∀ n ∈ free, body' n = body n) : FreePages body' header free where
  metadata := by rw [hZero, hFree.metadata]
  pageCount := hFree.pageCount
  head := hFree.head
  count := hFree.count
  chain := hFree.chain.congr hAgree

/-- Distinct pages of the database, other than its header page. -/
structure Accounts (header : DBHeader) (pages : List PageNum) : Prop where
  nodup : pages.Nodup
  bounds : ∀ n ∈ pages, n ≠ 0 ∧ n < header.dbPageCount

namespace Accounts

variable {header header' : DBHeader} {pages pages' : List PageNum}

variable (hAccounts : Accounts header pages)
include hAccounts

theorem perm (hPerm : pages.Perm pages') :
    Accounts header pages' where
  nodup := hPerm.nodup hAccounts.nodup
  bounds n hn := hAccounts.bounds n (hPerm.mem_iff.2 hn)

theorem of_pageCount_eq (hCount : header'.dbPageCount = header.dbPageCount) :
    Accounts header' pages where
  nodup := hAccounts.nodup
  bounds n hn := hCount ▸ hAccounts.bounds n hn

theorem length_lt (hPos : 0 < header.dbPageCount) : pages.length < header.dbPageCount := by
  have hSubset : pages ⊆ (List.range header.dbPageCount).erase 0 := by
    intro n hn
    obtain ⟨hNe, hLt⟩ := hAccounts.bounds n hn
    exact (mem_erase_of_ne hNe).2 (mem_range.2 hLt)
  have hLength := (subperm_of_subset hAccounts.nodup hSubset).length_le
  rw [length_erase_of_mem (mem_range.2 hPos), length_range] at hLength
  omega

end Accounts

/-- All keys of the tree in order, with every separator in its place. -/
def Ordered {h : Nat} (t : PageTree h) : Prop :=
  t.marks.Pairwise (· < ·)

theorem Ordered.sorted_entries {h : Nat} {t : PageTree h} (hOrdered : Ordered t) :
    (t.entries.map Prod.fst).Pairwise (· < ·) :=
  Library.sorted_entries hOrdered

theorem Ordered.of_close {h : Nat} {c : PageContext h} {t : PageTree h}
    (hOrdered : Ordered (c.close t).2) : Ordered t := by
  rw [Ordered, Context.marks_close, append_assoc] at hOrdered
  exact (pairwise_append.1 (pairwise_append.1 hOrdered).2.1).1

/-- Key order and key counts of a tree that may be empty. -/
def Sound (tree : Option SomeTree) : Prop :=
  ∀ t ∈ tree, Ordered t.2 ∧ RootFilled t.2

def treeEntries (tree : Option SomeTree) : List (Key × Value) :=
  (tree.map fun t => t.2.entries).getD []

def treeLabels (tree : Option SomeTree) : List PageNum :=
  (tree.map fun t => t.2.labels).getD []

def rootPageNum (tree : Option SomeTree) : PageNum :=
  (tree.map fun t => t.2.label).getD 0

/-- The pages of the state are those of the tree and of the freelist, each used once. An
empty tree has no page. -/
structure Represents (s : TreeState) (tree : Option SomeTree) (free : List PageNum) :
    Prop where
  freePages : FreePages s.body s.dbHeader free
  accounts : Accounts s.dbHeader (treeLabels tree ++ free)
  root : s.dbHeader.btreeRootPageNum = rootPageNum tree
  stored : ∀ t ∈ tree, Stored s.body t.2

/-- The same, read around one subtree. -/
structure Focused {h : Nat} (s : TreeState) (c : PageContext h) (t : PageTree h)
    (free : List PageNum) : Prop where
  freePages : FreePages s.body s.dbHeader free
  accounts : Accounts s.dbHeader (c.labels ++ t.labels ++ free)
  root : s.dbHeader.btreeRootPageNum = (c.close t).2.label
  around : StoredAround s.body c t.label
  stored : Stored s.body t

section Focus

variable {h : Nat} {s s' : TreeState} {c : PageContext h} {t t' : PageTree h}
  {free free' : List PageNum}

theorem focused_iff : Focused s c t free ↔ Represents s (some (c.close t)) free := by
  have hPerm : (treeLabels (some (c.close t)) ++ free).Perm (c.labels ++ t.labels ++ free) :=
    (c.labels_close_perm t).append_right free
  constructor
  · rintro ⟨hFree, hAccounts, hRoot, hAround, hStored⟩
    refine ⟨hFree, hAccounts.perm hPerm.symm, hRoot, ?_⟩
    rintro _ ⟨⟩
    exact (stored_close_iff c t).2 ⟨hAround, hStored⟩
  · rintro ⟨hFree, hAccounts, hRoot, hStored⟩
    have hParts := (stored_close_iff c t).1 (hStored _ rfl)
    exact ⟨hFree, hAccounts.perm hPerm, hRoot, hParts.1, hParts.2⟩

theorem focused_under_iff {frame : PageGap h} {up : PageContext (h + 1)} :
    Focused s (.under frame up) t free ↔ Focused s up (frame.fill t) free := by
  rw [focused_iff, focused_iff, Context.close_under]

/-- Only the page contents and the header matter. -/
theorem Represents.of_eq {tree : Option SomeTree} (hRep : Represents s tree free)
    (hBody : s'.body = s.body) (hHeader : s'.dbHeader = s.dbHeader) : Represents s' tree free := by
  obtain ⟨hFree, hAccounts, hRoot, hStored⟩ := hRep
  rw [← hBody, ← hHeader] at hFree
  rw [← hHeader] at hAccounts hRoot
  rw [← hBody] at hStored
  exact ⟨hFree, hAccounts, hRoot, hStored⟩

theorem Focused.of_eq (hFocus : Focused s c t free) (hBody : s'.body = s.body)
    (hHeader : s'.dbHeader = s.dbHeader) : Focused s' c t free :=
  focused_iff.2 ((focused_iff.1 hFocus).of_eq hBody hHeader)

/-- Rewriting one subtree on its own pages leaves its surroundings alone. -/
theorem Focused.replace (hFocus : Focused s c t free) (hLabel : t'.label = t.label)
    (hFree : FreePages s'.body s'.dbHeader free')
    (hAccounts : Accounts s'.dbHeader (c.labels ++ t'.labels ++ free'))
    (hRoot : s'.dbHeader.btreeRootPageNum = s.dbHeader.btreeRootPageNum)
    (hAgree : ∀ n ∈ c.labels, s'.body n = s.body n) (hStored : Stored s'.body t') :
    Focused s' c t' free' where
  freePages := hFree
  accounts := hAccounts
  root := by rw [hRoot, hFocus.root, c.label_close_congr hLabel]
  around := by
    rw [hLabel]
    exact hFocus.around.congr hAgree
  stored := hStored

end Focus

end Stoneleaf
