import Stoneleaf.Storage.Pager
import Stoneleaf.Storage.PagerView

/-!
Precondition rules for the pager calls, one per call. Calls that only read or update the
state have an equation; calls that can be refused have a rule for the case in which the
caller holds what they ask for.
-/

namespace Stoneleaf

open Library Program OpState Function

section States

variable {P : Type}

@[simps dbHeader]
def OpState.view (s : OpState P) : PagerView P :=
  ⟨s.pages, s.walPending, s.dbHeader⟩

/-- The state after a failed pager call. -/
def OpState.called (s : OpState P) : OpState P :=
  { s with calls := s.calls + 1 }

/-- The state after a page is found and pinned. -/
def OpState.pinned (s : OpState P) (n : PageNum) : OpState P :=
  { s with
    calls := s.calls + 1
    refs := update s.refs n (s.refs n + 1) }

def OpState.locked (s : OpState P) (n : PageNum) : OpState P :=
  { s with latches := update s.latches n (some .exclusive) }

/-- The state after a page is marked for writing. -/
def OpState.marked (s : OpState P) (n : PageNum) : OpState P :=
  { s with walPending := update s.walPending n true }

def OpState.framed (s : OpState P) (n : PageNum) (page : P) : OpState P :=
  { s with pages := update s.pages n page }

def OpState.recorded (s : OpState P) (kind : PageEffectKind) (n : PageNum) : OpState P :=
  { s with effects := PendingBTreeAction.addEffect s.effects ⟨kind, n, s.pages n⟩ }

def OpState.recordedAll (s : OpState P) (effects : List (PageEffect P)) : OpState P :=
  { s with effects := effects.foldl PendingBTreeAction.addEffect s.effects }

attribute [simps -fullyApplied latches dbHeader] OpState.called OpState.pinned OpState.locked
  OpState.marked OpState.framed OpState.recorded OpState.recordedAll

end States

section Rules

variable {P : Type} {env : PagerEnv P} {s : OpState P} {n : PageNum}
  {failed : BTreeStatus → OpState P → Prop} {halted : OpState P → Prop}
  {okay : Bool → OpState P → Prop}

@[simp] theorem wp_ioFault {okay : Bool → OpState P → Prop} :
    (ioFault env).wp s okay failed halted ↔
      okay (env.ioFails s.calls) s.called := Iff.rfl

@[simp] theorem wp_latchMode {okay : Option PageLatchMode → OpState P → Prop} :
    (latchMode n).wp s okay failed halted ↔ okay (s.latches n) s := Iff.rfl

@[simp] theorem wp_frame {okay : P → OpState P → Prop} :
    (frame n).wp s okay failed halted ↔ okay (s.pages n) s := Iff.rfl

@[simp] theorem wp_setFrame {page : P} {okay : Unit → OpState P → Prop} :
    (setFrame n page).wp s okay failed halted ↔
      okay () (s.framed n page) := Iff.rfl

@[simp] theorem wp_unrefPage {okay : Unit → OpState P → Prop} :
    (unrefPage n).wp s okay failed halted ↔ okay () (s.unref n) := Iff.rfl

@[simp] theorem wp_release {okay : Unit → OpState P → Prop} :
    (release n).wp s okay failed halted ↔
      okay () { s with latches := update s.latches n none } := Iff.rfl

@[simp] theorem wp_pageEffect {kind : PageEffectKind} {okay : PageEffect P → OpState P → Prop} :
    (pageEffect kind n).wp s okay failed halted ↔ okay ⟨kind, n, s.pages n⟩ s := Iff.rfl

@[simp] theorem wp_freelistEffects {kind : PageEffectKind} {m : PageNum}
    {okay : List (PageEffect P) → OpState P → Prop} :
    (freelistEffects kind n m).wp s okay failed halted ↔
      okay (s.view.freelistEffects kind n m) s := by
  by_cases h : m = 0 <;> simp [freelistEffects, PagerView.freelistEffects, PagerView.beside, h] <;>
    rfl

@[simp] theorem wp_setDbHeader {header : DBHeader} {okay : Unit → OpState P → Prop} :
    (setDbHeader env header).wp s okay failed halted ↔
      okay () { s with
        dbHeader := header
        pages := update s.pages 0 (env.format.serializeHeader header (s.pages 0)) } :=
  Iff.rfl

@[simp] theorem wp_recordPageEffect {kind : PageEffectKind} {okay : Unit → OpState P → Prop} :
    (recordPageEffect kind n).wp s okay failed halted ↔
      okay () (s.recorded kind n) := Iff.rfl

@[simp] theorem wp_recordPagerEffects {effects : List (PageEffect P)}
    {okay : Unit → OpState P → Prop} :
    (recordPagerEffects effects).wp s okay failed halted ↔
      okay () (s.recordedAll effects) := Iff.rfl

theorem wp_lockExclusive {okay : Unit → OpState P → Prop} (hLatch : s.latches n ≠ some .shared)
    (hOk : okay () (s.locked n)) : (lockExclusive n).wp s okay failed halted := by
  simpa [lockExclusive, hLatch, locked] using hOk

theorem wp_markWalPending (hLatch : s.latches n = some .exclusive) (hOk : okay true (s.marked n)) :
    (markWalPending n).wp s okay failed halted := by
  simpa [markWalPending, hLatch, marked] using hOk

/-- A page inside the database is found, unless the call fails. -/
theorem wp_get (hNe : n ≠ 0) (hLt : n < s.dbHeader.dbPageCount)
    (hFault : env.ioFails s.calls = true → okay false s.called) (hOk : okay true (s.pinned n)) :
    (get env n).wp s okay failed halted := by
  have hRange : ¬(n = 0 ∨ n ≥ s.dbHeader.dbPageCount) := not_or.2 ⟨hNe, Nat.not_le.2 hLt⟩
  simp only [get, wp_bind, wp_read, hRange, if_false, wp_ioFault]
  cases hIo : env.ioFails s.calls with
  | true => simpa using hFault hIo
  | false => simpa [pinned, called] using hOk

end Rules

/-- Pages read as their decoded vectors. -/
def decodedEnv (ioFails : Nat → Bool) : PagerEnv DecodedPage :=
  ⟨decodedFormat, ioFails⟩

/-- Some pager call fails. -/
def Faulty (ioFails : Nat → Bool) : Prop :=
  ∃ call, ioFails call = true

section Decoded

variable {ioFails : Nat → Bool} {s : TreeState} {n : PageNum}
  {failed : BTreeStatus → TreeState → Prop} {halted : TreeState → Prop}
  {okay : PageType → TreeState → Prop}

def OpState.body (s : TreeState) (n : PageNum) : PageBody :=
  (s.pages n).body

/-- The state after a page object is written back into its frame. -/
@[simps -fullyApplied latches dbHeader]
def OpState.written (s : TreeState) (n : PageNum) (node : PageNode) (body : PageBody) :
    TreeState :=
  { s with
    pages := update s.pages n { s.pages n with body := body }
    writeBacks := s.writeBacks ++ [⟨node, some { s.pages n with body := body }⟩] }

theorem wp_writeBack_leaf {entries : List (Key × Value)}
    {okay : Unit → TreeState → Prop} :
    (writeBack (decodedEnv ioFails) n (.leaf (.ofEntries entries))).wp s okay failed halted ↔
      okay () (s.written n (.leaf (.ofEntries entries)) (.leaf (.ofEntries entries))) := by
  simp [writeBack, decodedEnv, decodedFormat, DecodedPage.flush, written, framed,
    BLeafPage.ofEntries]

theorem wp_writeBack_internal {page : BInternalPage}
    {okay : Unit → TreeState → Prop}
    (hLength : page.childPageNums.length = page.keys.length + 1) :
    (writeBack (decodedEnv ioFails) n (.internal page)).wp s okay failed halted ↔
      okay () (s.written n (.internal page) (.internal page)) := by
  simp [writeBack, decodedEnv, decodedFormat, DecodedPage.flush, written, framed, hLength]

theorem wp_decodeLeaf {p : BLeafPage} {okay : BLeafPage → TreeState → Prop}
    (hBody : s.body n = .leaf p) :
    (decodeLeaf (decodedEnv ioFails) n).wp s okay failed halted ↔ okay p s := by
  have hPage : (s.pages n).body = .leaf p := hBody
  simp [decodeLeaf, decodedEnv, decodedFormat, DecodedPage.decodeLeaf, hPage]

theorem wp_decodeInternal {p : BInternalPage}
    {okay : BInternalPage → TreeState → Prop} (hBody : s.body n = .internal p) :
    (decodeInternal (decodedEnv ioFails) n).wp s okay failed halted ↔ okay p s := by
  have hPage : (s.pages n).body = .internal p := hBody
  simp [decodeInternal, decodedEnv, decodedFormat, DecodedPage.decodeInternal, hPage]

theorem wp_peekPageType_leaf {p : BLeafPage} (hBody : s.body n = .leaf p) :
    (peekPageType (decodedEnv ioFails) n).wp s okay failed halted ↔ okay .leaf s := by
  have hPage : (s.pages n).body = .leaf p := hBody
  simp [peekPageType, decodedEnv, decodedFormat, DecodedPage.peekPageType, hPage]

theorem wp_peekPageType_internal {p : BInternalPage} (hBody : s.body n = .internal p) :
    (peekPageType (decodedEnv ioFails) n).wp s okay failed halted ↔ okay .internal s := by
  have hPage : (s.pages n).body = .internal p := hBody
  simp [peekPageType, decodedEnv, decodedFormat, DecodedPage.peekPageType, hPage]

end Decoded

end Stoneleaf
