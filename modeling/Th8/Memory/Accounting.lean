import Mathlib.Algebra.BigOperators.Group.List.Basic
import Mathlib.Order.Interval.Finset.Nat
import Th8.Memory.SafeAlloc
import Th8.Support.Transition

/-!
# Accounting of the interpreter allocator

Every block the interpreter obtains is charged to a counter with the usable size the
platform reports for it, and credited back when it is freed or moved.  The platform is
the answer it gives to each request; it promises blocks that lie apart from the live
ones within the address space, and a usable size that stays the same while a block
lives.
-/

namespace Th8

open Support List

/-- A block of the platform: its address and its usable size (`xMemorySize`). -/
structure Block where
  addr : ℕ
  usable : ℕ
deriving DecidableEq

def Block.range (b : Block) : Finset ℕ := Finset.Ico b.addr (b.addr + b.usable)

def Block.Apart (b c : Block) : Prop :=
  b.addr ≠ c.addr ∧ Disjoint b.range c.range

variable {b : Block}

theorem Block.apart_iff {c : Block} :
    b.Apart c ↔
      b.addr ≠ c.addr ∧ (b.usable = 0 ∨ c.usable = 0 ∨ b.addr + b.usable ≤ c.addr ∨
        c.addr + c.usable ≤ b.addr) := by
  apply and_congr_right
  intro _
  rw [Block.range, Block.range, Finset.disjoint_left]
  constructor
  · intro h
    have hmax := h (a := max b.addr c.addr)
    simp only [Finset.mem_Ico] at hmax
    omega
  · intro h x hb hc
    rw [Finset.mem_Ico] at hb hc
    omega

instance (b c : Block) : Decidable (b.Apart c) := decidable_of_iff' _ Block.apart_iff

def Block.InSpace (b : Block) : Prop :=
  0 < b.addr ∧ b.addr + b.usable ≤ 2 ^ 64

instance (b : Block) : Decidable b.InSpace := inferInstanceAs (Decidable (_ ∧ _))

def usableSum (live : List Block) : ℕ := (live.map Block.usable).sum

/-- `xMemorySize`. -/
def memorySize (live : List Block) (p : ℕ) : ℕ :=
  ((live.find? fun b => b.addr == p).map Block.usable).getD 0

/-- The live blocks without the one at `p`. -/
def releaseBlock (live : List Block) (p : ℕ) : List Block :=
  live.filter fun b => b.addr != p

structure Allocator where
  nAllocBytes : ℕ
  nAllocLimit : ℕ
  nAllocPeak : ℕ
  live : List Block
deriving DecidableEq

namespace Allocator

/-- `th8AccountAlloc`: the counter saturates. -/
def accountAlloc (a : Allocator) (nAccounted : ℕ) : Allocator :=
  let nNew := (safeAddSize a.nAllocBytes nAccounted).getD sizeMax
  { a with
    nAllocBytes := nNew
    nAllocPeak := if a.nAllocPeak < nNew then nNew else a.nAllocPeak }

/-- The credit of a block of `nBlock` bytes. -/
def credit (a : Allocator) (nBlock : ℕ) : Allocator :=
  { a with nAllocBytes := if nBlock ≤ a.nAllocBytes then a.nAllocBytes - nBlock else 0 }

/-- The limit check of a request for `n` more bytes. -/
def overLimit (a : Allocator) (n : ℕ) : Bool :=
  0 < a.nAllocLimit && (a.nAllocLimit < a.nAllocBytes || a.nAllocLimit - a.nAllocBytes < n)

/-- `th8MallocCommon`, where `xMalloc` is the platform's answer: the state after it and
the pointer returned. -/
def mallocCommon (a : Allocator) (nByte : ℕ) (xMalloc : Option Block) : Allocator × Option ℕ :=
  if a.overLimit nByte then (a, none)
  else
    match xMalloc with
    | none => (a, none)
    | some b => ({ a with live := b :: a.live }.accountAlloc b.usable, some b.addr)

def free (a : Allocator) (p : Option ℕ) : Allocator :=
  match p with
  | none => a
  | some p =>
    { a.credit (memorySize a.live p) with live := releaseBlock a.live p }

end Allocator

/-- The answers of `xRealloc`: a block, a null pointer with the old block left alone,
or, for a request of zero bytes, a null pointer with the old block freed. -/
inductive ReallocReply where
  | null
  | moved (b : Block)
  | released
deriving DecidableEq

def Allocator.oldSize (a : Allocator) (p : Option ℕ) : ℕ :=
  match p with
  | none => 0
  | some p => memorySize a.live p

def Allocator.others (a : Allocator) (p : Option ℕ) : List Block :=
  match p with
  | none => a.live
  | some p => releaseBlock a.live p

def Allocator.reallocCommon (a : Allocator) (p : Option ℕ) (nByte : ℕ)
    (xRealloc : ReallocReply) : Allocator × Option ℕ :=
  let nOldSize := a.oldSize p
  if nOldSize < nByte && a.overLimit (nByte - nOldSize) then (a, none)
  else
    match xRealloc with
    | .null => (a, none)
    | .released => ({ a with live := a.others p }, none)
    | .moved b =>
      ({ a.credit nOldSize with live := b :: a.others p }.accountAlloc b.usable, some b.addr)

inductive AllocOp where
  | malloc (nByte : ℕ) (xMalloc : Option Block)
  | realloc (p : Option ℕ) (nByte : ℕ) (xRealloc : ReallocReply)
  | free (p : Option ℕ)
  | setAllocLimit (nLimit : ℕ)
deriving DecidableEq

/-- A request that succeeded: the fields it was checked against, the usable size of the
block it resized and the size it asked for. -/
structure Grant where
  nAllocBytes : ℕ
  nAllocLimit : ℕ
  resized : Option ℕ
  nByte : ℕ
deriving DecidableEq

/-- With a positive limit, `n` bytes fit into what the counter leaves of it. -/
def Grant.Fits (g : Grant) (n : ℕ) : Prop :=
  0 < g.nAllocLimit → g.nAllocBytes ≤ g.nAllocLimit ∧ n ≤ g.nAllocLimit - g.nAllocBytes

/-- An allocator with a record of its past: the values the counter has had and the
requests that succeeded. -/
structure Ledger where
  alloc : Allocator
  reached : List ℕ
  grants : List Grant

namespace Ledger

def init : Ledger := ⟨⟨0, 0, 0, []⟩, [0], []⟩

/-- Enter a call's outcome; `g` is recorded when the call returned a block. -/
def enter (l : Ledger) (r : Allocator × Option ℕ) (g : Grant) : Ledger :=
  { alloc := r.1
    reached := r.1.nAllocBytes :: l.reached
    grants := if r.2.isSome then g :: l.grants else l.grants }

def step (l : Ledger) : AllocOp → Ledger
  | .malloc nByte xMalloc =>
    l.enter (l.alloc.mallocCommon nByte xMalloc)
      ⟨l.alloc.nAllocBytes, l.alloc.nAllocLimit, none, nByte⟩
  | .realloc p nByte xRealloc =>
    l.enter (l.alloc.reallocCommon p nByte xRealloc)
      ⟨l.alloc.nAllocBytes, l.alloc.nAllocLimit, some (l.alloc.oldSize p), nByte⟩
  | .free p =>
    l.enter (l.alloc.free p, none) ⟨l.alloc.nAllocBytes, l.alloc.nAllocLimit, none, 0⟩
  | .setAllocLimit nLimit =>
    { l with alloc := { l.alloc with nAllocLimit := nLimit } }

end Ledger

/-- A block the platform may hand out for `nByte` bytes while `live` are live. -/
def FreshBlock (live : List Block) (nByte : ℕ) (b : Block) : Prop :=
  nByte ≤ b.usable ∧ b.InSpace ∧ ∀ c ∈ live, b.Apart c

instance (live : List Block) (nByte : ℕ) (b : Block) : Decidable (FreshBlock live nByte b) :=
  inferInstanceAs (Decidable (_ ∧ _))

def LivePointer (live : List Block) (p : Option ℕ) : Prop :=
  ∀ q, p = some q → ∃ b ∈ live, b.addr = q

instance (live : List Block) (p : Option ℕ) : Decidable (LivePointer live p) :=
  inferInstanceAs (Decidable (∀ q, p = some q → _))

/-- What the platform and the callers promise: fresh blocks, live pointers and, for
reallocations, a size other than zero, so that a null answer leaves the block alone. -/
def AllocOp.Allowed (l : Ledger) : AllocOp → Prop
  | .malloc nByte xMalloc => ∀ b, xMalloc = some b → FreshBlock l.alloc.live nByte b
  | .realloc p nByte xRealloc =>
    LivePointer l.alloc.live p ∧ nByte ≠ 0 ∧ (xRealloc = .released → nByte = 0) ∧
      ∀ b, xRealloc = .moved b → FreshBlock (l.alloc.others p) nByte b
  | .free p => LivePointer l.alloc.live p
  | .setAllocLimit _ => True

instance (live : List Block) (nByte : ℕ) (xRealloc : ReallocReply) :
    Decidable (∀ b, xRealloc = .moved b → FreshBlock live nByte b) :=
  match xRealloc with
  | .null | .released => isTrue fun _ h => by cases h
  | .moved b => decidable_of_iff (FreshBlock live nByte b) (by simp)

instance (l : Ledger) : (op : AllocOp) → Decidable (op.Allowed l)
  | .malloc nByte xMalloc =>
    inferInstanceAs (Decidable (∀ b, xMalloc = some b → FreshBlock l.alloc.live nByte b))
  | .realloc p nByte xRealloc =>
    inferInstanceAs (Decidable (LivePointer l.alloc.live p ∧ nByte ≠ 0 ∧
      (xRealloc = .released → nByte = 0) ∧
        ∀ b, xRealloc = .moved b → FreshBlock (l.alloc.others p) nByte b))
  | .free p => inferInstanceAs (Decidable (LivePointer l.alloc.live p))
  | .setAllocLimit _ => inferInstanceAs (Decidable True)

structure LiveBlocks (live : List Block) : Prop where
  apart : live.Pairwise Block.Apart
  inSpace : ∀ b ∈ live, b.InSpace

variable {live : List Block}

theorem LiveBlocks.cons {nByte : ℕ} (h : LiveBlocks live) (hb : FreshBlock live nByte b) :
    LiveBlocks (b :: live) := by
  constructor
  · exact pairwise_cons.mpr ⟨hb.2.2, h.apart⟩
  · intro c hc
    rcases mem_cons.mp hc with rfl | hc
    · exact hb.2.1
    · exact h.inSpace c hc

theorem LiveBlocks.release (h : LiveBlocks live) (p : ℕ) : LiveBlocks (releaseBlock live p) := by
  constructor
  · exact h.apart.filter _
  · intro b hb
    exact h.inSpace b (mem_filter.mp hb).1

theorem usableSum_eq_card (h : live.Pairwise Block.Apart) :
    ∃ s : Finset ℕ, s.card = usableSum live ∧ ∀ x ∈ s, ∃ b ∈ live, x ∈ b.range := by
  induction live with
  | nil => exact ⟨∅, rfl, by simp⟩
  | cons b live ih =>
    rw [pairwise_cons] at h
    obtain ⟨s, hcard, hmem⟩ := ih h.2
    have hdisj : Disjoint b.range s := by
      rw [Finset.disjoint_left]
      intro x hxb hxs
      obtain ⟨c, hc, hxc⟩ := hmem x hxs
      exact Finset.disjoint_left.mp (h.1 c hc).2 hxb hxc
    refine ⟨b.range ∪ s, ?_, ?_⟩
    · rw [Finset.card_union_of_disjoint hdisj, hcard]
      simp [Block.range, usableSum]
    · intro x hx
      rcases Finset.mem_union.mp hx with hx | hx
      · exact ⟨b, mem_cons_self, hx⟩
      · obtain ⟨c, hc, hxc⟩ := hmem x hx
        exact ⟨c, mem_cons_of_mem b hc, hxc⟩

theorem LiveBlocks.usableSum_le (h : LiveBlocks live) : usableSum live ≤ sizeMax := by
  obtain ⟨s, hcard, hmem⟩ := usableSum_eq_card h.apart
  have hsub : s ⊆ Finset.Ico 1 (2 ^ 64) := by
    intro x hx
    obtain ⟨b, hb, hxb⟩ := hmem x hx
    have hspace := h.inSpace b hb
    rw [Block.range, Finset.mem_Ico] at hxb
    rw [Finset.mem_Ico]
    exact ⟨by have := hspace.1; omega, by have := hspace.2; omega⟩
  calc
    usableSum live = s.card := hcard.symm
    _ ≤ (Finset.Ico 1 (2 ^ 64)).card := Finset.card_le_card hsub
    _ = sizeMax := by rw [Nat.card_Ico, sizeMax]

theorem usableSum_release {p : ℕ} (h : LiveBlocks live) (hp : ∃ b ∈ live, b.addr = p) :
    usableSum live = memorySize live p + usableSum (releaseBlock live p) := by
  obtain ⟨h, -⟩ := h
  induction live with
  | nil => simp at hp
  | cons b live ih =>
    rw [pairwise_cons] at h
    by_cases hb : b.addr = p
    · have hrest : releaseBlock live p = live := by
        apply filter_eq_self.mpr
        intro c hc
        simpa [hb] using ((h.1 c hc).1).symm
      have hsize : memorySize (b :: live) p = b.usable := by
        simp [memorySize, hb]
      have hrel : releaseBlock (b :: live) p = live := by
        simpa [releaseBlock, hb] using hrest
      rw [hsize, hrel]
      simp [usableSum]
    · have hp' : ∃ c ∈ live, c.addr = p := by
        obtain ⟨c, hc, hcp⟩ := hp
        rcases mem_cons.mp hc with rfl | hc
        · exact absurd hcp hb
        · exact ⟨c, hc, hcp⟩
      have hsize : memorySize (b :: live) p = memorySize live p := by
        simp [memorySize, hb]
      have hrel : releaseBlock (b :: live) p = b :: releaseBlock live p := by
        simp [releaseBlock, hb]
      have hind := ih hp' h.2
      rw [hsize, hrel]
      simp only [usableSum, map_cons, sum_cons] at hind ⊢
      omega

/-! ## The invariant -/

/-- The check a successful request has passed: an allocation with its size, a
reallocation with what it asks for on top of the block it resizes, if anything. -/
def Grant.Checked (g : Grant) : Prop :=
  match g.resized with
  | none => g.Fits g.nByte
  | some nOldSize => nOldSize < g.nByte → g.Fits (g.nByte - nOldSize)

/-- The counter is the sum of the usable sizes, the peak is the largest value the
counter has had, and every request that succeeded passed its check. -/
structure Ledger.Accounted (l : Ledger) : Prop where
  bytes : l.alloc.nAllocBytes = usableSum l.alloc.live
  peak : l.alloc.nAllocPeak = l.reached.foldr max 0
  checked : ∀ g ∈ l.grants, g.Checked

namespace Allocator

variable {a : Allocator}

theorem accountAlloc_of_le {n : ℕ} (h : a.nAllocBytes + n ≤ sizeMax) :
    a.accountAlloc n =
      { a with
        nAllocBytes := a.nAllocBytes + n
        nAllocPeak := max (a.nAllocBytes + n) a.nAllocPeak } := by
  have hadd : safeAddSize a.nAllocBytes n = some (a.nAllocBytes + n) :=
    safeAddSize_eq_some.mpr ⟨by omega, rfl⟩
  simp only [accountAlloc, hadd, Option.getD_some]
  congr 1
  by_cases hlt : a.nAllocPeak < a.nAllocBytes + n
  · rw [if_pos hlt, max_eq_left (by omega)]
  · rw [if_neg hlt, max_eq_right (by omega)]

theorem not_overLimit {n : ℕ} (h : ¬a.overLimit n = true) (hpos : 0 < a.nAllocLimit) :
    a.nAllocBytes ≤ a.nAllocLimit ∧ n ≤ a.nAllocLimit - a.nAllocBytes := by
  simp only [overLimit, Bool.and_eq_true, Bool.or_eq_true, decide_eq_true_eq] at h
  constructor
  · by_contra hlt
    exact h ⟨hpos, Or.inl (by omega)⟩
  · by_contra hlt
    exact h ⟨hpos, Or.inr (by omega)⟩

theorem mallocCommon_cases (a : Allocator) (nByte : ℕ) (xMalloc : Option Block) :
    a.mallocCommon nByte xMalloc = (a, none) ∨
      ∃ b, xMalloc = some b ∧ ¬a.overLimit nByte = true ∧
        a.mallocCommon nByte xMalloc =
          ({ a with live := b :: a.live }.accountAlloc b.usable, some b.addr) := by
  unfold mallocCommon
  by_cases hover : a.overLimit nByte = true
  · simp [hover]
  · cases xMalloc with
    | none => simp [hover]
    | some b => exact Or.inr ⟨b, rfl, hover, by simp [hover]⟩

theorem reallocCommon_cases (a : Allocator) (p : Option ℕ) (nByte : ℕ)
    {xRealloc : ReallocReply} (hreply : xRealloc ≠ .released) :
    a.reallocCommon p nByte xRealloc = (a, none) ∨
      ∃ b, xRealloc = .moved b ∧ (a.oldSize p < nByte → ¬a.overLimit (nByte - a.oldSize p) = true) ∧
        a.reallocCommon p nByte xRealloc =
          ({ a.credit (a.oldSize p) with live := b :: a.others p }.accountAlloc b.usable,
            some b.addr) := by
  unfold reallocCommon
  by_cases hover : (decide (a.oldSize p < nByte) && a.overLimit (nByte - a.oldSize p)) = true
  · exact Or.inl (by simp only [hover, if_true])
  · cases xRealloc with
    | null => exact Or.inl (by simp [hover])
    | released => exact absurd rfl hreply
    | moved b =>
      refine Or.inr ⟨b, rfl, ?_, by simp only [hover]; rfl⟩
      intro hlt hlim
      exact hover (by simp [hlt, hlim])

end Allocator

structure Ledger.Inv (l : Ledger) : Prop extends l.Accounted where
  blocks : LiveBlocks l.alloc.live
  le_peak : l.alloc.nAllocBytes ≤ l.alloc.nAllocPeak

theorem Ledger.init_inv : Ledger.init.Inv := by
  constructor
  · constructor
    · rfl
    · rfl
    · simp [Ledger.init]
  · constructor
    · simp [Ledger.init]
    · simp [Ledger.init]
  · simp [Ledger.init]

namespace Ledger.Inv

variable {l : Ledger}

section

variable (h : l.Inv)

include h

theorem enter_same (g : Grant) : (l.enter (l.alloc, none) g).Inv := by
  constructor
  · constructor
    · exact h.bytes
    · simp only [enter, foldr_cons]
      rw [← h.peak, max_eq_right h.le_peak]
    · simpa [enter] using h.checked
  · exact h.blocks
  · exact h.le_peak

theorem enter_charge {others : List Block} {b : Block} {n : ℕ} {g : Grant}
    (hothers : LiveBlocks others) (hb : FreshBlock others n b) (hg : g.Checked)
    (nBytes : ℕ) (hbytes : nBytes = usableSum others) :
    (l.enter
      ({ l.alloc with nAllocBytes := nBytes, live := b :: others }.accountAlloc b.usable,
        some b.addr) g).Inv := by
  have hnew := hothers.cons hb
  have hsum : usableSum (b :: others) = b.usable + usableSum others := by
    simp [usableSum]
  have hle := hnew.usableSum_le
  rw [Allocator.accountAlloc_of_le (by simp only; omega)]
  constructor
  · constructor
    · simp only [enter]
      omega
    · simp only [enter, foldr_cons]
      rw [h.peak]
    · intro g' hg'
      rcases mem_cons.mp (by simpa [enter] using hg') with rfl | hg'
      · exact hg
      · exact h.checked g' hg'
  · exact hnew
  · exact le_max_left _ _

theorem credit_eq {p : ℕ} (hp : ∃ b ∈ l.alloc.live, b.addr = p) :
    l.alloc.credit (memorySize l.alloc.live p) =
      { l.alloc with nAllocBytes := usableSum (releaseBlock l.alloc.live p) } := by
  have hsum := usableSum_release h.blocks hp
  have hbytes := h.bytes
  rw [Allocator.credit, if_pos (by omega)]
  congr 1
  omega

theorem step_malloc {nByte : ℕ} {xMalloc : Option Block}
    (hok : AllocOp.Allowed l (.malloc nByte xMalloc)) :
    (l.step (.malloc nByte xMalloc)).Inv := by
  rw [Ledger.step]
  rcases l.alloc.mallocCommon_cases nByte xMalloc with heq | ⟨b, hb, hlim, heq⟩
  · rw [heq]
    exact h.enter_same _
  · rw [heq]
    have hchecked : Grant.Checked ⟨l.alloc.nAllocBytes, l.alloc.nAllocLimit, none, nByte⟩ :=
      Allocator.not_overLimit hlim
    exact h.enter_charge h.blocks (hok b hb) hchecked l.alloc.nAllocBytes h.bytes

theorem step_realloc {p : Option ℕ} {nByte : ℕ} {xRealloc : ReallocReply}
    (hok : AllocOp.Allowed l (.realloc p nByte xRealloc)) :
    (l.step (.realloc p nByte xRealloc)).Inv := by
  obtain ⟨hp, hne, hrel, hfresh⟩ := hok
  rw [Ledger.step]
  have hreply : xRealloc ≠ .released := fun hr => hne (hrel hr)
  rcases l.alloc.reallocCommon_cases p nByte hreply with heq | ⟨b, hb, hlim, heq⟩
  · rw [heq]
    exact h.enter_same _
  · rw [heq]
    have hchecked : Grant.Checked
        ⟨l.alloc.nAllocBytes, l.alloc.nAllocLimit, some (l.alloc.oldSize p), nByte⟩ :=
      fun hlt => Allocator.not_overLimit (hlim hlt)
    cases p with
    | none =>
      -- resizing the null pointer is an allocation
      exact h.enter_charge h.blocks (hfresh b hb) hchecked _ (by
        simpa [Allocator.credit, Allocator.oldSize] using h.bytes)
    | some p =>
      have hcredit := h.credit_eq (hp p rfl)
      simp only [Allocator.oldSize, hcredit]
      exact h.enter_charge (h.blocks.release p) (hfresh b hb) hchecked _ rfl

theorem step_free {p : Option ℕ} (hok : AllocOp.Allowed l (.free p)) : (l.step (.free p)).Inv := by
  rw [Ledger.step]
  cases p with
  | none => exact h.enter_same _
  | some p =>
    have hp := hok p rfl
    have hsum := usableSum_release h.blocks hp
    have hbytes := h.bytes
    have hpeak := h.le_peak
    simp only [Allocator.free, h.credit_eq hp]
    constructor
    · constructor
      · rfl
      · simp only [enter, foldr_cons]
        rw [← h.peak, max_eq_right (by omega)]
      · simpa [enter] using h.checked
    · exact h.blocks.release p
    · simp only [enter]
      omega

theorem step_inv (op : AllocOp) (hok : op.Allowed l) : (l.step op).Inv := by
  cases op with
  | malloc nByte xMalloc => exact h.step_malloc hok
  | realloc p nByte xRealloc => exact h.step_realloc hok
  | free p => exact h.step_free hok
  | setAllocLimit nLimit => exact ⟨⟨h.bytes, h.peak, h.checked⟩, h.blocks, h.le_peak⟩

end

end Ledger.Inv

/-- In every run the counter is the sum of the usable sizes of the live blocks, the
peak is the largest value it has had, and with a positive limit every allocation that
succeeded asked for no more than the counter left of the limit, every reallocation
that grew its block for no more growth than that. -/
theorem allocator_accounted {l : Ledger}
    (hl : ReachableBy Ledger.step AllocOp.Allowed Ledger.init l) : l.Accounted := by
  have hinv : l.Inv := hl.invariant Ledger.init_inv fun _ op h hok => h.step_inv op hok
  exact hinv.toAccounted

def resizeRun : List AllocOp :=
  [.setAllocLimit 150, .malloc 100 (some ⟨4096, 100⟩),
    .realloc (some 4096) 120 (.moved ⟨8192, 120⟩)]

theorem freshBlock_of_nil {nByte : ℕ} (hlive : live = []) (hsize : nByte ≤ b.usable)
    (hspace : b.InSpace) : FreshBlock live nByte b := by
  refine ⟨hsize, hspace, ?_⟩
  intro c hc
  simp [hlive] at hc

theorem resizeRun_reachable :
    ReachableBy Ledger.step AllocOp.Allowed Ledger.init
      (resizeRun.foldl Ledger.step Ledger.init) := by
  apply ReachableBy.init.foldl
  refine ⟨trivial, ?_, ⟨?_, by decide, by decide, ?_⟩, trivial⟩
  · rintro b ⟨⟩
    exact freshBlock_of_nil (by decide) (by decide) (by decide)
  · rintro q ⟨⟩
    exact ⟨⟨4096, 100⟩, by decide, rfl⟩
  · rintro b ⟨⟩
    exact freshBlock_of_nil (by decide) (by decide) (by decide)

/-- The run meets the accounting law. -/
theorem allocator_accounted_resize :
    (resizeRun.foldl Ledger.step Ledger.init).alloc.nAllocBytes = 120 ∧
      (resizeRun.foldl Ledger.step Ledger.init).Accounted :=
  ⟨by decide, allocator_accounted resizeRun_reachable⟩

/-- A reallocation can ask for more than the counter leaves of the limit: only its
growth is checked. -/
theorem realloc_exceeds_headroom :
    ∃ l, ReachableBy Ledger.step AllocOp.Allowed Ledger.init l ∧
      ∃ g ∈ l.grants, ¬g.Fits g.nByte := by
  refine ⟨_, resizeRun_reachable, ⟨100, 150, some 100, 120⟩, by decide, ?_⟩
  intro hfits
  exact absurd (hfits (by decide)).2 (by decide)

end Th8
