import Th8.Support.RefCount
import Th8.Variables.Creation

/-!
# The records of variables
-/

namespace Th8

/-!
## The records of variables and their release

`th8FreeVariable` takes one reference from a record and hands its memory back when that
was the last, after the elements of its array.  The operations on variables are those of
the store, where records keep their place; here unset and the end of a frame release them.
An evaluation in an outer frame hides the frames below it until it ends.

Reference counts do not overflow.
-/

open Support List

structure RecHeap where
  heap : VarId → Variable
  released : List VarId

def Variable.elements (v : Variable) : List VarId := (v.pHash.getD []).map Prod.snd

def RecHeap.setNRef (m : RecHeap) (r : VarId) (nRef : ℕ) : RecHeap :=
  { m with heap := Function.update m.heap r { m.heap r with nRef := nRef } }

/-- `th8FreeVariable`.  The first argument bounds how deep arrays are nested. -/
def freeVariable : ℕ → RecHeap → VarId → RecHeap
  | 0, m, _ => m
  | fuel + 1, m, r =>
    if (m.heap r).nRef = 0 then m
    else
      let m₁ := m.setNRef r ((m.heap r).nRef - 1)
      if (m₁.heap r).nRef = 0 then
        let m₂ := (m₁.heap r).elements.foldl (freeVariable fuel) m₁
        { m₂ with released := r :: m₂.released }
      else m₁

/-- The variables, the frames that evaluations in outer frames hide, and the records that
were released. -/
structure RecState where
  vars : VarState
  hidden : List (List Table)
  released : List VarId

def RecState.init : RecState := ⟨VarState.init, [], []⟩

namespace RecState

def recHeap (s : RecState) : RecHeap := ⟨s.vars.heap, s.released⟩

def withHeap (s : RecState) (m : RecHeap) : RecState :=
  { s with vars := { s.vars with heap := m.heap }, released := m.released }

def freeAll (s : RecState) (rs : List VarId) : RecState :=
  s.withHeap (rs.foldl (freeVariable s.vars.nextVar) s.recHeap)

def tables (s : RecState) : List Table :=
  s.vars.frames ++ s.hidden.flatten ++ s.vars.namespaces.dedup.map s.vars.nsVars

def entries (s : RecState) : List VarId := s.tables.flatMap (List.map Prod.snd)

/-- What the slots of all tables lead to: those of frames and namespaces, and those of the
arrays that were not released. -/
def slots (s : RecState) : List VarId :=
  s.entries ++ (List.range s.vars.nextVar).flatMap fun r =>
    if r ∈ s.released then [] else (s.vars.heap r).elements

end RecState

def sharedEntries (s : VarState) (inGlobal : Bool) (r : VarId) : List VarId :=
  let elsewhere := if inGlobal then s.procFrames else s.procFrames.drop 1 ++ [s.globalFrame]
  (elsewhere.flatten.map Prod.snd).filter (· == r)

/-- `Th8_UnsetVar`. -/
def unsetRec (s : RecState) (zVar : Bytes) : RecState :=
  let name := analyzeVarName zVar
  let inGlobal := name.bGlobal || s.vars.procFrames.isEmpty
  let t := if inGlobal then s.vars.globalFrame else s.vars.frameAt 0
  match t.lookup name.zOuter, name.zInner with
  | none, _ => s
  | some r, some zInner =>
    match (s.vars.heap r).pHash with
    | none => s
    | some pHash =>
      match pHash.lookup zInner with
      | none => s
      | some e =>
        let s₁ := s.freeAll [e]
        { s₁ with vars := s₁.vars.setHash r (pHash.filter fun p => p.1 != zInner) }
  | some r, none =>
    let shared :=
      if 1 < (s.vars.heap r).nRef then sharedEntries s.vars inGlobal r else []
    let (procFrames, globalFrame) := s.vars.unlink inGlobal name.zOuter r
    let s₁ := s.freeAll (shared ++ [r])
    { s₁ with vars := { s₁.vars with procFrames := procFrames, globalFrame := globalFrame } }

/-- `th8PopFrame`, of a procedure frame. -/
def popRec (s : RecState) : RecState :=
  match s.vars.procFrames with
  | [] => s
  | f :: callers =>
    let s₁ := s.freeAll (f.map Prod.snd)
    { s₁ with vars := { s₁.vars with procFrames := callers } }

/-- An operation on variables, or the begin or the end of an evaluation `n` frames further
out. -/
inductive RecOp where
  | var (op : VarOp)
  | enter (n : ℕ)
  | leave
deriving DecidableEq

def recStep (s : RecState) : RecOp → RecState
  | .var (.unset zVar) => unsetRec s zVar
  | .var .pop => popRec s
  | .var op => { s with vars := varStep s.vars op }
  | .enter n =>
    { s with
      vars := { s.vars with procFrames := s.vars.procFrames.drop n }
      hidden := s.vars.procFrames.take n :: s.hidden }
  | .leave =>
    match s.hidden with
    | [] => s
    | inner :: hidden =>
      { s with
        vars := { s.vars with procFrames := inner ++ s.vars.procFrames }
        hidden := hidden }

/-- The counts are right, nothing leads to a released record, a record is released
exactly when its count is zero and no more than once, and no record is a scalar and an
array at once. -/
structure RecordsSound (s : RecState) : Prop where
  counted : ∀ r < s.vars.nextVar, r ∉ s.released → (s.vars.heap r).nRef = s.slots.count r
  noDangling : ∀ r ∈ s.slots, r < s.vars.nextVar ∧ r ∉ s.released
  releasedAtZero : ∀ r < s.vars.nextVar, r ∈ s.released ↔ (s.vars.heap r).nRef = 0
  releasedOnce : s.released.Nodup
  exclusive : ∀ r < s.vars.nextVar,
    ¬ ((s.vars.heap r).zData.isSome = true ∧ (s.vars.heap r).pHash.isSome = true)

/-!
## The reference counts of variables are right

Entries of frames and namespaces are the roots, the elements of an array are the children
of its record, and an element is always allocated after its array.  What `th8FreeVariable`
is given is a root that no table has any more.
-/

/-! ### Releasing -/

section Keeps

variable (m : RecHeap) (r a : VarId) (n : ℕ)

theorem setNRef_pHash : ((m.setNRef r n).heap a).pHash = (m.heap a).pHash := by
  by_cases ha : a = r
  · subst ha
    simp [RecHeap.setNRef]
  · simp [RecHeap.setNRef, ha]

theorem setNRef_zData : ((m.setNRef r n).heap a).zData = (m.heap a).zData := by
  by_cases ha : a = r
  · subst ha
    simp [RecHeap.setNRef]
  · simp [RecHeap.setNRef, ha]

theorem setNRef_elements : ((m.setNRef r n).heap a).elements = (m.heap a).elements := by
  rw [Variable.elements, setNRef_pHash, Variable.elements]

theorem setNRef_nRef : (fun a => ((m.setNRef r n).heap a).nRef) =
    Function.update (fun a => (m.heap a).nRef) r n := by
  funext a
  by_cases ha : a = r
  · subst ha
    simp [RecHeap.setNRef]
  · simp [RecHeap.setNRef, ha]

end Keeps

def SameContents (m m' : RecHeap) : Prop :=
  ∀ a, (m'.heap a).zData = (m.heap a).zData ∧ (m'.heap a).pHash = (m.heap a).pHash

theorem SameContents.refl (m : RecHeap) : SameContents m m := fun _ => ⟨rfl, rfl⟩

theorem SameContents.trans {m₁ m₂ m₃ : RecHeap} (h : SameContents m₁ m₂)
    (h' : SameContents m₂ m₃) : SameContents m₁ m₃ :=
  fun a => ⟨(h' a).1.trans (h a).1, (h' a).2.trans (h a).2⟩

theorem foldl_sameContents {f : RecHeap → VarId → RecHeap}
    (hf : ∀ m r, SameContents m (f m r)) (rs : List VarId) (m : RecHeap) :
    SameContents m (rs.foldl f m) := by
  induction rs generalizing m with
  | nil => exact .refl m
  | cons r rs ih => exact (hf m r).trans (ih _)

theorem freeVariable_sameContents (fuel : ℕ) (m : RecHeap) (r : VarId) :
    SameContents m (freeVariable fuel m r) := by
  induction fuel generalizing m r with
  | zero => exact .refl m
  | succ fuel ih =>
    have hset : SameContents m (m.setNRef r ((m.heap r).nRef - 1)) :=
      fun a => ⟨setNRef_zData m r a _, setNRef_pHash m r a _⟩
    unfold freeVariable
    dsimp only
    split_ifs
    · exact .refl m
    · exact hset.trans (foldl_sameContents ih _ _)
    · exact hset

/-- The counts of the records are right when the roots lead to `roots` and the records
`dying` are being released.  From `lo` on the children of a record are the elements of its
array; below, an entry of a table can be on its way out. -/
structure HeapSound (next lo : ℕ) (m : RecHeap) (children : VarId → List VarId)
    (roots dying : List VarId) : Prop where
  counted : Counted next (fun a => (m.heap a).nRef) children roots
  agree : ∀ a, lo ≤ a → children a = (m.heap a).elements
  once : (dying ++ m.released).Nodup
  known : ∀ r ∈ dying ++ m.released, r < next
  dead : ∀ r < next, r ∈ dying ++ m.released ↔ (m.heap r).nRef = 0

namespace HeapSound

variable {next lo : ℕ} {m : RecHeap} {children : VarId → List VarId}
  {roots dying : List VarId} {r : VarId}

theorem perm (h : HeapSound next lo m children roots dying) {roots' : List VarId}
    (hroots : ∀ n, roots'.count n = roots.count n) :
    HeapSound next lo m children roots' dying :=
  ⟨h.counted.perm hroots, h.agree, h.once, h.known, h.dead⟩

theorem foldl {f : RecHeap → VarId → RecHeap} (ok : VarId → Prop)
    (hf : ∀ {m roots r}, HeapSound next lo m children (r :: roots) dying → ok r →
      HeapSound next lo (f m r) children roots dying)
    (rs : List VarId) (hrs : ∀ r ∈ rs, ok r)
    (h : HeapSound next lo m children (rs ++ roots) dying) :
    HeapSound next lo (rs.foldl f m) children roots dying := by
  induction rs generalizing m with
  | nil => exact h
  | cons r rs ih =>
    exact ih (fun a ha => hrs a (mem_cons_of_mem _ ha)) (hf h (hrs r mem_cons_self))

section

variable (h : HeapSound next lo m children (r :: roots) dying)

include h

theorem drop (hmany : (m.heap r).nRef ≠ 1) :
    HeapSound next lo (m.setNRef r ((m.heap r).nRef - 1)) children roots dying := by
  obtain ⟨hr, hpos⟩ := h.counted.pos (r := r) (by simp)
  refine ⟨?_, fun a ha => ?_, h.once, h.known, fun a ha => ?_⟩
  · rw [setNRef_nRef]
    exact h.counted.drop hmany
  · rw [setNRef_elements]
    exact h.agree a ha
  · refine (h.dead a ha).trans ?_
    by_cases har : a = r
    · subst har
      simp only [RecHeap.setNRef, Function.update_self]
      omega
    · simp [RecHeap.setNRef, har]

theorem release (hlast : (m.heap r).nRef = 1) :
    HeapSound next lo (m.setNRef r 0) children (children r ++ roots) (r :: dying) := by
  obtain ⟨hr, -⟩ := h.counted.pos (r := r) (by simp)
  have hnotMem : r ∉ dying ++ m.released := by
    intro hmem
    have hzero := (h.dead r hr).mp hmem
    omega
  refine ⟨?_, fun a ha => ?_, nodup_cons.mpr ⟨hnotMem, h.once⟩,
    forall_mem_cons.mpr ⟨hr, h.known⟩, fun a ha => ?_⟩
  · rw [setNRef_nRef]
    exact h.counted.release hlast
  · rw [setNRef_elements]
    exact h.agree a ha
  · by_cases har : a = r
    · subst har
      simp [RecHeap.setNRef]
    · rw [cons_append, mem_cons, or_iff_right har]
      refine (h.dead a ha).trans ?_
      simp [RecHeap.setNRef, har]

theorem freeVariable {fuel : ℕ} (hlo : lo ≤ r) (hfuel : next - r ≤ fuel) :
    HeapSound next lo (freeVariable fuel m r) children roots dying := by
  induction fuel generalizing m r roots dying with
  | zero =>
    obtain ⟨hr, -⟩ := h.counted.pos (r := r) (by simp)
    omega
  | succ fuel ih =>
    obtain ⟨hr, hpos⟩ := h.counted.pos (r := r) (by simp)
    have hne : (m.heap r).nRef ≠ 0 := Nat.ne_of_gt hpos
    have hnRef : ((m.setNRef r ((m.heap r).nRef - 1)).heap r).nRef = (m.heap r).nRef - 1 := by
      simp [RecHeap.setNRef]
    unfold Th8.freeVariable
    simp only [hne, if_false, hnRef]
    by_cases hlast : (m.heap r).nRef = 1
    · rw [hlast, Nat.sub_self, if_pos rfl, setNRef_elements, ← h.agree r hlo]
      have hdeeper : ∀ e ∈ children r, lo ≤ e ∧ next - e ≤ fuel := by
        intro e he
        have hlt := h.counted.deeper r hr e he
        omega
      have hall := (h.release hlast).foldl (f := Th8.freeVariable fuel)
        (fun e => lo ≤ e ∧ next - e ≤ fuel) (fun hm hok => ih hm hok.1 hok.2) _ hdeeper
      refine ⟨hall.counted, hall.agree, ?_, fun a ha => ?_, fun a ha => ?_⟩
      · exact (perm_middle.symm.nodup_iff).mp hall.once
      · exact hall.known a (perm_middle.mem_iff.mp ha)
      · exact (perm_middle.mem_iff).trans (hall.dead a ha)
    · have hzero : (m.heap r).nRef - 1 ≠ 0 := by omega
      rw [if_neg hzero]
      exact h.drop hlast

end

theorem freeAll {rs : List VarId} (h : HeapSound next lo m children (rs ++ roots) dying)
    (hlo : ∀ r ∈ rs, lo ≤ r) :
    HeapSound next lo (rs.foldl (Th8.freeVariable next) m) children roots dying :=
  foldl (fun r => lo ≤ r) (fun hm hr => hm.freeVariable hr (Nat.sub_le _ _)) rs hlo h

end HeapSound

end Th8
