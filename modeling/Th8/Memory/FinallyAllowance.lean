import Th8.Memory.Accounting
import Th8.Support.Program

/-!
# The allowance of a `finally` clause

`try_post_try` puts the allocation counter aside and starts the `finally` clause from zero;
`try_post_finally` adds to what was put aside what the counter has come to.  The programs of
both, and of what they call, make calls to the allocator; between them come the calls of the
scripts and of everything else.

The callbacks of `try` that have been scheduled may run in any order, since a coroutine takes
its own with it.  Left out are the return codes, the cancellation that is put aside along with
the counter, and the contents of the results.
-/

namespace Th8

open Support List

/-- The fields of `TryState` that the accounting depends on, with its address. -/
structure TryState where
  addr : ℕ
  hasFinally : Bool
  zTryResult : Option ℕ
  nTryResult : ℕ
  nSavedAllocBytes : ℕ
deriving DecidableEq

inductive TryProc where
  | tryPostTry
  | tryPostFinally
deriving DecidableEq

/-- A `Th8_Callback` of `try`, with its address. -/
structure TryCallback where
  addr : ℕ
  xProc : TryProc
  pState : TryState
deriving DecidableEq

def TryProc.setAside (xProc : TryProc) (pState : TryState) : ℕ :=
  match xProc with
  | .tryPostTry => 0
  | .tryPostFinally => pState.nSavedAllocBytes

/-- The interpreter: its allocator, the results it owns, and the callbacks of `try` that
have been scheduled. -/
structure TryInterp where
  alloc : Allocator
  zResult : Option ℕ
  zFinallyResult : Option ℕ
  callbacks : List TryCallback
deriving DecidableEq

/-- The bytes put aside by the `finally` clauses that have been started. -/
def TryInterp.savedAllocBytes (t : TryInterp) : ℕ :=
  (t.callbacks.map fun pCb => pCb.xProc.setAside pCb.pState).sum

/-- `sizeof(TryState)`. -/
def sizeofTryState : ℕ := 112

/-- `sizeof(Th8_Callback)`. -/
def sizeofCallback : ℕ := 48

def AllocOp.exec (a : Allocator) : AllocOp → Allocator × Option ℕ
  | .malloc nByte xMalloc => a.mallocCommon nByte xMalloc
  | .realloc p nByte xRealloc => a.reallocCommon p nByte xRealloc
  | .free p => (a.free p, none)
  | .setAllocLimit nLimit => ({ a with nAllocLimit := nLimit }, none)

inductive TryCall where
  | alloc (op : AllocOp)
  /-- `interp->zResult` is exchanged. -/
  | exchangeResult (z : Option ℕ)
  /-- `interp->zFinallyResult` is exchanged. -/
  | exchangeFinallyResult (z : Option ℕ)
  /-- `Th8_NRAddCallback`, up to its report of a failure. -/
  | addCallback (xProc : TryProc) (pState : TryState) (xMalloc : Option Block)
  /-- The counter is read and set to zero. -/
  | saveAllocBytes
  /-- The counter is set to the sum of what was saved and what it is. -/
  | restoreAllocBytes (nSaved : ℕ)

def TryCall.Out : TryCall → Type
  | .alloc _ => Option ℕ
  | .exchangeResult _ => Option ℕ
  | .exchangeFinallyResult _ => Option ℕ
  | .addCallback .. => Bool
  | .saveAllocBytes => ℕ
  | .restoreAllocBytes _ => Unit

def Allocator.setAllocBytes (a : Allocator) (n : ℕ) : Allocator :=
  { a with
    nAllocBytes := n
    nAllocPeak := if a.nAllocPeak < n then n else a.nAllocPeak }

namespace TryInterp

def exec (t : TryInterp) : (call : TryCall) → TryInterp × call.Out
  | .alloc op => ({ t with alloc := (op.exec t.alloc).1 }, (op.exec t.alloc).2)
  | .exchangeResult z => ({ t with zResult := z }, t.zResult)
  | .exchangeFinallyResult z => ({ t with zFinallyResult := z }, t.zFinallyResult)
  | .addCallback xProc pState xMalloc =>
    match t.alloc.mallocCommon sizeofCallback xMalloc with
    | (a, none) => ({ t with alloc := a }, false)
    | (a, some p) =>
      ({ t with alloc := a, callbacks := ⟨p, xProc, pState⟩ :: t.callbacks }, true)
  | .saveAllocBytes => ({ t with alloc := t.alloc.setAllocBytes 0 }, t.alloc.nAllocBytes)
  | .restoreAllocBytes nSaved =>
    -- the sum saturates
    let nRestored := (safeAddSize nSaved t.alloc.nAllocBytes).getD sizeMax
    ({ t with alloc := t.alloc.setAllocBytes nRestored }, ())

end TryInterp

/-! ## Programs -/

abbrev TryProgram := Program TryCall TryCall.Out

namespace TryProgram

def call (call : TryCall) : TryProgram call.Out := Program.perform call

def malloc (nByte : ℕ) (xMalloc : Option Block) : TryProgram (Option ℕ) :=
  call (.alloc (.malloc nByte xMalloc))

def allocStr (nLen : ℕ) (xMalloc : Option Block) : TryProgram (Option ℕ) :=
  if safeAllocStr true nLen then malloc (nLen + 1) xMalloc else pure none

def free (p : Option ℕ) : TryProgram Unit := do
  let _ ← call (.alloc (.free p))
  pure ()

def setResultStatic : TryProgram Unit := do
  let zOld ← call (.exchangeResult none)
  free zOld

/-- `Th8_SetResult`, which returns `TH8_OK` or not. -/
def setResult (nRaw : ℕ) (xMalloc : Option Block) : TryProgram Bool := do
  setResultStatic
  let z ← allocStr nRaw xMalloc
  let _ ← call (.exchangeResult z)
  pure z.isSome

def setFinallyState (n : ℕ) (xMalloc : Option Block) : TryProgram Unit := do
  let zOld ← call (.exchangeFinallyResult none)
  free zOld
  let z ← allocStr n xMalloc
  let _ ← call (.exchangeFinallyResult z)
  pure ()

/-- `Th8_NRAddCallback` for a callback of `try`. -/
def addCallback (xProc : TryProc) (pState : TryState) (xMalloc : Option Block) :
    TryProgram Unit := do
  let ok : Bool ← call (.addCallback xProc pState xMalloc)
  if ok then pure () else setResultStatic

/-- `Th8_NREval`: the node of `th8NREvalCallback`, which the scripts free. -/
def nrEval (xMalloc : Option Block) : TryProgram Unit := do
  match ← malloc sizeofCallback xMalloc with
  | none => setResultStatic
  | some _ => pure ()

end TryProgram

structure TryAnswers where
  /-- The length of the result. -/
  nResult : ℕ
  /-- The clause is not to run: the interpreter has exited or is suspended, or the stack is
  exhausted. -/
  skipFinally : Bool
  /-- The clause has returned `TH8_OK`. -/
  finallyOk : Bool
  /-- The message that `th8RestoreCancel` frees. -/
  zCancelMsg : Option ℕ
  xStrdup : Option Block
  xResult : Option Block
  xCallback : Option Block
  xEval : Option Block
deriving DecidableEq

namespace TryProgram

def tryReturnSaved (pState : TryState) (ans : TryAnswers) : TryProgram Unit := do
  let ok ← setResult pState.nTryResult ans.xResult
  free pState.zTryResult
  free (some pState.addr)
  if ok then pure () else setResultStatic

def tryPostFinally (pState : TryState) (ans : TryAnswers) : TryProgram Unit := do
  setFinallyState ans.nResult ans.xStrdup
  call (.restoreAllocBytes pState.nSavedAllocBytes)
  free ans.zCancelMsg
  if ans.finallyOk then tryReturnSaved pState ans
  else do
    free pState.zTryResult
    free (some pState.addr)

/-- The end of `try_post_try`: the `finally` clause is started. -/
def startFinally (pState : TryState) (ans : TryAnswers) : TryProgram Unit := do
  let nSaved ← call .saveAllocBytes
  addCallback .tryPostFinally { pState with nSavedAllocBytes := nSaved } ans.xCallback
  nrEval ans.xEval

def tryPostTry (pState : TryState) (ans : TryAnswers) : TryProgram Unit :=
  if pState.hasFinally then do
    match ← allocStr ans.nResult ans.xStrdup with
    | none =>
      free (some pState.addr)
      setResultStatic
    | some z =>
      let pState := { pState with zTryResult := some z, nTryResult := ans.nResult }
      if ans.skipFinally then tryReturnSaved pState ans else startFinally pState ans
  else free (some pState.addr)

/-- `try_command`, once its arguments have passed. -/
def tryCommand (hasFinally : Bool) (xState : Option Block) (ans : TryAnswers) :
    TryProgram Unit := do
  match ← malloc sizeofTryState xState with
  | none => pure ()
  | some addr =>
    addCallback .tryPostTry ⟨addr, hasFinally, none, 0, 0⟩ ans.xCallback
    nrEval ans.xEval

def invoke (pCb : TryCallback) (ans : TryAnswers) : TryProgram Unit :=
  match pCb.xProc with
  | .tryPostTry => tryPostTry pCb.pState ans
  | .tryPostFinally => tryPostFinally pCb.pState ans

/-- `th8RunCallbacks` invokes a callback and frees its node. -/
def runCallback (pCb : TryCallback) (ans : TryAnswers) : TryProgram Unit := do
  invoke pCb ans
  free (some pCb.addr)

end TryProgram

inductive TryMove where
  /-- A call of the allocator, by whatever a script does. -/
  | alloc (op : AllocOp)
  | setResult (nRaw : ℕ) (xMalloc : Option Block)
  | setResultStatic
  /-- The result passes to a caller who will free it. -/
  | takeResult
  | tryCommand (hasFinally : Bool) (xState : Option Block) (ans : TryAnswers)
  | runCallback (i : ℕ) (ans : TryAnswers)
  /-- The node of a callback is freed and the callback is not invoked: a cancellation
  unwinds. -/
  | discardCallback (i : ℕ)

namespace TryInterp

def unlink (t : TryInterp) (i : ℕ) : TryInterp :=
  { t with callbacks := t.callbacks.eraseIdx i }

def enter (t : TryInterp) : TryMove → TryInterp
  | .runCallback i _ => t.unlink i
  | .discardCallback i => t.unlink i
  | _ => t

/-- The program of a move. -/
def program (t : TryInterp) : TryMove → TryProgram Unit
  | .alloc op => do
    let _ ← TryProgram.call (.alloc op)
    pure ()
  | .setResult nRaw xMalloc => do
    let _ ← TryProgram.setResult nRaw xMalloc
    pure ()
  | .setResultStatic => TryProgram.setResultStatic
  | .takeResult => do
    let _ ← TryProgram.call (.exchangeResult none)
    pure ()
  | .tryCommand hasFinally xState ans => TryProgram.tryCommand hasFinally xState ans
  | .runCallback i ans =>
    match t.callbacks[i]? with
    | none => pure ()
    | some pCb => TryProgram.runCallback pCb ans
  | .discardCallback i =>
    match t.callbacks[i]? with
    | none => pure ()
    | some pCb => TryProgram.free (some pCb.addr)

def step (t : TryInterp) (m : TryMove) : TryInterp := ((t.program m).run exec (t.enter m)).1

def init : TryInterp := ⟨⟨0, 0, 0, []⟩, none, none, []⟩

end TryInterp

def AllocOp.Lawful (a : Allocator) (op : AllocOp) : Prop := op.Allowed ⟨a, [], []⟩

def AllocOp.Covered (a : Allocator) : AllocOp → Prop
  | .realloc p _ _ => a.oldSize p ≤ a.nAllocBytes
  | .free p => a.oldSize p ≤ a.nAllocBytes
  | _ => True

def TryCall.Lawful (t : TryInterp) : TryCall → Prop
  | .alloc op => op.Lawful t.alloc
  | .addCallback _ _ xMalloc => (AllocOp.malloc sizeofCallback xMalloc).Lawful t.alloc
  | _ => True

/-- The call gives up no block larger than the counter, and `try_post_finally` gets memory
for its callback. -/
def TryCall.Covered (t : TryInterp) : TryCall → Prop
  | .alloc op => op.Covered t.alloc
  | .addCallback .tryPostFinally _ xMalloc =>
    (t.alloc.mallocCommon sizeofCallback xMalloc).2 ≠ none
  | _ => True

instance (a : Allocator) (op : AllocOp) : Decidable (op.Lawful a) :=
  inferInstanceAs (Decidable (op.Allowed _))

instance (a : Allocator) : (op : AllocOp) → Decidable (op.Covered a)
  | .realloc p _ _ | .free p => inferInstanceAs (Decidable (a.oldSize p ≤ a.nAllocBytes))
  | .malloc _ _ | .setAllocLimit _ => inferInstanceAs (Decidable True)

instance (t : TryInterp) : (call : TryCall) → Decidable (call.Lawful t)
  | .alloc op => inferInstanceAs (Decidable (op.Lawful t.alloc))
  | .addCallback _ _ xMalloc =>
    inferInstanceAs (Decidable ((AllocOp.malloc sizeofCallback xMalloc).Lawful t.alloc))
  | .exchangeResult _ | .exchangeFinallyResult _ | .saveAllocBytes | .restoreAllocBytes _ =>
    inferInstanceAs (Decidable True)

instance (t : TryInterp) : (call : TryCall) → Decidable (call.Covered t)
  | .alloc op => inferInstanceAs (Decidable (op.Covered t.alloc))
  | .addCallback .tryPostFinally _ _ => inferInstanceAs (Decidable (¬_))
  | .addCallback .tryPostTry _ _ | .exchangeResult _ | .exchangeFinallyResult _
  | .saveAllocBytes | .restoreAllocBytes _ => inferInstanceAs (Decidable True)

namespace TryInterp

def LawfulMove (t : TryInterp) (m : TryMove) : Prop :=
  (t.program m).Allowed exec TryCall.Lawful (t.enter m)

/-- No callback of a `finally` clause is discarded. -/
def Invoked (t : TryInterp) : TryMove → Prop
  | .discardCallback i => ∀ pCb ∈ t.callbacks[i]?, pCb.xProc ≠ .tryPostFinally
  | _ => True

/-- A lawful move all of whose calls are covered, and that leaves the callbacks of
`finally` clauses to be invoked. -/
def CoveredMove (t : TryInterp) (m : TryMove) : Prop :=
  (t.program m).Allowed exec (fun t call => call.Lawful t ∧ call.Covered t) (t.enter m) ∧
    t.Invoked m

instance (t : TryInterp) (m : TryMove) : Decidable (t.LawfulMove m) :=
  inferInstanceAs (Decidable (Program.Allowed ..))

instance (t : TryInterp) : (m : TryMove) → Decidable (t.Invoked m)
  | .discardCallback i =>
    inferInstanceAs (Decidable (∀ pCb ∈ t.callbacks[i]?, pCb.xProc ≠ .tryPostFinally))
  | .alloc _ | .setResult _ _ | .setResultStatic | .takeResult | .tryCommand _ _ _
  | .runCallback _ _ => inferInstanceAs (Decidable True)

instance (t : TryInterp) (m : TryMove) : Decidable (t.CoveredMove m) :=
  inferInstanceAs (Decidable (_ ∧ _))

end TryInterp

/-- The counter lacks what has been put aside, and nothing else, of the usable sizes of the
live blocks. -/
structure Allocator.Balanced (a : Allocator) (aside : ℕ) : Prop where
  blocks : LiveBlocks a.live
  bytes : a.nAllocBytes + aside = usableSum a.live

namespace Allocator.Balanced

variable {a : Allocator} {n : ℕ}

variable {nByte : ℕ}

section

variable (h : a.Balanced n)

include h

theorem charge {b : Block} (hb : FreshBlock a.live nByte b) :
    ({ a with live := b :: a.live }.accountAlloc b.usable).Balanced n := by
  have hnew := h.blocks.cons hb
  have hsum : usableSum (b :: a.live) = b.usable + usableSum a.live := by simp [usableSum]
  have hle := hnew.usableSum_le
  have hbytes := h.bytes
  rw [accountAlloc_of_le (by simp only; omega)]
  exact ⟨hnew, by simp only; omega⟩

theorem credit {p : Option ℕ} (hp : LivePointer a.live p) (hle : a.oldSize p ≤ a.nAllocBytes) :
    ({ a.credit (a.oldSize p) with live := a.others p } : Allocator).Balanced n := by
  have hbytes := h.bytes
  rw [Allocator.credit, if_pos hle]
  cases p with
  | none => exact ⟨h.blocks, hbytes⟩
  | some p =>
    have hsum := usableSum_release h.blocks (hp p rfl)
    simp only [oldSize, others] at hle ⊢
    exact ⟨h.blocks.release p, by simp only; omega⟩

theorem malloc {xMalloc : Option Block} (hlawful : (AllocOp.malloc nByte xMalloc).Lawful a) :
    (a.mallocCommon nByte xMalloc).1.Balanced n := by
  rcases a.mallocCommon_cases nByte xMalloc with heq | ⟨b, hb, -, heq⟩
  · rw [heq]
    exact h
  · rw [heq]
    exact h.charge (hlawful b hb)

theorem realloc {p : Option ℕ} {xRealloc : ReallocReply}
    (hlawful : (AllocOp.realloc p nByte xRealloc).Lawful a) (hcov : a.oldSize p ≤ a.nAllocBytes) :
    (a.reallocCommon p nByte xRealloc).1.Balanced n := by
  obtain ⟨hp, hne, hrel, hfresh⟩ := hlawful
  rcases a.reallocCommon_cases p nByte fun hr => hne (hrel hr) with heq | ⟨b, hb, -, heq⟩
  · rw [heq]
    exact h
  · rw [heq]
    exact (h.credit hp hcov).charge (hfresh b hb)

theorem exec {op : AllocOp} (hlawful : op.Lawful a)
    (hcov : op.Covered a) : (op.exec a).1.Balanced n := by
  cases op with
  | malloc nByte xMalloc => exact h.malloc hlawful
  | realloc p nByte xRealloc => exact h.realloc hlawful hcov
  | setAllocLimit nLimit => exact ⟨h.blocks, h.bytes⟩
  | free p =>
    have hcredit := h.credit hlawful hcov
    cases p with
    | none => exact h
    | some p => exact hcredit

theorem save : (a.setAllocBytes 0).Balanced (a.nAllocBytes + n) := by
  have hbytes := h.bytes
  exact ⟨h.blocks, by simp only [setAllocBytes]; omega⟩

end

theorem restore {nSaved : ℕ} (h : a.Balanced (nSaved + n)) :
    (a.setAllocBytes ((safeAddSize nSaved a.nAllocBytes).getD sizeMax)).Balanced n := by
  have hbytes := h.bytes
  have hle := h.blocks.usableSum_le
  have hadd : safeAddSize nSaved a.nAllocBytes = some (nSaved + a.nAllocBytes) :=
    safeAddSize_eq_some.mpr ⟨by omega, rfl⟩
  rw [hadd, Option.getD_some]
  exact ⟨h.blocks, by simp only [setAllocBytes]; omega⟩

end Allocator.Balanced

/-! ## Programs that keep the balance -/

/-- `n` bytes have been put aside, and the callbacks that are scheduled will give back
`k`. -/
structure Aside (n k : ℕ) (t : TryInterp) : Prop where
  balanced : t.alloc.Balanced n
  saved : t.savedAllocBytes = k

/-- From `P` to `Q`, by calls that are lawful and covered. -/
abbrev Keeps {α : Type} (P : TryInterp → Prop) (p : TryProgram α)
    (Q : α → TryInterp → Prop) : Prop :=
  Program.Ensures TryInterp.exec (fun t call => call.Lawful t ∧ call.Covered t) P p Q

def Quiet {α : Type} (p : TryProgram α) : Prop :=
  ∀ n k, Keeps (Aside n k) p fun _ => Aside n k

namespace Quiet

variable {α β : Type} {n k : ℕ}

theorem pure (a : α) : Quiet (Pure.pure a : TryProgram α) :=
  fun _ _ _ ht _ => ht

theorem bind {p : TryProgram α} {f : α → TryProgram β} (hp : Quiet p)
    (hf : ∀ a, Quiet (f a)) : Quiet (p >>= f) :=
  fun n k => (hp n k).bind fun a => hf a n k

theorem andThen {p : TryProgram α} {f : α → TryProgram β} {Q : β → TryInterp → Prop}
    (hp : Quiet p) (hf : ∀ a, Keeps (Aside n k) (f a) Q) : Keeps (Aside n k) (p >>= f) Q :=
  (hp n k).bind hf

theorem alloc (op : AllocOp) : Quiet (TryProgram.call (.alloc op)) := by
  intro n k
  apply Program.ensures_perform
  intro t ht hok
  exact ⟨ht.balanced.exec hok.1 hok.2, ht.saved⟩

theorem exchangeResult (z : Option ℕ) : Quiet (TryProgram.call (.exchangeResult z)) := by
  intro n k
  apply Program.ensures_perform
  intro t ht _
  exact ⟨ht.balanced, ht.saved⟩

theorem exchangeFinallyResult (z : Option ℕ) :
    Quiet (TryProgram.call (.exchangeFinallyResult z)) := by
  intro n k
  apply Program.ensures_perform
  intro t ht _
  exact ⟨ht.balanced, ht.saved⟩

theorem free (p : Option ℕ) : Quiet (TryProgram.free p) :=
  (alloc _).bind fun _ => pure ()

theorem allocStr (nLen : ℕ) (xMalloc : Option Block) :
    Quiet (TryProgram.allocStr nLen xMalloc) := by
  unfold TryProgram.allocStr
  split_ifs
  · exact alloc _
  · exact pure none

theorem setResultStatic : Quiet TryProgram.setResultStatic :=
  (exchangeResult none).bind fun zOld => free zOld

theorem setResult (nRaw : ℕ) (xMalloc : Option Block) :
    Quiet (TryProgram.setResult nRaw xMalloc) := by
  refine setResultStatic.bind ?_
  intro _
  refine (allocStr nRaw xMalloc).bind ?_
  intro z
  exact (exchangeResult z).bind fun _ => pure _

theorem setFinallyState (m : ℕ) (xMalloc : Option Block) :
    Quiet (TryProgram.setFinallyState m xMalloc) := by
  refine (exchangeFinallyResult none).bind ?_
  intro zOld
  refine (free zOld).bind ?_
  intro _
  refine (allocStr m xMalloc).bind ?_
  intro z
  exact (exchangeFinallyResult z).bind fun _ => pure ()

theorem nrEval (xMalloc : Option Block) : Quiet (TryProgram.nrEval xMalloc) := by
  refine (alloc _).bind ?_
  rintro (_ | _)
  · exact setResultStatic
  · exact pure ()

theorem tryReturnSaved (pState : TryState) (ans : TryAnswers) :
    Quiet (TryProgram.tryReturnSaved pState ans) := by
  refine (setResult _ _).bind ?_
  intro ok
  refine (free _).bind ?_
  intro _
  refine (free _).bind ?_
  intro _
  cases ok
  · exact setResultStatic
  · exact pure ()

end Quiet

theorem keeps_addCallback (xProc : TryProc) (pState : TryState) (xMalloc : Option Block) (n k : ℕ) :
    Keeps (Aside n k) (TryProgram.addCallback xProc pState xMalloc)
      fun _ => Aside n (xProc.setAside pState + k) := by
  have hcall : Keeps (Aside n k) (TryProgram.call (.addCallback xProc pState xMalloc))
      fun _ => Aside n (xProc.setAside pState + k) := by
    apply Program.ensures_perform
    intro t ht hok
    obtain ⟨hlawful, hcov⟩ := hok
    have hmalloc := ht.balanced.malloc hlawful
    rcases heq : t.alloc.mallocCommon sizeofCallback xMalloc with ⟨a, _ | p⟩
    · -- without memory only `try_post_try` is lost, and it has put nothing aside
      rw [heq] at hmalloc
      simp only [TryInterp.exec, heq]
      cases xProc with
      | tryPostTry =>
        refine ⟨hmalloc, ?_⟩
        rw [TryProc.setAside, Nat.zero_add]
        exact ht.saved
      | tryPostFinally => exact absurd (by rw [heq]) hcov
    · rw [heq] at hmalloc
      simp only [TryInterp.exec, heq]
      refine ⟨hmalloc, ?_⟩
      have hsaved := ht.saved
      simp only [TryInterp.savedAllocBytes, map_cons, sum_cons] at hsaved ⊢
      rw [hsaved]
  refine hcall.bind ?_
  rintro (_ | _)
  · exact Quiet.setResultStatic n _
  · exact Quiet.pure () n _

theorem keeps_tryPostFinally (pState : TryState) (ans : TryAnswers) (n k : ℕ) :
    Keeps (Aside (pState.nSavedAllocBytes + n) k) (TryProgram.tryPostFinally pState ans)
      fun _ => Aside n k := by
  refine (Quiet.setFinallyState _ _).andThen ?_
  intro _
  have hrestore : Keeps (Aside (pState.nSavedAllocBytes + n) k)
      (TryProgram.call (.restoreAllocBytes pState.nSavedAllocBytes)) fun _ => Aside n k := by
    apply Program.ensures_perform
    intro t ht _
    exact ⟨ht.balanced.restore, ht.saved⟩
  refine hrestore.bind ?_
  intro _
  refine (Quiet.free _).andThen ?_
  intro _
  split_ifs
  · exact Quiet.tryReturnSaved pState ans n k
  · exact (Quiet.free _).bind (fun _ => Quiet.free _) n k

theorem keeps_startFinally (pState : TryState) (ans : TryAnswers) (n k : ℕ) :
    Keeps (Aside n k) (TryProgram.startFinally pState ans)
      fun _ t => ∃ m, Aside (m + n) (m + k) t := by
  have hsave : Keeps (Aside n k) (TryProgram.call .saveAllocBytes)
      fun (nSaved : ℕ) => Aside (nSaved + n) k := by
    apply Program.ensures_perform
    intro t ht _
    exact ⟨ht.balanced.save, ht.saved⟩
  refine hsave.bind fun nSaved => ?_
  refine (keeps_addCallback _ _ _ _ _).bind fun _ => ?_
  exact (Quiet.nrEval _ _ _).weaken (fun _ ht => ht) fun _ t ht => ⟨nSaved, ht⟩

theorem keeps_tryPostTry (pState : TryState) (ans : TryAnswers) (n k : ℕ) :
    Keeps (Aside n k) (TryProgram.tryPostTry pState ans)
      fun _ t => ∃ m, Aside (m + n) (m + k) t := by
  have hquiet : ∀ {p : TryProgram Unit}, Quiet p →
      Keeps (Aside n k) p fun _ t => ∃ m, Aside (m + n) (m + k) t := by
    intro p hp
    refine (hp n k).weaken (fun _ ht => ht) fun _ t ht => ⟨0, ?_⟩
    simpa using ht
  refine Program.ensures_ite ?_ (hquiet (Quiet.free _))
  refine (Quiet.allocStr _ _).andThen ?_
  rintro (_ | z)
  · exact hquiet ((Quiet.free _).bind fun _ => Quiet.setResultStatic)
  · exact Program.ensures_ite (hquiet (Quiet.tryReturnSaved _ ans)) (keeps_startFinally _ ans n k)

theorem quiet_tryCommand (hasFinally : Bool) (xState : Option Block) (ans : TryAnswers) :
    Quiet (TryProgram.tryCommand hasFinally xState ans) := by
  refine (Quiet.alloc _).bind ?_
  rintro (_ | addr)
  · exact Quiet.pure ()
  · intro n k
    refine (keeps_addCallback .tryPostTry _ _ n k).bind fun _ => ?_
    simpa [TryProc.setAside] using Quiet.nrEval ans.xEval n k

theorem keeps_runCallback (pCb : TryCallback) (ans : TryAnswers) (n : ℕ) :
    Keeps (Aside (pCb.xProc.setAside pCb.pState + n) n) (TryProgram.runCallback pCb ans)
      fun _ t => ∃ m, Aside m m t := by
  have hinvoke : Keeps (Aside (pCb.xProc.setAside pCb.pState + n) n)
      (TryProgram.invoke pCb ans) fun _ t => ∃ m, Aside m m t := by
    rcases pCb with ⟨addr, _ | _, pState⟩
    · have htry := keeps_tryPostTry pState ans n n
      rw [← Nat.zero_add n] at htry
      exact htry.weaken (fun _ ht => by simpa [TryProc.setAside] using ht)
        fun _ t ⟨m, ht⟩ => ⟨_, ht⟩
    · exact (keeps_tryPostFinally pState ans n n).weaken (fun _ ht => ht) fun _ t ht => ⟨n, ht⟩
  refine hinvoke.bind fun _ => ?_
  intro t ⟨m, ht⟩ hok
  exact ⟨m, Quiet.free _ m m t ht hok⟩

/-! ## Runs -/

namespace TryInterp

def Inv (t : TryInterp) : Prop := t.alloc.Balanced t.savedAllocBytes

variable {t : TryInterp}

theorem inv_iff : t.Inv ↔ ∃ n, Aside n n t :=
  ⟨fun h => ⟨_, h, rfl⟩, fun ⟨_, h⟩ => by rw [Inv, h.saved]; exact h.balanced⟩

theorem init_inv : init.Inv := by
  refine ⟨⟨?_, ?_⟩, rfl⟩
  · simp [init]
  · simp [init]

theorem savedAllocBytes_unlink {i : ℕ} {pCb : TryCallback} (hi : t.callbacks[i]? = some pCb) :
    t.savedAllocBytes = pCb.xProc.setAside pCb.pState + (t.unlink i).savedAllocBytes := by
  obtain ⟨hlt, rfl⟩ := List.getElem?_eq_some_iff.mp hi
  have hperm := (getElem_cons_eraseIdx_perm hlt).map fun pCb => pCb.xProc.setAside pCb.pState
  rw [savedAllocBytes, ← hperm.sum_eq, map_cons, sum_cons]
  rfl

theorem unlink_of_none {i : ℕ} (hi : t.callbacks[i]? = none) : t.unlink i = t := by
  rw [unlink, eraseIdx_of_length_le (getElem?_eq_none_iff.mp hi)]

theorem step_inv (h : t.Inv) {m : TryMove} (hok : t.CoveredMove m) : (t.step m).Inv := by
  obtain ⟨hcalls, hinvoked⟩ := hok
  have hquiet : ∀ {p : TryProgram Unit}, Quiet p → t.program m = p → t.enter m = t →
      (t.step m).Inv := by
    rintro p hp rfl henter
    rw [henter] at hcalls
    rw [step, henter]
    exact inv_iff.mpr ⟨_, hp _ _ t ⟨h, rfl⟩ hcalls⟩
  cases m with
  | alloc op => exact hquiet ((Quiet.alloc op).bind fun _ => Quiet.pure ()) rfl rfl
  | setResult nRaw xMalloc =>
    exact hquiet ((Quiet.setResult nRaw xMalloc).bind fun _ => Quiet.pure ()) rfl rfl
  | setResultStatic => exact hquiet Quiet.setResultStatic rfl rfl
  | takeResult =>
    exact hquiet ((Quiet.exchangeResult none).bind fun _ => Quiet.pure ()) rfl rfl
  | tryCommand hasFinally xState ans => exact hquiet (quiet_tryCommand _ _ _) rfl rfl
  | runCallback i ans =>
    rcases hi : t.callbacks[i]? with _ | pCb
    · apply hquiet (Quiet.pure ())
      · simp only [program, hi]
      · exact unlink_of_none hi
    · have hprogram : t.program (.runCallback i ans) = TryProgram.runCallback pCb ans := by
        simp only [program, hi]
      rw [hprogram] at hcalls
      rw [step, hprogram]
      apply inv_iff.mpr
      refine keeps_runCallback pCb ans (t.unlink i).savedAllocBytes _ ⟨?_, rfl⟩ hcalls
      rw [← savedAllocBytes_unlink hi]
      exact h
  | discardCallback i =>
    rcases hi : t.callbacks[i]? with _ | pCb
    · apply hquiet (Quiet.pure ())
      · simp only [program, hi]
      · exact unlink_of_none hi
    · have hprogram : t.program (.discardCallback i) = TryProgram.free (some pCb.addr) := by
        simp only [program, hi]
      -- `try_post_try` has put nothing aside
      have hnone : pCb.xProc.setAside pCb.pState = 0 := by
        have hne := hinvoked pCb hi
        cases hproc : pCb.xProc with
        | tryPostTry => rfl
        | tryPostFinally => exact absurd hproc hne
      rw [hprogram] at hcalls
      rw [step, hprogram]
      apply inv_iff.mpr
      refine ⟨_, Quiet.free _ _ _ _ ⟨?_, rfl⟩ hcalls⟩
      have hsaved := savedAllocBytes_unlink hi
      rw [hnone, Nat.zero_add] at hsaved
      rw [enter, ← hsaved]
      exact h

/-- The counter and what the started `finally` clauses have put aside are the usable sizes
of the live blocks; in particular, where none is under way, the counter is. -/
structure Charged (t : TryInterp) : Prop where
  bytes : t.alloc.nAllocBytes + t.savedAllocBytes = usableSum t.alloc.live
  completed : (∀ pCb ∈ t.callbacks, pCb.xProc ≠ .tryPostFinally) →
    t.alloc.nAllocBytes = usableSum t.alloc.live

theorem savedAllocBytes_of_completed (h : ∀ pCb ∈ t.callbacks, pCb.xProc ≠ .tryPostFinally) :
    t.savedAllocBytes = 0 := by
  apply sum_eq_zero
  intro n hn
  obtain ⟨pCb, hmem, rfl⟩ := mem_map.mp hn
  cases hproc : pCb.xProc with
  | tryPostTry => rfl
  | tryPostFinally => exact absurd hproc (h pCb hmem)

/-- In every run in which no block larger than the counter is given up, every started
`finally` clause gets its callback, and none of these is discarded, the counter is what the
live blocks make it. -/
theorem charged_of_covered {t : TryInterp} (ht : ReachableBy step CoveredMove init t) :
    t.Charged := by
  have hinv : t.Inv := ht.invariant init_inv fun _ _ h hok => step_inv h hok
  refine ⟨hinv.bytes, ?_⟩
  intro hcompleted
  have hbytes := hinv.bytes
  rwa [savedAllocBytes_of_completed hcompleted] at hbytes

def quietAnswers : TryAnswers := ⟨0, false, true, none, none, none, none, none⟩

/-- `try` with a body whose result has `n` bytes and a clause that makes a variable and sets
a result of one byte. -/
def tryRun (n : ℕ) : List TryMove :=
  [.tryCommand true (some ⟨4096, 112⟩)
      { quietAnswers with xCallback := some ⟨8192, 48⟩, xEval := some ⟨12288, 48⟩ },
    .alloc (.free (some 12288)),
    .setResult n (some ⟨65536, n + 1⟩),
    .runCallback 0
      { quietAnswers with
        nResult := n
        xStrdup := some ⟨131072, n + 1⟩
        xCallback := some ⟨12288, 48⟩
        xEval := some ⟨16384, 48⟩ },
    .alloc (.malloc 64 (some ⟨20480, 64⟩)),
    .setResult 1 (some ⟨8192, 2⟩),
    .alloc (.free (some 16384)),
    .runCallback 0
      { quietAnswers with
        nResult := 1
        xStrdup := some ⟨16384, 2⟩
        xResult := some ⟨196608, n + 1⟩ }]

/-- A short result of the body may be given up in the clause. -/
theorem charged_of_covered_short :
    ((tryRun 20).foldl step init).alloc.nAllocBytes = 87 ∧
      ((tryRun 20).foldl step init).Charged := by
  refine ⟨by decide, charged_of_covered (ReachableBy.init.foldl ?_)⟩
  decide

/-- A result of ten thousand bytes may not: the counter of the clause goes down to zero, and
in the end the counter is 20002 bytes where 10067 are live. -/
theorem long_result_miscounted :
    ∃ t, ReachableBy step LawfulMove init t ∧ t.callbacks = [] ∧
      t.alloc.nAllocBytes = 20002 ∧ usableSum t.alloc.live = 10067 := by
  refine ⟨(tryRun 10000).foldl step init, ReachableBy.init.foldl ?_, ?_⟩
  · decide
  · decide

end TryInterp

end Th8
