import Mathlib.Data.Int.Notation
import Th8.Namespace.Tree
import Th8.Support.Unwinding

/-!
# The execution context of an evaluation

Evaluation changes the depth, the line, the frame, the namespace and the guard of the
unknown handler, and callbacks and waiting C code put them back.  The machine here keeps
the callbacks and the callers that wait in one stack, the top first.  Which command runs,
which return code it gives, which allocation fails and when a cancellation fires is the
choice of the environment.

`Th8_Thaw`, `th8EvalTrampoline` and `th8InFrame`, which no command of the library calls,
are left out, and so are the payloads of the callbacks that restore nothing.
-/

namespace Th8

open Support

namespace Context

/-! ### Data -/

/-- `Th8_Frame`: its address and the namespace it was pushed in. -/
structure CallFrame where
  address : ℕ
  pNs : NsId
deriving DecidableEq

abbrev FramePtr := List CallFrame

/-- The callbacks on the chain; the last one stands for every callback that restores
nothing. -/
inductive Callback where
  | evalStateCleanup (nSavedLine : ℤ)
  | evalPostCmd (bWasUnknown : Bool)
  | frameRestore (pSaved : FramePtr)
  | nsRestore (pSaved : NsId)
  | frameCleanup
  | other
deriving DecidableEq

/-- `Th8_ExecCtx` without the callback chain. -/
structure ExecCtx where
  pFrame : FramePtr
  pCurrentNs : NsId
  nEvalDepth : ℤ
  nLine : ℤ
  pSuspendedCallbacks : List Callback
  pSavedFrame : FramePtr
deriving DecidableEq

/-- What is under way: a callback that waits on the chain, or C code that waits on the
stack. -/
inductive Activity where
  | callback (cb : Callback)
  /-- `th8EvalLocal` before its state is allocated. -/
  | evalLocal (nSavedLine : ℤ)
  /-- The end of an evaluation after the depth has been counted down. -/
  | restoreLine (nSavedLine : ℤ)
  | evalCommon (pSavedFrame : FramePtr) (nSavedDepth : ℤ) (switched : Bool)
  | evalDownlevel (pSaved : FramePtr) (pSavedNs : NsId)
  | nsEval (pSaved : NsId)
  | coroCreate (pCoro : ℕ)
  | coroResume (pCoro : ℕ) (outerCtx : ExecCtx)
  | coroDelete (outerCtx : ExecCtx)
deriving DecidableEq

/-- `Th8_CoroState`: the context it was left in and its callbacks. -/
structure Coroutine where
  ctx : ExecCtx
  pCallbacks : List Callback

end Context

/-- The part of the interpreter that evaluation restores, and what is under way. -/
structure Context where
  ctx : Context.ExecCtx
  bInUnknown : Bool
  pDownlevelFrame : Context.FramePtr
  stack : List Context.Activity
  coroutines : ℕ → Option Context.Coroutine
  /-- The outermost evaluation has returned a suspension or a yield. -/
  suspended : Bool

namespace Context

def chain : List Activity → List Callback
  | .callback cb :: rest => cb :: chain rest
  | _ => []

def belowChain : List Activity → List Activity
  | .callback _ :: rest => belowChain rest
  | stack => stack

def Activity.restoresLine : Activity → Bool
  | .callback (.evalStateCleanup _) => true
  | .evalLocal _ => true
  | .restoreLine _ => true
  | .coroResume .. => true
  | .coroDelete _ => true
  | _ => false

variable (c : Context)

def evaluating : Bool := c.stack.any Activity.restoresLine

def inCallback : Bool :=
  match c.stack with
  | [] => false
  | .evalLocal _ :: _ => false
  | .restoreLine _ :: _ => false
  | .nsEval _ :: _ => false
  | .coroCreate _ :: _ => false
  | _ => true

def push (a : Activity) : Context := { c with stack := a :: c.stack }

/-- `Th8_NRAddCallback` whose result is ignored: without memory nothing is pushed. -/
def addCallback (cb : Callback) (hasMemory : Bool) : Context :=
  if hasMemory then c.push (.callback cb) else c

/-! ### Starting an evaluation -/

/-- `th8EvalLocal` up to the policy callback.  The script is refused when it is tainted,
when the recursion is too deep, or when the interpreter is not ready. -/
def evalLocal (refused : Bool) : Context :=
  if refused ∨ 1000 < c.ctx.nEvalDepth then c
  else
    { c with
      ctx := { c.ctx with nEvalDepth := c.ctx.nEvalDepth + 1, nLine := 1 }
      stack := .evalLocal c.ctx.nLine :: c.stack }

def leave (nSavedLine : ℤ) : Context :=
  { c with
    ctx := { c.ctx with nEvalDepth := c.ctx.nEvalDepth - 1 }
    stack := .restoreLine nSavedLine :: c.stack }

/-- The rest of `th8EvalLocal`: the policy callback has answered, and there is memory or
not for the state and for each of the two callbacks. -/
def startEval (rejected hasState hasCleanup hasIteration : Bool) : Option Context :=
  match c.stack with
  | .evalLocal nSavedLine :: rest =>
    let c₁ := { c with stack := rest }
    if rejected then some (c₁.leave nSavedLine)
    else if !hasState then some c₁
    else if !hasCleanup then some (c₁.leave nSavedLine)
    else some ((c₁.push (.callback (.evalStateCleanup nSavedLine))).addCallback .other hasIteration)
  | _ => none

/-- The frame an `iFrame` argument names; there is none when the list is empty. -/
def frameAt (pFrame : FramePtr) (iFrame : ℤ) : FramePtr :=
  pFrame.drop (if 0 < iFrame then (pFrame.length - iFrame).toNat else (-iFrame).toNat)

/-- `th8EvalCommon` up to the trampoline. -/
def evalCommon (iFrame : ℤ) (refused : Bool) : Context :=
  let done := Activity.evalCommon c.ctx.pFrame c.ctx.nEvalDepth (iFrame != 0)
  if iFrame = 0 then (c.push done).evalLocal refused
  else
    match frameAt c.ctx.pFrame iFrame with
    | [] => c
    | pTarget => evalLocal
        { c with
          ctx := { c.ctx with pFrame := pTarget }
          pDownlevelFrame := c.ctx.pFrame
          stack := done :: c.stack }
        refused

def frameNs (pFrame : FramePtr) (pCurrentNs : NsId) : NsId :=
  (pFrame.head?.map CallFrame.pNs).getD pCurrentNs

/-- `Th8_EvalDownlevel` up to the trampoline. -/
def evalDownlevel (refused : Bool) : Context :=
  match c.pDownlevelFrame with
  | [] => c
  | pTarget => evalLocal
      { c with
        ctx := { c.ctx with
          pFrame := pTarget
          pCurrentNs := frameNs pTarget c.ctx.pCurrentNs }
        stack := .evalDownlevel c.ctx.pFrame c.ctx.pCurrentNs :: c.stack }
      refused

/-- `Th8_NsEval` once the namespace has been found or made. -/
def nsEval (pTarget : NsId) (address : ℕ) (hasFrame refused : Bool) : Context :=
  if hasFrame then
    evalCommon
      { c with
        ctx := { c.ctx with
          pCurrentNs := pTarget
          pFrame := ⟨address, pTarget⟩ :: c.ctx.pFrame }
        stack := .nsEval c.ctx.pCurrentNs :: c.stack }
      0 refused
  else c

/-- `Th8_CoroCreate` once its records have been allocated. -/
def coroCreate (pCoro : ℕ) (refused : Bool) : Context :=
  (c.push (.coroCreate pCoro)).evalCommon 0 refused

/-- `coro_resume_command`. -/
def coroResume (pCoro : ℕ) : Context :=
  match c.coroutines pCoro with
  | none => c
  | some ⟨_, []⟩ => c
  | some ⟨ctx, pCallbacks⟩ =>
    { c with
      ctx := ctx
      coroutines := Function.update c.coroutines pCoro (some ⟨ctx, []⟩)
      stack := pCallbacks.map .callback ++ .coroResume pCoro c.ctx :: c.stack }

/-- One of the two loops of `coro_delete_proc`: the callbacks run, then the outer context
is restored. -/
def drainAbove (pCallbacks : List Callback) (below : List Activity) : List Activity :=
  if pCallbacks = [] then below
  else pCallbacks.map .callback ++ .coroDelete c.ctx :: below

/-- `coro_delete_proc`: the callbacks run in the context of the coroutine, then those
still suspended in the outer one. -/
def coroDelete (pCoro : ℕ) : Context :=
  match c.coroutines pCoro with
  | none => c
  | some ⟨ctx, pCallbacks⟩ =>
    { c with
      ctx := if pCallbacks = [] then c.ctx else ctx
      coroutines := Function.update c.coroutines pCoro none
      stack := c.drainAbove pCallbacks (c.drainAbove ctx.pSuspendedCallbacks c.stack) }

/-- The call of a command: `th8EvalPostCmd` is scheduled first. -/
def dispatch (hasPostCmd : Bool) : Context := c.addCallback (.evalPostCmd false) hasPostCmd

def dispatchUnknown (hasPostCmd : Bool) : Option Context :=
  if c.bInUnknown then none
  else some { c.addCallback (.evalPostCmd true) hasPostCmd with bInUnknown := true }

/-- `Th8_NREvalInFrame`, with memory or not for each of its three callbacks. -/
def nrEvalInFrame (iFrame : ℤ) (hasFrameRestore hasNsRestore hasEval : Bool) : Context :=
  match frameAt c.ctx.pFrame iFrame with
  | [] => c
  | pTarget =>
    let c₁ := if iFrame = 0 then c else
      { c with ctx := { c.ctx with pFrame := pTarget }, pDownlevelFrame := c.ctx.pFrame }
    let c₂ := c₁.addCallback (.frameRestore c.ctx.pFrame) hasFrameRestore
    let pNs := frameNs pTarget c.ctx.pCurrentNs
    let c₃ := if pNs = c.ctx.pCurrentNs then c₂ else
      { c₂.addCallback (.nsRestore c.ctx.pCurrentNs) hasNsRestore with
        ctx := { c₂.ctx with pCurrentNs := pNs } }
    c₃.addCallback .other hasEval

def nrInFrame (address : ℕ) (hasFrame hasCleanup hasWork : Bool) : Context :=
  if hasFrame then
    let c₁ := { c with
      ctx := { c.ctx with pFrame := ⟨address, c.ctx.pCurrentNs⟩ :: c.ctx.pFrame } }
    (c₁.addCallback .frameCleanup hasCleanup).addCallback .other hasWork
  else c

/-- The end of `proc_call_nr`: the body runs in the namespace of the definition. -/
def procCall (pDefNs : NsId) (hasRestore hasEval : Bool) : Context :=
  let c₁ := if pDefNs = c.ctx.pCurrentNs then c else
    { c.addCallback (.nsRestore c.ctx.pCurrentNs) hasRestore with
      ctx := { c.ctx with pCurrentNs := pDefNs } }
  c₁.addCallback .other hasEval

def countNewlines (n : ℕ) : Context :=
  { c with ctx := { c.ctx with nLine := c.ctx.nLine + n } }

/-- `Th8_DeleteNamespace`, as far as the current namespace goes. -/
def deleteNamespace (pNs : NsId) : Context :=
  if pNs = c.ctx.pCurrentNs ∨ pNs = globalNs then
    { c with ctx := { c.ctx with pCurrentNs := globalNs } }
  else c

def runCallback : Callback → Context
  | .evalStateCleanup nSavedLine => c.leave nSavedLine
  | .evalPostCmd bWasUnknown => if bWasUnknown then { c with bInUnknown := false } else c
  | .frameRestore pSaved =>
    { c with ctx := { c.ctx with pFrame := pSaved }, pDownlevelFrame := [] }
  | .nsRestore pSaved => { c with ctx := { c.ctx with pCurrentNs := pSaved } }
  | .frameCleanup => { c with ctx := { c.ctx with pFrame := c.ctx.pFrame.tail } }
  | .other => c

/-- One round of `th8RunCallbacks`. -/
def run : Option Context :=
  match c.stack with
  | .callback cb :: rest => some ({ c with stack := rest }.runCallback cb)
  | _ => none

def discard : Option Context :=
  if chain c.stack = [] then none else some { c with stack := belowChain c.stack }

/-- The caller on top of the stack goes on, its callbacks having run.  `th8EvalCommon`
sets the depth back when a cancellation is pending. -/
def finish (canceled : Bool) : Option Context :=
  match c.stack with
  | .restoreLine nSavedLine :: rest =>
    some { c with ctx := { c.ctx with nLine := nSavedLine }, stack := rest }
  | .evalCommon pSavedFrame nSavedDepth switched :: rest =>
    some { c with
      ctx := { c.ctx with
        pFrame := pSavedFrame
        nEvalDepth := if canceled then nSavedDepth else c.ctx.nEvalDepth }
      pDownlevelFrame := if switched then [] else c.pDownlevelFrame
      stack := rest }
  | .evalDownlevel pSaved pSavedNs :: rest =>
    some { c with
      ctx := { c.ctx with pFrame := pSaved, pCurrentNs := pSavedNs }
      stack := rest }
  | .nsEval pSaved :: rest =>
    some { c with
      ctx := { c.ctx with pFrame := c.ctx.pFrame.tail, pCurrentNs := pSaved }
      stack := rest }
  | .coroCreate _ :: rest => some { c with stack := rest }
  | .coroResume _ outerCtx :: rest => some { c with ctx := outerCtx, stack := rest }
  | .coroDelete outerCtx :: rest => some { c with ctx := outerCtx, stack := rest }
  | _ => none

/-- What `th8EvalCommon` does when its evaluation is suspended or yields: the callbacks
are set aside, the frame stays. -/
def detach (pSavedFrame : FramePtr) (nSavedDepth : ℤ) (canceled : Bool) : ExecCtx :=
  let ctx := if chain c.stack = [] then c.ctx else
    { c.ctx with pSuspendedCallbacks := chain c.stack, pSavedFrame := pSavedFrame }
  { ctx with nEvalDepth := if canceled then nSavedDepth else ctx.nEvalDepth }

/-- `Th8_CoroCreate` after a yield of the body. -/
def yieldCreate (pCoro : ℕ) (ctx : ExecCtx) (rest : List Activity) : Context :=
  { c with
    ctx := { ctx with
      pFrame := ctx.pSavedFrame
      nEvalDepth := ctx.nEvalDepth - 1
      pSuspendedCallbacks := []
      pSavedFrame := [] }
    coroutines := Function.update c.coroutines pCoro
      (some ⟨{ ctx with pSuspendedCallbacks := [] }, ctx.pSuspendedCallbacks⟩)
    stack := rest }

/-- `coro_resume_command` after a yield or a suspension. -/
def yieldResume (pCoro : ℕ) (outerCtx : ExecCtx) (rest : List Activity) (yields : Bool) : Context :=
  { c with
    ctx := outerCtx
    coroutines := if yields then Function.update c.coroutines pCoro
        (some ⟨{ c.ctx with pSuspendedCallbacks := [] },
          c.ctx.pSuspendedCallbacks ++ chain c.stack⟩)
      else c.coroutines
    stack := rest }

/-- The innermost trampoline ends before its callbacks have run: by a yield, or by a
suspension. -/
def breakOff (yields canceled : Bool) : Option Context :=
  match belowChain c.stack with
  | .evalCommon pSavedFrame nSavedDepth _ :: rest =>
    let ctx := c.detach pSavedFrame nSavedDepth canceled
    match rest with
    | [] => some { c with ctx := ctx, stack := [], suspended := true }
    | .coroCreate pCoro :: rest' =>
      if yields then some (c.yieldCreate pCoro ctx rest')
      else some { c with ctx := ctx, stack := rest' }
    | _ => some { c with ctx := ctx, stack := rest }
  | .evalDownlevel pSaved pSavedNs :: rest =>
    some { c with
      ctx := { c.ctx with pFrame := pSaved, pCurrentNs := pSavedNs }
      stack := (chain c.stack).map .callback ++ rest }
  | .coroResume pCoro outerCtx :: rest => some (c.yieldResume pCoro outerCtx rest yields)
  | .coroDelete outerCtx :: rest => some { c with ctx := outerCtx, stack := rest }
  | _ => none

inductive Move where
  | evalCommon (iFrame : ℤ) (refused : Bool)
  | evalDownlevel (refused : Bool)
  | nsEval (pTarget : NsId) (address : ℕ) (hasFrame refused : Bool)
  | coroCreate (pCoro : ℕ) (refused : Bool)
  | coroResume (pCoro : ℕ)
  | coroDelete (pCoro : ℕ)
  | deleteNamespace (pNs : NsId)
  | nrEvalCallback (refused : Bool)
  | dispatch (hasPostCmd : Bool)
  | dispatchUnknown (hasPostCmd : Bool)
  | nrEvalInFrame (iFrame : ℤ) (hasFrameRestore hasNsRestore hasEval : Bool)
  | nrInFrame (address : ℕ) (hasFrame hasCleanup hasWork : Bool)
  | procCall (pDefNs : NsId) (hasRestore hasEval : Bool)
  | addCallback (hasMemory : Bool)
  | countNewlines (n : ℕ)
  | startEval (rejected hasState hasCleanup hasIteration : Bool)
  | run
  | discard
  | finish (canceled : Bool)
  | breakOff (yields canceled : Bool)

def callbackMove : Move → Option Context
  | .nrEvalCallback refused => some (c.evalLocal refused)
  | .dispatch hasPostCmd => some (c.dispatch hasPostCmd)
  | .dispatchUnknown hasPostCmd => c.dispatchUnknown hasPostCmd
  | .nrEvalInFrame iFrame hasFrameRestore hasNsRestore hasEval =>
    some (c.nrEvalInFrame iFrame hasFrameRestore hasNsRestore hasEval)
  | .nrInFrame address hasFrame hasCleanup hasWork =>
    some (c.nrInFrame address hasFrame hasCleanup hasWork)
  | .procCall pDefNs hasRestore hasEval => some (c.procCall pDefNs hasRestore hasEval)
  | .addCallback hasMemory => some (c.addCallback .other hasMemory)
  | .countNewlines n => some (c.countNewlines n)
  | _ => none

def codeMove : Move → Option Context
  | .evalCommon iFrame refused => some (c.evalCommon iFrame refused)
  | .evalDownlevel refused => some (c.evalDownlevel refused)
  | .nsEval pTarget address hasFrame refused =>
    some (c.nsEval pTarget address hasFrame refused)
  | .coroCreate pCoro refused => some (c.coroCreate pCoro refused)
  | .coroResume pCoro => some (c.coroResume pCoro)
  | .coroDelete pCoro => some (c.coroDelete pCoro)
  | .deleteNamespace pNs => some (c.deleteNamespace pNs)
  | m => if c.inCallback then c.callbackMove m else none

def move : Move → Option Context
  | .startEval rejected hasState hasCleanup hasIteration =>
    c.startEval rejected hasState hasCleanup hasIteration
  | .run => c.run
  | .discard => c.discard
  | .finish canceled => c.finish canceled
  | .breakOff yields canceled => c.breakOff yields canceled
  | m => if c.evaluating then c.codeMove m else none

def step (m : Move) : Context := (c.move m).getD c

structure Vars where
  nEvalDepth : ℤ
  nLine : ℤ
  pFrame : FramePtr
  pCurrentNs : NsId
  bInUnknown : Bool
deriving DecidableEq

def vars : Vars where
  nEvalDepth := c.ctx.nEvalDepth
  nLine := c.ctx.nLine
  pFrame := c.ctx.pFrame
  pCurrentNs := c.ctx.pCurrentNs
  bInUnknown := c.bInUnknown

/-- The outermost `Th8_Eval` has come to an end other than a suspension or a yield. -/
def returned : Bool := c.stack.isEmpty && !c.suspended

end Context

/-!
## What an evaluation restores

The callbacks and callers under way, run from the top, give depth, line, namespace and
guard their values back: this holds after every move that neither drops a callback with
something to restore nor leaves a change without one.  The frame needs no such argument,
because `th8EvalCommon` keeps its own copy of it.
-/

namespace Context

/-- The four variables that only the activities restore. -/
@[ext]
structure Kept where
  nEvalDepth : ℤ
  nLine : ℤ
  pCurrentNs : NsId
  bInUnknown : Bool

def ExecCtx.kept (ctx : ExecCtx) (bInUnknown : Bool) : Kept :=
  ⟨ctx.nEvalDepth, ctx.nLine, ctx.pCurrentNs, bInUnknown⟩

def Callback.restore : Callback → Kept → Kept
  | .evalStateCleanup nSavedLine, x =>
    { x with nEvalDepth := x.nEvalDepth - 1, nLine := nSavedLine }
  | .evalPostCmd bWasUnknown, x => if bWasUnknown then { x with bInUnknown := false } else x
  | .nsRestore pSaved, x => { x with pCurrentNs := pSaved }
  | _, x => x

def Activity.restore : Activity → Kept → Kept
  | .callback cb, x => cb.restore x
  | .evalLocal nSavedLine, x =>
    { x with nEvalDepth := x.nEvalDepth - 1, nLine := nSavedLine }
  | .restoreLine nSavedLine, x => { x with nLine := nSavedLine }
  | .evalDownlevel _ pSavedNs, x => { x with pCurrentNs := pSavedNs }
  | .nsEval pSaved, x => { x with pCurrentNs := pSaved }
  | .coroResume _ outerCtx, x => outerCtx.kept x.bInUnknown
  | .coroDelete outerCtx, x => outerCtx.kept x.bInUnknown
  | _, x => x

/-- An evaluation returns at the depth it was called at, and a coroutine is created inside
an evaluation. -/
def Activity.due : Activity → List Activity → Kept → Prop
  | .evalCommon _ nSavedDepth _, _, x => x.nEvalDepth = nSavedDepth
  | .coroCreate _, below, _ => below.any Activity.restoresLine
  | _, _, _ => True

def Activity.restoresNs : Activity → Bool
  | .callback (.nsRestore _) => true
  | .evalDownlevel .. => true
  | .nsEval _ => true
  | .coroResume .. => true
  | .coroDelete _ => true
  | _ => false

def SameButLine (x y : Kept) : Prop :=
  x.nEvalDepth = y.nEvalDepth ∧ x.pCurrentNs = y.pCurrentNs ∧ x.bInUnknown = y.bInUnknown

def SameButNs (x y : Kept) : Prop :=
  x.nEvalDepth = y.nEvalDepth ∧ x.nLine = y.nLine ∧ x.bInUnknown = y.bInUnknown

/-- The activities of a stack restore `goal`. -/
abbrev Restores (goal : Kept) (stack : List Activity) (x : Kept) : Prop :=
  Unwinds Activity.restore Activity.due goal stack x

variable {goal x y : Kept} {stack : List Activity}

theorem Restores.line (h : Restores goal stack x) (hstack : stack.any Activity.restoresLine)
    (hxy : SameButLine x y) : Restores goal stack y := by
  refine h.masked SameButLine Activity.restoresLine ?_ ?_ ?_ hstack hxy
  · intro a below x y hxy ha
    cases a <;> first | exact trivial | exact hxy.1.symm.trans ha | exact ha
  · rintro a x y ⟨hdepth, hns, hguard⟩
    rcases a with (_ | (_ | _) | _ | _ | _ | _) | _ | _ | _ | _ | _ | _ | _ | _ <;>
      simp [SameButLine, Activity.restore, Callback.restore, ExecCtx.kept, *]
  · rintro a x y ha ⟨hdepth, hns, hguard⟩
    rcases a with (_ | _ | _ | _ | _ | _) | _ | _ | _ | _ | _ | _ | _ | _ <;>
      simp_all [Activity.restoresLine, Activity.restore, Callback.restore, ExecCtx.kept]

theorem Restores.ns (h : Restores goal stack x) (hstack : stack.any Activity.restoresNs)
    (hxy : SameButNs x y) : Restores goal stack y := by
  refine h.masked SameButNs Activity.restoresNs ?_ ?_ ?_ hstack hxy
  · intro a below x y hxy ha
    cases a <;> first | exact trivial | exact hxy.1.symm.trans ha | exact ha
  · rintro a x y ⟨hdepth, hline, hguard⟩
    rcases a with (_ | (_ | _) | _ | _ | _ | _) | _ | _ | _ | _ | _ | _ | _ | _ <;>
      simp [SameButNs, Activity.restore, Callback.restore, ExecCtx.kept, *]
  · rintro a x y ha ⟨hdepth, hline, hguard⟩
    rcases a with (_ | _ | _ | _ | _ | _) | _ | _ | _ | _ | _ | _ | _ | _ <;>
      simp_all [Activity.restoresNs, Activity.restore, Callback.restore, ExecCtx.kept]

def Callback.idle : Callback → Bool
  | .evalStateCleanup _ => false
  | .evalPostCmd bWasUnknown => !bWasUnknown
  | .nsRestore _ => false
  | _ => true

def Callback.resetsGuard : Callback → Bool
  | .evalPostCmd bWasUnknown => bWasUnknown
  | _ => false

theorem Callback.restore_of_idle {cb : Callback} (h : cb.idle) (x : Kept) : cb.restore x = x := by
  rcases cb with _ | (_ | _) | _ | _ | _ | _ <;>
    first | rfl | exact absurd h (by simp [Callback.idle])

theorem Callback.restore_bInUnknown {cb : Callback} (h : cb.resetsGuard = false) (x : Kept) :
    (cb.restore x).bInUnknown = x.bInUnknown := by
  rcases cb with _ | (_ | _) | _ | _ | _ | _ <;>
    first | rfl | exact absurd h (by simp [Callback.resetsGuard])

theorem stack_eq_chain (stack : List Activity) :
    stack = (chain stack).map .callback ++ belowChain stack := by
  induction stack with
  | nil => rfl
  | cons a stack ih =>
    cases a with
    | callback cb => exact congrArg (Activity.callback cb :: ·) ih
    | _ => rfl

theorem Restores.runChain {cbs : List Callback} {below : List Activity}
    (h : Restores goal (cbs.map .callback ++ below) x) :
    Restores goal below (unwind Callback.restore cbs x) := by
  have hdrop := h.drop
  rwa [unwind, List.foldl_map] at hdrop

theorem Restores.pushChain {cbs : List Callback} {below : List Activity}
    (h : Restores goal below (unwind Callback.restore cbs x)) :
    Restores goal (cbs.map .callback ++ below) x := by
  refine Unwinds.prepend ?_ ?_
  · intro a ha below y
    obtain ⟨cb, -, rfl⟩ := List.mem_map.mp ha
    trivial
  · rwa [unwind, List.foldl_map]

theorem unwind_idle {cbs : List Callback} (h : cbs.all Callback.idle) (x : Kept) :
    unwind Callback.restore cbs x = x :=
  unwind_keeps id (fun _ ha => Callback.restore_of_idle (List.all_eq_true.mp h _ ha)) x

theorem unwind_bInUnknown {cbs : List Callback} (h : cbs.any Callback.resetsGuard = false)
    (x : Kept) : (unwind Callback.restore cbs x).bInUnknown = x.bInUnknown := by
  refine unwind_keeps Kept.bInUnknown (fun cb hcb => Callback.restore_bInUnknown ?_) x
  simpa using List.any_eq_false.mp h cb hcb

theorem unwind_oneEval {cbs : List Callback} {nSavedLine : ℤ}
    (h : cbs.filter (!·.idle) = [.evalStateCleanup nSavedLine]) (x : Kept) :
    unwind Callback.restore cbs x =
      { x with nEvalDepth := x.nEvalDepth - 1, nLine := nSavedLine } := by
  have hidle (cb : Callback) (hcb : (!cb.idle) = false) (y : Kept) : cb.restore y = y :=
    Callback.restore_of_idle (by simpa using hcb) y
  rw [← unwind_filter hidle, h]
  rfl

end Context

end Th8
