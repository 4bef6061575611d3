import Mathlib.Data.Int.Notation
import Mathlib.Data.List.Basic
import Th8.Support.Transition

/-!
# The chain of callbacks

Callbacks wait on a chain, and a trampoline takes one after the other off it, down to its
bottom marker.  The machine here has every caller of `th8RunCallbacks`: evaluations, the
thaw of a suspended one, and the creation, resumption and deletion of coroutines.  The C
code under way is a stack of trampolines and callbacks, the innermost first.

What a callback does is the choice of the environment: it pushes callbacks, changes frame,
namespace, depths and line, starts evaluations and coroutines, renames and deletes commands,
and returns some code.  Suspensions and cancellations come when the environment likes, and
any allocation may fail.  A callback is known by the number of its allocation.  Left out are
the results and values of scripts, and imports of commands.
-/

namespace Th8

open Support

namespace Nre

/-! ## Data -/

/-- The return codes of `th8.h`. -/
inductive ReturnCode where
  | ok
  | error
  | ret
  | brk
  | cont
  | ret2
  | suspend
  | yield
  | cleanup
deriving DecidableEq

/-- `TH8_SUSPEND` and `TH8_YIELD`: the callbacks that are left stay for later. -/
def ReturnCode.breaksOff : ReturnCode → Bool
  | .suspend => true
  | .yield => true
  | _ => false

abbrev Chain := List ℕ

def above (pBottom chain : Chain) : Chain := chain.take (chain.length - pBottom.length)

abbrev Path := List ℕ

structure Name where
  absolute : Bool
  parts : Path
deriving DecidableEq

def Name.resolve (z : Name) (pCurrentNs : Path) : Path :=
  if z.absolute then z.parts else pCurrentNs ++ z.parts

structure Place where
  pFrame : ℕ
  pCurrentNs : Path
  nEvalDepth : ℤ
  nExprDepth : ℤ
  nLine : ℤ
deriving DecidableEq

structure ExecCtx where
  pCallbacks : Chain
  place : Place
  pSuspendedCallbacks : Chain
  pSavedFrame : ℕ
deriving DecidableEq

structure Outer where
  pCallbacks : Chain
  place : Place
  pYieldingCoro : Option ℕ
deriving DecidableEq

inductive Event where
  | pushed (n : ℕ)
  | invoked (n : ℕ) (rc : ReturnCode)
  | returned (n : ℕ) (rc : ReturnCode)
  /-- A cancellation without unwinding has been consumed. -/
  | canceled
deriving DecidableEq

/-- A call of `th8RunCallbacks`; the last three fields record how it began and went on. -/
structure Activation where
  pBottom : Chain
  rc : ReturnCode
  /-- The last callback has returned `TH8_YIELD`. -/
  yielded : Bool
  start : Chain
  rcStart : ReturnCode
  events : List Event
deriving DecidableEq

inductive Caller where
  | evalCommon (pSavedFrame : ℕ) (nSavedDepth : ℤ)
  | evalDownlevel (pSaved : ℕ) (pSavedNs : Path)
  | thaw (pSaved : Chain)
  /-- `th8EvalCommon` called by `Th8_CoroCreate`. -/
  | coroCreate (pCoro : ℕ) (pOuterYielding : Option ℕ) (pSavedFrame : ℕ) (nSavedDepth : ℤ)
      (before : Outer)
  | coroResume (pCoro : ℕ) (outerCtx : ExecCtx) (pOuterYielding : Option ℕ)
  /-- The first loop of `coro_delete_proc`, and the chain of the second. -/
  | coroDelete (outerCtx : ExecCtx) (pSuspended : Chain)
  | coroDeleteSuspended (outerCtx : ExecCtx)
deriving DecidableEq

inductive Activity where
  | trampoline (t : Activation) (caller : Caller)
  | callback (n : ℕ)
deriving DecidableEq

inductive Ending where
  | drained
  | brokenOff
  | unwound
deriving DecidableEq

structure Record where
  activation : Activation
  caller : Caller
  ending : Ending
  chain : Chain
deriving DecidableEq

/-- `Th8_CoroState`. -/
structure Coroutine where
  ctx : ExecCtx
  bDone : Bool
  zName : Name
  /-- `coro_delete_proc` has run. -/
  freed : Bool
deriving DecidableEq

inductive Command where
  | coroResume (pCoro : ℕ)
  | other
deriving DecidableEq

end Nre

structure Nre where
  ctx : Nre.ExecCtx
  pYieldingCoro : Option ℕ
  stack : List Nre.Activity
  coroutines : List Nre.Coroutine
  commands : Nre.Path → Option Nre.Command
  /-- Coroutines whose command is gone and whose `coro_delete_proc` is due. -/
  pending : List ℕ
  nextCallback : ℕ
  /-- The callbacks that have been invoked, and those freed by an unwinding cancellation. -/
  invoked : List ℕ
  released : List ℕ
  /-- The callbacks no pointer leads to any more, and whether a coroutine was under way. -/
  dropped : List (ℕ × Bool)
  finished : List Nre.Record
  /-- What the callers of a creation or resumption had before and have afterwards. -/
  returned : List (Nre.Outer × Nre.Outer)

namespace Nre

variable (m : Nre)

def outer : Outer := ⟨m.ctx.pCallbacks, m.ctx.place, m.pYieldingCoro⟩

def inCode : Bool :=
  match m.stack with
  | .trampoline .. :: _ => false
  | _ => true

def Caller.ofCoroutine : Caller → Bool
  | .coroCreate .. => true
  | .coroResume .. => true
  | .coroDelete .. => true
  | .coroDeleteSuspended _ => true
  | _ => false

def Activity.ofCoroutine : Activity → Bool
  | .trampoline _ caller => caller.ofCoroutine
  | .callback _ => false

def note (events : List Event) : List Activity → List Activity
  | .callback n :: .trampoline t caller :: rest =>
    .callback n :: .trampoline { t with events := t.events ++ events } caller :: rest
  | stack => stack

/-- `Th8_NRAddCallback`. -/
def addCallback (hasMemory : Bool) : Nre :=
  if hasMemory then
    { m with
      ctx := { m.ctx with pCallbacks := m.nextCallback :: m.ctx.pCallbacks }
      stack := note [.pushed m.nextCallback] m.stack
      nextCallback := m.nextCallback + 1 }
  else m

def move (place : Place) : Nre := { m with ctx := { m.ctx with place := place } }

/-- `th8RunCallbacks` is called, with the callbacks above its marker. -/
def trampoline (pBottom start : Chain) (rc : ReturnCode) (caller : Caller) : Nre :=
  { m with
    ctx := { m.ctx with pCallbacks := start ++ pBottom }
    stack := .trampoline ⟨pBottom, rc, false, start, rc, []⟩ caller :: m.stack }

/-- `th8EvalLocal` and the trampoline: the evaluation is refused, or it counts the depth,
starts at line 1 and pushes the clean-up and the iteration. -/
def evalLocal (callbacks : ℕ) (rc : ReturnCode) (caller : Caller) : Nre :=
  if callbacks = 0 then m.trampoline m.ctx.pCallbacks [] rc caller
  else
    trampoline
      { m with
        ctx := { m.ctx with
          place := { m.ctx.place with
            nEvalDepth := m.ctx.place.nEvalDepth + 1, nLine := 1 } }
        nextCallback := m.nextCallback + callbacks }
      m.ctx.pCallbacks (List.range' m.nextCallback callbacks).reverse rc caller

/-- `th8EvalCommon` in some frame, up to the trampoline. -/
def evalCommon (pFrame callbacks : ℕ) (rc : ReturnCode) : Nre :=
  (m.move { m.ctx.place with pFrame := pFrame }).evalLocal callbacks rc
    (.evalCommon m.ctx.place.pFrame m.ctx.place.nEvalDepth)

/-- `Th8_EvalDownlevel` up to the trampoline. -/
def evalDownlevel (pTarget : ℕ) (pNs : Path) (callbacks : ℕ) (rc : ReturnCode) : Nre :=
  (m.move { m.ctx.place with pFrame := pTarget, pCurrentNs := pNs }).evalLocal callbacks rc
    (.evalDownlevel m.ctx.place.pFrame m.ctx.place.pCurrentNs)

/-- `Th8_Thaw` up to the trampoline. -/
def thaw : Nre :=
  if m.ctx.pSuspendedCallbacks = [] then m
  else
    trampoline { m with ctx := { m.ctx with pSuspendedCallbacks := [] } } []
      m.ctx.pSuspendedCallbacks .ok (.thaw m.ctx.pCallbacks)

/-- A command is removed; `xDel` of a coroutine is called now or later. -/
def deleteCommand (key : Path) : Nre :=
  match m.commands key with
  | some (.coroResume pCoro) =>
    { m with
      commands := Function.update m.commands key none
      pending := m.pending ++ [pCoro] }
  | some .other => { m with commands := Function.update m.commands key none }
  | none => m

/-- `Th8_RenameCommand` to a name that is not empty. -/
def renameCommand (key key' : Path) : Nre :=
  if m.commands key' = none then
    { m with
      commands := Function.update (Function.update m.commands key none) key' (m.commands key) }
  else m

def defineCommand (key : Path) : Nre :=
  { m.deleteCommand key with
    commands := Function.update m.commands key (some .other) }

theorem deleteCommand_eq (m : Nre) (key : Path) :
    ∃ commands pending, m.deleteCommand key =
      { m with commands := commands, pending := pending } := by
  rw [deleteCommand]
  split
  · exact ⟨_, _, rfl⟩
  · exact ⟨_, _, rfl⟩
  · exact ⟨m.commands, m.pending, rfl⟩

def setCoroutine (pCoro : ℕ) (f : Coroutine → Coroutine) : Nre :=
  { m with coroutines := m.coroutines.modify pCoro f }

def coroFreed (pCoro : ℕ) : Bool := (m.coroutines[pCoro]?.map Coroutine.freed).getD true

/-- `th8SaveExecCtx` into the record of a coroutine, unless it has been freed. -/
def saveExecCtx (pCoro : ℕ) (ctx : ExecCtx) : Nre :=
  m.setCoroutine pCoro fun co => if co.freed then co else { co with ctx := ctx }

def noCtx : ExecCtx := ⟨[], ⟨0, [], 0, 0, 0⟩, [], 0⟩

def returns (before : Outer) : Nre := { m with returned := m.returned ++ [(before, m.outer)] }

/-- `Th8_CoroCreate` up to the trampoline. -/
def coroCreate (zName : Name) (hasRecord hasCommand hasBody : Bool) (callbacks : ℕ)
    (rc : ReturnCode) : Nre :=
  let key := zName.resolve m.ctx.place.pCurrentNs
  let pCoro := m.coroutines.length
  if m.commands key ≠ none ∨ !hasRecord then m.returns m.outer
  else
    let m₁ : Nre := { m with
      coroutines := m.coroutines ++ [⟨noCtx, false, zName, false⟩]
      commands := if hasCommand then Function.update m.commands key (some (.coroResume pCoro))
        else m.commands }
    if !hasBody then m₁.returns m.outer
    else
      evalLocal { m₁ with pYieldingCoro := some pCoro } callbacks rc
        (.coroCreate pCoro m.pYieldingCoro m.ctx.place.pFrame m.ctx.place.nEvalDepth m.outer)

/-- `coro_resume_command` up to the trampoline. -/
def coroResume (key : Path) : Option Nre :=
  match m.commands key with
  | some (.coroResume pCoro) =>
    match m.coroutines[pCoro]? with
    | some co =>
      if co.bDone ∨ co.ctx.pCallbacks = [] then some (m.returns m.outer)
      else
        let m₁ := m.setCoroutine pCoro fun co =>
          { co with ctx := { co.ctx with pCallbacks := [] } }
        some (trampoline { m₁ with ctx := co.ctx, pYieldingCoro := some pCoro } []
          co.ctx.pCallbacks .ok (.coroResume pCoro m.ctx m.pYieldingCoro))
    | none => none
  | _ => none

/-- The second loop of `coro_delete_proc`. -/
def coroDeleteSuspended (pSuspended : Chain) : Nre :=
  if pSuspended = [] then m
  else m.trampoline [] pSuspended .cleanup (.coroDeleteSuspended m.ctx)

/-- `coro_delete_proc` of the next coroutine for which it is due, up to the trampoline. -/
def coroDelete : Option Nre :=
  match m.pending with
  | pCoro :: pending =>
    match m.coroutines[pCoro]? with
    | some co =>
      let m₁ : Nre :=
        { m.setCoroutine pCoro fun co => { co with ctx := noCtx, freed := true } with
          pending := pending }
      if co.ctx.pCallbacks = [] then some (m₁.coroDeleteSuspended co.ctx.pSuspendedCallbacks)
      else
        some (trampoline { m₁ with ctx := co.ctx } [] co.ctx.pCallbacks .cleanup
          (.coroDelete m.ctx co.ctx.pSuspendedCallbacks))
    | none => none
  | [] => none

/-- A coroutine is done: `Th8_RenameCommand` is called with its name. -/
def coroDone (pCoro : ℕ) : Nre :=
  match m.coroutines[pCoro]? with
  | some co => (m.setCoroutine pCoro fun co => { co with bDone := true }).deleteCommand
      (co.zName.resolve m.ctx.place.pCurrentNs)
  | none => m

theorem coroDone_eq (m : Nre) (pCoro : ℕ) :
    ∃ commands pending, m.coroDone pCoro =
      { m.setCoroutine pCoro fun co => { co with bDone := true } with
        commands := commands, pending := pending } := by
  rw [coroDone]
  split
  · exact deleteCommand_eq _ _
  · rename_i hnone
    refine ⟨m.commands, m.pending, ?_⟩
    rw [setCoroutine, List.modify_eq_self (List.getElem?_eq_none_iff.mp hnone)]

/-! ## After the trampoline -/

/-- The end of `th8EvalCommon`: what a suspension or a yield has left is set aside. -/
def evalEnd (pBottom : Chain) (pSavedFrame : ℕ) (nSavedDepth : ℤ) (rc : ReturnCode)
    (canceled : Bool) : Nre :=
  let ctx := if rc.breaksOff ∧ m.ctx.pCallbacks ≠ pBottom then
      { m.ctx with
        pCallbacks := pBottom
        pSuspendedCallbacks := above pBottom m.ctx.pCallbacks
        pSavedFrame := pSavedFrame }
    else m.ctx
  { m with
    ctx := { ctx with
      place := { ctx.place with
        pFrame := if rc.breaksOff then ctx.place.pFrame else pSavedFrame
        nEvalDepth := if canceled then nSavedDepth else ctx.place.nEvalDepth } } }

/-- The end of `Th8_CoroCreate`. -/
def coroCreateEnd (pCoro : ℕ) (pOuterYielding : Option ℕ) (rc : ReturnCode) : Nre :=
  if rc = .yield then
    { m.saveExecCtx pCoro { m.ctx with
        pCallbacks := m.ctx.pSuspendedCallbacks, pSuspendedCallbacks := [] } with
      pYieldingCoro := pOuterYielding
      ctx := { m.ctx with
        place := { m.ctx.place with
          pFrame := m.ctx.pSavedFrame, nEvalDepth := m.ctx.place.nEvalDepth - 1 }
        pSavedFrame := 0
        pSuspendedCallbacks := [] } }
  else
    { m.setCoroutine pCoro fun co => { co with bDone := true } with
      pYieldingCoro := pOuterYielding }

/-- The end of `coro_resume_command`: after a yield, what nested evaluations have set aside
goes on top of what is left. -/
def coroResumeEnd (pCoro : ℕ) (outerCtx : ExecCtx) (pOuterYielding : Option ℕ)
    (rc : ReturnCode) : Nre :=
  let chain := m.ctx.pSuspendedCallbacks ++ m.ctx.pCallbacks
  if rc = .yield then
    let m₁ : Nre :=
      { m.saveExecCtx pCoro { m.ctx with pCallbacks := chain, pSuspendedCallbacks := [] } with
        ctx := outerCtx
        pYieldingCoro := pOuterYielding }
    if chain = [] then m₁.coroDone pCoro else m₁
  else coroDone { m with ctx := outerCtx, pYieldingCoro := pOuterYielding } pCoro

/-- The end of `Th8_Thaw`. -/
def thawEnd (pSaved : Chain) : Nre :=
  { m with
    ctx := { m.ctx with
      pCallbacks := pSaved
      place := { m.ctx.place with
        pFrame := if m.ctx.pSavedFrame = 0 then m.ctx.place.pFrame else m.ctx.pSavedFrame }
      pSavedFrame := 0 } }

/-- The caller of a trampoline goes on. -/
def goOn (pBottom : Chain) (rc : ReturnCode) (canceled : Bool) : Caller → Nre
  | .evalCommon pSavedFrame nSavedDepth =>
    m.evalEnd pBottom pSavedFrame nSavedDepth rc canceled
  | .evalDownlevel pSaved pSavedNs =>
    { m.move { m.ctx.place with pFrame := pSaved, pCurrentNs := pSavedNs } with
      stack := note ((above pBottom m.ctx.pCallbacks).reverse.map .pushed) m.stack }
  | .thaw pSaved => m.thawEnd pSaved
  | .coroCreate pCoro pOuterYielding pSavedFrame nSavedDepth before =>
    ((m.evalEnd pBottom pSavedFrame nSavedDepth rc canceled).coroCreateEnd pCoro
      pOuterYielding rc).returns before
  | .coroResume pCoro outerCtx pOuterYielding =>
    (m.coroResumeEnd pCoro outerCtx pOuterYielding rc).returns
      ⟨outerCtx.pCallbacks, outerCtx.place, pOuterYielding⟩
  | .coroDelete outerCtx pSuspended =>
    coroDeleteSuspended { m with ctx := outerCtx } pSuspended
  | .coroDeleteSuspended outerCtx => { m with ctx := outerCtx }

/-- The callbacks that are lost when a context with the chain is saved for a coroutine: the
chain itself when the record has been freed, else what the record still holds. -/
def replaced (pCoro : ℕ) (chain : Chain) : Chain :=
  if m.coroFreed pCoro then chain
  else (m.coroutines[pCoro]?.map fun co => co.ctx.pCallbacks).getD []

/-- What `th8EvalCommon` loses: an older chain that is still set aside. -/
def evalDrops (pBottom : Chain) (rc : ReturnCode) : Chain :=
  if rc.breaksOff ∧ m.ctx.pCallbacks ≠ pBottom then m.ctx.pSuspendedCallbacks else []

/-- The callbacks that no pointer leads to any more when the caller of a trampoline has gone
on. -/
def drops (pBottom : Chain) (rc : ReturnCode) : Caller → Chain
  | .evalCommon .. => m.evalDrops pBottom rc
  | .evalDownlevel .. => []
  | .thaw _ => m.ctx.pCallbacks
  | .coroCreate pCoro _ pSavedFrame nSavedDepth _ =>
    m.evalDrops pBottom rc ++ (if rc = .yield then
        m.replaced pCoro
          (m.evalEnd pBottom pSavedFrame nSavedDepth rc false).ctx.pSuspendedCallbacks
      else [])
  | .coroResume pCoro .. =>
    if rc = .yield then
      m.replaced pCoro (m.ctx.pSuspendedCallbacks ++ m.ctx.pCallbacks)
    else m.ctx.pSuspendedCallbacks ++ m.ctx.pCallbacks
  | .coroDelete .. => m.ctx.pSuspendedCallbacks ++ m.ctx.pCallbacks
  | .coroDeleteSuspended _ => m.ctx.pSuspendedCallbacks ++ m.ctx.pCallbacks

/-- `th8RunCallbacks` returns. -/
def leave (rc : ReturnCode) (ending : Ending) (canceled : Bool) : Option Nre :=
  match m.stack with
  | .trampoline t caller :: rest =>
    some (goOn
      { m with
        stack := rest
        finished := m.finished ++ [⟨{ t with rc := rc }, caller, ending, m.ctx.pCallbacks⟩]
        dropped := m.dropped ++ (m.drops t.pBottom rc caller).map
          (·, m.stack.any Activity.ofCoroutine) }
      t.pBottom rc canceled caller)
  | _ => none

/-- One round of `th8RunCallbacks`: a cancellation may be consumed, and the first callback
is invoked. -/
def run (canceled : Bool) : Option Nre :=
  match m.stack, m.ctx.pCallbacks with
  | .trampoline t caller :: rest, n :: chain =>
    if n :: chain = t.pBottom ∨ t.yielded then none
    else
      let rc := if canceled then .error else t.rc
      let events := t.events ++ (if canceled then [.canceled] else []) ++ [.invoked n rc]
      some { m with
        ctx := { m.ctx with pCallbacks := chain }
        stack := .callback n :: .trampoline { t with rc := rc, events := events } caller :: rest
        invoked := m.invoked ++ [n] }
  | _, _ => none

def callbackReturn (rc : ReturnCode) : Option Nre :=
  match m.stack with
  | .callback n :: .trampoline t caller :: rest =>
    some { m with
      stack := .trampoline { t with
        rc := rc
        yielded := rc = .yield
        events := t.events ++ [.returned n rc] } caller :: rest }
  | _ => none

def finish (canceled : Bool) : Option Nre :=
  match m.stack with
  | .trampoline t _ :: _ =>
    if m.ctx.pCallbacks = t.pBottom then m.leave t.rc .drained canceled
    else if t.yielded then m.leave t.rc .brokenOff canceled
    else none
  | _ => none

def suspend (canceled : Bool) : Option Nre :=
  match m.stack with
  | .trampoline t _ :: _ =>
    if m.ctx.pCallbacks = t.pBottom ∨ t.yielded then none
    else m.leave .suspend .brokenOff canceled
  | _ => none

/-- A cancellation that unwinds: the callbacks above the marker are freed.  The record
keeps the chain as it was. -/
def unwind (canceled : Bool) : Option Nre :=
  match m.stack with
  | .trampoline t caller :: rest =>
    if m.ctx.pCallbacks = t.pBottom ∨ t.yielded then none
    else
      let m₁ : Nre :=
        { m with
          ctx := { m.ctx with pCallbacks := t.pBottom }
          released := m.released ++ above t.pBottom m.ctx.pCallbacks }
      some (goOn
        { m₁ with
          stack := rest
          finished := m.finished ++ [⟨{ t with rc := .error }, caller, .unwound, m.ctx.pCallbacks⟩]
          dropped := m.dropped ++ (m₁.drops t.pBottom .error caller).map
            (·, m.stack.any Activity.ofCoroutine) }
        t.pBottom .error canceled caller)
  | _ => none

inductive Move where
  | addCallback (hasMemory : Bool)
  | move (place : Place)
  | evalCommon (pFrame callbacks : ℕ) (rc : ReturnCode)
  | evalDownlevel (pTarget : ℕ) (pNs : Path) (callbacks : ℕ) (rc : ReturnCode)
  | thaw
  | coroCreate (zName : Name) (hasRecord hasCommand hasBody : Bool) (callbacks : ℕ)
      (rc : ReturnCode)
  | coroResume (key : Path)
  | coroDelete
  | deleteCommand (key : Path)
  | renameCommand (key key' : Path)
  | defineCommand (key : Path)
  | callbackReturn (rc : ReturnCode)
  | run (canceled : Bool)
  | finish (canceled : Bool)
  | suspend (canceled : Bool)
  | unwind (canceled : Bool)

/-- What a callback or the host may do. -/
def codeMove : Move → Option Nre
  | .addCallback hasMemory => some (m.addCallback hasMemory)
  | .move place => some (m.move place)
  | .evalCommon pFrame callbacks rc => some (m.evalCommon pFrame callbacks rc)
  | .evalDownlevel pTarget pNs callbacks rc =>
    some (m.evalDownlevel pTarget pNs callbacks rc)
  | .thaw => some m.thaw
  | .coroCreate zName hasRecord hasCommand hasBody callbacks rc =>
    some (m.coroCreate zName hasRecord hasCommand hasBody callbacks rc)
  | .coroResume key => m.coroResume key
  | .coroDelete => m.coroDelete
  | .deleteCommand key => some (m.deleteCommand key)
  | .renameCommand key key' => some (m.renameCommand key key')
  | .defineCommand key => some (m.defineCommand key)
  | .callbackReturn rc => m.callbackReturn rc
  | _ => none

def next : Move → Option Nre
  | .run canceled => m.run canceled
  | .finish canceled => m.finish canceled
  | .suspend canceled => m.suspend canceled
  | .unwind canceled => m.unwind canceled
  | i => if m.inCode then m.codeMove i else none

def step (i : Move) : Nre := (m.next i).getD m

/-- A new interpreter. -/
def fresh : Nre where
  ctx := ⟨[], ⟨1, [], 0, 0, 0⟩, [], 0⟩
  pYieldingCoro := none
  stack := []
  coroutines := []
  commands := fun _ => none
  pending := []
  nextCallback := 0
  invoked := []
  released := []
  dropped := []
  finished := []
  returned := []

end Nre

end Th8
