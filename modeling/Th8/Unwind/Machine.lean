import Th8.Cancel.Machine
import Th8.Nre.Moves

/-!
# A cancellation that unwinds

The machine of callbacks and coroutines with the word of a pending cancellation.  Its
trampolines read the word before each callback, and the callbacks of `catch` and `try`
clear it, put it aside and put it back.  A request comes at any time, from a signal or
another thread, or from the command in control.

Reading the word and clearing it are steps of their own; a request may come in between.
Left out are the messages, the results of scripts, and `Th8_ResetCancel` called by a host.
-/

namespace Th8

open Support
open Cancel (Flags Request)
open Nre (ReturnCode)

namespace Unwind

/-! ## Data -/

/-- `Th8_CancelSave`, and the return code of the body. -/
structure Save where
  bCanceled : Request
  cancelFlags : Flags
  tryRc : ReturnCode
deriving DecidableEq

inductive Kind where
  | catchPosteval
  | tryPostTry (hasFinally : Bool)
  | tryPostFinally (pSave : Save)
  | other
deriving DecidableEq

inductive Pc where
  | idle
  /-- `th8RunCallbacks` has found a cancellation that does not unwind. -/
  | consuming
  /-- `th8RunCallbacks` is about to invoke a callback; a cancellation was consumed or not. -/
  | checked (canceled : Bool)
  /-- `catch_posteval` is about to clear the word. -/
  | catching
  /-- `th8SaveCancel` has read the word. -/
  | saving (req : Request)
deriving DecidableEq

end Unwind

structure Unwind where
  nre : Nre
  kinds : ℕ → Unwind.Kind
  nCancelReq : Request
  cancelFlags : Flags
  pc : Unwind.Pc
  /-- Since the outermost evaluation began, an unwinding cancellation has been requested. -/
  requested : Bool
  /-- The callbacks of `catch` and `try` that have gone on regardless. -/
  goneOn : List ℕ
  /-- The outermost evaluations that have returned: whether an unwinding cancellation had
  been requested, and the return code. -/
  returned : List (Bool × ReturnCode)

namespace Unwind

/-- The activity at the bottom is `Th8_Eval`. -/
def isEvaluation (stack : List Nre.Activity) : Bool :=
  match stack.getLast? with
  | some (.trampoline _ (.evalCommon ..)) => true
  | _ => false

variable (u : Unwind)

def evaluating : Bool := isEvaluation u.nre.stack

def control : Kind :=
  match u.nre.stack with
  | .callback n :: _ => u.kinds n
  | _ => .other

def rc : ReturnCode :=
  match u.nre.stack with
  | .callback _ :: .trampoline t _ :: _ => t.rc
  | .trampoline t _ :: _ => t.rc
  | _ => .ok

/-- The owner's flags with those of the word, `th8AdoptCancelRequest`. -/
def adopted : Flags :=
  if u.nCancelReq.canceled then u.cancelFlags.or u.nCancelReq.flags else u.cancelFlags

def isBeingUnwound : Bool := u.nCancelReq.canceled && u.adopted.unwind

def orBits (flags : Flags) : Unwind :=
  { u with
    nCancelReq := u.nCancelReq.or flags.publish
    requested := u.requested || (flags.unwind && u.evaluating) }

/-- `Th8_CancelEval` by the command in control. -/
def cancelEval (flags : Flags) : Option Unwind :=
  if u.pc = .idle ∧ u.nre.inCode ∧ u.control = .other then
    some { u.orBits flags with cancelFlags := u.cancelFlags.or flags }
  else none

def clearCancel : Unwind :=
  if u.nCancelReq.canceled then { u with nCancelReq := .zero, cancelFlags := .none } else u

/-- The depth that `th8EvalCommon` has saved. -/
def savedDepth : Nre.Caller → Option ℤ
  | .evalCommon _ nSavedDepth => some nSavedDepth
  | .coroCreate _ _ _ nSavedDepth _ => some nSavedDepth
  | _ => none

/-- A `return` that leaves the outermost evaluation. -/
def outermostRc (rc : ReturnCode) (nSavedDepth : ℤ) : ReturnCode :=
  if rc = .ret ∧ nSavedDepth = 0 then .ok else rc

/-- What `th8EvalCommon` does with the word after its trampoline, and the record of the
outermost evaluation. -/
def leave (caller : Nre.Caller) (rc : ReturnCode) (nre : Nre) : Unwind :=
  let u₁ := if savedDepth caller = some 0 then u.clearCancel else u
  let u₂ := { u₁ with nre := nre, pc := .idle }
  match u.nre.stack, caller with
  | [_], .evalCommon _ nSavedDepth =>
    { u₂ with
      requested := false
      returned := u.returned ++ [(u.requested, outermostRc rc nSavedDepth)] }
  | _, _ => u₂

def check : Option Unwind :=
  match u.nre.stack with
  | .trampoline t caller :: _ =>
    if u.pc ≠ .idle ∨ u.nre.ctx.pCallbacks = t.pBottom ∨ t.yielded then none
    else if u.isBeingUnwound then
      (u.nre.unwind true).map ({ u with cancelFlags := u.adopted }.leave caller .error)
    else if u.nCancelReq.canceled then
      some { u with cancelFlags := u.adopted, pc := .consuming }
    else some { u with pc := .checked false }
  | _ => none

def consume : Option Unwind :=
  if u.pc = .consuming then some { u.clearCancel with pc := .checked true } else none

def run : Option Unwind :=
  match u.pc with
  | .checked canceled => (u.nre.run canceled).map fun nre => { u with nre := nre, pc := .idle }
  | _ => none

def suspend : Option Unwind :=
  match u.pc, u.nre.stack with
  | .checked _, .trampoline _ caller :: _ =>
    (u.nre.suspend u.nCancelReq.canceled).map (u.leave caller .suspend)
  | _, _ => none

def finish : Option Unwind :=
  match u.pc, u.nre.stack with
  | .idle, .trampoline t caller :: _ =>
    (u.nre.finish u.nCancelReq.canceled).map (u.leave caller t.rc)
  | _, _ => none

/-! ## Callbacks -/

def code (i : Nre.Move) : Option Unwind :=
  if u.pc = .idle ∧ u.nre.inCode ∧ u.control = .other then
    (u.nre.codeMove i).map fun nre => { u with nre := nre }
  else none

def addCallback (kind : Kind) (hasMemory : Bool) : Unwind :=
  { u with
    nre := u.nre.addCallback hasMemory
    kinds := if hasMemory then Function.update u.kinds u.nre.nextCallback kind else u.kinds }

/-- `catch` and `try` push their callbacks. -/
def push (kind : Kind) (hasMemory : Bool) : Option Unwind :=
  if u.pc = .idle ∧ u.nre.inCode ∧ u.control = .other then
    match kind with
    | .tryPostFinally _ => none
    | _ => some (u.addCallback kind hasMemory)
  else none

def callbackReturn (rc : ReturnCode) : Option Unwind :=
  (u.nre.callbackReturn rc).map fun nre => { u with nre := nre, pc := .idle }

/-- `catch_posteval` up to `Th8_ResetCancel`. -/
def catchPosteval : Option Unwind :=
  if u.pc = .idle ∧ u.control = .catchPosteval then
    if u.rc.breaksOff then u.callbackReturn u.rc
    else if u.rc = .error then
      if u.isBeingUnwound then { u with cancelFlags := u.adopted }.callbackReturn .error
      else some { u with cancelFlags := u.adopted, pc := .catching }
    else some { u with pc := .catching }
  else none

def goOn : Unwind :=
  match u.nre.stack with
  | .callback n :: _ => { u with goneOn := if u.requested then u.goneOn ++ [n] else u.goneOn }
  | _ => u

/-- The rest of `catch_posteval`. -/
def catchReset : Option Unwind :=
  if u.pc = .catching then u.goOn.clearCancel.callbackReturn .ok else none

/-- `try_post_try` without its `finally` clause: there is none, or it is not to run, or
memory is lacking. -/
def tryReturn (failed : Bool) : Option Unwind :=
  match u.pc, u.control with
  | .idle, .tryPostTry hasFinally =>
    u.callbackReturn (if hasFinally && failed then .error else u.rc)
  | _, _ => none

/-- `try_post_try` up to the exchange of `th8SaveCancel`. -/
def trySave : Option Unwind :=
  if u.pc = .idle ∧ u.control = .tryPostTry true then
    some { u with cancelFlags := u.adopted, pc := .saving u.nCancelReq }
  else none

/-- The rest of `try_post_try`: the word is zeroed if it has not changed, and the `finally`
clause is scheduled, with memory or not for each of the two callbacks. -/
def tryFinally (hasFinally hasEval : Bool) : Option Unwind :=
  match u.pc with
  | .saving req =>
    let u₁ : Unwind := { u.goOn with
      nCancelReq := if u.nCancelReq = req then .zero else u.nCancelReq
      cancelFlags := .none }
    ((u₁.addCallback (.tryPostFinally ⟨req, u.cancelFlags, u.rc⟩) hasFinally).addCallback
      .other hasEval).callbackReturn (if hasEval then .ok else .error)
  | _ => none

/-- `try_post_finally`, with memory or not for the result of the body. -/
def tryPostFinally (hasMemory : Bool) : Option Unwind :=
  match u.pc, u.control with
  | .idle, .tryPostFinally pSave =>
    let u₁ := if u.nCancelReq.canceled then u else
      { u with
        nCancelReq := u.nCancelReq.or pSave.bCanceled
        cancelFlags := pSave.cancelFlags }
    u₁.callbackReturn (if u.rc = .ok then if hasMemory then pSave.tryRc else .error else u.rc)
  | _, _ => none

inductive Move where
  /-- A signal or another thread. -/
  | arrive (flags : Flags)
  | cancelEval (flags : Flags)
  | code (i : Nre.Move)
  | push (kind : Kind) (hasMemory : Bool)
  | check
  | consume
  | run
  | suspend
  | finish
  | catchPosteval
  | catchReset
  | tryReturn (failed : Bool)
  | trySave
  | tryFinally (hasFinally hasEval : Bool)
  | tryPostFinally (hasMemory : Bool)

/-- One move. -/
def next : Move → Option Unwind
  | .arrive flags => some (u.orBits flags)
  | .cancelEval flags => u.cancelEval flags
  | .code i => u.code i
  | .push kind hasMemory => u.push kind hasMemory
  | .check => u.check
  | .consume => u.consume
  | .run => u.run
  | .suspend => u.suspend
  | .finish => u.finish
  | .catchPosteval => u.catchPosteval
  | .catchReset => u.catchReset
  | .tryReturn failed => u.tryReturn failed
  | .trySave => u.trySave
  | .tryFinally hasFinally hasEval => u.tryFinally hasFinally hasEval
  | .tryPostFinally hasMemory => u.tryPostFinally hasMemory

def step (i : Move) : Unwind := (u.next i).getD u

def fresh : Unwind where
  nre := Nre.fresh
  kinds := fun _ => .other
  nCancelReq := .zero
  cancelFlags := .none
  pc := .idle
  requested := false
  goneOn := []
  returned := []

end Unwind

end Th8
