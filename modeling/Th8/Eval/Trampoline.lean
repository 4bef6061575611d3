import Mathlib.Data.Int.Notation
import Mathlib.Logic.Function.Iterate
import Th8.Command.Registry
import Th8.Eval.ScriptSplit

/-!
# Evaluation entry points and the trampoline

A script is evaluated by callbacks on a chain.  An entry point pushes the
callbacks that start a script, and the trampoline pops one callback after the
other.  C code that called an entry point and waits for it is on the chain too:
the rest of `th8EvalCommon` and of `Th8_EvalDownlevel`, which the trampoline
reaches when the callbacks above have been drained, and below it the caller.

Commands, the policy callback and everything they keep are parameters.  The
machine records each argument vector it hands to `th8InvokeCommand`.  Line
numbers are left out, allocation always succeeds, and a suspended chain is set
aside and not resumed.
-/

namespace Th8

/-! ## Data -/

/-- The return codes of `th8.h`. -/
inductive Rc where
  | ok
  | error
  | ret
  | brk
  | cont
  | ret2
  | suspend
  | yield
deriving DecidableEq

abbrev Result := Except Failure TString

/-- `Th8_Frame`, as far as evaluation switches frames. -/
structure Frame where
  id : ℕ
  pNs : NsPath
deriving DecidableEq

abbrev FrameChain := List Frame

/-- `Th8_EvalState`: the script, what is left of it, the command it stands at,
the origin name and the evaluation flags. -/
structure EvalState where
  zProgram : Bytes
  zInput : Bytes
  zFirst : Bytes
  zName : Option Bytes
  trusted : Bool
deriving DecidableEq

/-- The script argument of an entry point: the bytes, and the tags of the length
word or nothing for `TH8_NOLEN`. -/
structure ScriptArg where
  zProg : Bytes
  nProg : Option Tags
deriving DecidableEq

/-- The text up to the terminator that `Th8_Strlen` finds. -/
def strlen (z : Bytes) : TString := TString.plain (z.takeWhile (· != 0))

inductive Entry where
  | eval (iFrame : ℤ)
  | evalTrusted (iFrame : ℤ)
  | evalDownlevel
  | nrEval
  | nrEvalInFrame (iFrame : ℤ)
deriving DecidableEq

/-- The elements of the chain; `κ` names code of the host.  The callback of a
command under construction stands for `th8NRCmdSubstDone` and the
`th8NRCmdDispatch` right below it, which share the build. -/
inductive Callback (κ : Type) where
  | nrEval (zProg : TString) (zName : Option Bytes)
  | evalStateCleanup (pState : EvalState)
  | evalIteration (pState : EvalState)
  | cmdBuild (pBuild : CmdBuild) (pState : EvalState)
  | evalPostCmd (pState : EvalState) (bWasUnknown : Bool)
  | frameRestore (pSaved : FrameChain)
  | nsRestore (pSaved : NsPath)
  | host (k : κ)
  | evalCommonDone (pSavedFrame : FrameChain) (nSavedDepth : ℕ) (switched : Bool)
  | evalDownlevelDone (pSaved : FrameChain) (pSavedNs : NsPath)
  | resume (k : κ)

/-- An argument vector handed to `th8InvokeCommand`; on the unknown path the word
`unknown` stands before it. -/
structure Dispatch where
  argv : List TString
  bUnknown : Bool
deriving DecidableEq

/-- How a piece of host code ends: it returns to the trampoline, or it calls an
entry point and goes on as `k`. -/
inductive HostEnd (κ : Type) where
  | returns (rc : Rc)
  | calls (entry : Entry) (prog : ScriptArg) (zName : Option Bytes) (k : κ)

/-- What a piece of host code does: change its state, set the result and push
callbacks, the first one on top. -/
structure HostStep (σ κ : Type) where
  host : σ
  result : Result
  push : List κ
  next : HostEnd κ

inductive PolicyPhase where
  | pre
  | post
deriving DecidableEq

structure Interp (σ κ : Type) where
  words : Env σ
  /-- A command table entry. -/
  command : σ → NsPath × Bytes → Option CmdId
  /-- `th8InvokeCommand`. -/
  invoke : CmdId → σ → List TString → HostStep σ κ
  /-- Host callbacks and resumed host code. -/
  proc : κ → σ → Rc → Result → HostStep σ κ
  /-- The policy callback, if one is registered. -/
  xPolicyCb : Option (PolicyPhase → Option Bytes → Bytes → Bool → Rc → σ → Result → σ × Rc × Result)
  /-- A pending cancellation, with its unwind flag. -/
  canceled : σ → Option Bool
  /-- The text of `Th8_IsCanceled`. -/
  cancelMsg : σ → Failure
  clearCancel : σ → σ
  isSuspended : σ → Bool
  /-- The error trace in `::errorInfo`. -/
  traceError : σ → Result → Bytes → σ
  drainPendingDeletes : σ → σ

structure Machine (σ κ : Type) where
  host : σ
  pCallbacks : List (Callback κ)
  rc : Rc
  result : Result
  nEvalDepth : ℕ
  pFrame : FrameChain
  pDownlevelFrame : Option FrameChain
  pCurrentNs : NsPath
  bInUnknown : Bool
  dispatched : List Dispatch

variable {σ κ : Type}

namespace Machine

def fail (m : Machine σ κ) (e : Failure) : Machine σ κ :=
  { m with rc := if e = .suspend then .suspend else .error, result := .error e }

def push (m : Machine σ κ) (cb : Callback κ) : Machine σ κ :=
  { m with pCallbacks := cb :: m.pCallbacks }

def leave (env : Interp σ κ) (m : Machine σ κ) : Machine σ κ :=
  { m with
    nEvalDepth := m.nEvalDepth - 1
    host := if m.nEvalDepth - 1 = 0 then env.drainPendingDeletes m.host else m.host }

end Machine

def reportTaint (zTitle : String) (x : TString) : Option Failure :=
  if x.tags.taint then some (.message "tainted value in context:" (ascii zTitle))
  else none

/-- The recursion limit of `th8EvalLocal`. -/
def mxEvalDepth : ℕ := 1000

/-- Phase 5 of `th8EvalLocal`: schedule the first iteration above the clean-up. -/
def pushScript (m : Machine σ κ) (zProgram : Bytes) (zName : Option Bytes)
    (trusted : Bool) : Machine σ κ :=
  let pState : EvalState := ⟨zProgram, zProgram, zProgram, zName, trusted⟩
  { (m.push (.evalStateCleanup pState)).push (.evalIteration pState) with rc := .ok }

def startScript (env : Interp σ κ) (m : Machine σ κ) (zProgram : Bytes)
    (zName : Option Bytes) (trusted : Bool) : Machine σ κ :=
  match env.xPolicyCb with
  | none => pushScript m zProgram zName trusted
  | some xPolicyCb =>
    let (host, rc, result) := xPolicyCb .pre zName zProgram trusted .ok m.host m.result
    let m' := { m with host := host, result := result }
    if rc = .ok then pushScript m' zProgram zName trusted
    else { m'.leave env with rc := rc }

def evalLocal (env : Interp σ κ) (m : Machine σ κ) (prog : TString)
    (zName : Option Bytes) (trusted : Bool) : Machine σ κ :=
  match reportTaint "script" prog with
  | some e => m.fail e
  | none =>
    if mxEvalDepth < m.nEvalDepth then m.fail (.static "TH8 recursion too deep")
    else
      match env.words.ready m.host with
      | .error e => m.fail e
      | .ok host =>
        startScript env { m with host := host, nEvalDepth := m.nEvalDepth + 1 }
          prog.bytes zName trusted

/-- The frame an `iFrame` argument names, with its callers; there is none when the
list is empty. -/
def targetFrame (pFrame : FrameChain) (iFrame : ℤ) : FrameChain :=
  pFrame.drop (if 0 < iFrame then (pFrame.length - iFrame).toNat else (-iFrame).toNat)

/-- The length word `th8EvalCommon` passes on: the tags stay. -/
def evalCommonInput (prog : ScriptArg) : TString :=
  match prog.nProg with
  | none => strlen prog.zProg
  | some tags => ⟨prog.zProg, tags⟩

/-- The length word `Th8_EvalDownlevel` passes on: `TH8_LEN` of the argument. -/
def evalDownlevelInput (prog : ScriptArg) : TString :=
  match prog.nProg with
  | none => strlen prog.zProg
  | some _ => TString.plain prog.zProg

/-- The length word `Th8_NREval` packs into its callback. -/
def nrEvalInput (prog : ScriptArg) : TString :=
  match prog.nProg with
  | none => strlen prog.zProg
  | some tags => ⟨prog.zProg, tags⟩

/-- `th8EvalCommon` up to the trampoline. -/
def evalCommon (env : Interp σ κ) (m : Machine σ κ) (iFrame : ℤ) (prog : ScriptArg)
    (zName : Option Bytes) (trusted : Bool) : Machine σ κ :=
  let bottom := m.push (.evalCommonDone m.pFrame m.nEvalDepth (iFrame != 0))
  if iFrame = 0 then evalLocal env bottom (evalCommonInput prog) zName trusted
  else
    match targetFrame m.pFrame iFrame with
    | [] => m.fail (.static "no such frame")
    | pTarget => evalLocal env
        { bottom with pDownlevelFrame := some m.pFrame, pFrame := pTarget }
        (evalCommonInput prog) zName trusted

def frameNs (pFrame : FrameChain) (pCurrentNs : NsPath) : NsPath :=
  (pFrame.head?.map Frame.pNs).getD pCurrentNs

/-- `Th8_EvalDownlevel` up to the trampoline. -/
def evalDownlevel (env : Interp σ κ) (m : Machine σ κ) (prog : ScriptArg)
    (zName : Option Bytes) : Machine σ κ :=
  match m.pDownlevelFrame with
  | none => m.fail (.static "downlevel: no uplevel active")
  | some pTarget => evalLocal env
      { m.push (.evalDownlevelDone m.pFrame m.pCurrentNs) with
        pFrame := pTarget
        pCurrentNs := frameNs pTarget m.pCurrentNs }
      (evalDownlevelInput prog) zName false

def nrEval (m : Machine σ κ) (prog : ScriptArg) (zName : Option Bytes) : Machine σ κ :=
  { m.push (.nrEval (nrEvalInput prog) zName) with rc := .ok }

def nrEvalInFrame (m : Machine σ κ) (iFrame : ℤ) (prog : ScriptArg)
    (zName : Option Bytes) : Machine σ κ :=
  match (if iFrame = 0 then m.pFrame else targetFrame m.pFrame iFrame) with
  | [] => m.fail (.static "no such frame")
  | pTarget =>
    let m₁ := if iFrame = 0 then m else
      { m with pDownlevelFrame := some m.pFrame, pFrame := pTarget }
    let m₂ := m₁.push (.frameRestore m.pFrame)
    let pNs := frameNs pTarget m.pCurrentNs
    let m₃ := if pNs = m.pCurrentNs then m₂ else
      { m₂.push (.nsRestore m.pCurrentNs) with pCurrentNs := pNs }
    nrEval m₃ prog zName

def enter (env : Interp σ κ) (m : Machine σ κ) (prog : ScriptArg)
    (zName : Option Bytes) : Entry → Machine σ κ
  | .eval iFrame => evalCommon env m iFrame prog zName false
  | .evalTrusted iFrame => evalCommon env m iFrame prog zName true
  | .evalDownlevel => evalDownlevel env m prog zName
  | .nrEval => nrEval m prog zName
  | .nrEvalInFrame iFrame => nrEvalInFrame m iFrame prog zName

def Entry.deferred : Entry → Bool
  | .nrEval | .nrEvalInFrame _ => true
  | _ => false

/-- Host code runs.  The caller of a deferred entry point goes on before the
script runs, the caller of another one after it. -/
def runHost (env : Interp σ κ) (m : Machine σ κ) (h : HostStep σ κ) : Machine σ κ :=
  let m' := { m with
    host := h.host
    result := h.result
    pCallbacks := h.push.map .host ++ m.pCallbacks }
  match h.next with
  | .returns rc => { m' with rc := rc }
  | .calls entry prog zName k =>
    if entry.deferred then (enter env m' prog zName entry).push (.resume k)
    else enter env (m'.push (.resume k)) prog zName entry

/-- The command lookup of both dispatch paths: a qualified name in its namespace,
a simple name in the current namespace and then in the global one. -/
def findCommand (env : Interp σ κ) (m : Machine σ κ) (zName : Bytes) : Option CmdId :=
  match splitQualName zName with
  | (some zNs, zTail) => env.command m.host (namespacePath m.pCurrentNs zNs, zTail)
  | (none, _) =>
    match env.command m.host (m.pCurrentNs, zName) with
    | some cmd => some cmd
    | none => if m.pCurrentNs = [] then none else env.command m.host ([], zName)

/-- `th8InvokeCommand`, recorded. -/
def invokeCommand (env : Interp σ κ) (m : Machine σ κ) (cmd : CmdId)
    (argv : List TString) (bUnknown : Bool) : Machine σ κ :=
  let args := if bUnknown then TString.plain (ascii "unknown") :: argv else argv
  runHost env { m with dispatched := m.dispatched ++ [⟨argv, bUnknown⟩] }
    (env.invoke cmd m.host args)

/-- The second half of `th8EvalIteration` and of `th8NRCmdDispatch`: from the
argument vector to the call of the command. -/
def dispatchCommand (env : Interp σ κ) (m : Machine σ κ) (pState : EvalState)
    (argv : List TString) : Machine σ κ :=
  match argv with
  | [] => { m.push (.evalIteration pState) with rc := .ok }
  | name :: _ =>
    match reportTaint "command name" name with
    | some e => (m.fail e).push (.evalPostCmd pState false)
    | none =>
      match findCommand env m name.bytes with
      | some cmd =>
        match env.words.ready m.host with
        | .error e => (m.fail e).push (.evalPostCmd pState false)
        | .ok host =>
          invokeCommand env ({ m with host := host }.push (.evalPostCmd pState false))
            cmd argv false
      | none =>
        match (if m.bInUnknown then none
            else env.command m.host ([], ascii "unknown")) with
        | some cmd =>
          invokeCommand env
            ({ m with bInUnknown := true }.push (.evalPostCmd pState true)) cmd argv true
        | none =>
          (m.fail (.message "no such command:" name.bytes)).push (.evalPostCmd pState false)

def buildFailed (env : Interp σ κ) (m : Machine σ κ) (pState : EvalState)
    (e : Failure) : Machine σ κ :=
  let m' := m.fail e
  if m'.rc = .error then
    { m' with host := env.traceError m.host m'.result pState.zFirst }
  else m'

def continueBuild (env : Interp σ κ) (m : Machine σ κ) (pBuild : CmdBuild)
    (pState : EvalState) : Machine σ κ :=
  match nrSubstAndBuild env.words pBuild.rounds m.host pBuild with
  | .error e => buildFailed env m pState e
  | .ok (.pushed script q host) =>
    { ({ m with host := host }.push (.cmdBuild q pState)).push
        (.nrEval (TString.plain script) pState.zName) with rc := .ok }
  | .ok (.built q host) =>
    match q.args.argv with
    | .error e => { m with host := host }.fail e
    | .ok argv => dispatchCommand env { m with host := host } pState argv

/-- `th8EvalIteration`: one command of the script. -/
def evalIteration (env : Interp σ κ) (m : Machine σ κ) (pState : EvalState) : Machine σ κ :=
  if m.rc ≠ .ok then m
  else
    let zFirst := skipToCommand pState.zInput
    if zFirst = [] then { m with rc := .ok }
    else
      match scanCommand zFirst with
      | .error e => m.fail e
      | .ok rest =>
        let zCmd := zFirst.take (zFirst.length - rest.length)
        let pState' := { pState with zFirst := zFirst, zInput := rest }
        if chOpenBracket ∈ zCmd then
          continueBuild env m (CmdBuild.init zCmd) pState'
        else
          match splitCommand env.words m.host zCmd with
          | .error .suspend =>
            (m.fail .suspend).push (.evalIteration { pState' with zInput := zFirst })
          | .error e => buildFailed env m pState' e
          | .ok (argv, host) => dispatchCommand env { m with host := host } pState' argv

/-- One callback, already taken off the chain. -/
def runCallback (env : Interp σ κ) (m : Machine σ κ) : Callback κ → Machine σ κ
  | .nrEval zProg zName => evalLocal env m zProg zName false
  | .evalIteration pState => evalIteration env m pState
  | .cmdBuild pBuild pState =>
    match m.rc, m.result with
    | .ok, .ok res => continueBuild env m (nrCmdSubstDone pBuild res) pState
    | .error, _ => { m with host := env.traceError m.host m.result pState.zFirst }
    | _, _ => m
  | .evalPostCmd pState bWasUnknown =>
    let m' := if bWasUnknown then { m with bInUnknown := false } else m
    match m.rc with
    | .ok => m'.push (.evalIteration pState)
    | .error => { m' with host := env.traceError m.host m.result pState.zFirst }
    | _ => m'
  | .evalStateCleanup pState =>
    match env.xPolicyCb with
    | none => m.leave env
    | some xPolicyCb =>
      let (host, _, result) :=
        xPolicyCb .post pState.zName pState.zProgram pState.trusted m.rc m.host m.result
      { m with host := host, result := result }.leave env
  | .frameRestore pSaved => { m with pDownlevelFrame := none, pFrame := pSaved }
  | .nsRestore pSaved => { m with pCurrentNs := pSaved }
  | .host k | .resume k => runHost env m (env.proc k m.host m.rc m.result)
  | .evalCommonDone pSavedFrame nSavedDepth switched =>
    let m₁ := if m.rc = .suspend ∨ m.rc = .yield then m else
      { m with
        pDownlevelFrame := if switched then none else m.pDownlevelFrame
        pFrame := pSavedFrame }
    let m₂ := if (env.canceled m.host).isNone then m₁ else
      { m₁ with
        nEvalDepth := nSavedDepth
        host := if nSavedDepth = 0 then env.clearCancel m.host else m.host }
    { m₂ with rc := if m₂.rc = .ret ∧ nSavedDepth = 0 then .ok else m₂.rc }
  | .evalDownlevelDone pSaved pSavedNs =>
    { m with pCurrentNs := pSavedNs, pFrame := pSaved }

def Callback.isCaller : Callback κ → Bool
  | .evalCommonDone .. | .evalDownlevelDone .. | .resume _ => true
  | _ => false

/-- Leave the trampoline with callbacks above its bottom: `th8EvalCommon` sets them
aside, `Th8_EvalDownlevel` leaves them to the trampoline its caller runs under. -/
def breakOff (m : Machine σ κ) : Machine σ κ :=
  let above := m.pCallbacks.takeWhile (!·.isCaller)
  match m.pCallbacks.dropWhile (!·.isCaller) with
  | .evalDownlevelDone pSaved pSavedNs :: .resume k :: below =>
    { m with
      pCallbacks := .evalDownlevelDone pSaved pSavedNs :: .resume k :: (above ++ below) }
  | .evalDownlevelDone pSaved pSavedNs :: below =>
    { m with pCallbacks := .evalDownlevelDone pSaved pSavedNs :: (above ++ below) }
  | below => { m with pCallbacks := below }

def runOne (env : Interp σ κ) (m : Machine σ κ) (pCb : Callback κ) : Machine σ κ :=
  let m' := runCallback env m pCb
  if m'.rc = .yield then breakOff m' else m'

/-- The body of the loop of `th8RunCallbacks`: a cancellation with unwinding
discards the callbacks, one without becomes an error, a suspension ends the
loop. -/
def runCallbacksStep (env : Interp σ κ) (m : Machine σ κ) (pCb : Callback κ)
    (pNext : List (Callback κ)) : Machine σ κ :=
  if env.canceled m.host = some true then
    { m.fail (env.cancelMsg m.host) with
      pCallbacks := m.pCallbacks.dropWhile (!·.isCaller) }
  else
    let m₁ := if env.canceled m.host = none then m else
      { m.fail (env.cancelMsg m.host) with host := env.clearCancel m.host }
    if env.isSuspended m₁.host then breakOff { m₁ with rc := .suspend }
    else runOne env { m₁ with pCallbacks := pNext } pCb

def Machine.step (env : Interp σ κ) (m : Machine σ κ) : Machine σ κ :=
  match m.pCallbacks with
  | [] => m
  | pCb :: pNext =>
    if pCb.isCaller then runOne env { m with pCallbacks := pNext } pCb
    else runCallbacksStep env m pCb pNext

/-- The machine after `n` steps. -/
def Machine.run (env : Interp σ κ) (n : ℕ) (m : Machine σ κ) : Machine σ κ :=
  (Machine.step env)^[n] m

end Th8
