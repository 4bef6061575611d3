import Th8.Command.Import
import Th8.Command.ProcDefns

/-!
# Invocations of procedures

An invocation refers to the definition of its procedure, and the body is evaluated where it
is, in the allocation of the definition.  The definition belongs to the command:
`proc_del` frees it when the command is destroyed or its record is used again.

Evaluations and invocations under way are kept in chains, the innermost first.  A coroutine
that yields takes a chain with it, and it is resumed in place of the chain of its caller;
chains come with their depth of evaluation.  Destructors other than `proc_del` do nothing here,
and lambdas, whose definitions belong to their invocations, are left out.
-/

namespace Th8

open Support

/-- The definitions that `proc_del` frees between two states: those of the commands that are
gone, and of those whose records have been used again. -/
def CmdInterp.freedDefns (s s' : CmdInterp) : List Pointer :=
  (List.range s.nextCmd).filterMap fun pCmd =>
    match s.commands pCmd with
    | none => none
    | some cmd =>
      if cmd.xDel = procDel ∧ (s'.commands pCmd).map (fun cmd' => (cmd'.xDel, cmd'.pContext)) ≠
          some (cmd.xDel, cmd.pContext) then some cmd.pContext
      else none

namespace ProcInterp

/-- The state after an operation that began in `s₀`, with the definitions freed. -/
def freeDefns (s : ProcInterp) (s₀ : CmdInterp) : ProcInterp :=
  { s with defns := fun p => if p ∈ s₀.freedDefns s.cmds then none else s.defns p }

def invoked (s : ProcInterp) (zName : Bytes) : Option Pointer :=
  match s.cmds.lookupCommand zName with
  | some (some pCmd) =>
    (s.cmds.commands pCmd).bind fun cmd => if IsProc cmd.xProc then some cmd.pContext else none
  | _ => none

def setDepth (s : ProcInterp) (nEvalDepth : ℕ) : ProcInterp :=
  { s with cmds := { s.cmds with nEvalDepth := nEvalDepth } }

end ProcInterp

inductive ChainItem where
  /-- `th8EvalLocal` until `th8EvalStateCleanup`, with the depth before it. -/
  | eval (nSavedDepth : ℕ)
  /-- `proc_call_nr` or `nproc_call_nr`, and the body of the procedure. -/
  | invocation (pDefn : Pointer)
  /-- `Th8_CoroCreate`; the body of the coroutine is above it. -/
  | coroCreate
deriving DecidableEq

def invocationsOf (chain : List ChainItem) : List Pointer :=
  chain.filterMap fun
    | .invocation pDefn => some pDefn
    | _ => none

structure SavedChain where
  chain : List ChainItem
  nEvalDepth : ℕ
deriving DecidableEq

/-- The interpreter with the chain that runs, those of the callers of resumed coroutines, and
those of suspended coroutines. -/
structure Invocations where
  procs : ProcInterp
  chain : List ChainItem
  callers : List SavedChain
  suspended : List SavedChain

namespace Invocations

def init : Invocations := ⟨.init, [], [], []⟩

variable (s : Invocations)

def nEvalDepth : ℕ := s.procs.cmds.nEvalDepth

def elsewhere : List Pointer :=
  (s.callers ++ s.suspended).flatMap fun saved => invocationsOf saved.chain

def active : List Pointer := invocationsOf s.chain ++ s.elsewhere

def runOp (op : ProcInterp.Op) : Option Invocations :=
  (op.run s.procs).map fun procs => { s with procs := procs.freeDefns s.procs.cmds }

def enterEval : Option Invocations :=
  (s.runOp (.other .enterEval)).map fun s₁ =>
    { s₁ with chain := .eval s.nEvalDepth :: s.chain }

/-- `th8EvalStateCleanup`. -/
def leaveEval : Option Invocations :=
  match s.chain with
  | .eval _ :: rest => (s.runOp (.other .leaveEval)).map fun s₁ => { s₁ with chain := rest }
  | _ => some s

def callProc (zName : Bytes) : Option Invocations :=
  match s.chain with
  | .eval _ :: _ =>
    (s.procs.callProc zName).map fun procs =>
      match s.procs.invoked zName with
      | none => { s with procs := procs }
      | some pDefn => { s with procs := procs, chain := .invocation pDefn :: s.chain }
  | _ => some s

/-- What a script or the host does.  Imports copy definitions, so they are the imports of
`ProcInterp`. -/
def script : ProcInterp.Op → Option Invocations
  | .callProc zName => s.callProc zName
  | .other .enterEval => s.enterEval
  | .other .leaveEval => s.leaveEval
  | .other (.nsImport ..) => some s
  | op => s.runOp op

def returnProc : Option Invocations :=
  match s.chain with
  | .invocation _ :: rest => some { s with chain := rest }
  | _ => some s

/-- An unwinding cancellation discards the callbacks of an evaluation and of what is above it,
and `th8EvalCommon` restores the depth; or it discards the whole chain. -/
def unwind (n : ℕ) : Option Invocations :=
  match s.chain.drop n with
  | .eval nSavedDepth :: rest =>
    some { s with chain := rest, procs := s.procs.setDepth nSavedDepth }
  | [] => some { s with chain := [] }
  | _ => some s

/-- `Th8_CoroCreate`, up to the body. -/
def coroCreate : Option Invocations := { s with chain := .coroCreate :: s.chain }.enterEval

def coroEnd : Option Invocations :=
  match s.chain with
  | .coroCreate :: rest => some { s with chain := rest }
  | _ => some s

def cutChain : List ChainItem → List ChainItem × Option (List ChainItem)
  | [] => ([], none)
  | .coroCreate :: rest => ([], some rest)
  | item :: rest => (item :: (cutChain rest).1, (cutChain rest).2)

/-- `Th8_CoroYield` in a script.  After the first run of the body the depth is counted down by
one; a caller gets back its own. -/
def coroYield : Option Invocations :=
  match s.chain with
  | .eval _ :: _ =>
    match cutChain s.chain, s.callers with
    | (upper, some lower), _ =>
      some { s with
        chain := lower
        suspended := s.suspended ++ [⟨upper, s.nEvalDepth⟩]
        procs := s.procs.setDepth (s.nEvalDepth - 1) }
    | (_, none), caller :: rest =>
      some { s with
        chain := caller.chain
        callers := rest
        suspended := s.suspended ++ [⟨s.chain, s.nEvalDepth⟩]
        procs := s.procs.setDepth caller.nEvalDepth }
    | (_, none), [] => some s
  | _ => some s

/-- `coro_resume_command` or `coro_delete_proc`, up to the callbacks of the coroutine. -/
def resume (i : ℕ) : Option Invocations :=
  match s.suspended[i]? with
  | none => some s
  | some saved =>
    some { s with
      chain := saved.chain
      callers := ⟨s.chain, s.nEvalDepth⟩ :: s.callers
      suspended := s.suspended.eraseIdx i
      procs := s.procs.setDepth saved.nEvalDepth }

def resumeEnd : Option Invocations :=
  match s.chain, s.callers with
  | [], caller :: rest =>
    some { s with
      chain := caller.chain
      callers := rest
      procs := s.procs.setDepth caller.nEvalDepth }
  | _, _ => some s

inductive Move where
  | script (op : ProcInterp.Op)
  | returnProc
  | unwind (n : ℕ)
  | coroCreate
  | coroEnd
  | coroYield
  | resume (i : ℕ)
  | resumeEnd

def Move.run : Move → Option Invocations
  | .script op => s.script op
  | .returnProc => s.returnProc
  | .unwind n => s.unwind n
  | .coroCreate => s.coroCreate
  | .coroEnd => s.coroEnd
  | .coroYield => s.coroYield
  | .resume i => s.resume i
  | .resumeEnd => s.resumeEnd

def step (s : Option Invocations) (m : Move) : Option Invocations :=
  s.bind fun s₁ => m.run s₁

def DefnsLive : Prop := ∀ p ∈ s.active, ∃ d, s.procs.defns p = some d

end Invocations

namespace ProcInterp

def Overwritten (s : ProcInterp) (zPattern : Bytes) (pCmd : CmdId) : Prop :=
  ∃ pSrcNs zTail zName pSrc, s.cmds.importSource zPattern = some (pSrcNs, zTail) ∧
    (s.cmds.paCmd pSrcNs).lookup zName = some (some pSrc) ∧
    importMatches (s.cmds.zExport pSrcNs) zTail zName = true ∧
    (s.cmds.paCmd s.cmds.pCurrentNs).lookup zName = some (some pCmd)

def Op.Retires (s : ProcInterp) : Op → CmdId → Prop
  | .proc _ zName, c | .nproc _ zName, c => s.cmds.commandAt (cString zName) = some c
  | .nsImport _ zPattern bForce, c => bForce = true ∧ s.Overwritten zPattern c
  | .callProc _, _ => False
  | .other op, c => op.Destroys s.cmds c ∨ s.cmds.GoesAlong op c

/-- The operation does not wait for the end of the last evaluation: commands are replaced, or
the global namespace is deleted. -/
def Op.AtOnce (s : ProcInterp) : Op → Prop
  | .proc .. | .nproc .. | .nsImport .. | .other (.createCommand ..) => True
  | .other (.deleteNamespace zName _) => s.cmds.findNamespace zName = some (some globalNs)
  | _ => False

end ProcInterp

namespace Invocations

variable (s : Invocations)

def Owns (pCmd : CmdId) (pDefn : Pointer) : Prop :=
  ∃ cmd, s.procs.cmds.commands pCmd = some cmd ∧ cmd.xDel = procDel ∧ cmd.pContext = pDefn

/-- No procedure is destroyed at once that is active, and none, because no evaluation is
left, that is active on a chain that does not run. -/
def Spares (op : ProcInterp.Op) : Prop :=
  ∀ c p, op.Retires s.procs c → s.Owns c p → p ∉ s.elsewhere ∧ (op.AtOnce s.procs → p ∉ s.active)

def Move.Allowed : Move → Prop
  | .script op => s.Spares op
  | _ => True

end Invocations

end Th8
