import Th8.Bigint.Library
import Th8.Support.Program
import Th8.Variables.Accessors

/-!
# The variable commands

`set`, `append`, `incr`, `unset`, `array set`, `array unset`, `upvar`, `global` and
`variable` as programs over the accessors of variables.  Five of them ask
`th8CheckSystemVar` first, which compares the text of the name up to its first opening
parenthesis with the names that were declared.

Splitting and joining of lists and glob matching are parameters.  Names carry no tags
here.  Of the results of commands only the failures are kept.
-/

namespace Th8.Script

open Support

inductive VarCall where
  | get (zVar : Bytes)
  | exist (zVar : Bytes)
  | names (zArr : Bytes)
  | set (zVar : Bytes) (v : TString)
  | append (zVar : Bytes) (args : List TString)
  | unset (zVar : Bytes)
  | link (zLocal : Bytes) (iFrame : ℤ) (zRemote : Bytes)

def VarCall.Out : VarCall → Type
  | .get _ => Except Failure VarRead
  | .exist _ => Bool
  | .names _ => List Bytes
  | .append _ _ => Unit
  | .set _ _ | .unset _ | .link _ _ _ => Except Failure Unit

def exec (s : VarState) : (call : VarCall) → VarState × call.Out
  | .get zVar => (s, getVar s zVar)
  | .exist zVar => (s, existsVar s zVar)
  | .names zArr => (s, listAppendArray s zArr)
  | .set zVar v => setVar s zVar v
  | .append zVar args => (appendVar s zVar args, ())
  | .unset zVar => unsetVar s zVar
  | .link zLocal iFrame zRemote => linkVar s zLocal iFrame zRemote

abbrev Command := ExceptT Failure (Program VarCall VarCall.Out)

namespace Command

def getVar (zVar : Bytes) : Command VarRead := ExceptT.mk (Program.perform (VarCall.get zVar))

def existsVar (zVar : Bytes) : Command Bool :=
  ExceptT.lift (Program.perform (VarCall.exist zVar))

def listAppendArray (zArr : Bytes) : Command (List Bytes) :=
  ExceptT.lift (Program.perform (VarCall.names zArr))

def setVar (zVar : Bytes) (v : TString) : Command Unit :=
  ExceptT.mk (Program.perform (VarCall.set zVar v))

def appendVar (zVar : Bytes) (args : List TString) : Command Unit :=
  ExceptT.lift (Program.perform (VarCall.append zVar args))

def unsetVar (zVar : Bytes) : Command Unit := ExceptT.mk (Program.perform (VarCall.unset zVar))

def linkVar (zLocal : Bytes) (iFrame : ℤ) (zRemote : Bytes) : Command Unit :=
  ExceptT.mk (Program.perform (VarCall.link zLocal iFrame zRemote))

def attempt {α : Type} (cmd : Command α) : Command (Except Failure α) := ExceptT.lift cmd.run

end Command

/-- What the commands find around them: `paSystemVar`, the list functions and the glob
matcher. -/
structure ScriptEnv where
  paSystemVar : List Bytes
  splitList : TString → Except Failure (List TString)
  joinList : List Bytes → Bytes
  globMatch : Bytes → Bytes → Bool

/-- What may differ from one command to the next: `th8GetFrameLevel`,
`Th8_GetCurrentNamespace` and `Th8_GetOverflowCheck`. -/
structure CmdContext where
  nLevel : ℕ
  zCurNs : Bytes
  bOverflowCheck : Bool

def baseName (zName : Bytes) : Bytes := zName.takeWhile (· != chOpenParen)

def isSystemVar (env : ScriptEnv) (zName : Bytes) : Bool :=
  env.paSystemVar.contains (baseName zName)

def checkSystemVar (env : ScriptEnv) (zName : Bytes) : Command Unit :=
  if isSystemVar env zName then
    throw (.message "can't modify system variable \"" zName)
  else pure ()

def wrongNumArgs (zMsg : String) : Command Unit :=
  throw (.message "wrong # args: should be \"" (ascii zMsg))

/-! ## The commands -/

def setCommand (env : ScriptEnv) : List TString → Command Unit
  | [zVar] => do
    let _ ← Command.getVar zVar.bytes
  | [zVar, v] => do
    checkSystemVar env zVar.bytes
    Command.setVar zVar.bytes v
    let _ ← Command.getVar zVar.bytes
  | _ => wrongNumArgs "set varname ?value?"

def appendCommand (env : ScriptEnv) : List TString → Command Unit
  | [] => wrongNumArgs "append varname ?value ...?"
  | [zVar] => do
    let _ ← Command.getVar zVar.bytes
  | zVar :: args => do
    checkSystemVar env zVar.bytes
    Command.appendVar zVar.bytes args

/-- A sum as the `int` that holds it. -/
def toCInt (v : ℤ) : ℤ := v.bmod (2 ^ 32)

/-- `incr_command` behind its guard. -/
def incrBy (ctx : CmdContext) (zVar : Bytes) (iIncr : ℤ) : Command Unit := do
  let cur ← Command.attempt (Command.getVar zVar)
  let iVal ← match cur with
    | .ok res => MonadExcept.ofExcept (parseInt (res.value.bytes.takeWhile (· != 0)))
    | .error _ => pure 0
  if ctx.bOverflowCheck ∧
      ((0 < iIncr ∧ 2 ^ 31 - 1 - iIncr < iVal) ∨ (iIncr < 0 ∧ iVal < -2 ^ 31 - iIncr)) then
    throw (.static "integer overflow")
  Command.setVar zVar (TString.plain (Bigint.decimal (toCInt (iVal + iIncr))))

def incrCommand (env : ScriptEnv) (ctx : CmdContext) : List TString → Command Unit
  | [zVar] => do
    checkSystemVar env zVar.bytes
    incrBy ctx zVar.bytes 1
  | [zVar, zIncr] => do
    checkSystemVar env zVar.bytes
    let iIncr ← MonadExcept.ofExcept (parseInt zIncr.bytes)
    incrBy ctx zVar.bytes iIncr
  | _ => wrongNumArgs "incr varname ?increment?"

/-- The options of `unset`. -/
def unsetOptions (bNoComplain : Bool) : List Bytes → Bool × List Bytes
  | [] => (bNoComplain, [])
  | zArg :: rest =>
    if zArg = ascii "-nocomplain" then unsetOptions true rest
    else if zArg = ascii "--" then (bNoComplain, rest)
    else (bNoComplain, zArg :: rest)

/-- The loop of `unset_command` over the names. -/
def unsetNames (env : ScriptEnv) (bNoComplain : Bool) : List Bytes → Command Unit
  | [] => pure ()
  | zName :: rest => do
    let rc ← Command.attempt do
      checkSystemVar env zName
      Command.unsetVar zName
    match rc with
    | .ok () => unsetNames env bNoComplain rest
    | .error e => if bNoComplain then unsetNames env bNoComplain rest else throw e

def unsetCommand (env : ScriptEnv) (argv : List TString) : Command Unit :=
  let (bNoComplain, names) := unsetOptions false (argv.map TString.bytes)
  unsetNames env bNoComplain names

/-- The loop of `array_set_command` over the pairs of its list. -/
def setPairs (zArr : Bytes) : List TString → Command Unit
  | zElem :: v :: rest => do
    let _ ← Command.attempt (Command.setVar (elemName zArr zElem.bytes) v)
    setPairs zArr rest
  | _ => pure ()

def arraySetCommand (env : ScriptEnv) : List TString → Command Unit
  | [zArr, zList] => do
    checkSystemVar env zArr.bytes
    let elems ← MonadExcept.ofExcept (env.splitList zList)
    if elems = [] then
      let zFull := elemName zArr.bytes (ascii "__th8_array_init__")
      let _ ← Command.attempt (Command.setVar zFull (TString.plain []))
      let _ ← Command.attempt (Command.unsetVar zFull)
    else if elems.length % 2 ≠ 0 then
      throw (.static "list must have an even number of elements")
    else setPairs zArr.bytes elems
  | _ => wrongNumArgs "array set arrayName list"

/-- The loop of `array_unset_command` over the names of the elements. -/
def unsetMatching (env : ScriptEnv) (zArr zPattern : Bytes) : List TString → Command Unit
  | [] => pure ()
  | zElem :: rest => do
    if env.globMatch zPattern zElem.bytes then
      let _ ← Command.attempt (Command.unsetVar (elemName zArr zElem.bytes))
    unsetMatching env zArr zPattern rest

/-- `array_unset_command`, which has no guard. -/
def arrayUnsetCommand (env : ScriptEnv) : List TString → Command Unit
  | [zArr] => Command.unsetVar zArr.bytes
  | [zArr, zPattern] => do
    let names ← Command.listAppendArray zArr.bytes
    if names ≠ [] then
      match env.splitList (TString.plain (env.joinList names)) with
      | .ok elems => unsetMatching env zArr.bytes zPattern.bytes elems
      | .error _ => pure ()
  | _ => wrongNumArgs "array unset arrayName ?pattern?"

/-- The level in front of the names of `upvar`: absolute behind a hash sign. -/
def upvarLevel (zLevel : Bytes) : Command ℤ :=
  let badLevel := Failure.message "bad level \"" zLevel
  let level (z : Bytes) : Command ℕ :=
    match parseInt z with
    | .ok iFrame => if iFrame < 0 then throw badLevel else pure iFrame.toNat
    | .error _ => throw badLevel
  if zLevel.head? = some chHash then do
    let n ← level zLevel.tail
    pure n
  else do
    let n ← level zLevel
    pure (-n)

/-- The loop of `upvar_command` over pairs of names. -/
def linkPairs (iFrame : ℤ) : List Bytes → Command Unit
  | zOther :: zMine :: rest => do
    Command.linkVar zMine iFrame zOther
    linkPairs iFrame rest
  | _ => pure ()

/-- `upvar_command`: a level stands in front when the names do not come in pairs. -/
def upvarCommand (argv : List TString) : Command Unit :=
  match argv.map TString.bytes with
  | zFirst :: zSecond :: zThird :: rest =>
    if rest.length % 2 = 0 then do
      let iFrame ← upvarLevel zFirst
      linkPairs iFrame (zSecond :: zThird :: rest)
    else linkPairs (-1) (zFirst :: zSecond :: zThird :: rest)
  | _ =>
    wrongNumArgs "upvar ?level? othervar myvar ?othervar myvar?"

/-- The loop of `global_command`. -/
def globalNames : List Bytes → Command Unit
  | [] => pure ()
  | zName :: rest => do
    let zGlobal := chColon :: chColon :: zName
    if !(← Command.existsVar zGlobal) then
      let _ ← Command.attempt (Command.setVar zGlobal (TString.plain []))
    let _ ← Command.attempt (Command.linkVar zName 1 zGlobal)
    globalNames rest

/-- `global_command`, which has no guard. -/
def globalCommand (argv : List TString) : Command Unit :=
  if argv = [] then wrongNumArgs "global varname ?varname ...?"
  else globalNames (argv.map TString.bytes)

/-- The name that `variable` builds for a name that is not absolute, in a namespace other
than the global one. -/
def variableQual (ctx : CmdContext) (zName : Bytes) : Option Bytes :=
  if !hasGlobalPrefix zName && hasGlobalPrefix ctx.zCurNs then
    some (ctx.zCurNs ++ chColon :: chColon :: zName)
  else none

def qualTail (zName : Bytes) : Bytes :=
  match (List.range zName.length).reverse.find? fun p =>
      2 ≤ p ∧ zName[p - 1]? = some chColon ∧ zName[p]? = some chColon with
  | some p => zName.drop (p + 1)
  | none => zName

/-- The local name of a variable that `variable` links. -/
def variableLocal (ctx : CmdContext) (zName : Bytes) : Bytes :=
  if (variableQual ctx zName).isNone && hasGlobalPrefix zName then qualTail zName else zName

/-- `variable_command` for one name, which has no guard. -/
def variableName (ctx : CmdContext) (zArg : Bytes) (value : Option TString) : Command Unit := do
  let zName := (variableQual ctx zArg).getD zArg
  if let some v := value then
    let _ ← Command.attempt (Command.setVar zName v)
  if 0 < ctx.nLevel ∨ hasGlobalPrefix ctx.zCurNs = true then
    if variableLocal ctx zArg ≠ [] then
      let _ ← Command.attempt (Command.linkVar (variableLocal ctx zArg) 0 zName)

/-- The loop of `variable_command`. -/
def variableNames (ctx : CmdContext) : List TString → Command Unit
  | [] => pure ()
  | [zName] => variableName ctx zName.bytes none
  | zName :: v :: rest => do
    variableName ctx zName.bytes (some v)
    variableNames ctx rest

def variableCommand (ctx : CmdContext) (argv : List TString) : Command Unit :=
  if argv = [] then wrongNumArgs "variable varname ?value? ..."
  else variableNames ctx argv

inductive CmdName where
  | set | append | incr | unset | arraySet | arrayUnset | upvar | global | variable
deriving DecidableEq

def command (env : ScriptEnv) (ctx : CmdContext) (argv : List TString) :
    CmdName → Command Unit
  | .set => setCommand env argv
  | .append => appendCommand env argv
  | .incr => incrCommand env ctx argv
  | .unset => unsetCommand env argv
  | .arraySet => arraySetCommand env argv
  | .arrayUnset => arrayUnsetCommand env argv
  | .upvar => upvarCommand argv
  | .global => globalCommand argv
  | .variable => variableCommand ctx argv

def runCommand (env : ScriptEnv) (s : VarState) (ctx : CmdContext) (name : CmdName)
    (argv : List TString) : VarState × Except Failure Unit :=
  (command env ctx argv name).run.run exec s

inductive ScriptStep where
  | command (ctx : CmdContext) (name : CmdName) (argv : List TString)
  | call
  | ret

def scriptStep (env : ScriptEnv) (s : VarState) : ScriptStep → VarState
  | .command ctx name argv => (runCommand env s ctx name argv).1
  | .call => pushFrame s
  | .ret => popFrame s

end Th8.Script
