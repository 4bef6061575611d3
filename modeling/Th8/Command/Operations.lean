import Th8.Command.Interp

/-!
# Imports and runs of the interpreter

`Th8_NsExport` and `Th8_NsImport`, the deletion of namespaces with their commands, the
ends of evaluations, and the state machine that all operations make up.
-/

namespace Th8

open Support

/-- `th8SimpleGlob`: a star matches only at the end of the pattern. -/
def simpleGlob (zPat zStr : Bytes) : Bool :=
  if zPat = [chStar] then true
  else if zPat.getLast? = some chStar then zPat.dropLast.isPrefixOf zStr
  else zPat = zStr

def exportPatterns (zExport : Bytes) : List Bytes :=
  (zExport.splitOnP (· == chSpace)).filter (· ≠ [])

def importMatches (zExport zImportPat zName : Bytes) : Bool :=
  (exportPatterns zExport).any (simpleGlob · zName) && simpleGlob zImportPat zName

namespace CmdInterp

variable (s : CmdInterp)

/-! ## `Th8_NsExport` and `Th8_NsImport` -/

/-- A pattern is appended to the export list of a namespace.  The two writes to the
list may fail separately. -/
def appendExport (pNs : NsId) (zPattern : Bytes) (blankGranted patternGranted : Bool) :
    Option (CmdInterp × NsResult) :=
  match s.namespaces pNs with
  | none => none
  | some _ =>
    let z := s.zExport pNs
    if z ≠ [] ∧ !blankGranted then some (s, .error (.static "out of memory"))
    else
      let z₁ := if z = [] then z else z ++ [chSpace]
      if !patternGranted then
        some ({ s with zExport := Function.update s.zExport pNs z₁ },
          .error (.static "out of memory"))
      else some ({ s with zExport := Function.update s.zExport pNs (z₁ ++ zPattern) }, .ok)

def nsExport (zNs zPattern : Bytes) (blankGranted patternGranted : Bool) :
    Option (CmdInterp × NsResult) :=
  if zNs = [] then s.appendExport s.pCurrentNs zPattern blankGranted patternGranted
  else
    match s.findNamespace zNs with
    | none => none
    | some none => some (s, .error (.static "namespace not found"))
    | some (some pNs) => s.appendExport pNs zPattern blankGranted patternGranted

/-- The requests for memory behind one imported command, and what `xCopy` returns. -/
structure ImportMemory where
  pDst : Bool
  pNew : Bool
  pContext : Pointer

/-- The record of an imported command: a copy that owns its context if the source can
be copied, and shares it otherwise. -/
def importedCommand (mem : ImportMemory) (src : CommandRecord) : CommandRecord where
  xProc := src.xProc
  pContext := if src.xCopy = 0 then src.pContext else mem.pContext
  xDel := if src.xCopy = 0 then 0 else src.xDel
  xCopy := src.xCopy
  pDefNs := src.pDefNs
  nToken := 0
  zQualName := none
  paSubCommands := none

/-- The end of `th8ImportCallback`, with the entry `pDst` at hand: the new record is
made from the source, which is read after an old target has been released.  The flag
tells whether the iteration goes on. -/
def replaceImported (mem : ImportMemory) (zName : Bytes) (pSrc : CmdId)
    (pOld : Option CmdId) : Option (CmdInterp × Bool) :=
  match s.freeCmdEntry pOld with
  | none => none
  | some s₁ =>
    if !mem.pNew then some (s₁, false)
    else
      match s₁.commands pSrc with
      | none => none
      | some src =>
        some (({ s₁ with nextCmd := s₁.nextCmd + 1 }.setCommand s₁.nextCmd
          (importedCommand mem src)).setEntry s.pCurrentNs zName (some s₁.nextCmd), true)

def importCallback (pSrcNs : NsId) (zImportPat : Bytes) (bForce : Bool)
    (mem : ImportMemory) (zName : Bytes) : Option (CmdInterp × Bool) :=
  match s.cmdTable pSrcNs with
  | none => none
  | some paSrc =>
    if !importMatches (s.zExport pSrcNs) zImportPat zName then some (s, true)
    else
      match (paSrc.lookup zName).join with
      | none => some (s, true)
      | some pSrc =>
        match s.cmdTable s.pCurrentNs with
        | none => none
        | some paCmd =>
          match paCmd.lookup zName with
          | none =>
            -- The entry that could not be made is used all the same.
            if !mem.pDst then none
            else
              (s.setEntry s.pCurrentNs zName none).replaceImported mem zName pSrc none
          | some pData =>
            if pData = none ∨ bForce then s.replaceImported mem zName pSrc pData
            else some (s, true)

/-- The iteration over the names of the source table.  It ends early where the callback
says so, and does not tell. -/
def importLoop (pSrcNs : NsId) (zImportPat : Bytes) (bForce : Bool)
    (mem : ℕ → ImportMemory) (s : CmdInterp) : List Bytes → Option CmdInterp
  | [] => some s
  | zName :: rest =>
    match s.importCallback pSrcNs zImportPat bForce (mem rest.length) zName with
    | none => none
    | some (s₁, false) => some s₁
    | some (s₁, true) => importLoop pSrcNs zImportPat bForce mem s₁ rest

def nsImport (mem : ℕ → ImportMemory) (zPattern : Bytes) (bForce : Bool) :
    Option (CmdInterp × NsResult) :=
  match splitQualName zPattern with
  | (none, _) => some (s, .error (.static "import pattern must be qualified"))
  | (some [], _) => some (s, .error (.static "import pattern must be qualified"))
  | (some (c :: zNs), zTail) =>
    match s.findNamespace (c :: zNs) with
    | none => none
    | some none => some (s, .error (.message "unknown namespace \"" (c :: zNs)))
    | some (some pSrcNs) =>
      match s.cmdTable pSrcNs with
      | none => none
      | some paCmd =>
        (importLoop pSrcNs zTail bForce mem s paCmd.keys).map fun s₁ => (s₁, .ok)

/-- A creating `th8FindNamespaceEx`. -/
def createNamespace (mem : ℕ → ChildMemory) (zName : Bytes) : Option (CmdInterp × CreateResult) :=
  match s.toNsTree.findNamespaceEx mem zName with
  | none => none
  | some (t, r) => (s.moveTo t).map fun s₁ => (s₁, r)

/-- `Th8_DeleteNamespace` with the commands.  The global namespace loses its commands
and its export list, the others go as a whole. -/
def deleteNamespace (zName : Bytes) (tablesGranted : Bool) : Option (CmdInterp × NsResult) :=
  match s.toNsTree.deleteNamespace zName tablesGranted with
  | none => none
  | some (t, r) =>
    match s.moveTo t with
    | none => none
    | some s₁ =>
      if s.findNamespace zName = some (some globalNs) then
        (s₁.freeCommandsOf globalNs).map fun s₂ =>
          ({ s₂ with zExport := Function.update s₂.zExport globalNs [] }, r)
      else some (s₁, r)

/-- `th8DrainPendingDeletes`: commands first, then namespaces. -/
def drainPendingDeletes : Option CmdInterp :=
  match s.pendingCmd.foldlM drainCommand { s with pendingCmd := [] } with
  | none => none
  | some s₁ => s₁.toNsTree.drainPendingNs.bind s₁.moveTo

inductive Op where
  | createCommand (mem : CreateMemory) (zName : Bytes) (h : Handler)
  | createSubCommand (mem : SubMemory) (zCmdName zSubName : Bytes) (h : Handler)
  | deleteSubCommand (token : ℕ)
  | renameCommand (mem : RenameMemory) (zOld zNew : Bytes)
  | deleteCommand (token : ℕ)
  | setCommandCopy (zName : Bytes) (xCopy : Pointer)
  | createNamespace (mem : ℕ → ChildMemory) (zName : Bytes)
  | deleteNamespace (zName : Bytes) (tablesGranted : Bool)
  | nsExport (zNs zPattern : Bytes) (blankGranted patternGranted : Bool)
  | nsImport (mem : ℕ → ImportMemory) (zPattern : Bytes) (bForce : Bool)
  | setCurrent (pNs : NsId)
  | enterEval
  | leaveEval

/-- One operation, with the failure it reports if it does. -/
def Op.run (s : CmdInterp) : Op → Option (CmdInterp × Option Failure)
  | .createCommand mem zName h => (s.createCommand mem zName h).map reported
  | .createSubCommand mem zCmdName zSubName h =>
    (s.createSubCommand mem zCmdName zSubName h).map reported
  | .deleteSubCommand token => (s.deleteSubCommand token).map reported
  | .renameCommand mem zOld zNew => (s.renameCommand mem zOld zNew).map reported
  | .deleteCommand token => (s.deleteCommand token).map reported
  | .setCommandCopy zName xCopy => (s.setCommandCopy zName xCopy).map fun s₁ => (s₁, none)
  | .createNamespace mem zName =>
    (s.createNamespace mem zName).map fun r =>
      match r.2 with
      | .found _ _ => (r.1, none)
      | .failed e => (r.1, some e)
  | .deleteNamespace zName granted => (s.deleteNamespace zName granted).map nsReported
  | .nsExport zNs zPattern blank pattern =>
    (s.nsExport zNs zPattern blank pattern).map nsReported
  | .nsImport mem zPattern bForce => (s.nsImport mem zPattern bForce).map nsReported
  | .setCurrent pNs =>
    if (s.namespaces pNs).isSome then some ({ s with pCurrentNs := pNs }, none) else none
  | .enterEval => some ({ s with nEvalDepth := s.nEvalDepth + 1 }, none)
  | .leaveEval =>
    if s.nEvalDepth ≤ 1 then
      { s with nEvalDepth := 0 }.drainPendingDeletes.map fun s₁ => (s₁, none)
    else some ({ s with nEvalDepth := s.nEvalDepth - 1 }, none)
where
  reported (r : CmdInterp × CmdResult) : CmdInterp × Option Failure :=
    match r.2 with
    | .error e => (r.1, some e)
    | _ => (r.1, none)
  nsReported (r : CmdInterp × NsResult) : CmdInterp × Option Failure :=
    match r.2 with
    | .error e => (r.1, some e)
    | .ok => (r.1, none)

def step (s : Option CmdInterp) (op : Op) : Option CmdInterp :=
  s.bind fun s₁ => (op.run s₁).map Prod.fst

def runAll (ops : List Op) : Option CmdInterp := ops.foldl step (some .init)

end CmdInterp

end Th8
