import Th8.Namespace.Tree

/-!
# Commands and sub-commands as records

The namespaces of `Th8.Namespace.Tree` with their tables of commands.  Commands and
sub-commands are records with addresses; tables, the two token indexes and the queue of
pending deletions refer to them.  An entry of a command table may hold the null
pointer.  Any request for memory may fail.  `none` is the use of a released record or
of a null pointer.

The functions of the embedder (`xProc`, `xDel`, `xCopy`) and their contexts are
addresses; calls to destructors change nothing here.
-/

namespace Th8

open Support
open Function (update)

abbrev Pointer := ℕ

abbrev SubId := ℕ

/-- `Th8_Command`. -/
structure CommandRecord where
  xProc : Pointer
  pContext : Pointer
  xDel : Pointer
  xCopy : Pointer
  pDefNs : Option NsId
  nToken : ℕ
  zQualName : Option Bytes
  paSubCommands : Option (AList fun _ : Bytes => SubId)
deriving DecidableEq

/-- `Th8_SubCmd`. -/
structure SubCommand where
  xProc : Pointer
  pContext : Pointer
  xDel : Pointer
  nToken : ℕ
  zName : Bytes
  pParent : CmdId
deriving DecidableEq

abbrev CmdTable := AList fun _ : Bytes => Option CmdId

/-- The part of `Th8_Interp` that holds namespaces, commands and sub-commands. -/
structure CmdInterp extends NsTree where
  paCmd : NsId → CmdTable
  zExport : NsId → Bytes
  commands : Memory CmdId CommandRecord
  nextCmd : CmdId
  subCommands : Memory SubId SubCommand
  nextSub : SubId
  paCmdToken : Option (ℕ → Option CmdId)
  paSubToken : Option (ℕ → Option SubId)
  nNextCmdToken : ℕ
  pendingCmd : List CmdId

def CmdInterp.init : CmdInterp where
  toNsTree := .init
  paCmd := fun _ => ∅
  zExport := fun _ => []
  commands := fun _ => none
  nextCmd := 0
  subCommands := fun _ => none
  nextSub := 0
  paCmdToken := none
  paSubToken := none
  nNextCmdToken := 1
  pendingCmd := []

structure Handler where
  xProc : Pointer
  pContext : Pointer
  xDel : Pointer
deriving DecidableEq

namespace CmdInterp

variable (s : CmdInterp)

def cmdTable (pNs : NsId) : Option CmdTable :=
  (s.namespaces pNs).map fun _ => s.paCmd pNs

def setEntry (pNs : NsId) (zName : Bytes) (pData : Option CmdId) : CmdInterp :=
  { s with paCmd := update s.paCmd pNs ((s.paCmd pNs).insert zName pData) }

def removeEntry (pNs : NsId) (zName : Bytes) : CmdInterp :=
  { s with paCmd := update s.paCmd pNs ((s.paCmd pNs).erase zName) }

def setCommand (pCmd : CmdId) (cmd : CommandRecord) : CmdInterp :=
  { s with commands := update s.commands pCmd (some cmd) }

def cmdTokenEntry (token : ℕ) : Option CmdId := s.paCmdToken.bind fun index => index token

def subTokenEntry (token : ℕ) : Option SubId := s.paSubToken.bind fun index => index token

def removeCmdTokenEntry (cmd : CommandRecord) : CmdInterp :=
  if cmd.nToken = 0 then s
  else { s with
    paCmdToken := s.paCmdToken.map fun index => update index cmd.nToken none }

def removeSubTokenEntry (sub : SubCommand) : CmdInterp :=
  if sub.nToken = 0 then s
  else { s with
    paSubToken := s.paSubToken.map fun index => update index sub.nToken none }

def freeSubCmdEntry (pSub : SubId) : Option CmdInterp :=
  match s.subCommands pSub with
  | none => none
  | some sub =>
    let s₁ := s.removeSubTokenEntry sub
    some { s₁ with subCommands := update s₁.subCommands pSub none }

def freeSubCommands (pCmd : CmdId) : Option CmdInterp :=
  match s.commands pCmd with
  | none => none
  | some cmd =>
    match cmd.paSubCommands with
    | none => some s
    | some T =>
      ((T.entries.map Sigma.snd).foldlM freeSubCmdEntry s).map fun s₁ =>
        s₁.setCommand pCmd { cmd with paSubCommands := none }

def releaseCommand (pCmd : CmdId) : CmdInterp :=
  { s with commands := update s.commands pCmd none }

def drainCommand (pCmd : CmdId) : Option CmdInterp :=
  (s.freeSubCommands pCmd).map fun s₁ => s₁.releaseCommand pCmd

/-- What `th8FreeCmdEntry` does with a command. -/
def freeCommand (pCmd : CmdId) : Option CmdInterp :=
  match s.commands pCmd with
  | none => none
  | some cmd => (s.removeCmdTokenEntry cmd).drainCommand pCmd

def freeCmdEntry (pData : Option CmdId) : Option CmdInterp :=
  match pData with
  | none => some s
  | some pCmd => s.freeCommand pCmd

def freeCommandsOf (pNs : NsId) : Option CmdInterp :=
  (((s.paCmd pNs).entries.map Sigma.snd).foldlM freeCmdEntry s).map fun s₁ =>
    { s₁ with paCmd := update s₁.paCmd pNs ∅ }

/-- The namespaces that are allocated here and released in `t`. -/
def releasedNs (t : NsTree) : List NsId :=
  (List.range s.nextNs).filter fun x => (s.namespaces x).isSome && (t.namespaces x).isNone

def withTree (t : NsTree) : CmdInterp :=
  { s with
    toNsTree := t
    paCmd := fun x => if x < s.nextNs then s.paCmd x else ∅
    zExport := fun x => if x < s.nextNs then s.zExport x else [] }

/-- The namespaces become those of `t`; the commands of the released ones are
released. -/
def moveTo (t : NsTree) : Option CmdInterp :=
  ((s.releasedNs t).foldlM freeCommandsOf s).map fun s₁ => s₁.withTree t

def rollbackNs (pCreatedRoot : Option NsId) : Option CmdInterp :=
  (s.toNsTree.rollback pCreatedRoot).bind s.moveTo

def lookupCommand (zName : Bytes) : Option (Option CmdId) :=
  match splitQualName zName with
  | (some zNs, zTail) =>
    match s.findNamespace zNs with
    | none => none
    | some none => some none
    | some (some pNs) => (s.cmdTable pNs).map fun paCmd => (paCmd.lookup zTail).join
  | (none, _) =>
    match s.cmdTable s.pCurrentNs, s.cmdTable globalNs with
    | some paCmd, some paGlobal =>
      match paCmd.lookup zName with
      | some pData => some pData
      | none => some (paGlobal.lookup zName).join
    | _, _ => none

/-- The requests for memory of `Th8_CreateCommand`. -/
structure CreateMemory where
  namespaces : ℕ → ChildMemory
  zNewQual : Bool
  pCmd : Bool
  paCmdToken : Bool
  pEntry : Bool
  pTokEntry : Bool

def outOfMemory (pCreatedNs : Option NsId) : Option (CmdInterp × CmdResult) :=
  (s.rollbackNs pCreatedNs).map fun s₁ => (s₁, .error (.static "out of memory"))

def withCmdToken : CmdInterp :=
  { s with paCmdToken := some (s.paCmdToken.getD fun _ => none) }

def newCommand (pOld : Option CommandRecord) (zName : Bytes) (h : Handler) (pNs : NsId) :
    CommandRecord where
  xProc := h.xProc
  pContext := h.pContext
  xDel := h.xDel
  xCopy := (pOld.map CommandRecord.xCopy).getD 0
  pDefNs := if pNs = globalNs then none else some pNs
  nToken := s.nNextCmdToken
  zQualName := some zName
  paSubCommands := none

/-- Enter the record `pCmd` in the table and in the token index. -/
def publish (pNs : NsId) (zTail : Bytes) (pCmd : CmdId) (cmd : CommandRecord) : CmdInterp :=
  { (s.setCommand pCmd cmd).setEntry pNs zTail (some pCmd) with
    paCmdToken := s.paCmdToken.map fun index =>
      update index s.nNextCmdToken (some pCmd)
    nNextCmdToken := s.nNextCmdToken + 1 }

/-- The commit of `Th8_CreateCommand`: a replaced command loses its token and its
sub-commands, and its record is used again. -/
def commitCommand (pNs : NsId) (zTail zName : Bytes) (h : Handler) :
    Option CmdId → Option (CmdInterp × CmdResult)
  | some pOld =>
    match s.commands pOld with
    | none => none
    | some old =>
      ((s.removeCmdTokenEntry old).freeSubCommands pOld).map fun s₁ =>
        (s₁.publish pNs zTail pOld (s.newCommand (some old) zName h pNs),
          .ok (some s.nNextCmdToken))
  | none =>
    some ({ s with nextCmd := s.nextCmd + 1 }.publish pNs zTail s.nextCmd
      (s.newCommand none zName h pNs), .ok (some s.nNextCmdToken))

/-- `Th8_CreateCommand` once the namespace is there. -/
def createIn (mem : CreateMemory) (pNs : NsId) (pCreatedNs : Option NsId)
    (zTail zName : Bytes) (h : Handler) : Option (CmdInterp × CmdResult) :=
  match s.cmdTable pNs with
  | none => none
  | some paCmd =>
    let pOld := (paCmd.lookup zTail).join
    if !mem.zNewQual then s.outOfMemory pCreatedNs
    else if pOld = none ∧ !mem.pCmd then s.outOfMemory pCreatedNs
    else if s.paCmdToken = none ∧ !mem.paCmdToken then s.outOfMemory pCreatedNs
    else if paCmd.lookup zTail = none ∧ !mem.pEntry then s.outOfMemory pCreatedNs
    else
      -- The entry is in the table from here on, with the old command or with null.
      let s₁ := s.withCmdToken.setEntry pNs zTail pOld
      if !mem.pTokEntry then
        let s₂ := if pOld = none then s₁.removeEntry pNs zTail else s₁
        { s₂ with paCmdToken := s.paCmdToken }.outOfMemory pCreatedNs
      else s₁.commitCommand pNs zTail zName h pOld

def createCommand (mem : CreateMemory) (zName : Bytes) (h : Handler) :
    Option (CmdInterp × CmdResult) :=
  match splitQualName zName with
  | (some zNs, zTail) =>
    match s.toNsTree.findNamespaceEx mem.namespaces zNs with
    | none => none
    | some (t, .failed _) =>
      (s.moveTo t).map fun s₁ => (s₁, .error (.static "out of memory"))
    | some (t, .found pNs pCreatedNs) =>
      (s.moveTo t).bind fun s₁ => s₁.createIn mem pNs pCreatedNs zTail zName h
  | (none, _) => s.createIn mem s.pCurrentNs none zName zName h

/-- The requests for memory of `Th8_CreateSubCommand`. -/
structure SubMemory where
  paSubCommands : Bool
  zNameCopy : Bool
  pSubEntry : Bool
  pSub : Bool
  paSubToken : Bool
  pTokEntry : Bool

/-- The commit of `Th8_CreateSubCommand`: the record `pSub` gets a fresh token and is
entered in the table of its command and in the index. -/
def publishSub (pCmd : CmdId) (cmd : CommandRecord) (T : AList fun _ : Bytes => SubId)
    (zSubName : Bytes) (pSub : SubId) (h : Handler) : CmdInterp :=
  { s with
    commands := update s.commands pCmd
      (some { cmd with paSubCommands := some (T.insert zSubName pSub) })
    subCommands := update s.subCommands pSub
      (some ⟨h.xProc, h.pContext, h.xDel, s.nNextCmdToken, zSubName, pCmd⟩)
    paSubToken := some (update (s.paSubToken.getD fun _ => none) s.nNextCmdToken (some pSub))
    nNextCmdToken := s.nNextCmdToken + 1 }

/-- `Th8_CreateSubCommand` once the command is found.  Every failure puts the tables
back as they were. -/
def createSubIn (mem : SubMemory) (pCmd : CmdId) (cmd : CommandRecord)
    (zSubName : Bytes) (h : Handler) : Option (CmdInterp × CmdResult) :=
  let T := cmd.paSubCommands.getD ∅
  let failed : Option (CmdInterp × CmdResult) := some (s, .error (.static "out of memory"))
  if cmd.paSubCommands = none ∧ !mem.paSubCommands then failed
  else if !mem.zNameCopy then failed
  else
    match T.lookup zSubName with
    | some pOldSub =>
      if s.paSubToken = none ∧ !mem.paSubToken then failed
      else if !mem.pTokEntry then failed
      else
        match s.subCommands pOldSub with
        | none => none
        | some old =>
          some ((s.removeSubTokenEntry old).publishSub pCmd cmd T zSubName pOldSub h,
            .ok (some s.nNextCmdToken))
    | none =>
      -- The new entry is removed again when a later request fails.
      let undone := s.setCommand pCmd { cmd with
        paSubCommands := cmd.paSubCommands.map fun T =>
          (T.insert zSubName s.nextSub).erase zSubName }
      if !mem.pSubEntry then failed
      else if !mem.pSub then some (undone, .error (.static "out of memory"))
      else if s.paSubToken = none ∧ !mem.paSubToken then
        some (undone, .error (.static "out of memory"))
      else if !mem.pTokEntry then some (undone, .error (.static "out of memory"))
      else
        some ({ s with nextSub := s.nextSub + 1 }.publishSub pCmd cmd T zSubName
          s.nextSub h, .ok (some s.nNextCmdToken))

def createSubCommand (mem : SubMemory) (zCmdName zSubName : Bytes) (h : Handler) :
    Option (CmdInterp × CmdResult) :=
  if h.xProc = 0 then some (s, .error (.static "subcommand: invalid arguments"))
  else
    match s.lookupCommand zCmdName with
    | none => none
    | some none => some (s, .error (.message "no such command:" zCmdName))
    | some (some pCmd) =>
      match s.commands pCmd with
      | none => none
      | some cmd => s.createSubIn mem pCmd cmd zSubName h

def deleteSubCommand (token : ℕ) : Option (CmdInterp × CmdResult) :=
  match s.paSubToken with
  | none => some (s, .error (.static "subcommand not found (no token index)"))
  | some index =>
    match index token with
    | none => some (s, .error (.static "subcommand not found (token not matched)"))
    | some pSub =>
      match s.subCommands pSub with
      | none => none
      | some sub =>
        match s.commands sub.pParent with
        | none => none
        | some cmd =>
          match cmd.paSubCommands with
          | none => none
          | some T =>
            let T' := T.erase sub.zName
            let s₁ := s.removeSubTokenEntry sub
            some ({ s₁ with subCommands := update s₁.subCommands pSub none
                    }.setCommand sub.pParent
              { cmd with paSubCommands := if T'.entries = [] then none else some T' },
              .ok none)

/-! ## `Th8_SetCommandCopy`, `Th8_RenameCommand` and `Th8_DeleteCommand` -/

def resolveEntry (zName : Bytes) : Option (Option (NsId × Bytes)) :=
  match splitQualName zName with
  | (some zNs, zTail) => (s.findNamespace zNs).map fun pNs => pNs.map (·, zTail)
  | (none, _) => some (some (s.pCurrentNs, zName))

def setCommandCopy (zName : Bytes) (xCopy : Pointer) : Option CmdInterp :=
  match s.resolveEntry (cString zName) with
  | none => none
  | some none => some s
  | some (some (pNs, zTail)) =>
    match s.cmdTable pNs with
    | none => none
    | some paCmd =>
      match (paCmd.lookup zTail).join with
      | none => some s
      | some pCmd =>
        match s.commands pCmd with
        | none => none
        | some cmd => some (s.setCommand pCmd { cmd with xCopy := xCopy })

/-- The deletion half of `Th8_RenameCommand`.  Outside an evaluation the record goes at
once, and what its sub-command table refers to stays. -/
def deleteEntry (pNs : NsId) (zTail : Bytes) (pData : Option CmdId) : Option CmdInterp :=
  let s₁ := s.removeEntry pNs zTail
  match pData with
  | none => some s₁
  | some pCmd =>
    match s.commands pCmd with
    | none => none
    | some cmd =>
      let s₂ := s₁.removeCmdTokenEntry cmd
      if 0 < s.nEvalDepth then some { s₂ with pendingCmd := s₂.pendingCmd ++ [pCmd] }
      else some (s₂.releaseCommand pCmd)

/-- The requests for memory of `Th8_RenameCommand`. -/
structure RenameMemory where
  namespaces : ℕ → ChildMemory
  pNewEntry : Bool
  zQualName : Bool

/-- The namespace and the key of the new name.  A namespace that cannot be created is
used all the same. -/
def newEntryFor (mem : RenameMemory) (zNew : Bytes) : Option (CmdInterp × NsId × Bytes) :=
  match splitQualName zNew with
  | (some zNs, zTail) =>
    match s.toNsTree.findNamespaceEx mem.namespaces zNs with
    | some (t, .found pNs _) => (s.moveTo t).map fun s₁ => (s₁, pNs, zTail)
    | _ => none
  | (none, _) => some (s, s.pCurrentNs, zNew)

/-- The moving half of `Th8_RenameCommand`. -/
def moveEntry (mem : RenameMemory) (pNs : NsId) (zTail : Bytes) (pData : Option CmdId)
    (pNewNs : NsId) (zNewTail zNew : Bytes) : Option (CmdInterp × CmdResult) :=
  match s.cmdTable pNewNs with
  | none => none
  | some paNewCmd =>
    if (paNewCmd.lookup zNewTail).isSome then
      some (s, .error (.message "command exists:" zNew))
    else if !mem.pNewEntry then none
    else
      let s₁ := (s.setEntry pNewNs zNewTail pData).removeEntry pNs zTail
      match pData with
      | none => some (s₁, .ok none)
      | some pCmd =>
        match s.commands pCmd with
        | none => none
        | some cmd =>
          some (s₁.setCommand pCmd
            { cmd with zQualName := if mem.zQualName then some zNew else none }, .ok none)

def renameCommand (mem : RenameMemory) (zOld zNew : Bytes) : Option (CmdInterp × CmdResult) :=
  match s.resolveEntry zOld with
  | none => none
  | some none => some (s, .error (.message "no such command:" zOld))
  | some (some (pNs, zTail)) =>
    match s.cmdTable pNs with
    | none => none
    | some paCmd =>
      match paCmd.lookup zTail with
      | none => some (s, .error (.message "no such command:" zOld))
      | some pData =>
        if zNew = [] then (s.deleteEntry pNs zTail pData).map fun s₁ => (s₁, .ok none)
        else
          match s.newEntryFor mem zNew with
          | none => none
          | some (s₁, pNewNs, zNewTail) =>
            s₁.moveEntry mem pNs zTail pData pNewNs zNewTail zNew

def deleteCommand (token : ℕ) : Option (CmdInterp × CmdResult) :=
  match s.paCmdToken with
  | none => some (s, .error (.static "command not found (no token index)"))
  | some index =>
    match index token with
    | none => some (s, .error (.static "command not found (token not matched)"))
    | some pCmd =>
      match s.commands pCmd with
      | none => none
      | some cmd =>
        match cmd.zQualName with
        | some (c :: zQualName) =>
          s.renameCommand ⟨fun _ => ⟨false, false, false, false, false, false⟩, false, false⟩
            (c :: zQualName) []
        | _ => some (s, .error (.static "command not found (no stored name)"))

end CmdInterp

end Th8
