import Th8.Core.Value
import Th8.Support.Outcome
import Th8.Support.Transition

/-!
# The command registry

Commands live in the hash tables of namespaces.  A second index leads from a
command's token to its record, for deletion by token.  The record keeps the name
the command was created or renamed with, as it was spelled; deletion by token
resolves that spelling again, from the namespace that is current by then.

A namespace is its path from the global namespace.  Records have identities, as
pointers do in the source: the tables and the token index refer to a record, and
a rename moves it without changing it.  Allocation always succeeds here.
-/

namespace Th8

open Support

abbrev NsPath := List Bytes

def lastSeparator : Bytes → Option ℕ
  | [] => none
  | c :: rest =>
    match lastSeparator rest with
    | some i => some (i + 1)
    | none =>
      if c == chColon && rest.head? == some chColon then some 0 else none

/-- Back up to the first colon of the run that ends before index `n`. -/
def backUpColons (z : Bytes) : ℕ → ℕ
  | 0 => 0
  | n + 1 => if z[n]? == some chColon then backUpColons z n else n + 1

/-- `th8SplitQualName`: the namespace part, if the name has one, and the tail. -/
def splitQualName (zName : Bytes) : Option Bytes × Bytes :=
  match lastSeparator zName with
  | some i =>
    let nLast := backUpColons zName i
    (some (zName.take nLast), zName.drop (nLast + 2))
  | none => (none, zName)

/-- The path components of a namespace name; `zComp` holds the bytes of the
component being read. -/
def nsComponentsFrom (zComp : Bytes) : Bytes → List Bytes
  | [] => if zComp = [] then [] else [zComp]
  | [c] => [zComp ++ [c]]
  | c :: d :: rest =>
    if c == chColon && d == chColon then
      (if zComp = [] then [] else [zComp]) ++ nsComponentsFrom [] rest
    else nsComponentsFrom (zComp ++ [c]) (d :: rest)

def nsComponents (zName : Bytes) : List Bytes := nsComponentsFrom [] zName

def isAbsolute : Bytes → Bool
  | c :: d :: _ => c == chColon && d == chColon
  | _ => false

/-- Where the walk of `th8FindNamespaceEx` leads, if every step of it exists. -/
def namespacePath (current : NsPath) (zName : Bytes) : NsPath :=
  if zName = [] then []
  else if isAbsolute zName then nsComponents (zName.drop 2)
  else current ++ nsComponents zName

def resolveName (current : NsPath) (zName : Bytes) : NsPath × Bytes :=
  match splitQualName zName with
  | (some zNs, zTail) => (namespacePath current zNs, zTail)
  | (none, zTail) => (current, zTail)

/-! ## Records and tables -/

/-- The fields of `Th8_Command` that the registry reads: its token and the name it
was created or renamed with. -/
structure Command where
  nToken : ℕ
  zQualName : Bytes
deriving DecidableEq

abbrev CmdId := ℕ

/-- The part of the interpreter that holds commands.  The token index is absent
until the first command is created. -/
structure CmdState where
  current : NsPath
  namespaces : List NsPath
  paCmd : NsPath × Bytes → Option CmdId
  paCmdToken : Option (ℕ → Option CmdId)
  heap : CmdId → Command
  nextCmd : CmdId
  nNextCmdToken : ℕ

def CmdState.init : CmdState where
  current := []
  namespaces := [[]]
  paCmd := fun _ => none
  paCmdToken := none
  heap := fun _ => ⟨0, []⟩
  nextCmd := 0
  nNextCmdToken := 1

def CmdState.tokenEntry (s : CmdState) (token : ℕ) : Option CmdId :=
  s.paCmdToken.bind fun index => index token

def mxNsDepth : ℕ := 1000

/-- `th8FindNamespace` with creation: the state with the namespaces on the way to
`path` added, or nothing when the path is too deep. -/
def CmdState.createNamespace (s : CmdState) (path : NsPath) : Option CmdState :=
  if path ∈ s.namespaces then some s
  else if mxNsDepth < path.length then none
  else some { s with namespaces := path.inits ++ s.namespaces }

/-- What a call returned.  `crash` is the null pointer dereference of a rename
into a namespace that cannot be created. -/
inductive CmdResult where
  | ok (token : Option ℕ)
  | error (e : Failure)
  | crash
deriving DecidableEq

/-- `th8RemoveCmdTokenEntry`. -/
def CmdState.removeTokenEntry (s : CmdState) (id : CmdId) : CmdState :=
  if (s.heap id).nToken = 0 then s
  else { s with
    paCmdToken := s.paCmdToken.map fun index =>
      Function.update index (s.heap id).nToken none }

/-- The commit of `Th8_CreateCommand`: the record `id` gets a fresh token and the
name as spelled, and is entered in its table and in the token index. -/
def CmdState.publish (s : CmdState) (id : CmdId) (key : NsPath × Bytes)
    (zName : Bytes) : CmdState :=
  { s with
    heap := Function.update s.heap id ⟨s.nNextCmdToken, zName⟩
    paCmd := Function.update s.paCmd key (some id)
    paCmdToken := some (Function.update (s.paCmdToken.getD fun _ => none) s.nNextCmdToken (some id))
    nNextCmdToken := s.nNextCmdToken + 1 }

def createCommand (s : CmdState) (zName : Bytes) : CmdState × CmdResult :=
  let key := resolveName s.current zName
  match s.createNamespace key.1 with
  | none => (s, .error (.static "out of memory"))
  | some s₁ =>
    match s₁.paCmd key with
    | some old =>
      ((s₁.removeTokenEntry old).publish old key zName, .ok (some s.nNextCmdToken))
    | none =>
      ({ s₁ with nextCmd := s₁.nextCmd + 1 }.publish s₁.nextCmd key zName,
        .ok (some s.nNextCmdToken))

/-- `Th8_RenameCommand`.  An empty new name deletes the command. -/
def renameCommand (s : CmdState) (zOld zNew : Bytes) : CmdState × CmdResult :=
  let old := resolveName s.current zOld
  if old.1 ∉ s.namespaces then (s, .error (.message "no such command:" zOld))
  else
    match s.paCmd old with
    | none => (s, .error (.message "no such command:" zOld))
    | some id =>
      if zNew = [] then
        let s₁ := { s with paCmd := Function.update s.paCmd old none }
        (s₁.removeTokenEntry id, .ok none)
      else
        let new := resolveName s.current zNew
        match s.createNamespace new.1 with
        | none => (s, .crash)
        | some s₁ =>
          match s₁.paCmd new with
          | some _ => (s₁, .error (.message "command exists:" zNew))
          | none =>
            ({ s₁ with
              paCmd := Function.update (Function.update s₁.paCmd new (some id)) old none
              heap := Function.update s₁.heap id
                { s₁.heap id with zQualName := zNew } }, .ok none)

def deleteCommand (s : CmdState) (token : ℕ) : CmdState × CmdResult :=
  match s.paCmdToken with
  | none => (s, .error (.static "command not found (no token index)"))
  | some index =>
    match index token with
    | none => (s, .error (.static "command not found (token not matched)"))
    | some id =>
      if (s.heap id).zQualName = [] then
        (s, .error (.static "command not found (no stored name)"))
      else renameCommand s (s.heap id).zQualName []

/-- A change of the current namespace, as `namespace eval` makes it. -/
def setNamespace (s : CmdState) (zNs : Bytes) : CmdState × CmdResult :=
  let path := namespacePath s.current zNs
  match s.createNamespace path with
  | none => (s, .error (.static "namespace nested too deeply"))
  | some s₁ => ({ s₁ with current := path }, .ok none)

inductive CmdOp where
  | create (zName : Bytes)
  | rename (zOld zNew : Bytes)
  | delete (token : ℕ)
  | setNamespace (zNs : Bytes)
deriving DecidableEq

def CmdOp.run (s : CmdState) : CmdOp → CmdState × CmdResult
  | .create zName => createCommand s zName
  | .rename zOld zNew => renameCommand s zOld zNew
  | .delete token => deleteCommand s token
  | .setNamespace zNs => Th8.setNamespace s zNs

def cmdStep (s : CmdState) (op : CmdOp) : CmdState := (op.run s).1

end Th8
