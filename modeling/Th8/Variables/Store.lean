import Mathlib
import Th8.Command.Registry

/-!
# Variables, links and secure variables

A variable name leads through a frame, the global frame or a namespace to a
record, and with a subscript further to an element of the record's array.  Links
make several names lead to one record.  The value of a secure variable is not in
its record: it is encrypted in a table of the interpreter whose key is the name
as it was spelled.

Records have identities, as pointers do in the source.  Key generation,
encryption and allocation succeed here, and decryption returns what was
encrypted.  Epochs, wait counters and the append cache are left out.
-/

namespace Th8

open Support
open Function (update)

/-- A variable name taken apart by `th8AnalyzeVarName`. -/
structure VarName where
  bGlobal : Bool
  zOuter : Bytes
  zInner : Option Bytes
deriving DecidableEq

def hasGlobalPrefix (zVar : Bytes) : Bool :=
  2 < zVar.length && isAbsolute zVar

def splitSubscript (zOuter : Bytes) : Bytes × Option Bytes :=
  if zOuter.getLast? = some chCloseParen ∧ chOpenParen ∈ zOuter then
    let i := zOuter.idxOf chOpenParen
    (zOuter.take i, some ((zOuter.drop (i + 1)).take (zOuter.length - i - 2)))
  else (zOuter, none)

def analyzeVarName (zVar : Bytes) : VarName :=
  let zName := if hasGlobalPrefix zVar then zVar.drop 2 else zVar
  ⟨hasGlobalPrefix zVar, (splitSubscript zName).1, (splitSubscript zName).2⟩

/-! ## Records and tables -/

abbrev VarId := ℕ

/-- `paVar`, `pHash`: keys and the records they lead to. -/
abbrev Table := List (Bytes × VarId)

structure Variable where
  zData : Option TString
  pHash : Option Table
  nRef : ℕ
  bBorrowed : Bool
  nAlloc : ℕ
deriving DecidableEq

def Variable.new : Variable := ⟨none, none, 1, false, 0⟩

def Variable.bytes (v : Variable) : Bytes := (v.zData.map TString.bytes).getD []

/-- The variables of an interpreter.  `paSecure` holds the metadata of secure
variables, by their decrypted values.  The last two fields are read by no
function: the records that `th8SecureVarCreate` made, and the bytes that were
last written to each record. -/
structure VarState where
  procFrames : List Table
  globalFrame : Table
  namespaces : List NsPath
  nsVars : NsPath → Table
  heap : VarId → Variable
  nextVar : VarId
  paSecure : Bytes → Option Bytes
  nUsed : ℕ
  secured : VarId → Bool
  written : VarId → Bytes

def VarState.init : VarState where
  procFrames := []
  globalFrame := []
  namespaces := [[]]
  nsVars := fun _ => []
  heap := fun _ => Variable.new
  nextVar := 0
  paSecure := fun _ => none
  nUsed := 0
  secured := fun _ => false
  written := fun _ => []

/-- Where `th8FindValue` looks a name up: under a key of the frame `up` levels above
the innermost one, of the global frame or of a namespace. -/
inductive VarPlace where
  | frame (up : ℕ) (key : Bytes)
  | global (key : Bytes)
  | ns (path : NsPath) (key : Bytes)
deriving DecidableEq

/-- The first half of `th8FindValue`.  The path of a namespace is built behind a
pair of colons. -/
def varPlace (up : ℕ) (name : VarName) : VarPlace :=
  if !name.bGlobal then .frame up name.zOuter
  else
    match splitQualName name.zOuter with
    | (some zNsPath, zTail) =>
      .ns (namespacePath [] (chColon :: chColon :: zNsPath)) zTail
    | (none, _) => .global name.zOuter

def VarPlace.key : VarPlace → Bytes
  | .frame _ key | .global key | .ns _ key => key

namespace VarState

def frames (s : VarState) : List Table := s.procFrames ++ [s.globalFrame]

/-- The table of the frame `up` levels above the innermost one. -/
def frameAt (s : VarState) (up : ℕ) : Table := s.procFrames[up]?.getD s.globalFrame

def table (s : VarState) : VarPlace → Table
  | .frame up _ => s.frameAt up
  | .global _ => s.globalFrame
  | .ns path _ => s.nsVars path

def outer (s : VarState) (place : VarPlace) : Option VarId :=
  (s.table place).lookup place.key

end VarState

/-- `th8FindValue` without creation, where the current frame is the one `up` levels
above the innermost one. -/
def findValueAt (s : VarState) (up : ℕ) (zVar : Bytes) : Option VarId :=
  let name := analyzeVarName zVar
  match s.outer (varPlace up name), name.zInner with
  | none, _ => none
  | some r, none => some r
  | some r, some zInner => (s.heap r).pHash.bind fun pHash => pHash.lookup zInner

def findValue (s : VarState) (zVar : Bytes) : Option VarId := findValueAt s 0 zVar

def VarState.alloc (s : VarState) : VarState × VarId :=
  ({ s with
    heap := update s.heap s.nextVar Variable.new
    nextVar := s.nextVar + 1 }, s.nextVar)

def VarState.insert (s : VarState) (r : VarId) : VarPlace → VarState
  | .frame up key =>
    if up < s.procFrames.length then
      { s with procFrames := s.procFrames.set up ((key, r) :: s.frameAt up) }
    else { s with globalFrame := (key, r) :: s.globalFrame }
  | .global key => { s with globalFrame := (key, r) :: s.globalFrame }
  | .ns path key =>
    { s with nsVars := update s.nsVars path ((key, r) :: s.nsVars path) }

/-- The namespaces a place needs, created as `th8FindNamespace` does; nothing when
the path is too deep. -/
def VarState.ensureNs (s : VarState) : VarPlace → Option VarState
  | .ns path _ =>
    if s.namespaces.contains path then some s
    else if mxNsDepth < path.length then none
    else some { s with namespaces := path.inits ++ s.namespaces }
  | _ => some s

def VarState.createOuter (s : VarState) (place : VarPlace) : Option (VarState × VarId) :=
  (s.ensureNs place).map fun s₁ =>
    match s₁.outer place with
    | some r => (s₁, r)
    | none => (s₁.alloc.1.insert s₁.alloc.2 place, s₁.alloc.2)

/-- The record `r` with the array `pHash`. -/
def VarState.setHash (s : VarState) (r : VarId) (pHash : Table) : VarState :=
  { s with heap := update s.heap r { s.heap r with pHash := some pHash } }

def VarState.createElem (s : VarState) (r : VarId) (pHash : Table) (zInner : Bytes) :
    VarState × VarId :=
  match pHash.lookup zInner with
  | some e => (s.setHash r pHash, e)
  | none => (s.alloc.1.setHash r ((zInner, s.alloc.2) :: pHash), s.alloc.2)

/-- `th8FindValue` with creation. -/
def createValue (s : VarState) (up : ℕ) (zVar : Bytes) : Except Failure (VarState × VarId) :=
  let name := analyzeVarName zVar
  match s.createOuter (varPlace up name) with
  | none => .error .silent
  | some (s₁, r) =>
    match name.zInner, (s₁.heap r).pHash with
    | none, _ => .ok (s₁, r)
    | some zInner, some pHash => .ok (s₁.createElem r pHash zInner)
    | some zInner, none =>
      if (s₁.heap r).zData.isSome then
        .error (.message "variable is a scalar:" name.zOuter)
      else .ok (s₁.createElem r [] zInner)

def isSecureVar (s : VarState) (zVar : Bytes) : Bool := (s.paSecure zVar).isSome

/-- What a read returns: the value, and whether `th8SecureGetVar` decrypted it. -/
structure VarRead where
  value : TString
  decrypted : Bool
deriving DecidableEq

def getVar (s : VarState) (zVar : Bytes) : Except Failure VarRead :=
  match findValue s zVar with
  | none => .error (.message "no such variable: \"" zVar)
  | some r =>
    if (s.heap r).pHash.isSome then .error (.message "variable is an array: \"" zVar)
    else
      match s.paSecure zVar with
      | some zPlain => .ok ⟨⟨zPlain, ⟨false, true⟩⟩, true⟩
      | none => .ok ⟨((s.heap r).zData.getD (TString.plain [])), false⟩

def existsVar (s : VarState) (zVar : Bytes) : Bool :=
  match findValue s zVar with
  | none => false
  | some r => (s.heap r).zData.isSome || (s.heap r).pHash.isSome

/-- The end of `Th8_SetVar` and of `th8SetVarValue`: the value goes to the record,
and when the name is a secure one it is encrypted and the record is emptied. -/
def VarState.store (s : VarState) (zVar : Bytes) (r : VarId) (v : TString)
    (bBorrowed : Bool) (nAlloc : ℕ) (zWritten : Bytes) : VarState :=
  let s₁ := { s with written := update s.written r zWritten }
  if isSecureVar s zVar then
    { s₁ with
      paSecure := update s.paSecure zVar (some v.bytes)
      heap := update s.heap r { s.heap r with
        zData := some (TString.plain []), bBorrowed := false, nAlloc := 0 } }
  else
    { s₁ with heap := update s.heap r { s.heap r with
        zData := some v, bBorrowed := bBorrowed, nAlloc := nAlloc } }

def setVar (s : VarState) (zVar : Bytes) (v : TString) : VarState × Except Failure Unit :=
  match createValue s 0 zVar with
  | .error e => (s, .error e)
  | .ok (s₁, r) =>
    if (s₁.heap r).pHash.isSome then
      (s₁, .error (.message "can't set variable (is array):" zVar))
    else (s₁.store zVar r v false 0 v.bytes, .ok ())

def concatArgs (args : List TString) : TString :=
  ⟨(args.map TString.bytes).flatten, (args.map TString.tags).foldl (· ||| ·) Tags.clean⟩

/-- The capacity the append command allocates: the first power of two from 64 on
that is no less than `nAlloc`. -/
def appendCapacity (nAlloc : ℕ) : ℕ := max 64 (2 ^ Nat.clog 2 nAlloc)

/-- `th8AppendInPlace`: a record that borrows a buffer with room left. -/
def appendInPlace (s : VarState) (zVar : Bytes) (app : TString) : Option VarState :=
  match findValue s zVar with
  | none => none
  | some r =>
    let v := s.heap r
    if v.bBorrowed && v.nAlloc != 0 && v.bytes.length + app.bytes.length < v.nAlloc then
      some { s with
        heap := update s.heap r { v with
          zData := v.zData.map fun z => ⟨z.bytes ++ app.bytes, z.tags ||| app.tags⟩ }
        written := update s.written r (s.written r ++ app.bytes) }
    else none

/-- `append_command` with at least one value.  When `th8SetVarValue` refuses, the
loop over `Th8_SetVar` that follows is refused in the same way. -/
def appendVar (s : VarState) (zVar : Bytes) (args : List TString) : VarState :=
  let app := concatArgs args
  match appendInPlace s zVar app with
  | some s' => s'
  | none =>
    let cur := match getVar s zVar with
      | .ok res => res.value
      | .error _ => TString.plain []
    let v : TString := ⟨cur.bytes ++ app.bytes, cur.tags ||| app.tags⟩
    match createValue s 0 zVar with
    | .error _ => s
    | .ok (s₁, r) =>
      if (s₁.heap r).pHash.isSome then s₁
      else s₁.store zVar r v true (appendCapacity (2 * (v.bytes.length + 1)))
        (s.written r ++ app.bytes)

/-! ## Unsetting, linking and frames -/

/-- `th8FreeVariable`, as far as a reference count is concerned: records are not
reused. -/
def decRef (heap : VarId → Variable) (r : VarId) : VarId → Variable :=
  update heap r { heap r with nRef := (heap r).nRef - 1 }

/-- The frames without the entry that is unset, which is in the global frame or in
the innermost one, and without the entries of a shared record elsewhere. -/
def VarState.unlink (s : VarState) (inGlobal : Bool) (zOuter : Bytes) (r : VarId) :
    List Table × Table :=
  let here : Table → Table := List.filter fun p => p.1 != zOuter
  let elsewhere : Table → Table := fun t =>
    if 1 < (s.heap r).nRef then t.filter fun p => p.2 != r else t
  if inGlobal then (s.procFrames.map elsewhere, here s.globalFrame)
  else
    ((s.procFrames.take 1).map here ++ (s.procFrames.drop 1).map elsewhere, elsewhere s.globalFrame)

def unsetVar (s : VarState) (zVar : Bytes) : VarState × Except Failure Unit :=
  let name := analyzeVarName zVar
  let inGlobal := name.bGlobal || s.procFrames.isEmpty
  let t := if inGlobal then s.globalFrame else s.frameAt 0
  let notFound := (s, .error (.message "no such variable:" zVar))
  match t.lookup name.zOuter, name.zInner with
  | none, _ => notFound
  | some r, some zInner =>
    match (s.heap r).pHash with
    | none => notFound
    | some pHash =>
      match pHash.lookup zInner with
      | none => notFound
      | some e =>
        ({ s with heap := decRef s.heap e }.setHash r (pHash.filter fun p => p.1 != zInner), .ok ())
  | some r, none =>
    let (procFrames, globalFrame) := s.unlink inGlobal name.zOuter r
    let removed := (s.frames.map List.length).sum -
      ((procFrames.map List.length).sum + globalFrame.length)
    ({ s with
      procFrames := procFrames
      globalFrame := globalFrame
      heap := update s.heap r
        { s.heap r with nRef := (s.heap r).nRef - removed } }, .ok ())

/-- The number of frames to go up for an `iFrame` argument of `Th8_LinkVar`. -/
def framesUp (s : VarState) (iFrame : ℤ) : ℕ :=
  if 0 ≤ iFrame then ((s.frames.length : ℤ) - 1 - iFrame).toNat else (-iFrame).toNat

def linkVar (s : VarState) (zLocal : Bytes) (iFrame : ℤ) (zRemote : Bytes) :
    VarState × Except Failure Unit :=
  if s.procFrames.length < framesUp s iFrame then
    (s, .error (.message "no such frame:" zLocal))
  else
    match createValue s (framesUp s iFrame) zRemote with
    | .error _ => (s, .error (.message "no such variable:" zRemote))
    | .ok (s₁, r) =>
      if ((s₁.frameAt 0).lookup zLocal).isSome then
        (s₁, .error (.message "variable exists:" zLocal))
      else
        ({ s₁.insert r (.frame 0 zLocal) with
          heap := update s₁.heap r
            { s₁.heap r with nRef := (s₁.heap r).nRef + 1 } }, .ok ())

def pushFrame (s : VarState) : VarState := { s with procFrames := [] :: s.procFrames }

/-- `th8PopFrame`, of a procedure frame. -/
def popFrame (s : VarState) : VarState :=
  match s.procFrames with
  | [] => s
  | f :: callers =>
    { s with
      procFrames := callers
      heap := (f.map Prod.snd).foldl decRef s.heap }

/-- `TH8_SECURE_MAX_SLOTS`, less the slot of the canary. -/
def mxSecureVars : ℕ := 127

def secureVarCreate (s : VarState) (zVar : Bytes) (v : Bytes) : VarState × Except Failure Unit :=
  if existsVar s zVar then
    (s, .error (.message "cannot modify existing variable \"" zVar))
  else if chOpenParen ∈ zVar then
    (s, .error (.static "secure: array elements not supported"))
  else if mxSecureVars ≤ s.nUsed then
    (s, .error (.static "secure: maximum number of secure variables reached (127)"))
  else
    match setVar s zVar (TString.plain []) with
    | (s₁, .error e) => (s₁, .error e)
    | (s₁, .ok ()) =>
      let s₂ := { s₁ with
        paSecure := update s₁.paSecure zVar (some v)
        nUsed := s₁.nUsed + 1 }
      match findValue s₁ zVar with
      | none => (s₂, .ok ())
      | some r =>
        ({ s₂ with
          secured := update s₁.secured r true
          written := update s₁.written r v }, .ok ())

inductive VarOp where
  | secureCreate (zVar v : Bytes)
  | set (zVar : Bytes) (v : TString)
  | append (zVar : Bytes) (args : List TString)
  | link (zLocal : Bytes) (iFrame : ℤ) (zRemote : Bytes)
  | unset (zVar : Bytes)
  | push
  | pop
deriving DecidableEq

def varStep (s : VarState) : VarOp → VarState
  | .secureCreate zVar v => (secureVarCreate s zVar v).1
  | .set zVar v => (setVar s zVar v).1
  | .append zVar args => appendVar s zVar args
  | .link zLocal iFrame zRemote => (linkVar s zLocal iFrame zRemote).1
  | .unset zVar => (unsetVar s zVar).1
  | .push => pushFrame s
  | .pop => popFrame s

end Th8
