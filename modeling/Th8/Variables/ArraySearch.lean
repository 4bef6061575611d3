import Th8.Bigint.Library
import Th8.Hash.Cursor
import Th8.Variables.Store

/-!
# Array searches

`array startsearch` keeps a pointer into the element table of an array.  Before the pointer
is followed, `th8ArraySearchFind` compares the generation of the table and the epoch of the
array with those that the search has recorded.

Records, element tables and their entries have addresses, which can be used again once they
are freed.  Counters do not overflow: the overflow of an `int` has no meaning.
-/

namespace Th8

open Bigint
open Function (update update_of_ne update_self)

namespace ArraySearch

/-! ## The variables -/

/-- `Th8_Variable`, as far as it is an array; `pHash` is an address. -/
structure ArrayVar where
  pHash : Option ℕ
  nEpoch : ℕ
  nGeneration : ℕ
deriving DecidableEq

/-- The names of the current frame and of the global one, the records to which they lead, and
the element tables. -/
structure Store where
  frame : Bytes → Option VarId
  globalFrame : Bytes → Option VarId
  vars : VarId → Option ArrayVar
  tables : ℕ → Option (HashTable VarId)
  iArrayHashGeneration : ℕ

namespace Store

def init : Store := ⟨fun _ => none, fun _ => none, fun _ => none, fun _ => none, 0⟩

def outerVar (s : Store) (zVar : Bytes) : Option VarId :=
  let name := analyzeVarName zVar
  (if name.bGlobal then s.globalFrame else s.frame) name.zOuter

def arrayVar (s : Store) (zVar : Bytes) : Option ArrayVar :=
  ((s.outerVar zVar).bind s.vars).filter (·.pHash.isSome)

/-- `Th8_ExistsArrayVar`.  It does not look at a subscript. -/
def existsArrayVar (s : Store) (zVar : Bytes) : Bool := (s.arrayVar zVar).isSome

def bareArrayVar (s : Store) (zVar : Bytes) : Option ArrayVar :=
  if (analyzeVarName zVar).zInner.isSome then none else s.arrayVar zVar

def getArrayElementHash (s : Store) (zVar : Bytes) : Option ℕ :=
  (s.bareArrayVar zVar).bind (·.pHash)

def getArrayEpoch (s : Store) (zVar : Bytes) : ℤ :=
  match s.bareArrayVar zVar with
  | some v => v.nEpoch
  | none => -1

def getArrayGeneration (s : Store) (zVar : Bytes) : ℤ :=
  match s.bareArrayVar zVar with
  | some v => v.nGeneration
  | none => -1

def elements (s : Store) (r : VarId) : List Bytes :=
  match (s.vars r).bind fun v => v.pHash.bind s.tables with
  | some t => t.keys
  | none => []

/-- An element table for a record that has none, at the address `tid`. -/
def newHash (s : Store) (r : VarId) (v : ArrayVar) (tid : ℕ) : Store :=
  { s with
    vars := update s.vars r (some ⟨some tid, v.nEpoch, s.iArrayHashGeneration + 1⟩)
    tables := update s.tables tid (some .new)
    iArrayHashGeneration := s.iArrayHashGeneration + 1 }

/-- The table of a record is now `t`; the epoch counts the change. -/
def changeTable (s : Store) (r : VarId) (v : ArrayVar) (tid : ℕ) (t : HashTable VarId) : Store :=
  { s with
    vars := update s.vars r (some { v with nEpoch := v.nEpoch + 1 })
    tables := update s.tables tid (some t) }

/-- The end of `th8FindValue` for an element, with creation: its entry, made at the address
`id` if there is none, and its variable `e`. -/
def createEntry (seed : HashSeed) (s : Store) (r : VarId) (zInner : Bytes) (id : ℕ) (e : VarId) :
    Store :=
  match s.vars r with
  | none => s
  | some v =>
    match v.pHash with
    | none => s
    | some tid =>
      match s.tables tid with
      | none => s
      | some t =>
        match t.hashFind seed zInner (.insert true true id) with
        | (_, none) => s
        | (t, some pEntry) =>
          s.changeTable r v tid (if pEntry.pData.isNone then t.setData pEntry.id (some e) else t)

/-- The part of `th8FindValue` behind `check_array`, with creation.  The table is made at the
address `tid` if there is none. -/
def createElement (seed : HashSeed) (s : Store) (r : VarId) (zInner : Bytes) (tid id : ℕ)
    (e : VarId) : Store :=
  match s.vars r with
  | none => s
  | some v =>
    if v.pHash.isNone then (s.newHash r v tid).createEntry seed r zInner id e
    else s.createEntry seed r zInner id e

/-- `Th8_UnsetVar` for an element of the record `r`. -/
def unsetElement (seed : HashSeed) (s : Store) (r : VarId) (zInner : Bytes) : Store :=
  match s.vars r with
  | none => s
  | some v =>
    match v.pHash with
    | none => s
    | some tid =>
      match s.tables tid with
      | none => s
      | some t =>
        if (t.hashFind seed zInner .find).2.isNone then s
        else s.changeTable r v tid (t.hashFind seed zInner .delete).1

/-- The end of `th8FreeVariable`, when the last reference to the record is given up. -/
def freeVariable (s : Store) (r : VarId) : Store :=
  match s.vars r with
  | none => s
  | some v =>
    { s with
      vars := update s.vars r none
      tables := match v.pHash with
        | none => s.tables
        | some tid => update s.tables tid none }

end Store

/-- What happens to the variables.  Calls, returns, links and the removal of names change
where the names lead; a record is allocated, and freed with its elements; an element is
written, through whichever name, or unset. -/
inductive StoreOp where
  | rebind (frame globalFrame : Bytes → Option VarId)
  | alloc (r : VarId)
  | free (r : VarId)
  | write (r : VarId) (zInner : Bytes) (tid id : ℕ) (e : VarId)
  | unset (r : VarId) (zInner : Bytes)

def storeStep (seed : HashSeed) (s : Store) : StoreOp → Store
  | .rebind frame globalFrame => { s with frame := frame, globalFrame := globalFrame }
  | .alloc r => { s with vars := update s.vars r (some ⟨none, 0, 0⟩) }
  | .free r => s.freeVariable r
  | .write r zInner tid id e => s.createElement seed r zInner tid id e
  | .unset r zInner => s.unsetElement seed r zInner

def StoreOp.Granted (s : Store) : StoreOp → Prop
  | .alloc r => s.vars r = none
  | .write r _ tid id _ =>
    (∀ v, s.vars r = some v → v.pHash = none → s.tables tid = none) ∧
      ∀ tid' t i, s.tables tid' = some t → ∀ p ∈ t.aBucket i, p.id ≠ id
  | _ => True

/-! ## The searches -/

/-- `th8ArraySearch`. -/
structure Search where
  zArray : Bytes
  pArrayHash : Option ℕ
  nEpoch : ℤ
  nGeneration : ℤ
  cursor : Cursor
deriving DecidableEq

/-- An interpreter: its variables, the search hash by search ids, and the counter of
searches. -/
structure State where
  store : Store
  searches : Bytes → Option Search
  iArraySearchCounter : ℕ

def State.init : State := ⟨.init, fun _ => none, 0⟩

inductive SearchError where
  | notArray (zArray : Bytes)
  | noSearch (zSid : Bytes)
  | refused
deriving DecidableEq

/-- What a command replies; a pointer that leads to no entry any more is `dangling`. -/
inductive Reply where
  | ok (z : Bytes)
  | error (e : SearchError)
  | dangling
deriving DecidableEq

/-- `th8ArraySearchFind`: the search, unless it is unknown or stale, and the search hash,
from which a stale search is removed. -/
def searchFind (s : State) (zSid zArray : Bytes) : Option Search × State :=
  match s.searches zSid with
  | none => (none, s)
  | some p =>
    let invalidate := { s with searches := update s.searches zSid none }
    if p.zArray ≠ zArray then (none, s)
    else if s.store.getArrayElementHash p.zArray = none then (none, invalidate)
    else if s.store.getArrayGeneration p.zArray ≠ p.nGeneration then (none, invalidate)
    else if s.store.getArrayEpoch p.zArray ≠ p.nEpoch then (none, invalidate)
    else (some p, s)

def searchId (counter : ℕ) (zArray : Bytes) : Bytes :=
  let zSid := ascii "s-" ++ decimal counter ++ 0x2d :: zArray.takeWhile (· != 0)
  if 64 ≤ zSid.length then ascii "s-" ++ decimal counter ++ ascii "-array" else zSid

/-- `array_startsearch_command`.  The name is copied by its length word as it is, for which
no block is granted if the word carries a tag. -/
def startSearch (s : State) (zArray : TString) : State × Reply :=
  if !s.store.existsArrayVar zArray.bytes then (s, .error (.notArray zArray.bytes))
  else if zArray.tags ≠ Tags.clean then (s, .error .refused)
  else
    let pArrayHash := s.store.getArrayElementHash zArray.bytes
    let cursor : Cursor :=
      match pArrayHash.bind s.store.tables with
      | some t => t.startCursor
      | none => ⟨0, none⟩
    let pSearch : Search :=
      ⟨zArray.bytes, pArrayHash, s.store.getArrayEpoch zArray.bytes,
        s.store.getArrayGeneration zArray.bytes, cursor⟩
    let zSid := searchId (s.iArraySearchCounter + 1) zArray.bytes
    ({ s with
        searches := update s.searches zSid (some pSearch)
        iArraySearchCounter := s.iArraySearchCounter + 1 }, .ok zSid)

/-- `array_nextelement_command`. -/
def nextElement (s : State) (zArray zSid : Bytes) : State × Reply :=
  match searchFind s zSid zArray with
  | (none, s) => (s, .error (.noSearch zSid))
  | (some p, s) =>
    match p.cursor.pCursor with
    | none => (s, .ok [])
    | some pCur =>
      match p.pArrayHash.bind s.store.tables with
      | none => (s, .dangling)
      | some t =>
        match t.chainFrom p.cursor.iBucket pCur with
        | [] => (s, .dangling)
        | entry :: rest =>
          let cursor := t.advance p.cursor.iBucket (rest.head?.map (·.id))
          ({ s with
              searches := update s.searches zSid (some { p with cursor := cursor }) },
            .ok entry.zKey)

/-- `array_anymore_command`. -/
def anyMore (s : State) (zArray zSid : Bytes) : State × Reply :=
  match searchFind s zSid zArray with
  | (none, s) => (s, .error (.noSearch zSid))
  | (some p, s) => (s, .ok (decimal (if p.cursor.pCursor.isSome then 1 else 0)))

/-- `array_donesearch_command`. -/
def doneSearch (s : State) (zArray zSid : Bytes) : State × Reply :=
  match searchFind s zSid zArray with
  | (none, s) => (s, .error (.noSearch zSid))
  | (some _, s) => ({ s with searches := update s.searches zSid none }, .ok [])

inductive Op where
  | store (op : StoreOp)
  | startSearch (zArray : TString)
  | nextElement (zArray zSid : Bytes)
  | anyMore (zArray zSid : Bytes)
  | doneSearch (zArray zSid : Bytes)

def step (seed : HashSeed) (s : State) : Op → State × Reply
  | .store op => ({ s with store := storeStep seed s.store op }, .ok [])
  | .startSearch zArray => startSearch s zArray
  | .nextElement zArray zSid => nextElement s zArray zSid
  | .anyMore zArray zSid => anyMore s zArray zSid
  | .doneSearch zArray zSid => doneSearch s zArray zSid

def Op.Granted (s : State) : Op → Prop
  | .store op => op.Granted s.store
  | _ => True

end ArraySearch
end Th8
