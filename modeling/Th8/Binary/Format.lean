import Th8.Bigint.Arith
import Th8.Binary.Fields
import Th8.Lists.Append

/-!
# `binary format`

The command carries out one token after the other on a buffer with a cursor.  A value
specifier takes arguments and writes at the cursor; `x`, `X` and `@` move it.  The result is
as long as the farthest place the cursor has been at.
-/

namespace Th8

open Support
open Bigint (MpLib)

namespace Binary

/-- What a command asks the interpreter for: a poll, a block of memory, which is refused at
the latest above `TH8_MX_ALLOC`, and the value of a variable. -/
inductive Request where
  | ready
  | alloc (nByte : ℕ)
  | setVar (zVarName zValue : Bytes)
deriving DecidableEq

abbrev Run (α : Type) := Traced Request Failure α

/-- What does not change while a command runs: the byte order of the host, the library of
large integers and whether it is enabled, the floating-point numbers, and the limit on
results. -/
structure Env where
  native : Order
  mp : MpLib
  bBigint : Bool
  floats : FloatLib
  nResultLimit : ℕ

/-- `TH8_ALLOC`. -/
def allocate (nByte : ℕ) : Run Unit := Traced.request (.alloc nByte)

def messageLength : Failure → ℕ
  | .message zPre z => zPre.length + z.length + 1
  | .static z => z.length
  | .silent => 0
  | .suspend => 0

/-- `Th8_SplitList` for the elements of a list, which is no longer than its length word can
say. -/
def splitArg (zList : Bytes) : Except Failure (List Bytes) :=
  let r := uncachedSplit eagleSplitList
    ⟨zList.take lenMask, Tags.clean, true, true, true, false, List.length_take_le _ _⟩
  match r.status, r.pazElem with
  | some e, _ => .error e
  | none, some (some azElem) => .ok azElem
  | none, _ => .ok []

/-- `Th8_BinaryFormatBuf`, with the `nUsed` bytes written so far. -/
structure FormatBuf where
  zBuf : Bytes
  iCur : ℕ
  nAlloc : ℕ
deriving DecidableEq

def FormatBuf.empty : FormatBuf := ⟨[], 0, 0⟩

/-- `TH8_BINARY_INIT_ALLOC`. -/
def initAlloc : ℕ := 64

/-- The doubling loop of `th8BinaryReserveAt`. -/
def growTo (nNeed : ℕ) : ℕ → ℕ → Option ℕ
  | 0, _ => none
  | fuel + 1, nNew =>
    if nNeed ≤ nNew then some nNew
    else if (2 ^ 64 - 1) / 2 < nNew then none
    else growTo nNeed fuel (nNew * 2)

/-- The size of the block that has room for `nNeed` bytes. -/
def grow (nAlloc nNeed : ℕ) : Option ℕ :=
  growTo nNeed 64 (if nAlloc = 0 then initAlloc else nAlloc)

/-- `th8BinaryReserveAt`. -/
def reserveAt (out : FormatBuf) (iPos nMore : ℕ) : Run FormatBuf :=
  let zeroed := out.zBuf ++ List.replicate (iPos - out.zBuf.length) 0
  if 2 ^ 64 ≤ iPos + nMore then Traced.fail (.static "binary format: overflow")
  else if out.nAlloc < iPos + nMore then
    match grow out.nAlloc (iPos + nMore) with
    | none => Traced.fail (.static "binary format: alloc overflow")
    | some nNew => do
      allocate nNew
      pure ⟨zeroed, out.iCur, nNew⟩
  else pure ⟨zeroed, out.iCur, out.nAlloc⟩

/-- `th8BinaryReserve`. -/
def reserve (out : FormatBuf) (nMore : ℕ) : Run FormatBuf := reserveAt out out.iCur nMore

/-- Bytes at the cursor, and `th8BinaryAdvanceCursor` past them. -/
def FormatBuf.store (out : FormatBuf) (z : Bytes) : FormatBuf :=
  { out with
    zBuf := out.zBuf.take out.iCur ++ z ++ out.zBuf.drop (out.iCur + z.length)
    iCur := out.iCur + z.length }

structure FormatState where
  out : FormatBuf
  args : List Bytes
deriving DecidableEq

def takeArg (s : FormatState) : Run (Bytes × FormatState) :=
  match s.args with
  | [] => Traced.fail errNotEnoughArgs
  | z :: rest => pure (z, { s with args := rest })

/-- `th8BinaryParseBigint`. -/
def parseBigint (env : Env) (zArg : Bytes) : Except Failure ℤ :=
  Bigint.bigintArith env.mp zArg (ascii "18446744073709551615") .bitwiseAnd >>= parseWideInt

/-- `th8BinaryParseTrunc`. -/
def parseTrunc (env : Env) (zArg : Bytes) : Run ℤ :=
  match parseWideInt zArg with
  | .ok v => pure v
  | .error e =>
    if env.bBigint && Bigint.isBigint env.mp zArg then do
      allocate (messageLength e + 1)
      match parseBigint env zArg with
      | .ok v => pure v
      | .error _ => Traced.fail e
    else Traced.fail e

/-! ## Value specifiers -/

def formatInts (env : Env) (op : OpDef) : ℕ → FormatState → Run FormatState
  | 0, s => pure s
  | count + 1, s => do
    let (zArg, s) ← takeArg s
    let v ← parseTrunc env zArg
    formatInts env op count { s with out := s.out.store (intBytes op v) }

def formatIntList (env : Env) (op : OpDef) : List Bytes → FormatState → Run FormatState
  | [], s => pure s
  | zElem :: rest, s => do
    Traced.request .ready
    let v ← parseTrunc env zElem
    formatIntList env op rest { s with out := s.out.store (intBytes op v) }

def formatFloats (env : Env) (bSingle : Bool) (eOrder : Order) :
    ℕ → FormatState → Run FormatState
  | 0, s => pure s
  | count + 1, s => do
    let (zArg, s) ← takeArg s
    let d ← Traced.lift (env.floats.toDouble zArg)
    formatFloats env bSingle eOrder count
      { s with out := s.out.store (floatBytes env.floats bSingle eOrder d) }

def formatFloatList (env : Env) (bSingle : Bool) (eOrder : Order) :
    List Bytes → FormatState → Run FormatState
  | [], s => pure s
  | zElem :: rest, s => do
    Traced.request .ready
    let d ← Traced.lift (env.floats.toDouble zElem)
    formatFloatList env bSingle eOrder rest
      { s with out := s.out.store (floatBytes env.floats bSingle eOrder d) }

/-- An argument that is split into `nElem` elements of `nWidth` bytes, and the room for
them. -/
def takeList (nWidth : ℕ) (s : FormatState) : Run (List Bytes × FormatState) := do
  let (zList, s) ← takeArg s
  let azElem ← Traced.lift (splitArg zList)
  match safeMulSize azElem.length nWidth with
  | none => Traced.fail errCountOverflow
  | some nReserve => do
    let out ← reserve s.out nReserve
    pure (azElem, { s with out := out })

/-- The room for `count` elements of `nWidth` bytes. -/
def takeRoom (count nWidth : ℕ) (s : FormatState) : Run FormatState :=
  if maxCount / nWidth < count then Traced.fail errCountOverflow
  else do
    let out ← reserve s.out (count * nWidth)
    pure { s with out := out }

/-- A field of one argument that is looked at every `nPoll` digits. -/
def formatDigits (t : Token) (nPoll : ℕ) (bytes : ℕ → Bytes → Bytes) (s : FormatState) :
    Run FormatState := do
  let (zSrc, s) ← takeArg s
  let count := if t.bStar then zSrc.length else t.count
  let out ← reserve s.out (bytes count zSrc).length
  Traced.requests (if nPoll = 0 then 0 else (count + (nPoll - 1)) / nPoll) .ready
  pure { s with out := out.store (bytes count zSrc) }

/-- A number of 64 bits in a field, most significant byte first: with its sign in front when
the field is wide, and only where it fits when the field is narrow. -/
def wideField (nWidth : ℕ) (v : ℤ) : Except Failure Bytes :=
  let tmp := storeBe 8 (toUnsigned v)
  if 8 ≤ nWidth then
    .ok (List.replicate (nWidth - 8) (if v < 0 then 0xff else 0) ++ tmp)
  else if 2 ^ (nWidth * 8 - 1) - 1 < v ∨ v < -2 ^ (nWidth * 8 - 1) then
    .error Bigint.fieldRangeError
  else .ok (tmp.drop (8 - nWidth))

/-- The bytes of `j` and `J` without the library. -/
def wideBytes (nWidth : ℕ) (bBigEndian : Bool) (zArg : Bytes) : Except Failure Bytes :=
  parseWideInt zArg >>= fun v =>
    (wideField nWidth v).map fun zBuf => if bBigEndian then zBuf else zBuf.reverse

/-- The width of `j` and `J`. -/
def bigintWidth (env : Env) (t : Token) (zArg : Bytes) : Except Failure ℕ :=
  if t.bStar then
    if env.bBigint then Bigint.minTwosComplementBytes env.mp zArg else .ok 8
  else if t.count = 0 then .error errCountOverflow
  else .ok t.count

/-- The bytes of `j` and `J`. -/
def bigintField (env : Env) (t : Token) (nWidth : ℕ) (zArg : Bytes) : Except Failure Bytes :=
  if env.bBigint then Bigint.toTwosComplement env.mp zArg nWidth (t.op.eOrder == .big)
  else wideBytes nWidth (t.op.eOrder == .big) zArg

/-- `j` and `J`. -/
def formatBigint (env : Env) (t : Token) (s : FormatState) : Run FormatState := do
  let (zArg, s) ← takeArg s
  let nWidth ← Traced.lift (bigintWidth env t zArg)
  let out ← reserve s.out nWidth
  let zField ← Traced.lift (bigintField env t nWidth zArg)
  -- the bytes of the argument are put in order with a poll every 4096 of them
  Traced.requests (if env.bBigint || t.op.eOrder == .big then 0 else (nWidth / 2 + 4095) / 4096)
    .ready
  pure { s with out := out.store zField }

/-- The polls of `th8BinaryFormatBits` and `th8BinaryFormatHex`. -/
def nPollDigits : ℕ := 4096

def formatInt (env : Env) (t : Token) (s : FormatState) : Run FormatState :=
  if t.bStar then do
    let (azElem, s) ← takeList t.op.nWidth s
    formatIntList env t.op azElem s
  else do
    let s ← takeRoom t.count t.op.nWidth s
    formatInts env t.op t.count s

def formatFloat (env : Env) (t : Token) (s : FormatState) : Run FormatState :=
  let bSingle := t.op.kind == .float
  if t.bStar then do
    let (azElem, s) ← takeList (floatWidth bSingle) s
    formatFloatList env bSingle t.op.eOrder azElem s
  else do
    let s ← takeRoom t.count (floatWidth bSingle) s
    formatFloats env bSingle t.op.eOrder t.count s

/-- Where `X` leaves the cursor. -/
def backedUp (t : Token) (iCur : ℕ) : ℕ :=
  if t.bStar then 0 else if iCur < t.count then 0 else iCur - t.count

/-- One token. -/
def formatToken (env : Env) (t : Token) (s : FormatState) : Run FormatState :=
  if t.bStar && !t.op.bStarFmt then Traced.fail errStarFormat
  else
    match t.op.kind with
    | .int => formatInt env t s
    | .strNul | .strSp => formatDigits t 0 (strBytes t.op.kind) s
    | .bitsLo => formatDigits t nPollDigits (bitsBytes false) s
    | .bitsHi => formatDigits t nPollDigits (bitsBytes true) s
    | .hexLo => formatDigits t nPollDigits (hexBytes false) s
    | .hexHi => formatDigits t nPollDigits (hexBytes true) s
    | .pad => do
      let out ← reserve s.out t.count
      pure { s with out := out.store (List.replicate t.count 0) }
    | .back => pure { s with out := { s.out with iCur := backedUp t s.out.iCur } }
    | .seek => do
      let out ← reserveAt s.out t.count 0
      pure { s with out := { out with iCur := t.count } }
    | .float | .double => formatFloat env t s
    | .bigintFixed => formatBigint env t s

def formatTokens (env : Env) : List Token → FormatState → Run FormatState
  | [], s => pure s
  | t :: rest, s => do
    let s ← formatToken env t s
    formatTokens env rest s

/-- `Th8_SetResult` of bytes whose number is passed as a length word: the bits above the
twenty-eighth are taken for tags. -/
def setResult (z : Bytes) : Run TString :=
  if z = [] then pure ⟨[], Tags.clean⟩
  else do
    allocate (z.length % 2 ^ 28 + 1)
    pure ⟨z.take (z.length % 2 ^ 28), ⟨z.length.testBit 28, z.length.testBit 29⟩⟩

/-- `binary_format_command`. -/
def binaryFormat (env : Env) (zFmt : Bytes) (args : List Bytes) : Run TString := do
  let s ← formatTokens env (tokens env.native zFmt).1 ⟨.empty, args⟩
  match (tokens env.native zFmt).2 with
  | some e => Traced.fail e
  | none => setResult s.out.zBuf

end Binary

end Th8
