import Th8.Convert.Double
import Th8.Lists.Append
import Th8.Strings.Arguments

/-!
# Sorting a list

The comparison of two elements in the modes of `lsort`, and the merge sort that it drives.
The sort works in place on two parallel arrays, the elements and their length words, with
the help of two scratch arrays.
-/

namespace Th8

open Support

namespace Sorting

inductive SortMode where
  | ascii
  | integer
  | real
  | dictionary
  | command
deriving DecidableEq

/-- `Th8_SortCtx`, up to the interpreter. -/
structure SortCtx where
  eMode : SortMode
  bDecreasing : Bool
  command : TString
  iIndex : ℤ
deriving DecidableEq

/-- What a sort uses of the interpreter, whose state is `σ`: the poll `Th8_Ready`, the
evaluation of a script, which returns its result, the list parser, the conversion of
floating-point numbers and the limit on results. -/
structure SortInterp (σ : Type) where
  ready : σ → Except Failure σ
  eval : Bytes → σ → Except Failure (Bytes × σ)
  eagleSplitList : ListParser
  doubles : DoubleCache
  bigint : Bool
  nResultLimit : ℕ

/-- How a sort stops: with an error, with a look outside of an array or a string, or with
an `int` that is out of its range. -/
inductive SortStop where
  | failure (e : Failure)
  | outside
  | overflow
deriving DecidableEq

abbrev SortRun (σ α : Type) := StateT σ (Except SortStop) α

def stop {σ α : Type} (e : SortStop) : SortRun σ α := fun _ => .error e

def sortLift {σ α : Type} : Except Failure α → SortRun σ α
  | .ok a => pure a
  | .error e => stop (.failure e)

variable {σ : Type} (interp : SortInterp σ)

def ready : SortRun σ Unit := fun s =>
  match interp.ready s with
  | .ok s' => .ok ((), s')
  | .error e => .error (.failure e)

/-- `Th8_Eval` and the result it leaves. -/
def eval (zEval : Bytes) : SortRun σ Bytes := fun s =>
  match interp.eval zEval s with
  | .ok r => .ok r
  | .error e => .error (.failure e)

def pollAt (i : ℕ) : SortRun σ Unit := if i % 4096 = 0 then ready interp else pure ()

/-- The polls at `n` indices from `i` on. -/
def pollRange (i : ℕ) : ℕ → SortRun σ Unit
  | 0 => pure ()
  | n + 1 => do
    pollAt interp i
    pollRange (i + 1) n

/-! ## Comparing two elements -/

def signOf (less greater : Prop) [Decidable less] [Decidable greater] : ℤ :=
  (if greater then 1 else 0) - if less then 1 else 0

def foldLetter (c : Byte) : Byte := if 0x41 ≤ c ∧ c ≤ 0x5a then c + 0x20 else c

def compareDigits (runA runB : Bytes) : ℤ :=
  let sigA := runA.dropWhile (· == 0x30)
  let sigB := runB.dropWhile (· == 0x30)
  if sigA.length ≠ sigB.length then (if sigA.length < sigB.length then -1 else 1)
  else Strings.memcmp sigA sigB

/-- The loop of `th8DictCompare` on what is left of the strings from `ia` and `ib` on. -/
def dictLoop (nA nB ia ib : ℕ) : Bytes → Bytes → SortRun σ ℤ
  | ca :: restA, cb :: restB => do
    pollAt interp ia
    if isDecimal ca ∧ isDecimal cb then do
      let runA := ca :: restA.takeWhile isDecimal
      let runB := cb :: restB.takeWhile isDecimal
      pollRange interp ia runA.length
      pollRange interp ib runB.length
      let cmp := compareDigits runA runB
      if cmp ≠ 0 then return cmp
      else
        dictLoop nA nB (ia + runA.length) (ib + runB.length) (restA.dropWhile isDecimal)
          (restB.dropWhile isDecimal)
    else do
      let cmp := signOf (foldLetter ca < foldLetter cb) (foldLetter cb < foldLetter ca)
      if cmp ≠ 0 then return cmp
      else dictLoop nA nB (ia + 1) (ib + 1) restA restB
  | _, _ => return signOf (nA < nB) (nB < nA)
termination_by zA => zA.length
decreasing_by
  · have hlen := (List.dropWhile_sublist (l := restA) isDecimal).length_le
    rw [List.length_cons]
    omega
  · rw [List.length_cons]
    omega

def dictCompare (zA zB : Bytes) : SortRun σ ℤ :=
  dictLoop interp zA.length zB.length 0 0 zA zB

def isNanBits (u : ℕ) : Bool := infBits < u % 2 ^ 63

def doubleRank (u : ℕ) : ℤ := if u < 2 ^ 63 then u else -(u % 2 ^ 63 : ℕ)

/-- The comparison `<` of doubles. -/
def doubleLess (u v : ℕ) : Prop := ¬isNanBits u ∧ ¬isNanBits v ∧ doubleRank u < doubleRank v

instance (u v : ℕ) : Decidable (doubleLess u v) :=
  inferInstanceAs (Decidable (¬isNanBits u ∧ ¬isNanBits v ∧ doubleRank u < doubleRank v))

def textOf (z : Bytes) (n : ℕ) : SortRun σ Bytes :=
  if Strings.lenOf n ≤ z.length then pure (z.take (Strings.lenOf n)) else stop .outside

/-- The call of `Th8_SplitList` for a sub-list.  Its length has been cut to the bits of a
length. -/
def subListCall (z : Bytes) : SplitCall where
  zList := z.take lenMask
  nListTag := Tags.clean
  pazElem := true
  panElem := true
  pnCount := true
  noCache := false
  nList_le := List.length_take_le lenMask z

def lsortField (pCtx : SortCtx) (elem : Bytes × ℕ) : SortRun σ Bytes := do
  let z ← textOf elem.1 elem.2
  if pCtx.iIndex < 0 then return z
  else
    let r := uncachedSplit interp.eagleSplitList (subListCall z)
    match r.status with
    | some e => stop (.failure e)
    | none =>
      match r.pazElem with
      | some (some azSub) => return (azSub[pCtx.iIndex.toNat]?).getD []
      | _ => return []

def asciiCompare (zA zB : Bytes) : ℤ :=
  let nMin := min zA.length zB.length
  let cmp := Strings.memcmp (zA.take nMin) (zB.take nMin)
  if cmp = 0 then signOf (zA.length < zB.length) (zB.length < zA.length) else cmp

def commandCall (pCtx : SortCtx) (zA zB : Bytes) : Except Failure TString := do
  let zEval ← stringAppend interp.nResultLimit (.plain []) pCtx.command
  let zEval ← stringAppend interp.nResultLimit zEval (.plain [chSpace])
  let zEval ← listAppend interp.nResultLimit zEval (.plain zA)
  let zEval ← stringAppend interp.nResultLimit zEval (.plain [chSpace])
  listAppend interp.nResultLimit zEval (.plain zB)

/-- The comparison of two fields. -/
def compareFields (pCtx : SortCtx) (zA zB : Bytes) : SortRun σ ℤ :=
  match pCtx.eMode with
  | .integer => do
    let va ← sortLift (parseInt zA)
    let vb ← sortLift (parseInt zB)
    return signOf (va < vb) (vb < va)
  | .real => do
    let ra ← sortLift (interp.doubles.toDouble interp.bigint zA)
    let rb ← sortLift (interp.doubles.toDouble interp.bigint zB)
    return signOf (doubleLess ra rb) (doubleLess rb ra)
  | .command => do
    let zEval ← sortLift (commandCall interp pCtx zA zB)
    let zRes ← eval interp zEval.bytes
    sortLift (parseInt zRes)
  | .dictionary => dictCompare interp zA zB
  | .ascii => return asciiCompare zA zB

def lsortCompare (pCtx : SortCtx) (elemA elemB : Bytes × ℕ) : SortRun σ ℤ := do
  let zA ← lsortField interp pCtx elemA
  let zB ← lsortField interp pCtx elemB
  let cmp ← compareFields interp pCtx zA zB
  return if pCtx.bDecreasing then signOf (0 < cmp) (cmp < 0) else cmp

/-! ## The merge sort -/

structure SortArrays where
  az : List Bytes
  an : List ℕ
deriving DecidableEq

namespace SortArrays

def elems (a : SortArrays) : List (Bytes × ℕ) := a.az.zip a.an

/-- Both arrays have `n` entries. -/
structure HasCount (a : SortArrays) (n : ℕ) : Prop where
  az : a.az.length = n
  an : a.an.length = n

end SortArrays

def readEntry (a : SortArrays) (i : ℕ) : SortRun σ (Bytes × ℕ) :=
  match a.az[i]?, a.an[i]? with
  | some z, some n => pure (z, n)
  | _, _ => stop .outside

def writeEntry (a : SortArrays) (i : ℕ) (e : Bytes × ℕ) : SortRun σ SortArrays :=
  if i < a.az.length ∧ i < a.an.length then pure ⟨a.az.set i e.1, a.an.set i e.2⟩
  else stop .outside

/-- A sum of `int` numbers, which has to be one. -/
def checkInt (n : ℕ) : SortRun σ Unit := if n ≤ intMax then pure () else stop .overflow

/-- The loop of `th8LsortMergeSort` that goes on until one of the runs has ended, and the
indices `i`, `j` and `k` it leaves. -/
def mergeHeads (pCtx : SortCtx) (a : SortArrays) (iMid iEnd i j k : ℕ) (t : SortArrays) :
    SortRun σ ((ℕ × ℕ × ℕ) × SortArrays) :=
  if i < iMid ∧ j < iEnd then do
    ready interp
    let left ← readEntry a i
    let right ← readEntry a j
    let cmp ← lsortCompare interp pCtx left right
    if cmp ≤ 0 then do
      let t ← writeEntry t k left
      mergeHeads pCtx a iMid iEnd (i + 1) j (k + 1) t
    else do
      let t ← writeEntry t k right
      mergeHeads pCtx a iMid iEnd i (j + 1) (k + 1) t
  else pure ((i, j, k), t)
termination_by (iMid - i) + (iEnd - j)

def copyRest (a : SortArrays) (iEnd i k : ℕ) (t : SortArrays) : SortRun σ (ℕ × SortArrays) :=
  if i < iEnd then do
    pollAt interp k
    let e ← readEntry a i
    let t ← writeEntry t k e
    copyRest a iEnd (i + 1) (k + 1) t
  else pure (k, t)
termination_by iEnd - i

/-- The merge of the two runs at `iLeft`. -/
def mergeRunsAt (pCtx : SortCtx) (nCount width iLeft : ℕ) (a t : SortArrays) :
    SortRun σ SortArrays := do
  checkInt (iLeft + width)
  checkInt (iLeft + 2 * width)
  let iMid := min (iLeft + width) nCount
  let iEnd := min (iLeft + 2 * width) nCount
  let ((i, j, k), t) ← mergeHeads interp pCtx a iMid iEnd iLeft iMid iLeft t
  let (k, t) ← copyRest interp a iMid i k t
  let (_, t) ← copyRest interp a iEnd j k t
  return t

/-- The pass over the runs of width `2 ^ e` from `iLeft` on. -/
def mergePass (pCtx : SortCtx) (nCount e iLeft : ℕ) (a t : SortArrays) : SortRun σ SortArrays :=
  if iLeft < nCount then do
    let t ← mergeRunsAt interp pCtx nCount (2 ^ e) iLeft a t
    mergePass pCtx nCount e (iLeft + 2 * 2 ^ e) a t
  else pure t
termination_by nCount - iLeft
decreasing_by
  have hpow := Nat.two_pow_pos e
  omega

/-- The copy of the scratch arrays back into the arrays, from `iLeft` on. -/
def copyBack (nCount iLeft : ℕ) (t a : SortArrays) : SortRun σ SortArrays :=
  if iLeft < nCount then do
    pollAt interp iLeft
    let e ← readEntry t iLeft
    let a ← writeEntry a iLeft e
    copyBack nCount (iLeft + 1) t a
  else pure a
termination_by nCount - iLeft

/-- The passes from width `2 ^ e` on. -/
def sortPasses (pCtx : SortCtx) (nCount e : ℕ) (a t : SortArrays) : SortRun σ SortArrays :=
  if 2 ^ e < nCount then do
    let t ← mergePass interp pCtx nCount e 0 a t
    let a ← copyBack interp nCount 0 t a
    checkInt (2 ^ (e + 1))
    sortPasses pCtx nCount (e + 1) a t
  else pure a
termination_by nCount - 2 ^ e
decreasing_by
  have hpow := Nat.two_pow_pos e
  rw [Nat.pow_succ]
  omega

/-- The two scratch blocks: whether each is granted, and what is in them before the sort
writes to them. -/
structure Scratch where
  azGranted : Bool
  anGranted : Bool
  old : SortArrays

def lsortMergeSort (pCtx : SortCtx) (scratch : Scratch) (a : SortArrays) (nCount : ℕ) :
    SortRun σ SortArrays :=
  if nCount < 2 then pure a
  else if !safeAllocMul scratch.azGranted nCount 8 then stop (.failure .silent)
  else if !safeAllocMul scratch.anGranted nCount 8 then stop (.failure .silent)
  else sortPasses interp pCtx nCount 0 a scratch.old

end Sorting

end Th8
