import Th8.Binary.FormatSpec

/-!
# The scan of a field
-/

namespace Th8

/-!
## `binary scan`

The command carries out the tokens of the same kind of format string on the bytes it is
given.  It ends without an error when a value specifier finds no variable for its value or
too few bytes.
-/

open Support List Nat
open Bigint (MpLib)

namespace Binary

def setVar (zVarName zValue : Bytes) : Run Unit := Traced.request (.setVar zVarName zValue)

/-- The text that `th8BinaryAssignInt` assigns. -/
def decimalText (v : ℤ) : Bytes := Bigint.decimal v

/-- A list that grows with `Th8_ListAppend`, whose status is ignored. -/
def appendElem (env : Env) (zList zElem : Bytes) : Bytes :=
  match listAppend env.nResultLimit (.plain zList) (.plain zElem) with
  | .ok list => list.bytes
  | .error _ => zList

/-- The text that `th8BinaryAssignIntList` and `th8BinaryAssignDoubleList` assign. -/
def listOfTexts (env : Env) (texts : List Bytes) : Bytes := texts.foldl (appendElem env) []

/-- `th8BinaryAssignIntList` and `th8BinaryAssignDoubleList`. -/
def assignList (env : Env) (zVarName : Bytes) (texts : List Bytes) : Run Unit := do
  Traced.requests texts.length .ready
  setVar zVarName (listOfTexts env texts)

/-- `th8BinaryScanBits` and `th8BinaryScanHex` with the digits `zOut`. -/
def assignDigits (zVarName zOut : Bytes) : Run Unit :=
  if zOut = [] then setVar zVarName []
  else do
    allocate (zOut.length + 1)
    Traced.requests ((zOut.length + (nPollDigits - 1)) / nPollDigits) .ready
    setVar zVarName zOut

/-- The texts of `count` values of `nWidth` bytes. -/
def textsOf (nWidth count : ℕ) (text : Bytes → Bytes) (p : Bytes) : List Bytes :=
  (List.range count).map fun i => text (p.drop (i * nWidth))

/-- `j` and `J` of at most eight bytes, without the library. -/
def readWide (bBigEndian : Bool) (p : Bytes) : ℤ :=
  let z := if bBigEndian then p else p.reverse
  let signFill : Byte := if z.headD 0 &&& 0x80 ≠ 0 then 0xff else 0
  signExtend 64 (loadBe (List.replicate (8 - z.length) signFill ++ z))

/-! ### The command -/

/-- The cursor, the variables that are left, and the number of assignments.  `bOut` says
that the command has jumped to its end. -/
structure ScanState where
  iCur : ℕ
  names : List Bytes
  nAssigned : ℕ
  bOut : Bool
deriving DecidableEq

/-- `goto out`. -/
def ScanState.leave (s : ScanState) : ScanState := { s with bOut := true }

def ScanState.assigned (s : ScanState) (n : ℕ) : ScanState where
  iCur := s.iCur + n
  names := s.names.tail
  nAssigned := s.nAssigned + 1
  bOut := s.bOut

/-- The loop of a specifier of `count` values of `nWidth` bytes, each for one variable. -/
def scanValues (zIn : Bytes) (nWidth : ℕ) (text : Bytes → Bytes) :
    ℕ → ScanState → Run ScanState
  | 0, s => pure s
  | nLeft + 1, s =>
    match s.names with
    | [] => pure s.leave
    | zVarName :: _ =>
      if zIn.length < s.iCur + nWidth then pure s.leave
      else do
        setVar zVarName (text (zIn.drop s.iCur))
        scanValues zIn nWidth text nLeft (s.assigned nWidth)

/-- A specifier of values of `nWidth` bytes.  With a star it reads as many as fit, for one
variable. -/
def scanNumbers (env : Env) (zIn : Bytes) (t : Token) (nWidth : ℕ) (text : Bytes → Bytes)
    (zVarName : Bytes) (s : ScanState) : Run ScanState :=
  if t.bStar then do
    let count := (zIn.length - s.iCur) / nWidth
    assignList env zVarName (textsOf nWidth count text (zIn.drop s.iCur))
    pure (s.assigned (count * nWidth))
  else scanValues zIn nWidth text t.count s

/-- `a` and `A`. -/
def scanStr (zIn : Bytes) (t : Token) (zVarName : Bytes) (s : ScanState) : Run ScanState :=
  let nRead := if t.bStar then zIn.length - s.iCur else t.count
  if zIn.length < s.iCur + nRead then pure s.leave
  else do
    setVar zVarName (scannedStr t.op.kind ((zIn.drop s.iCur).take nRead))
    pure (s.assigned nRead)

/-- The specifiers of digits, `nPer` in a byte. -/
def scanDigits (zIn : Bytes) (t : Token) (nPer : ℕ) (digits : ℕ → Bytes → Bytes)
    (zVarName : Bytes) (s : ScanState) : Run ScanState :=
  let count := if t.bStar then (zIn.length - s.iCur) * nPer else t.count
  let nBytes := (count + (nPer - 1)) / nPer
  if zIn.length < s.iCur + nBytes then pure s.leave
  else do
    assignDigits zVarName (digits count (zIn.drop s.iCur))
    pure (s.assigned nBytes)

/-- The text of a field of `j` or `J`. -/
def bigintText (env : Env) (t : Token) (p : Bytes) : Except Failure Bytes :=
  if env.bBigint then Bigint.fromTwosComplement env.mp p (t.op.eOrder == .big)
  else if p.length = 0 then .ok (ascii "0")
  else if 8 < p.length then
    .error (.static "j/J scan width exceeds int64 with bigint disabled")
  else .ok (decimalText (readWide (t.op.eOrder == .big) p))

def copyText (env : Env) (zRes : Bytes) : Run Unit :=
  if env.bBigint && 80 ≤ zRes.length then allocate (zRes.length + 1) else pure ()

/-- `j` and `J`. -/
def scanBigint (env : Env) (zIn : Bytes) (t : Token) (zVarName : Bytes) (s : ScanState) :
    Run ScanState :=
  let nWidth := if t.bStar then zIn.length - s.iCur else t.count
  if !t.bStar && (t.count == 0 || zIn.length < s.iCur + nWidth) then pure s.leave
  else do
    let zRes ← Traced.lift (bigintText env t ((zIn.drop s.iCur).take nWidth))
    copyText env zRes
    setVar zVarName zRes
    pure (s.assigned nWidth)

/-- A value specifier and the variable in front. -/
def scanValue (env : Env) (zIn : Bytes) (t : Token) (zVarName : Bytes) (s : ScanState) :
    Run ScanState :=
  match t.op.kind with
  | .int =>
    scanNumbers env zIn t t.op.nWidth (fun p => decimalText (readInt p t.op)) zVarName s
  | .strNul | .strSp => scanStr zIn t zVarName s
  | .bitsLo => scanDigits zIn t 8 (scannedBits false) zVarName s
  | .bitsHi => scanDigits zIn t 8 (scannedBits true) zVarName s
  | .hexLo => scanDigits zIn t 2 (scannedHex false) zVarName s
  | .hexHi => scanDigits zIn t 2 (scannedHex true) zVarName s
  | .float | .double =>
    let bSingle := t.op.kind == .float
    scanNumbers env zIn t (floatWidth bSingle)
      (fun p => formatDoubleString env.floats (readFloat env.floats bSingle t.op.eOrder p)
        bSingle) zVarName s
  | .bigintFixed => scanBigint env zIn t zVarName s
  | .pad | .back | .seek => pure s

def scanToken (env : Env) (zIn : Bytes) (t : Token) (s : ScanState) : Run ScanState :=
  match t.op.kind with
  | .pad =>
    pure { s with iCur :=
      if t.bStar || zIn.length < s.iCur + t.count then zIn.length else s.iCur + t.count }
  | .back => pure { s with iCur := if s.iCur < t.count then 0 else s.iCur - t.count }
  | .seek => pure { s with iCur := if zIn.length < t.count then zIn.length else t.count }
  | _ =>
    match s.names with
    | [] => pure s.leave
    | zVarName :: _ => scanValue env zIn t zVarName s

def scanTokens (env : Env) (zIn : Bytes) : List Token → ScanState → Run ScanState
  | [], s => pure s
  | t :: rest, s => do
    let s ← scanToken env zIn t s
    if s.bOut then pure s else scanTokens env zIn rest s

/-- `binary_scan_command`: the number of variables assigned. -/
def binaryScan (env : Env) (zIn zFmt : Bytes) (names : List Bytes) : Run ℕ := do
  let s ← scanTokens env zIn (tokens env.native zFmt).1 ⟨0, names, 0, false⟩
  match (tokens env.native zFmt).2 with
  | some e => if s.bOut then pure s.nAssigned else Traced.fail e
  | none => pure s.nAssigned

end Binary

/-!
## What a token of `binary scan` does

When the bytes and the variables are there, a value specifier assigns what it reads and moves
on by the length of its field.  With a star it reads all elements that are left.
-/

namespace Binary

variable {α β : Type} {env : Env} {t : Token} {s s' : ScanState} {zIn zVarName : Bytes}

def assignments (ops : List Request) : List (Bytes × Bytes) :=
  ops.filterMap fun op =>
    match op with
    | .setVar zVarName zValue => some (zVarName, zValue)
    | _ => none

def Assigns (x : Run α) (values : List (Bytes × Bytes)) (a : α) : Prop :=
  assignments x.ops = values ∧ x.result = .ok a

theorem Assigns.bind {x : Run α} {f : α → Run β} {values values' : List (Bytes × Bytes)}
    {a : α} {b : β} (hx : Assigns x values a) (hf : Assigns (f a) values' b) :
    Assigns (x >>= f) (values ++ values') b := by
  rw [Traced.bind_of_ok hx.2]
  refine ⟨?_, hf.2⟩
  rw [assignments, filterMap_append]
  exact congrArg₂ _ hx.1 hf.1

theorem Assigns.cons {x : Run α} {f : α → Run β} {value : Bytes × Bytes}
    {values : List (Bytes × Bytes)} {a : α} {b : β} (hx : Assigns x [value] a)
    (hf : Assigns (f a) values b) : Assigns (x >>= f) (value :: values) b :=
  hx.bind hf

theorem Assigns.andThen {x : Run Unit} {y : Run β} {values : List (Bytes × Bytes)} {b : β}
    (hx : Assigns x [] ()) (hy : Assigns y values b) : Assigns (x >>= fun _ => y) values b :=
  hx.bind hy

theorem Assigns.andReturn {x : Run Unit} {values : List (Bytes × Bytes)}
    (hx : Assigns x values ()) (a : α) : Assigns (x >>= fun _ => pure a) values a := by
  rw [Traced.bind_of_ok hx.2, Traced.pure_ops, append_nil]
  exact ⟨hx.1, rfl⟩

theorem assigns_pure (a : α) : Assigns (pure a) [] a := ⟨rfl, rfl⟩

theorem assigns_setVar (zVarName zValue : Bytes) :
    Assigns (setVar zVarName zValue) [(zVarName, zValue)] () := ⟨rfl, rfl⟩

theorem assigns_allocate (nByte : ℕ) : Assigns (allocate nByte) [] () := ⟨rfl, rfl⟩

theorem assigns_ready (n : ℕ) : Assigns (Traced.requests n .ready) [] () := by
  refine ⟨?_, rfl⟩
  rw [Traced.requests_ops, assignments, filterMap_replicate]

theorem assigns_lift {r : Except Failure α} {a : α} (h : r = .ok a) :
    Assigns (Traced.lift r) [] a := ⟨rfl, h⟩

theorem textsOf_succ (nWidth count : ℕ) (text : Bytes → Bytes) (p : Bytes) :
    textsOf nWidth (count + 1) text p = text p :: textsOf nWidth count text (p.drop nWidth) := by
  simp only [textsOf, range_succ_eq_map, map_cons, map_map, zero_mul, drop_zero]
  refine congrArg _ (map_congr_left fun i _ => ?_)
  rw [Function.comp_apply, drop_drop, succ_mul, add_comm]

theorem scanValues_assigns {nWidth count : ℕ} (text : Bytes → Bytes)
    (hnames : count ≤ s.names.length) (hroom : s.iCur + count * nWidth ≤ zIn.length) :
    Assigns (scanValues zIn nWidth text count s)
      ((s.names.take count).zip (textsOf nWidth count text (zIn.drop s.iCur)))
      ⟨s.iCur + count * nWidth, s.names.drop count, s.nAssigned + count, s.bOut⟩ := by
  induction count generalizing s with
  | zero => simpa [scanValues] using assigns_pure s
  | succ count ih =>
    obtain ⟨iCur, names, nAssigned, bOut⟩ := s
    rcases names with _ | ⟨zVarName, names⟩
    · exact absurd hnames (not_succ_le_zero _)
    · dsimp only at hroom hnames
      rw [succ_mul] at hroom
      have hfirst : ¬zIn.length < iCur + nWidth := by omega
      rw [scanValues]
      dsimp only
      rw [if_neg hfirst, take_succ_cons, textsOf_succ, zip_cons_cons, drop_drop]
      refine (assigns_setVar _ _).cons ?_
      have hrest := ih (s := ScanState.assigned ⟨iCur, zVarName :: names, nAssigned, bOut⟩ nWidth)
        (le_of_succ_le_succ hnames) (by simp only [ScanState.assigned]; omega)
      simp only [ScanState.assigned, tail_cons] at hrest ⊢
      rw [add_assoc iCur, add_comm nWidth, add_right_comm] at hrest
      rw [succ_mul, drop_succ_cons]
      exact hrest

theorem assignList_assigns (texts : List Bytes) :
    Assigns (assignList env zVarName texts) [(zVarName, listOfTexts env texts)] () :=
  (assigns_ready _).andThen (assigns_setVar _ _)

theorem assignDigits_assigns (zOut : Bytes) :
    Assigns (assignDigits zVarName zOut) [(zVarName, zOut)] () := by
  rw [assignDigits]
  split_ifs with hempty
  · rw [hempty]
    exact assigns_setVar _ _
  · exact (assigns_allocate _).andThen ((assigns_ready _).andThen (assigns_setVar _ _))

theorem scanNumbers_star (nWidth : ℕ) (text : Bytes → Bytes) (hstar : t.bStar = true) :
    (scanNumbers env zIn t nWidth text zVarName s).result =
      .ok (s.assigned ((zIn.length - s.iCur) / nWidth * nWidth)) := by
  rw [scanNumbers, if_pos hstar]
  exact ((assignList_assigns _).andReturn _).2

theorem scanStr_assigns (zIn zVarName : Bytes)
    (hroom : s.iCur + (if t.bStar then zIn.length - s.iCur else t.count) ≤ zIn.length) :
    Assigns (scanStr zIn t zVarName s)
      [(zVarName, scannedStr t.op.kind ((zIn.drop s.iCur).take
        (if t.bStar then zIn.length - s.iCur else t.count)))]
      (s.assigned (if t.bStar then zIn.length - s.iCur else t.count)) := by
  rw [scanStr, if_neg (not_lt.mpr hroom)]
  exact (assigns_setVar _ _).andReturn _

theorem scanDigits_assigns {nPer : ℕ} (zVarName : Bytes) (digits : ℕ → Bytes → Bytes)
    {count nBytes : ℕ}
    (hcount : count = if t.bStar then (zIn.length - s.iCur) * nPer else t.count)
    (hbytes : nBytes = (count + (nPer - 1)) / nPer) (hroom : s.iCur + nBytes ≤ zIn.length) :
    Assigns (scanDigits zIn t nPer digits zVarName s)
      [(zVarName, digits count (zIn.drop s.iCur))] (s.assigned nBytes) := by
  rw [scanDigits, ← hcount, ← hbytes, if_neg (not_lt.mpr hroom)]
  exact (assignDigits_assigns _).andReturn _

theorem copyText_assigns (zRes : Bytes) : Assigns (copyText env zRes) [] () := by
  rw [copyText]
  split_ifs
  · exact assigns_allocate _
  · exact assigns_pure ()

theorem scanBigint_assigns {nWidth : ℕ}
    (hwidth : nWidth = if t.bStar then zIn.length - s.iCur else t.count)
    (hcount : t.bStar = false → t.count ≠ 0) (hroom : s.iCur + nWidth ≤ zIn.length)
    {zRes : Bytes} (hres : bigintText env t ((zIn.drop s.iCur).take nWidth) = .ok zRes) :
    Assigns (scanBigint env zIn t zVarName s) [(zVarName, zRes)] (s.assigned nWidth) := by
  have hgo : ¬(!t.bStar && (t.count == 0 || decide (zIn.length < s.iCur + nWidth))) = true := by
    rcases hstar : t.bStar with _ | _
    · simp [hcount hstar, hroom]
    · simp
  rw [scanBigint, ← hwidth, if_neg hgo]
  refine (assigns_lift hres).bind ?_
  exact (copyText_assigns _).andThen ((assigns_setVar _ _).andReturn _)

end Binary

end Th8
