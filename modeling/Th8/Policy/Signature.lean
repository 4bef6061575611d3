import Mathlib.Algebra.Order.Ring.Int
import Mathlib.Data.List.DropRight
import Th8.Codec.Base64

/-!
# Signed annotations
-/

namespace Th8.Policy

/-!
## Script annotations

A script may carry annotations in comments, a key and a value between double
angle brackets.  The policy reads the validity period of the script and its
attribute flags from them.
-/

/-- The text of an error, or `none` where an allocation fails and the result of the
interpreter is not set. -/
abbrev ErrorText := Option Bytes

def failText {α : Type} (text : String) : Except ErrorText α :=
  .error (some (ascii text))

def isLeapYear (year : ℕ) : Bool :=
  (year % 4 == 0 && year % 100 != 0) || year % 400 == 0

/-- `th8PolicyDaysInMonth`. -/
def daysInMonth (year month : ℕ) : ℕ :=
  if month < 1 ∨ 12 < month then 0
  else
    [0, 31, 28, 31, 30, 31, 30, 31, 31, 30, 31, 30, 31].getD month 0 +
      if month = 2 ∧ isLeapYear year then 1 else 0

def digitGroup (z : Bytes) : Option ℕ :=
  z.foldlM (fun n c =>
    if c < 0x30 ∨ 0x39 < c then none else some (n * 10 + (c.toNat - 0x30))) 0

/-- Days from the start of 1970 to the start of `year`. -/
def daysBeforeYear (year : ℕ) : ℕ :=
  ((List.range' 1970 (year - 1970)).map fun y => if isLeapYear y then 366 else 365).sum

/-- Days from the start of the year to the start of `month`. -/
def daysBeforeMonth (year month : ℕ) : ℕ :=
  ((List.range' 1 (month - 1)).map (daysInMonth year)).sum

def hasTimestampShape (z : Bytes) : Bool :=
  z[4]? == some 0x5f && z[7]? == some 0x5f && z[10]? == some 0x54 &&
    z[13]? == some 0x5f && z[16]? == some 0x5f && z[19]? == some 0x5a

/-- `th8PolicyParseTimestamp`: `YYYY_MM_DDThh_mm_ssZ` in seconds since 1970. -/
def parseTimestamp (z : Bytes) : Option ℤ := do
  if z.length ≠ 20 ∨ hasTimestampShape z = false then none
  else
    let year ← digitGroup (z.take 4)
    let month ← digitGroup ((z.drop 5).take 2)
    let day ← digitGroup ((z.drop 8).take 2)
    let hour ← digitGroup ((z.drop 11).take 2)
    let minute ← digitGroup ((z.drop 14).take 2)
    let second ← digitGroup ((z.drop 17).take 2)
    if year < 1970 ∨ 9999 < year ∨ month < 1 ∨ 12 < month ∨ day < 1 ∨
        daysInMonth year month < day ∨ 23 < hour ∨ 59 < minute ∨ 60 < second then none
    else
      let totalDays := daysBeforeYear year + daysBeforeMonth year month + (day - 1)
      some (totalDays * 86400 + hour * 3600 + minute * 60 + second : ℕ)

/-! ### The scan -/

structure Timestamp where
  text : Bytes
  epoch : ℤ
deriving DecidableEq

/-- `Th8_ScriptAnnotations`.  A flag `bHas…` and the value that goes with it are one
optional field. -/
structure Annotations where
  notBefore : Option Timestamp
  notAfter : Option Timestamp
  flags : Option Bytes
deriving DecidableEq

def Annotations.empty : Annotations := ⟨none, none, none⟩

/-- What stands behind a key and its colon, if the content starts with the key and
does not end there. -/
def annotationValue (key : String) (content : Bytes) : Option Bytes :=
  if (ascii key).length < content.length ∧ (ascii key).isPrefixOf content then
    some (content.drop (ascii key).length)
  else none

def timestampAnnotation (value : Bytes) (text : String) : Except ErrorText Timestamp :=
  match parseTimestamp value with
  | some epoch => .ok ⟨value, epoch⟩
  | none => failText text

/-- What one annotation contributes.  Unknown keys are ignored.  A flags value that
does not fit into `zFlags` is accepted, and the value found before it stays. -/
def readAnnotation (attrFlagsParse : Bytes → Bool) (ann : Annotations)
    (content : Bytes) : Except ErrorText Annotations :=
  match annotationValue "notBefore:" content with
  | some value => do
    let t ← timestampAnnotation value "annotation: invalid notBefore timestamp"
    return { ann with notBefore := some t }
  | none =>
    match annotationValue "notAfter:" content with
    | some value => do
      let t ← timestampAnnotation value "annotation: invalid notAfter timestamp"
      return { ann with notAfter := some t }
    | none =>
      match annotationValue "flags:" content with
      | some value =>
        if attrFlagsParse value then
          .ok { ann with
            flags := some (if value.length < 256 then value else ann.flags.getD []) }
        else failText "annotation: invalid flags value"
      | none => .ok ann

def splitClosing : Bytes → Option (Bytes × Bytes)
  | 0x3e :: 0x3e :: rest => some ([], rest)
  | c :: rest => (splitClosing rest).map fun (content, tail) => (c :: content, tail)
  | [] => none

/-- `th8PolicyScanAnnotations`, on what is left of the script.  The scan resumes
behind an annotation, so the length of the rest bounds the number of rounds. -/
def scanFrom (attrFlagsParse : Bytes → Bool) :
    ℕ → Annotations → Bytes → Except ErrorText Annotations
  | 0, ann, _ => .ok ann
  | n + 1, ann, 0x23 :: 0x20 :: 0x3c :: 0x3c :: rest =>
    match splitClosing rest with
    | none => failText "annotation: malformed, missing closing marker"
    | some (content, tail) => do
      let ann ← readAnnotation attrFlagsParse ann content
      scanFrom attrFlagsParse n ann tail
  | n + 1, ann, _ :: rest => scanFrom attrFlagsParse n ann rest
  | _ + 1, ann, [] => .ok ann

def scanAnnotations (attrFlagsParse : Bytes → Bool) (z : Bytes) : Except ErrorText Annotations :=
  scanFrom attrFlagsParse z.length Annotations.empty z

example :
    scanAnnotations (fun _ => true) (ascii "# <<notBefore:1970_01_02T00_00_01Z>>") =
      .ok ⟨some ⟨ascii "1970_01_02T00_00_01Z", 86401⟩, none, none⟩ := by
  decide +kernel

/-!
## Signature files

A signature file is a header of comment lines, the third of which names the public
key by its token, and the signature in base64.
-/

structure HarpySig where
  sig : Bytes
  token : Option Bytes
deriving DecidableEq

def splitLine (z : Bytes) : Bytes × Bytes :=
  (z.takeWhile (· != chNewline), (z.dropWhile (· != chNewline)).drop 1)

def afterDashes : Bytes → Option Bytes
  | 0x2d :: 0x2d :: rest => some rest
  | _ :: rest => afterDashes rest
  | [] => none

def headerToken (line : Bytes) : Option Bytes := do
  let rest ← afterDashes line
  let zId := (rest.dropWhile (· == chSpace)).rdropWhile fun c => c == chSpace || c == 0x0d
  if zId = [] then none else some zId

/-- Walk the header lines, of which there are at most `n`.  The result is the token
and the text from the first line that is neither blank nor a comment. -/
def scanHeader : ℕ → ℕ → Option Bytes → Bytes → Option Bytes × Option Bytes
  | 0, _, zId, _ => (zId, none)
  | n + 1, lineNo, zId, z =>
    if z = [] then (zId, none)
    else
      let line := (splitLine z).1
      match line.dropWhile fun c => c == chSpace || c == chTab with
      | [] => scanHeader n (lineNo + 1) zId (splitLine z).2
      | c :: _ =>
        if c = chHash then
          scanHeader n (lineNo + 1) (if lineNo = 3 then headerToken line else zId) (splitLine z).2
        else (zId, if lineNo = 1 then none else some z)

def isBase64Char (c : Byte) : Bool :=
  match Base64.symbol c with
  | .sextet _ | .padding => true
  | .whitespace | .invalid => false

/-- The bytes up to the first NUL, as `Th8_Strlen` counts them. -/
def untilNul (z : Bytes) : Bytes := z.takeWhile (· != 0)

/-- `Th8_HarpySigLoad`.  A body on the first line counts as none. -/
def harpySigLoad (zData : Bytes) : Option HarpySig :=
  match scanHeader zData.length 1 none zData with
  | (_, none) => none
  | (zId, some body) =>
    let zB64 := body.filter isBase64Char
    if zB64 = [] then none
    else (Base64.decode zB64).map fun sig => ⟨sig, zId.map untilNul⟩

example :
    harpySigLoad (ascii "#\n#\n# demo.tcl -- 0123456789abcdef\n#\nAAEC\n") =
      some ⟨[0, 1, 2], some (ascii "0123456789abcdef")⟩ := by
  decide +kernel

end Th8.Policy
