import Th8.Strings.Characters
import Th8.Strings.FormatInteger

/-!
# `format`

`format_command` converts each field into a buffer of 80 bytes and pads what is in the buffer.
A string is cut to what the buffer holds, and its precision counts bytes.  The conversions of
floating-point numbers are a parameter.  Polls and refused allocations, which end the command
with an error, are left out.
-/

namespace Th8

open Support List

namespace Strings

/-! ## The source function -/

structure FormatField where
  flags : FormatFlags
  width : ℕ
  prec : Option ℤ
  spec : Byte

/-- The text of a floating-point conversion in `zNum`. -/
abbrev FormatDouble := FormatField → Bytes → Except Failure Bytes

inductive FormatPiece where
  | literal (z : Bytes)
  | value (field : FormatField) (zNum : Bytes)
  | string (field : FormatField) (zVal : Bytes)

def notEnough {α : Type} : Except Failure α :=
  .error (.static "not enough arguments for all format specifiers")

def nextArg : List Bytes → Except Failure (Bytes × List Bytes)
  | [] => notEnough
  | a :: args => .ok (a, args)

def takeFlags (f : FormatFlags) : Bytes → FormatFlags × Bytes
  | [] => (f, [])
  | c :: rest =>
    if c = 0x2d then takeFlags { f with minus := true } rest
    else if c = 0x2b then takeFlags { f with plus := true } rest
    else if c = 0x30 then takeFlags { f with zero := true } rest
    else if c = 0x20 then takeFlags { f with space := true } rest
    else if c = 0x23 then takeFlags { f with hash := true } rest
    else (f, c :: rest)

def takeWidth (width : ℕ) : Bytes → Except Failure (ℕ × Bytes)
  | [] => .ok (width, [])
  | c :: rest =>
    if 0x30 ≤ c ∧ c ≤ 0x39 then
      if 10000 < width * 10 + (c.toNat - 0x30) then .error (.static "format width too large")
      else takeWidth (width * 10 + (c.toNat - 0x30)) rest
    else .ok (width, c :: rest)

def takePrec (prec : ℤ) : Bytes → ℤ × Bytes
  | [] => (prec, [])
  | c :: rest =>
    if 0x30 ≤ c ∧ c ≤ 0x39 then takePrec (wrapInt (prec * 10 + (c.toNat - 0x30 : ℕ))) rest
    else (prec, c :: rest)

def starValue (a : Bytes) : ℤ := (parseInt a).toOption.getD 0

def fieldWidth (flags : FormatFlags) (z : Bytes) (args : List Bytes) :
    Except Failure (FormatFlags × ℕ × Bytes × List Bytes) :=
  if z.head? = some 0x2a then do
    let (a, args) ← nextArg args
    let width := starValue a
    return ({ flags with minus := flags.minus || width < 0 }, width.natAbs, z.tail, args)
  else do
    let (width, z) ← takeWidth 0 z
    return (flags, width, z, args)

def fieldPrec (z : Bytes) (args : List Bytes) : Except Failure (Option ℤ × Bytes × List Bytes) :=
  if z.head? ≠ some 0x2e then return (none, z, args)
  else if z.tail.head? = some 0x2a then do
    let (a, args) ← nextArg args
    return (some (min (starValue a) 10000), z.tail.tail, args)
  else
    let (prec, z) := takePrec 0 z.tail
    return (some (min prec 10000), z, args)

def takeField (z : Bytes) (args : List Bytes) :
    Except Failure (FormatField × Bytes × List Bytes) := do
  let (flags, z) := takeFlags ⟨false, false, false, false, false⟩ z
  let (flags, width, z, args) ← fieldWidth flags z args
  let (prec, z, args) ← fieldPrec z args
  match z with
  | [] => .error (.static "format string ended in middle of field specifier")
  | spec :: z => return (⟨flags, width, prec, spec⟩, z, args)

def intConversion (spec : Byte) : Option IntConversion :=
  [(0x64, .d), (0x69, .i), (0x75, .u), (0x6f, .o), (0x78, .x), (0x58, .X)].lookup spec

/-- The conversion of the next argument. -/
def convertField (formatDouble : FormatDouble) (field : FormatField) (args : List Bytes) :
    Except Failure (FormatPiece × List Bytes) :=
  match intConversion field.spec with
  | some c => do
    let (a, args) ← nextArg args
    let v ← parseWideInt a
    return (.value field (c.convert field.flags (BitVec.ofInt 64 v)), args)
  | none =>
    if field.spec = 0x63 then do
      let (a, args) ← nextArg args
      let v ← parseWideInt a
      return (.value field (utf8Encode (BitVec.ofInt 32 v)), args)
    else if field.spec = 0x73 then do
      let (a, args) ← nextArg args
      return (.string field a, args)
    else if field.spec ∈ ascii "feEgG" then do
      let (a, args) ← nextArg args
      let zNum ← formatDouble field a
      return (.value field zNum, args)
    else .error (.message "bad field specifier \"" [field.spec])

/-- The loop over the format string. -/
def formatPieces (formatDouble : FormatDouble) : ℕ → Bytes → List Bytes →
    Except Failure (List FormatPiece)
  | 0, _, _ => .ok []
  | _ + 1, [], _ => .ok []
  | fuel + 1, c :: z, args =>
    if c ≠ 0x25 then (.literal [c] :: ·) <$> formatPieces formatDouble fuel z args
    else
      match z with
      | [] => .ok []
      | 0x25 :: z => (.literal [0x25] :: ·) <$> formatPieces formatDouble fuel z args
      | z => do
        let (field, z, args) ← takeField z args
        let (piece, args) ← convertField formatDouble field args
        (piece :: ·) <$> formatPieces formatDouble fuel z args

/-- What a string field leaves in `zNum`. -/
def bufferedString (prec : Option ℤ) (zVal : Bytes) : Bytes :=
  (match prec with
    | some p => if 0 ≤ p ∧ p < zVal.length then zVal.take p.toNat else zVal
    | none => zVal).take 79

/-- What a piece appends to the result, if the strings are in the buffer as `stringValue`. -/
def FormatPiece.emit (stringValue : Option ℤ → Bytes → Bytes) : FormatPiece → Bytes
  | literal z => z
  | value field zNum => padAndEmit field.flags field.width zNum
  | string field zVal => padAndEmit field.flags field.width (stringValue field.prec zVal)

def formatCommand (formatDouble : FormatDouble) (zFmt : Bytes) (args : List Bytes) :
    Except Failure Bytes := do
  let pieces ← formatPieces formatDouble zFmt.length zFmt args
  return pieces.flatMap (FormatPiece.emit bufferedString)

/-! ## Full strings -/

def takeChars : ℕ → Bytes → Bytes
  | 0, _ => []
  | _ + 1, [] => []
  | p + 1, c :: z =>
    let w := seqWidth c (z.length + 1)
    (c :: z).take w ++ takeChars p ((c :: z).drop w)

def fullString (prec : Option ℤ) (zVal : Bytes) : Bytes :=
  match prec with
  | some p => if 0 ≤ p then takeChars p.toNat zVal else zVal
  | none => zVal

def StringFits (prec : Option ℤ) (zVal : Bytes) : Prop :=
  (fullString prec zVal).length < 80 ∧
    ∀ p, prec = some p → 0 ≤ p → (takeChars p.toNat zVal).length ≤ p.toNat

theorem takeChars_spec (p : ℕ) (z : Bytes) :
    takeChars p z <+: z ∧ min p z.length ≤ (takeChars p z).length := by
  induction p generalizing z with
  | zero => exact ⟨ nil_prefix, by simp [takeChars]⟩
  | succ p ih =>
    cases z with
    | nil => exact ⟨ nil_prefix, by simp [takeChars]⟩
    | cons c z =>
      have hw := one_le_seqWidth c (z.length + 1)
      obtain ⟨⟨rest, hrest⟩, hlen⟩ := ih ((c :: z).drop (seqWidth c (z.length + 1)))
      rw [takeChars]
      refine ⟨⟨rest, ?_⟩, ?_⟩
      · rw [append_assoc, hrest, take_append_drop]
      · have hlen' := (c :: z).length_take (i := seqWidth c (z.length + 1))
        simp only [length_append, length_drop, length_cons] at *
        omega

theorem bufferedString_eq_iff (prec : Option ℤ) (zVal : Bytes) :
    bufferedString prec zVal = fullString prec zVal ↔ StringFits prec zVal := by
  have hwhole : zVal.take 79 = zVal ↔ zVal.length < 80 := by
    rw [take_eq_self_iff, Nat.lt_succ_iff]
  rcases prec with _ | p
  · simpa [bufferedString, fullString, StringFits] using hwhole
  by_cases hp : 0 ≤ p
  · obtain ⟨p, rfl⟩ := Int.eq_ofNat_of_zero_le hp
    obtain ⟨hpre, hlen⟩ := takeChars_spec p zVal
    have hcut : (if 0 ≤ (p : ℤ) ∧ (p : ℤ) < zVal.length then zVal.take (p : ℤ).toNat else zVal) =
        zVal.take p := by
      split_ifs with h
      · rfl
      · exact (take_of_length_le (by omega)).symm
    have hfull : fullString (some (p : ℤ)) zVal = takeChars p zVal := by simp [fullString]
    rw [bufferedString, hcut, StringFits, hfull]
    constructor
    · intro h
      have hcount := congrArg List.length h
      simp only [length_take] at hcount
      refine ⟨by omega, fun q hq _ => ?_⟩
      cases hq
      rw [Int.toNat_natCast]
      omega
    · rintro ⟨hshort, hbytes⟩
      have hle := hbytes p rfl (Int.natCast_nonneg p)
      rw [Int.toNat_natCast] at hle
      rw [take_take, prefix_iff_eq_take.mp hpre]
      exact take_eq_take_iff.mpr (by omega)
  · have hcut : ¬(0 ≤ p ∧ p < zVal.length) := fun h => hp h.1
    simpa [bufferedString, fullString, StringFits, hp, hcut] using hwhole

def noDoubles : FormatDouble := fun _ _ => .error .silent

end Strings

end Th8
