import Mathlib.Data.List.DropRight
import Th8.Bigint.TwosComplement
import Th8.Binary.Table
import Th8.Support.BytePacking

/-!
# The fields of `binary`

What one value is as bytes, and what bytes are as a value: integers of four widths and two
orders, strings with padding, digits of bits and of nibbles, floating-point patterns, and
integers of any width.
-/

namespace Th8

open Support List
open Bigint (MpLib)

namespace Binary

/-! ## Bytes of integers -/

/-- `th8BinaryWriteU8`. -/
def writeU8 : ℕ → Bytes := storeLe 1

/-- `th8BinaryWriteU16Le`. -/
def writeU16Le : ℕ → Bytes := storeLe 2

/-- `th8BinaryWriteU16Be`. -/
def writeU16Be : ℕ → Bytes := storeBe 2

/-- `th8BinaryWriteU32Le`. -/
def writeU32Le : ℕ → Bytes := storeLe 4

/-- `th8BinaryWriteU32Be`. -/
def writeU32Be : ℕ → Bytes := storeBe 4

/-- `th8BinaryWriteU64Le`. -/
def writeU64Le : ℕ → Bytes := storeLe 8

/-- `th8BinaryWriteU64Be`. -/
def writeU64Be : ℕ → Bytes := storeBe 8

/-- `th8BinaryReadI8`. -/
def readI8 (p : Bytes) : ℤ := signExtend 8 (loadLe (p.take 1))

/-- `th8BinaryReadI16Le`. -/
def readI16Le (p : Bytes) : ℤ := signExtend 16 (loadLe (p.take 2))

/-- `th8BinaryReadI16Be`. -/
def readI16Be (p : Bytes) : ℤ := signExtend 16 (loadBe (p.take 2))

/-- `th8BinaryReadI32Le`. -/
def readI32Le (p : Bytes) : ℤ := signExtend 32 (loadLe (p.take 4))

/-- `th8BinaryReadI32Be`. -/
def readI32Be (p : Bytes) : ℤ := signExtend 32 (loadBe (p.take 4))

/-- `th8BinaryReadI64Le`. -/
def readI64Le (p : Bytes) : ℤ := signExtend 64 (loadLe (p.take 8))

/-- `th8BinaryReadI64Be`. -/
def readI64Be (p : Bytes) : ℤ := signExtend 64 (loadBe (p.take 8))

def toUnsigned (v : ℤ) : ℕ := (v % 2 ^ 64).toNat

/-- The bytes that `th8BinaryWriteInt` writes. -/
def intBytes (op : OpDef) (v : ℤ) : Bytes :=
  match op.nWidth, op.eOrder with
  | 1, _ => writeU8 (toUnsigned v)
  | 2, .little => writeU16Le (toUnsigned v)
  | 2, .big => writeU16Be (toUnsigned v)
  | 4, .little => writeU32Le (toUnsigned v)
  | 4, .big => writeU32Be (toUnsigned v)
  | 8, .little => writeU64Le (toUnsigned v)
  | 8, .big => writeU64Be (toUnsigned v)
  | _, _ => []

/-- `th8BinaryReadInt`. -/
def readInt (p : Bytes) (op : OpDef) : ℤ :=
  match op.nWidth, op.eOrder with
  | 1, _ => readI8 p
  | 2, .little => readI16Le p
  | 2, .big => readI16Be p
  | 4, .little => readI32Le p
  | 4, .big => readI32Be p
  | 8, .little => readI64Le p
  | 8, .big => readI64Be p
  | _, _ => 0

def IntWidth (w : ℕ) : Prop := w = 1 ∨ w = 2 ∨ w = 4 ∨ w = 8

theorem IntWidth.bounds {w : ℕ} (h : IntWidth w) : 0 < w ∧ w ≤ 8 := by
  rw [IntWidth] at h
  omega

variable {op : OpDef}

theorem intBytes_cases (hw : IntWidth op.nWidth) (v : ℤ) :
    (intBytes op v = storeLe op.nWidth (toUnsigned v) ∧
        ∀ p, readInt p op = signExtend (8 * op.nWidth) (loadLe (p.take op.nWidth))) ∨
      (intBytes op v = storeBe op.nWidth (toUnsigned v) ∧
        ∀ p, readInt p op = signExtend (8 * op.nWidth) (loadBe (p.take op.nWidth))) := by
  obtain ⟨letter, kind, nWidth, eOrder, bStarFmt, bStarScn⟩ := op
  rcases hw with h | h | h | h
  · obtain rfl : nWidth = 1 := h
    exact Or.inl ⟨rfl, fun p => rfl⟩
  · obtain rfl : nWidth = 2 := h
    cases eOrder
    · exact Or.inl ⟨rfl, fun p => rfl⟩
    · exact Or.inr ⟨rfl, fun p => rfl⟩
  · obtain rfl : nWidth = 4 := h
    cases eOrder
    · exact Or.inl ⟨rfl, fun p => rfl⟩
    · exact Or.inr ⟨rfl, fun p => rfl⟩
  · obtain rfl : nWidth = 8 := h
    cases eOrder
    · exact Or.inl ⟨rfl, fun p => rfl⟩
    · exact Or.inr ⟨rfl, fun p => rfl⟩

theorem length_intBytes (hw : IntWidth op.nWidth) (v : ℤ) : (intBytes op v).length = op.nWidth := by
  obtain ⟨hbytes, -⟩ | ⟨hbytes, -⟩ := intBytes_cases hw v
  · rw [hbytes, length_storeLe]
  · rw [hbytes, length_storeBe]

theorem signExtend_toUnsigned {n : ℕ} (h0 : 0 < n) (h8 : n ≤ 8) (v : ℤ) :
    signExtend (8 * n) (toUnsigned v % 2 ^ (8 * n)) = wrap (8 * n) v := by
  obtain ⟨bits, hbits⟩ : ∃ bits, 8 * n = bits + 1 := ⟨8 * n - 1, by omega⟩
  have hdvd : (2 : ℤ) ^ (bits + 1) ∣ 2 ^ 64 := pow_dvd_pow 2 (by omega)
  have hmod : toUnsigned v % 2 ^ (bits + 1) = (v % 2 ^ (bits + 1)).toNat := by
    have hnonneg : 0 ≤ v % 2 ^ 64 := Int.emod_nonneg v (by norm_num)
    have hnonneg' : 0 ≤ v % 2 ^ (bits + 1) := Int.emod_nonneg v (by positivity)
    rw [toUnsigned, ← Nat.cast_inj (R := ℤ), Int.natCast_mod, Int.toNat_of_nonneg hnonneg,
      Int.toNat_of_nonneg hnonneg', Nat.cast_pow, Nat.cast_ofNat, Int.emod_emod_of_dvd v hdvd]
  rw [hbits, signExtend_eq_twosValue, Nat.mod_mod, hmod, twosValue_emod]

theorem readInt_intBytes (hw : IntWidth op.nWidth) (v : ℤ) (rest : Bytes) :
    readInt (intBytes op v ++ rest) op = wrap (8 * op.nWidth) v := by
  have htake : (intBytes op v ++ rest).take op.nWidth = intBytes op v :=
    take_left' (length_intBytes hw v)
  obtain ⟨hbytes, hread⟩ | ⟨hbytes, hread⟩ := intBytes_cases hw v
  · rw [hread, htake, hbytes, loadLe_storeLe]
    exact signExtend_toUnsigned hw.bounds.1 hw.bounds.2 v
  · rw [hread, htake, hbytes, loadBe_storeBe]
    exact signExtend_toUnsigned hw.bounds.1 hw.bounds.2 v

/-- `th8BinaryStrPadByte`. -/
def strPadByte (kind : Kind) : Byte := if kind = .strSp then 0x20 else 0

/-- The bytes that `th8BinaryFormatStr` writes. -/
def strBytes (kind : Kind) (count : ℕ) (zSrc : Bytes) : Bytes :=
  let nCopy := if zSrc.length < count then zSrc.length else count
  zSrc.take nCopy ++ List.replicate (count - nCopy) (strPadByte kind)

/-- The bytes that `th8BinaryScanStr` assigns. -/
def scannedStr (kind : Kind) (zSrc : Bytes) : Bytes :=
  if kind = .strSp then zSrc.rdropWhile fun c => c == 0x20 || c == 0 else zSrc

theorem length_strBytes (kind : Kind) (count : ℕ) (zSrc : Bytes) :
    (strBytes kind count zSrc).length = count := by
  rw [strBytes, length_append, length_take, length_replicate]
  split_ifs
  · omega
  · omega

/-- `th8BinaryBitValue`. -/
def bitValue (c : Byte) : ℕ := if c = 0x30 then 0 else 1

/-- `th8BinaryHexValue`. -/
def hexValue (c : Byte) : ℕ :=
  if 0x30 ≤ c ∧ c ≤ 0x39 then c.toNat - 0x30
  else if 0x61 ≤ c ∧ c ≤ 0x66 then c.toNat - 0x61 + 10
  else if 0x41 ≤ c ∧ c ≤ 0x46 then c.toNat - 0x41 + 10
  else 0

def digitAt (value : Byte → ℕ) (zSrc : Bytes) (i : ℕ) : ℕ :=
  match zSrc[i]? with
  | none => 0
  | some c => value c

/-- The bytes that `th8BinaryFormatBits` writes. -/
def bitsBytes (bHiFirst : Bool) (count : ℕ) (zSrc : Bytes) : Bytes :=
  packCells 8 1 bHiFirst count (digitAt bitValue zSrc)

/-- The bytes that `th8BinaryFormatHex` writes. -/
def hexBytes (bHiFirst : Bool) (count : ℕ) (zSrc : Bytes) : Bytes :=
  packCells 2 4 bHiFirst count (digitAt hexValue zSrc)

/-- The digits of `kHex`. -/
def hexChar (v : ℕ) : Byte := (ascii "0123456789abcdef").getD v 0

/-- The text that `th8BinaryScanBits` assigns. -/
def scannedBits (bHiFirst : Bool) (count : ℕ) (zSrc : Bytes) : Bytes :=
  (List.range count).map fun i => 0x30 + UInt8.ofNat (cellAt 8 1 bHiFirst zSrc i)

/-- The text that `th8BinaryScanHex` assigns. -/
def scannedHex (bHiFirst : Bool) (count : ℕ) (zSrc : Bytes) : Bytes :=
  (List.range count).map fun i => hexChar (cellAt 2 4 bHiFirst zSrc i)

theorem bitValue_lt (c : Byte) : bitValue c < 2 ^ 1 := by
  rw [bitValue]
  split_ifs
  · decide
  · decide

theorem hexValue_lt (c : Byte) : hexValue c < 2 ^ 4 := by
  rw [hexValue]
  split_ifs with h h h
  · have hle : c.toNat ≤ 57 := UInt8.le_iff_toNat_le.mp h.2
    omega
  · have hle : c.toNat ≤ 102 := UInt8.le_iff_toNat_le.mp h.2
    omega
  · have hle : c.toNat ≤ 70 := UInt8.le_iff_toNat_le.mp h.2
    omega
  · norm_num

theorem digitAt_lt {value : Byte → ℕ} {n : ℕ} (h : ∀ c, value c < n) (hn : 0 < n)
    (zSrc : Bytes) (i : ℕ) : digitAt value zSrc i < n := by
  rw [digitAt]
  rcases zSrc[i]? with _ | c
  · exact hn
  · exact h c

theorem length_bitsBytes (bHiFirst : Bool) (count : ℕ) (zSrc : Bytes) :
    (bitsBytes bHiFirst count zSrc).length = (count + 7) / 8 :=
  length_packCells count

theorem length_hexBytes (bHiFirst : Bool) (count : ℕ) (zSrc : Bytes) :
    (hexBytes bHiFirst count zSrc).length = (count + 1) / 2 :=
  length_packCells count

theorem scannedBits_bitsBytes (bHiFirst : Bool) (count : ℕ) (zSrc rest : Bytes) :
    scannedBits bHiFirst count (bitsBytes bHiFirst count zSrc ++ rest) =
      (List.range count).map fun i => 0x30 + UInt8.ofNat (digitAt bitValue zSrc i) := by
  refine map_congr_left fun i hi => ?_
  have hi := mem_range.mp hi
  rw [cellAt_append (by decide) hi (length_bitsBytes _ _ _), bitsBytes,
    cellAt_packCells (by decide) (by decide) (digitAt_lt bitValue_lt (by decide) zSrc) hi]

theorem scannedHex_hexBytes (bHiFirst : Bool) (count : ℕ) (zSrc rest : Bytes) :
    scannedHex bHiFirst count (hexBytes bHiFirst count zSrc ++ rest) =
      (List.range count).map fun i => hexChar (digitAt hexValue zSrc i) := by
  refine map_congr_left fun i hi => ?_
  have hi := mem_range.mp hi
  rw [cellAt_append (by decide) hi (length_hexBytes _ _ _), hexBytes,
    cellAt_packCells (by decide) (by decide) (digitAt_lt hexValue_lt (by decide) zSrc) hi]

/-- What the code uses of the host's floating-point numbers: `Th8_ToDouble`, the patterns of
a number as a `float` and as a `double`, the numbers of such patterns, and the texts that
`%.9g` and `%.17g` print. -/
structure FloatLib where
  Double : Type
  toDouble : Bytes → Except Failure Double
  singlePattern : Double → ℕ
  doublePattern : Double → ℕ
  ofSingle : ℕ → Double
  ofDouble : ℕ → Double
  isNegative : Double → Bool
  printSingle : Double → Bytes
  printDouble : Double → Bytes

/-- `th8BinaryIsNaN32`. -/
def isNaN32 (bits : ℕ) : Bool := bits &&& 0x7f800000 == 0x7f800000 && bits &&& 0x007fffff != 0

/-- `th8BinaryIsNaN64`. -/
def isNaN64 (bits : ℕ) : Bool :=
  bits &&& 0x7ff0000000000000 == 0x7ff0000000000000 && bits &&& 0x000fffffffffffff != 0

/-- `th8BinaryFloat32Bits`. -/
def float32Bits (floats : FloatLib) (d : floats.Double) : ℕ :=
  let u := floats.singlePattern d % 2 ^ 32
  if isNaN32 u then 0x7fc00000 else u

/-- `th8BinaryFloat64Bits`. -/
def float64Bits (floats : FloatLib) (d : floats.Double) : ℕ :=
  let u := floats.doublePattern d % 2 ^ 64
  if isNaN64 u then 0x7ff8000000000000 else u

/-- The bytes that `th8BinaryWriteFloat32` writes. -/
def float32Bytes (floats : FloatLib) (eOrder : Order) (d : floats.Double) : Bytes :=
  match eOrder with
  | .little => writeU32Le (float32Bits floats d)
  | .big => writeU32Be (float32Bits floats d)

/-- The bytes that `th8BinaryWriteFloat64` writes. -/
def float64Bytes (floats : FloatLib) (eOrder : Order) (d : floats.Double) : Bytes :=
  match eOrder with
  | .little => writeU64Le (float64Bits floats d)
  | .big => writeU64Be (float64Bits floats d)

/-- `th8BinaryFormatDoubleString`, into a buffer that is large enough. -/
def formatDoubleString (floats : FloatLib) (d : floats.Double) (bSingle : Bool) : Bytes :=
  let bits := if bSingle then float32Bits floats d else float64Bits floats d
  let isNaN := if bSingle then isNaN32 bits else isNaN64 bits
  let isInf :=
    if bSingle then bits &&& 0x7f800000 == 0x7f800000 && bits &&& 0x007fffff == 0
    else bits &&& 0x7ff0000000000000 == 0x7ff0000000000000 && bits &&& 0x000fffffffffffff == 0
  if isNaN then ascii "NaN"
  else if isInf then if floats.isNegative d then ascii "-Inf" else ascii "Inf"
  else if bSingle then floats.printSingle d else floats.printDouble d

/-- The number that `binary scan` finds at the front of bytes. -/
def readFloat (floats : FloatLib) (bSingle : Bool) (eOrder : Order) (p : Bytes) : floats.Double :=
  match bSingle, eOrder with
  | true, .little => floats.ofSingle (toUnsigned (readI32Le p) % 2 ^ 32)
  | true, .big => floats.ofSingle (toUnsigned (readI32Be p) % 2 ^ 32)
  | false, .little => floats.ofDouble (toUnsigned (readI64Le p))
  | false, .big => floats.ofDouble (toUnsigned (readI64Be p))

def floatWidth (bSingle : Bool) : ℕ := if bSingle then 4 else 8

def floatBytes (floats : FloatLib) (bSingle : Bool) (eOrder : Order) (d : floats.Double) : Bytes :=
  if bSingle then float32Bytes floats eOrder d else float64Bytes floats eOrder d

theorem length_floatBytes (floats : FloatLib) (bSingle : Bool) (eOrder : Order)
    (d : floats.Double) : (floatBytes floats bSingle eOrder d).length = floatWidth bSingle := by
  rcases bSingle with _ | _
  · cases eOrder
    · simp [floatBytes, float64Bytes, writeU64Le, floatWidth]
    · simp [floatBytes, float64Bytes, writeU64Be, floatWidth]
  · cases eOrder
    · simp [floatBytes, float32Bytes, writeU32Le, floatWidth]
    · simp [floatBytes, float32Bytes, writeU32Be, floatWidth]

end Binary

end Th8
