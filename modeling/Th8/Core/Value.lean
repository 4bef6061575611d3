import Mathlib.Data.List.Basic

/-!
# Bytes, tagged strings and growable buffers

TH8 passes a string as a pointer together with a length word.  The low 28 bits
of that word are the byte count; bit 28 marks a tainted string and bit 29 a
sensitive one.  Here a string is its list of bytes together with the two tag
bits, so `TH8_LEN` is the length of the list and the tags are a value of their
own.
-/

namespace Th8

abbrev Byte := UInt8

abbrev Bytes := List UInt8

abbrev chTab : Byte := 0x09
abbrev chNewline : Byte := 0x0a
abbrev chSpace : Byte := 0x20
abbrev chQuote : Byte := 0x22
abbrev chHash : Byte := 0x23
abbrev chDollar : Byte := 0x24
abbrev chOpenParen : Byte := 0x28
abbrev chCloseParen : Byte := 0x29
abbrev chStar : Byte := 0x2a
abbrev chColon : Byte := 0x3a
abbrev chSemicolon : Byte := 0x3b
abbrev chOpenBracket : Byte := 0x5b
abbrev chBackslash : Byte := 0x5c
abbrev chCloseBracket : Byte := 0x5d
abbrev chUnderscore : Byte := 0x5f
abbrev chOpenBrace : Byte := 0x7b
abbrev chCloseBrace : Byte := 0x7d

def ascii (s : String) : Bytes :=
  s.toList.map fun c => c.toNat.toUInt8

/-- Bit 0 of `th8CharProp`: tab, newline, vertical tab, form feed, carriage
return and space. -/
def isSpace (c : Byte) : Bool :=
  (0x09 ≤ c && c ≤ 0x0d) || c == 0x20

/-- Bits 1 and 3 of `th8CharProp`: digits, letters and the underscore. -/
def isAlnum (c : Byte) : Bool :=
  (0x30 ≤ c && c ≤ 0x39) || (0x41 ≤ c && c ≤ 0x5a) || c == 0x5f || (0x61 ≤ c && c ≤ 0x7a)

/-- Bits 1 and 5 of `th8CharProp`: decimal digits and the letters a to f in
either case. -/
def isHexDig (c : Byte) : Bool :=
  (0x30 ≤ c && c ≤ 0x39) || (0x41 ≤ c && c ≤ 0x46) || (0x61 ≤ c && c ≤ 0x66)

def isOctDig (c : Byte) : Bool :=
  0x30 ≤ c && c ≤ 0x37

/-- The two tag bits of a length word (`TH8_TAG_BITS`). -/
structure Tags where
  taint : Bool
  sensitive : Bool
deriving DecidableEq

namespace Tags

def clean : Tags := ⟨false, false⟩

def merge (a b : Tags) : Tags :=
  ⟨a.taint || b.taint, a.sensitive || b.sensitive⟩

instance : OrOp Tags := ⟨merge⟩

@[simp] theorem or_taint (a b : Tags) :
    (a ||| b).taint = (a.taint || b.taint) := rfl

@[simp] theorem or_sensitive (a b : Tags) :
    (a ||| b).sensitive = (a.sensitive || b.sensitive) := rfl

theorem ext_iff' {a b : Tags} : a = b ↔ a.taint = b.taint ∧ a.sensitive = b.sensitive := by
  cases a
  cases b
  simp

@[simp] theorem clean_or (a : Tags) : clean ||| a = a := by
  simp [ext_iff', clean]

@[simp] theorem or_clean (a : Tags) : a ||| clean = a := by
  simp [ext_iff', clean]

theorem or_assoc (a b c : Tags) : a ||| b ||| c = a ||| (b ||| c) := by
  simp [ext_iff', Bool.or_assoc]

end Tags

structure TString where
  bytes : Bytes
  tags : Tags
deriving DecidableEq

namespace TString

def plain (b : Bytes) : TString := ⟨b, Tags.clean⟩

def addTags (s : TString) (t : Tags) : TString := ⟨s.bytes, s.tags ||| t⟩

@[simp] theorem addTags_clean (s : TString) : s.addTags Tags.clean = s := by
  simp [addTags]

end TString

/-- The ways a function of the interpreter can return something other than
`TH8_OK`: an error with the text it leaves in the interpreter result, an error
that leaves the result alone, and the suspension of the evaluation. -/
inductive Failure where
  | message (zPre : String) (z : Bytes)
  | static (z : String)
  | silent
  | suspend
deriving DecidableEq

def mxStrlen : ℕ := 100 * 1024 * 1024

/-- `Th8_Buffer`: the items written so far, the allocated capacity in bytes, the
tags collected from the writes and the sticky failure flag.  The items are bytes,
except in the buffer of argument lengths, whose items are length words. -/
structure Buffer (α : Type) where
  zBuf : List α
  nAlloc : ℕ
  nTag : Tags
  bFail : Bool
deriving DecidableEq

def bufInit {α : Type} : Buffer α := ⟨[], 0, Tags.clean, false⟩

/-- `th8BufWrite` of items of `size` bytes each, with an allocator that succeeds:
the tags are recorded even when the write is dropped, a poisoned buffer stays as
it is, and growth past `TH8_MX_STRLEN` poisons the buffer. -/
def bufWrite {α : Type} (size : ℕ) (pBuf : Buffer α) (z : List α) (t : Tags) : Buffer α :=
  let b := { pBuf with nTag := pBuf.nTag ||| t }
  let nBuf := size * b.zBuf.length
  let n := size * z.length
  if b.bFail then b
  else if n = 0 then b
  else if b.nAlloc - nBuf < n then
    let nNew := (nBuf + n) * 2 + 32
    if mxStrlen < nNew then { b with bFail := true }
    else { b with zBuf := b.zBuf ++ z, nAlloc := nNew }
  else { b with zBuf := b.zBuf ++ z }

def bufAddChar (pBuf : Buffer Byte) (c : Byte) : Buffer Byte :=
  bufWrite 1 pBuf [c] Tags.clean

section BufferLemmas

variable {α : Type} {size : ℕ}

@[simp] theorem bufInit_bFail : (bufInit : Buffer α).bFail = false := rfl

@[simp] theorem bufInit_zBuf : (bufInit : Buffer α).zBuf = [] := rfl

@[simp] theorem bufInit_nTag : (bufInit : Buffer α).nTag = Tags.clean := rfl

@[simp] theorem bufWrite_nTag (b : Buffer α) (z : List α) (t : Tags) :
    (bufWrite size b z t).nTag = b.nTag ||| t := by
  unfold bufWrite
  simp only
  split_ifs <;> rfl

@[simp] theorem bufWrite_nil (b : Buffer α) (t : Tags) :
    bufWrite size b [] t = { b with nTag := b.nTag ||| t } := by
  unfold bufWrite
  simp

variable {b : Buffer α}

theorem bufWrite_bFail_of_bFail (h : b.bFail = true) (z : List α) (t : Tags) :
    (bufWrite size b z t).bFail = true := by
  unfold bufWrite
  simp [h]

theorem bufWrite_zBuf {z : List α} {t : Tags} (hsize : 0 < size)
    (h : (bufWrite size b z t).bFail = false) :
    (bufWrite size b z t).zBuf = b.zBuf ++ z := by
  unfold bufWrite at h ⊢
  simp only at h ⊢
  split_ifs at h ⊢ with hfail hlen hroom hbig
  · simp [hfail] at h
  · rcases Nat.mul_eq_zero.mp hlen with hzero | hnil
    · omega
    · simp [List.eq_nil_of_length_eq_zero hnil]
  · rfl
  · rfl

theorem bufWrite_bFail_mono {z : List α} {t : Tags} (h : (bufWrite size b z t).bFail = false) :
    b.bFail = false := by
  by_contra hne
  have hfail : b.bFail = true := by simpa using hne
  simp [bufWrite_bFail_of_bFail hfail] at h

end BufferLemmas

end Th8
