import Mathlib
import Th8.Bigint.Library
import Th8.Lists.Spilornis

/-!
# Arguments of a command

A command gets its arguments as pointers and length words.  The low 28 bits of a word are
the length, two bits above them are tags, and a command that goes on with the word in the
place of the length leaves the argument.  So every look at the bytes of an argument says
here how far it goes, and fails where the argument has ended.
-/

namespace Th8

open Support

namespace Strings

/-- `TH8_TAG_BITS` of a length word. -/
def tagBits (t : Tags) : ℕ :=
  (if t.taint then 2 ^ 28 else 0) + (if t.sensitive then 2 ^ 29 else 0)

/-- `TH8_LEN`. -/
def lenOf (n : ℕ) : ℕ := n % 2 ^ 28

def tagsOf (n : ℕ) : Tags := ⟨n.testBit 28, n.testBit 29⟩

structure Arg where
  bytes : Bytes
  tags : Tags
  fits : bytes.length ≤ lenMask

/-- The length word of an argument (`argl`). -/
def Arg.word (a : Arg) : ℕ := a.bytes.length + tagBits a.tags

theorem tagBits_dvd (t : Tags) : 2 ^ 28 ∣ tagBits t := by
  rcases t with ⟨taint, sensitive⟩
  cases taint <;> cases sensitive <;> decide

theorem Arg.length_lt (a : Arg) : a.bytes.length < 2 ^ 28 :=
  Nat.lt_succ_of_le a.fits

theorem lenOf_add_tagBits {n : ℕ} (h : n < 2 ^ 28) (t : Tags) : lenOf (n + tagBits t) = n := by
  obtain ⟨k, hk⟩ := tagBits_dvd t
  rw [lenOf, hk, Nat.add_mul_mod_self_left, Nat.mod_eq_of_lt h]

@[simp] theorem lenOf_word (a : Arg) : lenOf a.word = a.bytes.length :=
  lenOf_add_tagBits a.length_lt a.tags

theorem tagsOf_add_tagBits {n : ℕ} (h : n < 2 ^ 28) (t : Tags) : tagsOf (n + tagBits t) = t := by
  have hbits : (n + tagBits t) / 2 ^ 28 = tagBits t / 2 ^ 28 := by
    rw [Nat.add_div_of_dvd_left (tagBits_dvd t), Nat.div_eq_of_lt h, Nat.zero_add]
  have htest (i : ℕ) : (n + tagBits t).testBit (28 + i) = (tagBits t / 2 ^ 28).testBit i := by
    rw [← hbits, Nat.testBit_div_two_pow, Nat.add_comm 28 i]
  have h28 := htest 0
  have h29 := htest 1
  rw [tagsOf, h28, h29]
  rcases t with ⟨taint, sensitive⟩
  cases taint <;> cases sensitive <;> decide

@[simp] theorem tagsOf_word (a : Arg) : tagsOf a.word = a.tags :=
  tagsOf_add_tagBits a.length_lt a.tags

/-- What a command asks the interpreter for: a poll (`Th8_Ready`) and a block of memory. -/
inductive Request where
  | ready
  | alloc (nByte : ℕ)
deriving DecidableEq

/-- How a command stops: with an error, or with a look past the end of a string. -/
inductive Stop where
  | failure (e : Failure)
  | beyond
deriving DecidableEq

abbrev Run (α : Type) := Traced Request Stop α

def fail {α : Type} (e : Failure) : Except Stop α := .error (.failure e)

def wrongNumArgs {α : Type} (zMsg : String) : Except Stop α :=
  fail (.message "wrong # args: should be \"" (ascii zMsg))

/-- A poll of `Th8_Ready`. -/
def ready : Run Unit := Traced.request .ready

/-- A block of `nByte` bytes, which is refused above `TH8_MX_ALLOC`. -/
def allocate (nByte : ℕ) : Run Unit :=
  if mxAlloc < nByte then Traced.fail (.failure (.static "out of memory"))
  else Traced.request (.alloc nByte)

def readByte (z : Bytes) (i : ℕ) : Except Stop Byte :=
  match z[i]? with
  | some c => .ok c
  | none => .error .beyond

/-- `n` bytes from an address on. -/
def readBytes (z : Bytes) (i n : ℕ) : Except Stop Bytes :=
  if i + n ≤ z.length then .ok ((z.drop i).take n) else .error .beyond

/-- The sign of `memcmp` on texts of one length. -/
def memcmp : Bytes → Bytes → ℤ
  | a :: x, b :: y => if a = b then memcmp x y else if a < b then -1 else 1
  | _, _ => 0

/-- `Th8_Memcmp` of `n` bytes of two strings. -/
def memcmpAt (x : Bytes) (i : ℕ) (y : Bytes) (j n : ℕ) : Except Stop ℤ := do
  let x ← readBytes x i n
  let y ← readBytes y j n
  return memcmp x y

def strEq (a : Arg) (zLit : String) : Except Stop Bool :=
  if lenOf a.word = (ascii zLit).length then do
    let c ← memcmpAt a.bytes 0 (ascii zLit) 0 (ascii zLit).length
    return c == 0
  else return false

/-- `Th8_ToInt` of `n` bytes from an address on. -/
def toInt (z : Bytes) (i n : ℕ) : Except Stop ℤ := do
  let z ← readBytes z i (lenOf n)
  (parseInt z).mapError .failure

def parseIndex (a : Arg) (nCount : ℤ) : Except Stop ℤ := do
  if ← strEq a "end" then return nCount - 1
  else do
    let bFromEnd ←
      if 4 < lenOf a.word then (· == 0) <$> memcmpAt a.bytes 0 (ascii "end-") 0 4
      else pure false
    if bFromEnd then do
      let offset ← toInt a.bytes 4 (lenOf a.word - 4)
      return wrapInt (nCount - 1 - offset)
    else toInt a.bytes 0 a.word

/-- `Th8_SetResult` of a string and a length word. -/
def setResult (z : Bytes) (n : ℕ) : Run TString := do
  allocate (lenOf n + 1)
  let z ← Traced.lift (readBytes z 0 (lenOf n))
  return ⟨z, tagsOf n⟩

/-- `Th8_ClearResult`, and `Th8_SetResult` of the null pointer. -/
def clearResult : Run TString := pure (.plain [])

end Strings

end Th8
