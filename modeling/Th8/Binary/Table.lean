import Mathlib.Data.Nat.Basic
import Mathlib.Order.Basic
import Mathlib.Tactic.SplitIfs
import Th8.Core.Value

/-!
# The format strings of `binary`

`binary format` and `binary scan` read their format string with one tokenizer: a letter of
the table, and a count in digits or a star.  A token without a count stands for a count of
one.
-/

namespace Th8.Binary

/-- `TH8_BINARY_LE` and `TH8_BINARY_BE`. -/
inductive Order where
  | little
  | big
deriving DecidableEq

/-- `TH8_BINARY_KIND_*`, less the absence of a kind. -/
inductive Kind where
  | int
  | strNul
  | strSp
  | bitsLo
  | bitsHi
  | hexLo
  | hexHi
  | pad
  | back
  | seek
  | float
  | double
  | bigintFixed
deriving DecidableEq

/-- `Th8_BinaryOpDef`. -/
structure OpDef where
  letter : Byte
  kind : Kind
  nWidth : ℕ
  eOrder : Order
  bStarFmt : Bool
  bStarScn : Bool
deriving DecidableEq

/-- `aBinaryOps`, on a host with the given byte order (`TH8_BINARY_NATIVE`). -/
def aBinaryOps (native : Order) : List OpDef :=
  [⟨0x63, .int, 1, native, true, true⟩, ⟨0x73, .int, 2, .little, true, true⟩,
    ⟨0x53, .int, 2, .big, true, true⟩, ⟨0x74, .int, 2, native, true, true⟩,
    ⟨0x69, .int, 4, .little, true, true⟩, ⟨0x49, .int, 4, .big, true, true⟩,
    ⟨0x6e, .int, 4, native, true, true⟩, ⟨0x77, .int, 8, .little, true, true⟩,
    ⟨0x57, .int, 8, .big, true, true⟩, ⟨0x6d, .int, 8, native, true, true⟩,
    ⟨0x61, .strNul, 0, .little, true, true⟩, ⟨0x41, .strSp, 0, .little, true, true⟩,
    ⟨0x62, .bitsLo, 0, .little, true, true⟩, ⟨0x42, .bitsHi, 0, .little, true, true⟩,
    ⟨0x68, .hexLo, 0, .little, true, true⟩, ⟨0x48, .hexHi, 0, .little, true, true⟩,
    ⟨0x78, .pad, 0, .little, false, false⟩, ⟨0x58, .back, 0, .little, true, false⟩,
    ⟨0x40, .seek, 0, .little, false, false⟩, ⟨0x66, .float, 4, native, true, true⟩,
    ⟨0x72, .float, 4, .little, true, true⟩, ⟨0x52, .float, 4, .big, true, true⟩,
    ⟨0x64, .double, 8, native, true, true⟩, ⟨0x71, .double, 8, .little, true, true⟩,
    ⟨0x51, .double, 8, .big, true, true⟩, ⟨0x6a, .bigintFixed, 0, .little, true, true⟩,
    ⟨0x4a, .bigintFixed, 0, .big, true, true⟩]

/-- `th8BinaryOpFor`. -/
def opFor (native : Order) (letter : Byte) : Option OpDef :=
  (aBinaryOps native).find? fun op => op.letter == letter

/-- `th8BinaryErrBadFormat`. -/
def errBadFormat (letter : Byte) : Failure :=
  .static ("bad field specifier \"" ++
    String.singleton (if 32 ≤ letter ∧ letter < 127 then Char.ofNat letter.toNat else '?') ++
    "\"")

/-- `th8BinaryErrNotEnoughArgs`. -/
def errNotEnoughArgs : Failure := .static "not enough arguments for all format specifiers"

/-- `th8BinaryErrCountOverflow`. -/
def errCountOverflow : Failure := .static "binary count value out of range"

/-- `th8BinaryErrStarFormat`. -/
def errStarFormat : Failure := .static "cannot use \"*\" in binary format field"

/-- `TH8_BINARY_MAX_COUNT`. -/
def maxCount : ℕ := 0x3fffffff

/-- `th8BinaryIsSpace`. -/
def isBlank (c : Byte) : Bool := c == 0x20 || c == 0x09 || c == 0x0a || c == 0x0d

/-- `th8BinaryIsDigit`. -/
def isDigit (c : Byte) : Bool := 0x30 ≤ c && c ≤ 0x39

structure Token where
  op : OpDef
  count : ℕ
  bStar : Bool
deriving DecidableEq

def readCount (n : ℕ) : Bytes → Except Failure (ℕ × Bytes)
  | [] => .ok (n, [])
  | d :: rest =>
    if isDigit d then
      if maxCount / 10 < n then .error errCountOverflow
      else if maxCount < n * 10 + (d.toNat - 0x30) then .error errCountOverflow
      else readCount (n * 10 + (d.toNat - 0x30)) rest
    else .ok (n, d :: rest)

/-- `th8BinaryNextToken`: the next token and what follows it, or nothing at the end. -/
def nextToken (native : Order) (zFmt : Bytes) : Except Failure (Option (Token × Bytes)) :=
  match zFmt.dropWhile isBlank with
  | [] => .ok none
  | c :: rest =>
    match opFor native c with
    | none => .error (errBadFormat c)
    | some op =>
      match rest with
      | [] => .ok (some (⟨op, 1, false⟩, []))
      | d :: rest' =>
        if d = chStar then .ok (some (⟨op, 0, true⟩, rest'))
        else if isDigit d then
          (readCount 0 rest).map fun r => some (⟨op, r.1, false⟩, r.2)
        else .ok (some (⟨op, 1, false⟩, rest))

def tokensFrom (native : Order) : ℕ → Bytes → List Token × Option Failure
  | 0, _ => ([], none)
  | fuel + 1, zFmt =>
    match nextToken native zFmt with
    | .error e => ([], some e)
    | .ok none => ([], none)
    | .ok (some (t, rest)) =>
      (t :: (tokensFrom native fuel rest).1, (tokensFrom native fuel rest).2)

/-- Both commands read a token, carry it out and read the next one.  As reading a token does
not depend on anything else, they are given here in advance. -/
def tokens (native : Order) (zFmt : Bytes) : List Token × Option Failure :=
  tokensFrom native (zFmt.length + 1) zFmt

variable {native : Order} {zFmt rest : Bytes} {t : Token}

theorem opFor_mem {c : Byte} {op : OpDef} (h : opFor native c = some op) : op ∈ aBinaryOps native :=
  List.mem_of_find?_eq_some h

theorem width_cases {op : OpDef} (h : op ∈ aBinaryOps native) :
    (op.kind = .int → op.nWidth = 1 ∨ op.nWidth = 2 ∨ op.nWidth = 4 ∨ op.nWidth = 8) ∧
      (op.bStarFmt = false ↔ op.kind = .pad ∨ op.kind = .seek) := by
  revert op
  cases native
  · decide
  · decide

theorem one_le_maxCount : 1 ≤ maxCount := by decide

theorem readCount_spec {n m : ℕ} (hn : n ≤ maxCount) {z rest : Bytes}
    (h : readCount n z = .ok (m, rest)) : m ≤ maxCount ∧ rest.length ≤ z.length := by
  induction z generalizing n with
  | nil =>
    rw [readCount] at h
    cases h
    exact ⟨hn, le_rfl⟩
  | cons d z ih =>
    rw [readCount] at h
    split_ifs at h with hdigit hten hmax
    · obtain ⟨hm, hlen⟩ := ih (not_lt.mp hmax) h
      exact ⟨hm, hlen.trans (Nat.le_succ _)⟩
    · cases h
      exact ⟨hn, le_rfl⟩

theorem nextToken_spec (h : nextToken native zFmt = .ok (some (t, rest))) :
    rest.length < zFmt.length ∧ t.op ∈ aBinaryOps native ∧ t.count ≤ maxCount ∧
      (t.bStar = true → t.count = 0) := by
  have hdrop : (zFmt.dropWhile isBlank).length ≤ zFmt.length := (List.dropWhile_suffix _).length_le
  rw [nextToken] at h
  rcases hz : zFmt.dropWhile isBlank with _ | ⟨c, z⟩
  · rw [hz] at h
    cases h
  · rw [hz] at h hdrop
    have hlen : z.length < zFmt.length := hdrop
    dsimp only at h
    rcases hop : opFor native c with _ | op
    · rw [hop] at h
      cases h
    · rw [hop] at h
      have hmem := opFor_mem hop
      rcases z with _ | ⟨d, z⟩
      · cases h
        exact ⟨hlen, hmem, one_le_maxCount, fun h => (by cases h)⟩
      · dsimp only at h
        split_ifs at h with hstar hdigit
        · cases h
          exact ⟨(Nat.lt_succ_self _).trans hlen, hmem, Nat.zero_le _, fun _ => rfl⟩
        · rcases hcount : readCount 0 (d :: z) with e | ⟨m, rest'⟩
          · rw [hcount] at h
            cases h
          · rw [hcount] at h
            cases h
            obtain ⟨hm, hrest⟩ := readCount_spec (Nat.zero_le _) hcount
            exact ⟨hrest.trans_lt hlen, hmem, hm, fun h => (by cases h)⟩
        · cases h
          exact ⟨hlen, hmem, one_le_maxCount, fun h => (by cases h)⟩

structure Token.Valid (native : Order) (t : Token) : Prop where
  mem : t.op ∈ aBinaryOps native
  count_le : t.count ≤ maxCount
  star : t.bStar = true → t.count = 0

theorem tokensFrom_valid {fuel : ℕ} (ht : t ∈ (tokensFrom native fuel zFmt).1) :
    t.Valid native := by
  induction fuel generalizing zFmt with
  | zero => cases ht
  | succ fuel ih =>
    rw [tokensFrom] at ht
    rcases h : nextToken native zFmt with e | _ | ⟨u, rest⟩
    · rw [h] at ht
      cases ht
    · rw [h] at ht
      cases ht
    · rw [h] at ht
      rcases List.mem_cons.mp ht with rfl | ht
      · obtain ⟨-, hmem, hcount, hstar⟩ := nextToken_spec h
        exact ⟨hmem, hcount, hstar⟩
      · exact ih ht

theorem tokens_valid (ht : t ∈ (tokens native zFmt).1) : t.Valid native := tokensFrom_valid ht

end Th8.Binary
