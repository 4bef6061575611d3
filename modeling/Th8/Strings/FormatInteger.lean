import Mathlib.Tactic.IntervalCases
import Th8.Bigint.Library

/-!
# Integers in `format`

An integer conversion writes the sign or the base prefix and the digits into one buffer, and
the common end of all conversions pads what is in the buffer to the width.  It knows a sign at
the front of the buffer by the first byte, and no other prefix.
-/

namespace Th8.Strings

open List Nat

structure FormatFlags where
  minus : Bool
  plus : Bool
  zero : Bool
  space : Bool
  hash : Bool
deriving DecidableEq

inductive IntConversion where
  | d | i | u | o | x | X
deriving DecidableEq

def digitLoop (base : ℕ) (digit : ℕ → Byte) : ℕ → ℕ → Bytes → Bytes
  | 0, _, acc => acc
  | fuel + 1, u, acc =>
    if u / base = 0 then digit (u % base) :: acc
    else digitLoop base digit fuel (u / base) (digit (u % base) :: acc)

/-- `zHex` from the letter of ten on. -/
def hexChar (a : Byte) (d : ℕ) : Byte :=
  if d < 10 then UInt8.ofNat (0x30 + d) else a + UInt8.ofNat (d - 10)

namespace IntConversion

def isSigned : IntConversion → Bool
  | d | i => true
  | _ => false

/-- The digits of an argument of 64 bits, the bits of which the unsigned conversions take for
a number without a sign. -/
def digits (c : IntConversion) (v : BitVec 64) : Bytes :=
  match c with
  | d | i => digitLoop 10 (hexChar 0x61) 64 v.toInt.natAbs []
  | u => digitLoop 10 (hexChar 0x61) 64 v.toNat []
  | o => digitLoop 8 (hexChar 0x61) 64 v.toNat []
  | x => digitLoop 16 (hexChar 0x61) 64 v.toNat []
  | X => digitLoop 16 (hexChar 0x41) 64 v.toNat []

def sign (c : IntConversion) (f : FormatFlags) (v : BitVec 64) : Bytes :=
  if !c.isSigned then []
  else if v.toInt < 0 then [0x2d]
  else if f.plus then [0x2b]
  else if f.space then [chSpace]
  else []

/-- The base prefix, where the flag `#` asks for one. -/
def basePrefix (c : IntConversion) (f : FormatFlags) (v : BitVec 64) : Bytes :=
  if !f.hash then []
  else
    match c with
    | o => if (c.digits v).head? = some 0x30 then [] else [0x30]
    | x => [0x30, 0x78]
    | X => [0x30, 0x58]
    | _ => []

/-- What a conversion leaves in `zNum`. -/
def convert (c : IntConversion) (f : FormatFlags) (v : BitVec 64) : Bytes :=
  c.sign f v ++ c.basePrefix f v ++ c.digits v

end IntConversion

/-- The code at `fmt_pad_and_emit`. -/
def padAndEmit (f : FormatFlags) (width : ℕ) (zNum : Bytes) : Bytes :=
  if zNum.length < width then
    let pad := width - zNum.length
    if f.minus then zNum ++ List.replicate pad chSpace
    else if f.zero ∧ (zNum.head? = some 0x2d ∨ zNum.head? = some 0x2b) then
      zNum.take 1 ++ List.replicate pad 0x30 ++ zNum.drop 1
    else List.replicate pad (if f.zero then 0x30 else chSpace) ++ zNum
  else zNum

def formatInteger (c : IntConversion) (f : FormatFlags) (width : ℕ) (v : BitVec 64) : Bytes :=
  padAndEmit f width (c.convert f v)

/-! ## The layout -/

/-- The layout of `printf`: spaces, the sign, the base prefix, zeros and digits, the fill being
behind everything for the flag `-` and zeros for the flag `0`. -/
def layout (f : FormatFlags) (width : ℕ) (sign basePrefix digits : Bytes) : Bytes :=
  let pad := width - (sign ++ basePrefix ++ digits).length
  if f.minus then sign ++ basePrefix ++ digits ++ List.replicate pad chSpace
  else if f.zero then sign ++ basePrefix ++ List.replicate pad 0x30 ++ digits
  else List.replicate pad chSpace ++ sign ++ basePrefix ++ digits

def FillMisplaced (c : IntConversion) (f : FormatFlags) (width : ℕ) (v : BitVec 64) : Prop :=
  f.zero = true ∧ f.minus = false ∧ (c.convert f v).length < width ∧
    (c.sign f v = [chSpace] ∨ (f.hash = true ∧ (c = .x ∨ c = .X)))

variable {base : ℕ} {digit : ℕ → Byte}

theorem hexDigit_hexChar {a : Byte} (ha : a = 0x61 ∨ a = 0x41) {d : ℕ} (hd : d < 16) :
    hexDigit (hexChar a d) = some d := by
  rcases ha with rfl | rfl <;> interval_cases d <;> decide

theorem numeral_digitLoop (hbase : 1 < base)
    (hdigit : ∀ d < base, hexDigit (digit d) = some d) {fuel u : ℕ} (hu : u < base ^ (fuel + 1))
    (acc : Bytes) :
    numeral base 0 (digitLoop base digit (fuel + 1) u acc) = numeral base u acc := by
  induction fuel generalizing u acc with
  | zero =>
    rw [zero_add, pow_one] at hu
    simp [digitLoop, div_eq_of_lt hu, mod_eq_of_lt hu, numeral, hdigit u hu, hu]
  | succ fuel ih =>
    have hmod := mod_lt u (lt_trans one_pos hbase)
    rw [digitLoop]
    split_ifs with hzero
    · have hlt : u < base := (div_eq_zero_iff_lt (by omega)).mp hzero
      simp [mod_eq_of_lt hlt, numeral, hdigit u hlt, hlt]
    · rw [ih (Nat.div_lt_of_lt_mul (by rwa [← pow_succ'])), numeral, hdigit _ hmod]
      simp only [hmod, if_true, div_add_mod']

namespace IntConversion

def radix : IntConversion → ℕ
  | o => 8
  | x | X => 16
  | _ => 10

def magnitude (c : IntConversion) (v : BitVec 64) : ℕ :=
  if c.isSigned then v.toInt.natAbs else v.toNat

theorem digits_spec (c : IntConversion) (v : BitVec 64) :
    c.digits v ≠ [] ∧ numeral c.radix 0 (c.digits v) = some (c.magnitude v) := by
  have hne (base : ℕ) (digit : ℕ → Byte) (fuel u : ℕ) (acc : Bytes) (h : acc ≠ [] ∨ fuel ≠ 0) :
      digitLoop base digit fuel u acc ≠ [] := by
    induction fuel generalizing u acc with
    | zero => exact h.resolve_right (not_not.mpr rfl)
    | succ fuel ih =>
      rw [digitLoop]
      split_ifs
      · exact cons_ne_nil _ _
      · exact ih _ _ (.inl (cons_ne_nil _ _))
  have hread (base : ℕ) (hbase : 1 < base ∧ base ≤ 16) (a : Byte) (ha : a = 0x61 ∨ a = 0x41)
      (u : ℕ) (hu : u < 2 ^ 64) : numeral base 0 (digitLoop base (hexChar a) 64 u []) = some u :=
    numeral_digitLoop hbase.1 (fun d hd => hexDigit_hexChar ha (Nat.lt_of_lt_of_le hd hbase.2))
      (Nat.lt_of_lt_of_le hu (Nat.pow_le_pow_left hbase.1 64)) []
  have habs : v.toInt.natAbs < 2 ^ 64 := by
    have hlo := v.le_toInt
    have hhi := v.toInt_lt
    omega
  have hnat : v.toNat < 2 ^ 64 := v.isLt
  cases c with
  | d => exact ⟨hne _ _ _ _ _ (.inr (by decide)), hread 10 (by decide) _ (.inl rfl) _ habs⟩
  | i => exact ⟨hne _ _ _ _ _ (.inr (by decide)), hread 10 (by decide) _ (.inl rfl) _ habs⟩
  | u => exact ⟨hne _ _ _ _ _ (.inr (by decide)), hread 10 (by decide) _ (.inl rfl) _ hnat⟩
  | o => exact ⟨hne _ _ _ _ _ (.inr (by decide)), hread 8 (by decide) _ (.inl rfl) _ hnat⟩
  | x => exact ⟨hne _ _ _ _ _ (.inr (by decide)), hread 16 (by decide) _ (.inl rfl) _ hnat⟩
  | X => exact ⟨hne _ _ _ _ _ (.inr (by decide)), hread 16 (by decide) _ (.inr rfl) _ hnat⟩

theorem digits_head (c : IntConversion) (v : BitVec 64) :
    (c.digits v).head? ≠ some 0x2d ∧ (c.digits v).head? ≠ some 0x2b := by
  obtain ⟨-, hnum⟩ := c.digits_spec v
  cases hdigits : c.digits v with
  | nil => exact ⟨nofun, nofun⟩
  | cons b rest =>
    rw [hdigits, numeral] at hnum
    refine ⟨fun h => ?_, fun h => ?_⟩
    · cases h
      cases hnum
    · cases h
      cases hnum

theorem sign_eq_minus_iff (c : IntConversion) (f : FormatFlags) (v : BitVec 64)
    (hc : c.isSigned = true) : c.sign f v = [0x2d] ↔ v.toInt < 0 := by
  have hspace : chSpace ≠ 0x2d := by decide
  unfold sign
  split_ifs with h1 h2 h3 h4
  · simp [hc] at h1
  · exact iff_of_true rfl h2
  · exact iff_of_false (by decide) h2
  · exact iff_of_false (by simp [hspace]) h2
  · exact iff_of_false nofun h2

theorem signed_magnitude (c : IntConversion) (f : FormatFlags) (v : BitVec 64)
    (hc : c.isSigned = true) :
    signed (decide (c.sign f v = [0x2d])) (c.magnitude v) = v.toInt := by
  simp only [sign_eq_minus_iff c f v hc, magnitude, hc, if_true, signed, decide_eq_true_eq]
  split_ifs <;> omega

theorem sign_cases (c : IntConversion) (f : FormatFlags) (v : BitVec 64) :
    c.sign f v = [] ∨ c.basePrefix f v = [] ∧
      (c.sign f v = [chSpace] ∨ c.sign f v = [0x2d] ∨ c.sign f v = [0x2b]) := by
  by_cases hc : c.isSigned = true
  · have hbase : c.basePrefix f v = [] := by
      cases c <;> first | exact ite_self _ | cases hc
    rw [hbase, sign]
    split_ifs <;> simp
  · exact .inl (if_pos (by simpa using hc))

theorem basePrefix_cases (c : IntConversion) (f : FormatFlags) (v : BitVec 64) :
    (c.basePrefix f v = [] ∨ c.basePrefix f v = [0x30]) ∧ ¬(f.hash = true ∧ (c = .x ∨ c = .X)) ∨
      (∃ b, b ≠ 0x30 ∧ c.basePrefix f v = [0x30, b]) ∧ f.hash = true ∧ (c = .x ∨ c = .X) := by
  rcases f with ⟨minus, plus, zero, space, hash⟩
  cases hash with
  | false => exact .inl ⟨.inl rfl, fun h => by cases h.1⟩
  | true =>
    cases c with
    | x => exact .inr ⟨⟨0x78, by decide, rfl⟩, rfl, .inl rfl⟩
    | X => exact .inr ⟨⟨0x58, by decide, rfl⟩, rfl, .inr rfl⟩
    | o =>
      refine .inl ⟨?_, by simp⟩
      simp only [basePrefix, Bool.not_true, Bool.false_eq_true, if_false]
      split_ifs <;> simp
    | d => exact .inl ⟨.inl rfl, by simp⟩
    | i => exact .inl ⟨.inl rfl, by simp⟩
    | u => exact .inl ⟨.inl rfl, by simp⟩

end IntConversion

theorem length_padAndEmit (f : FormatFlags) (width : ℕ) (zNum : Bytes) :
    (padAndEmit f width zNum).length = max width zNum.length := by
  rw [padAndEmit]
  by_cases hwidth : zNum.length < width
  · rw [if_pos hwidth]
    simp only
    split_ifs <;> simp <;> omega
  · rw [if_neg hwidth, max_eq_right (Nat.le_of_not_lt hwidth)]

theorem zeros_append_ne {n : ℕ} (hn : 0 < n) {b : Byte} (hb : b ≠ 0x30) (rest rest' : Bytes) :
    List.replicate n (0x30 : Byte) ++ rest ≠ b :: rest' := by
  obtain ⟨n, rfl⟩ := exists_eq_succ_of_ne_zero hn.ne'
  rw [replicate_succ, cons_append]
  exact fun h => hb (List.cons.inj h).1.symm

theorem zeroFill_iff (c : IntConversion) (f : FormatFlags) (v : BitVec 64) {pad : ℕ}
    (hpad : 0 < pad) :
    (if (c.convert f v).head? = some 0x2d ∨ (c.convert f v).head? = some 0x2b then
        (c.convert f v).take 1 ++ List.replicate pad 0x30 ++ (c.convert f v).drop 1
      else List.replicate pad 0x30 ++ c.convert f v) =
      c.sign f v ++ c.basePrefix f v ++ List.replicate pad 0x30 ++ c.digits v ↔
    ¬(c.sign f v = [chSpace] ∨ f.hash = true ∧ (c = .x ∨ c = .X)) := by
  have hspace : chSpace ≠ 0x30 ∧ chSpace ≠ 0x2d ∧ chSpace ≠ 0x2b := by decide
  obtain ⟨hminus, hplus⟩ := c.digits_head v
  unfold IntConversion.convert
  rcases c.sign_cases f v with hsign | ⟨hbase, hsign⟩
  · rw [hsign]
    rcases c.basePrefix_cases f v with ⟨hbase | hbase, hnot⟩ | ⟨⟨b, hb, hbase⟩, hhex⟩
    · simp [hbase, hminus, hplus, hnot]
    · have hcomm : List.replicate pad (0x30 : Byte) ++ 0x30 :: c.digits v =
          0x30 :: (List.replicate pad 0x30 ++ c.digits v) := by
        rw [append_cons, ← replicate_succ', replicate_succ, cons_append]
      simp [hbase, hnot, hcomm]
    · have hne := zeros_append_ne hpad hb (b :: c.digits v)
        (b :: (List.replicate pad 0x30 ++ c.digits v))
      refine iff_of_false (fun h => ?_) (not_not.mpr (.inr hhex))
      simp only [hbase, nil_append, cons_append, head?_cons] at h
      rw [if_neg (by decide), append_cons, ← replicate_succ', replicate_succ, cons_append] at h
      exact zeros_append_ne hpad hb _ _ (List.cons.inj h).2
  · have hnot : ¬(f.hash = true ∧ (c = .x ∨ c = .X)) := by
      intro hhex
      rcases c.basePrefix_cases f v with ⟨-, hnot⟩ | ⟨⟨b, -, hb⟩, -⟩
      · exact hnot hhex
      · rw [hbase] at hb
        cases hb
    rw [hbase]
    rcases hsign with hsign | hsign | hsign
    · refine iff_of_false (fun h => ?_) (not_not.mpr (.inl hsign))
      simp only [hsign, append_nil, cons_append, nil_append, head?_cons,
        Option.some.injEq, hspace, or_self, if_false] at h
      exact zeros_append_ne hpad hspace.1 _ _ h
    · simp [hsign, hnot, hspace.2.1.symm]
    · simp [hsign, hnot, hspace.2.2.symm]

/-- An integer field has the layout of `printf` exactly if its fill is not misplaced.  Its
length and its digits are right in any case. -/
theorem formatInteger_layout_iff (c : IntConversion) (f : FormatFlags) (width : ℕ) (v : BitVec 64) :
    (formatInteger c f width v = layout f width (c.sign f v) (c.basePrefix f v) (c.digits v) ↔
      ¬FillMisplaced c f width v) ∧
    (formatInteger c f width v).length =
      max width (c.sign f v ++ c.basePrefix f v ++ c.digits v).length ∧
    numeral c.radix 0 (c.digits v) = some (c.magnitude v) ∧
    (c.isSigned = true → signed (decide (c.sign f v = [0x2d])) (c.magnitude v) = v.toInt) := by
  refine ⟨?_, length_padAndEmit _ _ _, (c.digits_spec v).2, c.signed_magnitude f v⟩
  have hconvert : c.sign f v ++ c.basePrefix f v ++ c.digits v = c.convert f v := rfl
  rw [formatInteger, padAndEmit, layout, FillMisplaced, hconvert]
  by_cases hwidth : (c.convert f v).length < width
  · cases hminus : f.minus with
    | true => simp [hwidth]
    | false =>
      cases hzero : f.zero with
      | true =>
        have hfill := zeroFill_iff c f v (Nat.sub_pos_of_lt hwidth)
        simpa [hwidth] using hfill
      | false => simpa [hwidth] using hconvert.symm
  · have hpad := Nat.sub_eq_zero_of_le (Nat.le_of_not_lt hwidth)
    simp only [hwidth, hpad, replicate_zero, append_nil, nil_append, hconvert,
      ite_self, if_false, false_and, and_false, not_false_eq_true]

/-- `format %#08x 31`. -/
theorem formatInteger_prefix_inside :
    formatInteger .x ⟨false, false, true, false, true⟩ 8 31 = ascii "00000x1f" ∧
      layout ⟨false, false, true, false, true⟩ 8 [] (ascii "0x") (ascii "1f") =
        ascii "0x00001f" := by
  decide

end Th8.Strings
