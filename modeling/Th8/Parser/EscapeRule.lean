import Mathlib
import Th8.Parser.Substitution

/-!
# The rule for backslash sequences

`th8NextEscape` measures a backslash sequence and `th8SubstEscape` computes its bytes
in a second loop.  Here the rule is stated on numbers and characters, and the two
loops are compared with it.  They part where a letter that announces hexadecimal digits
has none, and where eight digits make a negative `int`.
-/

namespace Th8

open List Nat

def hexDigitNumber (c : Byte) : ℕ :=
  if c ≤ 0x39 then c.toNat - 0x30
  else if c ≤ 0x46 then c.toNat - 0x41 + 10
  else c.toNat - 0x61 + 10

def octDigitNumber (c : Byte) : ℕ := c.toNat - 0x30

def digitsNumber (base : ℕ) (digit : Byte → ℕ) (digits : Bytes) : ℕ :=
  digits.foldl (fun val c => val * base + digit c) 0

def hexNumber (digits : Bytes) : ℕ := digitsNumber 16 hexDigitNumber digits

def octNumber (digits : Bytes) : ℕ := digitsNumber 8 octDigitNumber digits

def scalar (val : ℕ) : Char := if h : val.isValidChar then Char.ofNatAux val h else '\uFFFD'

/-- The letters that announce hexadecimal digits: `x`, `u` and `U`. -/
def isHexLetter (e : Byte) : Bool := e == 0x78 || e == 0x75 || e == 0x55

/-- The bytes that a backslash sequence stands for. -/
def tclEscape (zEsc : Bytes) : Bytes :=
  match zEsc with
  | _ :: e :: digits =>
    if e = 0x61 then [0x07]
    else if e = 0x62 then [0x08]
    else if e = 0x66 then [0x0c]
    else if e = 0x6e then [0x0a]
    else if e = 0x72 then [0x0d]
    else if e = 0x74 then [0x09]
    else if e = 0x76 then [0x0b]
    else if e = chNewline then [chSpace]
    else if isHexLetter e then
      match digits with
      | [] => [e]
      | _ :: _ =>
        if e = 0x78 then [UInt8.ofNat (hexNumber digits)]
        else String.utf8EncodeChar (scalar (hexNumber digits))
    else if isOctDig e then [UInt8.ofNat (octNumber (e :: digits))]
    else [e]
  | _ => zEsc

/-- The backslash sequences that keep to the rule: a letter that announces digits has
some, and the digits after `U` denote a number that is no negative `int`. -/
def KeepsRule (zEsc : Bytes) : Prop :=
  match zEsc with
  | _ :: e :: digits =>
    (isHexLetter e = true → digits ≠ []) ∧ (e = 0x55 → hexNumber digits < 2 ^ 31)
  | _ => True

section Digits

variable {k : ℕ} {digit : Byte → ℕ} {value : Byte → BitVec 32}

theorem shift_add_mod {n d k : ℕ} (hk : k ≤ 32) (hd : d < 2 ^ k) :
    (n * 2 ^ k + d) % 2 ^ 32 = n % 2 ^ (32 - k) * 2 ^ k + d := by
  have hpow : 2 ^ 32 = 2 ^ k * 2 ^ (32 - k) := by
    rw [← Nat.pow_add, Nat.add_sub_cancel' hk]
  have hdiv : (n * 2 ^ k + d) / 2 ^ k = n := by
    rw [Nat.mul_comm, Nat.mul_add_div (Nat.two_pow_pos k), Nat.div_eq_of_lt hd, Nat.add_zero]
  have hmod : (n * 2 ^ k + d) % 2 ^ k = d := by
    rw [Nat.mul_comm, Nat.mul_add_mod, Nat.mod_eq_of_lt hd]
  rw [hpow, Nat.mod_mul, hmod, hdiv, Nat.add_comm, Nat.mul_comm]

theorem toNat_foldl_digits (hk : k ≤ 32) {digits : Bytes}
    (hvalue : ∀ c ∈ digits, (value c).toNat = digit c ∧ digit c < 2 ^ k) {v : BitVec 32}
    {n : ℕ} (hv : v.toNat = n % 2 ^ 32) :
    (digits.foldl (fun (val : BitVec 32) c => val <<< k ||| value c) v).toNat =
      digits.foldl (fun val c => val * 2 ^ k + digit c) n % 2 ^ 32 := by
  induction digits generalizing v n with
  | nil => exact hv
  | cons c digits ih =>
    obtain ⟨hc, hlt⟩ := hvalue c mem_cons_self
    apply ih fun d hd => hvalue d (mem_cons_of_mem c hd)
    have hleft : (v <<< k).toNat = (n % 2 ^ (32 - k)) <<< k := by
      have hshift := shift_add_mod (n := n) hk (Nat.two_pow_pos k)
      rw [Nat.add_zero, Nat.add_zero] at hshift
      rw [BitVec.toNat_shiftLeft, hv, shiftLeft_eq, mod_mul_mod, hshift, shiftLeft_eq]
    rw [BitVec.toNat_or, hleft, hc, ← Nat.shiftLeft_add_eq_or_of_lt hlt,
      shiftLeft_eq, shift_add_mod hk hlt]

end Digits

variable {c : Byte}

theorem hexVal_toNat (h : isHexDig c = true) :
    (hexVal c).toNat = hexDigitNumber c ∧ hexDigitNumber c < 2 ^ 4 := by
  have hall : ∀ m < 256, isHexDig (UInt8.ofNat m) = true →
      (hexVal (UInt8.ofNat m)).toNat = hexDigitNumber (UInt8.ofNat m) ∧
        hexDigitNumber (UInt8.ofNat m) < 2 ^ 4 := by decide +kernel
  simpa using hall c.toNat c.toNat_lt (by simpa using h)

variable {digits : Bytes}

theorem hexRun_toNat (h : ∀ c ∈ digits, isHexDig c = true) :
    (hexRun digits).toNat = hexNumber digits % 2 ^ 32 :=
  toNat_foldl_digits (k := 4) (by decide) (fun c hc => hexVal_toNat (h c hc)) rfl

theorem octRun_toNat (h : ∀ c ∈ digits, isOctDig c = true) :
    (octRun digits).toNat = octNumber digits % 2 ^ 32 := by
  have hvalue : ∀ c ∈ digits, (BitVec.ofNat 32 (c.toNat - 0x30)).toNat = octDigitNumber c ∧
      octDigitNumber c < 2 ^ 3 := by
    intro c hc
    have hdigit := h c hc
    simp only [isOctDig, Bool.and_eq_true, decide_eq_true_eq, UInt8.le_iff_toNat_le] at hdigit
    have hle : c.toNat ≤ 0x37 := hdigit.2
    have hlt : c.toNat - 0x30 < 2 ^ 3 := by omega
    refine ⟨?_, hlt⟩
    rw [BitVec.toNat_ofNat, Nat.mod_eq_of_lt (by omega)]
    rfl
  exact toNat_foldl_digits (k := 3) (by decide) hvalue rfl

theorem digitsNumber_lt {base : ℕ} {digit : Byte → ℕ} (h : ∀ c ∈ digits, digit c < base) :
    digitsNumber base digit digits < base ^ digits.length := by
  induction digits using List.reverseRecOn with
  | nil => exact Nat.one_pos
  | append_singleton digits c ih =>
    have hinit := ih fun d hd => h d (mem_append_left _ hd)
    have hc := h c (by simp)
    unfold digitsNumber at hinit ⊢
    have hstep := mul_le_mul_right base hinit
    rw [succ_mul] at hstep
    rw [foldl_concat, length_append, length_singleton, Nat.pow_succ]
    omega

theorem hexNumber_lt {m : ℕ} (h : ∀ c ∈ digits, isHexDig c = true) (hlen : digits.length ≤ m) :
    hexNumber digits < 16 ^ m :=
  lt_of_lt_of_le (digitsNumber_lt fun c hc => (hexVal_toNat (h c hc)).2)
    (Nat.pow_le_pow_right (by decide) hlen)

variable {v : BitVec 32} {n : ℕ}

theorem lowByte_of_toNat (h : v.toNat = n % 2 ^ 32) : lowByte v = UInt8.ofNat n := by
  apply UInt8.toNat_inj.mp
  rw [lowByte, h, UInt8.toNat_ofNat', UInt8.toNat_ofNat', mod_mod_of_dvd _ (by decide)]

/-! ## The encoder -/

section Encoder

variable {v : BitVec 32}

theorem toInt_of_nonneg (h : v.toNat < 2 ^ 31) : v.toInt = v.toNat :=
  BitVec.toInt_eq_toNat_of_lt (by omega)

variable {w : BitVec 32}

section

variable (h : v.toNat < 2 ^ 31)

include h

theorem slt_of_nonneg (hw : w.toNat < 2 ^ 31) : v.slt w = decide (v.toNat < w.toNat) := by
  rw [BitVec.slt_eq_decide, toInt_of_nonneg h, toInt_of_nonneg hw]
  exact decide_eq_decide.mpr Int.ofNat_lt

theorem slt_ofNat_succ {m : ℕ} (hw : w.toNat = m + 1) (hm : m + 1 < 2 ^ 31) :
    v.slt w = decide (v.toNat ≤ m) := by
  rw [slt_of_nonneg h (hw ▸ hm), hw]
  exact decide_eq_decide.mpr Nat.lt_succ_iff

theorem sle_of_nonneg (hw : w.toNat < 2 ^ 31) : v.sle w = decide (v.toNat ≤ w.toNat) := by
  rw [BitVec.sle_eq_decide, toInt_of_nonneg h, toInt_of_nonneg hw]
  exact decide_eq_decide.mpr Int.ofNat_le

theorem sshiftRight_toNat (k : ℕ) : (v.sshiftRight k).toNat = v.toNat / 2 ^ k := by
  have hmsb : v.msb = false := BitVec.msb_eq_false_iff_two_mul_lt.mpr (by omega)
  rw [BitVec.sshiftRight_eq_of_msb_false hmsb, BitVec.toNat_ushiftRight, shiftRight_eq_div_pow]

end

theorem lowByte_or {a x : BitVec 32} {i t n : ℕ} (ha : a.toNat = t <<< i)
    (hx : x.toNat = n) (hn : n < 2 ^ i) : lowByte (a ||| x) = UInt8.ofNat (n + t <<< i) := by
  rw [lowByte, BitVec.toNat_or, ha, hx, ← Nat.shiftLeft_add_eq_or_of_lt hn, Nat.add_comm]

theorem six_toNat (h : v.toNat < 2 ^ 31) (k : ℕ) :
    (v.sshiftRight k &&& 0x3f).toNat = v.toNat / 2 ^ k % 0x40 := by
  rw [BitVec.toNat_and, sshiftRight_toNat h]
  exact and_two_pow_sub_one_eq_mod _ 6

theorem lowByte_continuation (h : v.toNat < 2 ^ 31) (k : ℕ) :
    lowByte (0x80 ||| (v.sshiftRight k &&& 0x3f)) = UInt8.ofNat (v.toNat / 2 ^ k % 0x40 + 0x80) :=
  lowByte_or (i := 6) (t := 2) rfl (six_toNat h k) (mod_lt _ (by decide))

theorem lowByte_lead (h : v.toNat < 2 ^ 31) {a : BitVec 32} {k m i t : ℕ}
    (ha : a.toNat = t <<< i) (hm : m ≤ 2 ^ i) (hlt : v.toNat / 2 ^ k < m) :
    lowByte (a ||| v.sshiftRight k) = UInt8.ofNat (v.toNat / 2 ^ k % m + t <<< i) := by
  rw [Nat.mod_eq_of_lt hlt]
  exact lowByte_or ha (sshiftRight_toNat h k) (lt_of_lt_of_le hlt hm)

theorem utf8Encode_char {c : Char} (hv : v.toNat = c.toNat) :
    utf8Encode v = String.utf8EncodeChar c := by
  have hmax : v.toNat < 0x110000 := by
    rw [hv]
    rcases c.valid with hlow | ⟨_, hhigh⟩
    · exact lt_trans hlow (by decide)
    · exact hhigh
  have hlt : v.toNat < 2 ^ 31 := lt_trans hmax (by decide)
  have hnat : c.val.toNat = v.toNat := hv.symm
  unfold utf8Encode String.utf8EncodeChar
  simp only [hnat, slt_ofNat_succ hlt (w := 0x80) rfl (by decide),
    slt_ofNat_succ hlt (w := 0x800) rfl (by decide),
    slt_ofNat_succ hlt (w := 0x10000) rfl (by decide), decide_eq_true_eq, lowByte_continuation hlt]
  by_cases hone : v.toNat ≤ 0x7f
  · rw [if_pos hone, if_pos hone]
    rfl
  rw [if_neg hone, if_neg hone]
  by_cases htwo : v.toNat ≤ 0x7ff
  · rw [if_pos htwo, if_pos htwo,
      lowByte_lead hlt (i := 6) (t := 3) (m := 0x20) rfl (by decide) (by omega)]
    simp
  rw [if_neg htwo, if_neg htwo]
  by_cases hthree : v.toNat ≤ 0xffff
  · rw [if_pos hthree, if_pos hthree,
      lowByte_lead hlt (i := 5) (t := 7) (m := 0x10) rfl (by decide) (by omega)]
    simp
  · rw [if_neg hthree, if_neg hthree,
      lowByte_lead hlt (i := 4) (t := 15) (m := 0x08) rfl (by decide) (by omega)]
    simp

end Encoder

theorem scalar_toNat (n : ℕ) : (scalar n).toNat = if n.isValidChar then n else 0xfffd := by
  unfold scalar
  split
  · rfl
  · rfl

theorem clampCodepoint_toNat (hv : v.toNat < 2 ^ 31) :
    (clampCodepoint v).toNat = (scalar v.toNat).toNat := by
  have hlimit : BitVec.slt 0x10ffff v = decide (0x10ffff < v.toNat) := slt_of_nonneg (by decide) hv
  have hlow : BitVec.sle 0xd800 v = decide (0xd800 ≤ v.toNat) := sle_of_nonneg (by decide) hv
  have hhigh : v.sle 0xdfff = decide (v.toNat ≤ 0xdfff) := sle_of_nonneg hv (by decide)
  rw [scalar_toNat, clampCodepoint, hlimit]
  by_cases hbig : 0x10ffff < v.toNat
  · have hinvalid : ¬v.toNat.isValidChar := by
      unfold Nat.isValidChar
      omega
    simp only [hbig, decide_true, if_true, hinvalid, if_false]
    rfl
  simp only [hbig, decide_false, Bool.false_eq_true, if_false, hlow, hhigh]
  by_cases hsurrogate : 0xd800 ≤ v.toNat ∧ v.toNat ≤ 0xdfff
  · have hinvalid : ¬v.toNat.isValidChar := by
      unfold Nat.isValidChar
      omega
    rw [if_pos (by simpa using hsurrogate), if_neg hinvalid]
    rfl
  · have hvalid : v.toNat.isValidChar := by
      unfold Nat.isValidChar
      omega
    rw [if_neg (by simpa using hsurrogate), if_pos hvalid]

theorem utf8Encode_clamp (hv : v.toNat = n) (hn : n < 2 ^ 31) :
    utf8Encode (clampCodepoint v) = String.utf8EncodeChar (scalar n) := by
  subst hv
  exact utf8Encode_char (clampCodepoint_toNat hn)

theorem utf8Encode_clamp_negative (hv : 2 ^ 31 ≤ v.toNat) :
    utf8Encode (clampCodepoint v) = [lowByte v] := by
  have hneg : v.toInt < 0 := by
    rw [BitVec.toInt_eq_toNat_cond, if_neg (by omega)]
    omega
  have hlimit : BitVec.slt 0x10ffff v = false := by
    rw [BitVec.slt_eq_decide, decide_eq_false_iff_not, Int.not_lt]
    exact Int.le_trans (Int.le_of_lt hneg) (by decide : (0 : ℤ) ≤ BitVec.toInt 0x10ffff)
  have hlow : BitVec.sle 0xd800 v = false := by
    rw [BitVec.sle_eq_decide, decide_eq_false_iff_not, Int.not_le]
    exact Int.lt_of_lt_of_le hneg (by decide : (0 : ℤ) ≤ BitVec.toInt 0xd800)
  have hone : v.slt 0x80 = true := by
    rw [BitVec.slt_eq_decide, decide_eq_true_eq]
    exact Int.lt_of_lt_of_le hneg (by decide : (0 : ℤ) ≤ BitVec.toInt 0x80)
  have hsame : clampCodepoint v = v := by
    simp only [clampCodepoint, hlimit, hlow, Bool.false_and, Bool.false_eq_true, if_false]
  rw [hsame]
  exact if_pos hone

/-- What `th8NextEscape` takes behind the byte `e`. -/
def escapeTail (e : Byte) (rest : Bytes) : Bytes := rest.take (escapeEnd e rest - 2)

theorem take_takeWhile {p : Byte → Bool} (z : Bytes) :
    z.take (z.takeWhile p).length = z.takeWhile p :=
  (prefix_iff_eq_take.mp ( takeWhile_prefix p)).symm

theorem take_takeWhile_take {p : Byte → Bool} (m : ℕ) (z : Bytes) :
    z.take ((z.take m).takeWhile p).length = (z.take m).takeWhile p :=
  (prefix_iff_eq_take.mp (( takeWhile_prefix p).trans ( take_prefix m z))).symm

theorem nextEscape_take {z : Bytes} (h : nextEscape z = .ok n) :
    ∃ c e rest, z = c :: e :: rest ∧ z.take n = c :: e :: escapeTail e rest := by
  unfold nextEscape at h
  split at h
  · rename_i c e rest
    have htwo := two_le_escapeEnd e rest
    dsimp only at h
    split_ifs at h
    cases h
    obtain ⟨k, hk⟩ := Nat.exists_eq_add_of_le' htwo
    refine ⟨c, e, rest, rfl, ?_⟩
    rw [escapeTail, hk, take_succ_cons, take_succ_cons, Nat.add_sub_cancel]
  · cases h

variable {e : Byte}

theorem escapeTail_hex (he : isHexLetter e = true) (rest : Bytes) :
    (∀ c ∈ escapeTail e rest, isHexDig c = true) ∧ (e ≠ 0x78 → (escapeTail e rest).length ≤ 8) ∧
      (e = 0x75 → (escapeTail e rest).length ≤ 4) := by
  simp only [isHexLetter, Bool.or_eq_true, beq_iff_eq] at he
  have hdigits : ∀ z : Bytes, ∀ c ∈ z.takeWhile isHexDig, isHexDig c = true :=
    fun z c hc => mem_takeWhile_imp hc
  have hlen : ∀ m, ((rest.take m).takeWhile isHexDig).length ≤ m := fun m =>
    le_trans ( takeWhile_prefix _).length_le (length_take_le m rest)
  rcases he with (rfl | rfl) | rfl
  · have htail : escapeTail 0x78 rest = rest.takeWhile isHexDig := by
      rw [escapeTail, show escapeEnd 0x78 rest = 2 + (rest.takeWhile isHexDig).length from rfl,
        Nat.add_sub_cancel_left, take_takeWhile]
    rw [htail]
    exact ⟨hdigits _, fun h => absurd rfl h, fun h => absurd h (by decide)⟩
  · have htail : escapeTail 0x75 rest = (rest.take 4).takeWhile isHexDig := by
      rw [escapeTail, show escapeEnd 0x75 rest =
        2 + ((rest.take 4).takeWhile isHexDig).length from rfl,
        Nat.add_sub_cancel_left, take_takeWhile_take]
    rw [htail]
    exact ⟨hdigits _, fun _ => le_trans (hlen 4) (by decide), fun _ => hlen 4⟩
  · have htail : escapeTail 0x55 rest = (rest.take 8).takeWhile isHexDig := by
      rw [escapeTail, show escapeEnd 0x55 rest =
        2 + ((rest.take 8).takeWhile isHexDig).length from rfl,
        Nat.add_sub_cancel_left, take_takeWhile_take]
    rw [htail]
    exact ⟨hdigits _, fun _ => hlen 8, fun h => absurd h (by decide)⟩

theorem escapeTail_oct (he : isOctDig e = true) (rest : Bytes) :
    ∀ c ∈ escapeTail e rest, isOctDig c = true := by
  have hne : ∀ b, isOctDig b = false → e ≠ b := by
    rintro b hb rfl
    rw [he] at hb
    cases hb
  have hend : escapeEnd e rest = 2 + ((rest.take 2).takeWhile isOctDig).length := by
    simp [escapeEnd, he, hne 0x61 rfl, hne 0x62 rfl, hne 0x66 rfl, hne 0x6e rfl, hne 0x72 rfl,
      hne 0x74 rfl, hne 0x76 rfl, hne chBackslash rfl, hne 0x78 rfl, hne 0x75 rfl,
      hne 0x55 rfl, hne chNewline rfl]
  rw [escapeTail, hend, Nat.add_sub_cancel_left, take_takeWhile_take]
  exact fun c hc => mem_takeWhile_imp hc

/-! ## Where the loops keep the rule -/

theorem escapeBytes_other (hhex : isHexLetter e = false)
    (hoct : isOctDig e = true → ∀ d ∈ digits, isOctDig d = true) :
    escapeBytes (c :: e :: digits) = tclEscape (c :: e :: digits) := by
  have hrun : isOctDig e = true →
      lowByte (octRun (e :: digits)) = UInt8.ofNat (octNumber (e :: digits)) := fun he =>
    lowByte_of_toNat (octRun_toNat (forall_mem_cons.mpr ⟨he, hoct he⟩))
  have hletters := hhex
  simp only [isHexLetter, Bool.or_eq_false_iff, beq_eq_false_iff_ne] at hletters
  by_cases hback : e = chBackslash
  · subst hback
    rfl
  simp only [escapeBytes, tclEscape, hhex, hback, hletters, beq_iff_eq, Bool.or_eq_true,
    Bool.false_eq_true, if_false, or_self]
  by_cases hdigit : isOctDig e = true
  · simp only [hdigit, if_true, hrun hdigit]
  · simp only [hdigit, Bool.false_eq_true, if_false]

theorem escapeBytes_x :
    escapeBytes (c :: 0x78 :: digits) = [lowByte (hexRun digits)] := rfl

section

variable (he : isHexLetter e = true)

include he

theorem escapeBytes_u (hx : e ≠ 0x78) :
    escapeBytes (c :: e :: digits) = utf8Encode (clampCodepoint (hexRun digits)) := by
  simp only [isHexLetter, Bool.or_eq_true, beq_iff_eq] at he
  rcases he with (rfl | rfl) | rfl
  · exact absurd rfl hx
  · rfl
  · rfl

theorem tclEscape_no_digits : tclEscape [c, e] = [e] := by
  simp only [isHexLetter, Bool.or_eq_true, beq_iff_eq] at he
  rcases he with (rfl | rfl) | rfl <;> rfl

theorem tclEscape_u {d : Byte} (hx : e ≠ 0x78) :
    tclEscape (c :: e :: d :: digits) =
      String.utf8EncodeChar (scalar (hexNumber (d :: digits))) := by
  simp only [isHexLetter, Bool.or_eq_true, beq_iff_eq] at he
  rcases he with (rfl | rfl) | rfl
  · exact absurd rfl hx
  · rfl
  · rfl

end

theorem scalar_big (hn : 2 ^ 31 ≤ n) : scalar n = '\uFFFD' := by
  unfold scalar
  rw [dif_neg]
  unfold Nat.isValidChar
  omega

theorem escapeBytes_eq_tclEscape_iff {z : Bytes} (h : nextEscape z = .ok n) :
    escapeBytes (z.take n) = tclEscape (z.take n) ↔ KeepsRule (z.take n) := by
  obtain ⟨c, e, rest, -, htake⟩ := nextEscape_take h
  rw [htake]
  by_cases hhex : isHexLetter e = true
  · obtain ⟨hdigits, hlen, hshort⟩ := escapeTail_hex hhex rest
    generalize escapeTail e rest = digits at hdigits hlen hshort
    have hrun := hexRun_toNat hdigits
    by_cases hx : e = 0x78
    · subst hx
      cases digits with
      | nil => simp [KeepsRule, hhex, tclEscape_no_digits hhex, escapeBytes_x, hexRun, lowByte]
      | cons d digits =>
        have hkeeps : KeepsRule (c :: 0x78 :: d :: digits) :=
          ⟨fun _ => by simp, fun hU => absurd hU (by decide)⟩
        refine iff_of_true ?_ hkeeps
        rw [escapeBytes_x, lowByte_of_toNat hrun]
        rfl
    rw [escapeBytes_u hhex hx]
    have hlt : hexNumber digits < 2 ^ 32 := hexNumber_lt hdigits (hlen hx)
    rw [Nat.mod_eq_of_lt hlt] at hrun
    cases digits with
    | nil =>
      have hzero : utf8Encode (clampCodepoint (hexRun [])) = [0] := by decide
      rw [tclEscape_no_digits hhex, hzero]
      simp only [KeepsRule, hhex, List.cons.injEq, and_true, ne_eq, not_true_eq_false,
        imp_false, false_and, iff_false]
      rintro rfl
      exact absurd hhex (by decide)
    | cons d digits =>
      rw [tclEscape_u hhex hx]
      by_cases hsmall : hexNumber (d :: digits) < 2 ^ 31
      · exact iff_of_true (utf8Encode_clamp hrun hsmall) ⟨fun _ => by simp, fun _ => hsmall⟩
      · have hU : e = 0x55 := by
          simp only [isHexLetter, Bool.or_eq_true, beq_iff_eq] at hhex
          rcases hhex with (h78 | h75) | h55
          · exact absurd h78 hx
          · exact absurd (lt_trans (hexNumber_lt hdigits (hshort h75)) (by decide)) hsmall
          · exact h55
        rw [utf8Encode_clamp_negative (by omega), scalar_big (by omega)]
        apply iff_of_false
        · have hthree : (String.utf8EncodeChar '\uFFFD').length = 3 := by decide
          intro heq
          have hlength := congrArg List.length heq
          rw [hthree] at hlength
          cases hlength
        · exact fun hkeeps => hsmall (hkeeps.2 hU)
  · rw [Bool.not_eq_true] at hhex
    refine iff_of_true (escapeBytes_other hhex fun he => escapeTail_oct he rest) ?_
    refine ⟨fun he => ?_, ?_⟩
    · rw [hhex] at he
      cases he
    · rintro rfl
      exact absurd hhex (by decide)

/-- `th8SubstEscape` emits the bytes of the rule exactly for the sequences that keep to
it. -/
theorem substEscape_eq_tclEscape_iff {z : Bytes} {n : ℕ} {output : Buffer Byte}
    (h : nextEscape z = .ok n) (hroom : (substEscape output (z.take n)).bFail = false) :
    (substEscape output (z.take n)).zBuf = output.zBuf ++ tclEscape (z.take n) ↔
      KeepsRule (z.take n) := by
  rw [substEscape, bufWrite_zBuf Nat.one_pos hroom, append_cancel_left_eq,
    escapeBytes_eq_tclEscape_iff h]

theorem substEscape_eq_tclEscape_iff_u00a9 :
    (substEscape bufInit ((ascii "\\u00a9 1998").take 6)).zBuf =
        bufInit.zBuf ++ tclEscape ((ascii "\\u00a9 1998").take 6) ↔
      KeepsRule ((ascii "\\u00a9 1998").take 6) :=
  substEscape_eq_tclEscape_iff (by decide) (by decide)

/-- `\x` without a digit becomes a zero byte instead of the letter. -/
theorem not_substEscape_eq_tclEscape :
    ¬∀ (z : Bytes) (n : ℕ) (output : Buffer Byte), nextEscape z = .ok n →
      (substEscape output (z.take n)).bFail = false →
      (substEscape output (z.take n)).zBuf = output.zBuf ++ tclEscape (z.take n) := by
  intro h
  exact absurd (h (ascii "\\x") 2 bufInit (by decide) (by decide)) (by decide)

end Th8
