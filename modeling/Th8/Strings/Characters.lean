import Mathlib.Data.List.DropRight
import Th8.Parser.Substitution
import Th8.Strings.Arguments

/-!
# Strings as characters

`Th8_Utf8Decode` takes the sequence that the lead byte at an address announces when the
length it is told leaves room for it, and a single byte otherwise.  The other functions walk
along a string with it.  The length they are told is theirs to trust: only `Th8_Utf8Len`
takes the tags off it.
-/

namespace Th8

open Support Nat

namespace Strings

/-- `Th8_Utf8Decode` of `n` bytes from an address on: the code point, or -1, and the number
of bytes. -/
def utf8Decode (z : Bytes) (i n : ℕ) : Except Stop (ℤ × ℕ) := do
  let c ← readByte z i
  let cont (k : ℕ) : Except Stop ℕ := do
    let b ← readByte z (i + k)
    return (b &&& 0x3f).toNat
  if c < 0x80 then return (c.toNat, 1)
  else if c &&& 0xe0 = 0xc0 ∧ 2 ≤ n then do
    let c₁ ← cont 1
    return (((c &&& 0x1f).toNat <<< 6 ||| c₁ : ℕ), 2)
  else if c &&& 0xf0 = 0xe0 ∧ 3 ≤ n then do
    let c₁ ← cont 1
    let c₂ ← cont 2
    return (((c &&& 0x0f).toNat <<< 12 ||| c₁ <<< 6 ||| c₂ : ℕ), 3)
  else if c &&& 0xf8 = 0xf0 ∧ 4 ≤ n then do
    let c₁ ← cont 1
    let c₂ ← cont 2
    let c₃ ← cont 3
    return (((c &&& 0x07).toNat <<< 18 ||| c₁ <<< 12 ||| c₂ <<< 6 ||| c₃ : ℕ), 4)
  else return (-1, 1)

/-- The loop of `Th8_Utf8Len`, which moves on by at least one byte in a turn. -/
def utf8LenFrom (z : Bytes) (n : ℕ) : ℕ → ℕ → Except Stop ℕ
  | 0, _ => return 0
  | fuel + 1, i =>
    if i < n then do
      let (_, nByte) ← utf8Decode z i (n - i)
      let nChar ← utf8LenFrom z n fuel (i + nByte)
      return nChar + 1
    else return 0

def utf8Len (z : Bytes) (n : ℕ) : Except Stop ℕ := utf8LenFrom z (lenOf n) (lenOf n) 0

/-- The loop of `Th8_Utf8Advance`. -/
def utf8AdvanceFrom (z : Bytes) (n : ℕ) : ℕ → ℕ → Except Stop ℕ
  | 0, i => return i
  | nChar + 1, i =>
    if i < n then do
      let (_, nByte) ← utf8Decode z i (n - i)
      utf8AdvanceFrom z n nChar (i + nByte)
    else return i

/-- `Th8_Utf8Advance`, as the distance from the start of the string. -/
def utf8Advance (z : Bytes) (n : ℕ) (nChar : ℤ) : Except Stop ℕ :=
  utf8AdvanceFrom z n nChar.toNat 0

/-- `Th8_Utf8Index`, as the distance from the start of the string. -/
def utf8Index (z : Bytes) (n : ℕ) (iChar : ℤ) : Except Stop (Option ℕ) :=
  if iChar < 0 then return none
  else do
    let p ← utf8Advance z n iChar
    return if n < p then none else some p

abbrev utf8 (cs : List Char) : Bytes := cs.flatMap String.utf8EncodeChar

/-- The number of bytes that `Th8_Utf8Decode` takes when `n` are left. -/
def seqWidth (c : Byte) (n : ℕ) : ℕ :=
  if c < 0x80 then 1
  else if c &&& 0xe0 = 0xc0 ∧ 2 ≤ n then 2
  else if c &&& 0xf0 = 0xe0 ∧ 3 ≤ n then 3
  else if c &&& 0xf8 = 0xf0 ∧ 4 ≤ n then 4
  else 1

theorem one_le_seqWidth (c : Byte) (n : ℕ) : 1 ≤ seqWidth c n := by
  unfold seqWidth
  split_ifs <;> decide

/-- The bytes of a code point: a byte of its own, or a lead byte that announces how many
bytes there are and the continuation bytes. -/
inductive Word : Bytes → Prop where
  | one (a : Byte) : a < 0x80 → Word [a]
  | two (a b : Byte) : a &&& 0xe0 = 0xc0 → b &&& 0xc0 = 0x80 → Word [a, b]
  | three (a b c : Byte) : a &&& 0xf0 = 0xe0 → b &&& 0xc0 = 0x80 → c &&& 0xc0 = 0x80 →
      Word [a, b, c]
  | four (a b c d : Byte) : a &&& 0xf8 = 0xf0 → b &&& 0xc0 = 0x80 → c &&& 0xc0 = 0x80 →
      d &&& 0xc0 = 0x80 → Word [a, b, c, d]

theorem cont_and (k : ℕ) : (UInt8.ofNat (k % 0x40 + 0x80)) &&& 0xc0 = 0x80 := by
  have hall : ∀ m < 0x40, (UInt8.ofNat (m + 0x80)) &&& 0xc0 = 0x80 := by decide
  exact hall _ (mod_lt _ (by decide))

theorem word_utf8EncodeChar (c : Char) : Word (String.utf8EncodeChar c) := by
  unfold String.utf8EncodeChar
  have h1 : ∀ m < 0x80, UInt8.ofNat m < 0x80 := by decide
  have h2 : ∀ m < 0x20, (UInt8.ofNat (m + 0xc0)) &&& 0xe0 = 0xc0 := by decide
  have h3 : ∀ m < 0x10, (UInt8.ofNat (m + 0xe0)) &&& 0xf0 = 0xe0 := by decide
  have h4 : ∀ m < 0x08, (UInt8.ofNat (m + 0xf0)) &&& 0xf8 = 0xf0 := by decide
  simp only
  split_ifs with hone htwo hthree
  · exact .one _ (h1 _ (lt_succ_of_le hone))
  · exact .two _ _ (h2 _ (mod_lt _ (by decide))) (cont_and _)
  · exact .three _ _ _ (h3 _ (mod_lt _ (by decide))) (cont_and _) (cont_and _)
  · exact .four _ _ _ _ (h4 _ (mod_lt _ (by decide))) (cont_and _) (cont_and _) (cont_and _)

/-- `string_index_command`, which reads its index in the way of `th8ParseIndex`. -/
def stringIndex : List Arg → Run TString
  | [_, _, s, index] => do
    let nStr := lenOf s.word
    let nChars ← Traced.lift (utf8Len s.bytes nStr)
    let iIndex ← Traced.lift (parseIndex index nChars)
    if iIndex < 0 ∨ nChars ≤ iIndex then clearResult
    else do
      match ← Traced.lift (utf8Index s.bytes nStr iIndex) with
      | none => clearResult
      | some zPos => do
        let (_, nByte) ← Traced.lift (utf8Decode s.bytes zPos (nStr - zPos))
        setResult (s.bytes.drop zPos) nByte
  | _ => Traced.lift (wrongNumArgs "string index string index")

/-- `string_range_command`. -/
def stringRange : List Arg → Run TString
  | [_, _, s, first, last] => do
    let nStr := lenOf s.word
    let nChars ← Traced.lift (utf8Len s.bytes nStr)
    let iFirst ← Traced.lift (parseIndex first nChars)
    let iLast ← Traced.lift (parseIndex last nChars)
    let iFirst := max iFirst 0
    let iLast := min iLast (nChars - 1)
    if iLast < iFirst then clearResult
    else do
      let zStart ← Traced.lift (utf8Index s.bytes nStr iFirst)
      let zEnd ← Traced.lift (utf8Index s.bytes nStr (iLast + 1))
      let zStart := zStart.getD nStr
      setResult (s.bytes.drop zStart) (zEnd.getD nStr - zStart + tagBits (tagsOf s.word))
  | _ => Traced.lift (wrongNumArgs "string range string first last")

def foldCase (c : Byte) : Byte := if 0x41 ≤ c ∧ c ≤ 0x5a then c + 0x20 else c

def strNoCaseEq (z : Bytes) (zLit : String) : Bool := z.map foldCase == ascii zLit

/-! ## Well-formed sequences -/

theorem lead_cases (a : Byte) :
    (a &&& 0xe0 = 0xc0 → ¬a < 0x80) ∧ (a &&& 0xf0 = 0xe0 → ¬a < 0x80 ∧ a &&& 0xe0 ≠ 0xc0) ∧
      (a &&& 0xf8 = 0xf0 → ¬a < 0x80 ∧ a &&& 0xe0 ≠ 0xc0 ∧ a &&& 0xf0 ≠ 0xe0) := by
  have hall : ∀ m < 256, (UInt8.ofNat m &&& 0xe0 = 0xc0 → ¬UInt8.ofNat m < 0x80) ∧
      (UInt8.ofNat m &&& 0xf0 = 0xe0 → ¬UInt8.ofNat m < 0x80 ∧ UInt8.ofNat m &&& 0xe0 ≠ 0xc0) ∧
      (UInt8.ofNat m &&& 0xf8 = 0xf0 → ¬UInt8.ofNat m < 0x80 ∧
        UInt8.ofNat m &&& 0xe0 ≠ 0xc0 ∧ UInt8.ofNat m &&& 0xf0 ≠ 0xe0) := by
    decide +kernel
  simpa only [UInt8.ofNat_toNat] using hall a.toNat a.toNat_lt

theorem utf8Encode_char (c : Char) :
    utf8Encode (BitVec.ofNat 32 c.toNat) = String.utf8EncodeChar c := by
  have hlt : c.toNat < 0x110000 := c.valid.elim (fun h => h.trans (by decide)) And.right
  generalize hn : c.toNat = n at hlt ⊢
  have hnat : (BitVec.ofNat 32 n).toNat = n := mod_eq_of_lt (hlt.trans (by decide))
  have hmsb : (BitVec.ofNat 32 n).msb = false := by
    rw [BitVec.msb_eq_false_iff_two_mul_lt, hnat]
    omega
  have hslt (k : ℕ) (hk : k < 2 ^ 31) :
      (BitVec.ofNat 32 n).slt (BitVec.ofNat 32 k) = decide (n < k) := by
    rw [BitVec.slt_eq_decide, BitVec.toInt_eq_toNat_of_msb hmsb, hnat, BitVec.toInt_eq_toNat_of_lt,
      BitVec.toNat_ofNat, mod_eq_of_lt (by omega)]
    · simp
    · rw [BitVec.toNat_ofNat, mod_eq_of_lt (by omega)]
      omega
  have hlead (k : ℕ) (lead : BitVec 32) :
      lowByte (lead ||| (BitVec.ofNat 32 n).sshiftRight k) =
        UInt8.ofNat (lead.toNat ||| n / 2 ^ k) := by
    rw [BitVec.sshiftRight_eq_of_msb_false hmsb, lowByte, BitVec.toNat_or,
      BitVec.toNat_ushiftRight, hnat, shiftRight_eq_div_pow]
  have hcont (k : ℕ) : lowByte (0x80 ||| (BitVec.ofNat 32 n).sshiftRight k &&& 0x3f) =
      UInt8.ofNat (n / 2 ^ k % 0x40 + 0x80) := by
    have hor : ∀ m < 0x40, 0x80 ||| m = m + 0x80 := by decide
    rw [BitVec.sshiftRight_eq_of_msb_false hmsb, lowByte, BitVec.toNat_or, BitVec.toNat_and,
      BitVec.toNat_ushiftRight, hnat, shiftRight_eq_div_pow]
    exact congrArg _ ((congrArg _ (and_two_pow_sub_one_eq_mod _ 6)).trans
      (hor _ (mod_lt _ (by decide))))
  have h2 : ∀ m < 0x20, (0xc0 : BitVec 32).toNat ||| m = m % 0x20 + 0xc0 := by decide
  have h3 : ∀ m < 0x10, (0xe0 : BitVec 32).toNat ||| m = m % 0x10 + 0xe0 := by decide
  have h4 : ∀ m < 0x08, (0xf0 : BitVec 32).toNat ||| m = m % 0x08 + 0xf0 := by decide
  have hlow : lowByte (BitVec.ofNat 32 n) = UInt8.ofNat n := congrArg UInt8.ofNat hnat
  unfold utf8Encode String.utf8EncodeChar
  rw [show (BitVec.ofNat 32 n).slt 0x80 = _ from hslt 0x80 (by decide),
    show (BitVec.ofNat 32 n).slt 0x800 = _ from hslt 0x800 (by decide),
    show (BitVec.ofNat 32 n).slt 0x10000 = _ from hslt 0x10000 (by decide)]
  simp only [hlead, hcont, hlow, show c.val.toNat = n from hn, decide_eq_true_eq]
  have hle (k : ℕ) : n ≤ k ↔ n < k + 1 := Nat.lt_succ_iff.symm
  simp only [hle 0x7f, hle 0x7ff, hle 0xffff]
  by_cases hone : n < 0x80
  · simp [hone]
  by_cases htwo : n < 0x800
  · rw [h2 _ (by omega)]
    simp [hone, htwo]
  by_cases hthree : n < 0x10000
  · rw [h3 _ (by omega)]
    simp [hone, htwo, hthree]
  · rw [h4 _ (by omega)]
    simp [hone, htwo, hthree]

/-- `Th8_Utf8Decode` of a sequence of bytes.  Of an empty one it writes no length. -/
def decodeFirst (z : Bytes) : Except Stop (ℤ × ℕ) :=
  if z = [] then .ok (-1, 0) else utf8Decode z 0 z.length

variable {a : Byte}

theorem decodeFirst_one (ha : a < 0x80) (rest : Bytes) :
    decodeFirst (a :: rest) = .ok (a.toNat, 1) := by
  simp [decodeFirst, utf8Decode, readByte, ha]

theorem decodeFirst_two (ha : a &&& 0xe0 = 0xc0) (b : Byte) (rest : Bytes) :
    decodeFirst (a :: b :: rest) =
      .ok ((((a &&& 0x1f).toNat <<< 6 ||| (b &&& 0x3f).toNat : ℕ) : ℤ), 2) := by
  simp [decodeFirst, utf8Decode, readByte, ha, (lead_cases a).1 ha]

theorem decodeFirst_three (ha : a &&& 0xf0 = 0xe0) (b c : Byte) (rest : Bytes) :
    decodeFirst (a :: b :: c :: rest) =
      .ok ((((a &&& 0x0f).toNat <<< 12 ||| (b &&& 0x3f).toNat <<< 6 |||
        (c &&& 0x3f).toNat : ℕ) : ℤ), 3) := by
  obtain ⟨h1, h2⟩ := (lead_cases a).2.1 ha
  simp [decodeFirst, utf8Decode, readByte, ha, h1, h2]

theorem decodeFirst_four (ha : a &&& 0xf8 = 0xf0) (b c d : Byte) (rest : Bytes) :
    decodeFirst (a :: b :: c :: d :: rest) =
      .ok ((((a &&& 0x07).toNat <<< 18 ||| (b &&& 0x3f).toNat <<< 12 |||
        (c &&& 0x3f).toNat <<< 6 ||| (d &&& 0x3f).toNat : ℕ) : ℤ), 4) := by
  obtain ⟨h1, h2, h3⟩ := (lead_cases a).2.2 ha
  simp [decodeFirst, utf8Decode, readByte, ha, h1, h2, h3]

theorem decodeFirst_char (c : Char) (rest : Bytes) :
    decodeFirst (String.utf8EncodeChar c ++ rest) =
      .ok (c.toNat, (String.utf8EncodeChar c).length) := by
  have hlt : c.toNat < 0x110000 := c.valid.elim (fun h => h.trans (by decide)) And.right
  generalize hn : c.toNat = n at hlt ⊢
  have h1 : ∀ m < 0x80, UInt8.ofNat m < 0x80 ∧ (UInt8.ofNat m).toNat = m := by decide
  have h2 : ∀ m < 0x20, (UInt8.ofNat (m + 0xc0)) &&& 0xe0 = 0xc0 ∧
      ((UInt8.ofNat (m + 0xc0)) &&& 0x1f).toNat = m := by decide
  have h3 : ∀ m < 0x10, (UInt8.ofNat (m + 0xe0)) &&& 0xf0 = 0xe0 ∧
      ((UInt8.ofNat (m + 0xe0)) &&& 0x0f).toNat = m := by decide
  have h4 : ∀ m < 0x08, (UInt8.ofNat (m + 0xf0)) &&& 0xf8 = 0xf0 ∧
      ((UInt8.ofNat (m + 0xf0)) &&& 0x07).toNat = m := by decide
  have hcont (k : ℕ) : ((UInt8.ofNat (k % 0x40 + 0x80)) &&& 0x3f).toNat = k % 0x40 := by
    have hall : ∀ m < 0x40, ((UInt8.ofNat (m + 0x80)) &&& 0x3f).toNat = m := by decide
    exact hall _ (mod_lt _ (by decide))
  have hbits (i : ℕ) {a b : ℕ} (h : b < 2 ^ i) : a <<< i ||| b = a * 2 ^ i + b := by
    rw [← shiftLeft_add_eq_or_of_lt h, shiftLeft_eq]
  unfold String.utf8EncodeChar
  simp only [show c.val.toNat = n from hn]
  split_ifs with hone htwo hthree
  · obtain ⟨hlow, hvalue⟩ := h1 n (lt_succ_of_le hone)
    exact (decodeFirst_one hlow rest).trans (by rw [hvalue]; rfl)
  · obtain ⟨hlead, hvalue⟩ := h2 _ (mod_lt (n / 64) (by decide))
    refine (decodeFirst_two hlead _ rest).trans ?_
    rw [hvalue, hcont, hbits 6 (by omega)]
    congr
    omega
  · obtain ⟨hlead, hvalue⟩ := h3 _ (mod_lt (n / 4096) (by decide))
    refine (decodeFirst_three hlead _ _ rest).trans ?_
    have h6 : n % 0x40 < 2 ^ 6 := mod_lt _ (by decide)
    rw [hvalue, hcont, hcont, Nat.or_assoc, hbits 6 h6, hbits 12 (by omega)]
    congr
    omega
  · obtain ⟨hlead, hvalue⟩ := h4 _ (mod_lt (n / 262144) (by decide))
    refine (decodeFirst_four hlead _ _ _ rest).trans ?_
    have h6 : n % 0x40 < 2 ^ 6 := mod_lt _ (by decide)
    have h12 : n / 64 % 0x40 * 2 ^ 6 + n % 0x40 < 2 ^ 12 := by omega
    rw [hvalue, hcont, hcont, hcont, Nat.or_assoc, hbits 6 h6, Nat.or_assoc, hbits 12 h12,
      hbits 18 (by omega)]
    congr
    omega

/-- The bytes that a lead byte announces, if they are there, are those of a character. -/
def LeadKeepsWord : Bytes → Prop
  | [] => True
  | a :: rest => 2 ≤ seqWidth a (rest.length + 1) →
    ∃ c, String.utf8EncodeChar c = (a :: rest).take (seqWidth a (rest.length + 1))

/-- `Th8_Utf8Decode` returns a character and its length if one starts there, and -1 if none
does. -/
def DecodesChars (z : Bytes) : Prop :=
  (∀ c, String.utf8EncodeChar c <+: z →
    decodeFirst z = .ok (c.toNat, (String.utf8EncodeChar c).length)) ∧
  ((∀ c, ¬String.utf8EncodeChar c <+: z) → ∃ nByte, decodeFirst z = .ok (-1, nByte))

theorem decodeFirst_wide {rest : Bytes} (h : 2 ≤ seqWidth a (rest.length + 1)) :
    ∃ v : ℕ, decodeFirst (a :: rest) = .ok (v, seqWidth a (rest.length + 1)) := by
  unfold seqWidth at h ⊢
  split_ifs at h ⊢ with hone htwo hthree hfour
  · omega
  · obtain ⟨ha, hn⟩ := htwo
    match rest with
    | b :: rest => exact ⟨_, decodeFirst_two ha b rest⟩
    | [] => simp at hn
  · obtain ⟨ha, hn⟩ := hthree
    match rest with
    | b :: c :: rest => exact ⟨_, decodeFirst_three ha b c rest⟩
    | [] | [_] => simp at hn
  · obtain ⟨ha, hn⟩ := hfour
    match rest with
    | b :: c :: d :: rest => exact ⟨_, decodeFirst_four ha b c d rest⟩
    | [] | [_] | [_, _] => simp at hn
  · omega

theorem decodeFirst_error {rest : Bytes} (ha : ¬a < 0x80) (h : ¬2 ≤ seqWidth a (rest.length + 1)) :
    decodeFirst (a :: rest) = .ok (-1, 1) := by
  unfold seqWidth at h
  split_ifs at h with htwo hthree hfour
  · simp at h
  · simp at h
  · simp at h
  · rw [decodeFirst, if_neg (List.cons_ne_nil _ _), utf8Decode]
    simp only [readByte, List.getElem?_cons_zero, ok_bind, List.length_cons, ha, htwo, hthree,
      hfour, if_false]
    rfl

/-- An encoded character is decoded to itself; bytes that start no character are decoded all
the same if their lead byte announces no more than there are. -/
theorem decodesChars_iff (z : Bytes) :
    (DecodesChars z ↔ LeadKeepsWord z) ∧
      ∀ c : Char, decodeFirst (utf8Encode (BitVec.ofNat 32 c.toNat) ++ z) =
        .ok (c.toNat, (String.utf8EncodeChar c).length) := by
  refine ⟨⟨fun h => ?_, fun h => ⟨fun c hc => ?_, fun hnone => ?_⟩⟩, fun c => ?_⟩
  · cases z with
    | nil => exact trivial
    | cons a rest =>
      intro hwide
      obtain ⟨v, hv⟩ := decodeFirst_wide hwide
      by_contra hne
      by_cases hchar : ∃ c, String.utf8EncodeChar c <+: a :: rest
      · obtain ⟨c, hc⟩ := hchar
        have heq := Except.ok.inj ((h.1 c hc).symm.trans hv)
        refine hne ⟨c, ?_⟩
        rw [← (Prod.mk.inj heq).2]
        exact (List.prefix_iff_eq_take.mp hc)
      · obtain ⟨nByte, herr⟩ := h.2 fun c hc => hchar ⟨c, hc⟩
        have heq := Except.ok.inj (herr.symm.trans hv)
        have := (Prod.mk.inj heq).1
        omega
  · obtain ⟨rest, rfl⟩ := hc
    exact decodeFirst_char c rest
  · cases z with
    | nil => exact ⟨0, rfl⟩
    | cons a rest =>
      by_cases ha : a < 0x80
      · have hall : ∀ m < 0x80, String.utf8EncodeChar (Char.ofNat m) = [UInt8.ofNat m] := by decide
        have hc := hall a.toNat ha
        rw [UInt8.ofNat_toNat] at hc
        exact absurd ⟨rest, by rw [hc]; rfl⟩ (hnone _)
      · refine ⟨1, decodeFirst_error ha fun hwide => ?_⟩
        obtain ⟨c, hc⟩ := h hwide
        exact hnone c (hc ▸ List.take_prefix _ _)
  · rw [utf8Encode_char]
    exact decodeFirst_char c z
/-- The overlong `C0 80` is decoded to zero. -/
theorem decodesChars_not_overlong : ¬DecodesChars [0xc0, 0x80] ∧
    decodeFirst [0xc0, 0x80] = .ok (0, 2) := by
  have hdecode : decodeFirst [0xc0, 0x80] = .ok (0, 2) := rfl
  refine ⟨fun h => ?_, hdecode⟩
  obtain ⟨n, hn⟩ := h.2 fun c ⟨rest, hc⟩ => by
    have hchar := decodeFirst_char c rest
    rw [hc, hdecode, Except.ok.injEq, Prod.mk.injEq] at hchar
    have hzero : c = Char.ofNat 0 := Char.toNat_inj.mp (by simpa using hchar.1.symm)
    rw [hzero] at hchar
    exact absurd hchar.2 (by decide)
  rw [hdecode] at hn
  cases hn

end Strings

end Th8
