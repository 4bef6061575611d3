import Th8.Binary.Layout
import Th8.Binary.Scan

/-!
# The two cursors

`binary scan` moves its cursor over the bytes that `binary format` has produced.  The cursors
agree behind a token exactly when the fields are laid out in a way that the token of the scan
cannot mistake.
-/

namespace Th8

open Support List
open Bigint (MpLib)

namespace Binary

variable {env : Env} {t : Token} {args : List Bytes} {s s' : ScanState} {zIn : Bytes}

/-! ## One token of a scan -/

def needs (t : Token) : ℕ :=
  match t.op.kind with
  | .pad | .back | .seek => 0
  | .int | .float | .double => if t.bStar then 1 else max 1 t.count
  | _ => 1

/-- The scan has moved its cursor to `c` and goes on. -/
structure Scanned (t : Token) (s s' : ScanState) (c : ℕ) : Prop where
  iCur : s'.iCur = c
  names : s.names.length ≤ s'.names.length + needs t
  bOut : s'.bOut = s.bOut

theorem needs_pos (hvalue : t.op.kind.isCursor = false) : 1 ≤ needs t := by
  rw [needs]
  rcases hkind : t.op.kind <;> rw [hkind] at hvalue <;> try cases hvalue
  all_goals
    split_ifs
    · exact le_rfl
    · exact le_max_left _ _

variable {zVarName : Bytes}

theorem scanToken_value (hvalue : t.op.kind.isCursor = false) {rest : List Bytes}
    (hnames : s.names = zVarName :: rest) :
    scanToken env zIn t s = scanValue env zIn t zVarName s := by
  obtain ⟨hpad, hback, hseek⟩ := Kind.not_isCursor hvalue
  rw [scanToken.eq_def]
  split
  · contradiction
  · contradiction
  · contradiction
  · rw [hnames]

theorem scanned_assigned (hvalue : t.op.kind.isCursor = false) {n : ℕ} :
    Scanned t s (s.assigned n) (s.iCur + n) := by
  have hneeds := needs_pos hvalue
  refine ⟨rfl, ?_, rfl⟩
  simp only [ScanState.assigned, length_tail]
  omega

theorem bigintText_ok (t : Token) (hmp : env.mp.Exact) {p : Bytes} (hp : p.length ≤ lenMask)
    (hwide : env.bBigint = false → p.length ≤ 8) : ∃ zRes, bigintText env t p = .ok zRes := by
  rw [bigintText]
  by_cases hbig : env.bBigint = true
  · have hinOrder : Bigint.inOrder (t.op.eOrder == .big)
        (Bigint.inOrder (t.op.eOrder == .big) p) = p := by
      rcases t.op.eOrder == .big with _ | _
      · exact reverse_reverse p
      · rfl
    have hlen : (Bigint.inOrder (t.op.eOrder == .big) p).length < 2 ^ 28 := by
      rw [Bigint.length_inOrder]
      exact Nat.lt_of_le_of_lt hp (by decide)
    have hread := Bigint.fromTwosComplement_eq hmp hlen (t.op.eOrder == .big)
    rw [hinOrder] at hread
    rw [if_pos hbig]
    exact ⟨_, hread⟩
  · rw [if_neg hbig]
    split_ifs with hempty hlong
    · exact ⟨_, rfl⟩
    · exact absurd (hwide (by simpa using hbig)) (not_le.mpr hlong)
    · exact ⟨_, rfl⟩

theorem scanValue_numbers (env : Env) (zIn zVarName : Bytes)
    (hkind : t.op.kind = .int ∨ t.op.kind.isFloat = true) :
    ∃ text, ∀ s, scanValue env zIn t zVarName s =
      scanNumbers env zIn t (elemWidth t) text zVarName s := by
  rcases hkind with hkind | hkind
  · refine ⟨fun p => decimalText (readInt p t.op), fun s => ?_⟩
    simp only [scanValue, elemWidth, hkind]
  · refine ⟨fun p => formatDoubleString env.floats
      (readFloat env.floats (t.op.kind == .float) t.op.eOrder p) (t.op.kind == .float), fun s => ?_⟩
    rcases float_or_double hkind with hkind | hkind
    · simp only [scanValue, elemWidth, hkind]
      rfl
    · simp only [scanValue, elemWidth, hkind]
      rfl

theorem scanValue_str (hkind : t.op.kind = .strNul ∨ t.op.kind = .strSp) :
    scanValue env zIn t zVarName s = scanStr zIn t zVarName s := by
  rcases hkind with hkind | hkind
  · simp only [scanValue, hkind]
  · simp only [scanValue, hkind]

theorem scanValue_digits (env : Env) (zIn zVarName : Bytes) {hiFirst : Bool} {nPer : ℕ}
    {bytes : ℕ → Bytes → Bytes} (hkind : t.op.kind.digits = some (hiFirst, nPer, bytes)) :
    (nPer = 8 ∨ nPer = 2) ∧ (∀ args, fieldLen env t args = (extent t args + (nPer - 1)) / nPer) ∧
      ∃ digits, ∀ s, scanValue env zIn t zVarName s = scanDigits zIn t nPer digits zVarName s := by
  rcases hcases : t.op.kind <;> rw [hcases] at hkind <;> cases hkind
  · exact ⟨Or.inl rfl, fun args => by simp only [fieldLen, hcases],
      scannedBits false, fun s => by simp only [scanValue, hcases]⟩
  · exact ⟨Or.inl rfl, fun args => by simp only [fieldLen, hcases],
      scannedBits true, fun s => by simp only [scanValue, hcases]⟩
  · exact ⟨Or.inr rfl, fun args => by simp only [fieldLen, hcases],
      scannedHex false, fun s => by simp only [scanValue, hcases]⟩
  · exact ⟨Or.inr rfl, fun args => by simp only [fieldLen, hcases],
      scannedHex true, fun s => by simp only [scanValue, hcases]⟩

theorem scanValue_bigint (hkind : t.op.kind = .bigintFixed) :
    scanValue env zIn t zVarName s = scanBigint env zIn t zVarName s := by
  simp only [scanValue, hkind]

theorem value_cases (hvalue : t.op.kind.isCursor = false) :
    (t.op.kind = .int ∨ t.op.kind.isFloat = true) ∨ (t.op.kind = .strNul ∨ t.op.kind = .strSp) ∨
      (∃ hiFirst nPer bytes, t.op.kind.digits = some (hiFirst, nPer, bytes)) ∨
      t.op.kind = .bigintFixed := by
  rcases hkind : t.op.kind <;> rw [hkind] at hvalue <;> try cases hvalue
  · exact Or.inl (Or.inl rfl)
  · exact Or.inr (Or.inl (Or.inl rfl))
  · exact Or.inr (Or.inl (Or.inr rfl))
  · exact Or.inr (Or.inr (Or.inl ⟨_, _, _, rfl⟩))
  · exact Or.inr (Or.inr (Or.inl ⟨_, _, _, rfl⟩))
  · exact Or.inr (Or.inr (Or.inl ⟨_, _, _, rfl⟩))
  · exact Or.inr (Or.inr (Or.inl ⟨_, _, _, rfl⟩))
  · exact Or.inl (Or.inr rfl)
  · exact Or.inl (Or.inr rfl)
  · exact Or.inr (Or.inr (Or.inr rfl))

theorem scanToken_star (hmp : env.mp.Exact) (hzIn : zIn.length ≤ lenMask)
    (hstar : t.bStar = true) (hvalue : t.op.kind.isCursor = false) (hcur : s.iCur ≤ zIn.length)
    (hnames : needs t ≤ s.names.length)
    (hwide : t.op.kind = .bigintFixed → env.bBigint = false → zIn.length - s.iCur ≤ 8) :
    ∃ s', (scanToken env zIn t s).result = .ok s' ∧
      Scanned t s s' (s.iCur + (zIn.length - s.iCur) / elemWidth t * elemWidth t) := by
  obtain ⟨zVarName, rest, hcons⟩ := exists_cons_of_ne_nil
    (ne_nil_of_length_pos ((needs_pos hvalue).trans hnames))
  rw [scanToken_value hvalue hcons]
  have hone : elemWidth t = 1 → s.iCur + (zIn.length - s.iCur) / elemWidth t * elemWidth t =
      s.iCur + (zIn.length - s.iCur) := by
    intro hw
    rw [hw, Nat.div_one, Nat.mul_one]
  rcases value_cases hvalue with hkind | hkind | ⟨hiFirst, nPer, bytes, hkind⟩ | hkind
  · obtain ⟨text, hscan⟩ := scanValue_numbers env zIn zVarName hkind
    rw [hscan]
    exact ⟨_, scanNumbers_star _ text hstar, scanned_assigned hvalue⟩
  · rw [hone (by rcases hkind with hkind | hkind <;> simp only [elemWidth, hkind]),
      scanValue_str hkind]
    have hassigns := scanStr_assigns (s := s) (t := t) zIn zVarName (by rw [if_pos hstar]; omega)
    rw [if_pos hstar] at hassigns
    exact ⟨_, hassigns.2, scanned_assigned hvalue⟩
  · have hw : elemWidth t = 1 := by
      rcases hcases : t.op.kind <;> rw [hcases] at hkind <;> cases hkind <;>
        simp only [elemWidth, hcases]
    obtain ⟨hper, -, digits, hscan⟩ := scanValue_digits env zIn zVarName hkind
    rw [hone hw, hscan]
    refine ⟨_, (scanDigits_assigns zVarName digits (by rw [if_pos hstar]) ?_ (by omega)).2,
      scanned_assigned hvalue⟩
    rcases hper with rfl | rfl
    · omega
    · omega
  · rw [hone (by simp only [elemWidth, hkind]), scanValue_bigint hkind]
    have hlen : ((zIn.drop s.iCur).take (zIn.length - s.iCur)).length = zIn.length - s.iCur := by
      rw [length_take, length_drop, min_self]
    obtain ⟨zRes, hres⟩ := bigintText_ok t hmp
      (p := (zIn.drop s.iCur).take (zIn.length - s.iCur)) (by rw [hlen]; omega)
      (by rw [hlen]; exact hwide hkind)
    refine ⟨_, (scanBigint_assigns (by rw [if_pos hstar]) (fun h => ?_) (by omega) hres).2,
      scanned_assigned hvalue⟩
    rw [hstar] at h
    cases h

theorem scanToken_count (hmp : env.mp.Exact) (hzIn : zIn.length ≤ lenMask)
    (hstar : t.bStar = false) (hvalue : t.op.kind.isCursor = false)
    (hroom : s.iCur + fieldLen env t args ≤ zIn.length) (hnames : needs t ≤ s.names.length)
    (hcount : t.op.kind = .bigintFixed → t.count ≠ 0)
    (hwide : t.op.kind = .bigintFixed → env.bBigint = false → t.count ≤ 8) :
    ∃ s', (scanToken env zIn t s).result = .ok s' ∧
      Scanned t s s' (s.iCur + fieldLen env t args) := by
  obtain ⟨zVarName, rest, hcons⟩ := exists_cons_of_ne_nil
    (ne_nil_of_length_pos ((needs_pos hvalue).trans hnames))
  have hstar' : ¬t.bStar = true := by simp [hstar]
  have hextent : extent t args = t.count := by rw [extent, if_neg hstar']
  rw [scanToken_value hvalue hcons]
  rcases value_cases hvalue with hkind | hkind | ⟨hiFirst, nPer, bytes, hkind⟩ | hkind
  · obtain ⟨text, hscan⟩ := scanValue_numbers env zIn zVarName hkind
    have hfacts : fieldLen env t args = t.count * elemWidth t ∧ needs t = max 1 t.count := by
      rcases hkind with hkind | hkind
      · exact ⟨by simp only [fieldLen, hkind, hextent], by simp only [needs, hkind, if_neg hstar']⟩
      · rcases float_or_double hkind with hkind | hkind
        · exact ⟨by simp only [fieldLen, hkind, hextent],
            by simp only [needs, hkind, if_neg hstar']⟩
        · exact ⟨by simp only [fieldLen, hkind, hextent],
            by simp only [needs, hkind, if_neg hstar']⟩
    rw [hfacts.1] at hroom ⊢
    rw [hfacts.2] at hnames
    have hcountNames := (le_max_right 1 t.count).trans hnames
    rw [hscan, scanNumbers, if_neg hstar']
    refine ⟨_, (scanValues_assigns text hcountNames hroom).2, rfl, ?_, rfl⟩
    rw [hfacts.2, length_drop]
    omega
  · have hlen : fieldLen env t args = t.count := by
      rcases hkind with hkind | hkind
      · simp only [fieldLen, hkind, hextent]
      · simp only [fieldLen, hkind, hextent]
    rw [hlen] at hroom ⊢
    rw [scanValue_str hkind]
    have hassigns := scanStr_assigns (s := s) (t := t) zIn zVarName
      (by rw [if_neg hstar']; exact hroom)
    rw [if_neg hstar'] at hassigns
    exact ⟨_, hassigns.2, scanned_assigned hvalue⟩
  · obtain ⟨-, hlen, digits, hscan⟩ := scanValue_digits env zIn zVarName hkind
    rw [hlen args, hextent] at hroom ⊢
    rw [hscan]
    exact ⟨_, (scanDigits_assigns zVarName digits (by rw [if_neg hstar']) rfl hroom).2,
      scanned_assigned hvalue⟩
  · have hne := hcount hkind
    have hlen : fieldLen env t args = t.count := by
      simp only [fieldLen, hkind, bigintLen, bigintWidth, if_neg hstar', if_neg hne]
    rw [hlen] at hroom ⊢
    rw [scanValue_bigint hkind]
    have htake : ((zIn.drop s.iCur).take t.count).length = t.count := by
      rw [length_take, length_drop]
      omega
    obtain ⟨zRes, hres⟩ := bigintText_ok t hmp
      (p := (zIn.drop s.iCur).take t.count) (by rw [htake]; omega)
      (by rw [htake]; exact hwide hkind)
    exact ⟨_, (scanBigint_assigns (by rw [if_neg hstar']) (fun _ => hne) hroom hres).2,
      scanned_assigned hvalue⟩

theorem scanBigint_star (hstar : t.bStar = true) (hcur : s.iCur ≤ zIn.length)
    (h : (scanBigint env zIn t zVarName s).result = .ok s') : s'.iCur = zIn.length := by
  have hgo : ¬(!t.bStar && (t.count == 0 ||
      decide (zIn.length < s.iCur + (zIn.length - s.iCur)))) = true := by simp [hstar]
  rw [scanBigint, if_pos hstar, if_neg hgo] at h
  obtain ⟨zRes, -, h⟩ := Traced.bind_eq_ok.mp h
  obtain ⟨-, -, h⟩ := Traced.bind_eq_ok.mp h
  obtain ⟨-, -, h⟩ := Traced.bind_eq_ok.mp h
  cases h
  exact Nat.add_sub_cancel' hcur

theorem scanToken_cursor (hcursor : t.op.kind.isCursor = true) (hstar : t.bStar = false)
    (hroom : t.op.kind ≠ .back → cursorTo t s.iCur ≤ zIn.length) :
    ∃ s', (scanToken env zIn t s).result = .ok s' ∧ Scanned t s s' (cursorTo t s.iCur) := by
  refine ⟨{ s with iCur := cursorTo t s.iCur }, ?_, rfl, Nat.le_add_right _ _, rfl⟩
  rcases hkind : t.op.kind <;> rw [hkind] at hcursor <;> cases hcursor
  case pad =>
    have hle := hroom (by rw [hkind]; decide)
    simp only [cursorTo, hkind] at hle
    simp only [scanToken, cursorTo, hkind]
    rw [if_neg (by simp [hstar, hle])]
    rfl
  case back =>
    simp only [scanToken, cursorTo, hkind, Traced.pure_result, hstar, Bool.false_eq_true, if_false]
    split_ifs with hlt
    · rw [Nat.sub_eq_zero_of_le hlt.le]
    · rfl
  case seek =>
    have hle := hroom (by rw [hkind]; decide)
    simp only [cursorTo, hkind] at hle
    simp only [scanToken, cursorTo, hkind]
    rw [if_neg (not_lt.mpr hle)]
    rfl

end Binary

end Th8
