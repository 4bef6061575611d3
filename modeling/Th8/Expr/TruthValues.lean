import Th8.Convert.Double
import Th8.Expr.Arithmetic
import Th8.Strings.Characters

/-!
# Truth values of operands

An operand stands for a truth value under `!`, on either side of `&&` and `||`, in front of
`?` and as the argument of `bool`.  All of these ask `Th8_ToBoolean`, if not at once, but the
condition of a ternary operator, which asks `Th8_ToWideInt`.

The value of an operand is the string that its evaluation leaves.
-/

namespace Th8

open Support Bigint Expr List

namespace Truth

/-- The library stops at a byte that is no digit, so that it reads nothing else than zero from
a text that does not begin with one. -/
def StopsAtDigits (mp : MpLib) : Prop :=
  ∀ {c rest radix a}, (∀ digit, hexDigit c = some digit → radix ≤ digit) →
    mp.readRadix (c :: rest) radix = some a → a = 0

/-- What depends on the build and on the interpreter: big integers are enabled for an
interpreter only in a build that has them. -/
structure TruthConfig extends Config where
  bigintBuilt : Bool
  enabled_built : bigintEnabled = true → bigintBuilt = true

def nonzeroBits (u : ℕ) : Bool := u % 2 ^ 63 != 0

/-- `Th8_ToBoolean` on a cache miss. -/
def parseBoolean (cfg : TruthConfig) (mp : MpLib) (z : Bytes) : Except Failure Bool :=
  if z = ascii "0" then .ok false
  else if z = ascii "1" then .ok true
  else if Strings.strNoCaseEq z "true" || Strings.strNoCaseEq z "yes" ||
      Strings.strNoCaseEq z "on" then .ok true
  else if Strings.strNoCaseEq z "false" || Strings.strNoCaseEq z "no" ||
      Strings.strNoCaseEq z "off" then .ok false
  else
    match parseWideInt z with
    | .ok wVal => .ok (wVal != 0)
    | .error _ =>
      if cfg.bigintBuilt && isBigint mp z then .ok true
      else
        match parseDouble false z with
        | .ok (dVal, _) => .ok (nonzeroBits dVal)
        | .error _ => .error (.message "expected boolean value but got \"" z)

/-- The entries of types `TH8_CACHE_INT`, `TH8_CACHE_WIDE` and `TH8_CACHE_BOOL` that hold a
value. -/
structure TruthCache where
  conv : ConvCache
  bool : Bytes → Option Bool

namespace TruthCache

def empty : TruthCache := ⟨ConvCache.empty, fun _ => none⟩

def toBoolean (cfg : TruthConfig) (mp : MpLib) (cache : TruthCache) (z : Bytes) :
    Except Failure Bool :=
  match cache.bool z with
  | some b => .ok b
  | none => parseBoolean cfg mp z

end TruthCache

inductive CacheOp where
  | conv (op : ConvOp)
  | toBoolean (z : Bytes)
  | evict (z : Bytes)

def cacheStep (cfg : TruthConfig) (mp : MpLib) (cache : TruthCache) : CacheOp → TruthCache
  | .conv op => { cache with conv := cache.conv.step op }
  | .toBoolean z =>
    match cache.toBoolean cfg mp z with
    | .ok b => { cache with bool := Function.update cache.bool z (some b) }
    | .error _ => cache
  | .evict z => { cache with bool := Function.update cache.bool z none }

/-! ## The positions -/

/-- `?:`, with the values of its branches, of which one is evaluated. -/
def ternaryOperator (cache : TruthCache) (zCond : Bytes)
    (evalLeft evalRight : Except Failure Bytes) : Except Failure Bytes := do
  let iCond ← cache.conv.toWideInt zCond
  if iCond ≠ 0 then evalLeft else evalRight

/-- `&&` and `||`, with the value of the right operand, which is evaluated if it must be. -/
def logicalOperator (cfg : TruthConfig) (mp : MpLib) (cache : TruthCache) (eOp : Op)
    (zLeft : Bytes) (evalRight : Except Failure Bytes) : Except Failure Bytes := do
  let bLeft ← cache.toBoolean cfg mp zLeft
  if eOp = .logicalAnd ∧ bLeft = false then .ok (decimal 0)
  else if eOp = .logicalOr ∧ bLeft = true then .ok (decimal 1)
  else do
    let zRight ← evalRight
    let bRight ← cache.toBoolean cfg mp zRight
    .ok (truth bRight)

/-- `!`.  Its wide integer is read through a cache as well, where it finds what it would
read. -/
def notOperator (cfg : TruthConfig) (mp : MpLib) (cache : TruthCache) (zLeft : Bytes) :
    Except Failure Bytes :=
  integerOperator cfg.toConfig mp (fun z => (cache.toBoolean cfg mp z).toOption) .logicalNot
    zLeft none

def mathBool (cfg : TruthConfig) (mp : MpLib) (cache : TruthCache) (z1 : Option Bytes) :
    Except Failure Bytes :=
  match z1 with
  | none => .error .silent
  | some z1 => do
    let b ← cache.toBoolean cfg mp z1
    .ok (truth b)

inductive Position where
  | condition
  | andLeft
  | andRight
  | orLeft
  | orRight
  | negation
  | argument
deriving DecidableEq

/-- The truth value of `s` at a position, by an expression whose value it decides: `s ? 1 : 0`,
`s && 1`, `1 && s`, `s || 0`, `0 || s`, `! s` turned around, and `bool(s)`. -/
def truthAt (cfg : TruthConfig) (mp : MpLib) (cache : TruthCache) (s : Bytes) :
    Position → Except Failure Bool
  | .condition => isOne (ternaryOperator cache s (.ok (decimal 1)) (.ok (decimal 0)))
  | .andLeft => isOne (logicalOperator cfg mp cache .logicalAnd s (.ok (decimal 1)))
  | .andRight => isOne (logicalOperator cfg mp cache .logicalAnd (decimal 1) (.ok s))
  | .orLeft => isOne (logicalOperator cfg mp cache .logicalOr s (.ok (decimal 0)))
  | .orRight => isOne (logicalOperator cfg mp cache .logicalOr (decimal 0) (.ok s))
  | .negation => (isOne (notOperator cfg mp cache s)).map Bool.not
  | .argument => isOne (mathBool cfg mp cache (some s))
where
  isOne (r : Except Failure Bytes) : Except Failure Bool := r.map fun z => z == decimal 1

def TruthAgrees (cfg : TruthConfig) (mp : MpLib) (cache : TruthCache) (s : Bytes) : Prop :=
  ∀ p q, (truthAt cfg mp cache s p).toOption = (truthAt cfg mp cache s q).toOption

structure Coherent (cfg : TruthConfig) (mp : MpLib) (cache : TruthCache) : Prop where
  conv : cache.conv.Coherent
  bool : ∀ z b, cache.bool z = some b → parseBoolean cfg mp z = .ok b

section Caches

variable {cfg : TruthConfig} {mp : MpLib} {cache : TruthCache}

theorem Coherent.toBoolean_eq (h : Coherent cfg mp cache) (z : Bytes) :
    cache.toBoolean cfg mp z = parseBoolean cfg mp z := by
  unfold TruthCache.toBoolean
  cases hz : cache.bool z with
  | none => rfl
  | some b => exact (h.bool z b hz).symm

theorem Coherent.step (h : Coherent cfg mp cache) (op : CacheOp) :
    Coherent cfg mp (cacheStep cfg mp cache op) := by
  cases op with
  | conv op => exact ⟨h.conv.step op, h.bool⟩
  | toBoolean z =>
    unfold cacheStep
    dsimp only
    cases hz : cache.toBoolean cfg mp z with
    | error e => exact h
    | ok b =>
      refine ⟨h.conv, fun y c hy => ?_⟩
      change Function.update cache.bool z (some b) y = some c at hy
      by_cases hyz : y = z
      · subst hyz
        rw [Function.update_self] at hy
        cases hy
        rw [← h.toBoolean_eq, hz]
      · rw [Function.update_of_ne hyz] at hy
        exact h.bool y c hy
  | evict z =>
    refine ⟨h.conv, fun y c hy => ?_⟩
    change Function.update cache.bool z none y = some c at hy
    by_cases hyz : y = z
    · subst hyz
      simp at hy
    · rw [Function.update_of_ne hyz] at hy
      exact h.bool y c hy

theorem coherent_of_reachable (h : Reachable (cacheStep cfg mp) TruthCache.empty cache) :
    Coherent cfg mp cache := by
  refine h.invariant ⟨ConvCache.coherent_of_reachable .init, ?_⟩ fun _ op hcache _ =>
    hcache.step op
  intro z b hz
  cases hz

end Caches

/-! ## Words and integers -/

def BeginsWord (z : Bytes) : Prop := ∃ c rest, z = c :: rest ∧ 0x41 ≤ c

variable {c : Byte}

theorem ne_of_letter {d : Byte} (hc : 0x41 ≤ c) (hd : d < 0x41) : c ≠ d := by
  rintro rfl
  exact absurd hc (UInt8.not_le.mpr hd)

theorem takeSign_letter (hc : 0x41 ≤ c) (rest : Bytes) :
    takeSign (c :: rest) = (false, c :: rest) := by
  unfold takeSign
  split
  · rename_i h
    exact absurd (List.cons.inj h).1 (ne_of_letter hc (by decide))
  · rename_i h
    exact absurd (List.cons.inj h).1 (ne_of_letter hc (by decide))
  · rfl

theorem ten_le_hexDigit (hc : 0x41 ≤ c) {digit : ℕ} (h : hexDigit c = some digit) : 10 ≤ digit := by
  by_contra hlow
  have hdec := (hexDigit_lt_ten.mp ⟨h, Nat.lt_of_not_le hlow⟩).1
  exact hdec (.inr (UInt8.lt_of_lt_of_le (by decide) hc))

variable {z : Bytes}

theorem BeginsWord.parseWideInt (h : BeginsWord z) (v : ℤ) : parseWideInt z ≠ .ok v := by
  obtain ⟨c, rest, rfl, hc⟩ := h
  have hbase : detectBase (c :: rest) = (10, c :: rest) :=
    detectBase_plain fun d tail h => ne_of_letter hc (by decide) (List.cons.inj h).1
  unfold Th8.parseWideInt
  rw [takeSign_letter hc]
  simp only [hbase, cons_ne_nil, if_false]
  intro h
  rw [accumWide] at h
  cases hdigit : hexDigit c with
  | none => simp [hdigit] at h
  | some digit => simp [hdigit, ten_le_hexDigit hc hdigit] at h

variable {mp : MpLib}

theorem BeginsWord.isBigint (hmp : mp.Exact) (hstops : StopsAtDigits mp) (h : BeginsWord z) :
    isBigint mp z = false := by
  obtain ⟨c, rest, rfl, hc⟩ := h
  have hblank : ((c :: rest).dropWhile fun c => c == 0x20 || c == 0x09) = c :: rest := by
    simp [ne_of_letter (d := 0x20) hc (by decide), ne_of_letter (d := 0x09) hc (by decide)]
  have hprefix : radixPrefix (c :: rest) = (10, c :: rest) := by
    unfold radixPrefix
    split
    · rename_i h
      exact absurd (List.cons.inj h).1 (ne_of_letter hc (by decide))
    · rfl
  have htake : (c :: rest).take fromStrDigits = c :: rest.take (fromStrDigits - 1) := rfl
  unfold Bigint.isBigint fromStr
  simp only [hblank, takeSign_letter hc, hprefix, htake, Bool.false_eq_true, if_false]
  cases hread : mp.readRadix (c :: rest.take (fromStrDigits - 1)) 10 with
  | none => rfl
  | some a =>
    have hzero : a = 0 := hstops (fun _ => ten_le_hexDigit hc) hread
    simp [hzero, hmp.countBits]

theorem beginsWord_of_eq {zLit : String} (hword : Strings.strNoCaseEq z zLit = true) {l : Byte}
    {lit : Bytes} (hlit : ascii zLit = l :: lit) (hl : 0x61 ≤ l) : BeginsWord z := by
  unfold Strings.strNoCaseEq at hword
  rw [beq_iff_eq, hlit] at hword
  cases z with
  | nil => cases hword
  | cons c rest =>
    refine ⟨c, rest, rfl, ?_⟩
    have hfold : Strings.foldCase c = l := (List.cons.inj hword).1
    unfold Strings.foldCase at hfold
    split_ifs at hfold with hupper
    · exact hupper.1
    · rw [hfold]
      exact UInt8.le_trans (by decide) hl

theorem parseBoolean_of_not_word {cfg : TruthConfig} (h : ¬BeginsWord z) (hzero : z ≠ ascii "0")
    (hone : z ≠ ascii "1") :
    parseBoolean cfg mp z =
      match parseWideInt z with
      | .ok wVal => .ok (wVal != 0)
      | .error _ =>
        if cfg.bigintBuilt && isBigint mp z then .ok true
        else
          match parseDouble false z with
          | .ok (dVal, _) => .ok (nonzeroBits dVal)
          | .error _ => .error (.message "expected boolean value but got \"" z) := by
  have hword : ∀ zLit l lit, ascii zLit = l :: lit → 0x61 ≤ l →
      Strings.strNoCaseEq z zLit = false := by
    intro zLit l lit hlit hl
    by_contra hword
    exact h (beginsWord_of_eq (Bool.of_not_eq_false hword) hlit hl)
  unfold parseBoolean
  rw [if_neg hzero, if_neg hone, hword "true" 0x74 _ rfl (by decide),
    hword "yes" 0x79 _ rfl (by decide), hword "on" 0x6f _ rfl (by decide),
    hword "false" 0x66 _ rfl (by decide), hword "no" 0x6e _ rfl (by decide),
    hword "off" 0x6f _ rfl (by decide)]
  rfl

variable {base : ℕ}

theorem numeral_eq_zero_iff (hbase : 0 < base) {ds : Bytes} :
    numeral base 0 ds = some 0 ↔ ∀ c ∈ ds, hexDigit c = some 0 := by
  induction ds with
  | nil => simp [numeral]
  | cons c ds ih =>
    rw [numeral]
    cases hc : hexDigit c with
    | none => simp [hc]
    | some digit =>
      by_cases hzero : digit = 0
      · subst hzero
        simp [hc, hbase, ih]
      · simp only [forall_mem_cons, hc, Option.some.injEq, hzero, false_and, iff_false]
        intro h
        simp only [Option.ite_none_right_eq_some] at h
        have hge := numeral_ge hbase h.2
        omega

theorem radixPrefix_letter {letter : Byte} (h : letterBase letter = some base) {digits : Bytes}
    (hdigits : digits ≠ []) :
    radixPrefix (0x30 :: letter :: digits) = (base, digits) := by
  obtain ⟨d, rest, rfl⟩ := exists_cons_of_ne_nil hdigits
  unfold letterBase at h
  unfold radixPrefix
  split_ifs at h with h16 h8 h2
  · cases h
    simp [h16]
  · cases h
    simp [h16, h8]
  · cases h
    simp [h16, h8, h2]

theorem radixPrefix_plain {body : Bytes}
    (h : ∀ c d rest, body = 0x30 :: c :: d :: rest → letterBase c = none) :
    radixPrefix body = (10, body) := by
  unfold radixPrefix
  split
  · rename_i c d rest
    have hnone := h c d rest rfl
    unfold letterBase at hnone
    split_ifs at hnone with h16 h8 h2
    simp [h16, h8, h2]
  · rfl

theorem radixPrefix_zero {body : Bytes} (h : IntLiteral base body 0) :
    (radixPrefix body).2 ≠ [] ∧ 0 < (radixPrefix body).1 ∧
      numeral (radixPrefix body).1 0 (radixPrefix body).2 = some 0 := by
  cases h with
  | decimal hdigits hzero hnum =>
    rw [radixPrefix_plain fun c d rest hbody => letterBase_none_of_decimal (hbody ▸ hnum)]
    exact ⟨hdigits, Nat.succ_pos 9, hnum⟩
  | @prefixed _ letter digits _ hletter hdigits hnum =>
    have hbase : 0 < base := by
      unfold letterBase at hletter
      split_ifs at hletter <;> cases hletter <;> decide
    rw [radixPrefix_letter hletter hdigits]
    exact ⟨hdigits, hbase, hnum⟩
  | octal hd hnum =>
    rw [radixPrefix_plain fun c d' rest' hbody =>
      (List.cons.inj (List.cons.inj hbody).2).1 ▸ letterBase_oct hd]
    refine ⟨cons_ne_nil _ _, Nat.succ_pos 9, (numeral_eq_zero_iff (Nat.succ_pos 9)).mpr ?_⟩
    rw [forall_mem_cons]
    exact ⟨by decide, (numeral_eq_zero_iff (by decide)).mp hnum⟩

theorem IntLiteral.head {w : ℕ} {rest : Bytes} (h : IntLiteral base (c :: rest) w) :
    c ≠ 0x20 ∧ c ≠ 0x09 := by
  cases h with
  | decimal hdigits hzero hnum =>
    constructor
    · rintro rfl
      cases hnum
    · rintro rfl
      cases hnum
  | prefixed hletter hdigits hnum => decide
  | octal hd hnum => decide

theorem dropWhile_blank {w : ℕ} (h : IntLiteral base (takeSign z).2 w) :
    (z.dropWhile fun c => c == 0x20 || c == 0x09) = z := by
  cases z with
  | nil => rfl
  | cons c rest =>
    have hblank : c ≠ 0x20 ∧ c ≠ 0x09 := by
      unfold takeSign at h
      split at h
      · rename_i hc
        rw [(List.cons.inj hc).1]
        decide
      · rename_i hc
        rw [(List.cons.inj hc).1]
        decide
      · exact IntLiteral.head h
    simp [hblank.1, hblank.2]

theorem not_isBigint_zero (hmp : mp.Exact) (h : parseWideInt z = .ok 0) :
    isBigint mp z = false := by
  obtain ⟨base, w, hlit, hw, -⟩ := parseWideInt_eq_ok.mp h
  have hzero : w = 0 := by
    unfold signed at hw
    split_ifs at hw <;> omega
  subst hzero
  obtain ⟨hne, hbase, hnum⟩ := radixPrefix_zero hlit
  have htake : (radixPrefix (takeSign z).2).2.take fromStrDigits ≠ [] := by
    obtain ⟨c, rest, hcons⟩ := exists_cons_of_ne_nil hne
    rw [hcons, fromStrDigits]
    exact cons_ne_nil _ _
  have hread : mp.readRadix ((radixPrefix (takeSign z).2).2.take fromStrDigits)
      (radixPrefix (takeSign z).2).1 = some ((0 : ℕ) : ℤ) := by
    apply hmp.readRadix htake
    rw [numeral_eq_zero_iff hbase] at hnum ⊢
    exact fun c hc => hnum c (mem_of_mem_take hc)
  unfold isBigint fromStr
  dsimp only
  rw [dropWhile_blank hlit, hread]
  dsimp only
  split_ifs
  · rw [hmp.neg]
    simp [hmp.countBits]
  · simp [hmp.countBits]

/-! ## What the positions make of a string -/

section Positions

variable {cfg : TruthConfig} {mp : MpLib} {cache : TruthCache} {s : Bytes}

theorem parseBoolean_of_wide {v : ℤ} (h : parseWideInt s = .ok v) :
    parseBoolean cfg mp s = .ok (v != 0) := by
  by_cases hzero : s = ascii "0"
  · subst hzero
    cases h
    rfl
  by_cases hone : s = ascii "1"
  · subst hone
    cases h
    rfl
  rw [parseBoolean_of_not_word (fun hword => hword.parseWideInt v h) hzero hone, h]

theorem parseBoolean_of_bigint (hmp : mp.Exact) (hstops : StopsAtDigits mp)
    (hbuilt : cfg.bigintBuilt = true) (hbig : isBigint mp s = true) :
    parseBoolean cfg mp s = .ok true := by
  cases hwide : parseWideInt s with
  | ok v =>
    have hne : v ≠ 0 := by
      rintro rfl
      rw [not_isBigint_zero hmp hwide] at hbig
      cases hbig
    rw [parseBoolean_of_wide hwide, bne_iff_ne.mpr hne]
  | error e =>
    have hword : ¬BeginsWord s := by
      intro hword
      rw [hword.isBigint hmp hstops] at hbig
      cases hbig
    have hdigit : ∀ v, s ≠ ascii v ∨ parseWideInt (ascii v) = .error e := by
      intro v
      by_cases hs : s = ascii v
      · exact .inr (hs ▸ hwide)
      · exact .inl hs
    rw [parseBoolean_of_not_word hword ((hdigit "0").resolve_right (by rintro ⟨⟩))
      ((hdigit "1").resolve_right (by rintro ⟨⟩)), hwide, hbuilt, hbig]
    rfl

theorem isOne_truth (b : Bool) : truthAt.isOne (.ok (truth b)) = .ok b := by
  cases b <;> rfl

theorem isOne_map_truth (r : Except Failure Bool) : truthAt.isOne (r.map truth) = r := by
  cases r with
  | error e => rfl
  | ok b => exact isOne_truth b

section Logical

variable {zLeft : Bytes} {eOp : Op} {r : Except Failure Bytes}

section

variable (h : Coherent cfg mp cache)

include h

theorem logicalOperator_error {e : Failure} (hleft : parseBoolean cfg mp zLeft = .error e) :
    logicalOperator cfg mp cache eOp zLeft r = .error e := by
  rw [logicalOperator, h.toBoolean_eq, hleft]
  rfl

theorem and_of_false (hleft : parseBoolean cfg mp zLeft = .ok false) :
    logicalOperator cfg mp cache .logicalAnd zLeft r = .ok (truth false) := by
  rw [logicalOperator, h.toBoolean_eq, hleft]
  rfl

theorem or_of_true (hleft : parseBoolean cfg mp zLeft = .ok true) :
    logicalOperator cfg mp cache .logicalOr zLeft r = .ok (truth true) := by
  rw [logicalOperator, h.toBoolean_eq, hleft]
  rfl

theorem and_of_true (hleft : parseBoolean cfg mp zLeft = .ok true) (zRight : Bytes) :
    logicalOperator cfg mp cache .logicalAnd zLeft (.ok zRight) =
      (parseBoolean cfg mp zRight).map truth := by
  rw [logicalOperator, h.toBoolean_eq, hleft]
  simp only [bind, Except.bind, h.toBoolean_eq]
  cases parseBoolean cfg mp zRight <;> rfl

theorem or_of_false (hleft : parseBoolean cfg mp zLeft = .ok false) (zRight : Bytes) :
    logicalOperator cfg mp cache .logicalOr zLeft (.ok zRight) =
      (parseBoolean cfg mp zRight).map truth := by
  rw [logicalOperator, h.toBoolean_eq, hleft]
  simp only [bind, Except.bind, h.toBoolean_eq]
  cases parseBoolean cfg mp zRight <;> rfl

end

end Logical

theorem truthAt_condition (h : Coherent cfg mp cache) :
    truthAt cfg mp cache s .condition = (parseWideInt s).map fun v => v != 0 := by
  simp only [truthAt, ternaryOperator, h.conv.toWideInt_eq]
  cases parseWideInt s with
  | error e => rfl
  | ok v =>
    by_cases hv : v = 0
    · subst hv
      rfl
    · simp [truthAt.isOne, bind, Except.bind, Except.map, hv]

theorem truthAt_boolean (h : Coherent cfg mp cache) {p : Position} (hcond : p ≠ .condition)
    (hneg : p ≠ .negation) : truthAt cfg mp cache s p = parseBoolean cfg mp s := by
  have hone : parseBoolean cfg mp (decimal 1) = .ok true := rfl
  have hzero : parseBoolean cfg mp (decimal 0) = .ok false := rfl
  cases p with
  | condition => exact absurd rfl hcond
  | negation => exact absurd rfl hneg
  | andLeft =>
    rw [truthAt]
    cases hs : parseBoolean cfg mp s with
    | error e => rw [logicalOperator_error h hs, truthAt.isOne, Except.map]
    | ok b =>
      cases b with
      | false => rw [and_of_false h hs, isOne_truth]
      | true => rw [and_of_true h hs, hone, isOne_map_truth]
  | andRight => rw [truthAt, and_of_true h hone, isOne_map_truth]
  | orLeft =>
    rw [truthAt]
    cases hs : parseBoolean cfg mp s with
    | error e => rw [logicalOperator_error h hs, truthAt.isOne, Except.map]
    | ok b =>
      cases b with
      | false => rw [or_of_false h hs, hzero, isOne_map_truth]
      | true => rw [or_of_true h hs, isOne_truth]
  | orRight => rw [truthAt, or_of_false h hzero, isOne_map_truth]
  | argument =>
    simp only [truthAt, mathBool, h.toBoolean_eq]
    rcases parseBoolean cfg mp s with e | b
    · rfl
    · exact isOne_truth b

theorem bigOperator_not (hmp : mp.Exact) (hbig : isBigint mp s = true) :
    bigOperator mp .logicalNot s none = .ok (truth false) := by
  unfold isBigint at hbig
  unfold bigOperator bigintUnary
  cases hread : fromStr mp s with
  | none => simp [hread] at hbig
  | some a =>
    have hne : a ≠ 0 := by
      rintro rfl
      simp [hread, hmp.countBits] at hbig
    have hzero : mp.iszero a = false := by rw [hmp.iszero, decide_eq_false hne]
    have hbuf : mp.toRadix 0 (mp.countBits 0 / 3 + 3) 10 = some (decimal 0) := by
      apply hmp.toRadix
      rw [hmp.countBits]
      decide
    simp [bind, Except.bind, hzero, unaryResult, toResult, hbuf, truth]

theorem truthAt_negation (h : Coherent cfg mp cache) (hmp : mp.Exact) (hstops : StopsAtDigits mp) :
    (truthAt cfg mp cache s .negation).toOption = (parseBoolean cfg mp s).toOption := by
  have hpath : (cfg.bigintEnabled && (isBigint mp s || (none : Option Bytes).any (isBigint mp))) =
      (cfg.bigintEnabled && isBigint mp s) := by simp
  simp only [truthAt, notOperator, integerOperator, hpath]
  by_cases hbig : (cfg.bigintEnabled && isBigint mp s) = true
  · obtain ⟨henabled, hbig⟩ := Bool.and_eq_true_iff.mp hbig
    have htrue : parseBoolean cfg mp s = .ok true :=
      parseBoolean_of_bigint hmp hstops (cfg.enabled_built henabled) hbig
    rw [if_pos (by rw [henabled, hbig]; rfl), bigOperator_not hmp hbig, isOne_truth, htrue]
    rfl
  · rw [if_neg hbig]
    unfold convertLeft
    cases hwide : parseWideInt s with
    | ok v =>
      rw [parseBoolean_of_wide hwide]
      have hswitch : (do
          let iLeft ← (Except.ok v : Except Failure ℤ)
          let iRight ← convertRight none
          wideSwitch cfg.toConfig (bigOperator mp .logicalNot s none) iLeft iRight .logicalNot) =
            .ok (truth (decide (v = 0))) := rfl
      simp only [hswitch, isOne_truth]
      by_cases hv : v = 0
      · subst hv
        rfl
      · simp [Except.map, Except.toOption, hv]
    | error e =>
      simp only [if_true, h.toBoolean_eq]
      rcases parseBoolean cfg mp s with e' | b
      · rfl
      · cases b <;> rfl

end Positions

theorem referenceLib_stopsAtDigits : StopsAtDigits referenceLib := by
  intro c rest radix a hdigit hread
  have hnone : numeral radix 0 (c :: rest) = none := by
    rw [numeral]
    cases hc : hexDigit c with
    | none => rfl
    | some digit => exact if_neg (Nat.not_lt_of_le (hdigit digit hc))
  simp [referenceLib, hnone] at hread

def plainBuild : TruthConfig := ⟨⟨false, true⟩, false, fun h => by cases h⟩

end Truth

end Th8
