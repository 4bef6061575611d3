import Th8.Convert.DoubleText
import Th8.Bigint.Arith
import Th8.Lists.RoundTrip

/-!
# String operators

The operators `eq`, `ne`, `in` and `ni` compare the bytes of their operands.  The operands
come through the literal nodes of the tree, which write a number with an exponent anew.
-/

namespace Th8

open Support Bigint List

namespace Expr

structure Operand extends TString where
  length_le : bytes.length ≤ lenMask

/-- The bytes that the check of a literal node looks at.  It counts them by the length word
as it is: a tag makes the word too large, and the check meets the terminator. -/
def scannedBytes (z : Operand) : Bytes := if z.tags = Tags.clean then z.bytes else z.bytes ++ [0]

def isExponentChar (c : Byte) : Bool := c == 0x65 || c == 0x45

def isNumericChar (c : Byte) : Bool := (0x30 ≤ c && c ≤ 0x39) || c == 0x2e || c == 0x2b || c == 0x2d

/-- The check itself, `hasExp && hasOnlyNumeric`. -/
def hasExponentShape (z : Bytes) : Bool :=
  z.any isExponentChar && z.all fun c => isExponentChar c || isNumericChar c

def exponentValue (z : Operand) : Option ℕ :=
  if hasExponentShape (scannedBytes z) then (parseDouble false z.bytes).toOption.map Prod.fst
  else none

/-- The text that replaces such a number, for a value of `::tcl_precision`. -/
def exponentText (zP : Option Bytes) (dVal : ℕ) : Bytes := setResultDouble (readPrecision zP) dVal

theorem exponentText_length_le (zP : Option Bytes) (dVal : ℕ) :
    (exponentText zP dVal).length ≤ lenMask :=
  (setResultDouble_doubleText (readPrecision_le zP) dVal).length_lt.le.trans (by decide)

/-- The value of the literal node `$name`, from the value of the variable. -/
def literalValue (zP : Option Bytes) (z : Operand) : Operand :=
  match exponentValue z with
  | some dVal => ⟨.plain (exponentText zP dVal), exponentText_length_le zP dVal⟩
  | none => z

/-- The elements that a reply of `Th8_SplitList` hands out. -/
def replyElements (r : SplitReply) : Except Failure (List Bytes) :=
  match r.status with
  | some e => .error e
  | none => .ok (((r.pazElem.getD none).getD []).take (r.pnCount.getD 0))

def listElements (z : Operand) : Except Failure (List Bytes) :=
  replyElements (uncachedSplit eagleSplitList (callForElements z.toTString z.length_le))

/-- What the list operators depend on besides their operands: the cache, and the memory that
it is granted. -/
structure ListState where
  mem : CallMemory
  cache : ListCache
  reachable : ReachableBy (splitStep eagleSplitList) (KeepsCache eagleSplitList) .empty cache

/-- The branch of `th8ExprEval` for the operators on strings. -/
def stringOperator (st : ListState) (eOp : Op) (zLeft zRight : Operand) : Except Failure Bytes :=
  match eOp with
  | .seq => .ok (truth (zRight.bytes == zLeft.bytes))
  | .sne => .ok (truth !(zRight.bytes == zLeft.bytes))
  | .isIn | .ni => do
    let azElem ← replyElements (splitList eagleSplitList st.mem st.cache
      (callForElements zRight.toTString zRight.length_le)).2
    let iFound := azElem.any (· == zLeft.bytes)
    .ok (truth (if eOp = .isIn then iFound else !iFound))
  | _ => .error .silent

/-- `$a op $b`, from the values of the variables. -/
def stringExpr (zP : Option Bytes) (st : ListState) (eOp : Op) (a b : Operand) :
    Except Failure Bytes :=
  stringOperator st eOp (literalValue zP a) (literalValue zP b)

structure ComparesBytes (zP : Option Bytes) (st : ListState) (a b : Operand) : Prop where
  seq : stringExpr zP st .seq a b = .ok (truth (a.bytes = b.bytes))
  sne : stringExpr zP st .sne a b = .ok (truth (a.bytes ≠ b.bytes))
  isIn : ∀ elems, listElements b = .ok elems →
    stringExpr zP st .isIn a b = .ok (truth (a.bytes ∈ elems))
  ni : ∀ elems, listElements b = .ok elems →
    stringExpr zP st .ni a b = .ok (truth (a.bytes ∉ elems))

/-- The text that replaces a number with an exponent makes no difference to the
comparison. -/
structure TextAgrees (zP : Option Bytes) (a b : Operand) : Prop where
  left : ∀ dVal, exponentValue a = some dVal → exponentValue b = none →
    (exponentText zP dVal = b.bytes ↔ a.bytes = b.bytes) ∧
      ∀ elems, listElements b = .ok elems → (exponentText zP dVal ∈ elems ↔ a.bytes ∈ elems)
  right : ∀ dVal, exponentValue a = none → exponentValue b = some dVal →
    (a.bytes = exponentText zP dVal ↔ a.bytes = b.bytes)
  both : ∀ dVal dVal', exponentValue a = some dVal → exponentValue b = some dVal' →
    exponentText zP dVal = exponentText zP dVal' → a.bytes = b.bytes

variable {z : Operand} {dVal : ℕ}

theorem literalValue_of_some {zP : Option Bytes} (h : exponentValue z = some dVal) :
    (literalValue zP z).bytes = exponentText zP dVal := by
  unfold literalValue
  rw [h]
  rfl

theorem literalValue_of_none {zP : Option Bytes} (h : exponentValue z = none) :
    literalValue zP z = z := by
  unfold literalValue
  rw [h]

theorem exponentValue_eq_some (h : exponentValue z = some dVal) :
    hasExponentShape z.bytes = true ∧
      (parseDouble false z.bytes).toOption.map Prod.fst = some dVal := by
  unfold exponentValue at h
  split_ifs at h with hshape
  refine ⟨?_, h⟩
  unfold scannedBytes at hshape
  split_ifs at hshape with hclean
  · exact hshape
  · -- the terminator is no byte of a number
    have hend := (all_eq_true.mp (Bool.and_eq_true_iff.mp hshape).2) 0 (by simp)
    exact absurd hend (by decide)

theorem isPlain_of_doubleChars : ∀ c ∈ doubleChars, isPlain c = true := by decide +kernel

theorem isPlain_of_numeric {c : Byte} (h : (isExponentChar c || isNumericChar c) = true) :
    isPlain c = true := by
  simp only [isExponentChar, isNumericChar, Bool.or_eq_true, Bool.and_eq_true, beq_iff_eq,
    decide_eq_true_eq] at h
  obtain (rfl | rfl) | ((⟨hlow, hhigh⟩ | rfl) | rfl) | rfl := h
  · rfl
  · rfl
  · -- a digit
    rw [isPlain_iff]
    refine ⟨by unfold isSpace; grind, ?_, ?_, ?_, ?_, ?_, ?_, ?_, ?_, ?_⟩ <;>
      (rintro rfl; revert hlow hhigh; decide)
  · rfl
  · rfl
  · rfl

theorem plain_of_hasExponentShape {z : Bytes} (h : hasExponentShape z = true) :
    z ≠ [] ∧ ∀ c ∈ z, isPlain c = true := by
  obtain ⟨hany, hall⟩ := Bool.and_eq_true_iff.mp h
  obtain ⟨c, hc, -⟩ := any_eq_true.mp hany
  exact ⟨ne_nil_of_mem hc, fun c hc => isPlain_of_numeric (all_eq_true.mp hall c hc)⟩

theorem replyElements_splitList (st : ListState) (z : Operand) :
    replyElements (splitList eagleSplitList st.mem st.cache
      (callForElements z.toTString z.length_le)).2 = listElements z := by
  rw [splitList_eq_uncachedSplit st.reachable, listElements]

theorem listElements_eq (hne : z.bytes ≠ []) :
    listElements z = replyElements (parseElements eagleSplitList
      (callForElements z.toTString z.length_le)) := by
  have htext : (callForElements z.toTString z.length_le).zList ≠ [] := hne
  rw [listElements, uncachedSplit_eq, if_neg htext]

theorem eq_of_listElements_plain {elems : List Bytes} (hne : z.bytes ≠ [])
    (hplain : ∀ c ∈ z.bytes, isPlain c = true) (h : listElements z = .ok elems) :
    elems = [z.bytes] := by
  have hjoin : joinElements [z.bytes] = z.bytes := quoteElement_plain hne hplain
  rw [listElements_eq hne, parseElements] at h
  have hlist : (callForElements z.toTString z.length_le).zList = joinElements [z.bytes] :=
    hjoin.symm
  rw [hlist] at h
  cases hparse : eagleSplitList (joinElements [z.bytes]) with
  | error zError =>
    rw [hparse] at h
    cases zError <;> cases h
  | ok azElements =>
    obtain rfl := eq_of_eagleSplitList_joinElements hparse
    rw [hparse] at h
    simp only at h
    split_ifs at h with hmany hhand
    · cases h
    · rw [map_singleton, take_of_length_le (by rw [hjoin])] at h
      generalize blockSize _ _ = nAlloc at h
      cases nAlloc with
      | none => cases h
      | some nAlloc =>
        simp only at h
        split_ifs at h
        · exact (Except.ok.inj h).symm
        · cases h
    · exact absurd ⟨rfl, cons_ne_nil _ _⟩ hhand

theorem listElements_plain (hne : z.bytes ≠ []) (hplain : ∀ c ∈ z.bytes, isPlain c = true)
    (hlength : z.bytes.length < 80) :
    listElements z = .ok [z.bytes] := by
  have hjoin : joinElements [z.bytes] = z.bytes := quoteElement_plain hne hplain
  have hmax : mxAlloc = 268435456 := rfl
  have hruns := spaceRuns_le_length false z.bytes
  have hgranted : BlocksGranted [z.bytes] := by
    refine ⟨?_, ⟨?_, ?_⟩, ?_⟩
    · intro e he
      obtain rfl := mem_singleton.mp he
      unfold QuotingGranted elementRoom
      omega
    · rw [hjoin, listSize]
      omega
    · rw [hjoin, listSize]
      omega
    · rw [stringSpace_cons, stringSpace, map_nil, sum_nil, length_singleton]
      omega
  have hc : AsksElements (callForElements z.toTString z.length_le) z.toTString :=
    ⟨rfl, rfl, rfl, rfl, rfl⟩
  rw [listElements_eq hne, parseElements_joinElements hc hjoin.symm (cons_ne_nil _ _) hgranted,
    if_neg (by simp [maxListElements])]
  rfl

theorem listElements_exponent {elems : List Bytes} (hz : exponentValue z = some dVal)
    (h : listElements z = .ok elems) : elems = [z.bytes] := by
  obtain ⟨hne, hplain⟩ := plain_of_hasExponentShape (exponentValue_eq_some hz).1
  exact eq_of_listElements_plain hne hplain h

theorem listElements_literalValue (zP : Option Bytes) (hz : exponentValue z = some dVal) :
    listElements (literalValue zP z) = .ok [exponentText zP dVal] := by
  have htext := setResultDouble_doubleText (readPrecision_le zP) dVal
  have hbytes : (literalValue zP z).bytes = setResultDouble (readPrecision zP) dVal :=
    literalValue_of_some hz
  have h : listElements (literalValue zP z) = .ok [(literalValue zP z).bytes] := by
    refine listElements_plain ?_ ?_ ?_
    · rw [hbytes]
      exact htext.ne_nil
    · rw [hbytes]
      exact fun c hc => isPlain_of_doubleChars c (htext.mem c hc)
    · rw [hbytes]
      exact htext.length_lt
  rw [h, literalValue_of_some hz]

/-! ## The expressions -/

theorem truth_inj {p q : Bool} : truth p = truth q ↔ p = q := by
  cases p <;> cases q <;> decide

section Comparison

variable {zP : Option Bytes} {st : ListState} {a b : Operand}

theorem seq_iff : stringExpr zP st .seq a b = .ok (truth (a.bytes = b.bytes)) ↔
    ((literalValue zP a).bytes = (literalValue zP b).bytes ↔ a.bytes = b.bytes) := by
  rw [stringExpr, stringOperator, Except.ok.injEq, truth_inj, Bool.eq_iff_iff, beq_iff_eq,
    decide_eq_true_iff, eq_comm]

theorem sne_iff : stringExpr zP st .sne a b = .ok (truth (a.bytes ≠ b.bytes)) ↔
    ((literalValue zP a).bytes = (literalValue zP b).bytes ↔ a.bytes = b.bytes) := by
  rw [stringExpr, stringOperator, Except.ok.injEq, truth_inj, Bool.eq_iff_iff,
    decide_eq_true_iff, Bool.not_eq_true', beq_eq_false_iff_ne, not_iff_not, eq_comm]

def MembershipAgrees (zP : Option Bytes) (a b : Operand) (elems : List Bytes) : Prop :=
  ∃ elems', listElements (literalValue zP b) = .ok elems' ∧
    ((literalValue zP a).bytes ∈ elems' ↔ a.bytes ∈ elems)

variable {elems : List Bytes}

theorem membershipAgrees_of_ok {elems' : List Bytes}
    (h : listElements (literalValue zP b) = .ok elems') :
    MembershipAgrees zP a b elems ↔ ((literalValue zP a).bytes ∈ elems' ↔ a.bytes ∈ elems) := by
  unfold MembershipAgrees
  rw [h]
  constructor
  · rintro ⟨elems'', heq, hmem⟩
    cases heq
    exact hmem
  · exact fun hmem => ⟨elems', rfl, hmem⟩

theorem listOperator_ok {eOp : Op} (hop : eOp = .isIn ∨ eOp = .ni)
    (h : listElements (literalValue zP b) = .ok elems) :
    stringExpr zP st eOp a b = .ok (truth ((literalValue zP a).bytes ∈ elems ↔ eOp = .isIn)) := by
  have hany : elems.any (· == (literalValue zP a).bytes) =
      decide ((literalValue zP a).bytes ∈ elems) := by
    rw [Bool.eq_iff_iff, decide_eq_true_iff]
    simp
  rcases hop with rfl | rfl
  · rw [stringExpr, stringOperator, replyElements_splitList, h]
    simp [hany, bind, Except.bind]
  · rw [stringExpr, stringOperator, replyElements_splitList, h]
    simp [hany, bind, Except.bind]

theorem listOperator_error {eOp : Op} (hop : eOp = .isIn ∨ eOp = .ni) {e : Failure}
    (h : listElements (literalValue zP b) = .error e) : stringExpr zP st eOp a b = .error e := by
  rcases hop with rfl | rfl
  · rw [stringExpr, stringOperator, replyElements_splitList, h]
    rfl
  · rw [stringExpr, stringOperator, replyElements_splitList, h]
    rfl

theorem isIn_iff :
    stringExpr zP st .isIn a b = .ok (truth (a.bytes ∈ elems)) ↔ MembershipAgrees zP a b elems := by
  cases h : listElements (literalValue zP b) with
  | error e =>
    rw [listOperator_error (.inl rfl) h, MembershipAgrees, h]
    simp
  | ok elems' =>
    rw [listOperator_ok (.inl rfl) h, membershipAgrees_of_ok h, Except.ok.injEq, truth_inj]
    simp

theorem ni_iff :
    stringExpr zP st .ni a b = .ok (truth (a.bytes ∉ elems)) ↔ MembershipAgrees zP a b elems := by
  cases h : listElements (literalValue zP b) with
  | error e =>
    rw [listOperator_error (.inr rfl) h, MembershipAgrees, h]
    simp
  | ok elems' =>
    rw [listOperator_ok (.inr rfl) h, membershipAgrees_of_ok h, Except.ok.injEq, truth_inj]
    simp

theorem comparesBytes_iff : ComparesBytes zP st a b ↔
    ((literalValue zP a).bytes = (literalValue zP b).bytes ↔ a.bytes = b.bytes) ∧
      ∀ elems, listElements b = .ok elems → MembershipAgrees zP a b elems := by
  constructor
  · intro h
    exact ⟨seq_iff.mp h.seq, fun elems hb => isIn_iff.mp (h.isIn elems hb)⟩
  · rintro ⟨hbytes, hmember⟩
    exact ⟨seq_iff.mpr hbytes, sne_iff.mpr hbytes, fun elems hb => isIn_iff.mpr (hmember elems hb),
      fun elems hb => ni_iff.mpr (hmember elems hb)⟩

theorem membershipAgrees_of_exponent {dVal : ℕ} (hb : exponentValue b = some dVal)
    (helems : listElements b = .ok elems)
    (h : (literalValue zP a).bytes = exponentText zP dVal ↔ a.bytes = b.bytes) :
    MembershipAgrees zP a b elems := by
  obtain rfl := listElements_exponent hb helems
  refine ⟨_, listElements_literalValue zP hb, ?_⟩
  rw [mem_singleton, mem_singleton]
  exact h

/-- The expressions on two variables compare the bytes of their values exactly where the text
that replaces a number with an exponent makes no difference. -/
theorem comparesBytes_iff_textAgrees (zP : Option Bytes) (st : ListState) (a b : Operand) :
    ComparesBytes zP st a b ↔ TextAgrees zP a b := by
  rw [comparesBytes_iff]
  constructor
  · rintro ⟨hbytes, hmember⟩
    constructor
    · intro dVal ha hb
      rw [literalValue_of_some ha, literalValue_of_none hb] at hbytes
      refine ⟨hbytes, fun elems helems => ?_⟩
      have h := hmember elems helems
      rw [membershipAgrees_of_ok (by rw [literalValue_of_none hb]; exact helems),
        literalValue_of_some ha] at h
      exact h
    · intro dVal ha hb
      rw [literalValue_of_none ha, literalValue_of_some hb] at hbytes
      exact hbytes
    · intro dVal dVal' ha hb
      rw [literalValue_of_some ha, literalValue_of_some hb] at hbytes
      exact hbytes.mp
  · intro h
    cases ha : exponentValue a with
    | none =>
      cases hb : exponentValue b with
      | none =>
        -- both values are read as they are
        refine ⟨by rw [literalValue_of_none ha, literalValue_of_none hb], fun elems helems => ?_⟩
        rw [membershipAgrees_of_ok (by rw [literalValue_of_none hb]; exact helems),
          literalValue_of_none ha]
      | some dVal =>
        have hbytes := h.right dVal ha hb
        refine ⟨by rwa [literalValue_of_none ha, literalValue_of_some hb],
          fun elems helems => membershipAgrees_of_exponent hb helems ?_⟩
        rwa [literalValue_of_none ha]
    | some dVal =>
      cases hb : exponentValue b with
      | none =>
        obtain ⟨hbytes, hmember⟩ := h.left dVal ha hb
        refine ⟨by rwa [literalValue_of_some ha, literalValue_of_none hb], fun elems helems => ?_⟩
        rw [membershipAgrees_of_ok (by rw [literalValue_of_none hb]; exact helems),
          literalValue_of_some ha]
        exact hmember elems helems
      | some dVal' =>
        have hbytes : exponentText zP dVal = exponentText zP dVal' ↔ a.bytes = b.bytes := by
          refine ⟨h.both dVal dVal' ha hb, fun heq => ?_⟩
          have hread := (exponentValue_eq_some ha).2
          rw [heq, (exponentValue_eq_some hb).2] at hread
          rw [Option.some.inj hread]
        refine ⟨by rwa [literalValue_of_some ha, literalValue_of_some hb],
          fun elems helems => membershipAgrees_of_exponent hb helems ?_⟩
        rwa [literalValue_of_some ha]

end Comparison

def textOperand (s : String) (h : (ascii s).length ≤ lenMask) : Operand := ⟨.plain (ascii s), h⟩

def emptyListState : ListState := ⟨⟨.granted, .granted, true⟩, .empty, .init⟩

theorem not_comparesBytes_number :
    ¬∀ (zP : Option Bytes) (st : ListState) (a b : Operand), ComparesBytes zP st a b := by
  intro h
  have hseq := (h none emptyListState (textOperand "1e2" (by decide))
    (textOperand "100.0" (by decide))).seq
  have hone : stringExpr none emptyListState .seq (textOperand "1e2" (by decide))
      (textOperand "100.0" (by decide)) = .ok (truth true) := by decide +kernel
  rw [hone] at hseq
  exact absurd hseq (by decide)

end Expr
end Th8
