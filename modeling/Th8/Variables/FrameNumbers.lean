import Th8.Eval.Trampoline
import Th8.Variables.Store

/-!
# Numbers of frames

A frame of the stack is named by a number, and each entry point turns the number into a
count of callers to go up with a formula of its own.  `Th8_LinkVar` counts from zero at the
global frame, `Th8_Eval` and `Th8_NREvalInFrame` count from one, and `uplevel` and
`Th8_EvalAtFrame` start from the level, which leaves out the frames of `namespace eval`.
-/

namespace Th8

open Support List

namespace FrameNumbers

/-- The part of `Th8_Frame` that the numbers depend on, next to a table of variables. -/
structure CallFrame where
  argc : ℕ
  paVar : Table
deriving DecidableEq

section Chains

variable {α : Type}

/-- The frame that `Th8_LinkVar` looks the remote variable up in, with its callers. -/
def linkFrame (pFrame : List α) (iFrame : ℤ) : List α :=
  pFrame.drop (if 0 ≤ iFrame then ((pFrame.length : ℤ) - 1 - iFrame).toNat
    else (-iFrame).toNat)

/-- The frame that `th8EvalCommon` and `Th8_NREvalInFrame` switch to. -/
def evalFrame (pFrame : List α) (iFrame : ℤ) : List α :=
  if iFrame = 0 then pFrame
  else
    pFrame.drop (if 0 < iFrame then ((pFrame.length : ℤ) - iFrame).toNat
      else (-iFrame).toNat)

end Chains

def getFrameLevel (pFrame : List CallFrame) : ℕ := (pFrame.filter fun p => 0 < p.argc).length

/-- The frame in which `Th8_EvalAtFrame` evaluates its script; none if it fails. -/
def evalAtFrame (pFrame : List CallFrame) (frameIndex : ℤ) : List CallFrame :=
  let targetLevel := getFrameLevel pFrame - frameIndex
  if targetLevel < 0 then [] else evalFrame pFrame targetLevel

/-- The frame in which `uplevel #N` evaluates its script. -/
def uplevelFrame (pFrame : List CallFrame) (absLevel : ℤ) : List CallFrame :=
  let iFrame := -(getFrameLevel pFrame - absLevel)
  if iFrame = 0 then pFrame else evalFrame pFrame iFrame

/-- The frame whose variables `upvar #N` links to. -/
def upvarFrame (pFrame : List CallFrame) (absLevel : ℤ) : List CallFrame :=
  if absLevel < 0 then [] else linkFrame pFrame absLevel

/-! ## Levels -/

/-- A stack as it can be: it ends with the global frame, which is not the frame of a
procedure. -/
structure IsStack (pFrame : List CallFrame) : Prop where
  global : ∃ g, pFrame.getLast? = some g ∧ g.argc = 0

/-- The part of a stack that starts with the frame of level `n`, which has `n` callers. -/
structure AtLevel (pFrame : List CallFrame) (n : ℕ) (p : List CallFrame) : Prop where
  suffix : p <:+ pFrame
  callers : p.length = n + 1

/-- The entry points designate the frame of level `n`, and `uplevel` and `upvar` the same
frame.  `Th8_EvalAtFrame` is given the index of the frame from the top of the stack. -/
structure NumbersAgree (pFrame : List CallFrame) (n : ℕ) : Prop where
  link : AtLevel pFrame n (linkFrame pFrame n)
  nrEval : AtLevel pFrame n (evalFrame pFrame n)
  atFrame : AtLevel pFrame n (evalAtFrame pFrame ((pFrame.length : ℤ) - 1 - n))
  commands : uplevelFrame pFrame n = upvarFrame pFrame n

section Levels

variable {pFrame : List CallFrame} {n : ℕ}

theorem atLevel_drop_iff {k : ℕ} :
    AtLevel pFrame n (pFrame.drop k) ↔ pFrame.length - k = n + 1 := by
  constructor
  · intro h
    rw [← h.callers, length_drop]
  · intro h
    exact ⟨drop_suffix k pFrame, by rw [length_drop, h]⟩

theorem atLevel_self_iff : AtLevel pFrame n pFrame ↔ pFrame.length = n + 1 :=
  ⟨fun h => h.callers, fun h => ⟨suffix_refl pFrame, h⟩⟩

theorem drop_eq_drop_iff {j k : ℕ} (hj : j ≤ pFrame.length) (hk : k ≤ pFrame.length) :
    pFrame.drop j = pFrame.drop k ↔ j = k := by
  constructor
  · intro h
    have hlen := congrArg List.length h
    rw [length_drop, length_drop] at hlen
    omega
  · rintro rfl
    rfl

theorem IsStack.getFrameLevel_lt (h : IsStack pFrame) : getFrameLevel pFrame < pFrame.length := by
  obtain ⟨g, hg, hargc⟩ := h.global
  have hmem : g ∈ pFrame := mem_of_getLast? hg
  apply length_filter_lt_length_iff_exists.mpr
  exact ⟨g, hmem, by simp [hargc]⟩

theorem linkFrame_atLevel (hn : n < pFrame.length) : AtLevel pFrame n (linkFrame pFrame n) := by
  rw [linkFrame, if_pos (Int.natCast_nonneg n), atLevel_drop_iff]
  omega

theorem evalFrame_atLevel_iff (hn : n < pFrame.length) :
    AtLevel pFrame n (evalFrame pFrame n) ↔ pFrame.length = 1 := by
  unfold evalFrame
  by_cases hzero : (n : ℤ) = 0
  · rw [if_pos hzero, atLevel_self_iff]
    omega
  · rw [if_neg hzero, if_pos (by omega), atLevel_drop_iff]
    omega

theorem evalAtFrame_atLevel_iff (h : IsStack pFrame) :
    AtLevel pFrame n (evalAtFrame pFrame ((pFrame.length : ℤ) - 1 - n)) ↔
      getFrameLevel pFrame = 0 ∧ n + 1 = pFrame.length := by
  have hlevel := h.getFrameLevel_lt
  simp only [evalAtFrame]
  by_cases hneg : (getFrameLevel pFrame : ℤ) - ((pFrame.length : ℤ) - 1 - n) < 0
  · rw [if_pos hneg]
    constructor
    · intro hat
      have hlen := hat.callers
      rw [length_nil] at hlen
      omega
    · omega
  · rw [if_neg hneg]
    unfold evalFrame
    by_cases hzero : (getFrameLevel pFrame : ℤ) - ((pFrame.length : ℤ) - 1 - n) = 0
    · rw [if_pos hzero, atLevel_self_iff]
      omega
    · rw [if_neg hzero, if_pos (by omega), atLevel_drop_iff]
      omega

theorem uplevelFrame_eq_upvarFrame_iff (h : IsStack pFrame) (hn : n < pFrame.length) :
    uplevelFrame pFrame n = upvarFrame pFrame n ↔ getFrameLevel pFrame + 1 = pFrame.length := by
  have hlevel := h.getFrameLevel_lt
  have hupvar : upvarFrame pFrame n = pFrame.drop (pFrame.length - 1 - n) := by
    rw [upvarFrame, if_neg (by omega), linkFrame, if_pos (Int.natCast_nonneg n)]
    congr 1
    omega
  simp only [uplevelFrame]
  rw [hupvar]
  by_cases hzero : -((getFrameLevel pFrame : ℤ) - n) = 0
  · rw [if_pos hzero]
    nth_rewrite 1 [← drop_zero (l := pFrame)]
    rw [drop_eq_drop_iff (by omega) (by omega)]
    omega
  · rw [if_neg hzero, evalFrame, if_neg hzero, drop_eq_drop_iff _ (by omega)]
    · split_ifs <;> omega
    · split_ifs <;> omega

end Levels

/-- The numbers agree in the global frame alone. -/
theorem numbersAgree_iff {pFrame : List CallFrame} (h : IsStack pFrame) {n : ℕ}
    (hn : n < pFrame.length) : NumbersAgree pFrame n ↔ pFrame.length = 1 := by
  constructor
  · intro hagree
    exact (evalFrame_atLevel_iff hn).mp hagree.nrEval
  · intro hone
    have hlevel := h.getFrameLevel_lt
    exact ⟨linkFrame_atLevel hn, (evalFrame_atLevel_iff hn).mpr hone,
      (evalAtFrame_atLevel_iff h).mpr (by omega),
      (uplevelFrame_eq_upvarFrame_iff h hn).mpr (by omega)⟩

def inProcedure : List CallFrame := [⟨2, []⟩, ⟨0, []⟩]

/-- The frame of a `namespace eval` at the outermost level. -/
def inNamespace : List CallFrame := [⟨0, []⟩, ⟨0, []⟩]

theorem numbersAgree_global : NumbersAgree [⟨0, []⟩] 0 ↔ [(⟨0, []⟩ : CallFrame)].length = 1 :=
  numbersAgree_iff ⟨⟨⟨0, []⟩, rfl, rfl⟩⟩ (by decide)

/-- In a procedure, the number one stands for the procedure in `Th8_LinkVar`, for the global
frame in `Th8_NREvalInFrame`, and `Th8_EvalAtFrame` takes the caller for the current frame.
In a `namespace eval`, `uplevel #0` stays there, and `upvar #0` goes to the global frame. -/
theorem not_numbersAgree :
    (linkFrame inProcedure 1 = inProcedure ∧ evalFrame inProcedure 1 = [⟨0, []⟩] ∧
      evalAtFrame inProcedure 0 = [⟨0, []⟩]) ∧
    (uplevelFrame inNamespace 0 = inNamespace ∧ upvarFrame inNamespace 0 = [⟨0, []⟩]) ∧
    ¬NumbersAgree inProcedure 1 ∧ ¬NumbersAgree inNamespace 0 := by
  refine ⟨⟨rfl, rfl, rfl⟩, ⟨rfl, rfl⟩, fun h => ?_, fun h => ?_⟩
  · have hlen := h.nrEval.callers
    cases hlen
  · have hlen := h.nrEval.callers
    cases hlen

end FrameNumbers

end Th8
