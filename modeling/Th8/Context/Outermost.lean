import Mathlib.Data.List.Infix
import Th8.Context.Moves

/-!
# The outermost evaluation

The frame is given back in every run, by the copy that the outermost `th8EvalCommon`
keeps.  Depth, line, namespace and guard are given back in the runs whose moves are all
allowed; two short runs show what is left behind in others.
-/

namespace Th8

open Support List

namespace Context

variable {c c' : Context}

/-! ## The stack only grows under code -/

theorem push_stack (c : Context) (a : Activity) : c.stack <:+ (c.push a).stack :=
  suffix_cons _ _

theorem addCallback_stack (c : Context) (cb : Callback) (hasMemory : Bool) :
    c.stack <:+ (c.addCallback cb hasMemory).stack := by
  rw [addCallback]
  split_ifs
  · exact suffix_cons _ _
  · exact suffix_rfl

theorem evalLocal_stack (c : Context) (refused : Bool) :
    c.stack <:+ (c.evalLocal refused).stack := by
  rw [evalLocal]
  split_ifs
  · exact suffix_rfl
  · exact suffix_cons _ _

theorem evalCommon_stack (c : Context) (iFrame : ℤ) (refused : Bool) :
    c.stack <:+ (c.evalCommon iFrame refused).stack := by
  rw [evalCommon]
  split_ifs
  · exact (push_stack c _).trans (evalLocal_stack _ refused)
  · split
    · exact suffix_rfl
    · refine List.IsSuffix.trans ?_ (evalLocal_stack _ refused)
      exact suffix_cons _ _

theorem evalDownlevel_stack (c : Context) (refused : Bool) :
    c.stack <:+ (c.evalDownlevel refused).stack := by
  rw [evalDownlevel]
  split
  · exact suffix_rfl
  · refine List.IsSuffix.trans ?_ (evalLocal_stack _ refused)
    exact suffix_cons _ _

theorem nsEval_stack (c : Context) (pTarget : NsId) (address : ℕ) (hasFrame refused : Bool) :
    c.stack <:+ (c.nsEval pTarget address hasFrame refused).stack := by
  rw [nsEval]
  split_ifs
  · refine List.IsSuffix.trans ?_ (evalCommon_stack _ 0 refused)
    exact suffix_cons _ _
  · exact suffix_rfl

theorem coroCreate_stack (c : Context) (pCoro : ℕ) (refused : Bool) :
    c.stack <:+ (c.coroCreate pCoro refused).stack :=
  (push_stack c _).trans (evalCommon_stack _ 0 refused)

theorem coroResume_stack (c : Context) (pCoro : ℕ) : c.stack <:+ (c.coroResume pCoro).stack := by
  rw [coroResume]
  split
  · exact suffix_rfl
  · exact suffix_rfl
  · exact (suffix_cons _ _).trans (suffix_append _ _)

theorem drainAbove_stack (c : Context) (pCallbacks : List Callback) (below : List Activity) :
    below <:+ c.drainAbove pCallbacks below := by
  rw [drainAbove]
  split_ifs
  · exact suffix_rfl
  · exact (suffix_cons _ _).trans (suffix_append _ _)

theorem coroDelete_stack (c : Context) (pCoro : ℕ) : c.stack <:+ (c.coroDelete pCoro).stack := by
  rw [coroDelete]
  split
  · exact suffix_rfl
  · exact (drainAbove_stack c _ _).trans (drainAbove_stack c _ _)

theorem deleteNamespace_stack (c : Context) (pNs : NsId) :
    (c.deleteNamespace pNs).stack = c.stack := by
  rw [deleteNamespace]
  split_ifs <;> rfl

theorem dispatchUnknown_stack {hasPostCmd : Bool}
    (hmove : c.dispatchUnknown hasPostCmd = some c') : c.stack <:+ c'.stack := by
  rw [dispatchUnknown] at hmove
  split_ifs at hmove
  cases hmove
  exact addCallback_stack c _ hasPostCmd

theorem switchNs_stack (c : Context) (pNs : NsId) (hasRestore : Bool) :
    c.stack <:+ (if pNs = c.ctx.pCurrentNs then c else
      { c.addCallback (.nsRestore c.ctx.pCurrentNs) hasRestore with
        ctx := { c.ctx with pCurrentNs := pNs } }).stack := by
  split_ifs
  · exact suffix_rfl
  · exact addCallback_stack c _ hasRestore

theorem nrEvalInFrame_stack (c : Context) (iFrame : ℤ)
    (hasFrameRestore hasNsRestore hasEval : Bool) :
    c.stack <:+ (c.nrEvalInFrame iFrame hasFrameRestore hasNsRestore hasEval).stack := by
  rw [nrEvalInFrame]
  split
  · exact suffix_rfl
  · refine List.IsSuffix.trans ?_ (addCallback_stack _ _ hasEval)
    generalize hc₁ : (if iFrame = 0 then c else
      { c with
        ctx := { c.ctx with pFrame := frameAt c.ctx.pFrame iFrame }
        pDownlevelFrame := c.ctx.pFrame }) = c₁
    have hstack : c₁.stack = c.stack := by
      rw [← hc₁]
      split_ifs <;> rfl
    have hframe := addCallback_stack c₁ (.frameRestore c.ctx.pFrame) hasFrameRestore
    rw [hstack] at hframe
    refine hframe.trans ?_
    split_ifs
    · exact suffix_rfl
    · exact addCallback_stack _ _ hasNsRestore

theorem nrInFrame_stack (c : Context) (address : ℕ) (hasFrame hasCleanup hasWork : Bool) :
    c.stack <:+ (c.nrInFrame address hasFrame hasCleanup hasWork).stack := by
  rw [nrInFrame]
  split_ifs
  · refine List.IsSuffix.trans ?_ (addCallback_stack _ _ hasWork)
    refine List.IsSuffix.trans ?_ (addCallback_stack _ _ hasCleanup)
    exact suffix_rfl
  · exact suffix_rfl

theorem callbackMove_stack {m : Move} (hmove : c.callbackMove m = some c') :
    c.stack <:+ c'.stack := by
  cases m with
  | nrEvalCallback refused =>
    cases hmove
    exact evalLocal_stack c refused
  | dispatch hasPostCmd =>
    cases hmove
    exact addCallback_stack c _ hasPostCmd
  | dispatchUnknown hasPostCmd => exact dispatchUnknown_stack hmove
  | nrEvalInFrame iFrame hasFrameRestore hasNsRestore hasEval =>
    cases hmove
    exact nrEvalInFrame_stack c iFrame hasFrameRestore hasNsRestore hasEval
  | nrInFrame address hasFrame hasCleanup hasWork =>
    cases hmove
    exact nrInFrame_stack c address hasFrame hasCleanup hasWork
  | procCall pDefNs hasRestore hasEval =>
    cases hmove
    exact (switchNs_stack c pDefNs hasRestore).trans (addCallback_stack _ _ hasEval)
  | addCallback hasMemory =>
    cases hmove
    exact addCallback_stack c _ hasMemory
  | countNewlines n =>
    cases hmove
    exact suffix_rfl
  | _ => cases hmove

theorem codeMove_stack {m : Move} (hmove : c.codeMove m = some c') : c.stack <:+ c'.stack := by
  rw [Context.codeMove.eq_def] at hmove
  split at hmove
  · cases hmove
    exact evalCommon_stack c _ _
  · cases hmove
    exact evalDownlevel_stack c _
  · cases hmove
    exact nsEval_stack c _ _ _ _
  · cases hmove
    exact coroCreate_stack c _ _
  · cases hmove
    exact coroResume_stack c _
  · cases hmove
    exact coroDelete_stack c _
  · rw [← Option.some.inj hmove, deleteNamespace_stack]
  · split_ifs at hmove
    exact callbackMove_stack hmove

/-! ## The frame -/

/-- The outermost evaluation `outer` is still under way, or it has come to an end, with a
suspension or a yield or with its frame restored. -/
def FrameKept (outer : Activity) (pFrame : FramePtr) (c : Context) : Prop :=
  [outer] <:+ c.stack ∨ c.stack = [] ∧ (c.suspended ∨ c.ctx.pFrame = pFrame)

variable {pFrame : FramePtr} {nSavedDepth : ℤ} {switched : Bool}

theorem suffix_of_ne {outer a : Activity} {rest : List Activity} (h : [outer] <:+ a :: rest)
    (ha : a ≠ outer) : [outer] <:+ rest := by
  rcases suffix_cons_iff.mp h with heq | hrest
  · exact absurd (List.cons.inj heq).1.symm ha
  · exact hrest

theorem suffix_belowChain {stack : List Activity}
    (h : [.evalCommon pFrame nSavedDepth switched] <:+ stack) :
    [.evalCommon pFrame nSavedDepth switched] <:+ belowChain stack := by
  induction stack with
  | nil => exact absurd (suffix_nil.mp h) (cons_ne_nil _ _)
  | cons a stack ih =>
    cases a with
    | callback cb => exact ih (suffix_of_ne h (by simp))
    | _ => exact h

theorem startEval_frame {rejected hasState hasCleanup hasIteration : Bool}
    (h : [.evalCommon pFrame nSavedDepth switched] <:+ c.stack)
    (hmove : c.startEval rejected hasState hasCleanup hasIteration = some c') :
    [.evalCommon pFrame nSavedDepth switched] <:+ c'.stack := by
  rw [startEval] at hmove
  split at hmove
  · rename_i nSavedLine rest hstack
    rw [hstack] at h
    have hrest := suffix_of_ne h (by simp)
    split_ifs at hmove
    · cases hmove
      exact hrest.trans (suffix_cons _ _)
    · cases hmove
      exact hrest
    · cases hmove
      exact hrest.trans (suffix_cons _ _)
    · cases hmove
      refine List.IsSuffix.trans ?_ (addCallback_stack _ _ hasIteration)
      exact hrest.trans (suffix_cons _ _)
  · cases hmove

theorem runCallback_stack (c : Context) (cb : Callback) : c.stack <:+ (c.runCallback cb).stack := by
  rcases cb with _ | (_ | _) | _ | _ | _ | _
  · exact suffix_cons _ _
  all_goals exact suffix_rfl

section

variable (h : [.evalCommon pFrame nSavedDepth switched] <:+ c.stack)

include h

theorem run_frame (hmove : c.run = some c') :
    [.evalCommon pFrame nSavedDepth switched] <:+ c'.stack := by
  rw [run] at hmove
  split at hmove
  · rename_i cb rest hstack
    rw [hstack] at h
    cases hmove
    refine List.IsSuffix.trans ?_ (runCallback_stack _ cb)
    exact suffix_of_ne h (by simp)
  · cases hmove

theorem discard_frame (hmove : c.discard = some c') :
    [.evalCommon pFrame nSavedDepth switched] <:+ c'.stack := by
  rw [discard] at hmove
  split_ifs at hmove
  cases hmove
  exact suffix_belowChain h

theorem finish_frame {canceled : Bool} (hmove : c.finish canceled = some c') :
    FrameKept (.evalCommon pFrame nSavedDepth switched) pFrame c' := by
  rw [finish] at hmove
  split at hmove
  case h_2 pSaved nSaved sw rest hstack =>
    rw [hstack] at h
    cases hmove
    rcases suffix_cons_iff.mp h with heq | hrest
    · -- the evaluation that returns is the outermost one
      obtain ⟨hact, hnil⟩ := List.cons.inj heq
      cases hact
      exact .inr ⟨hnil.symm, .inr rfl⟩
    · exact .inl hrest
  case h_8 => cases hmove
  all_goals
    rename_i hstack
    rw [hstack] at h
    cases hmove
    exact .inl (suffix_of_ne h (by simp))

theorem breakOff_frame {yields canceled : Bool} (hmove : c.breakOff yields canceled = some c') :
    FrameKept (.evalCommon pFrame nSavedDepth switched) pFrame c' := by
  have hbelow := suffix_belowChain h
  rw [breakOff] at hmove
  split at hmove
  · rename_i pSaved nSaved sw rest hstack
    rw [hstack] at hbelow
    split at hmove
    · cases hmove
      exact .inr ⟨rfl, .inl rfl⟩
    · rename_i pCoro rest'
      have hrest : [.evalCommon pFrame nSavedDepth switched] <:+ rest' := by
        rcases suffix_cons_iff.mp hbelow with heq | hrest
        · exact absurd (List.cons.inj heq).2 (by simp)
        · exact suffix_of_ne hrest (by simp)
      split_ifs at hmove
      all_goals
        cases hmove
        exact .inl hrest
    · rename_i hne hne'
      cases hmove
      rcases suffix_cons_iff.mp hbelow with heq | hrest
      · exact absurd (List.cons.inj heq).2.symm hne
      · exact .inl hrest
  · rename_i pSaved pSavedNs rest hstack
    rw [hstack] at hbelow
    cases hmove
    exact .inl ((suffix_of_ne hbelow (by simp)).trans (suffix_append _ _))
  · rename_i pCoro outerCtx rest hstack
    rw [hstack] at hbelow
    cases hmove
    exact .inl (suffix_of_ne hbelow (by simp))
  · rename_i outerCtx rest hstack
    rw [hstack] at hbelow
    cases hmove
    exact .inl (suffix_of_ne hbelow (by simp))
  · cases hmove

theorem move_frame {m : Move} (hmove : c.move m = some c') :
    FrameKept (.evalCommon pFrame nSavedDepth switched) pFrame c' := by
  rw [Context.move.eq_def] at hmove
  split at hmove
  · exact .inl (startEval_frame h hmove)
  · exact .inl (run_frame h hmove)
  · exact .inl (discard_frame h hmove)
  · exact finish_frame h hmove
  · exact breakOff_frame h hmove
  · split_ifs at hmove
    exact .inl (h.trans (codeMove_stack hmove))

end

theorem move_of_stack_nil (h : c.stack = []) (m : Move) : c.move m = none := by
  rw [Context.move.eq_def]
  split <;> simp [startEval, run, discard, finish, breakOff, evaluating, belowChain, chain, h]

theorem FrameKept.step (h : FrameKept (.evalCommon pFrame nSavedDepth switched) pFrame c)
    (m : Move) : FrameKept (.evalCommon pFrame nSavedDepth switched) pFrame (c.step m) := by
  rw [Context.step]
  cases hmove : c.move m with
  | none => exact h
  | some c' =>
    rcases h with hunder | hend
    · exact move_frame hunder hmove
    · rw [move_of_stack_nil hend.1] at hmove
      cases hmove

/-! ## Runs -/

theorem Restoring.step {goal : Kept} (h : Restoring goal c ∨ Ended c) {m : Move}
    (hallowed : Allowed c m) : Restoring goal (c.step m) ∨ Ended (c.step m) := by
  rw [Context.step]
  cases hmove : c.move m with
  | none => exact h
  | some c' =>
    rcases h with hunder | hend
    · exact hunder.move hallowed hmove
    · rw [move_of_stack_nil hend.1] at hmove
      cases hmove

theorem frameKept_evalCommon {c₀ : Context} (hrest : c₀.stack = []) (iFrame : ℤ) (refused : Bool) :
    FrameKept (.evalCommon c₀.ctx.pFrame c₀.ctx.nEvalDepth (iFrame != 0)) c₀.ctx.pFrame
      (c₀.evalCommon iFrame refused) := by
  rw [evalCommon]
  split_ifs
  · refine .inl (List.IsSuffix.trans ?_ (evalLocal_stack _ refused))
    rw [push, hrest]
  · split
    · exact .inr ⟨hrest, .inr rfl⟩
    · refine .inl (List.IsSuffix.trans ?_ (evalLocal_stack _ refused))
      rw [hrest]

theorem returned_iff : c.returned ↔ c.stack = [] ∧ c.suspended = false := by
  rw [returned, Bool.and_eq_true, List.isEmpty_iff, Bool.not_eq_true']

theorem pFrame_of_returned {c₀ : Context} (hrest : c₀.stack = []) {iFrame : ℤ}
    {refused : Bool} (hrun : Reachable Context.step (c₀.evalCommon iFrame refused) c)
    (hret : c.returned) : c.ctx.pFrame = c₀.ctx.pFrame := by
  have hframe := hrun.invariant (frameKept_evalCommon hrest iFrame refused) fun _ m h _ => h.step m
  obtain ⟨hstack, hsuspended⟩ := returned_iff.mp hret
  rcases hframe with hunder | ⟨-, hend⟩
  · rw [hstack] at hunder
    exact absurd (suffix_nil.mp hunder) (cons_ne_nil _ _)
  · exact hend.resolve_left (by simp [hsuspended])

theorem reachable_of_allowed {c₀ : Context}
    (hrun : ReachableBy Context.step Allowed c₀ c) : Reachable Context.step c₀ c := by
  induction hrun with
  | init => exact .init
  | step m _ _ ih => exact ih.step m trivial

/-- In every run whose moves are all allowed, the outermost evaluation gives back the
depth, the line, the frame, the namespace and the guard. -/
theorem vars_of_returned {c₀ : Context} (hrest : c₀.stack = []) {iFrame : ℤ}
    {refused : Bool} (hrun : ReachableBy Context.step Allowed (c₀.evalCommon iFrame refused) c)
    (hret : c.returned) : c.vars = c₀.vars := by
  have hinit : Restoring c₀.kept c₀ := by
    rw [Restoring, hrest]
    rfl
  have hkept := hrun.invariant (.inl (hinit.evalCommon iFrame refused))
    fun _ _ h hallowed => Restoring.step h hallowed
  have hframe := pFrame_of_returned hrest (reachable_of_allowed hrun) hret
  obtain ⟨hstack, hsuspended⟩ := returned_iff.mp hret
  rcases hkept with hrestored | ⟨-, hend⟩
  · rw [Restoring, hstack] at hrestored
    have hvars : c.kept = c₀.kept := hrestored
    obtain ⟨hdepth, hline, hns, hguard⟩ := Kept.ext_iff.mp hvars
    rw [vars, vars, Vars.mk.injEq]
    exact ⟨hdepth, hline, hframe, hns, hguard⟩
  · rw [hsuspended] at hend
    cases hend

def fresh : Context where
  ctx := ⟨[⟨0, globalNs⟩], globalNs, 0, 0, [], []⟩
  bInUnknown := false
  pDownlevelFrame := []
  stack := []
  coroutines := fun _ => none
  suspended := false

def unknownCall : List Move :=
  [.startEval false true true true, .run, .dispatchUnknown true, .nrInFrame 1 true true true,
    .run, .procCall 7 true true, .run, .nrEvalCallback false, .startEval false true true true]

def unknownReturn : List Move :=
  [.run, .run, .finish false, .run, .run, .run, .run, .finish false, .finish false]

theorem vars_unknownCall :
    ((unknownCall ++ unknownReturn).foldl Context.step (fresh.evalCommon 0 false)).vars =
      fresh.vars := by
  have hallowed : ReachableBy.AllowedRun Context.step Allowed (fresh.evalCommon 0 false)
      (unknownCall ++ unknownReturn) :=
    ⟨.inr rfl, trivial, rfl, trivial, trivial, .inl rfl, trivial, trivial, .inr rfl,
      trivial, trivial, trivial, trivial, trivial, trivial, trivial, trivial, trivial, trivial⟩
  exact vars_of_returned rfl (ReachableBy.init.foldl hallowed) rfl

/-- Without memory for the state of the evaluation, depth and line stay changed.  After a
cancellation that unwinds the call above, line, namespace and guard stay changed. -/
theorem vars_leftChanged :
    let noState : List Move := [.startEval false false false false, .finish false]
    let unwound : List Move := unknownCall ++ [.discard, .finish true]
    let c₁ := noState.foldl Context.step (fresh.evalCommon 0 false)
    let c₂ := unwound.foldl Context.step (fresh.evalCommon 0 false)
    fresh.vars = ⟨0, 0, [⟨0, globalNs⟩], globalNs, false⟩ ∧
      c₁.returned ∧ c₁.vars = ⟨1, 1, [⟨0, globalNs⟩], globalNs, false⟩ ∧
      c₂.returned ∧ c₂.vars = ⟨0, 1, [⟨0, globalNs⟩], 7, true⟩ := by
  decide

end Context

end Th8
