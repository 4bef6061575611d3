import Th8.Context.Machine

/-!
# The moves of an evaluation

Each move that is allowed keeps what the activities under way restore.  Not allowed are
those that drop something: no memory for the state of an evaluation or for a callback
that restores, an unwinding cancellation over callbacks that restore, a nested evaluation
that is suspended, a coroutine that yields out of more than its own body, and the
deletion of the namespace the outermost evaluation is in.
-/

namespace Th8

open Support

namespace Context

/-- An unwinding cancellation discards nothing that would restore anything; where an outer
context is restored anyhow, nothing that ends a call of the unknown handler. -/
def discardAllowed (stack : List Activity) : Prop :=
  match belowChain stack with
  | .coroResume .. :: _ => (chain stack).any Callback.resetsGuard = false
  | .coroDelete _ :: _ => (chain stack).any Callback.resetsGuard = false
  | _ => (chain stack).all Callback.idle

/-- The outermost evaluation may be suspended or yield.  A coroutine may yield for the
first time out of its body alone: not from a nested evaluation, another namespace or the
unknown handler, and not with a cancellation pending.  Later it may not yield from within
the unknown handler. -/
def breakAllowed (stack : List Activity) (yields canceled : Bool) : Prop :=
  match belowChain stack with
  | [.evalCommon ..] => True
  | .evalCommon .. :: .coroCreate _ :: _ => yields ∧ canceled = false ∧
      ∃ nSavedLine, (chain stack).filter (!·.idle) = [.evalStateCleanup nSavedLine]
  | .coroResume .. :: _ => (chain stack).any Callback.resetsGuard = false
  | .coroDelete _ :: _ => (chain stack).any Callback.resetsGuard = false
  | _ => False

def coroutineAllowed (c : Context) (pCoro : ℕ) : Prop :=
  ∀ co, c.coroutines pCoro = some co →
    (co.pCallbacks ++ co.ctx.pSuspendedCallbacks).any Callback.resetsGuard = false

/-- The move leaves nothing changed without a restoration. -/
def Allowed (c : Context) : Move → Prop
  | .startEval rejected hasState _ _ => rejected ∨ hasState
  | .dispatchUnknown hasPostCmd => hasPostCmd
  | .nrEvalInFrame iFrame _ hasNsRestore _ => hasNsRestore ∨
      frameNs (frameAt c.ctx.pFrame iFrame) c.ctx.pCurrentNs = c.ctx.pCurrentNs
  | .procCall pDefNs hasRestore _ => hasRestore ∨ pDefNs = c.ctx.pCurrentNs
  | .deleteNamespace pNs => c.stack.any Activity.restoresNs ∨
      c.ctx.pCurrentNs = globalNs ∨ pNs ≠ c.ctx.pCurrentNs ∧ pNs ≠ globalNs
  | .coroResume pCoro => coroutineAllowed c pCoro
  | .coroDelete pCoro => coroutineAllowed c pCoro
  | .discard => discardAllowed c.stack
  | .breakOff yields canceled => breakAllowed c.stack yields canceled
  | _ => True

/-! ## The invariant -/

def kept (c : Context) : Kept := c.ctx.kept c.bInUnknown

/-- The activities under way restore `goal`. -/
def Restoring (goal : Kept) (c : Context) : Prop := Restores goal c.stack c.kept

variable {goal : Kept} {c c' : Context}

section

variable (h : Restoring goal c)

include h

theorem Restoring.congr (hstack : c'.stack = c.stack)
    (hkept : c'.kept = c.kept) : Restoring goal c' := by
  rwa [Restoring, hstack, hkept]

theorem Restoring.push {a : Activity} (hstack : c'.stack = a :: c.stack)
    (hdue : a.due c.stack c'.kept) (hrestore : a.restore c'.kept = c.kept) :
    Restoring goal c' := by
  rw [Restoring, hstack]
  exact ⟨hdue, by rwa [hrestore]⟩

theorem Restoring.evalLocal (refused : Bool) : Restoring goal (c.evalLocal refused) := by
  rw [Context.evalLocal]
  split_ifs
  · exact h
  · refine h.push rfl trivial ?_
    ext <;> simp [Activity.restore, kept, ExecCtx.kept]

theorem Restoring.evalCommon (iFrame : ℤ) (refused : Bool) :
    Restoring goal (c.evalCommon iFrame refused) := by
  rw [Context.evalCommon]
  split_ifs
  · refine Restoring.evalLocal ?_ refused
    exact h.push rfl rfl rfl
  · split
    · exact h
    · refine Restoring.evalLocal ?_ refused
      exact h.push rfl rfl rfl

theorem Restoring.evalDownlevel (refused : Bool) : Restoring goal (c.evalDownlevel refused) := by
  rw [Context.evalDownlevel]
  split
  · exact h
  · refine Restoring.evalLocal ?_ refused
    exact h.push rfl trivial rfl

theorem Restoring.nsEval (pTarget : NsId) (address : ℕ) (hasFrame refused : Bool) :
    Restoring goal (c.nsEval pTarget address hasFrame refused) := by
  rw [Context.nsEval]
  split_ifs
  · refine Restoring.evalCommon ?_ 0 refused
    exact h.push rfl trivial rfl
  · exact h

theorem Restoring.coroCreate (heval : c.evaluating) (pCoro : ℕ)
    (refused : Bool) : Restoring goal (c.coroCreate pCoro refused) := by
  refine Restoring.evalCommon ?_ 0 refused
  exact h.push rfl heval rfl

end

theorem Restores.switch {cbs : List Callback} {below : List Activity} {x y : Kept}
    {a : Activity} (h : Restores goal below x) (hdue : ∀ z, a.due below z)
    (hrestore : ∀ z : Kept, z.bInUnknown = x.bInUnknown → a.restore z = x)
    (hguard : cbs.any Callback.resetsGuard = false) (hy : y.bInUnknown = x.bInUnknown) :
    Restores goal (cbs.map .callback ++ a :: below) y := by
  refine Restores.pushChain ⟨hdue _, ?_⟩
  rwa [hrestore _ ((unwind_bInUnknown hguard y).trans hy)]

theorem Restoring.coroResume (h : Restoring goal c) {pCoro : ℕ}
    (hallowed : coroutineAllowed c pCoro) : Restoring goal (c.coroResume pCoro) := by
  rw [Context.coroResume]
  split
  · exact h
  · exact h
  · rename_i ctx pCallbacks _ hco
    have hguard := hallowed _ hco
    rw [List.any_append, Bool.or_eq_false_iff] at hguard
    refine Restores.switch h (fun _ => trivial) (fun z hz => ?_) hguard.1 rfl
    rw [Activity.restore, hz]
    rfl

theorem Restores.drainAbove {cbs : List Callback} {below : List Activity} {y : Kept}
    (h : Restores goal below c.kept) (hguard : cbs.any Callback.resetsGuard = false)
    (hy : y.bInUnknown = c.bInUnknown) (hnil : cbs = [] → y = c.kept) :
    Restores goal (c.drainAbove cbs below) y := by
  rw [Context.drainAbove]
  split_ifs with hcbs
  · rwa [hnil hcbs]
  · refine Restores.switch h (fun _ => trivial) (fun z hz => ?_) hguard hy
    rw [Activity.restore, hz]
    rfl

theorem Restoring.coroDelete (h : Restoring goal c) {pCoro : ℕ}
    (hallowed : coroutineAllowed c pCoro) : Restoring goal (c.coroDelete pCoro) := by
  rw [Context.coroDelete]
  split
  · exact h
  · rename_i ctx pCallbacks hco
    have hguard := hallowed _ hco
    rw [List.any_append, Bool.or_eq_false_iff] at hguard
    refine Restores.drainAbove (c := c) ?_ hguard.1 rfl fun hnil => ?_
    · exact Restores.drainAbove h hguard.2 rfl fun _ => rfl
    · simp [kept, hnil]

@[simp]
theorem addCallback_ctx (c : Context) (cb : Callback) (hasMemory : Bool) :
    (c.addCallback cb hasMemory).ctx = c.ctx := by
  rw [addCallback]
  split_ifs <;> rfl

section

variable (h : Restoring goal c)

include h

theorem Restoring.addIdle {cb : Callback} (hcb : cb.idle)
    (hasMemory : Bool) : Restoring goal (c.addCallback cb hasMemory) := by
  rw [addCallback]
  split_ifs
  · exact h.push rfl trivial (Callback.restore_of_idle hcb c.kept)
  · exact h

theorem Restoring.dispatchUnknown (hmove : c.dispatchUnknown true = some c') :
    Restoring goal c' := by
  rw [Context.dispatchUnknown] at hmove
  split_ifs at hmove with hguard
  cases hmove
  refine h.push (a := .callback (.evalPostCmd true)) rfl trivial ?_
  ext <;> simp [Activity.restore, Callback.restore, kept, ExecCtx.kept, addCallback,
    Context.push, hguard]

theorem Restoring.switchNs {pNs : NsId} {hasRestore : Bool}
    (hallowed : hasRestore ∨ pNs = c.ctx.pCurrentNs) :
    Restoring goal (if pNs = c.ctx.pCurrentNs then c else
      { c.addCallback (.nsRestore c.ctx.pCurrentNs) hasRestore with
        ctx := { c.ctx with pCurrentNs := pNs } }) := by
  split_ifs with hns
  · exact h
  · have hrestore : hasRestore = true := hallowed.resolve_right hns
    subst hrestore
    exact h.push (a := .callback (.nsRestore c.ctx.pCurrentNs)) rfl trivial rfl

theorem Restoring.procCall {pDefNs : NsId} {hasRestore : Bool}
    (hallowed : hasRestore ∨ pDefNs = c.ctx.pCurrentNs) (hasEval : Bool) :
    Restoring goal (c.procCall pDefNs hasRestore hasEval) :=
  (h.switchNs hallowed).addIdle rfl hasEval

theorem Restoring.nrEvalInFrame {iFrame : ℤ} {hasNsRestore : Bool}
    (hallowed : hasNsRestore ∨
      frameNs (frameAt c.ctx.pFrame iFrame) c.ctx.pCurrentNs = c.ctx.pCurrentNs)
    (hasFrameRestore hasEval : Bool) :
    Restoring goal (c.nrEvalInFrame iFrame hasFrameRestore hasNsRestore hasEval) := by
  rw [Context.nrEvalInFrame]
  split
  · exact h
  · refine Restoring.addIdle ?_ rfl hasEval
    -- the frame is switched first, and its restoration goes below that of the namespace
    generalize hc₁ : (if iFrame = 0 then c else
      { c with
        ctx := { c.ctx with pFrame := frameAt c.ctx.pFrame iFrame }
        pDownlevelFrame := c.ctx.pFrame }) = c₁
    have hframe : Restoring goal c₁ ∧ c₁.ctx.pCurrentNs = c.ctx.pCurrentNs := by
      rw [← hc₁]
      split_ifs
      · exact ⟨h, rfl⟩
      · exact ⟨h.congr rfl rfl, rfl⟩
    have hns : (c₁.addCallback (.frameRestore c.ctx.pFrame) hasFrameRestore).ctx.pCurrentNs =
        c.ctx.pCurrentNs := by
      rw [addCallback_ctx, hframe.2]
    rw [← hns] at hallowed ⊢
    exact (hframe.1.addIdle rfl hasFrameRestore).switchNs hallowed

theorem Restoring.nrInFrame (address : ℕ) (hasFrame hasCleanup hasWork : Bool) :
    Restoring goal (c.nrInFrame address hasFrame hasCleanup hasWork) := by
  rw [Context.nrInFrame]
  split_ifs
  · refine Restoring.addIdle (Restoring.addIdle ?_ rfl hasCleanup) rfl hasWork
    exact h.congr rfl rfl
  · exact h

theorem Restoring.countNewlines (heval : c.evaluating) (n : ℕ) :
    Restoring goal (c.countNewlines n) :=
  Restores.line h heval ⟨rfl, rfl, rfl⟩

theorem Restoring.deleteNamespace {pNs : NsId}
    (hallowed : c.stack.any Activity.restoresNs ∨ c.ctx.pCurrentNs = globalNs ∨
      pNs ≠ c.ctx.pCurrentNs ∧ pNs ≠ globalNs) :
    Restoring goal (c.deleteNamespace pNs) := by
  rw [Context.deleteNamespace]
  split_ifs with hns
  · rcases hallowed with hpending | hglobal | ⟨hne, hne'⟩
    · exact Restores.ns h hpending ⟨rfl, rfl, rfl⟩
    · refine h.congr rfl ?_
      ext <;> simp [kept, ExecCtx.kept, hglobal]
    · exact absurd hns (by simp [hne, hne'])
  · exact h

end

/-! ## The trampoline and its callers -/

theorem Restoring.leave {nSavedLine : ℤ}
    (h : Restores goal c.stack { c.kept with
      nEvalDepth := c.ctx.nEvalDepth - 1, nLine := nSavedLine }) :
    Restoring goal (c.leave nSavedLine) :=
  ⟨trivial, h⟩

section

variable (h : Restoring goal c)

include h

theorem Restoring.startEval {rejected hasState : Bool}
    (hallowed : rejected ∨ hasState) (hasCleanup hasIteration : Bool)
    (hmove : c.startEval rejected hasState hasCleanup hasIteration = some c') :
    Restoring goal c' := by
  rw [Context.startEval] at hmove
  split at hmove
  · rename_i nSavedLine rest hstack
    rw [Restoring, hstack] at h
    have hleave : Restoring goal ({ c with stack := rest }.leave nSavedLine) := Restoring.leave h.2
    simp only [Bool.not_eq_true'] at hmove
    split_ifs at hmove with hrejected hstate hcleanup
    · cases hmove
      exact hleave
    · exact absurd hallowed (by simp [hrejected, hstate])
    · cases hmove
      exact hleave
    · cases hmove
      exact Restoring.addIdle (c := { c with
        stack := .callback (.evalStateCleanup nSavedLine) :: rest }) ⟨trivial, h.2⟩ rfl _
  · cases hmove

theorem Restoring.run (hmove : c.run = some c') : Restoring goal c' := by
  rw [Context.run] at hmove
  split at hmove
  · rename_i cb rest hstack
    rw [Restoring, hstack] at h
    cases hmove
    rcases cb with nSavedLine | (_ | _) | _ | _ | _ | _
    · exact Restoring.leave h.2
    all_goals exact h.2
  · cases hmove

theorem Restoring.finish {canceled : Bool}
    (hmove : c.finish canceled = some c') : Restoring goal c' := by
  rw [Context.finish] at hmove
  split at hmove
  case h_2 pSavedFrame nSavedDepth switched rest hstack =>
    rw [Restoring, hstack] at h
    cases hmove
    have hdepth : (if canceled then nSavedDepth else c.ctx.nEvalDepth) = c.ctx.nEvalDepth := by
      split_ifs
      · exact h.1.symm
      · rfl
    rw [hdepth]
    exact h.2
  case h_8 => cases hmove
  all_goals
    rename_i hstack
    rw [Restoring, hstack] at h
    cases hmove
    exact h.2

theorem Restoring.discard (hallowed : discardAllowed c.stack)
    (hmove : c.discard = some c') : Restoring goal c' := by
  rw [Context.discard] at hmove
  split_ifs at hmove
  cases hmove
  rw [Restoring, stack_eq_chain c.stack] at h
  have hrun := Restores.runChain h
  rw [discardAllowed] at hallowed
  split at hallowed
  case h_3 => rwa [unwind_idle hallowed] at hrun
  all_goals
    rename_i hbelow
    rw [hbelow] at hrun
    rw [Restoring, hbelow]
    refine ⟨trivial, ?_⟩
    have hrestored := hrun.2
    rwa [Activity.restore, unwind_bInUnknown hallowed] at hrestored

end

theorem Restores.outer {cbs : List Callback} {below : List Activity} {a : Activity}
    {x : Kept} {outerCtx : ExecCtx} (h : Restores goal (cbs.map .callback ++ a :: below) x)
    (hguard : cbs.any Callback.resetsGuard = false)
    (ha : ∀ y : Kept, a.restore y = outerCtx.kept y.bInUnknown) :
    Restores goal below (outerCtx.kept x.bInUnknown) := by
  have hrun := (Restores.runChain h).2
  rwa [ha, unwind_bInUnknown hguard] at hrun

theorem Restoring.yieldCreate (h : Restoring goal c) {pSavedFrame : FramePtr}
    {nSavedDepth nSavedLine : ℤ} {switched : Bool} {pCoro : ℕ} {rest : List Activity}
    (hbelow : belowChain c.stack =
      .evalCommon pSavedFrame nSavedDepth switched :: .coroCreate pCoro :: rest)
    (hchain : (chain c.stack).filter (!·.idle) = [.evalStateCleanup nSavedLine]) :
    Restoring goal (c.yieldCreate pCoro (c.detach pSavedFrame nSavedDepth false) rest) := by
  rw [Restoring, stack_eq_chain c.stack, hbelow] at h
  have hrun := Restores.runChain h
  rw [unwind_oneEval hchain] at hrun
  obtain ⟨-, hcreate, hrest⟩ := hrun
  refine Restores.line hrest hcreate ?_
  have hctx : (c.detach pSavedFrame nSavedDepth false).nEvalDepth = c.ctx.nEvalDepth ∧
      (c.detach pSavedFrame nSavedDepth false).pCurrentNs = c.ctx.pCurrentNs := by
    by_cases hnil : chain c.stack = [] <;> simp [detach, hnil]
  refine ⟨?_, ?_, rfl⟩
  · show c.ctx.nEvalDepth - 1 = (c.detach pSavedFrame nSavedDepth false).nEvalDepth - 1
    rw [hctx.1]
  · exact hctx.2.symm

def Ended (c : Context) : Prop := c.stack = [] ∧ c.suspended

section

variable (h : Restoring goal c)

include h

theorem Restoring.breakOff {yields canceled : Bool}
    (hallowed : breakAllowed c.stack yields canceled)
    (hmove : c.breakOff yields canceled = some c') : Restoring goal c' ∨ Ended c' := by
  rw [breakAllowed] at hallowed
  rw [Context.breakOff] at hmove
  split at hallowed
  · rename_i hbelow
    rw [hbelow] at hmove
    cases hmove
    exact .inr ⟨rfl, rfl⟩
  · rename_i pSavedFrame nSavedDepth switched pCoro rest hbelow
    obtain ⟨rfl, rfl, nSavedLine, hchain⟩ := hallowed
    rw [hbelow] at hmove
    cases hmove
    exact .inl (h.yieldCreate hbelow hchain)
  · rename_i pCoro outerCtx rest hbelow
    rw [hbelow] at hmove
    cases hmove
    rw [Restoring, stack_eq_chain c.stack, hbelow] at h
    exact .inl (Restores.outer h hallowed fun _ => rfl)
  · rename_i outerCtx rest hbelow
    rw [hbelow] at hmove
    cases hmove
    rw [Restoring, stack_eq_chain c.stack, hbelow] at h
    exact .inl (Restores.outer h hallowed fun _ => rfl)
  · exact hallowed.elim

theorem Restoring.callbackMove (heval : c.evaluating) {m : Move}
    (hallowed : Allowed c m) (hmove : c.callbackMove m = some c') : Restoring goal c' := by
  cases m with
  | nrEvalCallback refused =>
    cases hmove
    exact h.evalLocal refused
  | dispatch hasPostCmd =>
    cases hmove
    exact h.addIdle rfl hasPostCmd
  | dispatchUnknown hasPostCmd =>
    cases hallowed
    exact h.dispatchUnknown hmove
  | nrEvalInFrame iFrame hasFrameRestore hasNsRestore hasEval =>
    cases hmove
    exact h.nrEvalInFrame hallowed hasFrameRestore hasEval
  | nrInFrame address hasFrame hasCleanup hasWork =>
    cases hmove
    exact h.nrInFrame address hasFrame hasCleanup hasWork
  | procCall pDefNs hasRestore hasEval =>
    cases hmove
    exact h.procCall hallowed hasEval
  | addCallback hasMemory =>
    cases hmove
    exact h.addIdle rfl hasMemory
  | countNewlines n =>
    cases hmove
    exact h.countNewlines heval n
  | _ => cases hmove

theorem Restoring.codeMove (heval : c.evaluating) {m : Move}
    (hallowed : Allowed c m) (hmove : c.codeMove m = some c') : Restoring goal c' := by
  rw [Context.codeMove.eq_def] at hmove
  split at hmove
  · cases hmove
    exact h.evalCommon _ _
  · cases hmove
    exact h.evalDownlevel _
  · cases hmove
    exact h.nsEval _ _ _ _
  · cases hmove
    exact h.coroCreate heval _ _
  · cases hmove
    exact h.coroResume hallowed
  · cases hmove
    exact h.coroDelete hallowed
  · cases hmove
    exact h.deleteNamespace hallowed
  · split_ifs at hmove
    exact h.callbackMove heval hallowed hmove

theorem Restoring.move {m : Move} (hallowed : Allowed c m)
    (hmove : c.move m = some c') : Restoring goal c' ∨ Ended c' := by
  rw [Context.move.eq_def] at hmove
  split at hmove
  · exact .inl (h.startEval hallowed _ _ hmove)
  · exact .inl (h.run hmove)
  · exact .inl (h.discard hallowed hmove)
  · exact .inl (h.finish hmove)
  · exact h.breakOff hallowed hmove
  · split_ifs at hmove with heval
    exact .inl (h.codeMove heval hallowed hmove)

end

end Context

end Th8
