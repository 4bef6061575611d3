import Th8.Unwind.Machine

/-!
# The stack under a cancellation

What moves do to the stack of trampolines and callbacks, as far as the outermost
evaluation is concerned: code leaves the stack in place or puts a trampoline on it, and a
trampoline that is left gives its caller the chain back.
-/

namespace Th8

open Support Option Nat

namespace Nre

variable {m m' : Nre}

theorem note_cases (events : List Event) (stack : List Activity) :
    note events stack = stack ∨ ∃ n t caller rest,
      stack = .callback n :: .trampoline t caller :: rest ∧
      note events stack =
        .callback n :: .trampoline { t with events := t.events ++ events } caller :: rest := by
  rw [note.eq_def]
  split
  · exact Or.inr ⟨_, _, _, _, rfl, rfl⟩
  · exact Or.inl rfl

theorem note_nil (stack : List Activity) : note [] stack = stack := by
  rw [note.eq_def]
  split
  · simp
  · rfl

def Move.evaluates : Move → Bool
  | .evalCommon .. => true
  | .coroCreate .. => true
  | _ => false

/-- What code does to the stack: callbacks come onto the chain, a trampoline is called, or
the callback in control returns. -/
inductive CodeEffect (m : Nre) (i : Move) (m' : Nre) : Prop where
  | pushes (events : List Event) (pushed : Chain) (hstack : m'.stack = note events m.stack)
      (hchain : m'.ctx.pCallbacks = pushed ++ m.ctx.pCallbacks)
  | calls (t : Activation) (caller : Caller) (hstack : m'.stack = .trampoline t caller :: m.stack)
      (hchain : caller.chain t.pBottom = m.ctx.pCallbacks)
      (hdepth : Unwind.savedDepth caller = none ∨
        i.evaluates ∧ Unwind.savedDepth caller = some m.ctx.place.nEvalDepth)
  | returns (n : ℕ) (t t' : Activation) (caller : Caller) (rest : List Activity)
      (hstack : m.stack = .callback n :: .trampoline t caller :: rest)
      (hstack' : m'.stack = .trampoline t' caller :: rest) (hbottom : t'.pBottom = t.pBottom)
      (hchain : m'.ctx.pCallbacks = m.ctx.pCallbacks)

variable {i : Move}

theorem CodeEffect.keeps (hstack : m'.stack = m.stack)
    (hchain : m'.ctx.pCallbacks = m.ctx.pCallbacks) : CodeEffect m i m' :=
  .pushes [] [] (by rw [note_nil, hstack]) hchain

variable {m₁ : Nre}

theorem evalLocal_effect (callbacks : ℕ) (rc : ReturnCode) (caller : Caller)
    (hstack : m₁.stack = m.stack) (hchain : caller.chain m₁.ctx.pCallbacks = m.ctx.pCallbacks)
    (hdepth : Unwind.savedDepth caller = none ∨ i.evaluates ∧ Unwind.savedDepth caller = some
      m.ctx.place.nEvalDepth) :
    CodeEffect m i (m₁.evalLocal callbacks rc caller) ∧
      m₁.nextCallback ≤ (m₁.evalLocal callbacks rc caller).nextCallback := by
  rw [evalLocal]
  split_ifs
  · exact ⟨.calls _ _ (by rw [← hstack]; rfl) hchain hdepth, le_refl _⟩
  · exact ⟨.calls _ _ (by rw [← hstack]; rfl) hchain hdepth, le_add_right _ _⟩

theorem coroDeleteSuspended_effect (pSuspended : Chain) (hstack : m₁.stack = m.stack)
    (hctx : m₁.ctx.pCallbacks = m.ctx.pCallbacks) :
    CodeEffect m i (m₁.coroDeleteSuspended pSuspended) ∧
      m₁.nextCallback ≤ (m₁.coroDeleteSuspended pSuspended).nextCallback := by
  rw [coroDeleteSuspended]
  split_ifs
  · exact ⟨.keeps hstack hctx, le_refl _⟩
  · refine ⟨.calls ⟨[], .cleanup, false, pSuspended, .cleanup, []⟩
      (.coroDeleteSuspended m₁.ctx) ?_ hctx (.inl rfl), le_refl _⟩
    rw [← hstack]
    rfl

theorem codeMove_effect (hmove : m.codeMove i = some m') :
    CodeEffect m i m' ∧ m.nextCallback ≤ m'.nextCallback := by
  cases i with
  | addCallback hasMemory =>
    rw [← some.inj hmove, Nre.addCallback]
    split_ifs
    · exact ⟨.pushes [.pushed m.nextCallback] [m.nextCallback] rfl rfl, le_succ _⟩
    · exact ⟨.keeps rfl rfl, le_refl _⟩
  | move place => exact some.inj hmove ▸ ⟨.keeps rfl rfl, le_refl _⟩
  | evalCommon pFrame callbacks rc =>
    rw [← some.inj hmove, Nre.evalCommon]
    refine evalLocal_effect callbacks rc _ rfl rfl (.inr ⟨rfl, ?_⟩)
    rfl
  | evalDownlevel pTarget pNs callbacks rc =>
    rw [← some.inj hmove, Nre.evalDownlevel]
    exact evalLocal_effect callbacks rc _ rfl rfl (.inl rfl)
  | thaw =>
    rw [← some.inj hmove, Nre.thaw]
    split_ifs
    · exact ⟨.keeps rfl rfl, le_refl _⟩
    · exact ⟨.calls _ _ rfl rfl (.inl rfl), le_refl _⟩
  | coroCreate zName hasRecord hasCommand hasBody callbacks rc =>
    rw [← some.inj hmove, Nre.coroCreate]
    dsimp only
    split_ifs
    · exact ⟨.keeps rfl rfl, le_refl _⟩
    · exact ⟨.keeps rfl rfl, le_refl _⟩
    · exact ⟨.keeps rfl rfl, le_refl _⟩
    · refine evalLocal_effect callbacks rc _ ?_ ?_ (.inr ⟨?_, ?_⟩)
      all_goals rfl
    · refine evalLocal_effect callbacks rc _ ?_ ?_ (.inr ⟨?_, ?_⟩)
      all_goals rfl
  | coroResume key =>
    change m.coroResume key = some m' at hmove
    rw [Nre.coroResume] at hmove
    split at hmove
    case h_2 => cases hmove
    split at hmove
    case h_2 => cases hmove
    split_ifs at hmove
    · cases hmove
      exact ⟨.keeps rfl rfl, le_refl _⟩
    · cases hmove
      exact ⟨.calls _ _ rfl rfl (.inl rfl), le_refl _⟩
  | coroDelete =>
    change m.coroDelete = some m' at hmove
    rw [Nre.coroDelete] at hmove
    split at hmove
    case h_2 => cases hmove
    split at hmove
    case h_2 => cases hmove
    split_ifs at hmove
    · cases hmove
      exact coroDeleteSuspended_effect _ rfl rfl
    · cases hmove
      exact ⟨.calls _ _ rfl rfl (.inl rfl), le_refl _⟩
  | deleteCommand key =>
    obtain ⟨commands, pending, heq⟩ := deleteCommand_eq m key
    rw [← some.inj hmove, heq]
    exact ⟨.keeps rfl rfl, le_refl _⟩
  | renameCommand key key' =>
    rw [← some.inj hmove, Nre.renameCommand]
    split_ifs
    · exact ⟨.keeps rfl rfl, le_refl _⟩
    · exact ⟨.keeps rfl rfl, le_refl _⟩
  | defineCommand key =>
    obtain ⟨commands, pending, heq⟩ := deleteCommand_eq m key
    rw [← some.inj hmove, Nre.defineCommand, heq]
    exact ⟨.keeps rfl rfl, le_refl _⟩
  | callbackReturn rc =>
    change m.callbackReturn rc = some m' at hmove
    rw [Nre.callbackReturn] at hmove
    split at hmove
    case h_2 => cases hmove
    rename_i n t caller rest hstack
    cases hmove
    exact ⟨.returns n t _ caller rest hstack rfl rfl rfl, le_refl _⟩
  | _ => cases hmove

/-! ## A trampoline is left -/

/-- What a caller of the trampoline finds: the stack below it, with its own chain. -/
structure GivesBack (m : Nre) (t : Activation) (caller : Caller) (rest : List Activity)
    (m' : Nre) : Prop where
  stack : ∃ events, m'.stack = note events rest
  chain : ∃ pushed, m'.ctx.pCallbacks = pushed ++ caller.chain t.pBottom
  nextCallback : m'.nextCallback = m.nextCallback

theorem coroDone_frame (m : Nre) (pCoro : ℕ) : (m.coroDone pCoro).stack = m.stack ∧
    (m.coroDone pCoro).ctx = m.ctx ∧ (m.coroDone pCoro).nextCallback = m.nextCallback := by
  obtain ⟨commands, pending, heq⟩ := coroDone_eq m pCoro
  rw [heq]
  exact ⟨rfl, rfl, rfl⟩

theorem goOn_givesBack {t : Activation} {caller : Caller} {inner : Chain} {rest : List Activity}
    {rc : ReturnCode} (hends : rc.breaksOff ∨ inner = []) (honeLoop : caller.oneLoop)
    (canceled : Bool) (hstack : m₁.stack = rest) (hchain : m₁.ctx.pCallbacks = inner ++ t.pBottom)
    (hnext : m₁.nextCallback = m.nextCallback) :
    GivesBack m t caller rest (m₁.goOn t.pBottom rc canceled caller) := by
  subst hstack
  have hkeeps : m₁.stack = note [] m₁.stack := (note_nil _).symm
  cases caller with
  | evalCommon pSavedFrame nSavedDepth =>
    exact ⟨⟨[], hkeeps⟩, ⟨[], evalEnd_pCallbacks hchain hends _ _ _⟩, hnext⟩
  | evalDownlevel pSaved pSavedNs => exact ⟨⟨_, rfl⟩, ⟨inner, hchain⟩, hnext⟩
  | thaw pSaved => exact ⟨⟨[], hkeeps⟩, ⟨[], rfl⟩, hnext⟩
  | coroCreate pCoro pOuterYielding pSavedFrame nSavedDepth before =>
    have hbottom := evalEnd_pCallbacks hchain hends pSavedFrame nSavedDepth canceled
    rw [goOn, Nre.returns, coroCreateEnd]
    split_ifs
    · exact ⟨⟨[], hkeeps⟩, ⟨[], hbottom⟩, hnext⟩
    · exact ⟨⟨[], hkeeps⟩, ⟨[], hbottom⟩, hnext⟩
  | coroResume pCoro outerCtx pOuterYielding =>
    have hdone (m₂ : Nre) (hstack : m₂.stack = m₁.stack) (hctx : m₂.ctx = outerCtx)
        (hnext₂ : m₂.nextCallback = m₁.nextCallback) :
        GivesBack m t (.coroResume pCoro outerCtx pOuterYielding) m₁.stack
          ((m₂.coroDone pCoro).returns ⟨outerCtx.pCallbacks, outerCtx.place, pOuterYielding⟩) := by
      obtain ⟨hstack', hctx', hnext'⟩ := coroDone_frame m₂ pCoro
      refine ⟨⟨[], ?_⟩, ⟨[], ?_⟩, ?_⟩
      · exact (hstack'.trans hstack).trans hkeeps
      · exact congrArg ExecCtx.pCallbacks (hctx'.trans hctx)
      · exact (hnext'.trans hnext₂).trans hnext
    rw [goOn, coroResumeEnd]
    split_ifs
    · exact hdone _ rfl rfl rfl
    · exact ⟨⟨[], hkeeps⟩, ⟨[], rfl⟩, hnext⟩
    · exact hdone _ rfl rfl rfl
  | coroDelete outerCtx pSuspended =>
    have hnil : pSuspended = [] := honeLoop
    rw [goOn, coroDeleteSuspended, if_pos hnil]
    exact ⟨⟨[], hkeeps⟩, ⟨[], rfl⟩, hnext⟩
  | coroDeleteSuspended outerCtx => exact honeLoop.elim

section Left

variable {t : Activation} {caller : Caller} {rest : List Activity} (h : Kept m)
  (hstack : m.stack = .trampoline t caller :: rest) {canceled : Bool}

include h hstack

theorem Kept.inner : ∃ inner, m.ctx.pCallbacks = inner ++ t.pBottom ∧
    (t.yielded → t.rc = .yield) ∧ caller.oneLoop := by
  have hlayout := h.layout
  rw [hstack] at hlayout
  obtain ⟨inner, hchain, -⟩ := hlayout.1.replay
  exact ⟨inner, hchain, hlayout.1.yielded, (h.sound t caller (by simp [hstack])).oneLoop⟩

theorem Kept.finish_givesBack (hmove : m.finish canceled = some m') :
    GivesBack m t caller rest m' := by
  obtain ⟨inner, hchain, hyield, honeLoop⟩ := h.inner hstack
  rw [Nre.finish, hstack] at hmove
  dsimp only at hmove
  rw [Nre.leave, Nre.leave, hstack] at hmove
  dsimp only at hmove
  split_ifs at hmove with hbottom hyielded
  · cases hmove
    have hinner : inner = [] := by
      rw [hchain] at hbottom
      exact List.append_left_eq_self.mp hbottom
    exact goOn_givesBack (.inr hinner) honeLoop canceled rfl hchain rfl
  · cases hmove
    refine goOn_givesBack (.inl ?_) honeLoop canceled rfl hchain rfl
    rw [hyield hyielded]
    rfl

theorem Kept.suspend_givesBack (hmove : m.suspend canceled = some m') :
    GivesBack m t caller rest m' := by
  obtain ⟨inner, hchain, -, honeLoop⟩ := h.inner hstack
  rw [Nre.suspend, hstack] at hmove
  rw [Nre.leave, hstack] at hmove
  dsimp only at hmove
  split_ifs at hmove
  cases hmove
  refine goOn_givesBack (.inl ?_) honeLoop canceled rfl hchain rfl
  rfl

theorem Kept.unwind_givesBack (hmove : m.unwind canceled = some m') :
    GivesBack m t caller rest m' := by
  obtain ⟨-, -, -, honeLoop⟩ := h.inner hstack
  rw [Nre.unwind, hstack] at hmove
  dsimp only at hmove
  split_ifs at hmove
  cases hmove
  refine goOn_givesBack (.inr ?_) honeLoop canceled rfl (List.nil_append _).symm rfl
  rfl

end Left

end Nre

end Th8
