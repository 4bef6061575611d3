import Th8.Eval.Trampoline

/-!
# The taint gates of evaluation

A tainted script is refused by `th8EvalLocal` and a tainted command name by both
dispatch paths.  The second gate holds in every run.  The first one sees the
length word that the entry point passes on, and one entry point masks it.
-/

namespace Th8

open List

variable {σ κ : Type}

/-! ## Where commands are dispatched -/

def Dispatch.nameTainted (d : Dispatch) : Bool :=
  (d.argv.head?.map fun name => name.tags.taint).getD false

section Unchanged

variable (env : Interp σ κ) (m : Machine σ κ)

@[simp] theorem fail_dispatched (e : Failure) :
    (m.fail e).dispatched = m.dispatched := rfl

@[simp] theorem push_dispatched (cb : Callback κ) :
    (m.push cb).dispatched = m.dispatched := rfl

@[simp] theorem leave_dispatched : (m.leave env).dispatched = m.dispatched := rfl

@[simp] theorem pushScript_dispatched (zProgram : Bytes) (zName : Option Bytes) (trusted : Bool) :
    (pushScript m zProgram zName trusted).dispatched = m.dispatched := rfl

@[simp] theorem startScript_dispatched (zProgram : Bytes) (zName : Option Bytes) (trusted : Bool) :
    (startScript env m zProgram zName trusted).dispatched = m.dispatched := by
  unfold startScript
  cases env.xPolicyCb with
  | none => rfl
  | some xPolicyCb =>
    dsimp only
    split_ifs <;> rfl

@[simp] theorem evalLocal_dispatched (prog : TString) (zName : Option Bytes) (trusted : Bool) :
    (evalLocal env m prog zName trusted).dispatched = m.dispatched := by
  unfold evalLocal
  cases reportTaint "script" prog with
  | some e => rfl
  | none =>
    split_ifs
    · rfl
    · cases env.words.ready m.host with
      | error e => rfl
      | ok host => simp

@[simp] theorem enter_dispatched (prog : ScriptArg) (zName : Option Bytes) (entry : Entry) :
    (enter env m prog zName entry).dispatched = m.dispatched := by
  have hcommon : ∀ iFrame trusted,
      (evalCommon env m iFrame prog zName trusted).dispatched = m.dispatched := by
    intro iFrame trusted
    unfold evalCommon
    split_ifs
    · simp
    · split <;> simp
  cases entry with
  | eval iFrame => exact hcommon iFrame false
  | evalTrusted iFrame => exact hcommon iFrame true
  | evalDownlevel =>
    simp only [enter, evalDownlevel]
    cases m.pDownlevelFrame <;> simp
  | nrEval => rfl
  | nrEvalInFrame iFrame =>
    simp only [enter, nrEvalInFrame]
    split
    · rfl
    · simp only [nrEval, push_dispatched]
      split_ifs <;> rfl

@[simp] theorem runHost_dispatched (h : HostStep σ κ) :
    (runHost env m h).dispatched = m.dispatched := by
  unfold runHost
  cases h.next with
  | returns rc => rfl
  | calls entry prog zName k =>
    dsimp only
    split_ifs <;> simp

@[simp] theorem breakOff_dispatched : (breakOff m).dispatched = m.dispatched := by
  unfold breakOff
  split <;> rfl

end Unchanged

def DispatchesClean (m m' : Machine σ κ) : Prop :=
  m'.dispatched = m.dispatched ∨
    ∃ d : Dispatch, d.nameTainted = false ∧ m'.dispatched = m.dispatched ++ [d]

theorem reportTaint_eq_none {zTitle : String} {x : TString} :
    reportTaint zTitle x = none ↔ x.tags.taint = false := by
  unfold reportTaint
  cases x.tags.taint <;> simp

theorem dispatchCommand_clean (env : Interp σ κ) (m : Machine σ κ)
    (pState : EvalState) (argv : List TString) :
    DispatchesClean m (dispatchCommand env m pState argv) := by
  unfold dispatchCommand
  cases argv with
  | nil => exact .inl rfl
  | cons name args =>
    dsimp only
    cases hreport : reportTaint "command name" name with
    | some e => exact .inl rfl
    | none =>
      have hname : ∀ bUnknown, (Dispatch.mk (name :: args) bUnknown).nameTainted = false := by
        intro bUnknown
        simpa [Dispatch.nameTainted] using reportTaint_eq_none.mp hreport
      cases findCommand env m name.bytes with
      | some cmd =>
        cases env.words.ready m.host with
        | error e => exact .inl rfl
        | ok host =>
          exact .inr ⟨_, hname false, by simp [invokeCommand]⟩
      | none =>
        dsimp only
        split
        · exact .inr ⟨_, hname true, by simp [invokeCommand]⟩
        · exact .inl rfl

theorem buildFailed_dispatched (env : Interp σ κ) (m : Machine σ κ)
    (pState : EvalState) (e : Failure) :
    (buildFailed env m pState e).dispatched = m.dispatched := by
  unfold buildFailed
  dsimp only
  split_ifs <;> rfl

theorem continueBuild_clean (env : Interp σ κ) (m : Machine σ κ) (pBuild : CmdBuild)
    (pState : EvalState) :
    DispatchesClean m (continueBuild env m pBuild pState) := by
  unfold continueBuild
  split
  · exact .inl (buildFailed_dispatched env m pState _)
  · exact .inl rfl
  · split
    · exact .inl rfl
    · exact dispatchCommand_clean env { m with host := _ } pState _

theorem evalIteration_clean (env : Interp σ κ) (m : Machine σ κ)
    (pState : EvalState) : DispatchesClean m (evalIteration env m pState) := by
  unfold evalIteration
  dsimp only
  split_ifs with hrc hend
  · exact .inl rfl
  · exact .inl rfl
  · split
    · exact .inl rfl
    · split_ifs
      · exact continueBuild_clean env m _ _
      · split
        · exact .inl rfl
        · exact .inl (buildFailed_dispatched env m _ _)
        · exact dispatchCommand_clean env { m with host := _ } _ _

theorem runCallback_clean (env : Interp σ κ) (m : Machine σ κ) (pCb : Callback κ) :
    DispatchesClean m (runCallback env m pCb) := by
  cases pCb with
  | nrEval zProg zName => exact .inl (by simp [runCallback])
  | evalIteration pState => exact evalIteration_clean env m pState
  | cmdBuild pBuild pState =>
    simp only [runCallback]
    split
    · exact continueBuild_clean env m _ pState
    · exact .inl rfl
    · exact .inl rfl
  | evalPostCmd pState bWasUnknown =>
    refine .inl ?_
    simp only [runCallback]
    split <;> split_ifs <;> rfl
  | evalStateCleanup pState =>
    refine .inl ?_
    simp only [runCallback]
    split <;> rfl
  | frameRestore pSaved => exact .inl rfl
  | nsRestore pSaved => exact .inl rfl
  | host k => exact .inl (by simp [runCallback])
  | resume k => exact .inl (by simp [runCallback])
  | evalCommonDone pSavedFrame nSavedDepth switched =>
    refine .inl ?_
    simp only [runCallback]
    split_ifs <;> rfl
  | evalDownlevelDone pSaved pSavedNs => exact .inl rfl

theorem runOne_clean (env : Interp σ κ) (m : Machine σ κ) (pCb : Callback κ) :
    DispatchesClean m (runOne env m pCb) := by
  unfold runOne
  dsimp only
  split_ifs
  · simpa [DispatchesClean] using runCallback_clean env m pCb
  · exact runCallback_clean env m pCb

theorem runCallbacksStep_clean (env : Interp σ κ) (m : Machine σ κ)
    (pCb : Callback κ) (pNext : List (Callback κ)) :
    DispatchesClean m (runCallbacksStep env m pCb pNext) := by
  unfold runCallbacksStep
  dsimp only
  by_cases hunwind : env.canceled m.host = some true
  · rw [if_pos hunwind]
    exact .inl rfl
  rw [if_neg hunwind]
  have hsame : (if env.canceled m.host = none then m else
      { m.fail (env.cancelMsg m.host) with
        host := env.clearCancel m.host }).dispatched = m.dispatched := by
    split_ifs <;> rfl
  split_ifs at hsame ⊢
  · exact .inl (by simp)
  · exact runOne_clean env { m with pCallbacks := pNext } pCb
  · exact .inl (by simp)
  · exact runOne_clean env
      { m.fail (env.cancelMsg m.host) with
        host := env.clearCancel m.host
        pCallbacks := pNext } pCb

theorem step_clean (env : Interp σ κ) (m : Machine σ κ) : DispatchesClean m (m.step env) := by
  unfold Machine.step
  split
  · exact .inl rfl
  · rename_i pCb pNext hchain
    split_ifs
    · exact runOne_clean env { m with pCallbacks := pNext } pCb
    · exact runCallbacksStep_clean env m pCb pNext

variable {env : Interp σ κ} {m : Machine σ κ}

theorem run_invariant {Inv : Machine σ κ → Prop} (hstep : ∀ m, Inv m → Inv (m.step env))
    (hm : Inv m) (n : ℕ) :
    Inv (m.run env n) := by
  unfold Machine.run
  induction n generalizing m with
  | zero => exact hm
  | succ n ih => exact ih (hstep m hm)

def NamesClean (m : Machine σ κ) : Prop :=
  ∀ d ∈ m.dispatched, d.nameTainted = false

theorem NamesClean.step (hm : NamesClean m) : NamesClean (m.step env) := by
  intro d hd
  rcases step_clean env m with hsame | ⟨d', hclean, happend⟩
  · exact hm d (hsame ▸ hd)
  · rw [happend, mem_append, mem_singleton] at hd
    rcases hd with hd | rfl
    · exact hm d hd
    · exact hclean

theorem NamesClean.run (hm : NamesClean m) (n : ℕ) : NamesClean (m.run env n) :=
  run_invariant (fun _ h => h.step) hm n

def Callback.Idle : Callback κ → Prop
  | .nrEval zProg _ => zProg.tags.taint = true
  | .frameRestore _ | .nsRestore _ | .evalCommonDone .. => True
  | _ => False

structure Idle (m : Machine σ κ) : Prop where
  chain : ∀ cb ∈ m.pCallbacks, cb.Idle
  nothing : m.dispatched = []

theorem evalLocal_tainted (env : Interp σ κ) (m : Machine σ κ) {prog : TString}
    (h : prog.tags.taint = true) (zName : Option Bytes) (trusted : Bool) :
    evalLocal env m prog zName trusted =
      m.fail (.message "tainted value in context:" (ascii "script")) := by
  simp [evalLocal, reportTaint, h]

theorem mem_breakOff {cb : Callback κ} (h : cb ∈ (breakOff m).pCallbacks) : cb ∈ m.pCallbacks := by
  have hsplit := takeWhile_append_dropWhile
    (p := fun c : Callback κ => !c.isCaller) (l := m.pCallbacks)
  rw [← hsplit]
  unfold breakOff at h
  split at h <;> rename_i hbelow <;> simp only [hbelow, mem_append, mem_cons] at h ⊢ <;> tauto

section

variable (h : Idle m)

include h

theorem Idle.of_chain {m' : Machine σ κ} (hchain : ∀ cb ∈ m'.pCallbacks, cb ∈ m.pCallbacks)
    (hsame : m'.dispatched = m.dispatched) :
    Idle m' :=
  ⟨fun cb hcb => h.chain cb (hchain cb hcb), hsame.trans h.nothing⟩

theorem Idle.breakOff : Idle (breakOff m) :=
  h.of_chain (fun _ => mem_breakOff) (breakOff_dispatched m)

theorem Idle.runCallback {pCb : Callback κ} (hidle : pCb.Idle) : Idle (runCallback env m pCb) := by
  cases pCb with
  | nrEval zProg zName =>
    rw [Th8.runCallback, evalLocal_tainted env m hidle]
    exact h.of_chain (fun _ hcb => hcb) rfl
  | frameRestore pSaved => exact h.of_chain (fun _ hcb => hcb) rfl
  | nsRestore pSaved => exact h.of_chain (fun _ hcb => hcb) rfl
  | evalCommonDone pSavedFrame nSavedDepth switched =>
    simp only [Th8.runCallback]
    refine h.of_chain (fun cb hcb => ?_) ?_
    · split_ifs at hcb <;> exact hcb
    · split_ifs <;> rfl
  | evalIteration _ | evalStateCleanup _ | cmdBuild _ _ | evalPostCmd _ _ | host _
  | evalDownlevelDone _ _ | resume _ => exact hidle.elim

theorem Idle.runOne {pCb : Callback κ} (hidle : pCb.Idle) : Idle (runOne env m pCb) := by
  have hrun : Idle (Th8.runCallback env m pCb) := h.runCallback hidle
  unfold Th8.runOne
  dsimp only
  split_ifs
  · exact hrun.breakOff
  · exact hrun

theorem Idle.step : Idle (m.step env) := by
  unfold Machine.step
  split
  · exact h
  · rename_i pCb pNext hchain
    have hidle : pCb.Idle := h.chain pCb (by simp [hchain])
    have hsub : ∀ cb ∈ pNext, cb ∈ m.pCallbacks := fun cb hcb => by simp [hchain, hcb]
    have hrun : ∀ m₁ : Machine σ κ, m₁.dispatched = m.dispatched →
        Idle (Th8.runOne env { m₁ with pCallbacks := pNext } pCb) := by
      intro m₁ hsame
      refine Idle.runOne ?_ hidle
      exact ⟨fun cb hcb => h.chain cb (hsub cb hcb), hsame.trans h.nothing⟩
    split_ifs
    · exact hrun m rfl
    · unfold runCallbacksStep
      dsimp only
      split_ifs
      · exact h.of_chain (fun cb hcb => (dropWhile_sublist _).subset hcb) rfl
      · exact Idle.breakOff (h.of_chain (fun _ hcb => hcb) rfl)
      · exact hrun m rfl
      · exact Idle.breakOff (h.of_chain (fun _ hcb => hcb) rfl)
      · exact hrun _ rfl

theorem Idle.run (n : ℕ) : Idle (m.run env n) :=
  run_invariant (fun _ h => h.step) h n

end

/-! ## Tainted scripts at the entry points -/

def ScriptArg.tainted (prog : ScriptArg) : Bool :=
  (prog.nProg.map Tags.taint).getD false

def ScriptArg.untagged (prog : ScriptArg) : ScriptArg :=
  { prog with nProg := prog.nProg.map fun _ => Tags.clean }

/-- `n` steps of the evaluation of one call of an entry point, from an interpreter
in the state of `m`.  The chain holds what the call pushes: the callbacks below
are hidden by the bottom marker of the call or wait until its own are drained. -/
def evaluation (env : Interp σ κ) (m : Machine σ κ) (prog : ScriptArg)
    (zName : Option Bytes) (entry : Entry) (n : ℕ) : Machine σ κ :=
  (enter env { m with pCallbacks := [], dispatched := [] } prog zName entry).run env n

def DispatchesNothing (env : Interp σ κ) (m : Machine σ κ) (prog : ScriptArg)
    (zName : Option Bytes) (entry : Entry) : Prop :=
  ∀ n, (evaluation env m prog zName entry n).dispatched = []

theorem evaluation_namesClean (env : Interp σ κ) (m : Machine σ κ) (prog : ScriptArg)
    (zName : Option Bytes) (entry : Entry) (n : ℕ) :
    NamesClean (evaluation env m prog zName entry n) := by
  refine NamesClean.run (fun d hd => ?_) n
  simp at hd

theorem enter_idle (env : Interp σ κ) (hm : Idle m) {prog : ScriptArg}
    (htaint : prog.tainted = true) (zName : Option Bytes) {entry : Entry}
    (hentry : entry ≠ .evalDownlevel) :
    Idle (enter env m prog zName entry) := by
  obtain ⟨zProg, _ | tags⟩ := prog
  · simp [ScriptArg.tainted] at htaint
  have htag : tags.taint = true := htaint
  have hcommon : ∀ iFrame trusted,
      Idle (evalCommon env m iFrame ⟨zProg, some tags⟩ zName trusted) := by
    intro iFrame trusted
    have hbottom : ∀ cb ∈ (m.push (.evalCommonDone m.pFrame m.nEvalDepth
        (iFrame != 0))).pCallbacks, cb.Idle := by
      simpa [Machine.push, Callback.Idle] using hm.chain
    unfold evalCommon
    split_ifs
    · rw [evalLocal_tainted env _ htag]
      exact ⟨hbottom, hm.nothing⟩
    · split
      · exact hm.of_chain (fun _ hcb => hcb) rfl
      · rw [evalLocal_tainted env _ htag]
        exact ⟨hbottom, hm.nothing⟩
  cases entry with
  | eval iFrame => exact hcommon iFrame false
  | evalTrusted iFrame => exact hcommon iFrame true
  | evalDownlevel => exact absurd rfl hentry
  | nrEval =>
    refine ⟨?_, hm.nothing⟩
    simpa [enter, nrEval, Machine.push, Callback.Idle, nrEvalInput, htag] using hm.chain
  | nrEvalInFrame iFrame =>
    simp only [enter, nrEvalInFrame]
    split
    · exact hm.of_chain (fun _ hcb => hcb) rfl
    · refine ⟨?_, ?_⟩
      · simp only [nrEval, Machine.push, nrEvalInput, mem_cons, forall_eq_or_imp]
        refine ⟨htag, ?_⟩
        split_ifs <;> simpa [Callback.Idle] using hm.chain
      · simp only [nrEval, push_dispatched]
        split_ifs <;> exact hm.nothing

theorem evalDownlevel_untagged (env : Interp σ κ) (m : Machine σ κ) (prog : ScriptArg)
    (zName : Option Bytes) :
    enter env m prog.untagged zName .evalDownlevel = enter env m prog zName .evalDownlevel := by
  obtain ⟨zProg, _ | tags⟩ := prog <;> rfl

/-- An interpreter with the one command `x` in the global namespace, which returns
at once. -/
def oneCommand : Interp Unit Empty where
  words :=
    { ready := .ok
      getVar := fun _ name => .error (.message "no such variable:" name.bytes)
      eval := fun _ _ => .error .silent
      findExpansion := fun _ _ => none }
  command := fun _ key => if key = ([], ascii "x") then some 0 else none
  invoke := fun _ _ _ => ⟨(), .ok (TString.plain []), [], .returns .ok⟩
  proc := fun k => k.elim
  xPolicyCb := none
  canceled := fun _ => none
  cancelMsg := fun _ => .static "eval canceled"
  clearCancel := id
  isSuspended := fun _ => false
  traceError := fun s _ _ => s
  drainPendingDeletes := id

def insideUplevel : Machine Unit Empty where
  host := ()
  pCallbacks := []
  rc := .ok
  result := .ok (TString.plain [])
  nEvalDepth := 2
  pFrame := [⟨0, []⟩]
  pDownlevelFrame := some [⟨1, []⟩, ⟨0, []⟩]
  pCurrentNs := []
  bInUnknown := false
  dispatched := []

/-- The script `x` with a tainted length. -/
def taintedScript : ScriptArg := ⟨ascii "x", some ⟨true, false⟩⟩

end Th8
