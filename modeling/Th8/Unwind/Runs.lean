import Th8.Unwind.Prevails

/-!
# Runs with an unwinding cancellation

The trampoline and the callbacks of `catch` and `try` keep the invariant, and with it every
run that meets the condition keeps what an unwinding cancellation promises.
-/

namespace Th8

open Support List Option
open Cancel (Flags Request)
open Nre (Activation Chain ReturnCode note)

namespace Unwind

variable {u u' : Unwind} {m m' : Nre} {kinds : ℕ → Kind}

/-! ## The trampoline -/

theorem lt_nextCallback (h : Nre.Kept m) {n : ℕ} (hn : n ∈ m.ctx.pCallbacks) :
    n < m.nextCallback := by
  by_contra hlt
  have hcount := count_pos_iff.mpr hn
  have htally := h.tally n
  rw [Nre.tally_eq, if_neg hlt] at htally
  omega

theorem run_cases {canceled : Bool} (hmove : m.run canceled = some m') :
    ∃ t t' caller rest n chain, m.stack = .trampoline t caller :: rest ∧
      m.ctx.pCallbacks = n :: chain ∧ m'.stack = .callback n :: .trampoline t' caller :: rest ∧
      t'.pBottom = t.pBottom ∧ t'.rc = (if canceled then .error else t.rc) ∧
      m'.ctx.pCallbacks = chain ∧ m'.nextCallback = m.nextCallback := by
  rw [Nre.run.eq_def] at hmove
  split at hmove
  case h_2 => cases hmove
  rename_i t caller rest n chain hstack hchain
  by_cases hguard : n :: chain = t.pBottom ∨ t.yielded
  · rw [if_pos hguard] at hmove
    cases hmove
  · rw [if_neg hguard] at hmove
    cases hmove
    exact ⟨t, _, caller, rest, n, chain, hstack, hchain, rfl, rfl, rfl, rfl, rfl⟩

variable {t : Activation} {caller : Nre.Caller} {rest : List Nre.Activity}

theorem clearing_callback (hpc : u.pc = .idle) {n : ℕ}
    (hstack : u.nre.stack = .callback n :: .trampoline t caller :: rest) :
    u.clearing = (u.kinds n).clears t.rc := by
  rw [clearing, hpc]
  simp only [control, rc, hstack]

theorem Inv.run (h : Inv u) (hmove : u.run = some u') : Inv u' := by
  rw [Unwind.run] at hmove
  split at hmove
  case h_2 => cases hmove
  rename_i canceled hpc
  obtain ⟨nre, hnre, rfl⟩ := map_eq_some_iff.mp hmove
  obtain ⟨t, t', caller, rest, n, chain, hstack, hchain, hstack', hbottom, hrc, hchain', hnext⟩ :=
    run_cases hnre
  have hshapes : shapes u.nre = .inr caller :: rest.map shape := by rw [shapes, hstack]; rfl
  have hshapes' : shapes nre = .inl n :: shapes u.nre := by
    rw [shapes, hstack', hshapes]
    rfl
  refine ⟨⟨h.placed.kept.run hnre, fun n' hn => ?_, fun n' hn => ?_,
    fun caller' hcaller => ?_⟩, fun hreq => ?_, h.stopped, h.failed⟩
  · rw [hshapes'] at hn
    rw [hnext]
    rcases mem_cons.mp hn with heq | hn
    · obtain rfl := Sum.inl.inj heq
      exact lt_nextCallback h.placed.kept (by rw [hchain]; exact mem_cons_self)
    · exact h.placed.numbered n' hn
  · rw [hshapes', tail_cons] at hn
    refine h.placed.buried n' ?_
    rw [hshapes] at hn ⊢
    simpa using hn
  · rw [hshapes', dropLast_cons_of_ne_nil (by rw [hshapes]; exact cons_ne_nil _ _)] at hcaller
    exact h.placed.inner caller' (by simpa using hcaller)
  · have hpending := h.pending hreq
    have hclearing := hpending.clearing
    have htoRun := hpending.toRun
    have hevaluating := hpending.evaluating
    rw [clearing, hpc, hchain, rc, hstack] at hclearing
    rw [toRun, hpc, hchain, hstack] at htoRun
    rw [evaluating, hstack] at hevaluating
    refine ⟨hpending.canceled, hpending.unwind, ?_, ?_, ?_⟩
    · have hcallback := clearing_callback (u := { u with nre := nre, pc := .idle }) rfl hstack'
      rw [hcallback, hrc]
      exact hclearing
    · change left nre.stack nre.ctx.pCallbacks ≠ []
      rw [hstack', hchain', left_callback, left_congr caller rest chain hbottom]
      exact htoRun
    · rw [evaluating, hstack', isEvaluation_cons _ (cons_ne_nil _ _), isEvaluation_congr t t']
      exact hevaluating

theorem clearCancel_frame (u : Unwind) : ∃ nCancelReq cancelFlags,
    u.clearCancel = { u with nCancelReq := nCancelReq, cancelFlags := cancelFlags } := by
  rw [clearCancel]
  split_ifs
  · exact ⟨_, _, rfl⟩
  · exact ⟨u.nCancelReq, u.cancelFlags, rfl⟩

theorem Placed.leave (h : Placed m kinds) (hstack : m.stack = .trampoline t caller :: rest)
    (hgives : Nre.GivesBack m t caller rest m') (hkept : Nre.Kept m') : Placed m' kinds := by
  obtain ⟨events, hstack'⟩ := hgives.stack
  have hshapes : shapes m = .inr caller :: shapes m' := by
    rw [shapes, shapes, hstack, hstack', map_shape_note]
    rfl
  refine ⟨hkept, fun n hn => ?_, fun n hn => ?_, fun caller' hcaller => ?_⟩
  · rw [hgives.nextCallback]
    exact h.numbered n (by simpa [hshapes] using hn)
  · refine h.buried n ?_
    rw [hshapes]
    exact mem_of_mem_tail hn
  · refine h.inner caller' ?_
    have hne : shapes m' ≠ [] := by
      intro hnil
      rw [hnil] at hcaller
      cases hcaller
    rw [hshapes, dropLast_cons_of_ne_nil hne]
    exact mem_cons_of_mem _ hcaller

theorem leave_outermost {pSavedFrame : ℕ} {nSavedDepth : ℤ}
    (hstack : u.nre.stack = [.trampoline t (.evalCommon pSavedFrame nSavedDepth)]) (rc : ReturnCode)
    (nre : Nre) : ∃ nCancelReq cancelFlags,
      u.leave (.evalCommon pSavedFrame nSavedDepth) rc nre = { u with
        nre := nre
        pc := .idle
        nCancelReq := nCancelReq
        cancelFlags := cancelFlags
        requested := false
        returned := u.returned ++ [(u.requested, outermostRc rc nSavedDepth)] } := by
  obtain ⟨req, flags, hclear⟩ := clearCancel_frame u
  simp only [Unwind.leave, hstack, hclear]
  split_ifs
  · exact ⟨_, _, rfl⟩
  · exact ⟨_, _, rfl⟩

theorem leave_other
    (hother : ∀ pSavedFrame nSavedDepth, caller ≠ .evalCommon pSavedFrame nSavedDepth)
    (rc : ReturnCode) (nre : Nre) : ∃ nCancelReq cancelFlags, u.leave caller rc nre =
      { u with
        nre := nre
        pc := .idle
        nCancelReq := nCancelReq
        cancelFlags := cancelFlags } := by
  obtain ⟨req, flags, hclear⟩ := clearCancel_frame u
  rw [Unwind.leave.eq_def, hclear]
  dsimp only
  split
  · exact absurd rfl (hother _ _)
  · split_ifs
    · exact ⟨_, _, rfl⟩
    · exact ⟨_, _, rfl⟩

variable {rc : ReturnCode}

section

variable (h : Inv u)

include h

theorem Inv.leave (hstack : u.nre.stack = .trampoline t caller :: rest)
    (hgives : Nre.GivesBack u.nre t caller rest m') (hkept : Nre.Kept m')
    (hrc : u.requested → rest = [] → rc = .error) : Inv (u.leave caller rc m') := by
  have hplaced := h.placed.leave hstack hgives hkept
  obtain ⟨events, hstack'⟩ := hgives.stack
  obtain ⟨pushed, hchain⟩ := hgives.chain
  rcases rest with _ | ⟨a, rest⟩
  · by_cases heval : ∃ pSavedFrame nSavedDepth, caller = .evalCommon pSavedFrame nSavedDepth
    · obtain ⟨pSavedFrame, nSavedDepth, rfl⟩ := heval
      obtain ⟨req, flags, hleave⟩ := leave_outermost hstack rc m'
      rw [hleave]
      refine ⟨hplaced, fun hreq => (by cases hreq), h.stopped, fun r hr hreq => ?_⟩
      rcases mem_append.mp hr with hr | hr
      · exact h.failed r hr hreq
      · obtain rfl := mem_singleton.mp hr
        rw [hrc hreq rfl]
        rfl
    · have hother : ∀ pSavedFrame nSavedDepth, caller ≠ .evalCommon pSavedFrame nSavedDepth :=
        fun _ _ heq => heval ⟨_, _, heq⟩
      have hreq : u.requested = false := by
        by_contra hreq
        have hevaluating := (h.pending (by simpa using hreq)).evaluating
        rw [evaluating, hstack, isEvaluation] at hevaluating
        cases caller with
        | evalCommon pSavedFrame nSavedDepth => exact hother _ _ rfl
        | _ => cases hevaluating
      obtain ⟨req, flags, hleave⟩ := leave_other (u := u) hother rc m'
      rw [hleave]
      exact h.of_not_requested hplaced hreq rfl rfl
  · have hdepth : savedDepth caller ≠ some 0 := by
      refine h.placed.inner caller ?_
      rw [shapes, hstack]
      exact mem_cons_self
    have hleave : u.leave caller rc m' = { u with nre := m', pc := .idle } := by
      rw [Unwind.leave.eq_def, hstack, if_neg hdepth]
    rw [hleave]
    refine ⟨hplaced, fun hreq => ?_, h.stopped, h.failed⟩
    have hpending := h.pending hreq
    have hleft := left_of_toRun hpending.toRun
    have hevaluating := hpending.evaluating
    rw [hstack, left_inner t caller (cons_ne_nil _ _)] at hleft
    rw [evaluating, hstack, isEvaluation_cons _ (cons_ne_nil _ _)] at hevaluating
    refine ⟨hpending.canceled, hpending.unwind, ?_, ?_, ?_⟩
    · refine clearing_of_control rfl (control_eq_other_iff.mpr fun n hn => ?_)
      refine h.placed.buried n ?_
      have hn' : (shapes m').head? = some (.inl n) := hn
      rw [shapes, hstack', map_shape_note] at hn'
      rw [shapes, hstack]
      exact mem_of_mem_head? hn'
    · change left m'.stack m'.ctx.pCallbacks ≠ []
      rw [hstack', hchain, left_note]
      exact left_append pushed hleft
    · rw [evaluating, hstack', isEvaluation_note]
      exact hevaluating

theorem Inv.check (hmove : u.check = some u') : Inv u' := by
  rw [Unwind.check] at hmove
  split at hmove
  case h_2 => cases hmove
  rename_i t caller rest hstack
  split_ifs at hmove with hguard hunwound hcanceled
  · obtain ⟨nre, hnre, rfl⟩ := map_eq_some_iff.mp hmove
    exact (h.setFlags _).leave hstack (h.placed.kept.unwind_givesBack hstack hnre)
      (h.placed.kept.unwind hnre) fun _ _ => rfl
  · cases hmove
    refine h.of_not_requested h.placed ?_ rfl rfl
    by_contra hreq
    exact hunwound (h.pending (by simpa using hreq)).isBeingUnwound
  · cases hmove
    refine h.of_not_requested h.placed ?_ rfl rfl
    by_contra hreq
    exact hunwound (h.pending (by simpa using hreq)).isBeingUnwound

theorem Inv.consume (hmove : u.consume = some u') : Inv u' := by
  rw [Unwind.consume] at hmove
  split_ifs at hmove with hpc
  obtain ⟨req, flags, hclear⟩ := clearCancel_frame u
  rw [← some.inj hmove, hclear]
  exact h.of_not_requested h.placed (h.not_requested (by rw [clearing, hpc])) rfl rfl

theorem Inv.suspend (hmove : u.suspend = some u')
    (hallowed : u.requested → u.breaksOff .suspend = false) : Inv u' := by
  rw [Unwind.suspend] at hmove
  split at hmove
  case h_2 => cases hmove
  rename_i canceled t caller rest hpc hstack
  obtain ⟨nre, hnre, rfl⟩ := map_eq_some_iff.mp hmove
  refine h.leave hstack (h.placed.kept.suspend_givesBack hstack hnre)
    (h.placed.kept.suspend hnre) fun hreq hrest => ?_
  have hbreaks := hallowed hreq
  simp [breaksOff, hstack, hrest] at hbreaks

theorem Inv.finish (hmove : u.finish = some u')
    (hallowed : u.requested → u.breaksOff .finish = false) : Inv u' := by
  rw [Unwind.finish] at hmove
  split at hmove
  case h_2 => cases hmove
  rename_i t caller rest hpc hstack
  obtain ⟨nre, hnre, rfl⟩ := map_eq_some_iff.mp hmove
  refine h.leave hstack (h.placed.kept.finish_givesBack hstack hnre)
    (h.placed.kept.finish hnre) fun hreq hrest => ?_
  -- the outermost evaluation has callbacks left, so it is not at its marker
  have htoRun := (h.pending hreq).toRun
  have hyielded : t.yielded = false := by simpa [breaksOff, hstack, hrest] using hallowed hreq
  rw [toRun_idle hpc, hstack, hrest, left_outermost, above_ne_nil_iff] at htoRun
  rw [Nre.finish, hstack] at hnre
  dsimp only at hnre
  rw [if_neg (fun hbottom => by rw [hbottom] at htoRun; exact lt_irrefl _ htoRun),
    if_neg (by simp [hyielded])] at hnre
  cases hnre

end

/-! ## Callbacks -/

theorem callbackReturn_effect (hmove : m.callbackReturn rc = some m') :
    ∃ n t t' caller rest, m.stack = .callback n :: .trampoline t caller :: rest ∧
      m'.stack = .trampoline t' caller :: rest ∧ t'.pBottom = t.pBottom ∧
      m'.ctx.pCallbacks = m.ctx.pCallbacks ∧ m'.nextCallback = m.nextCallback := by
  rw [Nre.callbackReturn] at hmove
  split at hmove
  case h_2 => cases hmove
  rename_i n t caller rest hstack
  cases hmove
  exact ⟨n, t, _, caller, rest, hstack, rfl, rfl, rfl, rfl⟩

theorem Inv.callbackReturn (h : Inv u) (hmove : u.callbackReturn rc = some u') : Inv u' := by
  obtain ⟨nre, hnre, rfl⟩ := map_eq_some_iff.mp hmove
  obtain ⟨n, t, t', caller, rest, hstack, hstack', hbottom, hchain, hnext⟩ :=
    callbackReturn_effect hnre
  have hshapes : shapes u.nre = .inl n :: shapes nre := by
    rw [shapes, shapes, hstack, hstack']
    rfl
  have hne : shapes nre ≠ [] := by simp [shapes, hstack']
  refine ⟨⟨h.placed.kept.callbackReturn hnre, fun n' hn => ?_, fun n' hn => ?_,
    fun caller' hcaller => ?_⟩, fun hreq => ?_, h.stopped, h.failed⟩
  · rw [hnext]
    exact h.placed.numbered n' (by rw [hshapes]; exact mem_cons_of_mem _ hn)
  · exact h.placed.buried n' (by rw [hshapes]; exact mem_of_mem_tail hn)
  · refine h.placed.inner caller' ?_
    rw [hshapes, dropLast_cons_of_ne_nil hne]
    exact mem_cons_of_mem _ hcaller
  · have hpending := h.pending hreq
    have hleft := left_of_toRun hpending.toRun
    have hevaluating := hpending.evaluating
    rw [hstack, left_callback] at hleft
    rw [evaluating, hstack, isEvaluation_cons _ (cons_ne_nil _ _)] at hevaluating
    refine ⟨hpending.canceled, hpending.unwind, ?_, ?_, ?_⟩
    · refine clearing_of_control rfl ?_
      simp only [control, hstack']
    · change left nre.stack nre.ctx.pCallbacks ≠ []
      rw [hstack', hchain, left_congr caller rest _ hbottom]
      exact hleft
    · rw [evaluating, hstack', isEvaluation_congr t]
      exact hevaluating

theorem Inv.setWord (h : Inv u) (hreq : u.requested = false) (nCancelReq : Request)
    (cancelFlags : Flags) (pc : Pc) :
    Inv { u with nCancelReq := nCancelReq, cancelFlags := cancelFlags, pc := pc } :=
  h.of_not_requested h.placed hreq rfl rfl

theorem goOn_of_not_requested (hreq : u.requested = false) : u.goOn = u := by
  rw [goOn]
  split
  · rename_i n _ _
    have hsame : (if u.requested = true then u.goneOn ++ [n] else u.goneOn) = u.goneOn :=
      if_neg (by simp [hreq])
    rw [hsame]
  · rfl

theorem clearing_idle {kind : Kind} (hpc : u.pc = .idle) (hcontrol : u.control = kind) :
    u.clearing = kind.clears u.rc := by
  rw [clearing, hpc, hcontrol]

theorem Inv.catchPosteval (h : Inv u) (hmove : u.catchPosteval = some u') : Inv u' := by
  rw [Unwind.catchPosteval] at hmove
  split_ifs at hmove with hguard hbreaks herror hunwound
  · exact h.callbackReturn hmove
  · exact (h.setFlags _).callbackReturn hmove
  · cases hmove
    refine h.setWord ?_ u.nCancelReq u.adopted .catching
    by_contra hreq
    exact hunwound (h.pending (by simpa using hreq)).isBeingUnwound
  · cases hmove
    refine h.setWord (h.not_requested ?_) u.nCancelReq u.cancelFlags .catching
    rw [clearing_idle hguard.1 hguard.2, Kind.clears]
    simp [hbreaks, herror]

theorem Inv.catchReset (h : Inv u) (hmove : u.catchReset = some u') : Inv u' := by
  rw [Unwind.catchReset] at hmove
  split_ifs at hmove with hpc
  have hreq := h.not_requested (by rw [clearing, hpc])
  rw [goOn_of_not_requested hreq] at hmove
  obtain ⟨req, flags, hclear⟩ := clearCancel_frame u
  rw [hclear] at hmove
  exact (h.setWord hreq req flags u.pc).callbackReturn hmove

theorem Inv.tryReturn (h : Inv u) {failed : Bool} (hmove : u.tryReturn failed = some u') :
    Inv u' := by
  rw [Unwind.tryReturn] at hmove
  split at hmove
  · exact h.callbackReturn hmove
  · cases hmove

theorem Inv.trySave (h : Inv u) (hmove : u.trySave = some u') : Inv u' := by
  rw [Unwind.trySave] at hmove
  split_ifs at hmove with hguard
  cases hmove
  refine h.setWord (h.not_requested ?_) u.nCancelReq u.adopted (.saving u.nCancelReq)
  rw [clearing_idle hguard.1 hguard.2]
  rfl

theorem inCode_addCallback (m : Nre) (hasMemory : Bool) :
    (m.addCallback hasMemory).inCode = m.inCode := by
  rw [Nre.addCallback]
  split_ifs
  · rw [Nre.inCode, Nre.inCode]
    rcases m.stack with _ | ⟨_ | _, _ | ⟨_ | _, _⟩⟩
    all_goals rfl
  · rfl

theorem Inv.tryFinally (h : Inv u) {hasFinally hasEval : Bool}
    (hmove : u.tryFinally hasFinally hasEval = some u') : Inv u' := by
  rw [Unwind.tryFinally] at hmove
  split at hmove
  case h_2 => cases hmove
  rename_i req hpc
  have hreq := h.not_requested (by rw [clearing, hpc])
  rw [goOn_of_not_requested hreq] at hmove
  have hcode : u.nre.inCode = true := by
    obtain ⟨nre, hnre, -⟩ := map_eq_some_iff.mp hmove
    obtain ⟨n, t, t', caller, rest, hstack, -⟩ := callbackReturn_effect hnre
    have hinCode : ((u.nre.addCallback hasFinally).addCallback hasEval).inCode = true := by
      rw [Nre.inCode]
      exact (by simp [Unwind.addCallback] at hstack; simp [hstack])
    rwa [inCode_addCallback, inCode_addCallback] at hinCode
  refine Inv.callbackReturn ?_ hmove
  refine h.of_not_requested ?_ hreq rfl rfl
  refine Placed.addCallback (Placed.addCallback h.placed hcode _ _) ?_ _ _
  rw [inCode_addCallback]
  exact hcode

theorem Inv.tryPostFinally (h : Inv u) {hasMemory : Bool}
    (hmove : u.tryPostFinally hasMemory = some u') : Inv u' := by
  rw [Unwind.tryPostFinally] at hmove
  split at hmove
  case h_2 => cases hmove
  rename_i pSave hpc hcontrol
  by_cases hcanceled : u.nCancelReq.canceled = true
  · rw [if_pos hcanceled] at hmove
    exact h.callbackReturn hmove
  · rw [if_neg hcanceled] at hmove
    refine Inv.callbackReturn (h.setWord ?_ _ _ u.pc) hmove
    by_contra hreq
    exact hcanceled (h.pending (by simpa using hreq)).canceled

theorem Inv.step (h : Inv u) {i : Move} (hallowed : u.Allowed i) : Inv (u.step i) := by
  obtain ⟨hrequest, hbreaks, hdepth⟩ := hallowed
  rw [Unwind.step]
  rcases hmove : u.next i with _ | u'
  · exact h
  · change Inv u'
    cases i with
    | arrive flags =>
      cases hmove
      exact h.orBits hrequest
    | cancelEval flags =>
      change u.cancelEval flags = some u' at hmove
      rw [Unwind.cancelEval] at hmove
      split_ifs at hmove
      cases hmove
      exact (h.orBits hrequest).setFlags _
    | code i => exact h.code hmove hdepth
    | push kind hasMemory => exact h.push hmove
    | check => exact h.check hmove
    | consume => exact h.consume hmove
    | run => exact h.run hmove
    | suspend => exact h.suspend hmove hbreaks
    | finish => exact h.finish hmove hbreaks
    | catchPosteval => exact h.catchPosteval hmove
    | catchReset => exact h.catchReset hmove
    | tryReturn failed => exact h.tryReturn hmove
    | trySave => exact h.trySave hmove
    | tryFinally hasFinally hasEval => exact h.tryFinally hmove
    | tryPostFinally hasMemory => exact h.tryPostFinally hmove

/-- In every run that meets the condition an unwinding cancellation prevails. -/
theorem prevails_of_reachable (hrun : ReachableBy Unwind.step Allowed fresh u) : Prevails u :=
  (hrun.invariant inv_fresh fun _ _ h hallowed => h.step hallowed).prevails

/-- The body of a `catch` cancels the interpreter with unwinding. -/
def cancelInCatch : List Move :=
  [.code (.evalCommon 1 2 .ok), .check, .run, .code (.addCallback true),
    .push .catchPosteval true, .code (.addCallback true), .code (.callbackReturn .ok), .check,
    .run, .code (.addCallback true), .cancelEval ⟨true, false⟩, .code (.callbackReturn .ok), .check]

theorem prevails_cancelInCatch :
    Prevails (cancelInCatch.foldl Unwind.step fresh) ∧
      (cancelInCatch.foldl Unwind.step fresh).returned = [(true, .error)] := by
  have hallowed : ReachableBy.AllowedRun Unwind.step Allowed fresh cancelInCatch := by
    decide
  exact ⟨prevails_of_reachable (ReachableBy.init.foldl hallowed), by decide⟩

/-- A signal comes when the body of a `catch` is done and the trampoline has tested the
word. -/
def signalInCatch : List Move :=
  [.code (.evalCommon 1 2 .ok), .check, .run, .code (.addCallback true),
    .push .catchPosteval true, .code (.addCallback true), .code (.callbackReturn .ok), .check,
    .run, .code (.callbackReturn .ok), .check, .arrive ⟨true, true⟩, .run, .catchPosteval,
    .catchReset, .check, .run, .code (.callbackReturn .ok), .check, .run,
    .code (.callbackReturn .ok), .finish]

/-- The command of a coroutine is deleted that has yielded inside a `try`.  Its `finally`
clause runs when the outermost evaluation has come to its last callback, and cancels the
interpreter with unwinding. -/
def cancelInDeletion : List Move :=
  [.code (.evalCommon 1 2 .ok), .check, .run, .code (.addCallback true),
    .code (.coroCreate ⟨false, [7]⟩ true true true 2 .ok), .check, .run,
    .code (.addCallback true), .push (.tryPostTry true) true, .code (.addCallback true),
    .code (.callbackReturn .ok), .check, .run, .code (.callbackReturn .yield), .finish,
    .code (.callbackReturn .ok), .check, .run, .code (.deleteCommand [7]),
    .code (.callbackReturn .ok), .check, .run, .code .coroDelete, .check, .run, .trySave,
    .tryFinally true true, .check, .run, .code (.addCallback true),
    .cancelEval ⟨true, false⟩, .code (.callbackReturn .ok), .check,
    .code (.callbackReturn .ok), .finish]

/-- Both times the evaluation returns normally, and the request is gone. -/
theorem unwinding_lost : ¬Prevails (signalInCatch.foldl Unwind.step fresh) ∧
    ¬Prevails (cancelInDeletion.foldl Unwind.step fresh) := by
  refine ⟨fun h => ?_, fun h => ?_⟩
  · have hfailed := h.failed (true, .ok) (by decide) rfl
    cases hfailed
  · have hfailed := h.failed (true, .ok) (by decide +kernel) rfl
    cases hfailed

end Unwind

end Th8
