import Th8.Nre.Moves

/-!
# Every callback once

In a run in which no caller of the trampoline drops a chain, every callback waits in one
place or has been invoked or freed by an unwinding cancellation, once.  Two short runs show
which chains are dropped in others: a thawed evaluation that is suspended again, and one
evaluation suspended inside another.
-/

namespace Th8

open Support List Option

namespace Nre

variable {m m' : Nre}

/-! ## What is dropped -/

/-- The callbacks that a move drops: it ends a call of the trampoline whose caller cannot
keep them. -/
def dropsBy (m : Nre) : Move → Chain
  | .finish _ =>
    match m.stack with
    | .trampoline t caller :: _ =>
      if m.ctx.pCallbacks = t.pBottom ∨ t.yielded then m.drops t.pBottom t.rc caller else []
    | _ => []
  | .suspend _ =>
    match m.stack with
    | .trampoline t caller :: _ =>
      if m.ctx.pCallbacks = t.pBottom ∨ t.yielded then []
      else m.drops t.pBottom .suspend caller
    | _ => []
  | .unwind _ =>
    match m.stack with
    | .trampoline t caller :: _ =>
      if m.ctx.pCallbacks = t.pBottom ∨ t.yielded then []
      else drops { m with ctx := { m.ctx with pCallbacks := t.pBottom } } t.pBottom .error caller
    | _ => []
  | _ => []

theorem evalLocal_dropped (m : Nre) (callbacks : ℕ) (rc : ReturnCode) (caller : Caller) :
    (m.evalLocal callbacks rc caller).dropped = m.dropped := by
  rw [evalLocal]
  split_ifs <;> rfl

theorem deleteCommand_dropped (m : Nre) (key : Path) :
    (m.deleteCommand key).dropped = m.dropped := by
  obtain ⟨commands, pending, heq⟩ := deleteCommand_eq m key
  rw [heq]

theorem coroDone_dropped (m : Nre) (pCoro : ℕ) : (m.coroDone pCoro).dropped = m.dropped := by
  obtain ⟨commands, pending, heq⟩ := coroDone_eq m pCoro
  rw [heq]
  rfl

theorem coroDeleteSuspended_dropped (m : Nre) (pSuspended : Chain) :
    (m.coroDeleteSuspended pSuspended).dropped = m.dropped := by
  rw [coroDeleteSuspended]
  split_ifs <;> rfl

theorem goOn_dropped (m : Nre) (pBottom : Chain) (rc : ReturnCode) (canceled : Bool)
    (caller : Caller) : (m.goOn pBottom rc canceled caller).dropped = m.dropped := by
  cases caller with
  | coroCreate pCoro pOuterYielding pSavedFrame nSavedDepth before =>
    simp only [goOn, returns, coroCreateEnd]
    split_ifs <;> rfl
  | coroResume pCoro outerCtx pOuterYielding =>
    simp only [goOn, returns, coroResumeEnd]
    split_ifs
    · exact coroDone_dropped _ pCoro
    · rfl
    · exact coroDone_dropped _ pCoro
  | coroDelete outerCtx pSuspended => exact coroDeleteSuspended_dropped _ pSuspended
  | _ => rfl

theorem codeMove_dropped {i : Move} (hmove : m.codeMove i = some m') : m'.dropped = m.dropped := by
  cases i with
  | addCallback hasMemory =>
    rw [← some.inj hmove, addCallback]
    split_ifs <;> rfl
  | move place => rw [← some.inj hmove]; rfl
  | evalCommon pFrame callbacks rc =>
    cases hmove
    exact evalLocal_dropped _ _ _ _
  | evalDownlevel pTarget pNs callbacks rc =>
    cases hmove
    exact evalLocal_dropped _ _ _ _
  | thaw =>
    rw [← some.inj hmove, thaw]
    split_ifs <;> rfl
  | coroCreate zName hasRecord hasCommand hasBody callbacks rc =>
    cases hmove
    simp only [coroCreate]
    split_ifs
    · rfl
    · rfl
    · rfl
    · exact evalLocal_dropped _ _ _ _
    · exact evalLocal_dropped _ _ _ _
  | coroResume key =>
    simp only [codeMove, coroResume] at hmove
    split at hmove
    · split at hmove
      · split_ifs at hmove <;> rw [← some.inj hmove] <;> rfl
      · cases hmove
    · cases hmove
  | coroDelete =>
    simp only [codeMove, coroDelete] at hmove
    split at hmove
    · split at hmove
      · split_ifs at hmove
        · cases hmove
          exact coroDeleteSuspended_dropped _ _
        · cases hmove
          rfl
      · cases hmove
    · cases hmove
  | deleteCommand key =>
    cases hmove
    exact deleteCommand_dropped m key
  | renameCommand key key' =>
    rw [← some.inj hmove, renameCommand]
    split_ifs <;> rfl
  | defineCommand key =>
    cases hmove
    exact deleteCommand_dropped m key
  | callbackReturn rc =>
    simp only [codeMove, callbackReturn] at hmove
    split at hmove
    · cases hmove
      rfl
    · cases hmove
  | _ => cases hmove

theorem run_dropped {canceled : Bool} (hmove : m.run canceled = some m') :
    m'.dropped = m.dropped := by
  simp only [run] at hmove
  split at hmove
  · rename_i t caller rest n chain hstack hchain
    by_cases hstop : n :: chain = t.pBottom ∨ t.yielded
    · rw [if_pos hstop] at hmove
      cases hmove
    · rw [if_neg hstop] at hmove
      cases hmove
      rfl
  · cases hmove

section Leaving

variable {t : Activation} {caller : Caller} {rest : List Activity}

section

variable (hstack : m.stack = .trampoline t caller :: rest)

include hstack

theorem leave_dropped (rc : ReturnCode)
    (ending : Ending) (canceled : Bool) : ((m.leave rc ending canceled).getD m).dropped =
      m.dropped ++ (m.drops t.pBottom rc caller).map (·, m.stack.any Activity.ofCoroutine) := by
  rw [leave, hstack, getD_some, goOn_dropped]

theorem finish_dropped (canceled : Bool) :
    (m.step (.finish canceled)).dropped = m.dropped ++
      (m.dropsBy (.finish canceled)).map (·, m.stack.any Activity.ofCoroutine) := by
  have hdrops : m.dropsBy (.finish canceled) =
      if m.ctx.pCallbacks = t.pBottom ∨ t.yielded then m.drops t.pBottom t.rc caller
      else [] := by
    rw [dropsBy, hstack]
  have hmove : m.next (.finish canceled) =
      if m.ctx.pCallbacks = t.pBottom then m.leave t.rc .drained canceled
      else if t.yielded then m.leave t.rc .brokenOff canceled
      else none := by
    rw [Nre.next, Nre.finish, hstack]
  rw [hdrops, Nre.step, hmove]
  by_cases hbottom : m.ctx.pCallbacks = t.pBottom
  · rw [if_pos hbottom, if_pos (.inl hbottom)]
    exact leave_dropped hstack _ _ _
  · by_cases hyielded : t.yielded
    · rw [if_neg hbottom, if_pos hyielded, if_pos (.inr hyielded)]
      exact leave_dropped hstack _ _ _
    · rw [if_neg hbottom, if_neg hyielded, if_neg (not_or.mpr ⟨hbottom, hyielded⟩)]
      simp

theorem suspend_dropped (canceled : Bool) :
    (m.step (.suspend canceled)).dropped = m.dropped ++
      (m.dropsBy (.suspend canceled)).map (·, m.stack.any Activity.ofCoroutine) := by
  have hdrops : m.dropsBy (.suspend canceled) =
      if m.ctx.pCallbacks = t.pBottom ∨ t.yielded then []
      else m.drops t.pBottom .suspend caller := by
    rw [dropsBy, hstack]
  have hmove : m.next (.suspend canceled) =
      if m.ctx.pCallbacks = t.pBottom ∨ t.yielded then none
      else m.leave .suspend .brokenOff canceled := by
    rw [Nre.next, Nre.suspend, hstack]
  rw [hdrops, Nre.step, hmove]
  split_ifs
  · simp
  · exact leave_dropped hstack _ _ _

theorem unwind_dropped (canceled : Bool) :
    (m.step (.unwind canceled)).dropped = m.dropped ++
      (m.dropsBy (.unwind canceled)).map (·, m.stack.any Activity.ofCoroutine) := by
  have hdrops : m.dropsBy (.unwind canceled) =
      if m.ctx.pCallbacks = t.pBottom ∨ t.yielded then []
      else drops { m with ctx := { m.ctx with pCallbacks := t.pBottom } } t.pBottom .error
        caller := by
    rw [dropsBy, hstack]
  rw [hdrops, Nre.step, Nre.next, Nre.unwind, hstack]
  dsimp only
  split_ifs
  · simp
  · rw [getD_some, goOn_dropped]
    rfl

end

end Leaving

theorem step_dropped (m : Nre) (i : Move) : (m.step i).dropped =
    m.dropped ++ (m.dropsBy i).map (·, m.stack.any Activity.ofCoroutine) := by
  have hcode {i : Move} (hnext : m.next i = if m.inCode then m.codeMove i else none)
      (hnone : m.dropsBy i = []) : (m.step i).dropped =
        m.dropped ++ (m.dropsBy i).map (·, m.stack.any Activity.ofCoroutine) := by
    rw [hnone, map_nil, append_nil, Nre.step]
    cases hmove : m.next i with
    | none => rfl
    | some m' =>
      rw [hnext] at hmove
      split_ifs at hmove
      exact codeMove_dropped hmove
  cases i with
  | run canceled =>
    have hnone : m.dropsBy (.run canceled) = [] := rfl
    rw [hnone, map_nil, append_nil, Nre.step, Nre.next]
    cases hmove : m.run canceled with
    | none => rfl
    | some m' => exact run_dropped hmove
  | finish canceled =>
    rcases hstack : m.stack with _ | ⟨⟨t, caller⟩ | n, rest⟩
    · simp [Nre.step, Nre.next, Nre.finish, dropsBy, hstack]
    · rw [← hstack]
      exact finish_dropped hstack canceled
    · simp [Nre.step, Nre.next, Nre.finish, dropsBy, hstack]
  | suspend canceled =>
    rcases hstack : m.stack with _ | ⟨⟨t, caller⟩ | n, rest⟩
    · simp [Nre.step, Nre.next, Nre.suspend, dropsBy, hstack]
    · rw [← hstack]
      exact suspend_dropped hstack canceled
    · simp [Nre.step, Nre.next, Nre.suspend, dropsBy, hstack]
  | unwind canceled =>
    rcases hstack : m.stack with _ | ⟨⟨t, caller⟩ | n, rest⟩
    · simp [Nre.step, Nre.next, Nre.unwind, dropsBy, hstack]
    · rw [← hstack]
      exact unwind_dropped hstack canceled
    · simp [Nre.step, Nre.next, Nre.unwind, dropsBy, hstack]
  | _ => exact hcode rfl rfl

/-- Every callback is in one place or has come to its end once, and every call of the
trampoline has gone by the rules. -/
structure Disciplined (m : Nre) : Prop where
  /-- It waits, has been invoked or has been freed by an unwinding cancellation, once. -/
  once : (m.waiting ++ m.invoked ++ m.released).Perm (List.range m.nextCallback)
  /-- Calls of the trampoline under way have replayed to the chain they are on. -/
  layout : Layout m.stack m.ctx.pCallbacks
  /-- Calls on record took the callbacks last in, first out, each with the last return code,
  and left the chain below the marker as it was. -/
  order : ∀ r ∈ m.finished, r.Orderly
  /-- The callbacks that were above the marker or were pushed have been invoked or left. -/
  invoked : ∀ r ∈ m.finished, (invokedIn r.activation.events ++ r.rest).Perm
    (r.activation.start ++ pushedIn r.activation.events)
  unwound : ∀ r ∈ m.finished, r.ending = .unwound → r.rest ⊆ m.released
  /-- A thaw or a resumption goes on with what suspensions and yields have left. -/
  resumed : ∀ r ∈ m.finished, r.caller.resumes → KeptChain m.finished r.activation.start

theorem Kept.once (h : Kept m) (hdropped : m.dropped = []) :
    (m.waiting ++ m.invoked ++ m.released).Perm (List.range m.nextCallback) := by
  refine perm_iff_count.mpr fun n => ?_
  have htally := h.tally n
  rw [Nre.tally, hdropped, map_nil, count_nil, Nat.add_zero] at htally
  rw [count_append, count_append, htally]
  split_ifs with hn
  · exact (count_eq_one_of_mem nodup_range (mem_range.mpr hn)).symm
  · exact (count_eq_zero_of_not_mem fun hmem => hn (mem_range.mp hmem)).symm

theorem Kept.disciplined (h : Kept m) (hdropped : m.dropped = []) : Disciplined m where
  once := h.once hdropped
  layout := h.layout
  order := h.records
  invoked r hr := by
    obtain ⟨rc, hreplay⟩ := (h.records r hr).replay
    exact perm_of_follow hreplay
  unwound := h.unwound
  resumed := h.resumed

def DropsNothing (m : Nre) (i : Move) : Prop := m.dropsBy i = []

/-- In every run in which nothing is dropped, every callback is invoked once, last in, first
out, or is kept for a thaw or a resumption, or freed by an unwinding cancellation. -/
theorem disciplined_of_reachable (hrun : ReachableBy Nre.step DropsNothing fresh m) :
    Disciplined m := by
  have hstep (m : Nre) (i : Move) (h : Kept m ∧ m.dropped = []) (hdrops : DropsNothing m i) :
      Kept (m.step i) ∧ (m.step i).dropped = [] := by
    refine ⟨h.1.step i, ?_⟩
    rw [step_dropped, h.2, hdrops]
    rfl
  have hkept : Kept m ∧ m.dropped = [] := by
    refine ReachableBy.invariant ?_ hstep hrun
    exact ⟨kept_fresh, rfl⟩
  exact hkept.1.disciplined hkept.2

def thawAndResume : List Move :=
  [.evalCommon 1 2 .ok, .suspend false, .thaw, .run false, .addCallback true,
    .callbackReturn .ok, .run false, .callbackReturn .ok, .run false, .callbackReturn .ok,
    .finish false, .coroCreate ⟨false, [5]⟩ true true true 2 .ok, .run false,
    .callbackReturn .yield, .finish false, .coroResume [5], .run false,
    .callbackReturn .ok, .finish false]

theorem disciplined_thawAndResume : Disciplined (thawAndResume.foldl Nre.step fresh) := by
  have hallowed : ReachableBy.AllowedRun Nre.step DropsNothing fresh thawAndResume := by
    refine ⟨rfl, ?_, rfl, rfl, rfl, rfl, rfl, rfl, rfl, rfl, ?_, rfl, rfl, rfl, ?_, rfl, rfl,
      rfl, ?_, trivial⟩
    all_goals rw [DropsNothing]; decide
  exact disciplined_of_reachable (ReachableBy.init.foldl hallowed)

/-- A thawed evaluation that is suspended again loses the callbacks it had left, and so does
an evaluation suspended inside another. -/
theorem callbacks_lost :
    let again : List Move := [.evalCommon 1 2 .ok, .suspend false, .thaw, .run false,
      .addCallback true, .callbackReturn .ok, .suspend false, .thaw]
    let nested : List Move := [.evalCommon 1 2 .ok, .run false, .evalCommon 1 2 .ok,
      .suspend false, .callbackReturn .suspend, .suspend false]
    let m₁ := again.foldl Nre.step fresh
    let m₂ := nested.foldl Nre.step fresh
    m₁.stack = [] ∧ m₁.nextCallback = 3 ∧ m₁.waiting = [] ∧ m₁.invoked = [1] ∧ m₁.released = [] ∧
      m₂.stack = [] ∧ m₂.nextCallback = 4 ∧ m₂.waiting = [0] ∧ m₂.invoked = [1] ∧
      m₂.released = [] := by
  decide

end Nre

end Th8
