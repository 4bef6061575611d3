import Mathlib.Data.List.Infix
import Th8.Context.Moves

/-!
# Switches of the frame

An evaluation in another frame or namespace switches the current frame, the current
namespace and the pointer that `downlevel` goes back to, and leaves it to a callback or to
the waiting C code to put them back.  A part of the stack that belongs to a call puts the
three back when it has run, as long as every switch is made with its restoration and no
switch is nested in another one.
-/

namespace Th8

open Support List

namespace Context

/-- The current frame, the current namespace and the down-level frame pointer. -/
@[ext]
structure Place where
  pFrame : FramePtr
  pCurrentNs : NsId
  pDownlevelFrame : FramePtr
deriving DecidableEq

def place (c : Context) : Place := ⟨c.ctx.pFrame, c.ctx.pCurrentNs, c.pDownlevelFrame⟩

/-- What a callback puts back.  `th8FrameRestoreCallback` clears the down-level frame
pointer. -/
def Callback.putBack : Callback → Place → Place
  | .frameRestore pSaved, p => { p with pFrame := pSaved, pDownlevelFrame := [] }
  | .nsRestore pSaved, p => { p with pCurrentNs := pSaved }
  | .frameCleanup, p => { p with pFrame := p.pFrame.tail }
  | _, p => p

/-- What an activity puts back when it comes to its end. -/
def Activity.putBack : Activity → Place → Place
  | .callback cb, p => cb.putBack p
  | .evalCommon pSavedFrame _ switched, p =>
    { p with
      pFrame := pSavedFrame
      pDownlevelFrame := if switched then [] else p.pDownlevelFrame }
  | .evalDownlevel pSaved pSavedNs, p => { p with pFrame := pSaved, pCurrentNs := pSavedNs }
  | .nsEval pSaved, p => { p with pFrame := p.pFrame.tail, pCurrentNs := pSaved }
  | .coroResume _ outerCtx, p =>
    { p with pFrame := outerCtx.pFrame, pCurrentNs := outerCtx.pCurrentNs }
  | .coroDelete outerCtx, p =>
    { p with pFrame := outerCtx.pFrame, pCurrentNs := outerCtx.pCurrentNs }
  | _, p => p

def Callback.settled : Callback → Bool
  | .frameRestore _ => false
  | .nsRestore _ => false
  | .frameCleanup => false
  | _ => true

def Callback.clearsDownlevel : Callback → Bool
  | .frameRestore _ => true
  | _ => false

def Callback.restoresNs : Callback → Bool
  | .nsRestore _ => true
  | _ => false

theorem Callback.putBack_of_settled {cb : Callback} (h : cb.settled) (p : Place) :
    cb.putBack p = p := by
  cases cb <;> first | rfl | exact absurd h (by simp [Callback.settled])

theorem Callback.putBack_pCurrentNs {cb : Callback} (h : cb.restoresNs = false) (p : Place) :
    (cb.putBack p).pCurrentNs = p.pCurrentNs := by
  cases cb <;> first | rfl | exact absurd h (by simp [Callback.restoresNs])

theorem Callback.putBack_pDownlevelFrame {cb : Callback} {p : Place}
    (h : cb.clearsDownlevel = false ∨ p.pDownlevelFrame = []) :
    (cb.putBack p).pDownlevelFrame = p.pDownlevelFrame := by
  cases cb with
  | frameRestore pSaved => exact (h.resolve_left (by simp [clearsDownlevel])).symm
  | _ => rfl

theorem unwind_pDownlevelFrame {cbs : List Callback} {p : Place}
    (h : cbs.any Callback.clearsDownlevel = false ∨ p.pDownlevelFrame = []) :
    (unwind Callback.putBack cbs p).pDownlevelFrame = p.pDownlevelFrame := by
  induction cbs generalizing p with
  | nil => rfl
  | cons cb cbs ih =>
    have hcb : cb.clearsDownlevel = false ∨ p.pDownlevelFrame = [] :=
      h.imp_left fun hany => (Bool.or_eq_false_iff.mp hany).1
    have hkeep := Callback.putBack_pDownlevelFrame hcb
    rw [unwind_cons, ih, hkeep]
    rw [hkeep]
    exact h.imp_left fun hany => (Bool.or_eq_false_iff.mp hany).2

theorem unwind_pCurrentNs {cbs : List Callback} (h : cbs.any Callback.restoresNs = false)
    (p : Place) : (unwind Callback.putBack cbs p).pCurrentNs = p.pCurrentNs := by
  refine unwind_keeps Place.pCurrentNs (fun cb hcb => Callback.putBack_pCurrentNs ?_) p
  simpa using any_eq_false.mp h cb hcb

theorem unwind_settled {cbs : List Callback} (h : cbs.all Callback.settled) (p : Place) :
    unwind Callback.putBack cbs p = p :=
  unwind_keeps id (fun _ hcb => Callback.putBack_of_settled (all_eq_true.mp h _ hcb)) p

theorem unwind_map_callback (cbs : List Callback) (p : Place) :
    unwind Activity.putBack (cbs.map .callback) p = unwind Callback.putBack cbs p := by
  rw [unwind, foldl_map]
  rfl

theorem unwind_chain (cbs : List Callback) (a : Activity) (p : Place) :
    unwind Activity.putBack (cbs.map .callback ++ [a]) p =
      a.putBack (unwind Callback.putBack cbs p) := by
  rw [unwind_append, unwind_map_callback, unwind_cons, unwind_nil]

def aboveCaller (caller stack : List Activity) : List Activity :=
  stack.take (stack.length - caller.length)

theorem aboveCaller_append (above caller : List Activity) :
    aboveCaller caller (above ++ caller) = above := by
  rw [aboveCaller, length_append, Nat.add_sub_cancel, take_left]

/-- The callbacks of a chain may be dropped or set aside: the activity below them puts the
frame and the namespace back, and they do not clear the down-level frame pointer. -/
def keepsDownlevel (c : Context) (cbs : List Callback) : Prop :=
  cbs.any Callback.clearsDownlevel = false ∨ c.pDownlevelFrame = []

def makesGood (c : Context) : Activity → Prop
  | .evalCommon _ _ switched => (chain c.stack).any Callback.restoresNs = false ∧
      (switched ∨ c.keepsDownlevel (chain c.stack))
  | .evalDownlevel .. => c.keepsDownlevel (chain c.stack)
  | .coroResume .. => c.keepsDownlevel (chain c.stack)
  | .coroDelete _ => c.keepsDownlevel (chain c.stack)
  | _ => False

/-- An unwinding cancellation discards nothing that is needed: the callbacks put nothing
back, or control goes to an evaluation inside the call that makes good for them. -/
def discardKeeps (caller : List Activity) (c : Context) : Prop :=
  (chain c.stack).all Callback.settled ∨
    belowChain c.stack ≠ caller ∧ ∃ a ∈ (belowChain c.stack).head?, c.makesGood a

/-- No evaluation is suspended or yields but those of a coroutine.  The first time, it
does so outside the namespaces and frames that the body has switched to. -/
def breakKeeps (c : Context) (yields : Bool) : Prop :=
  match belowChain c.stack with
  | .evalCommon _ _ false :: .coroCreate _ :: _ => yields ∧ chain c.stack ≠ [] ∧
      (chain c.stack).any Callback.restoresNs = false ∧ c.keepsDownlevel (chain c.stack)
  | .coroResume .. :: _ => c.keepsDownlevel (chain c.stack)
  | .coroDelete _ :: _ => c.keepsDownlevel (chain c.stack)
  | _ => False

def coroutineKeeps (c : Context) (pCoro : ℕ) : Prop :=
  ∀ co, c.coroutines pCoro = some co →
    c.keepsDownlevel (co.pCallbacks ++ co.ctx.pSuspendedCallbacks)

/-- The move is made with its restoration, and outside any other switch of the frame. -/
def SwitchAllowed (caller : List Activity) (c : Context) : Move → Prop
  | .evalCommon iFrame _ =>
    iFrame = 0 ∨ frameAt c.ctx.pFrame iFrame = [] ∨ c.pDownlevelFrame = []
  | .nrEvalInFrame iFrame hasFrameRestore hasNsRestore _ =>
    frameAt c.ctx.pFrame iFrame = [] ∨
      (if hasFrameRestore then c.pDownlevelFrame = [] else iFrame = 0) ∧
      (hasNsRestore ∨ frameNs (frameAt c.ctx.pFrame iFrame) c.ctx.pCurrentNs = c.ctx.pCurrentNs)
  | .nrInFrame _ hasFrame hasCleanup _ => hasFrame → hasCleanup
  | .procCall pDefNs hasRestore _ => hasRestore ∨ pDefNs = c.ctx.pCurrentNs
  | .deleteNamespace pNs => (aboveCaller caller c.stack).any Activity.restoresNs ∨
      c.ctx.pCurrentNs = globalNs ∨ pNs ≠ c.ctx.pCurrentNs ∧ pNs ≠ globalNs
  | .coroResume pCoro => coroutineKeeps c pCoro
  | .coroDelete pCoro => coroutineKeeps c pCoro
  | .discard => c.discardKeeps caller
  | .breakOff yields _ => c.breakKeeps yields
  | _ => True

def InCall (caller : List Activity) (c : Context) (m : Move) : Prop :=
  caller <:+ c.stack ∧ SwitchAllowed caller c m

/-- What lies above the caller puts `goal` back. -/
def PlaceKept (caller : List Activity) (goal : Place) (c : Context) : Prop :=
  ∃ above, c.stack = above ++ caller ∧ unwind Activity.putBack above c.place = goal

variable {caller : List Activity} {goal : Place} {c c' : Context}

section

variable (h : PlaceKept caller goal c)

include h

theorem PlaceKept.congr (hstack : c'.stack = c.stack)
    (hplace : c'.place = c.place) : PlaceKept caller goal c' := by
  obtain ⟨above, habove, hgoal⟩ := h
  exact ⟨above, hstack.trans habove, by rwa [hplace]⟩

theorem PlaceKept.push (seg : List Activity)
    (hstack : c'.stack = seg ++ c.stack) (hplace : unwind Activity.putBack seg c'.place = c.place) :
    PlaceKept caller goal c' := by
  obtain ⟨above, habove, hgoal⟩ := h
  refine ⟨seg ++ above, ?_, ?_⟩
  · rw [hstack, habove, append_assoc]
  · rw [unwind_append, hplace, hgoal]

theorem PlaceKept.pop {seg : List Activity} (hstack : c.stack = seg ++ c'.stack) (hplace :
    c'.place = unwind Activity.putBack seg c.place)
    (hcaller : caller <:+ c'.stack) : PlaceKept caller goal c' := by
  obtain ⟨above, habove, hgoal⟩ := h
  obtain ⟨rest, hrest⟩ := hcaller
  have hsplit : above = seg ++ rest := by
    rw [← hrest, habove, ← append_assoc] at hstack
    exact append_cancel_right hstack
  refine ⟨rest, hrest.symm, ?_⟩
  rw [hplace, ← unwind_append, ← hsplit, hgoal]

end

/-! ## Code -/

@[simp]
theorem addCallback_pDownlevelFrame (c : Context) (cb : Callback) (hasMemory : Bool) :
    (c.addCallback cb hasMemory).pDownlevelFrame = c.pDownlevelFrame := by
  rw [addCallback]
  split_ifs <;> rfl

section

variable (h : PlaceKept caller goal c)

include h

theorem PlaceKept.addSettled {cb : Callback} (hcb : cb.settled) (hasMemory : Bool) :
    PlaceKept caller goal (c.addCallback cb hasMemory) := by
  rw [addCallback]
  split_ifs
  · exact h.push [.callback cb] rfl (Callback.putBack_of_settled hcb c.place)
  · exact h

theorem PlaceKept.evalLocal (refused : Bool) : PlaceKept caller goal (c.evalLocal refused) := by
  rw [Context.evalLocal]
  split_ifs
  · exact h
  · exact h.push [.evalLocal c.ctx.nLine] rfl rfl

theorem PlaceKept.evalCommon {iFrame : ℤ}
    (hallowed : iFrame = 0 ∨ frameAt c.ctx.pFrame iFrame = [] ∨ c.pDownlevelFrame = [])
    (refused : Bool) : PlaceKept caller goal (c.evalCommon iFrame refused) := by
  rw [Context.evalCommon]
  split_ifs with hzero
  · refine PlaceKept.evalLocal ?_ refused
    refine h.push [.evalCommon c.ctx.pFrame c.ctx.nEvalDepth (iFrame != 0)] rfl ?_
    ext1 <;> simp [Activity.putBack, place, hzero, Context.push]
  · split
    · exact h
    · rename_i htarget
      have hdown : c.pDownlevelFrame = [] := (hallowed.resolve_left hzero).resolve_left htarget
      refine PlaceKept.evalLocal ?_ refused
      refine h.push [.evalCommon c.ctx.pFrame c.ctx.nEvalDepth (iFrame != 0)] rfl ?_
      ext1 <;> simp [Activity.putBack, place, hzero, hdown]

theorem PlaceKept.evalDownlevel (refused : Bool) :
    PlaceKept caller goal (c.evalDownlevel refused) := by
  rw [Context.evalDownlevel]
  split
  · exact h
  · refine PlaceKept.evalLocal ?_ refused
    exact h.push [.evalDownlevel c.ctx.pFrame c.ctx.pCurrentNs] rfl rfl

theorem PlaceKept.nsEval (pTarget : NsId) (address : ℕ) (hasFrame refused : Bool) :
    PlaceKept caller goal (c.nsEval pTarget address hasFrame refused) := by
  rw [Context.nsEval]
  split_ifs
  · refine PlaceKept.evalCommon ?_ (.inl rfl) refused
    exact h.push [.nsEval c.ctx.pCurrentNs] rfl rfl
  · exact h

theorem PlaceKept.coroCreate (pCoro : ℕ) (refused : Bool) :
    PlaceKept caller goal (c.coroCreate pCoro refused) := by
  refine PlaceKept.evalCommon ?_ (.inl rfl) refused
  exact h.push [.coroCreate pCoro] rfl rfl

end

theorem unwind_outer {cbs : List Callback} {a : Activity} {outerCtx : ExecCtx} {p : Place}
    (ha : ∀ q : Place, a.putBack q =
      { q with pFrame := outerCtx.pFrame, pCurrentNs := outerCtx.pCurrentNs })
    (hdown : cbs.any Callback.clearsDownlevel = false ∨ p.pDownlevelFrame = []) :
    unwind Activity.putBack (cbs.map .callback ++ [a]) p =
      ⟨outerCtx.pFrame, outerCtx.pCurrentNs, p.pDownlevelFrame⟩ := by
  rw [unwind_chain, ha]
  exact Place.ext rfl rfl (unwind_pDownlevelFrame hdown)

theorem keepsDownlevel_append {cbs cbs' : List Callback}
    (h : c.keepsDownlevel (cbs ++ cbs')) : c.keepsDownlevel cbs ∧ c.keepsDownlevel cbs' := by
  rcases h with hany | hnil
  · rw [any_append, Bool.or_eq_false_iff] at hany
    exact ⟨.inl hany.1, .inl hany.2⟩
  · exact ⟨.inr hnil, .inr hnil⟩

theorem PlaceKept.coroResume (h : PlaceKept caller goal c) {pCoro : ℕ}
    (hallowed : coroutineKeeps c pCoro) : PlaceKept caller goal (c.coroResume pCoro) := by
  rw [Context.coroResume]
  split
  · exact h
  · exact h
  · rename_i ctx pCallbacks _ hco
    have hkeep := (keepsDownlevel_append (hallowed _ hco)).1
    refine h.push (pCallbacks.map .callback ++ [.coroResume pCoro c.ctx]) ?_ ?_
    · simp
    · exact unwind_outer (fun _ => rfl) hkeep

theorem unwind_drain {cbs : List Callback} {p : Place} (hkeep : c.keepsDownlevel cbs)
    (hdown : p.pDownlevelFrame = c.pDownlevelFrame) (hnil : cbs = [] → p = c.place) :
    ∃ seg, (∀ below, c.drainAbove cbs below = seg ++ below) ∧
      unwind Activity.putBack seg p = c.place := by
  by_cases hcbs : cbs = []
  · refine ⟨[], fun below => ?_, hnil hcbs⟩
    rw [drainAbove, if_pos hcbs, nil_append]
  · refine ⟨cbs.map .callback ++ [.coroDelete c.ctx], fun below => ?_, ?_⟩
    · rw [drainAbove, if_neg hcbs, append_assoc]
      rfl
    · rw [keepsDownlevel, ← hdown] at hkeep
      rw [unwind_outer (fun _ => rfl) hkeep, hdown]
      rfl

section

variable (h : PlaceKept caller goal c)

include h

theorem PlaceKept.coroDelete {pCoro : ℕ}
    (hallowed : coroutineKeeps c pCoro) : PlaceKept caller goal (c.coroDelete pCoro) := by
  rw [Context.coroDelete]
  split
  · exact h
  · rename_i ctx pCallbacks hco
    obtain ⟨hcallbacks, hsuspended⟩ := keepsDownlevel_append (hallowed _ hco)
    obtain ⟨seg₂, hseg₂, hback₂⟩ := unwind_drain (p := c.place) hsuspended rfl fun _ => rfl
    have hplace : pCallbacks = [] →
        (⟨(if pCallbacks = [] then c.ctx else ctx).pFrame,
          (if pCallbacks = [] then c.ctx else ctx).pCurrentNs, c.pDownlevelFrame⟩ : Place) =
          c.place := fun hnil => by simp [hnil, place]
    obtain ⟨seg₁, hseg₁, hback₁⟩ := unwind_drain hcallbacks rfl hplace
    refine h.push (seg₁ ++ seg₂) ?_ ?_
    · rw [append_assoc, ← hseg₂, ← hseg₁]
    · rw [unwind_append]
      exact (congrArg _ hback₁).trans hback₂

theorem PlaceKept.switchNs {pNs : NsId} {hasRestore : Bool}
    (hallowed : hasRestore ∨ pNs = c.ctx.pCurrentNs) :
    PlaceKept caller goal (if pNs = c.ctx.pCurrentNs then c else
      { c.addCallback (.nsRestore c.ctx.pCurrentNs) hasRestore with
        ctx := { c.ctx with pCurrentNs := pNs } }) := by
  split_ifs with hns
  · exact h
  · have hrestore : hasRestore = true := hallowed.resolve_right hns
    subst hrestore
    exact h.push [.callback (.nsRestore c.ctx.pCurrentNs)] rfl rfl

theorem PlaceKept.nrEvalInFrame {iFrame : ℤ}
    {hasFrameRestore hasNsRestore hasEval : Bool}
    (hallowed : SwitchAllowed caller c
      (.nrEvalInFrame iFrame hasFrameRestore hasNsRestore hasEval)) :
    PlaceKept caller goal (c.nrEvalInFrame iFrame hasFrameRestore hasNsRestore hasEval) := by
  rw [Context.nrEvalInFrame]
  split
  · exact h
  · rename_i htarget
    obtain ⟨hframe, hns⟩ := hallowed.resolve_left htarget
    refine PlaceKept.addSettled ?_ rfl hasEval
    -- the frame is switched first, and its restoration goes below that of the namespace
    generalize hc₁ : (if iFrame = 0 then c else
      { c with
        ctx := { c.ctx with pFrame := frameAt c.ctx.pFrame iFrame }
        pDownlevelFrame := c.ctx.pFrame }) = c₁
    have hkept : PlaceKept caller goal
        (c₁.addCallback (.frameRestore c.ctx.pFrame) hasFrameRestore) := by
      cases hasFrameRestore with
      | true =>
        rw [if_pos rfl] at hframe
        refine h.push [.callback (.frameRestore c.ctx.pFrame)] ?_ ?_
        · rw [← hc₁]
          split_ifs <;> rfl
        · rw [← hc₁]
          split_ifs <;> ext1 <;> simp [Activity.putBack, Callback.putBack, place, hframe]
      | false =>
        rw [if_neg (by simp)] at hframe
        rw [← hc₁, if_pos hframe]
        exact h
    have hcurrent : (c₁.addCallback (.frameRestore c.ctx.pFrame) hasFrameRestore).ctx.pCurrentNs =
        c.ctx.pCurrentNs := by
      rw [addCallback_ctx, ← hc₁]
      split_ifs <;> rfl
    rw [← hcurrent] at hns ⊢
    exact hkept.switchNs hns

theorem PlaceKept.nrInFrame {address : ℕ}
    {hasFrame hasCleanup : Bool} (hallowed : hasFrame → hasCleanup) (hasWork : Bool) :
    PlaceKept caller goal (c.nrInFrame address hasFrame hasCleanup hasWork) := by
  rw [Context.nrInFrame]
  split_ifs with hframe
  · refine PlaceKept.addSettled ?_ rfl hasWork
    rw [hallowed hframe]
    exact h.push [.callback .frameCleanup] rfl rfl
  · exact h

end

theorem unwind_ns {stack : List Activity} {p q : Place}
    (hstack : stack.any Activity.restoresNs) (hframe : p.pFrame = q.pFrame)
    (hdown : p.pDownlevelFrame = q.pDownlevelFrame) :
    unwind Activity.putBack stack p = unwind Activity.putBack stack q := by
  induction stack generalizing p q with
  | nil => exact absurd hstack (by simp)
  | cons a stack ih =>
    rw [unwind_cons, unwind_cons]
    by_cases ha : a.restoresNs
    · refine congrArg _ ?_
      rcases a with (_ | _ | _ | _ | _ | _) | _ | _ | _ | _ | _ | _ | _ | _ <;>
        simp_all [Activity.restoresNs, Activity.putBack, Callback.putBack]
    · refine ih (by simpa [ha] using hstack) ?_ ?_
      all_goals
        rcases a with (_ | _ | _ | _ | _ | _) | _ | _ | _ | _ | _ | _ | _ | _ <;>
          simp [Activity.putBack, Callback.putBack, hframe, hdown]

section

variable (h : PlaceKept caller goal c)

include h

theorem PlaceKept.deleteNamespace {pNs : NsId}
    (hallowed : SwitchAllowed caller c (.deleteNamespace pNs)) :
    PlaceKept caller goal (c.deleteNamespace pNs) := by
  rw [Context.deleteNamespace]
  split_ifs with hns
  · rcases hallowed with hpending | hglobal | ⟨hne, hne'⟩
    · obtain ⟨above, habove, hgoal⟩ := h
      rw [habove, aboveCaller_append] at hpending
      refine ⟨above, habove, ?_⟩
      rw [← hgoal]
      exact unwind_ns hpending rfl rfl
    · refine h.congr rfl ?_
      ext1 <;> simp [place, hglobal]
    · exact absurd hns (by simp [hne, hne'])
  · exact h

theorem PlaceKept.callbackMove {m : Move}
    (hallowed : SwitchAllowed caller c m) (hmove : c.callbackMove m = some c') :
    PlaceKept caller goal c' := by
  cases m with
  | nrEvalCallback refused =>
    cases hmove
    exact h.evalLocal refused
  | dispatch hasPostCmd =>
    cases hmove
    exact h.addSettled rfl hasPostCmd
  | dispatchUnknown hasPostCmd =>
    simp only [Context.callbackMove, Context.dispatchUnknown] at hmove
    split_ifs at hmove
    cases hmove
    have hpost : Callback.settled (.evalPostCmd true) = true := rfl
    exact (h.addSettled hpost hasPostCmd).congr rfl rfl
  | nrEvalInFrame iFrame hasFrameRestore hasNsRestore hasEval =>
    cases hmove
    exact h.nrEvalInFrame hallowed
  | nrInFrame address hasFrame hasCleanup hasWork =>
    cases hmove
    exact h.nrInFrame hallowed hasWork
  | procCall pDefNs hasRestore hasEval =>
    cases hmove
    exact (h.switchNs hallowed).addSettled rfl hasEval
  | addCallback hasMemory =>
    cases hmove
    exact h.addSettled rfl hasMemory
  | countNewlines n =>
    cases hmove
    exact h.congr rfl rfl
  | _ => cases hmove

theorem PlaceKept.codeMove {m : Move}
    (hallowed : SwitchAllowed caller c m) (hmove : c.codeMove m = some c') :
    PlaceKept caller goal c' := by
  rw [Context.codeMove.eq_def] at hmove
  split at hmove
  · cases hmove
    exact h.evalCommon hallowed _
  · cases hmove
    exact h.evalDownlevel _
  · cases hmove
    exact h.nsEval _ _ _ _
  · cases hmove
    exact h.coroCreate _ _
  · cases hmove
    exact h.coroResume hallowed
  · cases hmove
    exact h.coroDelete hallowed
  · cases hmove
    exact h.deleteNamespace hallowed
  · split_ifs at hmove
    exact h.callbackMove hallowed hmove

end

/-! ## The trampoline and its callers -/

/-- Control has left the caller, or what lies above it puts `goal` back. -/
def KeptOrLeft (caller : List Activity) (goal : Place) (c : Context) : Prop :=
  PlaceKept caller goal c ∨ ¬ caller <:+ c.stack

theorem mem_of_cons_suffix {a : Activity} {seg rest : List Activity}
    (h : a :: rest <:+ seg ++ rest) : a ∈ seg := by
  obtain ⟨before, hbefore⟩ := h
  have hseg : before ++ [a] = seg := by
    rw [append_cons] at hbefore
    exact append_cancel_right hbefore
  rw [← hseg]
  simp

section

variable (h : PlaceKept caller goal c)

include h

theorem PlaceKept.replace {a : Activity} {rest : List Activity} (seg : List Activity) (hstack :
    c.stack = a :: rest)
    (hstack' : c'.stack = seg ++ rest) (ha : a ∉ seg)
    (hplace : unwind Activity.putBack seg c'.place = a.putBack c.place) :
    KeptOrLeft caller goal c' := by
  obtain ⟨above, habove, hgoal⟩ := h
  rw [hstack] at habove
  cases above with
  | nil =>
    refine .inr fun hcaller => ha ?_
    rw [nil_append] at habove
    rw [← habove, hstack'] at hcaller
    exact mem_of_cons_suffix hcaller
  | cons b above =>
    rw [cons_append, List.cons.injEq] at habove
    obtain ⟨rfl, hrest⟩ := habove
    refine .inl ⟨seg ++ above, ?_, ?_⟩
    · rw [hstack', hrest, append_assoc]
    · rw [unwind_append, hplace]
      exact hgoal

theorem PlaceKept.popOrLeave (seg : List Activity)
    (hstack : c.stack = seg ++ c'.stack) (hplace : c'.place = unwind Activity.putBack seg c.place) :
    KeptOrLeft caller goal c' := by
  by_cases hcaller : caller <:+ c'.stack
  · exact .inl (h.pop hstack hplace hcaller)
  · exact .inr hcaller

theorem PlaceKept.startEval {rejected hasState hasCleanup hasIteration : Bool}
    (hmove : c.startEval rejected hasState hasCleanup hasIteration = some c') :
    KeptOrLeft caller goal c' := by
  rw [Context.startEval] at hmove
  split at hmove
  · rename_i nSavedLine rest hstack
    split_ifs at hmove
    · cases hmove
      exact h.replace [.restoreLine nSavedLine] hstack rfl (by simp) rfl
    · cases hmove
      exact h.replace [] hstack rfl (by simp) rfl
    · cases hmove
      exact h.replace [.restoreLine nSavedLine] hstack rfl (by simp) rfl
    · cases hmove
      cases hasIteration with
      | true =>
        exact h.replace [.callback .other, .callback (.evalStateCleanup nSavedLine)] hstack
          rfl (by simp) rfl
      | false =>
        exact h.replace [.callback (.evalStateCleanup nSavedLine)] hstack rfl (by simp) rfl
  · cases hmove

theorem PlaceKept.run (hmove : c.run = some c') : KeptOrLeft caller goal c' := by
  rw [Context.run] at hmove
  split at hmove
  · rename_i cb rest hstack
    cases hmove
    rcases cb with nSavedLine | (_ | _) | _ | _ | _ | _
    · exact h.replace [.restoreLine nSavedLine] hstack rfl (by simp) rfl
    all_goals exact h.replace [] hstack rfl (by simp) rfl
  · cases hmove

theorem PlaceKept.finish {canceled : Bool}
    (hmove : c.finish canceled = some c') : KeptOrLeft caller goal c' := by
  rw [Context.finish] at hmove
  split at hmove
  case h_8 => cases hmove
  all_goals
    rename_i hstack
    cases hmove
    exact h.replace [] hstack rfl (by simp) rfl

end

theorem stack_eq_cons {a : Activity} {rest : List Activity} (h : belowChain c.stack = a :: rest) :
    c.stack = ((chain c.stack).map .callback ++ [a]) ++ rest := by
  rw [append_assoc]
  exact (stack_eq_chain c.stack).trans (by rw [h]; rfl)

theorem makesGood_putBack {a : Activity} (ha : c.makesGood a) :
    a.putBack (unwind Callback.putBack (chain c.stack) c.place) = a.putBack c.place := by
  have hdown (h : c.keepsDownlevel (chain c.stack)) :
      (unwind Callback.putBack (chain c.stack) c.place).pDownlevelFrame =
        c.place.pDownlevelFrame := unwind_pDownlevelFrame h
  cases a with
  | evalCommon pSavedFrame nSavedDepth switched =>
    obtain ⟨hns, hswitched⟩ := ha
    ext1
    · rfl
    · exact unwind_pCurrentNs hns c.place
    · rcases hswitched with hswitched | hkeep
      · simp [Activity.putBack, hswitched]
      · simp [Activity.putBack, hdown hkeep]
  | evalDownlevel => exact Place.ext rfl rfl (hdown ha)
  | coroResume => exact Place.ext rfl rfl (hdown ha)
  | coroDelete => exact Place.ext rfl rfl (hdown ha)
  | _ => exact ha.elim

section

variable (h : PlaceKept caller goal c)

include h

theorem PlaceKept.discard (hallowed : c.discardKeeps caller)
    (hmove : c.discard = some c') : KeptOrLeft caller goal c' := by
  rw [Context.discard] at hmove
  split_ifs at hmove
  cases hmove
  rcases hallowed with hsettled | ⟨hne, a, ha, hgood⟩
  · refine h.popOrLeave ((chain c.stack).map .callback) (stack_eq_chain c.stack) ?_
    rw [unwind_map_callback, unwind_settled hsettled]
    rfl
  · obtain ⟨above, habove, hgoal⟩ := h
    have hbelow := eq_cons_of_mem_head? ha
    refine or_iff_not_imp_right.mpr fun hcaller => ?_
    -- the activity below the chain lies above the caller
    rw [hbelow] at hne
    obtain ⟨inner, hinner⟩ : caller <:+ (belowChain c.stack).tail := by
      have hsuffix := not_not.mp hcaller
      rw [hbelow] at hsuffix
      exact (suffix_cons_iff.mp hsuffix).resolve_left fun heq => hne heq.symm
    have hsplit : above = ((chain c.stack).map .callback ++ [a]) ++ inner := by
      refine append_cancel_right (habove.symm.trans ?_)
      rw [append_assoc, hinner]
      exact stack_eq_cons hbelow
    refine ⟨a :: inner, ?_, ?_⟩
    · rw [cons_append, hinner]
      exact hbelow
    · rw [hsplit, unwind_append, unwind_chain, makesGood_putBack hgood] at hgoal
      exact hgoal

theorem PlaceKept.breakOff {yields canceled : Bool}
    (hallowed : c.breakKeeps yields) (hmove : c.breakOff yields canceled = some c') :
    KeptOrLeft caller goal c' := by
  rw [breakKeeps] at hallowed
  rw [Context.breakOff] at hmove
  split at hallowed
  · rename_i pSavedFrame nSavedDepth pCoro rest hbelow
    obtain ⟨rfl, hchain, hns, hkeep⟩ := hallowed
    rw [hbelow] at hmove
    cases hmove
    refine h.popOrLeave (((chain c.stack).map .callback ++
      [.evalCommon pSavedFrame nSavedDepth false]) ++ [.coroCreate pCoro]) ?_ ?_
    · rw [append_assoc]
      exact stack_eq_cons hbelow
    · have hgood : c.makesGood (.evalCommon pSavedFrame nSavedDepth false) := ⟨hns, .inr hkeep⟩
      rw [unwind_append, unwind_chain, makesGood_putBack hgood]
      ext1 <;> simp [place, yieldCreate, detach, hchain, Activity.putBack]
  · rename_i pCoro outerCtx rest hbelow
    rw [hbelow] at hmove
    cases hmove
    have hgood : c.makesGood (.coroResume pCoro outerCtx) := hallowed
    refine h.popOrLeave _ (stack_eq_cons hbelow) ?_
    rw [unwind_chain, makesGood_putBack hgood]
    rfl
  · rename_i outerCtx rest hbelow
    rw [hbelow] at hmove
    cases hmove
    have hgood : c.makesGood (.coroDelete outerCtx) := hallowed
    refine h.popOrLeave _ (stack_eq_cons hbelow) ?_
    rw [unwind_chain, makesGood_putBack hgood]
    rfl
  · exact hallowed.elim

theorem PlaceKept.move {m : Move}
    (hallowed : SwitchAllowed caller c m) (hmove : c.move m = some c') :
    KeptOrLeft caller goal c' := by
  rw [Context.move.eq_def] at hmove
  split at hmove
  · exact h.startEval hmove
  · exact h.run hmove
  · exact h.discard hallowed hmove
  · exact h.finish hmove
  · exact h.breakOff hallowed hmove
  · split_ifs at hmove
    exact .inl (h.codeMove hallowed hmove)

end

theorem KeptOrLeft.step (h : KeptOrLeft caller goal c) {m : Move} (hcall : InCall caller c m) :
    KeptOrLeft caller goal (c.step m) := by
  rcases h with hkept | hleft
  · rw [Context.step]
    cases hmove : c.move m with
    | none => exact .inl hkept
    | some c' => exact hkept.move hcall.2 hmove
  · exact absurd hcall.1 hleft

def inProc : Context :=
  [.startEval false true true true, .run, .nrInFrame 1 true true true, .run,
    .procCall 7 true true, .run].foldl Context.step
    ({ ctx := ⟨[⟨0, globalNs⟩], globalNs, 0, 0, [], []⟩
       bInUnknown := false
       pDownlevelFrame := []
       stack := []
       coroutines := fun _ => none
       suspended := false : Context }.evalCommon 0 false)

def uplevelNsEval : List Move :=
  [.nrEvalInFrame (-1) true true true, .run, .nrEvalCallback false,
    .startEval false true true true, .run, .nsEval 9 2 true false,
    .startEval false true true true, .run, .run, .finish false, .finish false,
    .finish false, .run, .finish false, .run, .run]

end Context

end Th8
