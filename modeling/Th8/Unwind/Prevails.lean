import Th8.Unwind.Stack

/-!
# An unwinding cancellation prevails

While an evaluation is under way, a request to cancel with unwinding stays until the
outermost evaluation has returned with an error, and no callback of `catch` or `try` goes
on in between.  The exceptions are requests that come between a test of the word and the
step that clears it or puts it aside, and requests that come when the outermost evaluation
has nothing left to run.
-/

namespace Th8

open Support List
open Cancel (Flags Request)
open Nre (Activation Chain Event ReturnCode note)

namespace Unwind

variable (u : Unwind)

def Kind.clears (kind : Kind) (rc : ReturnCode) : Bool :=
  match kind with
  | .catchPosteval => !(rc == .error || rc.breaksOff)
  | .tryPostTry hasFinally => hasFinally
  | _ => false

def clearing : Bool :=
  match u.pc with
  | .idle => u.control.clears u.rc
  | .checked canceled =>
    match u.nre.ctx.pCallbacks with
    | n :: _ => (u.kinds n).clears (if canceled then .error else u.rc)
    | [] => false
  | _ => true

def left : List Nre.Activity → Chain → Chain
  | [], _ => []
  | [.trampoline t _], chain => Nre.above t.pBottom chain
  | .trampoline t caller :: rest, _ => left rest (caller.chain t.pBottom)
  | .callback _ :: rest, chain => left rest chain

/-- What the outermost trampoline is still to invoke; a callback past the test is as good
as invoked. -/
def toRun : Chain :=
  match u.pc with
  | .checked _ => left u.nre.stack u.nre.ctx.pCallbacks.tail
  | _ => left u.nre.stack u.nre.ctx.pCallbacks

def Move.unwinds : Move → Bool
  | .arrive flags => flags.unwind
  | .cancelEval flags => flags.unwind
  | _ => false

def Move.evaluates : Move → Bool
  | .code i => i.evaluates
  | _ => false

def breaksOff (i : Move) : Bool :=
  match i, u.nre.stack with
  | .suspend, [_] => true
  | .finish, [.trampoline t _] => t.yielded
  | _, _ => false

/-- An unwinding cancellation is requested while nothing is about to clear the word and the
outermost evaluation has a callback left, that evaluation is not suspended with the
cancellation pending, and no other evaluation begins at depth zero. -/
def Allowed (i : Move) : Prop :=
  (i.unwinds → u.evaluating → u.clearing = false ∧ u.toRun ≠ []) ∧
    (u.requested → u.breaksOff i = false) ∧
    (i.evaluates → u.nre.stack ≠ [] → u.nre.ctx.place.nEvalDepth ≠ 0)

instance (i : Move) : Decidable (u.Allowed i) := inferInstanceAs (Decidable (_ ∧ _))

/-- The request is not cleared before the outermost evaluation has returned, no callback of
`catch` or `try` goes on, and the evaluation returns an error. -/
structure Prevails : Prop where
  pending : u.requested → u.nCancelReq.canceled ∧ u.nCancelReq.flags.unwind
  stopped : u.goneOn = []
  failed : ∀ r ∈ u.returned, r.1 → r.2 = .error

section Left

theorem left_callback (n : ℕ) (rest : List Nre.Activity) (chain : Chain) :
    left (.callback n :: rest) chain = left rest chain := by
  rw [left.eq_def]

theorem left_outermost (t : Activation) (caller : Nre.Caller) (chain : Chain) :
    left [.trampoline t caller] chain = Nre.above t.pBottom chain := by
  rw [left.eq_def]

theorem left_inner (t : Activation) (caller : Nre.Caller) {rest : List Nre.Activity}
    (hrest : rest ≠ []) (chain : Chain) :
    left (.trampoline t caller :: rest) chain = left rest (caller.chain t.pBottom) := by
  rcases rest with _ | ⟨a, rest⟩
  · exact absurd rfl hrest
  · rw [left.eq_def]

theorem above_ne_nil_iff {pBottom chain : Chain} :
    Nre.above pBottom chain ≠ [] ↔ pBottom.length < chain.length := by
  rw [Nre.above, ne_eq, take_eq_nil_iff]
  rcases chain with _ | ⟨n, chain⟩
  · simp
  · simp only [length_cons, reduceCtorEq, or_false]
    omega

theorem left_append {stack : List Nre.Activity} {chain : Chain} (pushed : Chain)
    (h : left stack chain ≠ []) : left stack (pushed ++ chain) ≠ [] := by
  induction stack generalizing chain with
  | nil => exact h
  | cons a rest ih =>
    cases a with
    | callback n =>
      rw [left_callback] at h ⊢
      exact ih h
    | trampoline t caller =>
      by_cases hrest : rest = []
      · subst hrest
        rw [left_outermost, above_ne_nil_iff] at h ⊢
        rw [length_append]
        omega
      · rw [left_inner t caller hrest] at h ⊢
        exact h

theorem left_note (events : List Event) (stack : List Nre.Activity) (chain : Chain) :
    left (note events stack) chain = left stack chain := by
  rcases Nre.note_cases events stack with hnote | ⟨n, t, caller, rest, rfl, hnote⟩
  · rw [hnote]
  · rw [hnote, left_callback, left_callback]
    by_cases hrest : rest = []
    · subst hrest
      rw [left_outermost, left_outermost]
    · rw [left_inner _ _ hrest, left_inner _ _ hrest]

theorem left_congr {t t' : Activation} (caller : Nre.Caller) (rest : List Nre.Activity)
    (chain : Chain) (hbottom : t'.pBottom = t.pBottom) :
    left (.trampoline t' caller :: rest) chain = left (.trampoline t caller :: rest) chain := by
  by_cases hrest : rest = []
  · subst hrest
    rw [left_outermost, left_outermost, hbottom]
  · rw [left_inner _ _ hrest, left_inner _ _ hrest, hbottom]

theorem isEvaluation_cons (a : Nre.Activity) {rest : List Nre.Activity} (hrest : rest ≠ []) :
    isEvaluation (a :: rest) = isEvaluation rest := by
  obtain ⟨b, rest, rfl⟩ := exists_cons_of_ne_nil hrest
  rw [isEvaluation, isEvaluation, getLast?_cons_cons]

theorem isEvaluation_congr (t t' : Activation) (caller : Nre.Caller) (rest : List Nre.Activity) :
    isEvaluation (.trampoline t' caller :: rest) = isEvaluation (.trampoline t caller :: rest) := by
  rcases rest with _ | ⟨a, rest⟩
  · cases caller <;> rfl
  · rw [isEvaluation_cons _ (cons_ne_nil _ _), isEvaluation_cons _ (cons_ne_nil _ _)]

theorem isEvaluation_note (events : List Event) (stack : List Nre.Activity) :
    isEvaluation (note events stack) = isEvaluation stack := by
  rcases Nre.note_cases events stack with hnote | ⟨n, t, caller, rest, rfl, hnote⟩
  · rw [hnote]
  · rw [hnote, isEvaluation_cons _ (cons_ne_nil _ _), isEvaluation_cons _ (cons_ne_nil _ _)]
    exact isEvaluation_congr _ _ _ _

end Left

def shape : Nre.Activity → ℕ ⊕ Nre.Caller
  | .callback n => .inl n
  | .trampoline _ caller => .inr caller

def shapes (m : Nre) : List (ℕ ⊕ Nre.Caller) := m.stack.map shape

theorem map_shape_note (events : List Event) (stack : List Nre.Activity) :
    (note events stack).map shape = stack.map shape := by
  rcases Nre.note_cases events stack with hnote | ⟨n, t, caller, rest, rfl, hnote⟩
  · rw [hnote]
  · rw [hnote]
    rfl

/-- Only the callback in control may be one of `catch` or `try`, and no evaluation inside
another began at depth zero. -/
structure Placed (m : Nre) (kinds : ℕ → Kind) : Prop where
  kept : Nre.Kept m
  numbered : ∀ n, .inl n ∈ shapes m → n < m.nextCallback
  buried : ∀ n, .inl n ∈ (shapes m).tail → kinds n = .other
  inner : ∀ caller, .inr caller ∈ (shapes m).dropLast → savedDepth caller ≠ some 0

structure Pending : Prop where
  canceled : u.nCancelReq.canceled
  unwind : u.nCancelReq.flags.unwind
  clearing : u.clearing = false
  toRun : u.toRun ≠ []
  evaluating : u.evaluating

structure Inv : Prop where
  placed : Placed u.nre u.kinds
  pending : u.requested → Pending u
  stopped : u.goneOn = []
  failed : ∀ r ∈ u.returned, r.1 → r.2 = .error

theorem Inv.prevails {u : Unwind} (h : Inv u) : Prevails u where
  pending hreq := ⟨(h.pending hreq).canceled, (h.pending hreq).unwind⟩
  stopped := h.stopped
  failed := h.failed

theorem inv_fresh : Inv fresh where
  placed :=
    { kept := Nre.kept_fresh
      numbered := by simp [shapes, fresh, Nre.fresh]
      buried := by simp [shapes, fresh, Nre.fresh]
      inner := by simp [shapes, fresh, Nre.fresh] }
  pending := by simp [fresh]
  stopped := rfl
  failed := by simp [fresh]

variable {u} {u' : Unwind} {m m' : Nre} {kinds : ℕ → Kind}

theorem Pending.isBeingUnwound (h : Pending u) : u.isBeingUnwound = true := by
  simp [Unwind.isBeingUnwound, adopted, h.canceled, h.unwind, Flags.or]

theorem Inv.not_requested (h : Inv u) (hclearing : u.clearing = true) : u.requested = false := by
  by_contra hreq
  have hpending := h.pending (by simpa using hreq)
  rw [hpending.clearing] at hclearing
  cases hclearing

theorem Inv.of_not_requested (h : Inv u) (hplaced : Placed u'.nre u'.kinds)
    (hrequested : u'.requested = false) (hgoneOn : u'.goneOn = u.goneOn)
    (hreturned : u'.returned = u.returned) : Inv u' where
  placed := hplaced
  pending hreq := by
    rw [hrequested] at hreq
    cases hreq
  stopped := hgoneOn.trans h.stopped
  failed := hreturned ▸ h.failed

theorem Inv.setFlags (h : Inv u) (cancelFlags : Flags) :
    Inv { u with cancelFlags := cancelFlags } :=
  ⟨h.placed, fun hreq => ⟨(h.pending hreq).canceled, (h.pending hreq).unwind,
    (h.pending hreq).clearing, (h.pending hreq).toRun, (h.pending hreq).evaluating⟩,
    h.stopped, h.failed⟩

theorem Inv.orBits (h : Inv u) {flags : Flags}
    (hallowed : flags.unwind → u.evaluating → u.clearing = false ∧ u.toRun ≠ []) :
    Inv (u.orBits flags) := by
  refine ⟨h.placed, fun hreq => ?_, h.stopped, h.failed⟩
  have hcases : u.requested = true ∨ (flags.unwind = true ∧ u.evaluating = true) := by
    simpa [Unwind.orBits] using hreq
  rcases hcases with hreq | ⟨hunwind, hevaluating⟩
  · have hpending := h.pending hreq
    refine ⟨?_, ?_, hpending.clearing, hpending.toRun, hpending.evaluating⟩
    · simp [Unwind.orBits, Request.or, hpending.canceled]
    · simp [Unwind.orBits, Request.or, Flags.or, hpending.unwind]
  · obtain ⟨hclearing, htoRun⟩ := hallowed hunwind hevaluating
    refine ⟨?_, ?_, hclearing, htoRun, hevaluating⟩
    · simp [Unwind.orBits, Request.or, Flags.publish]
    · simp [Unwind.orBits, Request.or, Flags.or, Flags.publish, hunwind]

/-! ## Code -/

variable {i : Nre.Move}

theorem codeMove_next (hcode : m.inCode) (hmove : m.codeMove i = some m') : m.next i = some m' := by
  cases i with
  | run => cases hmove
  | finish => cases hmove
  | suspend => cases hmove
  | unwind => cases hmove
  | _ => exact (if_pos hcode).trans hmove

theorem Placed.code (h : Placed m kinds) (hcode : m.inCode) (hmove : m.codeMove i = some m')
    (hcontrol : ∀ n, (shapes m).head? = some (.inl n) → kinds n = .other)
    (hdepth : i.evaluates → m.stack ≠ [] → m.ctx.place.nEvalDepth ≠ 0) : Placed m' kinds := by
  obtain ⟨heffect, hnext⟩ := Nre.codeMove_effect hmove
  have hkept := h.kept.next (codeMove_next hcode hmove)
  have hmem (n : ℕ) (hn : .inl n ∈ shapes m) : kinds n = .other := by
    rcases hshapes : shapes m with _ | ⟨a, rest⟩
    · simp [hshapes] at hn
    · rw [hshapes] at hn
      rcases mem_cons.mp hn with rfl | hn
      · exact hcontrol n (by rw [hshapes]; rfl)
      · exact h.buried n (by rw [hshapes]; exact hn)
  cases heffect with
  | pushes events pushed hstack hchain =>
    have hshapes : shapes m' = shapes m := by rw [shapes, hstack, map_shape_note, shapes]
    refine ⟨hkept, fun n hn => ?_, fun n hn => ?_, fun caller hcaller => ?_⟩
    · exact (h.numbered n (hshapes ▸ hn)).trans_le hnext
    · exact h.buried n (hshapes ▸ hn)
    · exact h.inner caller (hshapes ▸ hcaller)
  | calls t caller hstack hchain hcalls =>
    have hshapes : shapes m' = .inr caller :: shapes m := by rw [shapes, hstack]; rfl
    refine ⟨hkept, fun n hn => ?_, fun n hn => ?_, fun caller' hcaller => ?_⟩
    · rw [hshapes] at hn
      exact (h.numbered n (by simpa using hn)).trans_le hnext
    · rw [hshapes] at hn
      exact hmem n hn
    · rcases hrest : m.stack with _ | ⟨a, rest⟩
      · have hnil : shapes m = [] := by rw [shapes, hrest]; rfl
        rw [hshapes, hnil] at hcaller
        cases hcaller
      · have hne : shapes m ≠ [] := by simp [shapes, hrest]
        rw [hshapes, dropLast_cons_of_ne_nil hne] at hcaller
        rcases mem_cons.mp hcaller with heq | hcaller
        · obtain rfl := Sum.inr.inj heq
          rcases hcalls with hnone | ⟨hev, hsome⟩
          · simp [hnone]
          · have hzero := hdepth hev (by simp [hrest])
            simpa [hsome] using hzero
        · exact h.inner caller' hcaller
  | returns n t t' caller rest hstack hstack' hbottom hchain =>
    have hshapes : shapes m = .inl n :: .inr caller :: rest.map shape := by
      rw [shapes, hstack]
      rfl
    have hshapes' : shapes m' = .inr caller :: rest.map shape := by rw [shapes, hstack']; rfl
    refine ⟨hkept, fun n' hn => ?_, fun n' hn => ?_, fun caller' hcaller => ?_⟩
    · refine (h.numbered n' ?_).trans_le hnext
      rw [hshapes]
      exact mem_cons_of_mem _ (hshapes' ▸ hn)
    · refine h.buried n' ?_
      rw [hshapes] at *
      exact mem_cons_of_mem _ (by simpa [hshapes'] using hn)
    · refine h.inner caller' ?_
      rw [hshapes, dropLast_cons_of_ne_nil (cons_ne_nil _ _)]
      exact mem_cons_of_mem _ (hshapes' ▸ hcaller)

theorem control_eq_other_iff : u.control = .other ↔
    ∀ n, (shapes u.nre).head? = some (.inl n) → u.kinds n = .other := by
  rw [control, shapes]
  rcases u.nre.stack with _ | ⟨_ | n, rest⟩
  · simp
  · simp [shape]
  · simp [shape]

theorem clearing_of_control (hpc : u.pc = .idle) (hcontrol : u.control = .other) :
    u.clearing = false := by
  rw [clearing, hpc, hcontrol]
  rfl

theorem toRun_idle (hpc : u.pc = .idle) : u.toRun = left u.nre.stack u.nre.ctx.pCallbacks := by
  rw [toRun, hpc]

theorem left_of_toRun (h : u.toRun ≠ []) : left u.nre.stack u.nre.ctx.pCallbacks ≠ [] := by
  rw [toRun] at h
  split at h
  · rcases hchain : u.nre.ctx.pCallbacks with _ | ⟨n, chain⟩
    · rw [hchain] at h
      exact h
    · rw [hchain] at h
      exact left_append [n] h
  · exact h

theorem evaluating_stack (h : u.evaluating) : u.nre.stack ≠ [] := by
  intro hnil
  rw [evaluating, hnil] at h
  cases h

theorem left_code (heffect : Nre.CodeEffect m i m') (hne : m.stack ≠ [])
    (hleft : left m.stack m.ctx.pCallbacks ≠ []) :
    left m'.stack m'.ctx.pCallbacks ≠ [] ∧ isEvaluation m'.stack = isEvaluation m.stack := by
  cases heffect with
  | pushes events pushed hstack hchain =>
    rw [hstack, hchain, left_note, isEvaluation_note]
    exact ⟨left_append pushed hleft, rfl⟩
  | calls t caller hstack hchain hcalls =>
    rw [hstack, left_inner t caller hne, hchain, isEvaluation_cons _ hne]
    exact ⟨hleft, rfl⟩
  | returns n t t' caller rest hstack hstack' hbottom hchain =>
    rw [hstack, left_callback] at hleft
    rw [hstack, hstack', hchain, left_congr caller rest _ hbottom,
      isEvaluation_cons _ (cons_ne_nil _ _)]
    exact ⟨hleft, isEvaluation_congr _ _ _ _⟩

theorem control_code (heffect : Nre.CodeEffect m i m')
    (hcontrol : ∀ n, (shapes m).head? = some (.inl n) → kinds n = .other) :
    ∀ n, (shapes m').head? = some (.inl n) → kinds n = .other := by
  intro n hn
  cases heffect with
  | pushes events pushed hstack hchain =>
    rw [shapes, hstack, map_shape_note] at hn
    exact hcontrol n hn
  | calls t caller hstack hchain hcalls =>
    rw [shapes, hstack] at hn
    cases hn
  | returns n' t t' caller rest hstack hstack' hbottom hchain =>
    rw [shapes, hstack'] at hn
    cases hn

theorem Inv.code (h : Inv u) (hmove : u.code i = some u')
    (hdepth : i.evaluates → u.nre.stack ≠ [] → u.nre.ctx.place.nEvalDepth ≠ 0) : Inv u' := by
  rw [Unwind.code] at hmove
  split_ifs at hmove with hguard
  obtain ⟨hpc, hcode, hcontrol⟩ := hguard
  obtain ⟨nre, hnre, rfl⟩ := Option.map_eq_some_iff.mp hmove
  have hcontrol' := control_eq_other_iff.mp hcontrol
  have heffect := (Nre.codeMove_effect hnre).1
  refine ⟨h.placed.code hcode hnre hcontrol' hdepth, fun hreq => ?_, h.stopped, h.failed⟩
  have hpending := h.pending hreq
  obtain ⟨hleft, hevaluation⟩ := left_code heffect (evaluating_stack hpending.evaluating)
    (left_of_toRun hpending.toRun)
  refine ⟨hpending.canceled, hpending.unwind, ?_, ?_, ?_⟩
  · exact clearing_of_control hpc (control_eq_other_iff.mpr (control_code heffect hcontrol'))
  · have htoRun := toRun_idle (u := { u with nre := nre }) hpc
    rw [htoRun]
    exact hleft
  · exact hevaluation.trans hpending.evaluating

theorem Placed.addCallback (h : Placed m kinds) (hcode : m.inCode) (kind : Kind)
    (hasMemory : Bool) :
    Placed (m.addCallback hasMemory)
      (if hasMemory then Function.update kinds m.nextCallback kind else kinds) := by
  have hkept := h.kept.addCallback hcode hasMemory
  rcases hasMemory with _ | _
  · exact h
  · have hshapes : shapes (m.addCallback true) = shapes m := by
      rw [shapes, Nre.addCallback, if_pos rfl, map_shape_note, shapes]
    have hupdate (n : ℕ) (hn : .inl n ∈ shapes m) :
        Function.update kinds m.nextCallback kind n = kinds n :=
      Function.update_of_ne (h.numbered n hn).ne _ _
    refine ⟨hkept, fun n hn => ?_, fun n hn => ?_, fun caller hcaller => ?_⟩
    · exact (h.numbered n (hshapes ▸ hn)).trans (Nat.lt_succ_self _)
    · rw [hshapes] at hn
      rw [if_pos rfl, hupdate n (mem_of_mem_tail hn)]
      exact h.buried n hn
    · exact h.inner caller (hshapes ▸ hcaller)

theorem Inv.push (h : Inv u) {kind : Kind} {hasMemory : Bool}
    (hmove : u.push kind hasMemory = some u') : Inv u' := by
  rw [Unwind.push.eq_def] at hmove
  split_ifs at hmove with hguard
  obtain ⟨hpc, hcode, hcontrol⟩ := hguard
  have hu' : u' = u.addCallback kind hasMemory := by
    split at hmove
    · cases hmove
    · exact (Option.some.inj hmove).symm
  subst hu'
  have hplaced := h.placed.addCallback hcode kind hasMemory
  refine ⟨hplaced, fun hreq => ?_, h.stopped, h.failed⟩
  have hpending := h.pending hreq
  have heffect := (Nre.codeMove_effect (m := u.nre) (i := .addCallback hasMemory) rfl).1
  obtain ⟨hleft, hevaluation⟩ := left_code heffect (evaluating_stack hpending.evaluating)
    (left_of_toRun hpending.toRun)
  refine ⟨hpending.canceled, hpending.unwind, ?_, ?_, ?_⟩
  · refine clearing_of_control hpc (control_eq_other_iff.mpr fun n hn => ?_)
    have hshapes : shapes (u.nre.addCallback hasMemory) = shapes u.nre := by
      rw [shapes, Nre.addCallback]
      split_ifs
      · exact map_shape_note _ _
      · rfl
    have hn' : (shapes u.nre).head? = some (.inl n) := hshapes ▸ hn
    have hlt := h.placed.numbered n (mem_of_mem_head? hn')
    have hkind := control_eq_other_iff.mp hcontrol n hn'
    rw [Unwind.addCallback]
    dsimp only
    split_ifs
    · rw [Function.update_of_ne hlt.ne]
      exact hkind
    · exact hkind
  · have hpc' : (u.addCallback kind hasMemory).pc = .idle := hpc
    rw [toRun_idle hpc']
    exact hleft
  · exact hevaluation.trans hpending.evaluating

end Unwind

end Th8
