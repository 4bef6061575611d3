import Th8.Deletion.Machine

/-!
# The moves keep the invariant

One lemma for each move of the code in control and for each loop that proceeds.
-/

namespace Th8

open Support List Nat
open Activity (dyingNs isDrain walked)
open Function (update update_of_ne update_self)

namespace Deferral

variable {s s' : Deferral} {wc : List CmdId} {wn : List NsId}

theorem mem_dying_of_freeing {x : NsId} (h : x ∈ s.freeing) :
    x ∈ s.stack.flatMap dyingNs ++ [globalNs] := by
  by_cases hx : x = globalNs
  · simp [hx]
  · obtain ⟨a, ha, hax⟩ := mem_filterMap.mp h
    refine mem_append_left _ (mem_flatMap.mpr ⟨a, ha, ?_⟩)
    cases a <;> simp_all [dyingNs, Activity.freeing]

theorem freeing_of_walked {stack : List Activity} {x : NsId}
    (h : x ∈ stack.filterMap walked) : x ∈ stack.filterMap Activity.freeing := by
  obtain ⟨a, ha, hax⟩ := mem_filterMap.mp h
  refine mem_filterMap.mpr ⟨a, ha, ?_⟩
  cases a <;> simp_all [walked, Activity.freeing]

structure SameRecords (s s' : Deferral) : Prop where
  namespaces : s'.namespaces = s.namespaces
  nextNs : s'.nextNs = s.nextNs
  paCmd : s'.paCmd = s.paCmd
  allocated : s'.allocated = s.allocated
  nextCmd : s'.nextCmd = s.nextCmd
  pendingCmd : s'.pendingCmd = s.pendingCmd
  pendingNs : s'.pendingNs = s.pendingNs
  queuedCmd : s'.history.queuedCmd = s.history.queuedCmd
  queuedNs : s'.history.queuedNs = s.history.queuedNs
  destroyedCmd : s'.history.destroyedCmd = s.history.destroyedCmd
  destroyedNs : s'.history.destroyedNs = s.history.destroyedNs

structure SameHoldings (stack stack' : List Activity) : Prop where
  todoCmd : stack'.flatMap Activity.todoCmd = stack.flatMap Activity.todoCmd
  dyingCmd : stack'.flatMap Activity.dyingCmd = stack.flatMap Activity.dyingCmd
  todoNs : stack'.flatMap Activity.todoNs = stack.flatMap Activity.todoNs
  dyingNs : stack'.flatMap dyingNs = stack.flatMap dyingNs
  freeing : stack'.filterMap Activity.freeing = stack.filterMap Activity.freeing
  walked : stack'.filterMap walked = stack.filterMap walked

theorem Inv.restack (h : s.Inv wc wn) (hr : SameRecords s s') (hs : SameHoldings s.stack s'.stack)
    (hbalanced : Balanced s'.base s'.stack s'.nEvalDepth)
    (hdrained : ∀ e ∈ s'.history.drained, e = (0, true))
    (hsettled : s'.deleted → s'.draining = false → s'.nEvalDepth = 0 → wc = [] ∧ wn = []) :
    s'.Inv wc wn := by
  have hcmd : s'.OpenCmd = s.OpenCmd := by
    funext a c
    simp only [OpenCmd, hs.walked, hr.namespaces, hr.paCmd]
  have hns : s'.OpenNs = s.OpenNs := by
    funext a c
    simp only [OpenNs, freeing, hs.freeing, hr.namespaces]
  refine ⟨?_, ?_, ?_, ?_, ?_, ?_, hbalanced, hdrained, hsettled, ?_⟩
  · rw [hr.pendingCmd]
    exact h.queueCmd
  · rw [hr.pendingNs]
    exact h.queueNs
  · rw [CmdCustody, hcmd, hr.allocated, hr.queuedCmd, hr.destroyedCmd, hs.todoCmd, hs.dyingCmd]
    exact h.cmds
  · rw [NsCustody, hns, hr.namespaces, hr.queuedNs, hr.destroyedNs, hs.todoNs, hs.dyingNs]
    exact h.nss
  · rw [hr.allocated, hr.queuedCmd, hr.destroyedCmd, hr.nextCmd]
    exact h.freshCmd
  · rw [hr.namespaces, hr.queuedNs, hr.destroyedNs, hr.nextNs]
    exact h.freshNs
  · rw [freeing, hs.freeing]
    exact h.frames

/-! ## Evaluations and drains -/

theorem enterEval_inv (h : s.Inv wc wn) :
    Inv { s with nEvalDepth := s.nEvalDepth + 1, stack := .eval :: s.stack } wc wn :=
  h.restack ⟨rfl, rfl, rfl, rfl, rfl, rfl, rfl, rfl, rfl, rfl, rfl⟩
    ⟨rfl, rfl, rfl, rfl, rfl, rfl⟩ ⟨s.nEvalDepth, rfl, h.balanced⟩ h.drained
    fun _ _ hdepth => by simp at hdepth

theorem popEval_cases {s₁ : Deferral} (hrun : s.popEval = some s₁) :
    ∃ rest, s.stack = .eval :: rest ∧ s₁ = { s with stack := rest } := by
  unfold popEval at hrun
  split at hrun
  · exact ⟨_, ‹_›, (Option.some.inj hrun).symm⟩
  · simp at hrun

theorem Inv.balanced_pop (h : s.Inv wc wn) {rest : List Activity}
    (hstack : s.stack = .eval :: rest) :
    Balanced s.base rest (s.nEvalDepth - 1) := by
  have hbalanced := h.balanced
  rw [hstack] at hbalanced
  obtain ⟨d, hd, hrest⟩ := hbalanced
  rw [hd]
  exact hrest

theorem sameHoldings_eval {rest : List Activity} (hstack : s.stack = .eval :: rest) :
    SameHoldings s.stack rest := by
  rw [hstack]
  exact ⟨rfl, rfl, rfl, rfl, rfl, rfl⟩

section

variable (h : s.Inv wc wn)

include h

theorem leaveEval_inv (hrun : s.leaveEval = some s') : s'.Inv wc wn := by
  obtain ⟨s₁, hpop, rfl⟩ := Option.map_eq_some_iff.mp hrun
  obtain ⟨rest, hstack, rfl⟩ := popEval_cases hpop
  have hbalanced := h.balanced_pop hstack
  have hsame := sameHoldings_eval hstack
  unfold drainAtZero
  split_ifs with hdrain
  · refine h.restack ⟨rfl, rfl, rfl, rfl, rfl, rfl, rfl, rfl, rfl, rfl, rfl⟩
      ⟨hsame.todoCmd, hsame.dyingCmd, hsame.todoNs, hsame.dyingNs, hsame.freeing,
        hsame.walked⟩ ⟨hdrain.1, hbalanced⟩ h.drained fun _ hnot => ?_
    simp [draining, isDrain] at hnot
  · refine h.restack ⟨rfl, rfl, rfl, rfl, rfl, rfl, rfl, rfl, rfl, rfl, rfl⟩ hsame hbalanced
      h.drained fun _ _ hdepth => ?_
    have hheads : ¬(s.pendingCmd.head.isSome ∨ s.pendingNs.head.isSome) :=
      fun hheads => hdrain ⟨hdepth, hheads⟩
    rw [not_or, Option.not_isSome_iff_eq_none, Option.not_isSome_iff_eq_none] at hheads
    exact ⟨h.queueCmd.head_eq_none.mp hheads.1, h.queueNs.head_eq_none.mp hheads.2⟩

theorem cancelEval_inv (hallowed : s.deleted → s.draining)
    {s₁ : Deferral} (hpop : s.popEval = some s₁) :
    Inv { s₁ with nEvalDepth := s.nEvalDepth - 1 } wc wn := by
  obtain ⟨rest, hstack, rfl⟩ := popEval_cases hpop
  refine h.restack ⟨rfl, rfl, rfl, rfl, rfl, rfl, rfl, rfl, rfl, rfl, rfl⟩
    (sameHoldings_eval hstack) (h.balanced_pop hstack) h.drained fun hdel hnot => ?_
  have hdrain := hallowed hdel
  simp only [draining, hstack, any_cons, isDrain, Bool.false_or] at hdrain hnot
  rw [hdrain] at hnot
  simp at hnot

theorem failEval_inv (hdrain : s.draining = false)
    (hdeleted : s.deleted = false) : Inv { s with nEvalDepth := s.nEvalDepth + 1 } wc wn := by
  refine h.restack ⟨rfl, rfl, rfl, rfl, rfl, rfl, rfl, rfl, rfl, rfl, rfl⟩
    ⟨rfl, rfl, rfl, rfl, rfl, rfl⟩ (h.balanced.raise hdrain fun d hd => ?_) h.drained
    fun _ _ hdepth => by simp at hdepth
  exact ⟨le_succ_of_le hd.1, fun hdel => absurd hdel (by simp [hdeleted])⟩

theorem suspendEval_inv (hdrain : s.draining = false)
    (hdeleted : s.deleted = false) {s₁ : Deferral} (hpop : s.popEval = some s₁) :
    Inv { s₁ with nSuspended := s.nSuspended + 1 } wc wn := by
  obtain ⟨rest, hstack, rfl⟩ := popEval_cases hpop
  have hbalanced := h.balanced
  rw [hstack] at hbalanced
  obtain ⟨d, hd, hrest⟩ := hbalanced
  have hnone : rest.any isDrain = false := by
    rw [draining, hstack, any_cons, Bool.or_eq_false_iff] at hdrain
    exact hdrain.2
  refine h.restack ⟨rfl, rfl, rfl, rfl, rfl, rfl, rfl, rfl, rfl, rfl, rfl⟩
    (sameHoldings_eval hstack) ?_ h.drained fun hdel => ?_
  · simp only [hd]
    refine hrest.raise hnone fun d hd => ⟨succ_le_succ hd.1, fun hdel => ?_⟩
    exact absurd hdel (by simp [hdeleted])
  · exact absurd hdel (by simp [hdeleted])

theorem resumeEval_inv (hsuspended : 0 < s.nSuspended) :
    Inv { s with nSuspended := s.nSuspended - 1, stack := .eval :: s.stack } wc wn := by
  have hresume : ∀ d, s.base d → ∃ d', d = d' + 1 ∧
      base { s with nSuspended := s.nSuspended - 1 } d' := by
    rintro d ⟨hle, hdel⟩
    refine ⟨d - 1, by omega, ?_, fun hdeleted => ?_⟩
    · show s.nSuspended - 1 ≤ d - 1
      omega
    · have := hdel hdeleted
      omega
  obtain ⟨d, hd, hrest⟩ := h.balanced.resume hresume
  refine h.restack ⟨rfl, rfl, rfl, rfl, rfl, rfl, rfl, rfl, rfl, rfl, rfl⟩
    ⟨rfl, rfl, rfl, rfl, rfl, rfl⟩ ⟨d, hd, hrest⟩ h.drained fun _ _ hdepth => ?_
  simp only [hd] at hdepth
  simp at hdepth

theorem setCurrent_inv (pNs : NsId) : Inv { s with pCurrentNs := pNs } wc wn :=
  h.restack ⟨rfl, rfl, rfl, rfl, rfl, rfl, rfl, rfl, rfl, rfl, rfl⟩
    ⟨rfl, rfl, rfl, rfl, rfl, rfl⟩ h.balanced h.drained h.settled

theorem deleteInterp_inv (hstack : s.stack = []) (hdepth : s.nEvalDepth = 0) :
    Inv { s with stack := [.drainCommands, .freeGlobal], deleted := true } wc wn := by
  have hbalanced := h.balanced
  rw [hstack, hdepth] at hbalanced
  refine h.restack ⟨rfl, rfl, rfl, rfl, rfl, rfl, rfl, rfl, rfl, rfl, rfl⟩
    (by rw [hstack]; exact ⟨rfl, rfl, rfl, rfl, rfl, rfl⟩) ⟨hdepth, ?_⟩ h.drained fun _ hnot => ?_
  · exact ⟨rfl, hdepth ▸ hbalanced.1, fun _ => hdepth⟩
  · simp [draining, isDrain] at hnot

/-! ## Commands -/

theorem OpenCmd.lt_nextCmd {a : NsId × Bytes} {c : CmdId} (ha : s.OpenCmd a c) : c < s.nextCmd :=
  h.freshCmd.live c (h.cmds.ofEntry a c ha).1

end

theorem openCmd_erase {pNs : NsId} {zTail : Bytes} {b : NsId × Bytes} {c : CmdId}
    (hb : s'.OpenCmd b c) (hstack : s'.stack.filterMap walked = s.stack.filterMap walked)
    (hns : s'.namespaces = s.namespaces)
    (hpaCmd : s'.paCmd = update s.paCmd pNs ((s.paCmd pNs).erase zTail)) :
    s.OpenCmd b c ∧ b ≠ (pNs, zTail) := by
  obtain ⟨hwalked, hsome, hl⟩ := hb
  rw [hstack] at hwalked
  rw [hns] at hsome
  rw [hpaCmd] at hl
  obtain ⟨p, k⟩ := b
  by_cases hp : p = pNs
  · subst hp
    simp only [update_self] at hl
    refine ⟨⟨hwalked, hsome, lookup_of_erase hl⟩, ?_⟩
    rintro heq
    obtain rfl : k = zTail := congrArg Prod.snd heq
    simp [AList.lookup_erase] at hl
  · simp only [update_of_ne hp] at hl
    exact ⟨⟨hwalked, hsome, hl⟩, fun heq => hp (congrArg Prod.fst heq)⟩

theorem Fresh.queue {ι : Type} {live below : ι → Prop} {queued : List ι}
    {destroyed : List (ι × ℕ)} (h : Fresh live queued destroyed below) {x : ι}
    (hx : below x) : Fresh live (queued ++ [x]) destroyed below := by
  refine ⟨h.live, fun y hy => ?_, h.destroyed⟩
  rcases mem_append.mp hy with hy | hy
  · exact h.queued y hy
  · exact mem_singleton.mp hy ▸ hx

theorem Fresh.destroy {ι : Type} {live below : ι → Prop} {queued : List ι}
    {destroyed : List (ι × ℕ)} (h : Fresh live queued destroyed below) {x : ι}
    (hx : below x) (level : ℕ) : Fresh live queued (destroyed ++ [(x, level)]) below := by
  refine ⟨h.live, h.queued, fun y hy => ?_⟩
  rw [map_append, mem_append] at hy
  rcases hy with hy | hy
  · exact h.destroyed y hy
  · obtain rfl : y = x := by simpa using hy
    exact hx

theorem destroyCmd_cases {pCmd : CmdId} (hrun : s.destroyCmd pCmd = some s') :
    s.allocated pCmd = true ∧ s' = { s with
      stack := .destructor pCmd :: s.stack
      history := { s.history with
        destroyedCmd := s.history.destroyedCmd ++ [(pCmd, s.nEvalDepth)] } } := by
  unfold destroyCmd at hrun
  split_ifs at hrun with halloc
  exact ⟨halloc, (Option.some.inj hrun).symm⟩

section

variable (h : s.Inv wc wn)

include h

theorem deleteEntry_inv {pNs : NsId} {zTail : Bytes} {pCmd : CmdId}
    (hopen : s.OpenCmd (pNs, zTail) pCmd) (hrun : s.deleteEntry pNs zTail pCmd = some s') :
    ∃ wc', s'.Inv wc' wn := by
  have hlt := hopen.lt_nextCmd h
  unfold deleteEntry at hrun
  split_ifs at hrun with hdepth
  · cases hrun
    have hnot : pCmd ∉ wc := fun hmem =>
      (h.cmds.ofEntry _ _ hopen).2.1 (h.cmds.once.mem_of_waiting hmem)
    exact ⟨wc ++ [pCmd], h.queueCmd.push hnot, h.queueNs,
      h.cmds.queueEntry hopen fun b c hb => openCmd_erase hb rfl rfl rfl, h.nss,
      h.freshCmd.queue hlt, h.freshNs, h.balanced, h.drained,
      fun _ _ hzero => absurd hzero (ne_of_gt hdepth), h.frames⟩
  · obtain ⟨-, rfl⟩ := destroyCmd_cases hrun
    refine ⟨wc, h.queueCmd, h.queueNs, ?_, h.nss, h.freshCmd.destroy hlt _, h.freshNs,
      h.balanced, h.drained, h.settled, h.frames⟩
    refine h.cmds.destroyEntry hopen ?_ s.nEvalDepth
    intro b c hb
    exact openCmd_erase hb rfl rfl rfl

theorem deleteCommand_inv {zName : Bytes}
    (hallowed : ∀ pNs zTail, s.resolve zName = some (some (pNs, zTail)) → pNs ∉ s.freeing)
    (hrun : s.deleteCommand zName = some s') : ∃ wc', s'.Inv wc' wn := by
  unfold deleteCommand at hrun
  rcases hresolve : s.resolve zName with _ | _ | ⟨pNs, zTail⟩
  · simp [hresolve] at hrun
  · obtain rfl : s = s' := by simpa [hresolve] using hrun
    exact ⟨wc, h⟩
  · rcases hns : s.namespaces pNs with _ | ns
    · simp [hresolve, hns] at hrun
    · rcases hl : (s.paCmd pNs).lookup zTail with _ | pCmd
      · obtain rfl : s = s' := by simpa [hresolve, hns, hl] using hrun
        exact ⟨wc, h⟩
      · simp only [hresolve, hns, hl] at hrun
        have hwalked := fun hmem => hallowed pNs zTail hresolve (freeing_of_walked hmem)
        exact deleteEntry_inv h ⟨hwalked, by simp [hns], hl⟩ hrun

theorem createCommand_inv {zName : Bytes}
    (hrun : s.createCommand zName = some s') : s'.Inv wc wn := by
  unfold createCommand at hrun
  rcases hresolve : s.resolve zName with _ | _ | ⟨pNs, zTail⟩
  · simp [hresolve] at hrun
  · obtain rfl : s = s' := by simpa [hresolve] using hrun
    exact h
  · rcases hns : s.namespaces pNs with _ | ns
    · simp [hresolve, hns] at hrun
    · rcases hl : (s.paCmd pNs).lookup zTail with _ | pCmd
      · simp only [hresolve, hns, hl, Option.some.injEq] at hrun
        subst hrun
        have hnew : s.allocated s.nextCmd ≠ true := fun halloc =>
          lt_irrefl _ (h.freshCmd.live _ halloc)
        refine ⟨h.queueCmd, h.queueNs, ?_, h.nss, ?_, h.freshNs, h.balanced, h.drained,
          h.settled, h.frames⟩
        · refine h.cmds.link (pNs, zTail) s.nextCmd hnew
            (fun hmem => lt_irrefl _ (h.freshCmd.queued _ hmem))
            (fun hmem => lt_irrefl _ (h.freshCmd.destroyed _ hmem)) ?_ ?_
          · rintro c (hc | rfl)
            · by_cases hcn : c = s.nextCmd
              · exact absurd (hcn ▸ hc) hnew
              · simpa [update_of_ne hcn] using hc
            · simp
          · rintro ⟨p, k⟩ c ⟨hwalked, hsome, hk⟩
            by_cases hp : p = pNs
            · subst hp
              simp only [update_self] at hk
              by_cases hkt : k = zTail
              · subst hkt
                rw [AList.lookup_insert, Option.some.injEq] at hk
                exact .inr ⟨rfl, hk.symm⟩
              · rw [AList.lookup_insert_ne hkt] at hk
                exact .inl ⟨hwalked, hsome, hk⟩
            · simp only [update_of_ne hp] at hk
              exact .inl ⟨hwalked, hsome, hk⟩
        · refine ⟨fun c hc => ?_, fun c hc => lt_succ_of_lt (h.freshCmd.queued c hc),
            fun c hc => lt_succ_of_lt (h.freshCmd.destroyed c hc)⟩
          by_cases hcn : c = s.nextCmd
          · rw [hcn]
            exact lt_succ_self _
          · have hc' : s.allocated c = true := by
              simpa only [update_of_ne hcn] using hc
            exact lt_succ_of_lt (h.freshCmd.live c hc')
      · obtain rfl : s = s' := by simpa [hresolve, hns, hl] using hrun
        exact h

theorem returnFromDestructor_inv {pCmd : CmdId} {rest : List Activity}
    (hstack : s.stack = .destructor pCmd :: rest) :
    Inv { s with stack := rest, allocated := update s.allocated pCmd false } wc wn := by
  have hbalanced := h.balanced
  have hcmds := h.cmds
  have hnss := h.nss
  rw [hstack] at hbalanced
  rw [CmdCustody, hstack] at hcmds
  rw [NsCustody, hstack] at hnss
  refine ⟨h.queueCmd, h.queueNs, ?_, ?_, ⟨?_, h.freshCmd.queued, h.freshCmd.destroyed⟩,
    h.freshNs, hbalanced, h.drained, ?_, ?_⟩
  · refine (hcmds.shrink ?_).release fun c hc hne => ?_
    · rintro b c ⟨hwalked, hentry⟩
      rw [← filterMap_cons_none (f := walked) (a := .destructor pCmd) rfl, ← hstack] at hwalked
      exact ⟨hwalked, hentry⟩
    · simpa [update_of_ne hne] using hc
  · refine hnss.shrink ?_
    rintro b c ⟨hfreeing, hentry⟩
    refine ⟨?_, hentry⟩
    rw [freeing, hstack]
    exact hfreeing
  · intro c hc
    by_cases hcp : c = pCmd
    · simp [hcp] at hc
    · have hc' : s.allocated c = true := by simpa only [update_of_ne hcp] using hc
      exact h.freshCmd.live c hc'
  · intro hdel hnot hdepth
    refine h.settled hdel ?_ hdepth
    rw [draining, hstack]
    exact hnot
  · have hframes := h.frames
    rw [freeing, hstack] at hframes
    exact hframes

theorem drainCommandsStep_inv {rest : List Activity} (hstack : s.stack = .drainCommands :: rest) :
    ∃ s' wc', s.drainCommandsStep rest = some s' ∧ s'.Inv wc' wn := by
  have hbalanced := h.balanced
  rw [hstack] at hbalanced
  cases wc with
  | nil =>
    have hstep : s.drainCommandsStep rest = some { s with stack := .drainNamespaces :: rest } := by
      simp only [drainCommandsStep, h.queueCmd.pop_nil]
    refine ⟨_, [], hstep, ?_⟩
    refine h.restack ⟨rfl, rfl, rfl, rfl, rfl, rfl, rfl, rfl, rfl, rfl, rfl⟩
      (by rw [hstack]; exact ⟨rfl, rfl, rfl, rfl, rfl, rfl⟩) hbalanced h.drained fun _ hnot => ?_
    simp [draining, isDrain] at hnot
  | cons pCmd wc =>
    obtain ⟨q, hpop, hq⟩ := h.queueCmd.pop_cons
    obtain ⟨halloc, -⟩ := h.cmds.ofWaiting pCmd mem_cons_self
    have hlt := h.freshCmd.live pCmd halloc
    have hstep : s.drainCommandsStep rest = some { s with
        pendingCmd := q
        stack := .destructor pCmd :: s.stack
        history := { s.history with
          destroyedCmd := s.history.destroyedCmd ++ [(pCmd, s.nEvalDepth)] } } := by
      simp only [drainCommandsStep, hpop, destroyCmd, halloc, if_true]
    refine ⟨_, wc, hstep, hq, h.queueNs, ?_, h.nss, h.freshCmd.destroy hlt _, h.freshNs,
      h.balanced, h.drained, fun _ hnot => ?_, h.frames⟩
    · have hcmds := h.cmds.destroyFirst
      rw [← hbalanced.1] at hcmds
      exact hcmds
    · simp [draining, hstack, isDrain] at hnot

theorem freeCommandsStep_inv {pEntry : Option (NsId × Bytes)}
    {pNs : NsId} {pCmd : CmdId} {more : List CmdId} {rest : List Activity}
    (hstack : s.stack = .freeCommands pEntry pNs (pCmd :: more) :: rest) :
    ∃ s', s.freeCommandsStep pEntry pNs rest (pCmd :: more) = some s' ∧ s'.Inv wc wn := by
  have hbalanced := h.balanced
  have hcmds := h.cmds
  have hnss := h.nss
  rw [hstack] at hbalanced
  rw [CmdCustody, hstack] at hcmds
  rw [NsCustody, hstack] at hnss
  obtain ⟨halloc, -⟩ := hcmds.ofTodo pCmd (by simp [Activity.todoCmd])
  have hlt := h.freshCmd.live pCmd halloc
  have hstep : s.freeCommandsStep pEntry pNs rest (pCmd :: more) = some { s with
      stack := .destructor pCmd :: .freeCommands pEntry pNs more :: rest
      history := { s.history with
        destroyedCmd := s.history.destroyedCmd ++ [(pCmd, s.nEvalDepth)] } } := by
    simp only [freeCommandsStep, destroyCmd, halloc, if_true]
  refine ⟨_, hstep, h.queueCmd, h.queueNs, ?_, ?_, h.freshCmd.destroy hlt _, h.freshNs,
    hbalanced, h.drained, ?_, ?_⟩
  · refine (hcmds.destroyNext s.nEvalDepth).shrink ?_
    rintro b c ⟨hwalked, hentry⟩
    refine ⟨?_, hentry⟩
    rw [hstack]
    exact hwalked
  · refine hnss.shrink ?_
    rintro b c ⟨hfreeing, hentry⟩
    refine ⟨?_, hentry⟩
    rw [freeing, hstack]
    exact hfreeing
  · intro hdel hnot hdepth
    refine h.settled hdel ?_ hdepth
    rw [draining, hstack]
    exact hnot
  · have hframes := h.frames
    rw [freeing, hstack] at hframes
    exact hframes

/-! ## Namespaces -/

theorem OpenNs.lt_nextNs {a : NsId × Bytes} {c : NsId} (ha : s.OpenNs a c) : c < s.nextNs :=
  h.freshNs.live c (h.nss.ofEntry a c ha).1

end

theorem cmdCustody_congr (t : Deferral) (h : s.CmdCustody wc)
    (hstack : t.stack.filterMap walked = s.stack.filterMap walked)
    (hns : ∀ x, (t.namespaces x).isSome → (s.namespaces x).isSome)
    (hpaCmd : t.paCmd = s.paCmd) : Custody t.OpenCmd (fun c => s.allocated c = true)
      s.history.queuedCmd s.history.destroyedCmd wc (s.stack.flatMap Activity.todoCmd)
      (s.stack.flatMap Activity.dyingCmd) := by
  refine h.shrink ?_
  rintro b c ⟨hwalked, hsome, hl⟩
  rw [hstack] at hwalked
  rw [hpaCmd] at hl
  exact ⟨hwalked, hns _ hsome, hl⟩

theorem custody_startFree (t : Deferral) {queued : List NsId} {destroyed : List (NsId × ℕ)}
    {waiting todo dying : List NsId} {live : NsId → Prop}
    (h : Custody s.OpenNs live queued destroyed waiting todo dying) {pNs : NsId}
    {ns : Namespace} (hns : s.namespaces pNs = some ns) (hnot : pNs ∉ s.freeing)
    (hsame : t.namespaces = s.namespaces)
    (hfreeing : ∀ x, x ∉ t.freeing → x ≠ pNs ∧ x ∉ s.freeing) :
    Custody t.OpenNs live queued destroyed waiting
      ((childrenOf ns).map Prod.snd ++ todo) dying := by
  have hvalues : (childrenOf ns).map Prod.snd = ns.paChild.entries.map Sigma.snd := by
    rw [childrenOf, map_map]
    rfl
  have hopen : ∀ {k c}, ns.paChild.lookup k = some c → s.OpenNs (pNs, k) c :=
    fun hk => ⟨hnot, ns, hns, hk⟩
  rw [hvalues]
  refine h.take _ ?_ ?_ ?_
  · intro c hc
    obtain ⟨k, hk⟩ := mem_values_iff.mp hc
    exact ⟨(pNs, k), hopen hk⟩
  · exact nodup_values fun k k' c hk hk' =>
      congrArg Prod.snd (h.unique _ _ c (hopen hk) (hopen hk'))
  · rintro b c ⟨hb, r, hr, hl⟩
    obtain ⟨hne, hb⟩ := hfreeing _ hb
    rw [hsame] at hr
    refine ⟨⟨hb, r, hr, hl⟩, fun hc => ?_⟩
    obtain ⟨k, hk⟩ := mem_values_iff.mp hc
    exact hne (congrArg Prod.fst (h.unique b (pNs, k) c ⟨hb, r, hr, hl⟩ (hopen hk)))

section

variable (h : s.Inv wc wn)

include h

/-- The drain goes on with the namespaces, or it returns. -/
theorem drainNamespacesStep_inv {rest : List Activity}
    (hstack : s.stack = .drainNamespaces :: rest) :
    ∃ s' wn', s.drainNamespacesStep rest = some s' ∧ s'.Inv wc wn' := by
  have hbalanced := h.balanced
  rw [hstack] at hbalanced
  have hsame : SameHoldings s.stack rest := by
    rw [hstack]
    exact ⟨rfl, rfl, rfl, rfl, rfl, rfl⟩
  cases wn with
  | nil =>
    by_cases hhead : s.pendingCmd.head.isSome
    · have hstep : s.drainNamespacesStep rest =
          some { s with stack := .drainCommands :: rest } := by
        simp only [drainNamespacesStep, h.queueNs.pop_nil, hhead, if_true]
      refine ⟨_, [], hstep, h.restack ⟨rfl, rfl, rfl, rfl, rfl, rfl, rfl, rfl, rfl, rfl, rfl⟩
        ⟨hsame.todoCmd, hsame.dyingCmd, hsame.todoNs, hsame.dyingNs, hsame.freeing,
          hsame.walked⟩ hbalanced h.drained fun _ hnot => ?_⟩
      simp [draining, isDrain] at hnot
    · have hcmd : s.pendingCmd.head = none := by simpa using hhead
      have hns : s.pendingNs.head = none := h.queueNs.head_eq_none.mpr rfl
      have hstep : s.drainNamespacesStep rest = some { s with
          stack := rest
          history := { s.history with
            drained := s.history.drained ++
              [(s.nEvalDepth, s.pendingCmd.head.isNone && s.pendingNs.head.isNone)] } } := by
        simp only [drainNamespacesStep, h.queueNs.pop_nil, hhead]
        rfl
      refine ⟨_, [], hstep, h.restack ⟨rfl, rfl, rfl, rfl, rfl, rfl, rfl, rfl, rfl, rfl, rfl⟩
        hsame hbalanced.2 ?_ fun _ _ _ => ⟨h.queueCmd.head_eq_none.mp hcmd, rfl⟩⟩
      intro e he
      rcases mem_append.mp he with he | he
      · exact h.drained e he
      · rw [mem_singleton.mp he, hcmd, hns, hbalanced.1]
        rfl
  | cons pNs wn =>
    obtain ⟨q, hpop, hq⟩ := h.queueNs.pop_cons
    obtain ⟨hlive, hdying⟩ := h.nss.ofWaiting pNs mem_cons_self
    obtain ⟨ns, hns⟩ := Option.isSome_iff_exists.mp hlive
    have hlt := h.freshNs.live pNs hlive
    have hnotFreeing : pNs ∉ s.freeing := fun hmem => hdying (mem_dying_of_freeing hmem)
    have hne : pNs ≠ globalNs := fun heq => hdying (by simp [heq])
    have hstep : s.drainNamespacesStep rest = some { s with
        pendingNs := q
        stack := .freeChildren none pNs (childrenOf ns) :: s.stack
        history := { s.history with
          destroyedNs := s.history.destroyedNs ++ [(pNs, s.nEvalDepth)] } } := by
      simp only [drainNamespacesStep, hpop, freeNamespace, hns]
    refine ⟨_, wn, hstep, h.queueCmd, hq, ?_, ?_, h.freshCmd, h.freshNs.destroy hlt _,
      h.balanced, h.drained, fun _ hnot => ?_, nodup_cons.mpr ⟨hnotFreeing, h.frames⟩⟩
    · exact cmdCustody_congr _ h.cmds rfl (fun x hx => hx) rfl
    · have hnss := h.nss.destroyFirst
      rw [← hbalanced.1] at hnss
      have hstart := custody_startFree { s with
        stack := .freeChildren none pNs (childrenOf ns) :: s.stack } hnss hns hnotFreeing
        rfl ?_
      · simp only [NsCustody, flatMap_cons, Activity.todoNs, dyingNs, hne, if_false, cons_append]
        exact hstart
      · intro x hx
        simpa [freeing, Activity.freeing] using hx
    · simp [draining, hstack, isDrain] at hnot

/-- The children have been freed, or the next one is. -/
theorem freeChildrenStep_inv {pEntry : Option (NsId × Bytes)}
    {pNs : NsId} {more : List (Bytes × NsId)} {rest : List Activity}
    (hstack : s.stack = .freeChildren pEntry pNs more :: rest) :
    ∃ s', s.freeChildrenStep pEntry pNs rest more = some s' ∧ s'.Inv wc wn := by
  have hbalanced := h.balanced
  have hcmds := h.cmds
  have hnss := h.nss
  rw [hstack] at hbalanced
  rw [CmdCustody, hstack] at hcmds
  rw [NsCustody, hstack] at hnss
  have hfreeing : s.freeing = pNs :: rest.filterMap Activity.freeing := by
    rw [freeing, hstack]
    rfl
  have hframes := h.frames
  rw [hfreeing] at hframes
  have hdraining : s.draining = rest.any isDrain := by
    rw [draining, hstack]
    rfl
  cases more with
  | nil =>
    have hlive : (s.namespaces pNs).isSome := by
      refine hnss.ofDying pNs ?_
      by_cases hne : pNs = globalNs <;> simp [dyingNs, hne]
    obtain ⟨ns, hns⟩ := Option.isSome_iff_exists.mp hlive
    have hwalked : pNs ∉ s.stack.filterMap walked := by
      intro hmem
      rw [hstack, filterMap_cons_none rfl] at hmem
      exact (nodup_cons.mp hframes).1 (freeing_of_walked hmem)
    have hopen : ∀ {k c}, (s.paCmd pNs).lookup k = some c → s.OpenCmd (pNs, k) c :=
      fun hk => ⟨hwalked, hlive, hk⟩
    have hstep : s.freeChildrenStep pEntry pNs rest [] = some { s with
        stack := .freeCommands pEntry pNs ((s.paCmd pNs).entries.map Sigma.snd) :: rest } := by
      simp only [freeChildrenStep, hns]
    refine ⟨_, hstep, h.queueCmd, h.queueNs, ?_, ?_, h.freshCmd, h.freshNs, hbalanced,
      h.drained, fun hdel hnot => h.settled hdel (hdraining ▸ hnot), ?_⟩
    · refine hcmds.take _ ?_ ?_ ?_
      · intro c hc
        obtain ⟨k, hk⟩ := mem_values_iff.mp hc
        exact ⟨(pNs, k), hopen hk⟩
      · exact nodup_values fun k k' c hk hk' =>
          congrArg Prod.snd (h.cmds.unique _ _ c (hopen hk) (hopen hk'))
      · rintro b c ⟨hb, hentry⟩
        have hb' : b.1 ≠ pNs ∧ b.1 ∉ s.stack.filterMap walked := by
          rw [hstack]
          simpa [walked] using hb
        have hopenb : s.OpenCmd b c := ⟨hb'.2, hentry⟩
        refine ⟨hopenb, fun hc => ?_⟩
        obtain ⟨k, hk⟩ := mem_values_iff.mp hc
        exact hb'.1 (congrArg Prod.fst (h.cmds.unique b (pNs, k) c hopenb (hopen hk)))
    · refine hnss.shrink ?_
      rintro b c ⟨hfreeing, hentry⟩
      refine ⟨?_, hentry⟩
      rw [freeing, hstack]
      exact hfreeing
    · exact hframes
  | cons child more =>
    obtain ⟨zKey, pChild⟩ := child
    obtain ⟨hlive, -, -, hdying⟩ := hnss.ofTodo pChild (by simp [Activity.todoNs])
    obtain ⟨ns, hns⟩ := Option.isSome_iff_exists.mp hlive
    have hlt := h.freshNs.live pChild hlive
    have hne : pChild ≠ globalNs := fun heq => hdying (by simp [heq])
    have hnotFreeing : pChild ∉ s.freeing := by
      intro hmem
      have hmem := mem_dying_of_freeing hmem
      rw [hstack] at hmem
      exact hdying hmem
    have hstep : s.freeChildrenStep pEntry pNs rest ((zKey, pChild) :: more) = some { s with
        stack := .freeChildren (some (pNs, zKey)) pChild (childrenOf ns) ::
          .freeChildren pEntry pNs more :: rest
        history := { s.history with
          destroyedNs := s.history.destroyedNs ++ [(pChild, s.nEvalDepth)] } } := by
      simp only [freeChildrenStep, freeNamespace, hns]
    refine ⟨_, hstep, h.queueCmd, h.queueNs, ?_, ?_, h.freshCmd,
      h.freshNs.destroy hlt _, hbalanced, h.drained,
      fun hdel hnot => h.settled hdel (hdraining ▸ hnot), ?_⟩
    · refine hcmds.shrink ?_
      rintro b c ⟨hb, hentry⟩
      refine ⟨?_, hentry⟩
      rw [hstack]
      exact hb
    · have hstart := custody_startFree { s with
        stack := .freeChildren (some (pNs, zKey)) pChild (childrenOf ns) ::
          .freeChildren pEntry pNs more :: rest } (hnss.destroyNext s.nEvalDepth) hns
        hnotFreeing rfl ?_
      · simp only [NsCustody, flatMap_cons, Activity.todoNs, dyingNs, hne,
          if_false, cons_append] at hstart ⊢
        exact hstart
      · intro x hx
        rw [hfreeing]
        simpa [freeing, Activity.freeing] using hx
    · rw [hfreeing] at hnotFreeing
      exact nodup_cons.mpr ⟨hnotFreeing, hframes⟩

theorem clearEntry_inv (pEntry : Option (NsId × Bytes)) : (s.clearEntry pEntry).Inv wc wn := by
  rcases pEntry with _ | ⟨p, k⟩
  · exact h
  · have hback : ∀ {x r}, (s.clearEntry (some (p, k))).namespaces x = some r →
        ∃ r₀, s.namespaces x = some r₀ ∧
          ∀ l c, r.paChild.lookup l = some c → r₀.paChild.lookup l = some c := by
      intro x r hx
      by_cases hxp : x = p
      · subst hxp
        simp only [clearEntry, update_self] at hx
        obtain ⟨r₀, hr₀, rfl⟩ := Option.map_eq_some_iff.mp hx
        exact ⟨r₀, hr₀, fun l c hl => lookup_of_erase hl⟩
      · simp only [clearEntry, update_of_ne hxp] at hx
        exact ⟨r, hx, fun l c hl => hl⟩
    have hsome : ∀ x, ((s.clearEntry (some (p, k))).namespaces x).isSome =
        (s.namespaces x).isSome := by
      intro x
      by_cases hxp : x = p
      · subst hxp
        simp [clearEntry]
      · simp [clearEntry, update_of_ne hxp]
    refine ⟨h.queueCmd, h.queueNs, ?_, ?_, h.freshCmd, ⟨?_, h.freshNs.queued,
      h.freshNs.destroyed⟩, h.balanced, h.drained, h.settled, h.frames⟩
    · have hcmds := cmdCustody_congr (s.clearEntry (some (p, k))) h.cmds rfl
        (fun x hx => hsome x ▸ hx) rfl
      exact hcmds
    · refine (h.nss.shrink ?_).liveMono fun x hx => (hsome x).trans hx
      rintro b c ⟨hfreeing, r, hr, hl⟩
      obtain ⟨r₀, hr₀, hsub⟩ := hback hr
      exact ⟨hfreeing, r₀, hr₀, hsub _ c hl⟩
    · intro x hx
      exact h.freshNs.live x ((hsome x).symm.trans hx)

/-- The release of a namespace ends. -/
theorem releaseNs_inv {pEntry : Option (NsId × Bytes)} {pNs : NsId}
    {rest : List Activity} (hstack : s.stack = .freeCommands pEntry pNs [] :: rest) :
    ({ s with stack := rest }.releaseNs pNs).Inv wc wn := by
  have hbalanced := h.balanced
  have hcmds := h.cmds
  have hnss := h.nss
  rw [hstack] at hbalanced
  rw [CmdCustody, hstack] at hcmds
  rw [NsCustody, hstack] at hnss
  have hfreeing : s.freeing = pNs :: rest.filterMap Activity.freeing := by
    rw [freeing, hstack]
    rfl
  have hwalked : s.stack.filterMap walked = pNs :: rest.filterMap walked := by
    rw [hstack]
    rfl
  have hframes := h.frames
  rw [hfreeing] at hframes
  have hother : ∀ x, x ≠ pNs →
      ({ s with stack := rest }.releaseNs pNs).namespaces x = s.namespaces x :=
    fun x hx => update_of_ne hx ..
  have hself : ∀ r, ({ s with stack := rest }.releaseNs pNs).namespaces pNs = some r →
      r.paChild = ∅ ∧ pNs = globalNs ∧ (s.namespaces pNs).isSome := by
    intro r hr
    simp only [releaseNs, update_self] at hr
    split_ifs at hr with hglobal
    · obtain ⟨r₀, hr₀, rfl⟩ := Option.map_eq_some_iff.mp hr
      exact ⟨rfl, hglobal, by simp [hr₀]⟩
  have hlive : ∀ x, (({ s with stack := rest }.releaseNs pNs).namespaces x).isSome →
      (s.namespaces x).isSome := by
    intro x hx
    by_cases hxp : x = pNs
    · subst hxp
      obtain ⟨r, hr⟩ := Option.isSome_iff_exists.mp hx
      exact (hself r hr).2.2
    · rwa [hother x hxp] at hx
  have hopenNs : ∀ b c, ({ s with stack := rest }.releaseNs pNs).OpenNs b c → s.OpenNs b c := by
    rintro b c ⟨hb, r, hr, hl⟩
    by_cases hbp : b.1 = pNs
    · rw [hbp] at hr
      rw [(hself r hr).1] at hl
      simp at hl
    · rw [hother _ hbp] at hr
      refine ⟨?_, r, hr, hl⟩
      rw [hfreeing, mem_cons, not_or]
      exact ⟨hbp, hb⟩
  refine ⟨h.queueCmd, h.queueNs, ?_, ?_, h.freshCmd, ⟨fun x hx => h.freshNs.live x (hlive x hx),
    h.freshNs.queued, h.freshNs.destroyed⟩, hbalanced, h.drained, ?_, (nodup_cons.mp hframes).2⟩
  · refine hcmds.shrink ?_
    rintro b c ⟨hb, hsome, hl⟩
    by_cases hbp : b.1 = pNs
    · simp [releaseNs, hbp] at hl
    · refine ⟨?_, hlive _ hsome, ?_⟩
      · rw [hwalked, mem_cons, not_or]
        exact ⟨hbp, hb⟩
      · simpa only [releaseNs, update_of_ne hbp] using hl
  · by_cases hglobal : pNs = globalNs
    · simp only [flatMap_cons, dyingNs, hglobal, if_true, nil_append] at hnss
      refine (hnss.shrink hopenNs).liveMono fun x hx => ?_
      by_cases hxp : x = pNs
      · subst hxp
        simpa [releaseNs, hglobal] using hx
      · rwa [hother x hxp]
    · simp only [flatMap_cons, dyingNs, hglobal, if_false, cons_append] at hnss
      refine (hnss.shrink hopenNs).release fun x hx hxp => ?_
      rwa [hother x hxp]
  · intro hdel hnot hdepth
    refine h.settled hdel ?_ hdepth
    rw [draining, hstack]
    exact hnot

theorem freeCommandsStep_nil_inv {pEntry : Option (NsId × Bytes)}
    {pNs : NsId} {rest : List Activity}
    (hstack : s.stack = .freeCommands pEntry pNs [] :: rest) :
    ∃ s', s.freeCommandsStep pEntry pNs rest [] = some s' ∧ s'.Inv wc wn := by
  have hnss := h.nss
  rw [NsCustody, hstack] at hnss
  have hlive : (s.namespaces pNs).isSome := by
    refine hnss.ofDying pNs ?_
    by_cases hne : pNs = globalNs <;> simp [dyingNs, hne]
  obtain ⟨ns, hns⟩ := Option.isSome_iff_exists.mp hlive
  have hstep : s.freeCommandsStep pEntry pNs rest [] =
      some (({ s with stack := rest }.releaseNs pNs).clearEntry pEntry) := by
    simp only [freeCommandsStep, hns]
  exact ⟨_, hstep, clearEntry_inv (releaseNs_inv h hstack) pEntry⟩

theorem freeGlobalNs_inv {rest : List Activity}
    (hsame : SameHoldings s.stack rest) (hnot : globalNs ∉ s.freeing)
    (hbalanced : Balanced s.base rest s.nEvalDepth) (hdraining : s.draining = rest.any isDrain) :
    ∃ s', s.freeGlobalNs rest = some s' ∧ s'.Inv wc wn := by
  obtain ⟨g, hg⟩ := Option.isSome_iff_exists.mp
    (h.nss.ofDying globalNs (mem_append_right _ (by simp)))
  have hstep : s.freeGlobalNs rest =
      some { s with stack := .freeChildren none globalNs (childrenOf g) :: rest } := by
    simp only [freeGlobalNs, hg, Option.map_some]
  refine ⟨_, hstep, h.queueCmd, h.queueNs, ?_, ?_, h.freshCmd, h.freshNs, hbalanced, h.drained,
    fun hdel hnot => h.settled hdel (hdraining ▸ hnot), ?_⟩
  · have hcmds := cmdCustody_congr { s with
      stack := .freeChildren none globalNs (childrenOf g) :: rest } h.cmds hsame.walked
      (fun x hx => hx) rfl
    rw [← hsame.todoCmd, ← hsame.dyingCmd] at hcmds
    exact hcmds
  · have hstart := custody_startFree { s with
      stack := .freeChildren none globalNs (childrenOf g) :: rest } h.nss hg hnot rfl ?_
    · rw [← hsame.todoNs, ← hsame.dyingNs] at hstart
      exact hstart
    · intro x hx
      rw [freeing, ← hsame.freeing]
      simpa [freeing, Activity.freeing] using hx
  · rw [freeing, ← hsame.freeing] at hnot
    have hframes := h.frames
    rw [freeing, ← hsame.freeing] at hframes
    exact nodup_cons.mpr ⟨hnot, hframes⟩

end

def Unlinks (s : Deferral) (pNs : NsId) : Prop :=
  ∀ ns, s.namespaces pNs = some ns → ∃ p parent, ns.pParent = some p ∧ p ∉ s.freeing ∧
    s.namespaces p = some parent ∧ parent.paChild.lookup (splitQualName ns.zName).2 = some pNs

section

variable (h : s.Inv wc wn)

include h

/-- A namespace leaves the table of its parent and is queued or freed. -/
theorem unlinkFreeNamespace_inv {pNs : NsId} (hunlinks : s.Unlinks pNs)
    (hrun : s.unlinkFreeNamespace pNs = some s') : ∃ wn', s'.Inv wc wn' := by
  rcases hns : s.namespaces pNs with _ | ns
  · simp [unlinkFreeNamespace, NsTree.unlink, toTree, hns] at hrun
  · obtain ⟨p, parent, hpParent, hnot, hparent, hl⟩ := hunlinks ns hns
    -- The entry that goes.
    have hopen : s.OpenNs (p, (splitQualName ns.zName).2) pNs := ⟨hnot, parent, hparent, hl⟩
    have hlt := hopen.lt_nextNs h
    obtain ⟨t, hunlink, ht⟩ : ∃ t, s.toTree.unlink pNs = some t ∧
        t.namespaces = update s.namespaces p (some { parent with
          paChild := parent.paChild.erase (splitQualName ns.zName).2 }) := by
      refine ⟨{ s.toTree with namespaces := update s.namespaces p (some { parent with
        paChild := parent.paChild.erase (splitQualName ns.zName).2 }) }, ?_, rfl⟩
      simp only [NsTree.unlink, toTree, hns, hpParent, hparent]
    simp only [unlinkFreeNamespace, hunlink] at hrun
    have hsome : ∀ x, (t.namespaces x).isSome = (s.namespaces x).isSome := by
      intro x
      by_cases hx : x = p
      · simp [ht, hx, hparent]
      · simp [ht, update_of_ne hx]
    have hentry : ∀ b c, ({ s with namespaces := t.namespaces } : Deferral).OpenNs b c →
        s.OpenNs b c ∧ b ≠ (p, (splitQualName ns.zName).2) := by
      rintro ⟨x, k⟩ c ⟨hb, r, hr, hk⟩
      by_cases hx : x = p
      · subst hx
        obtain rfl : { parent with
            paChild := parent.paChild.erase (splitQualName ns.zName).2 } = r := by
          simpa [ht] using hr
        refine ⟨⟨hb, parent, hparent, lookup_of_erase hk⟩, fun heq => ?_⟩
        obtain rfl : k = (splitQualName ns.zName).2 := congrArg Prod.snd heq
        simp [AList.lookup_erase] at hk
      · simp only [ht, update_of_ne hx] at hr
        exact ⟨⟨hb, r, hr, hk⟩, fun heq => hx (congrArg Prod.fst heq)⟩
    have hcmds := cmdCustody_congr { s with namespaces := t.namespaces } h.cmds rfl
      (fun x hx => hsome x ▸ hx) rfl
    have hlive : ∀ x, (s.namespaces x).isSome → (t.namespaces x).isSome := by
      intro x hx
      rw [hsome]
      exact hx
    have hfresh : Fresh (fun n => (t.namespaces n).isSome) s.history.queuedNs
        s.history.destroyedNs (· < s.nextNs) :=
      ⟨fun x hx => h.freshNs.live x (hsome x ▸ hx), h.freshNs.queued, h.freshNs.destroyed⟩
    split_ifs at hrun with hdepth
    · cases hrun
      have hwait : pNs ∉ wn := fun hmem =>
        (h.nss.ofEntry _ _ hopen).2.1 (h.nss.once.mem_of_waiting hmem)
      refine ⟨wn ++ [pNs], h.queueCmd, h.queueNs.push hwait, hcmds, ?_, h.freshCmd,
        hfresh.queue hlt, h.balanced, h.drained,
        fun _ _ hzero => absurd hzero (ne_of_gt hdepth), h.frames⟩
      exact (h.nss.queueEntry hopen hentry).liveMono hlive
    · obtain ⟨r, hr⟩ := Option.isSome_iff_exists.mp (hlive pNs (by simp [hns]))
      simp only [freeNamespace, hr] at hrun
      cases hrun
      obtain ⟨-, -, -, -, hdying⟩ := h.nss.ofEntry _ _ hopen
      have hne : pNs ≠ globalNs := fun heq => hdying (by simp [heq])
      have hnotFreeing : pNs ∉ s.freeing := fun hmem => hdying (mem_dying_of_freeing hmem)
      refine ⟨wn, h.queueCmd, h.queueNs, hcmds, ?_, h.freshCmd, hfresh.destroy hlt _,
        h.balanced, h.drained, h.settled, nodup_cons.mpr ⟨hnotFreeing, h.frames⟩⟩
      have hnss := (h.nss.destroyEntry hopen hentry s.nEvalDepth).liveMono hlive
      have hstart := custody_startFree { s with
        namespaces := t.namespaces
        stack := .freeChildren none pNs (childrenOf r) :: s.stack } hnss hr hnotFreeing rfl ?_
      · simp only [NsCustody, flatMap_cons, Activity.todoNs, dyingNs, hne, if_false, cons_append]
        exact hstart
      · intro x hx
        simpa [freeing, Activity.freeing] using hx

theorem deleteNamespace_inv {zName : Bytes}
    (hallowed : ∀ pNs, s.toTree.findNamespace zName = some (some pNs) →
      if pNs = globalNs then globalNs ∉ s.freeing else s.Unlinks pNs)
    (hrun : s.deleteNamespace zName = some s') : ∃ wn', s'.Inv wc wn' := by
  unfold deleteNamespace at hrun
  rcases hfind : s.toTree.findNamespace zName with _ | _ | pNs
  · simp [hfind] at hrun
  · obtain rfl : s = s' := by simpa [hfind] using hrun
    exact ⟨wn, h⟩
  · have hunlinks := hallowed pNs hfind
    simp only [hfind] at hrun
    split_ifs at hunlinks hrun with hglobal hcurrent hcurrent
    · obtain ⟨s'', hstep, hinv⟩ := freeGlobalNs_inv (setCurrent_inv h globalNs)
        ⟨rfl, rfl, rfl, rfl, rfl, rfl⟩ hunlinks h.balanced rfl
      obtain rfl : s'' = s' := Option.some.inj (hstep.symm.trans hrun)
      exact ⟨wn, hinv⟩
    · obtain ⟨s'', hstep, hinv⟩ := freeGlobalNs_inv (setCurrent_inv h globalNs)
        ⟨rfl, rfl, rfl, rfl, rfl, rfl⟩ hunlinks h.balanced rfl
      obtain rfl : s'' = s' := Option.some.inj (hstep.symm.trans hrun)
      exact ⟨wn, hinv⟩
    · exact unlinkFreeNamespace_inv (setCurrent_inv h globalNs) hunlinks hrun
    · exact unlinkFreeNamespace_inv h hunlinks hrun

/-- A new namespace is entered in a table that is not walked. -/
theorem linkChild_custody {pNs : NsId} {ns : Namespace} {zComp : Bytes}
    (hns : s.namespaces pNs = some ns) :
    Inv { s with
      namespaces := (s.toTree.linkChild pNs ns zComp).namespaces
      nextNs := (s.toTree.linkChild pNs ns zComp).nextNs
      paCmd := update s.paCmd s.nextNs ∅ } wc wn := by
  have hfree : s.namespaces s.nextNs = none := by
    by_contra hne
    exact lt_irrefl _ (h.freshNs.live _ (Option.ne_none_iff_isSome.mp hne))
  have hpn : pNs ≠ s.nextNs := by
    rintro rfl
    simp [hfree] at hns
  have hself : (s.toTree.linkChild pNs ns zComp).namespaces pNs =
      some { ns with paChild := ns.paChild.insert zComp s.nextNs } := by
    simp [NsTree.linkChild, toTree]
  obtain ⟨child, hchild, hempty⟩ : ∃ child,
      (s.toTree.linkChild pNs ns zComp).namespaces s.nextNs = some child ∧ child.paChild = ∅ := by
    refine ⟨⟨cString (getFullNsName pNs ns zComp), some pNs, ns.nDepth + 1, ∅⟩, ?_, rfl⟩
    simp [NsTree.linkChild, toTree, update_of_ne (Ne.symm hpn)]
  have hother : ∀ x, x ≠ pNs → x ≠ s.nextNs →
      (s.toTree.linkChild pNs ns zComp).namespaces x = s.namespaces x := by
    intro x hx hxn
    simp [NsTree.linkChild, toTree, update_of_ne hx, update_of_ne hxn]
  have hlive : ∀ x, ((s.toTree.linkChild pNs ns zComp).namespaces x).isSome ↔
      (s.namespaces x).isSome ∨ x = s.nextNs := by
    intro x
    by_cases hx : x = pNs
    · subst hx
      simp [hself, hns]
    · by_cases hxn : x = s.nextNs
      · simp [hxn, hchild]
      · simp [hother x hx hxn, hxn]
  refine ⟨h.queueCmd, h.queueNs, ?_, ?_, h.freshCmd, ⟨?_, ?_, ?_⟩, h.balanced, h.drained,
    h.settled, h.frames⟩
  · refine h.cmds.shrink ?_
    rintro b c ⟨hb, hsome, hl⟩
    by_cases hbn : b.1 = s.nextNs
    · simp [hbn] at hl
    · refine ⟨hb, ((hlive b.1).mp hsome).resolve_right hbn, ?_⟩
      simpa only [update_of_ne hbn] using hl
  · refine h.nss.link (pNs, zComp) s.nextNs (by simp [hfree])
      (fun hmem => lt_irrefl _ (h.freshNs.queued _ hmem))
      (fun hmem => lt_irrefl _ (h.freshNs.destroyed _ hmem)) (fun x hx => (hlive x).mpr hx) ?_
    rintro ⟨x, k⟩ c ⟨hb, r, hr, hk⟩
    by_cases hx : x = pNs
    · subst hx
      obtain rfl : { ns with paChild := ns.paChild.insert zComp s.nextNs } = r :=
        Option.some.inj (hself.symm.trans hr)
      by_cases hkc : k = zComp
      · subst hkc
        exact .inr ⟨rfl, by simpa using hk.symm⟩
      · exact .inl ⟨hb, ns, hns, by simpa [AList.lookup_insert_ne hkc] using hk⟩
    · by_cases hxn : x = s.nextNs
      · subst hxn
        obtain rfl : child = r := Option.some.inj (hchild.symm.trans hr)
        simp [hempty] at hk
      · exact .inl ⟨hb, r, (hother x hx hxn).symm.trans hr, hk⟩
  · intro x hx
    rcases (hlive x).mp hx with hx | rfl
    · exact lt_succ_of_lt (h.freshNs.live x hx)
    · exact lt_succ_self _
  · exact fun x hx => lt_succ_of_lt (h.freshNs.queued x hx)
  · exact fun x hx => lt_succ_of_lt (h.freshNs.destroyed x hx)

theorem createNamespace_inv {zName zComp : Bytes}
    (hrun : s.createNamespace zName zComp = some s') : s'.Inv wc wn := by
  unfold createNamespace at hrun
  rcases hfind : s.toTree.findNamespace zName with _ | _ | pNs
  · simp [hfind] at hrun
  · obtain rfl : s = s' := by simpa [hfind] using hrun
    exact h
  · rcases hns : s.namespaces pNs with _ | ns
    · simp [hfind, hns] at hrun
    · simp only [hfind, hns] at hrun
      split_ifs at hrun with hold
      · cases hrun
        exact h
      · cases hrun
        exact linkChild_custody h hns

end

end Deferral

end Th8
