import Th8.Deletion.Moves

/-!
# Deferred deletion in order

What every run of deletions, evaluations and destructors keeps: each queued command and
namespace is destroyed once, in the order of its queue, where no evaluation is left, and a
drain returns with both queues empty.  The condition on the moves excludes the defects: a
namespace that is not unlinked, a lookup in a table that is being walked, and an evaluation
that leaves its mark on the depth while a drain is under way.
-/

namespace Th8

open Support Option

namespace Deferral

def Move.Allowed (s : Deferral) : Move → Prop
  | .failEval => s.draining = false ∧ s.deleted = false
  | .suspendEval => s.draining = false ∧ s.deleted = false
  | .cancelEval => s.deleted → s.draining
  | .deleteCommand zName =>
    ∀ pNs zTail, s.resolve zName = some (some (pNs, zTail)) → pNs ∉ s.freeing
  | .deleteNamespace zName =>
    ∀ pNs, s.toTree.findNamespace zName = some (some pNs) →
      if pNs = globalNs then globalNs ∉ s.freeing else s.Unlinks pNs
  | .deleteInterp => s.nEvalDepth = 0
  | _ => True

structure Orderly (s : Deferral) : Prop where
  commands : ∃ waiting, s.pendingCmd.Holds waiting ∧
    DestroyedOnce s.history.queuedCmd s.history.destroyedCmd waiting
  namespaces : ∃ waiting, s.pendingNs.Holds waiting ∧
    DestroyedOnce s.history.queuedNs s.history.destroyedNs waiting
  /-- Every drain returned at depth zero with both queues empty. -/
  drained : ∀ e ∈ s.history.drained, e = (0, true)
  /-- No loop uses a released record. -/
  proceeds : s.inControl = false → s.stack ≠ [] → s.proceed.isSome
  /-- Nothing is left when the interpreter is gone. -/
  nothingLeft : s.deleted → s.stack = [] → s.pendingCmd.Holds [] ∧ s.pendingNs.Holds []

variable {s s' : Deferral} {wc : List CmdId} {wn : List NsId}

theorem proceed_inv (h : s.Inv wc wn) (hcontrol : s.inControl = false)
    (hstack : s.stack ≠ []) : ∃ s' wc' wn', s.proceed = some s' ∧ s'.Inv wc' wn' := by
  have hbalanced := h.balanced
  unfold inControl at hcontrol
  unfold proceed
  match hcase : s.stack with
  | [] => exact absurd hcase hstack
  | .eval :: rest => simp [hcase] at hcontrol
  | .destructor pCmd :: rest => simp [hcase] at hcontrol
  | .drainCommands :: rest =>
    obtain ⟨s', wc', hstep, h'⟩ := drainCommandsStep_inv h hcase
    exact ⟨s', wc', wn, hstep, h'⟩
  | .drainNamespaces :: rest =>
    obtain ⟨s', wn', hstep, h'⟩ := drainNamespacesStep_inv h hcase
    exact ⟨s', wc, wn', hstep, h'⟩
  | .freeChildren pEntry pNs more :: rest =>
    obtain ⟨s', hstep, h'⟩ := freeChildrenStep_inv h hcase
    exact ⟨s', wc, wn, hstep, h'⟩
  | .freeCommands pEntry pNs [] :: rest =>
    obtain ⟨s', hstep, h'⟩ := freeCommandsStep_nil_inv h hcase
    exact ⟨s', wc, wn, hstep, h'⟩
  | .freeCommands pEntry pNs (pCmd :: more) :: rest =>
    obtain ⟨s', hstep, h'⟩ := freeCommandsStep_inv h hcase
    exact ⟨s', wc, wn, hstep, h'⟩
  | .freeGlobal :: rest =>
    rw [hcase] at hbalanced
    obtain ⟨rfl, hbase⟩ := hbalanced
    have hsame : SameHoldings s.stack [] := by
      rw [hcase]
      exact ⟨rfl, rfl, rfl, rfl, rfl, rfl⟩
    obtain ⟨s', hstep, h'⟩ := freeGlobalNs_inv h hsame
      (by simp [freeing, hcase, Activity.freeing]) hbase
      (by simp [draining, hcase, Activity.isDrain])
    exact ⟨s', wc, wn, hstep, h'⟩

theorem Inv.orderly (h : s.Inv wc wn) : s.Orderly := by
  refine ⟨⟨wc, h.queueCmd, h.cmds.once⟩, ⟨wn, h.queueNs, h.nss.once⟩, h.drained, ?_, ?_⟩
  · intro hcontrol hstack
    obtain ⟨s', wc', wn', hstep, -⟩ := proceed_inv h hcontrol hstack
    simp [hstep]
  · intro hdeleted hstack
    have hbalanced := h.balanced
    rw [hstack] at hbalanced
    obtain ⟨rfl, rfl⟩ := h.settled hdeleted (by simp [draining, hstack]) (hbalanced.2 hdeleted)
    exact ⟨h.queueCmd, h.queueNs⟩

theorem move_inv (h : s.Inv wc wn) {m : Move} (hallowed : m.Allowed s)
    (hrun : s.move m = some s') : ∃ wc' wn', s'.Inv wc' wn' := by
  unfold move at hrun
  split_ifs at hrun with hcontrol
  · cases m with
    | enterEval =>
      cases hrun
      exact ⟨wc, wn, enterEval_inv h⟩
    | failEval =>
      cases hrun
      exact ⟨wc, wn, failEval_inv h hallowed.1 hallowed.2⟩
    | leaveEval => exact ⟨wc, wn, leaveEval_inv h hrun⟩
    | cancelEval =>
      obtain ⟨s₁, hpop, rfl⟩ := map_eq_some_iff.mp hrun
      exact ⟨wc, wn, cancelEval_inv h hallowed hpop⟩
    | suspendEval =>
      obtain ⟨s₁, hpop, rfl⟩ := map_eq_some_iff.mp hrun
      exact ⟨wc, wn, suspendEval_inv h hallowed.1 hallowed.2 hpop⟩
    | resumeEval =>
      simp only [codeMove] at hrun
      split_ifs at hrun with hsuspended
      cases hrun
      exact ⟨wc, wn, resumeEval_inv h hsuspended⟩
    | createCommand zName => exact ⟨wc, wn, createCommand_inv h hrun⟩
    | createNamespace zName zComp => exact ⟨wc, wn, createNamespace_inv h hrun⟩
    | deleteCommand zName =>
      obtain ⟨wc', h'⟩ := deleteCommand_inv h hallowed hrun
      exact ⟨wc', wn, h'⟩
    | deleteNamespace zName =>
      obtain ⟨wn', h'⟩ := deleteNamespace_inv h hallowed hrun
      exact ⟨wc, wn', h'⟩
    | setCurrent pNs =>
      simp only [codeMove] at hrun
      split_ifs at hrun
      cases hrun
      exact ⟨wc, wn, setCurrent_inv h pNs⟩
    | returnFromDestructor =>
      simp only [codeMove] at hrun
      split at hrun
      · rename_i pCmd rest hstack
        split_ifs at hrun
        cases hrun
        exact ⟨wc, wn, returnFromDestructor_inv h hstack⟩
      · simp at hrun
    | deleteInterp =>
      simp only [codeMove] at hrun
      split_ifs at hrun with hstack
      cases hrun
      exact ⟨wc, wn, deleteInterp_inv h hstack hallowed⟩
    | proceed => simp [codeMove] at hrun
  · split at hrun
    · by_cases hstack : s.stack = []
      · simp [proceed, hstack] at hrun
      · obtain ⟨s'', wc', wn', hstep, h'⟩ := proceed_inv h (by simpa using hcontrol) hstack
        obtain rfl : s'' = s' := some.inj (hstep.symm.trans hrun)
        exact ⟨wc', wn', h'⟩
    · simp at hrun

def AllowedMove (t : Option Deferral) (m : Move) : Prop := ∀ s, t = some s → m.Allowed s

theorem reachable_inv (hreach : ReachableBy deferralStep AllowedMove (some .init) (some s)) :
    ∃ wc wn, s.Inv wc wn := by
  have hinit : ∀ t, some Deferral.init = some t → ∃ wc wn, t.Inv wc wn := by
    rintro t ⟨⟩
    exact ⟨[], [], init_inv⟩
  have hstep : ∀ (o : Option Deferral) (m : Move), (∀ t, o = some t → ∃ wc wn, t.Inv wc wn) →
      AllowedMove o m → ∀ t, deferralStep o m = some t → ∃ wc wn, t.Inv wc wn := by
    intro o m ho hallowed t ht
    obtain ⟨s₁, rfl, hrun⟩ := bind_eq_some_iff.mp ht
    obtain ⟨wc, wn, h⟩ := ho s₁ rfl
    exact move_inv h (hallowed s₁ rfl) hrun
  exact hreach.invariant hinit hstep s rfl

/-- In every run of allowed moves deletions are orderly. -/
theorem orderly_of_allowed
    (hreach : ReachableBy deferralStep AllowedMove (some .init) (some s)) : s.Orderly := by
  obtain ⟨wc, wn, h⟩ := reachable_inv hreach
  exact h.orderly

/-- A command is deleted inside an evaluation, and its destructor deletes another one in
an evaluation of its own. -/
def nestedDeletion : List Move :=
  [.createCommand (ascii "a"), .createCommand (ascii "b"), .enterEval,
    .deleteCommand (ascii "a"), .leaveEval, .proceed, .enterEval, .deleteCommand (ascii "b"),
    .leaveEval, .proceed, .returnFromDestructor, .proceed, .proceed, .returnFromDestructor,
    .proceed, .proceed]

theorem allowedMove_deleteCommand {t : Option Deferral} {zName : Bytes}
    (h : t.map freeing = some []) : AllowedMove t (.deleteCommand zName) := by
  rintro s rfl pNs zTail -
  rw [some.inj h]
  exact List.not_mem_nil

theorem orderly_nestedDeletion :
    ∃ s, nestedDeletion.foldl deferralStep (some .init) = some s ∧ s.Orderly ∧
      s.history.destroyedCmd = [(0, 0), (1, 0)] := by
  obtain ⟨s, hs⟩ : ∃ s, nestedDeletion.foldl deferralStep (some .init) = some s :=
    isSome_iff_exists.mp (by decide +kernel)
  have hallowed : ReachableBy.AllowedRun deferralStep AllowedMove (some .init) nestedDeletion :=
    ⟨fun _ _ => trivial, fun _ _ => trivial, fun _ _ => trivial,
      allowedMove_deleteCommand (by decide +kernel), fun _ _ => trivial, fun _ _ => trivial,
      fun _ _ => trivial, allowedMove_deleteCommand (by decide +kernel), fun _ _ => trivial,
      fun _ _ => trivial, fun _ _ => trivial, fun _ _ => trivial, fun _ _ => trivial,
      fun _ _ => trivial, fun _ _ => trivial, fun _ _ => trivial, trivial⟩
  have hdestroyed : (nestedDeletion.foldl deferralStep (some .init)).map
      (fun s => s.history.destroyedCmd) = some [(0, 0), (1, 0)] := by decide +kernel
  rw [hs, map_some, some.injEq] at hdestroyed
  exact ⟨s, hs, orderly_of_allowed (hs ▸ ReachableBy.foldl .init hallowed), hdestroyed⟩

/-- In the namespace `a:`, its child `b` is deleted twice in one evaluation: its name
`::a:::b` does not unlink it, and it is queued twice. -/
def deletedTwice : List Move :=
  [.createNamespace [] (ascii "a:"), .createNamespace (ascii "::a:") (ascii "b"),
    .setCurrent 1, .enterEval, .deleteNamespace (ascii "b"), .deleteNamespace (ascii "b"),
    .leaveEval, .proceed, .proceed, .proceed, .proceed]

/-- The drain frees the namespace and then finds it in the queue again. -/
theorem deletedTwice_not_orderly :
    ¬∀ s, Reachable deferralStep (some .init) (some s) → s.Orderly := by
  intro hall
  obtain ⟨s, hs⟩ : ∃ s, deletedTwice.foldl deferralStep (some .init) = some s :=
    isSome_iff_exists.mp (by decide +kernel)
  have hstuck : (deletedTwice.foldl deferralStep (some .init)).map
      (fun s => (s.inControl, s.stack, s.proceed.isSome)) =
        some (false, [.drainNamespaces], false) := by decide +kernel
  simp only [hs, map_some, some.injEq, Prod.mk.injEq] at hstuck
  obtain ⟨hcontrol, hstack, hnone⟩ := hstuck
  have horderly := hall s (hs ▸ reachable_foldl _ _ _)
  have hsome := horderly.proceeds hcontrol (by simp [hstack])
  simp [hnone] at hsome

end Deferral

end Th8
