import Th8.Namespace.Tree
import Th8.Support.Custody
import Th8.Support.Queue

/-!
# Deferred deletion

Inside an evaluation a deleted command or namespace is only unlinked; its destruction
waits in one of two queues until no evaluation is left.  A destructor is code like any
other: it may evaluate scripts, create, delete and so start further destructions and
further drains.  The machine here has the activities that are under way on the C stack,
and moves of the code that is in control; the loops of the drain and of the release of
a namespace proceed by themselves.

Commands are only known by their addresses.  Left out are sub-commands (their
destructors belong to the destructor of the command), replacement and import of
commands, and coroutines.  `none` is the use of a released record.
-/

namespace Th8

open Support

/-! ### The state -/

inductive Activity where
  /-- A script is evaluated. -/
  | eval
  /-- The destructor `xDel` of a command runs; the record is freed when it returns. -/
  | destructor (pCmd : CmdId)
  /-- The loop over the queued commands in `th8DrainPendingDeletes`. -/
  | drainCommands
  /-- The loop over the queued namespaces. -/
  | drainNamespaces
  /-- The first loop of `th8FreeNamespace`, with the children to come.  `pEntry` is the
  entry of the parent that `th8FreeChildEntry` clears at the end. -/
  | freeChildren (pEntry : Option (NsId × Bytes)) (pNs : NsId) (rest : List (Bytes × NsId))
  /-- The second loop of `th8FreeNamespace`, with the commands to come. -/
  | freeCommands (pEntry : Option (NsId × Bytes)) (pNs : NsId) (rest : List CmdId)
  /-- `Th8_DeleteInterp` is to free the global namespace. -/
  | freeGlobal
deriving DecidableEq

def Activity.freeing : Activity → Option NsId
  | .freeChildren _ pNs _ => some pNs
  | .freeCommands _ pNs _ => some pNs
  | _ => none

/-- The activity is a loop of `th8DrainPendingDeletes`. -/
def Activity.isDrain : Activity → Bool
  | .drainCommands => true
  | .drainNamespaces => true
  | _ => false

/-- What has been queued, and what has been destroyed at which evaluation depth.  For
each drain that returned: the depth, and whether both queues were empty. -/
structure History where
  queuedCmd : List CmdId
  queuedNs : List NsId
  destroyedCmd : List (CmdId × ℕ)
  destroyedNs : List (NsId × ℕ)
  drained : List (ℕ × Bool)

structure Deferral where
  namespaces : Memory NsId Namespace
  nextNs : NsId
  pCurrentNs : NsId
  paCmd : NsId → AList fun _ : Bytes => CmdId
  allocated : CmdId → Bool
  nextCmd : CmdId
  nEvalDepth : ℕ
  nSuspended : ℕ
  pendingCmd : IntrusiveQueue CmdId
  pendingNs : IntrusiveQueue NsId
  stack : List Activity
  deleted : Bool
  history : History

/-- A new interpreter. -/
def Deferral.init : Deferral where
  namespaces := NsTree.init.namespaces
  nextNs := NsTree.init.nextNs
  pCurrentNs := globalNs
  paCmd := fun _ => ∅
  allocated := fun _ => false
  nextCmd := 0
  nEvalDepth := 0
  nSuspended := 0
  pendingCmd := .empty
  pendingNs := .empty
  stack := []
  deleted := false
  history := ⟨[], [], [], [], []⟩

namespace Deferral

variable (s : Deferral)

def toTree : NsTree := ⟨s.namespaces, s.nextNs, s.pCurrentNs, s.nEvalDepth, []⟩

def freeing : List NsId := s.stack.filterMap Activity.freeing

def draining : Bool := s.stack.any Activity.isDrain

def inControl : Bool :=
  match s.stack with
  | [] => !s.deleted
  | .eval :: _ => true
  | .destructor _ :: _ => true
  | _ => false

def queuePendingCmd (pCmd : CmdId) : Deferral :=
  { s with
    pendingCmd := s.pendingCmd.push pCmd
    history := { s.history with queuedCmd := s.history.queuedCmd ++ [pCmd] } }

def queuePendingNs (pNs : NsId) : Deferral :=
  { s with
    pendingNs := s.pendingNs.push pNs
    history := { s.history with queuedNs := s.history.queuedNs ++ [pNs] } }

def destroyCmd (pCmd : CmdId) : Option Deferral :=
  if s.allocated pCmd then
    some { s with
      stack := .destructor pCmd :: s.stack
      history := { s.history with
        destroyedCmd := s.history.destroyedCmd ++ [(pCmd, s.nEvalDepth)] } }
  else none

def childrenOf (ns : Namespace) : List (Bytes × NsId) :=
  ns.paChild.entries.map fun e => (e.1, e.2)

/-- `th8FreeNamespace` starts. -/
def freeNamespace (pEntry : Option (NsId × Bytes)) (pNs : NsId) : Option Deferral :=
  match s.namespaces pNs with
  | none => none
  | some ns =>
    some { s with
      stack := .freeChildren pEntry pNs (childrenOf ns) :: s.stack
      history := { s.history with
        destroyedNs := s.history.destroyedNs ++ [(pNs, s.nEvalDepth)] } }

def clearEntry : Option (NsId × Bytes) → Deferral
  | none => s
  | some (pParent, zKey) =>
    { s with
      namespaces := Function.update s.namespaces pParent
        ((s.namespaces pParent).map fun ns => { ns with paChild := ns.paChild.erase zKey }) }

/-- The end of `th8FreeNamespace`.  The global namespace gets new tables instead. -/
def releaseNs (pNs : NsId) : Deferral :=
  { s with
    namespaces := Function.update s.namespaces pNs
      (if pNs = globalNs then (s.namespaces pNs).map fun ns => { ns with paChild := ∅ }
      else none)
    paCmd := Function.update s.paCmd pNs ∅
    pCurrentNs := if pNs = globalNs then globalNs else s.pCurrentNs }

/-- `th8DrainPendingDeletes` is called where no evaluation is left and something
waits. -/
def drainAtZero : Deferral :=
  if s.nEvalDepth = 0 ∧ (s.pendingCmd.head.isSome ∨ s.pendingNs.head.isSome) then
    { s with stack := .drainCommands :: s.stack }
  else s

def drainCommandsStep (rest : List Activity) : Option Deferral :=
  match s.pendingCmd.pop with
  | some (pCmd, q) => { s with pendingCmd := q }.destroyCmd pCmd
  | none => some { s with stack := .drainNamespaces :: rest }

def drainNamespacesStep (rest : List Activity) : Option Deferral :=
  match s.pendingNs.pop with
  | some (pNs, q) => { s with pendingNs := q }.freeNamespace none pNs
  | none =>
    if s.pendingCmd.head.isSome then some { s with stack := .drainCommands :: rest }
    else some { s with
      stack := rest
      history := { s.history with
        drained := s.history.drained ++
          [(s.nEvalDepth, s.pendingCmd.head.isNone && s.pendingNs.head.isNone)] } }

def freeChildrenStep (pEntry : Option (NsId × Bytes)) (pNs : NsId) (rest : List Activity) :
    List (Bytes × NsId) → Option Deferral
  | [] =>
    match s.namespaces pNs with
    | none => none
    | some _ => some { s with
        stack := .freeCommands pEntry pNs ((s.paCmd pNs).entries.map Sigma.snd) :: rest }
  | (zKey, pChild) :: more =>
    { s with stack := .freeChildren pEntry pNs more :: rest }.freeNamespace
      (some (pNs, zKey)) pChild

/-- The loop over the commands (`th8FreeCmdEntry`), and what follows it.  The entries
stay in the table until it goes. -/
def freeCommandsStep (pEntry : Option (NsId × Bytes)) (pNs : NsId) (rest : List Activity) :
    List CmdId → Option Deferral
  | [] =>
    match s.namespaces pNs with
    | none => none
    | some _ => some (({ s with stack := rest }.releaseNs pNs).clearEntry pEntry)
  | pCmd :: more => { s with stack := .freeCommands pEntry pNs more :: rest }.destroyCmd pCmd

/-- `Th8_DeleteNamespace` and `Th8_DeleteInterp` on the global namespace. -/
def freeGlobalNs (rest : List Activity) : Option Deferral :=
  (s.namespaces globalNs).map fun ns =>
    { s with stack := .freeChildren none globalNs (childrenOf ns) :: rest }

def proceed : Option Deferral :=
  match s.stack with
  | .drainCommands :: rest => s.drainCommandsStep rest
  | .drainNamespaces :: rest => s.drainNamespacesStep rest
  | .freeChildren pEntry pNs more :: rest => s.freeChildrenStep pEntry pNs rest more
  | .freeCommands pEntry pNs more :: rest => s.freeCommandsStep pEntry pNs rest more
  | .freeGlobal :: rest => s.freeGlobalNs rest
  | _ => none

def resolve (zName : Bytes) : Option (Option (NsId × Bytes)) :=
  match splitQualName zName with
  | (some zNs, zTail) => (s.toTree.findNamespace zNs).map fun pNs => pNs.map (·, zTail)
  | (none, _) => some (some (s.pCurrentNs, zName))

/-- The deletion half of `Th8_RenameCommand`: the entry goes, the command is destroyed
or queued. -/
def deleteEntry (pNs : NsId) (zTail : Bytes) (pCmd : CmdId) : Option Deferral :=
  let s₁ := { s with paCmd := Function.update s.paCmd pNs ((s.paCmd pNs).erase zTail) }
  if 0 < s.nEvalDepth then some (s₁.queuePendingCmd pCmd) else s₁.destroyCmd pCmd

/-- `Th8_RenameCommand` with an empty new name, as `Th8_DeleteCommand` calls it too. -/
def deleteCommand (zName : Bytes) : Option Deferral :=
  match s.resolve zName with
  | none => none
  | some none => some s
  | some (some (pNs, zTail)) =>
    match s.namespaces pNs with
    | none => none
    | some _ =>
      match (s.paCmd pNs).lookup zTail with
      | none => some s
      | some pCmd => s.deleteEntry pNs zTail pCmd

/-- `th8UnlinkFreeNamespace`: the key to unlink is the tail of the full name. -/
def unlinkFreeNamespace (pNs : NsId) : Option Deferral :=
  match s.toTree.unlink pNs with
  | none => none
  | some t =>
    let s₁ := { s with namespaces := t.namespaces }
    if 0 < s.nEvalDepth then some (s₁.queuePendingNs pNs) else s₁.freeNamespace none pNs

/-- `Th8_DeleteNamespace`, also for the rollback of a namespace that was just made. -/
def deleteNamespace (zName : Bytes) : Option Deferral :=
  match s.toTree.findNamespace zName with
  | none => none
  | some none => some s
  | some (some pNs) =>
    let s₁ := if pNs = s.pCurrentNs then { s with pCurrentNs := globalNs } else s
    if pNs = globalNs then { s₁ with pCurrentNs := globalNs }.freeGlobalNs s.stack
    else s₁.unlinkFreeNamespace pNs

/-- `Th8_CreateCommand` with a name that is free in an existing namespace. -/
def createCommand (zName : Bytes) : Option Deferral :=
  match s.resolve zName with
  | none => none
  | some none => some s
  | some (some (pNs, zTail)) =>
    match s.namespaces pNs, (s.paCmd pNs).lookup zTail with
    | none, _ => none
    | some _, some _ => some s
    | some _, none =>
      some { s with
        paCmd := Function.update s.paCmd pNs ((s.paCmd pNs).insert zTail s.nextCmd)
        allocated := Function.update s.allocated s.nextCmd true
        nextCmd := s.nextCmd + 1 }

/-- One component of a creating `th8FindNamespaceEx`, below the namespace `zName`. -/
def createNamespace (zName zComp : Bytes) : Option Deferral :=
  match s.toTree.findNamespace zName with
  | none => none
  | some none => some s
  | some (some pNs) =>
    match s.namespaces pNs with
    | none => none
    | some ns =>
      if (ns.paChild.lookup zComp).isSome ∨ mxNsDepth ≤ ns.nDepth then some s
      else
        let t := s.toTree.linkChild pNs ns zComp
        some { s with
          namespaces := t.namespaces
          nextNs := t.nextNs
          paCmd := Function.update s.paCmd s.nextNs ∅ }

def popEval : Option Deferral :=
  match s.stack with
  | .eval :: rest => some { s with stack := rest }
  | _ => none

/-- `th8EvalStateCleanup`. -/
def leaveEval : Option Deferral :=
  s.popEval.map fun s₁ => { s₁ with nEvalDepth := s.nEvalDepth - 1 }.drainAtZero

/-- What the code in control may do, and the loops that proceed by themselves.

An evaluation that `th8EvalLocal` refuses after it has counted it (the policy callback
objects, or the clean-up cannot be scheduled) enters and leaves; `failEval` is one without
memory for its state; `cancelEval` is one whose callbacks are discarded by an unwinding
cancellation. -/
inductive Move where
  | enterEval
  | failEval
  | leaveEval
  | cancelEval
  | suspendEval
  | resumeEval
  | createCommand (zName : Bytes)
  | createNamespace (zName zComp : Bytes)
  | deleteCommand (zName : Bytes)
  | deleteNamespace (zName : Bytes)
  | setCurrent (pNs : NsId)
  | returnFromDestructor
  | deleteInterp
  | proceed

/-- A move of the code in control. -/
def codeMove : Move → Option Deferral
  | .enterEval => some { s with nEvalDepth := s.nEvalDepth + 1, stack := .eval :: s.stack }
  | .failEval => some { s with nEvalDepth := s.nEvalDepth + 1 }
  | .leaveEval => s.leaveEval
  | .cancelEval => s.popEval.map fun s₁ => { s₁ with nEvalDepth := s.nEvalDepth - 1 }
  | .suspendEval => s.popEval.map fun s₁ => { s₁ with nSuspended := s.nSuspended + 1 }
  | .resumeEval =>
    if 0 < s.nSuspended then
      some { s with nSuspended := s.nSuspended - 1, stack := .eval :: s.stack }
    else none
  | .createCommand zName => s.createCommand zName
  | .createNamespace zName zComp => s.createNamespace zName zComp
  | .deleteCommand zName => s.deleteCommand zName
  | .deleteNamespace zName => s.deleteNamespace zName
  | .setCurrent pNs =>
    if (s.namespaces pNs).isSome then some { s with pCurrentNs := pNs } else none
  | .returnFromDestructor =>
    match s.stack with
    | .destructor pCmd :: rest =>
      if s.allocated pCmd then
        some { s with stack := rest, allocated := Function.update s.allocated pCmd false }
      else none
    | _ => none
  | .deleteInterp =>
    if s.stack = [] then some { s with stack := [.drainCommands, .freeGlobal], deleted := true }
    else none
  | .proceed => none

def move (m : Move) : Option Deferral :=
  if s.inControl then s.codeMove m
  else
    match m with
    | .proceed => s.proceed
    | _ => none

end Deferral

def deferralStep (s : Option Deferral) (m : Deferral.Move) : Option Deferral :=
  s.bind fun s₁ => s₁.move m

/-!
## The invariant of deferred deletion

Every command and every namespace is in one entry of a table, or it waits in a queue, or
a loop of `th8FreeNamespace` has it before it, or its destruction is under way.  Tables
that are walked by such a loop do not count: what they lead to has been taken over by the
loop.  Below a drain no evaluation is in progress.
-/

/-! ### What the activities hold -/

namespace Activity

def todoCmd : Activity → List CmdId
  | freeCommands _ _ rest => rest
  | _ => []

def dyingCmd : Activity → List CmdId
  | destructor pCmd => [pCmd]
  | _ => []

def todoNs : Activity → List NsId
  | freeChildren _ _ rest => rest.map Prod.snd
  | _ => []

def dyingNs : Activity → List NsId
  | freeChildren _ pNs _ => if pNs = globalNs then [] else [pNs]
  | freeCommands _ pNs _ => if pNs = globalNs then [] else [pNs]
  | _ => []

def walked : Activity → Option NsId
  | freeCommands _ pNs _ => some pNs
  | _ => none

end Activity

/-- Each evaluation on the stack counts one, a drain runs where nothing counts, `base`
holds of what counts below all, and the global namespace is freed last. -/
def Balanced (base : ℕ → Prop) : List Activity → ℕ → Prop
  | [], depth => base depth
  | .eval :: rest, depth => ∃ d, depth = d + 1 ∧ Balanced base rest d
  | .drainCommands :: rest, depth => depth = 0 ∧ Balanced base rest depth
  | .drainNamespaces :: rest, depth => depth = 0 ∧ Balanced base rest depth
  | .freeGlobal :: rest, depth => rest = [] ∧ Balanced base rest depth
  | _ :: rest, depth => Balanced base rest depth

theorem Balanced.raise {base base' : ℕ → Prop} {depth : ℕ} {stack : List Activity}
    (h : Balanced base stack depth) (hdrain : stack.any Activity.isDrain = false)
    (hbase : ∀ d, base d → base' (d + 1)) : Balanced base' stack (depth + 1) := by
  induction stack generalizing depth with
  | nil => exact hbase depth h
  | cons a stack ih =>
    rw [List.any_cons, Bool.or_eq_false_iff] at hdrain
    cases a with
    | eval =>
      obtain ⟨d, rfl, hd⟩ := h
      exact ⟨d + 1, rfl, ih hd hdrain.2⟩
    | drainCommands => exact absurd hdrain.1 (by decide)
    | drainNamespaces => exact absurd hdrain.1 (by decide)
    | destructor c => exact ih (show Balanced base stack depth from h) hdrain.2
    | freeChildren e n rest => exact ih (show Balanced base stack depth from h) hdrain.2
    | freeCommands e n rest => exact ih (show Balanced base stack depth from h) hdrain.2
    | freeGlobal => exact ⟨h.1, ih h.2 hdrain.2⟩

theorem Balanced.resume {base base' : ℕ → Prop} {depth : ℕ} {stack : List Activity}
    (h : Balanced base stack depth) (hbase : ∀ d, base d → ∃ d', d = d' + 1 ∧ base' d') :
    ∃ d, depth = d + 1 ∧ Balanced base' stack d := by
  induction stack generalizing depth with
  | nil => exact hbase depth h
  | cons a stack ih =>
    cases a with
    | eval =>
      obtain ⟨d, rfl, hd⟩ := h
      obtain ⟨d', rfl, hd'⟩ := ih hd
      exact ⟨d' + 1, rfl, d', rfl, hd'⟩
    | drainCommands =>
      obtain ⟨d, hd, -⟩ := ih h.2
      exact absurd (h.1.symm.trans hd) (Nat.succ_ne_zero d).symm
    | drainNamespaces =>
      obtain ⟨d, hd, -⟩ := ih h.2
      exact absurd (h.1.symm.trans hd) (Nat.succ_ne_zero d).symm
    | destructor c => exact ih (show Balanced base stack depth from h)
    | freeChildren e n rest => exact ih (show Balanced base stack depth from h)
    | freeCommands e n rest => exact ih (show Balanced base stack depth from h)
    | freeGlobal =>
      obtain ⟨d, hd, hrest⟩ := ih h.2
      exact ⟨d, hd, h.1, hrest⟩

namespace Deferral

def OpenNs (s : Deferral) (a : NsId × Bytes) (pChild : NsId) : Prop :=
  a.1 ∉ s.freeing ∧ ∃ ns, s.namespaces a.1 = some ns ∧ ns.paChild.lookup a.2 = some pChild

def OpenCmd (s : Deferral) (a : NsId × Bytes) (pCmd : CmdId) : Prop :=
  a.1 ∉ s.stack.filterMap Activity.walked ∧ (s.namespaces a.1).isSome ∧
    (s.paCmd a.1).lookup a.2 = some pCmd

abbrev CmdCustody (s : Deferral) (waiting : List CmdId) : Prop :=
  Custody s.OpenCmd (fun c => s.allocated c = true) s.history.queuedCmd
    s.history.destroyedCmd waiting (s.stack.flatMap Activity.todoCmd)
    (s.stack.flatMap Activity.dyingCmd)

abbrev NsCustody (s : Deferral) (waiting : List NsId) : Prop :=
  Custody s.OpenNs (fun n => (s.namespaces n).isSome) s.history.queuedNs
    s.history.destroyedNs waiting (s.stack.flatMap Activity.todoNs)
    (s.stack.flatMap Activity.dyingNs ++ [globalNs])

/-- The depth that is left without the activities on the stack: suspended evaluations
count, and when the interpreter is deleted nothing is left. -/
def base (s : Deferral) (depth : ℕ) : Prop :=
  s.nSuspended ≤ depth ∧ (s.deleted → depth = 0)

structure Fresh {ι : Type} (live : ι → Prop) (queued : List ι) (destroyed : List (ι × ℕ))
    (below : ι → Prop) : Prop where
  live : ∀ x, live x → below x
  queued : ∀ x ∈ queued, below x
  destroyed : ∀ x ∈ destroyed.map Prod.fst, below x

structure Inv (s : Deferral) (waitingCmd : List CmdId) (waitingNs : List NsId) : Prop where
  queueCmd : s.pendingCmd.Holds waitingCmd
  queueNs : s.pendingNs.Holds waitingNs
  cmds : s.CmdCustody waitingCmd
  nss : s.NsCustody waitingNs
  freshCmd : Fresh (fun c => s.allocated c = true) s.history.queuedCmd
    s.history.destroyedCmd (· < s.nextCmd)
  freshNs : Fresh (fun n => (s.namespaces n).isSome) s.history.queuedNs
    s.history.destroyedNs (· < s.nextNs)
  balanced : Balanced s.base s.stack s.nEvalDepth
  drained : ∀ e ∈ s.history.drained, e = (0, true)
  settled : s.deleted → s.draining = false → s.nEvalDepth = 0 → waitingCmd = [] ∧ waitingNs = []
  frames : s.freeing.Nodup

theorem init_inv : Inv .init [] [] := by
  have hglobal : ∀ n, (Deferral.init.namespaces n).isSome → n = globalNs := by
    intro n hn
    by_contra hne
    simp [Deferral.init, NsTree.init, Function.update_of_ne hne] at hn
  refine ⟨IntrusiveQueue.holds_empty, IntrusiveQueue.holds_empty, ?_, ?_, ?_, ?_,
    ⟨Nat.le_refl 0, fun _ => rfl⟩, by simp [init], fun _ _ _ => ⟨rfl, rfl⟩, List.nodup_nil⟩
  · refine ⟨?_, ?_, by simp [init], by simp, by simp [init], by simp [init], by simp [init], .nil⟩
    · rintro a b x ⟨-, -, hl⟩
      simp [init] at hl
    · rintro a x ⟨-, -, hl⟩
      simp [init] at hl
  · have hnone : ∀ a x, ¬Deferral.init.OpenNs a x := by
      rintro ⟨p, k⟩ x ⟨-, ns, hns, hk⟩
      obtain rfl : p = globalNs := hglobal p (by simp [hns])
      have hempty : ns.paChild = ∅ := by
        simp only [Deferral.init, NsTree.init, Function.update_self, Option.some.injEq] at hns
        rw [← hns]
      simp [hempty] at hk
    refine ⟨fun a b x ha => (hnone a x ha).elim, fun a x ha => (hnone a x ha).elim,
      by simp [init], by simp, ?_, by simp [init], by simp [init], .nil⟩
    intro x hx
    obtain rfl : x = globalNs := by simpa [init] using hx
    rfl
  · exact ⟨by simp [init], by simp [init], by simp [init]⟩
  · refine ⟨fun n hn => ?_, by simp [init], by simp [init]⟩
    rw [hglobal n hn]
    decide

end Deferral

end Th8
