import Th8.Command.Cases
import Th8.Namespace.FullName

/-!
# Failed creations

A creation of a command, a sub-command or a namespace that reports a failure leaves
everything that can be observed as it was, in every run that creates namespaces
cleanly.  The operations act on the namespaces as those of the namespace tree do.
-/

namespace Th8

open Support Option

section Restore

variable {t t' : NsTree}

theorem Restored.walk (h : t.Inv) (hr : Restored t t') {pNs : NsId} {ns : Namespace}
    (hns : t.namespaces pNs = some ns) (comps : List Bytes) :
    t'.walk pNs comps = t.walk pNs comps := by
  induction comps generalizing pNs ns with
  | nil => rfl
  | cons zComp rest ih =>
    have hns' : t'.namespaces pNs = some ns := (hr.old pNs (ForestInv.lt_nextNs h hns)).trans hns
    rcases hk : ns.paChild.lookup zComp with _ | c
    · simp only [NsTree.walk, hns, hns', hk]
    · obtain ⟨-, -, child, hc, -⟩ := h.child pNs ns zComp c hns hk
      simp only [NsTree.walk, hns, hns', hk]
      exact ih hc

theorem walkStart_allocated (h : t.Inv) {ns : Namespace}
    (hns : t.namespaces t.pCurrentNs = some ns) (zName : Bytes) :
    ∃ ns', t.namespaces (t.walkStart zName).1 = some ns' := by
  obtain ⟨g, hg, -⟩ := h.global
  unfold NsTree.walkStart
  split_ifs
  · exact ⟨g, hg⟩
  · exact ⟨g, hg⟩
  · exact ⟨ns, hns⟩

theorem Restored.findNamespace (h : t.Inv) (hr : Restored t t') {pNs : NsId}
    {ns : Namespace} (hns : t.namespaces pNs = some ns) (zName : Bytes) :
    NsTree.findNamespace { t' with pCurrentNs := pNs } zName =
      NsTree.findNamespace { t with pCurrentNs := pNs } zName := by
  obtain ⟨ns', hstart⟩ := walkStart_allocated (t := { t with pCurrentNs := pNs }) h hns zName
  have hr' : Restored { t with pCurrentNs := pNs } { t' with pCurrentNs := pNs } :=
    ⟨hr.old, hr.new, rfl, hr.nEvalDepth, hr.pendingNs, hr.nextNs⟩
  exact Restored.walk (t := { t with pCurrentNs := pNs }) h hr' hstart _

theorem CreateOutcome.allocated (h : t.Inv) {r : CreateResult} (hout : CreateOutcome t t' r)
    {x : NsId} {ns : Namespace} (hx : t.namespaces x = some ns) :
    ∃ ns', t'.namespaces x = some ns' := by
  have hlt : x < t.nextNs := ForestInv.lt_nextNs h hx
  match r, hout with
  | .found _ none, hout =>
    obtain ⟨rfl, -⟩ := hout
    exact ⟨ns, hx⟩
  | .found _ (some root), ⟨hg, _⟩ =>
    obtain ⟨p, r, k, hp, -, hp', hother⟩ := hg.under
    by_cases hxp : x = p
    · exact ⟨_, hxp ▸ hp'⟩
    · exact ⟨ns, (hother x hlt hxp).trans hx⟩
  | .failed _, hout => exact ⟨ns, (Restored.old hout x hlt).trans hx⟩

end Restore

namespace CmdInterp

/-! ## The namespaces of a run -/

def CleanName (s : CmdInterp) (zName : Bytes) : Prop :=
  ∀ zNs zTail, splitQualName zName = (some zNs, zTail) → s.toNsTree.CleanCreate zNs

def Op.CleanTree (s : CmdInterp) : Op → Prop
  | .createCommand _ zName _ => CleanName s zName
  | .renameCommand _ _ zNew => CleanName s zNew
  | .createNamespace _ zName => s.toNsTree.CleanCreate zName
  | _ => True

section Tree

variable {s s' : CmdInterp}

theorem commitCommand_toNsTree {pNs : NsId} {zTail zName : Bytes} {h : Handler}
    {pOld : Option CmdId} {r : CmdResult}
    (hrun : s.commitCommand pNs zTail zName h pOld = some (s', r)) :
    s'.toNsTree = s.toNsTree := by
  obtain ⟨-, ⟨-, rfl⟩ | ⟨c, old, s₁, -, -, h₁, rfl⟩⟩ := commitCommand_cases hrun
  · rfl
  · obtain ⟨-, -, -, htables, -⟩ := freeSubCommands_spec h₁
    obtain ⟨index, heq, -⟩ := removeCmdTokenEntry_eq s old
    exact htables.toNsTree.trans (by rw [heq])

theorem createIn_toNsTree {mem : CreateMemory} {pNs : NsId} {pCreatedNs : Option NsId}
    {zTail zName : Bytes} {h : Handler} {r : CmdResult}
    (hrun : s.createIn mem pNs pCreatedNs zTail zName h = some (s', r)) :
    s.toNsTree.rollback pCreatedNs = some s'.toNsTree ∨ s'.toNsTree = s.toNsTree := by
  obtain ⟨-, ⟨f, -, hout⟩ | hcommit⟩ := createIn_cases hrun
  · obtain ⟨t, ht, hmove, -⟩ := outOfMemory_cases hout
    rw [(moveTo_spec hmove).toNsTree]
    exact .inl ht
  · have hsame := commitCommand_toNsTree hcommit
    exact .inr hsame

theorem createSubCommand_toNsTree {mem : SubMemory} {zCmdName zSubName : Bytes}
    {h : Handler} {r : CmdResult}
    (hrun : s.createSubCommand mem zCmdName zSubName h = some (s', r)) :
    s'.toNsTree = s.toNsTree := by
  rcases createSubCommand_cases hrun with rfl | ⟨c, cmd, hc, hin⟩
  · rfl
  · rcases createSubIn_cases hc hin with ⟨-, rfl⟩ | ⟨-, ⟨pOld, old, -, -, rfl⟩ | ⟨-, rfl⟩⟩
    · rfl
    · obtain ⟨index, heq, -⟩ := removeSubTokenEntry_eq s old
      rw [heq]
      rfl
    · rfl

theorem deleteSubCommand_toNsTree {token : ℕ} {r : CmdResult}
    (hrun : s.deleteSubCommand token = some (s', r)) : s'.toNsTree = s.toNsTree := by
  rcases deleteSubCommand_cases hrun with rfl | ⟨pSub, sub, cmd, T, -, -, -, -, rfl⟩
  · rfl
  · obtain ⟨index, heq, -⟩ := removeSubTokenEntry_eq s sub
    rw [heq]
    rfl

theorem deleteEntry_toNsTree {pNs : NsId} {zTail : Bytes} {pData : Option CmdId}
    (hrun : s.deleteEntry pNs zTail pData = some s') : s'.toNsTree = s.toNsTree := by
  rcases deleteEntry_cases hrun with ⟨-, rfl⟩ | ⟨c, cmd, -, -, ⟨-, rfl⟩ | ⟨-, rfl⟩⟩
  · rfl
  · obtain ⟨index, heq, -⟩ := removeCmdTokenEntry_eq (s.removeEntry pNs zTail) cmd
    rw [heq]
    rfl
  · obtain ⟨index, heq, -⟩ := removeCmdTokenEntry_eq (s.removeEntry pNs zTail) cmd
    rw [heq]
    rfl

theorem moveEntry_toNsTree {mem : RenameMemory} {pNs pNewNs : NsId}
    {zTail zNewTail zNew : Bytes} {pData : Option CmdId} {r : CmdResult}
    (hrun : s.moveEntry mem pNs zTail pData pNewNs zNewTail zNew = some (s', r)) :
    s'.toNsTree = s.toNsTree := by
  rcases moveEntry_cases hrun with rfl | ⟨-, -, -, ⟨-, rfl⟩ | ⟨c, cmd, -, -, rfl⟩⟩
  · rfl
  · rfl
  · rfl

theorem renameCommand_toNsTree {mem : RenameMemory} {zOld zNew : Bytes} {r : CmdResult}
    (hrun : s.renameCommand mem zOld zNew = some (s', r)) :
    s'.toNsTree = s.toNsTree ∨ ∃ zNs zTail res, splitQualName zNew = (some zNs, zTail) ∧
      s.toNsTree.findNamespaceEx mem.namespaces zNs = some (s'.toNsTree, res) := by
  rcases renameCommand_cases hrun with
    rfl | ⟨pNs, ns, zTail, pData, -, -, -, -, ⟨-, hdel⟩ | ⟨-, s₁, _, _, hnew, hmove⟩⟩
  · exact .inl rfl
  · exact .inl (deleteEntry_toNsTree hdel)
  · rw [moveEntry_toNsTree hmove]
    rcases newEntryFor_cases hnew with ⟨rfl, -⟩ | ⟨zNs, t, root, hsplit, hfind, hmoveTo⟩
    · exact .inl rfl
    · rw [(moveTo_spec hmoveTo).toNsTree]
      exact .inr ⟨zNs, _, _, hsplit, hfind⟩

theorem replaceImported_toNsTree {mem : ImportMemory} {zName : Bytes} {pSrc : CmdId}
    {pOld : Option CmdId} {b : Bool}
    (hrun : s.replaceImported mem zName pSrc pOld = some (s', b)) :
    s'.toNsTree = s.toNsTree := by
  obtain ⟨s₁, hfree, ⟨-, -, rfl⟩ | ⟨-, -, src, -, rfl⟩⟩ := replaceImported_cases hrun
  · exact (freeCmdEntry_spec hfree).2.toNsTree
  · exact (freeCmdEntry_spec hfree).2.toNsTree

theorem importLoop_toNsTree {pSrcNs : NsId} {zImportPat : Bytes} {bForce : Bool}
    {mem : ℕ → ImportMemory} {names : List Bytes}
    (hrun : importLoop pSrcNs zImportPat bForce mem s names = some s') :
    s'.toNsTree = s.toNsTree := by
  induction names generalizing s with
  | nil =>
    obtain rfl : s = s' := by simpa [importLoop] using hrun
    rfl
  | cons zName rest ih =>
    rcases hcall : s.importCallback pSrcNs zImportPat bForce (mem rest.length) zName with
      _ | ⟨s₁, b⟩
    · simp [importLoop, hcall] at hrun
    · have h₁ : s₁.toNsTree = s.toNsTree := by
        rcases importCallback_cases hcall with
          ⟨-, rfl⟩ | ⟨pSrc, -, ⟨-, hreplace⟩ | ⟨pData, -, -, hreplace⟩⟩
        · rfl
        · have hsame := replaceImported_toNsTree hreplace
          exact hsame
        · exact replaceImported_toNsTree hreplace
      cases b with
      | false =>
        simp only [importLoop, hcall, some.injEq] at hrun
        exact hrun ▸ h₁
      | true =>
        simp only [importLoop, hcall] at hrun
        exact (ih hrun).trans h₁

/-- Every operation acts on the namespaces as an operation of the tree does, or not at
all. -/
theorem exists_nsOp {op : Op} (hran : Ran s s' op) :
    s'.toNsTree = s.toNsTree ∨ ∃ nop : NsOp, nop.run s.toNsTree = some s'.toNsTree ∧
      (op.CleanTree s → nop.Clean s.toNsTree) := by
  cases op with
  | createCommand mem zName h =>
    obtain ⟨r, hrun⟩ := hran
    rcases createCommand_cases hrun with ⟨-, -, hin⟩ |
      ⟨zNs, zTail, t, res, hsplit, hfind, ⟨e, rfl, hmove, -⟩ | ⟨pNs, root, s₁, rfl, hmove, hin⟩⟩
    · rcases createIn_toNsTree hin with hroll | hsame
      · exact .inl (some.inj hroll).symm
      · exact .inl hsame
    · refine .inr ⟨.create zNs mem.namespaces, ?_, fun hclean => hclean zNs zTail hsplit⟩
      rw [NsOp.run, hfind, (moveTo_spec hmove).toNsTree]
      rfl
    · rcases createIn_toNsTree hin with hroll | hsame
      · refine .inr ⟨.createThenFail zNs mem.namespaces, ?_, fun hclean => hclean zNs zTail hsplit⟩
        rw [(moveTo_spec hmove).toNsTree] at hroll
        simp only [NsOp.run, hfind, hroll]
      · refine .inr ⟨.create zNs mem.namespaces, ?_, fun hclean => hclean zNs zTail hsplit⟩
        rw [NsOp.run, hfind, hsame, (moveTo_spec hmove).toNsTree]
        rfl
  | createSubCommand mem zCmdName zSubName h =>
    exact .inl (createSubCommand_toNsTree hran.choose_spec)
  | deleteSubCommand token => exact .inl (deleteSubCommand_toNsTree hran.choose_spec)
  | renameCommand mem zOld zNew =>
    rcases renameCommand_toNsTree hran.choose_spec with hsame | ⟨zNs, zTail, res, hsplit, hfind⟩
    · exact .inl hsame
    · refine .inr ⟨.create zNs mem.namespaces, ?_, fun hclean => hclean zNs zTail hsplit⟩
      rw [NsOp.run, hfind]
      rfl
  | deleteCommand token =>
    obtain ⟨r, hrun⟩ := hran
    rcases deleteCommand_cases hrun with rfl | ⟨c, cmd, zName, -, -, -, hrename⟩
    · exact .inl rfl
    · rcases renameCommand_toNsTree hrename with hsame | ⟨zNs, zTail, res, hsplit, -⟩
      · exact .inl hsame
      · simp [splitQualName, lastSeparator] at hsplit
  | setCommandCopy zName xCopy =>
    rcases setCommandCopy_cases hran with rfl | ⟨c, cmd, -, rfl⟩
    · exact .inl rfl
    · exact .inl rfl
  | createNamespace mem zName =>
    obtain ⟨r, hrun⟩ := hran
    obtain ⟨t, hfind, hmove⟩ := createNamespace_cases hrun
    refine .inr ⟨.create zName mem, ?_, id⟩
    rw [NsOp.run, hfind, (moveTo_spec hmove).toNsTree]
    rfl
  | deleteNamespace zName granted =>
    obtain ⟨r, hrun⟩ := hran
    obtain ⟨t, s₁, hdel, hmove, hend⟩ := deleteNamespace_cases hrun
    have htree : s'.toNsTree = t := by
      rcases hend with rfl | ⟨s₂, z, hfree, rfl⟩
      · exact (moveTo_spec hmove).toNsTree
      · exact (freeCommandsOf_spec hfree).toNsTree.trans (moveTo_spec hmove).toNsTree
    refine .inr ⟨.delete zName granted, ?_, fun _ => trivial⟩
    rw [NsOp.run, hdel, htree]
    rfl
  | nsExport zNs zPattern blank pattern =>
    obtain ⟨r, hrun⟩ := hran
    obtain ⟨z, rfl⟩ := nsExport_cases hrun
    exact .inl rfl
  | nsImport mem zPattern bForce =>
    obtain ⟨r, hrun⟩ := hran
    rcases nsImport_cases hrun with ⟨rfl, -⟩ | ⟨_, _, _, _, -, -, -, -, hloop⟩
    · exact .inl rfl
    · exact .inl (importLoop_toNsTree hloop)
  | setCurrent pNs =>
    obtain ⟨hns, rfl⟩ := hran
    refine .inr ⟨.setCurrent pNs, ?_, fun _ => trivial⟩
    exact if_pos (isSome_iff_exists.mpr hns)
  | enterEval =>
    obtain rfl := hran
    exact .inr ⟨.enterEval, rfl, fun _ => trivial⟩
  | leaveEval =>
    refine .inr ⟨.leaveEval, ?_, fun _ => trivial⟩
    rcases hran with ⟨hdepth, hdrain⟩ | ⟨hdepth, rfl⟩
    · obtain ⟨s₁, t, hcmds, hns, hmove⟩ := drainPendingDeletes_cases hdrain
      rw [(foldlM_drainCommand_spec hcmds).2.toNsTree] at hns
      rw [NsOp.run, if_pos hdepth, (moveTo_spec hmove).toNsTree]
      exact hns
    · exact if_neg hdepth

end Tree

def CleanTreeStep (s : Option CmdInterp) (op : Op) : Prop :=
  ∀ s₁, s = some s₁ → op.CleanTree s₁

theorem reachable_treeInv {allowed : Option CmdInterp → Op → Prop}
    (hallowed : ∀ s op, allowed s op → CleanTreeStep s op) {s : CmdInterp}
    (hreach : ReachableBy step allowed (some .init) (some s)) : s.toNsTree.Inv := by
  refine hreach.invariant_some (I := fun s => s.toNsTree.Inv) init_inv (fun _ => rfl)
    fun s₁ op s₂ h hop hrun => ?_
  obtain ⟨⟨s₃, e⟩, hop', rfl⟩ := map_eq_some_iff.mp hrun
  rcases exists_nsOp (ran_of_run hop') with hsame | ⟨nop, hnop, hclean⟩
  · exact hsame ▸ h
  · exact (run_inv h (hclean (hallowed _ op hop s₁ rfl)) hnop).1

/-! ## What is observed -/

structure SameRecords (s s' : CmdInterp) : Prop where
  commands : s'.commands = s.commands
  subCommands : s'.subCommands = s.subCommands
  cmdToken : ∀ token, s'.cmdTokenEntry token = s.cmdTokenEntry token
  subToken : ∀ token, s'.subTokenEntry token = s.subTokenEntry token

theorem SameRecords.trans {s₁ s₂ s₃ : CmdInterp} (h₁₂ : SameRecords s₁ s₂)
    (h₂₃ : SameRecords s₂ s₃) : SameRecords s₁ s₃ :=
  ⟨h₂₃.commands.trans h₁₂.commands, h₂₃.subCommands.trans h₁₂.subCommands,
    fun token => (h₂₃.cmdToken token).trans (h₁₂.cmdToken token),
    fun token => (h₂₃.subToken token).trans (h₁₂.subToken token)⟩

def inNs (s : CmdInterp) (pNs : NsId) : CmdInterp :=
  { s with pCurrentNs := pNs }

/-- Nothing that can be observed has changed.  From every namespace, every name leads to
the namespace and to the command it led to, the tables of every namespace hold the same
commands, and so do the records and both token indexes. -/
structure Unchanged (s s' : CmdInterp) : Prop where
  pCurrentNs : s'.pCurrentNs = s.pCurrentNs
  findNamespace : ∀ pNs ns zName, s.namespaces pNs = some ns →
    (s'.inNs pNs).findNamespace zName = (s.inNs pNs).findNamespace zName
  lookupCommand : ∀ pNs ns zName c, s.namespaces pNs = some ns →
    (s.inNs pNs).lookupCommand zName = some (some c) →
      (s'.inNs pNs).lookupCommand zName = some (some c)
  entry : ∀ pNs ns k c, s.namespaces pNs = some ns →
    ((s'.paCmd pNs).lookup k = some (some c) ↔ (s.paCmd pNs).lookup k = some (some c))
  records : SameRecords s s'

section Undo

variable {s s' : CmdInterp} {t : NsTree}

theorem unchanged_of_restored (h : s.toNsTree.Inv) (hr : Restored s.toNsTree s'.toNsTree)
    (hf : ∀ pNs, pNs < s.nextNs → ∀ l, (s'.paCmd pNs).lookup l = (s.paCmd pNs).lookup l ∨
      (s'.paCmd pNs).lookup l = none ∧ (s.paCmd pNs).lookup l = some none)
    (hsame : SameRecords s s') : Unchanged s s' := by
  have hentry : ∀ {pNs ns k c}, s.namespaces pNs = some ns →
      ((s'.paCmd pNs).lookup k = some (some c) ↔ (s.paCmd pNs).lookup k = some (some c)) := by
    intro pNs ns k c hns
    rcases hf pNs (ForestInv.lt_nextNs h hns) k with heq | ⟨hnone, hnull⟩
    · rw [heq]
    · simp [hnone, hnull]
  have hold : ∀ {pNs ns}, s.namespaces pNs = some ns → s'.namespaces pNs = some ns :=
    fun hns => (hr.old _ (ForestInv.lt_nextNs h hns)).trans hns
  refine ⟨hr.pCurrentNs, ?_, ?_, fun pNs ns k c hns => hentry hns, hsame⟩
  · intro pNs ns zName hns
    exact hr.findNamespace h hns zName
  · intro pNs ns zName c hns hlook
    have hfind : ∀ zName, (s'.inNs pNs).findNamespace zName =
        (s.inNs pNs).findNamespace zName := hr.findNamespace h hns
    unfold CmdInterp.lookupCommand at hlook ⊢
    rcases hsplit : splitQualName zName with ⟨_ | zNs, zTail⟩
    · obtain ⟨g, hg, -⟩ := h.global
      have hcur : (s.inNs pNs).cmdTable (s.inNs pNs).pCurrentNs = some (s.paCmd pNs) := by
        simp [cmdTable, inNs, hns]
      have hglob : (s.inNs pNs).cmdTable globalNs = some (s.paCmd globalNs) := by
        simp [cmdTable, inNs, hg]
      have hcur' : (s'.inNs pNs).cmdTable (s'.inNs pNs).pCurrentNs = some (s'.paCmd pNs) := by
        simp [cmdTable, inNs, hold hns]
      have hglob' : (s'.inNs pNs).cmdTable globalNs = some (s'.paCmd globalNs) := by
        simp [cmdTable, inNs, hold hg]
      simp only [hsplit, hcur, hglob] at hlook
      simp only [hcur', hglob']
      rcases hk : (s.paCmd pNs).lookup zName with _ | e
      · have hk' : (s'.paCmd pNs).lookup zName = none := by
          rcases hf pNs (ForestInv.lt_nextNs h hns) zName with heq | ⟨hnone, -⟩
          · exact heq.trans hk
          · exact hnone
        simp only [hk, some.injEq] at hlook
        have := (hentry hg).mpr (join_eq_some_iff.mp hlook)
        simp only [hk', this, join_some]
      · simp only [hk, some.injEq] at hlook
        subst hlook
        simp only [(hentry hns).mpr hk]
    · simp only [hsplit] at hlook ⊢
      rw [hfind]
      rcases hz : (s.inNs pNs).findNamespace zNs with _ | _ | x
      · simp [hz] at hlook
      · simp [hz] at hlook
      · rcases hx : s.namespaces x with _ | nx
        · have hxt : (s.inNs pNs).cmdTable x = none := by simp [cmdTable, inNs, hx]
          simp [hz, hxt] at hlook
        · have hxt : (s.inNs pNs).cmdTable x = some (s.paCmd x) := by
            simp [cmdTable, inNs, hx]
          have hxt' : (s'.inNs pNs).cmdTable x = some (s'.paCmd x) := by
            simp [cmdTable, inNs, hold hx]
          simp only [hz, hxt, map_some, some.injEq] at hlook
          have := (hentry hx).mpr (join_eq_some_iff.mp hlook)
          simp [hxt', this]

theorem sameRecords_of_moveTo (hmove : s.moveTo t = some s')
    (hnone : ∀ x k c, x ∈ s.releasedNs t → (s.paCmd x).lookup k ≠ some (some c)) :
    SameRecords s s' := by
  have hr := (moveTo_spec hmove).released
  have hC : ∀ c, ¬s.InTableOf (s.releasedNs t) c := by
    rintro c ⟨x, k, hx, hk⟩
    exact hnone x k c hx hk
  have hD : ∀ r, ¬OwnedBy s (s.InTableOf (s.releasedNs t)) r := by
    rintro r ⟨c, k, hc, -⟩
    exact hC c hc
  refine ⟨funext fun c => (hr.commands c).2 (hC c),
    funext fun r => (hr.freed.subCommands r).2 (hD r), fun token => ?_, fun token => ?_⟩
  · exact hr.cmdTokens token fun c _ hc => absurd hc (hC c)
  · exact hr.freed.kept token fun r _ hr => absurd hr (hD r)

section

variable (h : s.toNsTree.Inv)

include h

theorem moveTo_of_outcome {r : CreateResult}
    (hout : CreateOutcome s.toNsTree t r) (hmove : s.moveTo t = some s') :
    SameRecords s s' ∧ (∀ x, x < s.nextNs → s'.paCmd x = s.paCmd x) ∧
      ∀ x, s.nextNs ≤ x → s'.paCmd x = ∅ := by
  have hnone : ∀ x, x ∉ s.releasedNs t := by
    intro x hx
    obtain ⟨-, ⟨ns, hns⟩, hgone⟩ := mem_releasedNs.mp hx
    obtain ⟨ns', hns'⟩ := CreateOutcome.allocated h hout hns
    simp [hgone] at hns'
  refine ⟨sameRecords_of_moveTo hmove fun x _ _ hx => absurd hx (hnone x), ?_, ?_⟩
  · intro x hx
    rw [(moveTo_spec hmove).paCmd, if_pos ⟨hx, hnone x⟩]
  · intro x hx
    rw [(moveTo_spec hmove).paCmd, if_neg fun hlt => Nat.not_lt.mpr hx hlt.1]

theorem createIn_failed {s₁ : CmdInterp} (h₁ : s₁.toNsTree.Inv)
    {pNs : NsId} {root : Option NsId}
    (hout : CreateOutcome s.toNsTree s₁.toNsTree (.found pNs root))
    (hsame : SameRecords s s₁) (hold : ∀ x, x < s.nextNs → s₁.paCmd x = s.paCmd x)
    (hnew : ∀ x ns, s.nextNs ≤ x → s₁.namespaces x = some ns → s₁.paCmd x = ∅)
    {mem : CreateMemory} {zTail zName : Bytes} {handler : Handler} {e : Failure}
    (hrun : s₁.createIn mem pNs root zTail zName handler = some (s', .error e)) :
    Unchanged s s' := by
  have hlater := CreateOutcome.later h hout
  obtain ⟨-, ⟨f, hf, hfail⟩ | hcommit⟩ := createIn_cases hrun
  · obtain ⟨t, ht, hmove, -⟩ := outOfMemory_cases hfail
    obtain ⟨t', ht', -, hr⟩ := CreateOutcome.rollback h h₁ hout
    obtain rfl : t = t' := some.inj (ht.symm.trans ht')
    have hmoved := moveTo_spec hmove
    have hreleased : ∀ x, x ∈ releasedNs { s₁ with paCmd := f } t → s.nextNs ≤ x := by
      intro x hx
      obtain ⟨-, ⟨ns, hns⟩, hgone⟩ := mem_releasedNs.mp hx
      by_contra hlt
      have hlt := Nat.lt_of_not_le hlt
      have hnone : s.namespaces x = none := (hr.old x hlt).symm.trans hgone
      have hgone₁ : s₁.namespaces x = none := hlater.released x hlt hnone
      exact absurd (hgone₁.symm.trans hns) (by simp)
    have hsame₂ : SameRecords { s₁ with paCmd := f } s' := by
      refine sameRecords_of_moveTo hmove fun x k c hx hk => ?_
      obtain ⟨-, ⟨ns, hns⟩, -⟩ := mem_releasedNs.mp hx
      have hk : (f x).lookup k = some (some c) := hk
      rcases hf x k with heq | ⟨hnone, -⟩
      · rw [hnew x ns (hreleased x hx) hns, hk] at heq
        simp at heq
      · simp [hnone] at hk
    have hsame₁ : SameRecords s₁ { s₁ with paCmd := f } := ⟨rfl, rfl, fun _ => rfl, fun _ => rfl⟩
    refine unchanged_of_restored h (hmoved.toNsTree ▸ hr) ?_ ((hsame.trans hsame₁).trans hsame₂)
    intro x hx l
    have hkept : s'.paCmd x = f x := by
      rw [hmoved.paCmd, if_pos]
      exact ⟨Nat.lt_of_lt_of_le hx hlater.nextNs, fun hmem => Nat.not_lt.mpr (hreleased x hmem) hx⟩
    rw [hkept, ← hold x hx]
    exact hf x l
  · exact absurd (commitCommand_cases hcommit).1 (by simp)

theorem createCommand_failed {mem : CreateMemory} {zName : Bytes}
    {handler : Handler} {e : Failure} (hclean : CleanName s zName)
    (hrun : s.createCommand mem zName handler = some (s', .error e)) : Unchanged s s' := by
  rcases createCommand_cases hrun with ⟨-, -, hin⟩ | ⟨zNs, zTail, t, res, hsplit, hfind, hend⟩
  · have hout : CreateOutcome s.toNsTree s.toNsTree (.found s.pCurrentNs none) :=
      ⟨rfl, (createIn_cases hin).1⟩
    refine createIn_failed h h hout ⟨rfl, rfl, fun _ => rfl, fun _ => rfl⟩
      (fun _ _ => rfl) (fun x ns hx hns => ?_) hin
    exact absurd ((ForestInv.fresh h x hx).symm.trans hns) (by simp)
  · obtain ⟨hinv, hout⟩ := NsTree.Inv.findNamespaceEx h (hclean zNs zTail hsplit) hfind
    rcases hend with ⟨e, rfl, hmove, -⟩ | ⟨pNs, root, s₁, rfl, hmove, hin⟩
    · obtain ⟨hsame, hold, -⟩ := moveTo_of_outcome h hout hmove
      refine unchanged_of_restored h ((moveTo_spec hmove).toNsTree ▸ hout) ?_ hsame
      exact fun x hx l => .inl (by rw [hold x hx])
    · obtain ⟨hsame, hold, hnew⟩ := moveTo_of_outcome h hout hmove
      have htree := (moveTo_spec hmove).toNsTree
      exact createIn_failed h (htree ▸ hinv) (htree ▸ hout) hsame hold
        (fun x _ hx _ => hnew x hx) hin

theorem createNamespace_failed {mem : ℕ → ChildMemory}
    {zName : Bytes} {e : Failure} (hclean : s.toNsTree.CleanCreate zName)
    (hrun : s.createNamespace mem zName = some (s', .failed e)) : Unchanged s s' := by
  obtain ⟨t, hfind, hmove⟩ := createNamespace_cases hrun
  obtain ⟨hinv, hout⟩ := NsTree.Inv.findNamespaceEx h hclean hfind
  obtain ⟨hsame, hold, -⟩ := moveTo_of_outcome h hout hmove
  refine unchanged_of_restored h ((moveTo_spec hmove).toNsTree ▸ hout) ?_ hsame
  exact fun x hx l => .inl (by rw [hold x hx])

theorem createSubCommand_failed {mem : SubMemory}
    {zCmdName zSubName : Bytes} {handler : Handler} {e : Failure}
    (hrun : s.createSubCommand mem zCmdName zSubName handler = some (s', .error e)) :
    Unchanged s s' := by
  have hsame : s' = s := by
    rcases createSubCommand_cases hrun with hsame | ⟨c, cmd, hc, hin⟩
    · exact hsame
    · rcases createSubIn_cases hc hin with ⟨-, hsame⟩ | ⟨hok, -⟩
      · exact hsame
      · exact absurd hok (by simp)
  subst hsame
  exact unchanged_of_restored h (.refl h) (fun _ _ _ => .inl rfl)
    ⟨rfl, rfl, fun _ => rfl, fun _ => rfl⟩

end

end Undo

/-! ## Runs -/

def Op.Creates : Op → Prop
  | .createCommand .. => True
  | .createSubCommand .. => True
  | .createNamespace .. => True
  | _ => False

theorem reported_failed {s : CmdInterp} {r : CmdInterp × CmdResult} {e : Failure}
    (h : Op.run.reported r = (s, some e)) : r = (s, .error e) := by
  obtain ⟨s₁, res⟩ := r
  cases res with
  | error e' =>
    obtain ⟨rfl, heq⟩ := Prod.mk.inj h
    rw [some.inj heq]
  | _ => exact absurd (congrArg Prod.snd h) (by simp [Op.run.reported])

/-- In every run of clean operations, a clean creation that reports a failure leaves
everything as it was. -/
theorem unchanged_of_failed {s s' : CmdInterp}
    (hreach : ReachableBy step CleanTreeStep (some .init) (some s)) {op : Op}
    (hop : op.Creates) (hclean : op.CleanTree s) {e : Failure}
    (hrun : op.run s = some (s', some e)) : Unchanged s s' := by
  have h : s.toNsTree.Inv := reachable_treeInv (fun _ _ hop => hop) hreach
  cases op with
  | createCommand mem zName handler =>
    obtain ⟨r, hr, heq⟩ := map_eq_some_iff.mp hrun
    exact createCommand_failed h hclean (reported_failed heq ▸ hr)
  | createSubCommand mem zCmdName zSubName handler =>
    obtain ⟨r, hr, heq⟩ := map_eq_some_iff.mp hrun
    exact createSubCommand_failed h (reported_failed heq ▸ hr)
  | createNamespace mem zName =>
    obtain ⟨⟨s₁, r⟩, hr, heq⟩ := map_eq_some_iff.mp hrun
    cases r with
    | found pNs root => exact absurd (congrArg Prod.snd heq) (by simp)
    | failed e' =>
      obtain rfl : s₁ = s' := congrArg Prod.fst heq
      exact createNamespace_failed h hclean hr
  | _ => exact hop.elim

theorem cleanName_init_qualified : CleanName .init (ascii "n::x") := by
  intro zNs zTail hsplit
  have hparts : splitQualName (ascii "n::x") = (some (ascii "n"), ascii "x") := by
    decide +kernel
  obtain rfl : ascii "n" = zNs := by
    rw [hparts, Prod.mk.injEq, some.injEq] at hsplit
    exact hsplit.1
  have hstart : NsTree.init.walkStart (ascii "n") = (globalNs, [ascii "n"]) := by
    decide +kernel
  have hnul : ∀ c ∈ [ascii "n"], 0 ∉ c := by decide +kernel
  change NsTree.CleanWalk _ (NsTree.init.walkStart (ascii "n")).1 _
  rw [hstart]
  exact ⟨.inl rfl, hnul⟩

def recordRefused : CreateMemory :=
  ⟨fun _ => ⟨true, true, true, true, true, true⟩, true, false, true, true, true⟩

theorem unchanged_of_failed_qualified :
    ∃ s', Op.run .init (.createCommand recordRefused (ascii "n::x") ⟨1, 0, 0⟩) =
      some (s', some (.static "out of memory")) ∧ Unchanged .init s' := by
  have hrun : (Op.run .init (.createCommand recordRefused (ascii "n::x") ⟨1, 0, 0⟩)).map
      Prod.snd = some (some (.static "out of memory")) := by decide +kernel
  obtain ⟨⟨s', e⟩, hs', rfl⟩ := map_eq_some_iff.mp hrun
  let op : Op := .createCommand recordRefused (ascii "n::x") ⟨1, 0, 0⟩
  exact ⟨s', hs', unchanged_of_failed .init (show Op.Creates op from trivial)
    cleanName_init_qualified hs'⟩

/-- The namespace `:b` inside `a:`, which is current. -/
def colonChild : List Op :=
  [.createNamespace (fun _ => ⟨true, true, true, true, true, true⟩) (ascii "a:"), .setCurrent 1,
    .createNamespace (fun _ => ⟨true, true, true, true, true, true⟩) (ascii ":b")]

/-- A command `b::x` that cannot be made there takes the namespace `:b` out of its
table. -/
theorem failed_create_unlinks :
    ¬∀ s, Reachable step (some .init) (some s) → ∀ op : Op, op.Creates → ∀ s' e,
      op.run s = some (s', some e) → Unchanged s s' := by
  intro hall
  let op : Op := .createCommand recordRefused (ascii "b::x") ⟨1, 0, 0⟩
  obtain ⟨s, hs⟩ : ∃ s, runAll colonChild = some s := isSome_iff_exists.mp (by decide +kernel)
  have hrun : (runAll colonChild).bind (fun s => (op.run s).map Prod.snd) =
      some (some (.static "out of memory")) := by decide +kernel
  have hbefore : (runAll colonChild).map (fun s =>
      ((s.namespaces 1).isSome, (s.inNs 1).findNamespace (ascii ":b"))) =
      some (true, some (some 2)) := by decide +kernel
  have hafter : ((runAll colonChild).bind fun s => op.run s).map (fun r =>
      (r.1.inNs 1).findNamespace (ascii ":b")) = some (some none) := by decide +kernel
  rw [hs, bind_some] at hrun hafter
  rw [hs, map_some, some.injEq, Prod.mk.injEq] at hbefore
  obtain ⟨⟨s', e⟩, hs', he⟩ := map_eq_some_iff.mp hrun
  obtain rfl : e = some (.static "out of memory") := he
  obtain ⟨ns, hns⟩ := isSome_iff_exists.mp hbefore.1
  have hreach : Reachable step (some .init) (some s) := hs ▸ reachable_foldl _ _ _
  have hsame := (hall s hreach op trivial s' _ hs').findNamespace 1 ns (ascii ":b") hns
  rw [hs', map_some, some.injEq] at hafter
  rw [hafter, hbefore.2] at hsame
  simp at hsame

end CmdInterp

end Th8
