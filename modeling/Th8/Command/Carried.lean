import Mathlib
import Th8.Command.ProcDefns
import Th8.Namespace.Growth

/-!
# Commands that are carried over

The operations that release no namespace only make namespaces, leave the functions and the
contexts of the commands alone, except for the commands that they make, and destroy no
commands but those they are told to.
-/

namespace Th8

open Support Nat
open Function (update update_of_ne update_self)

namespace CmdInterp

/-- What has happened since `s₀`: namespaces were made, the records satisfy `M`, and
those of `s₀` have kept their contexts if they are not in `R`. -/
structure Carried (s₀ : CmdInterp) (M : Pointer → Pointer → Pointer → Prop)
    (R : CmdId → Prop) (s : CmdInterp) : Prop where
  tree : NsTree.Beyond s₀.nextNs s₀.toNsTree s.toNsTree
  record : ∀ c cmd, s.commands c = some cmd → M cmd.xProc cmd.pContext cmd.xCopy
  kept : ∀ c cmd, s₀.commands c = some cmd → R c ∨ ∃ cmd', s.commands c = some cmd' ∧
    cmd'.xDel = cmd.xDel ∧ cmd'.pContext = cmd.pContext
  unused : ∀ c, s.nextCmd ≤ c → s.commands c = none

def Makes (M : Pointer → Pointer → Pointer → Prop) (handler : Handler) : Prop :=
  M handler.xProc handler.pContext 0 ∧ ∀ x p k, M x p k → M handler.xProc handler.pContext k

def Copies (s : CmdInterp) (mem : ImportMemory) (pSrc : CmdId)
    (xProc pContext xCopy : Pointer) : Prop :=
  ∃ src, s.commands pSrc = some src ∧ xProc = src.xProc ∧
    pContext = (importedCommand mem src).pContext ∧ xCopy = src.xCopy

namespace Carried

variable {s₀ s s' : CmdInterp} {M : Pointer → Pointer → Pointer → Prop} {R : CmdId → Prop}

theorem refl (hfresh : s.toNsTree.Fresh) (hpos : globalNs < s.nextNs)
    (hM : ∀ c cmd, s.commands c = some cmd → M cmd.xProc cmd.pContext cmd.xCopy)
    (hunused : ∀ c, s.nextCmd ≤ c → s.commands c = none) : Carried s M R s :=
  ⟨.refl hfresh hpos, hM, fun _ cmd hc => .inr ⟨cmd, hc, rfl, rfl⟩, hunused⟩

theorem mono (h : Carried s₀ M R s) {M' : Pointer → Pointer → Pointer → Prop}
    (hM : ∀ x p k, M x p k → M' x p k) : Carried s₀ M' R s :=
  ⟨h.tree, fun c cmd hc => hM _ _ _ (h.record c cmd hc), h.kept, h.unused⟩

variable {c : CmdId} {cmd : CommandRecord}

section

variable (h : Carried s₀ M R s)

include h

theorem lt_nextCmd (hc : s.commands c = some cmd) : c < s.nextCmd := by
  by_contra hge
  rw [h.unused c (Nat.le_of_not_lt hge)] at hc
  cases hc

theorem released {C : CmdId → Prop} (hr : Released s s' C)
    (htree : NsTree.Beyond s₀.nextNs s₀.toNsTree s'.toNsTree) (hR : ∀ c, C c → R c) :
    Carried s₀ M R s' := by
  refine ⟨htree, fun c cmd hc => ?_, fun c cmd hc => ?_, fun c hc => ?_⟩
  · by_cases hC : C c
    · rw [(hr.commands c).1 hC] at hc
      cases hc
    · exact h.record c cmd (((hr.commands c).2 hC).symm.trans hc)
  · rcases h.kept c cmd hc with hRc | ⟨cmd', hc', hsame⟩
    · exact .inl hRc
    · by_cases hC : C c
      · exact .inl (hR c hC)
      · exact .inr ⟨cmd', ((hr.commands c).2 hC).trans hc', hsame⟩
  · rw [hr.counters.nextCmd] at hc
    by_cases hC : C c
    · exact (hr.commands c).1 hC
    · exact ((hr.commands c).2 hC).trans (h.unused c hc)

theorem write (htree : s'.toNsTree = s.toNsTree)
    (hcommands : s'.commands = update s.commands c (some cmd))
    (hM : M cmd.xProc cmd.pContext cmd.xCopy)
    (hR : ∀ old, s.commands c = some old → R c ∨ old.xDel = cmd.xDel ∧ old.pContext = cmd.pContext)
    (hnext : s.nextCmd ≤ s'.nextCmd) (hc : c < s'.nextCmd) : Carried s₀ M R s' := by
  refine ⟨htree ▸ h.tree, fun x cmdx hx => ?_, fun x cmdx hx => ?_, fun x hx => ?_⟩
  · rw [hcommands] at hx
    by_cases hxc : x = c
    · subst hxc
      rw [update_self, Option.some.injEq] at hx
      exact hx ▸ hM
    · rw [update_of_ne hxc] at hx
      exact h.record x cmdx hx
  · rcases h.kept x cmdx hx with hRx | ⟨cmd', hx', hdel, hcontext⟩
    · exact .inl hRx
    · by_cases hxc : x = c
      · subst hxc
        rcases hR cmd' hx' with hRx | hsame
        · exact .inl hRx
        · refine .inr ⟨cmd, ?_, hsame.1.symm.trans hdel, hsame.2.symm.trans hcontext⟩
          rw [hcommands, update_self]
      · refine .inr ⟨cmd', ?_, hdel, hcontext⟩
        rw [hcommands, update_of_ne hxc]
        exact hx'
  · rw [hcommands, update_of_ne (ne_of_gt (lt_of_lt_of_le hc hx))]
    exact h.unused x (le_trans hnext hx)

theorem rewrite {old : CommandRecord} (hc : s.commands c = some old)
    (htree : s'.toNsTree = s.toNsTree) (hcommands : s'.commands = update s.commands c (some cmd))
    (hnext : s'.nextCmd = s.nextCmd) (hM : M cmd.xProc cmd.pContext cmd.xCopy)
    (hdel : old.xDel = cmd.xDel) (hcontext : old.pContext = cmd.pContext) :
    Carried s₀ M R s' := by
  refine h.write htree hcommands hM (fun old' hold => .inr ?_) (le_of_eq hnext.symm)
    (hnext ▸ h.lt_nextCmd hc)
  obtain rfl := Option.some.inj (hc.symm.trans hold)
  exact ⟨hdel, hcontext⟩

theorem of_fields (htree : s'.toNsTree = s.toNsTree)
    (hcommands : s'.commands = s.commands) (hnext : s'.nextCmd = s.nextCmd) :
    Carried s₀ M R s' :=
  ⟨htree ▸ h.tree, hcommands ▸ h.record, hcommands ▸ h.kept, by
    rw [hcommands, hnext]
    exact h.unused⟩

theorem moveTo {t : NsTree} (ht : NsTree.Beyond s₀.nextNs s₀.toNsTree t)
    (hR : ∀ c, s.InTableOf (s.releasedNs t) c → R c) (hrun : s.moveTo t = some s') :
    Carried s₀ M R s' := by
  have hspec := moveTo_spec hrun
  exact h.released hspec.released (hspec.toNsTree.symm ▸ ht) hR

end

theorem moveTo_first (h : Carried s M R s) {t : NsTree}
    (ht : NsTree.Beyond s.nextNs s.toNsTree t) (hrun : s.moveTo t = some s') :
    Carried s M R s' := by
  refine h.moveTo ht ?_ hrun
  rintro c ⟨x, k, hx, -⟩
  obtain ⟨hlt, ⟨ns, hns⟩, hnone⟩ := mem_releasedNs.mp hx
  obtain ⟨ns', hns'⟩ := ht.old x ns hlt hns
  rw [hnone] at hns'
  cases hns'

variable {r : CmdResult}

section

variable (h : Carried s₀ M R s)

include h

theorem outOfMemory {root : Option NsId} (hroot : ∀ q ∈ root, s₀.nextNs ≤ q)
    (hblank : ∀ x k c, s₀.nextNs ≤ x → (s.paCmd x).lookup k ≠ some (some c))
    (hrun : s.outOfMemory root = some (s', r)) : Carried s₀ M R s' := by
  obtain ⟨t, ht, hmove, -⟩ := outOfMemory_cases hrun
  refine h.moveTo (h.tree.rollback hroot ht) ?_ hmove
  rintro c ⟨x, k, hx, hk⟩
  obtain ⟨-, ⟨ns, hns⟩, hnone⟩ := mem_releasedNs.mp hx
  refine absurd hk (hblank x k c (Nat.le_of_not_lt fun hlt => ?_))
  obtain ⟨ns', hns'⟩ := (h.tree.self.rollback hroot ht).old x ns hlt hns
  rw [hnone] at hns'
  cases hns'

theorem removeCmdTokenEntry (cmd : CommandRecord) : Carried s₀ M R (s.removeCmdTokenEntry cmd) := by
  obtain ⟨index, heq, -⟩ := removeCmdTokenEntry_eq s cmd
  rw [heq]
  exact h.of_fields rfl rfl rfl

theorem removeSubTokenEntry (sub : SubCommand) : Carried s₀ M R (s.removeSubTokenEntry sub) := by
  obtain ⟨index, heq, -⟩ := removeSubTokenEntry_eq s sub
  rw [heq]
  exact h.of_fields rfl rfl rfl

end

variable {pNs : NsId} {zTail zName : Bytes} {handler : Handler}

theorem commitCommand (h : Carried s₀ M R s) {pOld : Option CmdId} (hM : Makes M handler)
    (hR : ∀ c, pOld = some c → R c)
    (hrun : s.commitCommand pNs zTail zName handler pOld = some (s', r)) :
    Carried s₀ M R s' := by
  obtain ⟨-, ⟨rfl, rfl⟩ | ⟨c, old, s₁, rfl, hc, hfree, rfl⟩⟩ := commitCommand_cases hrun
  · refine h.write rfl rfl hM.1 (fun old hold => ?_) (le_succ _) (lt_succ_self _)
    rw [h.unused _ (le_refl _)] at hold
    cases hold
  · obtain ⟨index, heq, -⟩ := removeCmdTokenEntry_eq s old
    rw [heq] at hfree
    obtain ⟨cmd, -, hcount, htables, hcommands, -, -⟩ := freeSubCommands_spec hfree
    have hwrite : (s₁.publish pNs zTail c (s.newCommand (some old) zName handler pNs)).commands =
        update s.commands c (some (s.newCommand (some old) zName handler pNs)) := by
      change update s₁.commands c _ = _
      rw [hcommands, Function.update_idem]
    have hnext : s₁.nextCmd = s.nextCmd := hcount.nextCmd
    refine h.write htables.toNsTree hwrite (hM.2 _ _ _ (h.record c old hc))
      (fun _ _ => .inl (hR c rfl)) (le_of_eq hnext.symm) ?_
    exact lt_of_lt_of_eq (h.lt_nextCmd hc) hnext.symm

theorem createIn (h : Carried s₀ M R s) {mem : CreateMemory} {root : Option NsId}
    (hroot : ∀ q ∈ root, s₀.nextNs ≤ q)
    (hblank : root ≠ none → ∀ x k c, s₀.nextNs ≤ x → (s.paCmd x).lookup k ≠ some (some c))
    (hM : Makes M handler) (hR : ∀ c, (s.paCmd pNs).lookup zTail = some (some c) → R c)
    (hrun : s.createIn mem pNs root zTail zName handler = some (s', r)) :
    Carried s₀ M R s' := by
  obtain ⟨-, ⟨f, hf, hout⟩ | hcommit⟩ := createIn_cases hrun
  · have hundone : Carried s₀ M R { s with paCmd := f } := h.of_fields rfl rfl rfl
    rcases hroot' : root with _ | q
    · -- Nothing has been made, and nothing goes.
      obtain ⟨t, ht, hmove, -⟩ := outOfMemory_cases (hroot' ▸ hout)
      cases ht
      refine hundone.moveTo hundone.tree ?_ hmove
      rintro c ⟨x, k, hx, -⟩
      obtain ⟨-, ⟨ns, hns⟩, hnone⟩ := mem_releasedNs.mp hx
      exact absurd (hns.symm.trans hnone) (by simp)
    · refine hundone.outOfMemory hroot (fun x k c hx hk => ?_) hout
      rcases hf x k with heq | ⟨hnone, -⟩
      · exact hblank (by simp [hroot']) x k c hx (heq ▸ hk)
      · exact absurd (hnone.symm.trans hk) (by simp)
  · have hentered : Carried s₀ M R (s.withCmdToken.setEntry pNs zTail
        ((s.paCmd pNs).lookup zTail).join) := h.of_fields rfl rfl rfl
    exact hentered.commitCommand hM (fun c hc => hR c (Option.join_eq_some_iff.mp hc)) hcommit

theorem createCommand (h : Carried s M R s) {mem : CreateMemory} (hM : Makes M handler)
    (hR : ∀ c, s.commandAt zName = some c → R c)
    (hrun : s.createCommand mem zName handler = some (s', r)) : Carried s M R s' := by
  rcases createCommand_cases hrun with
    ⟨zTail, hsplit, hin⟩ | ⟨zNs, zTail, t, res, hsplit, hfind, hrest⟩
  · refine h.createIn (fun _ hq => by cases hq) (fun hne => absurd rfl hne) hM
      (fun c hc => hR c ?_) hin
    simp [commandAt, resolveEntry, hsplit, hc]
  · obtain ⟨htree, hroot⟩ := h.tree.findNamespaceEx hfind
    rcases hrest with ⟨e, -, hmove, -⟩ | ⟨pNs, root, s₁, rfl, hmove, hin⟩
    · exact h.moveTo_first htree hmove
    · have hspec := moveTo_spec hmove
      have hblank : ∀ x k c, s.nextNs ≤ x → (s₁.paCmd x).lookup k ≠ some (some c) := by
        intro x k c hx
        rw [hspec.paCmd, if_neg fun hold => Nat.not_le_of_lt hold.1 hx]
        simp
      refine (h.moveTo_first htree hmove).createIn (hroot pNs root rfl) (fun _ => hblank) hM
        (fun c hc => ?_) hin
      rcases h.tree.createWalk_found hfind with ⟨rfl, -, hwalk⟩ | hmade
      · refine hR c ?_
        have hold : (s.paCmd pNs).lookup zTail = some (some c) := by
          rw [hspec.paCmd] at hc
          split_ifs at hc
          · exact hc
          · simp at hc
        have hfound : s.findNamespace zNs = some (some pNs) := hwalk
        simp [commandAt, resolveEntry, hsplit, hfound, hold]
      · exact absurd hc (hblank pNs zTail c hmade)

section

variable (h : Carried s₀ M R s)

include h

theorem createSubCommand {mem : SubMemory} {zCmdName zSubName : Bytes}
    (hrun : s.createSubCommand mem zCmdName zSubName handler = some (s', r)) :
    Carried s₀ M R s' := by
  rcases createSubCommand_cases hrun with rfl | ⟨c, cmd, hc, hin⟩
  · exact h
  · have hM := h.record c cmd hc
    rcases createSubIn_cases hc hin with ⟨-, rfl⟩ | ⟨-, ⟨pOld, old, -, -, rfl⟩ | ⟨-, rfl⟩⟩
    · exact h
    · have htoken := h.removeSubTokenEntry old
      obtain ⟨index, heq, -⟩ := removeSubTokenEntry_eq s old
      rw [heq] at htoken ⊢
      exact htoken.rewrite hc rfl rfl rfl hM rfl rfl
    · have hnext : Carried s₀ M R { s with nextSub := s.nextSub + 1 } := h.of_fields rfl rfl rfl
      exact hnext.rewrite hc rfl rfl rfl hM rfl rfl

/-! ## Changes to what is there -/

theorem deleteSubCommand {token : ℕ}
    (hrun : s.deleteSubCommand token = some (s', r)) : Carried s₀ M R s' := by
  rcases deleteSubCommand_cases hrun with rfl | ⟨pSub, sub, cmd, T, -, -, hc, -, rfl⟩
  · exact h
  · obtain ⟨index, heq, -⟩ := removeSubTokenEntry_eq s sub
    rw [heq]
    exact h.rewrite hc rfl rfl rfl (h.record _ cmd hc) rfl rfl

theorem deleteEntry {pData : Option CmdId} (hR : s.nEvalDepth = 0 → ∀ c, pData = some c → R c)
    (hrun : s.deleteEntry pNs zTail pData = some s') : Carried s₀ M R s' := by
  have hremoved : Carried s₀ M R (s.removeEntry pNs zTail) := h.of_fields rfl rfl rfl
  rcases deleteEntry_cases hrun with ⟨-, rfl⟩ | ⟨c, cmd, hpData, hc, ⟨-, rfl⟩ | ⟨hzero, rfl⟩⟩
  · exact hremoved
  · exact (hremoved.removeCmdTokenEntry cmd).of_fields rfl rfl rfl
  · have htoken := hremoved.removeCmdTokenEntry cmd
    refine ⟨htoken.tree, fun x cmdx hx => ?_, fun x cmdx hx => ?_, fun x hx => ?_⟩
    · by_cases hxc : x = c
      · subst hxc
        simp [releaseCommand] at hx
      · exact htoken.record x cmdx ((update_of_ne hxc ..).symm.trans hx)
    · by_cases hxc : x = c
      · exact .inl (hxc ▸ hR hzero c hpData)
      · obtain hRx | ⟨cmd', hx', hsame⟩ := htoken.kept x cmdx hx
        · exact .inl hRx
        · exact .inr ⟨cmd', (update_of_ne hxc ..).trans hx', hsame⟩
    · by_cases hxc : x = c
      · simp [releaseCommand, hxc]
      · exact (update_of_ne hxc ..).trans (htoken.unused x hx)

theorem moveEntry {mem : RenameMemory} {pNewNs : NsId}
    {zNewTail zNew : Bytes} {pData : Option CmdId}
    (hrun : s.moveEntry mem pNs zTail pData pNewNs zNewTail zNew = some (s', r)) :
    Carried s₀ M R s' := by
  rcases moveEntry_cases hrun with rfl | ⟨ns, -, -, ⟨-, rfl⟩ | ⟨c, cmd, -, hc, rfl⟩⟩
  · exact h
  · exact h.of_fields rfl rfl rfl
  · exact h.rewrite hc rfl rfl rfl (h.record c cmd hc) rfl rfl

end

theorem renameCommand (h : Carried s M R s) {mem : RenameMemory} {zOld zNew : Bytes}
    (hR : s.nEvalDepth = 0 → zNew = [] → ∀ c, s.commandAt zOld = some c → R c)
    (hrun : s.renameCommand mem zOld zNew = some (s', r)) : Carried s M R s' := by
  rcases renameCommand_cases hrun with rfl | ⟨pNs, ns, zTail, pData, -, -, -, hat,
    ⟨hnil, hdel⟩ | ⟨-, s₁, pNewNs, zNewTail, hnew, hmv⟩⟩
  · exact h
  · exact h.deleteEntry (fun hzero c hc => hR hzero hnil c (hat.trans hc)) hdel
  · rcases newEntryFor_cases hnew with ⟨rfl, -⟩ | ⟨zNs, t, root, -, hfind, hmove⟩
    · exact h.moveEntry hmv
    · exact (h.moveTo_first (h.tree.findNamespaceEx hfind).1 hmove).moveEntry hmv

theorem deleteCommand (h : Carried s M R s) {token : ℕ}
    (hR : s.nEvalDepth = 0 → ∀ c, (Op.deleteCommand token).deleted s = some c → R c)
    (hrun : s.deleteCommand token = some (s', r)) : Carried s M R s' := by
  rcases deleteCommand_cases hrun with rfl | ⟨c, cmd, zName, htoken, hc, hname, hrename⟩
  · exact h
  · refine h.renameCommand (fun hzero _ d hd => hR hzero d ?_) hrename
    simp [Op.deleted, htoken, hc, hname, hd]

theorem setCommandCopy (h : Carried s₀ M R s) {xCopy : Pointer}
    (hM : ∀ x p k, M x p k → M x p xCopy) (hrun : s.setCommandCopy zName xCopy = some s') :
    Carried s₀ M R s' := by
  rcases setCommandCopy_cases hrun with rfl | ⟨c, cmd, hc, rfl⟩
  · exact h
  · exact h.rewrite hc rfl rfl rfl (hM _ _ _ (h.record c cmd hc)) rfl rfl

variable {mem : ImportMemory} {b : Bool}

theorem replaceImported (h : Carried s₀ M R s) {pSrc : CmdId} {pOld : Option CmdId}
    (hR : ∀ c, pOld = some c → R c) (hrun : s.replaceImported mem zName pSrc pOld = some (s', b)) :
    Carried s₀ M R s' ∨ s'.nextCmd ≠ s.nextCmd ∧
      Carried s₀ (fun x p k => M x p k ∨ Copies s mem pSrc x p k) R s' := by
  obtain ⟨s₁, hfree, hrest⟩ := replaceImported_cases hrun
  obtain ⟨hr, htables⟩ := freeCmdEntry_spec hfree
  have h₁ := h.released hr (htables.toNsTree.symm ▸ h.tree) hR
  rcases hrest with ⟨-, -, rfl⟩ | ⟨-, -, src, hsrc, rfl⟩
  · exact .inl h₁
  · have hold : s.commands pSrc = some src := by
      by_cases hC : pOld = some pSrc
      · rw [(hr.commands pSrc).1 hC] at hsrc
        cases hsrc
      · exact ((hr.commands pSrc).2 hC).symm.trans hsrc
    refine .inr ⟨?_, ?_⟩
    · change s₁.nextCmd + 1 ≠ s.nextCmd
      rw [hr.counters.nextCmd]
      exact succ_ne_self _
    · refine (h₁.mono fun _ _ _ => .inl).write rfl rfl (.inr ⟨src, hold, rfl, rfl, rfl⟩)
        (fun old hold => ?_) (le_succ _) (lt_succ_self _)
      rw [h₁.unused _ (le_refl _)] at hold
      cases hold

theorem importCallback_passes {pSrcNs : NsId} {zImportPat : Bytes} {bForce : Bool}
    (hmatch : importMatches (s.zExport pSrcNs) zImportPat zName = false)
    (hrun : s.importCallback pSrcNs zImportPat bForce mem zName = some (s', b)) : s' = s := by
  unfold CmdInterp.importCallback at hrun
  rcases htable : s.cmdTable pSrcNs with _ | paSrc
  · simp [htable] at hrun
  · simp only [htable, hmatch, Bool.not_false, if_true, Option.some.injEq] at hrun
    exact (congrArg Prod.fst hrun).symm

theorem importCallback (h : Carried s₀ M R s) {pSrcNs : NsId} {zImportPat : Bytes} {bForce : Bool}
    (hR : ∀ c pSrc, bForce = true → importMatches (s.zExport pSrcNs) zImportPat zName = true →
      (s.paCmd pSrcNs).lookup zName = some (some pSrc) → (s.paCmd s.pCurrentNs).lookup zName = some
      (some c) → R c) (hrun : s.importCallback pSrcNs zImportPat bForce mem zName = some (s', b)) :
    Carried s₀ M R s' ∨ s'.nextCmd ≠ s.nextCmd ∧
      ∃ pSrc, (s.paCmd pSrcNs).lookup zName = some (some pSrc) ∧
        Carried s₀ (fun x p k => M x p k ∨ Copies s mem pSrc x p k) R s' := by
  by_cases hmatch : importMatches (s.zExport pSrcNs) zImportPat zName = true
  swap
  · exact .inl (importCallback_passes (Bool.eq_false_iff.mpr hmatch) hrun ▸ h)
  rcases importCallback_cases hrun with
    ⟨-, rfl⟩ | ⟨pSrc, hsrc, ⟨-, hnew⟩ | ⟨pData, hlook, hreplace, hold⟩⟩
  · exact .inl h
  · have hentered : Carried s₀ M R (s.setEntry s.pCurrentNs zName none) := h.of_fields rfl rfl rfl
    exact (hentered.replaceImported (by simp) hnew).imp id fun hcopy =>
      ⟨hcopy.1, pSrc, hsrc, hcopy.2⟩
  · refine (h.replaceImported (fun c hc => ?_) hold).imp id fun hcopy =>
      ⟨hcopy.1, pSrc, hsrc, hcopy.2⟩
    subst hc
    exact hR c pSrc (hreplace.resolve_left (by simp)) hmatch hsrc hlook

end Carried

def Op.Growing : Op → Prop
  | .deleteNamespace .. => False
  | .nsImport .. => False
  | .setCurrent _ => False
  | .enterEval => False
  | .leaveEval => False
  | _ => True

/-- The records that the operation writes satisfy `M`. -/
def Op.Keeps (M : Pointer → Pointer → Pointer → Prop) : Op → Prop
  | .createCommand _ _ h => Makes M h
  | .setCommandCopy _ xCopy => ∀ x p k, M x p k → M x p xCopy
  | _ => True

theorem Carried.ran {s s' : CmdInterp} {M : Pointer → Pointer → Pointer → Prop}
    {R : CmdId → Prop} (h : Carried s M R s) {op : Op} (hop : op.Growing) (hM : op.Keeps M)
    (hR : ∀ c, op.Destroys s c → R c) (hran : Ran s s' op) : Carried s M R s' := by
  cases op with
  | createCommand mem zName handler => exact h.createCommand hM hR hran.choose_spec
  | createSubCommand mem zCmdName zSubName handler => exact h.createSubCommand hran.choose_spec
  | deleteSubCommand token => exact h.deleteSubCommand hran.choose_spec
  | renameCommand mem zOld zNew =>
    refine h.renameCommand (fun hzero hnil c hc => hR c ⟨hzero, ?_⟩) hran.choose_spec
    subst hnil
    exact hc
  | deleteCommand token =>
    exact h.deleteCommand (fun hzero c hc => hR c ⟨hzero, hc⟩) hran.choose_spec
  | setCommandCopy zName xCopy => exact h.setCommandCopy hM hran
  | createNamespace mem zName =>
    obtain ⟨r, hrun⟩ := hran
    obtain ⟨t, hfind, hmove⟩ := createNamespace_cases hrun
    exact h.moveTo_first (h.tree.findNamespaceEx hfind).1 hmove
  | nsExport zNs zPattern blank pattern =>
    obtain ⟨r, hrun⟩ := hran
    obtain ⟨z, rfl⟩ := nsExport_cases hrun
    exact h.of_fields rfl rfl rfl
  | deleteNamespace | nsImport | setCurrent | enterEval | leaveEval => exact hop.elim

end CmdInterp

end Th8
