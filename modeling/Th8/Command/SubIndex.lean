import Th8.Command.Cases
import Th8.Command.SubInv

/-!
# The index of sub-command tokens

In a run that deletes no command with sub-commands outside an evaluation, the index maps
the tokens of the sub-commands of unreleased commands, each to its record, and nothing
else.
-/

namespace Th8

open Support Option Nat

namespace CmdInterp

def KeepsSubs (s : CmdInterp) (pData : Option CmdId) : Prop :=
  s.nEvalDepth = 0 → ∀ c, pData = some c → ∀ k, s.subEntry c k = none

namespace SubInv

variable {indexed : Prop} {s s' : CmdInterp} {c : CmdId}

section

variable (h : SubInv indexed s)

include h

theorem of_fields (hcommands : s'.commands = s.commands)
    (hsubs : s'.subCommands = s.subCommands) (hindex : s'.paSubToken = s.paSubToken)
    (hnextCmd : s'.nextCmd = s.nextCmd) (hnextSub : s'.nextSub = s.nextSub)
    (htoken : s'.nNextCmdToken = s.nNextCmdToken) : SubInv indexed s' := by
  refine h.congr ?_ hsubs hindex (le_of_eq htoken.symm) hnextSub ?_
  · intro c k
    rw [subEntry, subEntry, hcommands]
  · rw [hcommands, hnextCmd]
    exact h.freshCmd

theorem moveTo {t : NsTree} (hmove : s.moveTo t = some s') : SubInv indexed s' :=
  h.released (moveTo_spec hmove).released

theorem removeCmdTokenEntry (cmd : CommandRecord) : SubInv indexed (s.removeCmdTokenEntry cmd) := by
  obtain ⟨index, heq, -⟩ := removeCmdTokenEntry_eq s cmd
  rw [heq]
  exact h.of_fields rfl rfl rfl rfl rfl rfl

theorem setCommand {cmd : CommandRecord} (hlt : c < s.nextCmd)
    (hsame : ∀ k, (cmd.paSubCommands.bind fun T => T.lookup k) = s.subEntry c k) :
    SubInv indexed (s.setCommand c cmd) := by
  refine h.congr ?_ rfl rfl (le_refl _) rfl ?_
  · intro x k
    rw [subEntry_setCommand]
    split_ifs with hx
    · rw [hsame, hx]
    · rfl
  · intro x hx
    have hxc : x ≠ c := ne_of_gt (lt_of_lt_of_le hlt hx)
    simp only [CmdInterp.setCommand, Function.update_of_ne hxc]
    exact h.freshCmd x hx

theorem newRecord {cmd : CommandRecord} (hnone : cmd.paSubCommands = none) :
    SubInv indexed ({ s with nextCmd := s.nextCmd + 1 }.setCommand s.nextCmd cmd) := by
  have hnext : SubInv indexed { s with nextCmd := s.nextCmd + 1 } :=
    h.congr (fun _ _ => rfl) rfl rfl (le_refl _) rfl fun c hc => h.freshCmd c (le_of_succ_le hc)
  refine hnext.setCommand (lt_succ_self _) fun k => ?_
  simp [hnone, subEntry, h.freshCmd s.nextCmd (le_refl _)]

theorem freeSubCommands (hfree : s.freeSubCommands c = some s') :
    SubInv indexed s' ∧ c < s'.nextCmd ∧ ∀ k, s'.subEntry c k = none := by
  obtain ⟨cmd, hc, hcount, -, hcommands, -, hfreed⟩ := freeSubCommands_spec hfree
  have hlt : c < s.nextCmd := h.lt_nextCmd hc
  have hself : ∀ k, s'.subEntry c k = none := fun k => by simp [subEntry, hcommands]
  refine ⟨h.strip hfreed (fun x k => ⟨fun hx => hx ▸ hself k, fun hx => ?_⟩) hcount ?_,
    hcount.nextCmd ▸ hlt, hself⟩
  · rw [subEntry, subEntry, hcommands, Function.update_of_ne hx]
  · intro x hx
    rw [hcount.nextCmd] at hx
    rw [hcommands, Function.update_of_ne (ne_of_gt (lt_of_lt_of_le hlt hx))]
    exact h.freshCmd x hx

theorem outOfMemory {pCreatedNs : Option NsId} {r : CmdResult}
    (hrun : s.outOfMemory pCreatedNs = some (s', r)) : SubInv indexed s' := by
  obtain ⟨t, -, hmove, -⟩ := outOfMemory_cases hrun
  exact h.moveTo hmove

theorem commitCommand {pNs : NsId} {zTail zName : Bytes}
    {handler : Handler} {pOld : Option CmdId} {r : CmdResult}
    (hrun : s.commitCommand pNs zTail zName handler pOld = some (s', r)) :
    SubInv indexed s' := by
  obtain ⟨-, ⟨-, rfl⟩ | ⟨c, old, s₁, -, -, h₁, rfl⟩⟩ := commitCommand_cases hrun
  · have hnone : (s.newCommand none zName handler pNs).paSubCommands = none := rfl
    have hnew := h.newRecord hnone
    exact hnew.congr (fun _ _ => rfl) rfl rfl (le_succ _) rfl hnew.freshCmd
  · obtain ⟨hinv, hlt, hempty⟩ := (h.removeCmdTokenEntry old).freeSubCommands h₁
    have hset : SubInv indexed (s₁.setCommand c (s.newCommand (some old) zName handler pNs)) :=
      hinv.setCommand hlt fun k => by simp [newCommand, hempty k]
    exact hset.congr (fun _ _ => rfl) rfl rfl (le_succ _) rfl hset.freshCmd

theorem createIn {mem : CreateMemory} {pNs : NsId}
    {pCreatedNs : Option NsId} {zTail zName : Bytes} {handler : Handler} {r : CmdResult}
    (hrun : s.createIn mem pNs pCreatedNs zTail zName handler = some (s', r)) :
    SubInv indexed s' := by
  obtain ⟨-, ⟨f, -, hout⟩ | hcommit⟩ := createIn_cases hrun
  · have hf : SubInv indexed { s with paCmd := f } := h.of_fields rfl rfl rfl rfl rfl rfl
    exact hf.outOfMemory hout
  · refine SubInv.commitCommand ?_ hcommit
    exact h.of_fields rfl rfl rfl rfl rfl rfl

theorem createCommand {mem : CreateMemory} {zName : Bytes}
    {handler : Handler} {r : CmdResult}
    (hrun : s.createCommand mem zName handler = some (s', r)) : SubInv indexed s' := by
  rcases createCommand_cases hrun with
    ⟨-, -, hin⟩ | ⟨zNs, zTail, t, res, -, -, ⟨-, -, hmove, -⟩ | ⟨_, _, s₁, -, hmove, hin⟩⟩
  · exact h.createIn hin
  · exact h.moveTo hmove
  · exact (h.moveTo hmove).createIn hin

end

/-! ## Sub-commands -/

theorem publishSub_subTokenEntry {cmd : CommandRecord} {T : AList fun _ : Bytes => SubId}
    {k : Bytes} {r : SubId} {handler : Handler} (token : ℕ) :
    (s.publishSub c cmd T k r handler).subTokenEntry token =
      if token = s.nNextCmdToken then some r else s.subTokenEntry token := by
  simp only [subTokenEntry, CmdInterp.publishSub, bind_some, Function.update_apply]
  rcases s.paSubToken with _ | index
  · rfl
  · rfl

theorem publishSub_subEntry {cmd : CommandRecord} {k : Bytes} {r : SubId}
    {handler : Handler} (hc : s.commands c = some cmd) (x : CmdId) (l : Bytes) :
    (s.publishSub c cmd (cmd.paSubCommands.getD ∅) k r handler).subEntry x l =
      if x = c ∧ l = k then some r else s.subEntry x l := by
  by_cases hx : x = c
  · subst hx
    have hentry := subEntry_of_commands hc l
    simp only [subEntry, CmdInterp.publishSub, Function.update_self, bind_some]
    by_cases hl : l = k
    · subst hl
      simp
    · rw [AList.lookup_insert_ne hl, if_neg fun hxl => hl hxl.2, ← subEntry, hentry]
      rcases cmd.paSubCommands with _ | T
      · simp
      · rfl
  · rw [if_neg fun hxl => hx hxl.1]
    simp [subEntry, CmdInterp.publishSub, hx]

theorem createSubIn (h : SubInv indexed s) {mem : SubMemory} {cmd : CommandRecord}
    {zSubName : Bytes} {handler : Handler} {r : CmdResult} (hc : s.commands c = some cmd)
    (hrun : s.createSubIn mem c cmd zSubName handler = some (s', r)) :
    SubInv indexed s' := by
  have hlt : c < s.nextCmd := h.lt_nextCmd hc
  have hentry : s.subEntry c zSubName = (cmd.paSubCommands.getD ∅).lookup zSubName := by
    rw [subEntry_of_commands hc]
    rcases cmd.paSubCommands with _ | T
    · simp
    · rfl
  have hfresh : ∀ {cmd'} x, s.nextCmd ≤ x → Function.update s.commands c (some cmd') x = none := by
    intro cmd' x hx
    rw [Function.update_of_ne (ne_of_gt (lt_of_lt_of_le hlt hx))]
    exact h.freshCmd x hx
  rcases createSubIn_cases hc hrun with ⟨-, rfl⟩ | ⟨-, ⟨pOld, old, hlook, hold, rfl⟩ | ⟨hlook, rfl⟩⟩
  · exact h
  · obtain ⟨index, heq, hindex⟩ := removeSubTokenEntry_eq s old
    rw [heq]
    have holdlt : pOld < s.nextSub := by
      by_contra hge
      simp [h.freshSub pOld (Nat.le_of_not_lt hge)] at hold
    refine h.add (.inl (hentry.trans hlook)) ⟨rfl, rfl, rfl⟩
      (publishSub_subEntry (s := { s with paSubToken := index }) hc) rfl ?_ rfl
      hfresh ⟨le_refl _, holdlt⟩
    intro token
    refine (publishSub_subTokenEntry token).trans (if_congr Iff.rfl rfl ?_)
    refine (hindex token).trans (if_congr ?_ rfl rfl)
    exact ⟨fun ht => ⟨old, hold, ht⟩, fun ⟨old', hold', ht⟩ =>
      (some.inj (hold.symm.trans hold')) ▸ ht⟩
  · have hnew := h.freshSub s.nextSub (le_refl _)
    refine h.add (.inr ⟨hentry.trans hlook, le_refl _⟩) ⟨rfl, rfl, rfl⟩
      (publishSub_subEntry (s := { s with nextSub := s.nextSub + 1 }) hc) rfl ?_ rfl
      hfresh ⟨le_succ _, lt_succ_self _⟩
    intro token
    refine (publishSub_subTokenEntry token).trans (if_congr Iff.rfl rfl ?_)
    rw [if_neg]
    · rfl
    · rintro ⟨old, hold, -⟩
      simp [hnew] at hold

theorem createSubCommand (h : SubInv indexed s) {mem : SubMemory}
    {zCmdName zSubName : Bytes} {handler : Handler} {r : CmdResult}
    (hrun : s.createSubCommand mem zCmdName zSubName handler = some (s', r)) :
    SubInv indexed s' := by
  rcases createSubCommand_cases hrun with rfl | ⟨c, cmd, hc, hin⟩
  · exact h
  · exact h.createSubIn hc hin

theorem lookup_pruned (T : AList fun _ : Bytes => SubId) (k l : Bytes) :
    ((if (T.erase k).entries = [] then none else some (T.erase k)).bind
      fun T => T.lookup l) = if l = k then none else T.lookup l := by
  have herase : (T.erase k).lookup l = if l = k then none else T.lookup l := by
    by_cases hl : l = k
    · subst hl
      simp [AList.lookup_erase]
    · rw [AList.lookup_erase_ne hl, if_neg hl]
  by_cases hnil : (T.erase k).entries = []
  · rw [if_pos hnil, ← herase, show T.erase k = ∅ from AList.ext hnil]
    simp
  · rw [if_neg hnil, bind_some, herase]

section

variable (h : SubInv indexed s)

include h

theorem deleteSubCommand {token : ℕ} {r : CmdResult}
    (hrun : s.deleteSubCommand token = some (s', r)) : SubInv indexed s' := by
  rcases deleteSubCommand_cases hrun with rfl | ⟨pSub, sub, cmd, T, htoken, hsub, hc, hT, rfl⟩
  · exact h
  · obtain ⟨index, heq, hindex⟩ := removeSubTokenEntry_eq s sub
    rw [heq]
    have hlt := h.lt_nextCmd hc
    refine h.remove hsub ?_ rfl hindex ?_ ⟨rfl, rfl, rfl, rfl⟩ ?_
    · intro x l
      rw [subEntry_setCommand, lookup_pruned]
      by_cases hx : x = sub.pParent
      · have hentry : s.subEntry x l = T.lookup l := by
          rw [hx, subEntry_of_commands hc, hT, bind_some]
        by_cases hl : l = sub.zName
        · rw [if_pos hx, if_pos hl, if_pos ⟨hx, hl⟩]
        · rw [if_pos hx, if_neg hl, if_neg fun hxl => hl hxl.2, hentry]
      · rw [if_neg hx, if_neg fun hxl => hx hxl.1]
        rfl
    · intro hi
      obtain ⟨sub', hsub', -, hentry⟩ := (h.index hi).sound token pSub htoken
      obtain rfl : sub = sub' := some.inj (hsub.symm.trans hsub')
      exact hentry
    · intro x hx
      have hne : x ≠ sub.pParent := ne_of_gt (lt_of_lt_of_le hlt hx)
      simp only [CmdInterp.setCommand, Function.update_of_ne hne]
      exact h.freshCmd x hx

theorem deleteEntry {pNs : NsId} {zTail : Bytes}
    {pData : Option CmdId} (hrun : s.deleteEntry pNs zTail pData = some s')
    (hkeep : indexed → KeepsSubs s pData) : SubInv indexed s' := by
  have hremoved : SubInv indexed (s.removeEntry pNs zTail) := h.of_fields rfl rfl rfl rfl rfl rfl
  rcases deleteEntry_cases hrun with ⟨-, rfl⟩ | ⟨c, cmd, hdata, -, ⟨-, rfl⟩ | ⟨hdepth, rfl⟩⟩
  · exact hremoved
  · exact (hremoved.removeCmdTokenEntry cmd).of_fields rfl rfl rfl rfl rfl rfl
  · refine (hremoved.removeCmdTokenEntry cmd).releaseCommand fun hi k r => ?_
    obtain ⟨index, heq, -⟩ := removeCmdTokenEntry_eq (s.removeEntry pNs zTail) cmd
    have hnone : s.subEntry c k = none := hkeep hi hdepth c hdata k
    have hsame : ((s.removeEntry pNs zTail).removeCmdTokenEntry cmd).subEntry c k =
        s.subEntry c k := by
      rw [heq]
      rfl
    simp [hsame, hnone]

theorem newEntryFor {mem : RenameMemory} {zNew zNewTail : Bytes}
    {pNewNs : NsId} (hrun : s.newEntryFor mem zNew = some (s', pNewNs, zNewTail)) :
    SubInv indexed s' := by
  rcases newEntryFor_cases hrun with ⟨rfl, -⟩ | ⟨zNs, t, root, -, -, hmove⟩
  · exact h
  · exact h.moveTo hmove

theorem moveEntry {mem : RenameMemory} {pNs pNewNs : NsId}
    {zTail zNewTail zNew : Bytes} {pData : Option CmdId} {r : CmdResult}
    (hrun : s.moveEntry mem pNs zTail pData pNewNs zNewTail zNew = some (s', r)) :
    SubInv indexed s' := by
  rcases moveEntry_cases hrun with rfl | ⟨-, -, -, ⟨-, rfl⟩ | ⟨c, cmd, -, hc, rfl⟩⟩
  · exact h
  · exact h.of_fields rfl rfl rfl rfl rfl rfl
  · have hmoved : SubInv indexed ((s.setEntry pNewNs zNewTail (some c)).removeEntry pNs zTail) :=
      h.of_fields rfl rfl rfl rfl rfl rfl
    exact hmoved.setCommand (h.lt_nextCmd hc) fun k => (subEntry_of_commands hc k).symm

theorem renameCommand {mem : RenameMemory} {zOld zNew : Bytes}
    {r : CmdResult} (hrun : s.renameCommand mem zOld zNew = some (s', r))
    (hkeep : indexed → zNew = [] → KeepsSubs s (s.commandAt zOld)) : SubInv indexed s' := by
  rcases renameCommand_cases hrun with
    rfl | ⟨pNs, ns, zTail, pData, -, -, -, hdata, ⟨hnil, hdel⟩ | ⟨-, s₁, _, _, hnew, hmove⟩⟩
  · exact h
  · exact h.deleteEntry hdel fun hi => hdata ▸ hkeep hi hnil
  · exact (h.newEntryFor hnew).moveEntry hmove

theorem replaceImported {mem : ImportMemory} {zName : Bytes}
    {pSrc : CmdId} {pOld : Option CmdId} {b : Bool}
    (hrun : s.replaceImported mem zName pSrc pOld = some (s', b)) : SubInv indexed s' := by
  obtain ⟨s₁, hfree, ⟨-, -, rfl⟩ | ⟨-, -, src, -, rfl⟩⟩ := replaceImported_cases hrun
  · exact h.released (freeCmdEntry_spec hfree).1
  · have hnone : (importedCommand mem src).paSubCommands = none := rfl
    have hnew := (h.released (freeCmdEntry_spec hfree).1).newRecord hnone
    exact hnew.of_fields rfl rfl rfl rfl rfl rfl

theorem importLoop {pSrcNs : NsId} {zImportPat : Bytes}
    {bForce : Bool} {mem : ℕ → ImportMemory} {names : List Bytes}
    (hrun : CmdInterp.importLoop pSrcNs zImportPat bForce mem s names = some s') :
    SubInv indexed s' := by
  induction names generalizing s with
  | nil =>
    obtain rfl : s = s' := by simpa [CmdInterp.importLoop] using hrun
    exact h
  | cons zName rest ih =>
    rcases hcall : s.importCallback pSrcNs zImportPat bForce (mem rest.length) zName with
      _ | ⟨s₁, b⟩
    · simp [CmdInterp.importLoop, hcall] at hrun
    · have h₁ : SubInv indexed s₁ := by
        rcases importCallback_cases hcall with
          ⟨-, rfl⟩ | ⟨pSrc, -, ⟨-, hreplace⟩ | ⟨pData, -, -, hreplace⟩⟩
        · exact h
        · refine SubInv.replaceImported ?_ hreplace
          exact h.of_fields rfl rfl rfl rfl rfl rfl
        · exact h.replaceImported hreplace
      cases b with
      | false =>
        simp only [CmdInterp.importLoop, hcall, some.injEq] at hrun
        exact hrun ▸ h₁
      | true =>
        simp only [CmdInterp.importLoop, hcall] at hrun
        exact ih h₁ hrun

/-! ## Runs -/

theorem drainPendingDeletes (hrun : s.drainPendingDeletes = some s') : SubInv indexed s' := by
  obtain ⟨s₁, t, hdrain, -, hmove⟩ := drainPendingDeletes_cases hrun
  have hempty : SubInv indexed { s with pendingCmd := [] } := h.of_fields rfl rfl rfl rfl rfl rfl
  exact (hempty.released (foldlM_drainCommand_spec hdrain).1).moveTo hmove

end

end SubInv

def Op.deleted (s : CmdInterp) : Op → Option CmdId
  | .renameCommand _ zOld [] => s.commandAt zOld
  | .deleteCommand token =>
    (s.cmdTokenEntry token).bind fun c =>
      (s.commands c).bind fun cmd => cmd.zQualName.bind s.commandAt
  | _ => none

theorem SubInv.ran {indexed : Prop} {s s' : CmdInterp} (h : SubInv indexed s) {op : Op}
    (hran : Ran s s' op) (hkeep : indexed → KeepsSubs s (op.deleted s)) :
    SubInv indexed s' := by
  cases op with
  | createCommand mem zName handler => exact h.createCommand hran.choose_spec
  | createSubCommand mem zCmdName zSubName handler => exact h.createSubCommand hran.choose_spec
  | deleteSubCommand token => exact h.deleteSubCommand hran.choose_spec
  | renameCommand mem zOld zNew =>
    refine h.renameCommand hran.choose_spec fun hi hnil => ?_
    subst hnil
    exact hkeep hi
  | deleteCommand token =>
    obtain ⟨r, hrun⟩ := hran
    rcases deleteCommand_cases hrun with rfl | ⟨c, cmd, zName, htoken, hc, hname, hrename⟩
    · exact h
    · refine h.renameCommand hrename fun hi _ => ?_
      have hdel : Op.deleted s (.deleteCommand token) = s.commandAt zName := by
        simp [Op.deleted, htoken, hc, hname]
      exact hdel ▸ hkeep hi
  | setCommandCopy zName xCopy =>
    rcases setCommandCopy_cases hran with rfl | ⟨c, cmd, hc, rfl⟩
    · exact h
    · exact h.setCommand (h.lt_nextCmd hc) fun k => (subEntry_of_commands hc k).symm
  | createNamespace mem zName =>
    obtain ⟨r, hrun⟩ := hran
    obtain ⟨t, -, hmove⟩ := createNamespace_cases hrun
    exact h.moveTo hmove
  | deleteNamespace zName granted =>
    obtain ⟨r, hrun⟩ := hran
    obtain ⟨t, s₁, -, hmove, rfl | ⟨s₂, z, hfree, rfl⟩⟩ := deleteNamespace_cases hrun
    · exact h.moveTo hmove
    · exact ((h.moveTo hmove).released (freeCommandsOf_spec hfree).released).of_fields
        rfl rfl rfl rfl rfl rfl
  | nsExport zNs zPattern blank pattern =>
    obtain ⟨r, hrun⟩ := hran
    obtain ⟨z, rfl⟩ := nsExport_cases hrun
    exact h.of_fields rfl rfl rfl rfl rfl rfl
  | nsImport mem zPattern bForce =>
    obtain ⟨r, hrun⟩ := hran
    rcases nsImport_cases hrun with ⟨rfl, -⟩ | ⟨_, _, _, _, -, -, -, -, hloop⟩
    · exact h
    · exact h.importLoop hloop
  | setCurrent pNs =>
    obtain ⟨-, rfl⟩ := hran
    exact h.of_fields rfl rfl rfl rfl rfl rfl
  | enterEval =>
    obtain rfl := hran
    exact h.of_fields rfl rfl rfl rfl rfl rfl
  | leaveEval =>
    rcases hran with ⟨-, hdrain⟩ | ⟨-, rfl⟩
    · have h₀ : SubInv indexed { s with nEvalDepth := 0 } := h.of_fields rfl rfl rfl rfl rfl rfl
      exact h₀.drainPendingDeletes hdrain
    · exact h.of_fields rfl rfl rfl rfl rfl rfl

/-- The sub-command `r` is in the table of the command `c`, which is not released. -/
structure BelongsTo (s : CmdInterp) (r : SubId) (sub : SubCommand) (c : CmdId) : Prop where
  record : s.subCommands r = some sub
  pParent : sub.pParent = c
  entry : ∃ cmd T, s.commands c = some cmd ∧ cmd.paSubCommands = some T ∧
    T.lookup sub.zName = some r

/-- The index maps exactly the tokens of the sub-commands that belong to an unreleased
command, each to its own record. -/
def SubIndexSound (s : CmdInterp) : Prop :=
  ∀ token r, s.subTokenEntry token = some r ↔ ∃ sub c, BelongsTo s r sub c ∧ sub.nToken = token

theorem subEntry_eq_some {s : CmdInterp} {c : CmdId} {k : Bytes} {r : SubId} :
    s.subEntry c k = some r ↔ ∃ cmd T, s.commands c = some cmd ∧
      cmd.paSubCommands = some T ∧ T.lookup k = some r := by
  simp [subEntry, bind_eq_some_iff]

theorem IndexExact.subIndexSound {s : CmdInterp} (h : IndexExact s) : SubIndexSound s := by
  intro token r
  constructor
  · intro hr
    obtain ⟨sub, hsub, htoken, hk⟩ := h.sound token r hr
    exact ⟨sub, sub.pParent, ⟨hsub, rfl, subEntry_eq_some.mp hk⟩, htoken⟩
  · rintro ⟨sub, c, hb, rfl⟩
    obtain ⟨sub', hsub', hr⟩ := h.complete c sub.zName r (subEntry_eq_some.mpr hb.entry)
    obtain rfl : sub = sub' := some.inj (hb.record.symm.trans hsub')
    exact hr

theorem IndexExact.deleteSubCommand_isSome {s : CmdInterp} (h : IndexExact s) (token : ℕ) :
    (s.deleteSubCommand token).isSome := by
  unfold deleteSubCommand
  rcases hindex : s.paSubToken with _ | index
  · rfl
  · rcases htoken : index token with _ | pSub
    · simp [htoken]
    · obtain ⟨sub, hsub, -, hk⟩ := h.sound token pSub (by simp [subTokenEntry, hindex, htoken])
      obtain ⟨cmd, T, hc, hT, -⟩ := subEntry_eq_some.mp hk
      simp [htoken, hsub, hc, hT]

def KeepsSubsStep (s : Option CmdInterp) (op : Op) : Prop :=
  ∀ s₁, s = some s₁ → KeepsSubs s₁ (op.deleted s₁)

theorem reachable_subInv {indexed : Prop} {allowed : Option CmdInterp → Op → Prop}
    (hallowed : indexed → ∀ s op, allowed s op → KeepsSubsStep s op) {s : CmdInterp}
    (hreach : ReachableBy step allowed (some .init) (some s)) : SubInv indexed s := by
  refine hreach.invariant_some (init_subInv indexed) (fun _ => rfl) fun s₁ op s₂ h hop hrun => ?_
  obtain ⟨⟨s₃, e⟩, hop', rfl⟩ := map_eq_some_iff.mp hrun
  exact h.ran (ran_of_run hop') fun hi => hallowed hi _ op hop s₁ rfl

/-- In every run that deletes no command with sub-commands outside an evaluation, the
index of sub-command tokens is sound, and no deletion through it goes wrong. -/
theorem subIndexSound_of_keepsSubs {s : CmdInterp}
    (hreach : ReachableBy step KeepsSubsStep (some .init) (some s)) :
    SubIndexSound s ∧ ∀ token, (s.deleteSubCommand token).isSome := by
  have hinv : SubInv True s := reachable_subInv (fun _ _ _ hop => hop) hreach
  have hexact : IndexExact s := hinv.index trivial
  exact ⟨hexact.subIndexSound, hexact.deleteSubCommand_isSome⟩

def ampleMemory : CreateMemory :=
  ⟨fun _ => ⟨true, true, true, true, true, true⟩, true, true, true, true, true⟩

/-- The command `a` and its sub-command `b`. -/
def createTwo : List Op :=
  [.createCommand ampleMemory (ascii "a") ⟨1, 0, 0⟩,
    .createSubCommand ⟨true, true, true, true, true, true⟩ (ascii "a") (ascii "b") ⟨1, 0, 0⟩]

theorem subIndexSound_evaluating :
    ∃ s, runAll (createTwo ++ [.enterEval, .deleteCommand 1]) = some s ∧
      s.subTokenEntry 2 = some 0 ∧ SubIndexSound s := by
  obtain ⟨s, hs⟩ : ∃ s, runAll (createTwo ++ [.enterEval, .deleteCommand 1]) = some s :=
    isSome_iff_exists.mp (by decide)
  have htoken : (runAll (createTwo ++ [.enterEval, .deleteCommand 1])).bind
      (fun s => s.subTokenEntry 2) = some 0 := by decide
  have hdepth : (runAll (createTwo ++ [.enterEval])).map (fun s => s.nEvalDepth) =
      some 1 := by decide
  have hquiet : ∀ {o : Option CmdInterp} {op : Op}, (∀ s, op.deleted s = none) →
      KeepsSubsStep o op := by
    intro o op hop s₁ _ _ c hc
    simp [hop s₁] at hc
  have hreach : ReachableBy step KeepsSubsStep (some .init) (some s) := by
    rw [← hs]
    refine ReachableBy.foldl .init ⟨hquiet fun _ => rfl, hquiet fun _ => rfl,
      hquiet fun _ => rfl, ?_, trivial⟩
    intro s₁ hs₁ hzero
    have hone : (some s₁).map (fun s : CmdInterp => s.nEvalDepth) = some 1 := hs₁ ▸ hdepth
    simp [hzero] at hone
  rw [hs, bind_some] at htoken
  exact ⟨s, hs, htoken, (subIndexSound_of_keepsSubs hreach).1⟩

/-- Outside an evaluation the token of `b` outlives the command. -/
theorem deleted_not_subIndexSound :
    ¬∀ s, Reachable step (some .init) (some s) → SubIndexSound s := by
  intro hall
  obtain ⟨s, hs⟩ : ∃ s, runAll (createTwo ++ [.deleteCommand 1]) = some s :=
    isSome_iff_exists.mp (by decide)
  have htoken : (runAll (createTwo ++ [.deleteCommand 1])).bind
      (fun s => s.subTokenEntry 2) = some 0 := by decide
  have hcommand : (runAll (createTwo ++ [.deleteCommand 1])).map
      (fun s => (s.subCommands 0).map fun sub => s.commands sub.pParent) =
      some (some none) := by decide
  rw [hs, bind_some] at htoken
  have hreach : Reachable step (some .init) (some s) := hs ▸ reachable_foldl _ _ _
  obtain ⟨sub, c, hb, -⟩ := (hall s hreach 2 0).mp htoken
  obtain ⟨cmd, T, hc, -⟩ := hb.entry
  simp [hs, hb.record, hb.pParent, hc] at hcommand

end CmdInterp

end Th8
