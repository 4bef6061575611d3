import Th8.Command.Release

/-!
# What the operations do

One inversion lemma an operation: the ways in which it can come to an end, each with
the state it ends in.
-/

namespace Th8

open Support Option

namespace CmdInterp

variable {s s' : CmdInterp}

/-! ## Creation of commands -/

def Undone (f f' : NsId → CmdTable) : Prop :=
  ∀ x l, (f' x).lookup l = (f x).lookup l ∨ (f' x).lookup l = none ∧ (f x).lookup l = some none

theorem Undone.refl (f : NsId → CmdTable) : Undone f f := fun _ _ => .inl rfl

theorem undone_insert {f : NsId → CmdTable} {pNs : NsId} {k : Bytes} {e : Option CmdId}
    (hk : (f pNs).lookup k = some e) :
    Undone f (Function.update f pNs ((f pNs).insert k e)) := by
  intro x l
  by_cases hx : x = pNs
  · subst hx
    rw [Function.update_self]
    by_cases hl : l = k
    · subst hl
      exact .inl ((AList.lookup_insert _).trans hk.symm)
    · exact .inl (AList.lookup_insert_ne hl)
  · rw [Function.update_of_ne hx]
    exact .inl rfl

theorem undone_erase {f : NsId → CmdTable} {pNs : NsId} {k : Bytes}
    (hk : ((f pNs).lookup k).join = none) :
    Undone f (Function.update f pNs (((f pNs).insert k none).erase k)) := by
  intro x l
  by_cases hx : x = pNs
  · subst hx
    rw [Function.update_self]
    by_cases hl : l = k
    · subst hl
      rcases hlook : (f x).lookup l with _ | e
      · exact .inl (by simp [AList.lookup_erase])
      · obtain rfl : e = none := by simpa [hlook] using hk
        exact .inr ⟨by simp [AList.lookup_erase], rfl⟩
    · rw [AList.lookup_erase_ne hl, AList.lookup_insert_ne hl]
      exact .inl rfl
  · rw [Function.update_of_ne hx]
    exact .inl rfl

theorem outOfMemory_cases {pCreatedNs : Option NsId} {r : CmdResult}
    (hrun : s.outOfMemory pCreatedNs = some (s', r)) :
    ∃ t, s.toNsTree.rollback pCreatedNs = some t ∧ s.moveTo t = some s' ∧
      r = .error (.static "out of memory") := by
  obtain ⟨s₁, h₁, heq⟩ := map_eq_some_iff.mp hrun
  obtain ⟨t, ht, hmove⟩ := bind_eq_some_iff.mp h₁
  cases heq
  exact ⟨t, ht, hmove, rfl⟩

theorem createIn_cases {mem : CreateMemory} {pNs : NsId} {pCreatedNs : Option NsId}
    {zTail zName : Bytes} {h : Handler} {r : CmdResult}
    (hrun : s.createIn mem pNs pCreatedNs zTail zName h = some (s', r)) :
    (∃ ns, s.namespaces pNs = some ns) ∧
      ((∃ f, Undone s.paCmd f ∧
          ({ s with paCmd := f } : CmdInterp).outOfMemory pCreatedNs = some (s', r)) ∨
        (s.withCmdToken.setEntry pNs zTail ((s.paCmd pNs).lookup zTail).join).commitCommand
          pNs zTail zName h ((s.paCmd pNs).lookup zTail).join = some (s', r)) := by
  unfold createIn at hrun
  rcases hns : s.namespaces pNs with _ | ns
  · simp [cmdTable, hns] at hrun
  · have htable : s.cmdTable pNs = some (s.paCmd pNs) := by simp [cmdTable, hns]
    simp only [htable] at hrun
    refine ⟨⟨ns, rfl⟩, ?_⟩
    split_ifs at hrun with _ _ _ _ _ hold
    · exact .inl ⟨s.paCmd, .refl _, hrun⟩
    · exact .inl ⟨s.paCmd, .refl _, hrun⟩
    · exact .inl ⟨s.paCmd, .refl _, hrun⟩
    · exact .inl ⟨s.paCmd, .refl _, hrun⟩
    · refine .inl ⟨_, undone_erase hold, ?_⟩
      simpa [setEntry, removeEntry, withCmdToken, hold] using hrun
    · obtain ⟨c, hc⟩ := ne_none_iff_exists'.mp hold
      refine .inl ⟨_, undone_insert (join_eq_some_iff.mp hc), ?_⟩
      simpa [setEntry, withCmdToken, hc] using hrun
    · exact .inr hrun

theorem commitCommand_cases {pNs : NsId} {zTail zName : Bytes} {h : Handler}
    {pOld : Option CmdId} {r : CmdResult}
    (hrun : s.commitCommand pNs zTail zName h pOld = some (s', r)) :
    r = .ok (some s.nNextCmdToken) ∧
    ((pOld = none ∧ s' = ({ s with nextCmd := s.nextCmd + 1 } : CmdInterp).publish pNs zTail
        s.nextCmd (s.newCommand none zName h pNs)) ∨
      ∃ c old s₁, pOld = some c ∧ s.commands c = some old ∧
        (s.removeCmdTokenEntry old).freeSubCommands c = some s₁ ∧
        s' = s₁.publish pNs zTail c (s.newCommand (some old) zName h pNs)) := by
  cases pOld with
  | none =>
    simp only [commitCommand, some.injEq, Prod.mk.injEq] at hrun
    exact ⟨hrun.2.symm, .inl ⟨rfl, hrun.1.symm⟩⟩
  | some c =>
    simp only [commitCommand] at hrun
    split at hrun
    · cases hrun
    · rename_i old hc
      obtain ⟨s₁, h₁, heq⟩ := map_eq_some_iff.mp hrun
      cases heq
      exact ⟨rfl, .inr ⟨c, old, s₁, rfl, hc, h₁, rfl⟩⟩

theorem createCommand_cases {mem : CreateMemory} {zName : Bytes} {h : Handler}
    {r : CmdResult} (hrun : s.createCommand mem zName h = some (s', r)) :
    (∃ zTail, splitQualName zName = (none, zTail) ∧
      s.createIn mem s.pCurrentNs none zName zName h = some (s', r)) ∨
    ∃ zNs zTail t res, splitQualName zName = (some zNs, zTail) ∧
      s.toNsTree.findNamespaceEx mem.namespaces zNs = some (t, res) ∧
      ((∃ e, res = .failed e ∧ s.moveTo t = some s' ∧
          r = .error (.static "out of memory")) ∨
        ∃ pNs pCreatedNs s₁, res = .found pNs pCreatedNs ∧ s.moveTo t = some s₁ ∧
          s₁.createIn mem pNs pCreatedNs zTail zName h = some (s', r)) := by
  unfold createCommand at hrun
  split at hrun
  · rename_i zNs zTail hsplit
    split at hrun
    · cases hrun
    · rename_i t e hfind
      obtain ⟨s₁, hmove, heq⟩ := map_eq_some_iff.mp hrun
      cases heq
      exact .inr ⟨zNs, zTail, t, _, hsplit, hfind, .inl ⟨e, rfl, hmove, rfl⟩⟩
    · rename_i t pNs pCreatedNs hfind
      obtain ⟨s₁, hmove, hrun⟩ := bind_eq_some_iff.mp hrun
      exact .inr ⟨zNs, zTail, t, _, hsplit, hfind, .inr ⟨pNs, pCreatedNs, s₁, rfl, hmove, hrun⟩⟩
  · rename_i zTail hsplit
    exact .inl ⟨zTail, hsplit, hrun⟩

/-! ## Sub-commands -/

theorem createSubIn_cases {mem : SubMemory} {c : CmdId} {cmd : CommandRecord}
    {zSubName : Bytes} {h : Handler} {r : CmdResult} (hc : s.commands c = some cmd)
    (hrun : s.createSubIn mem c cmd zSubName h = some (s', r)) :
    ((∃ e, r = .error e) ∧ s' = s) ∨
    r = .ok (some s.nNextCmdToken) ∧
      ((∃ pOld old, (cmd.paSubCommands.getD ∅).lookup zSubName = some pOld ∧
          s.subCommands pOld = some old ∧
          s' = (s.removeSubTokenEntry old).publishSub c cmd (cmd.paSubCommands.getD ∅)
            zSubName pOld h) ∨
        (cmd.paSubCommands.getD ∅).lookup zSubName = none ∧
          s' = ({ s with nextSub := s.nextSub + 1 } : CmdInterp).publishSub c cmd
            (cmd.paSubCommands.getD ∅) zSubName s.nextSub h) := by
  unfold createSubIn at hrun
  have hfailed : ∀ {e : Failure}, some (s, CmdResult.error e) = some (s', r) →
      (∃ e, r = .error e) ∧ s' = s := by
    intro e heq
    cases heq
    exact ⟨⟨e, rfl⟩, rfl⟩
  rcases hlook : (cmd.paSubCommands.getD ∅).lookup zSubName with _ | pOld
  · -- The entry that was made for the name is taken out again.
    have hback : s.setCommand c { cmd with paSubCommands := cmd.paSubCommands.map fun T =>
        (T.insert zSubName s.nextSub).erase zSubName } = s := by
      have hT : (cmd.paSubCommands.map fun T =>
          (T.insert zSubName s.nextSub).erase zSubName) = cmd.paSubCommands := by
        rcases hT : cmd.paSubCommands with _ | T
        · rfl
        · rw [hT, getD_some] at hlook
          rw [map_some, erase_insert_of_lookup_eq_none hlook]
      rw [hT, setCommand, Function.update_eq_self_iff.mpr hc.symm]
    simp only [hlook] at hrun
    split_ifs at hrun
    · exact .inl (hfailed hrun)
    · exact .inl (hfailed hrun)
    · exact .inl (hfailed hrun)
    · exact .inl (hfailed (hback ▸ hrun))
    · exact .inl (hfailed (hback ▸ hrun))
    · exact .inl (hfailed (hback ▸ hrun))
    · cases hrun
      exact .inr ⟨rfl, .inr ⟨rfl, rfl⟩⟩
  · simp only [hlook] at hrun
    split_ifs at hrun
    · exact .inl (hfailed hrun)
    · exact .inl (hfailed hrun)
    · exact .inl (hfailed hrun)
    · exact .inl (hfailed hrun)
    · split at hrun
      · cases hrun
      · rename_i old hold
        cases hrun
        exact .inr ⟨rfl, .inl ⟨pOld, old, rfl, hold, rfl⟩⟩

theorem createSubCommand_cases {mem : SubMemory} {zCmdName zSubName : Bytes}
    {h : Handler} {r : CmdResult}
    (hrun : s.createSubCommand mem zCmdName zSubName h = some (s', r)) :
    s' = s ∨ ∃ c cmd, s.commands c = some cmd ∧
      s.createSubIn mem c cmd zSubName h = some (s', r) := by
  unfold createSubCommand at hrun
  split_ifs at hrun
  · exact .inl (congrArg Prod.fst (some.inj hrun)).symm
  · split at hrun
    · cases hrun
    · exact .inl (congrArg Prod.fst (some.inj hrun)).symm
    · rename_i c hfind
      split at hrun
      · cases hrun
      · rename_i cmd hc
        exact .inr ⟨c, cmd, hc, hrun⟩

theorem deleteSubCommand_cases {token : ℕ} {r : CmdResult}
    (hrun : s.deleteSubCommand token = some (s', r)) :
    s' = s ∨ ∃ pSub sub cmd T, s.subTokenEntry token = some pSub ∧
      s.subCommands pSub = some sub ∧ s.commands sub.pParent = some cmd ∧
      cmd.paSubCommands = some T ∧
      s' = ({ s.removeSubTokenEntry sub with
          subCommands := Function.update (s.removeSubTokenEntry sub).subCommands pSub none
          } : CmdInterp).setCommand sub.pParent
        { cmd with paSubCommands := if (T.erase sub.zName).entries = [] then none
                                    else some (T.erase sub.zName) } := by
  unfold deleteSubCommand at hrun
  split at hrun
  · exact .inl (congrArg Prod.fst (some.inj hrun)).symm
  · rename_i index hindex
    split at hrun
    · exact .inl (congrArg Prod.fst (some.inj hrun)).symm
    · rename_i pSub htoken
      split at hrun
      · cases hrun
      · rename_i sub hsub
        split at hrun
        · cases hrun
        · rename_i cmd hc
          split at hrun
          · cases hrun
          · rename_i T hT
            exact .inr ⟨pSub, sub, cmd, T, by simp [subTokenEntry, hindex, htoken], hsub, hc, hT,
              (congrArg Prod.fst (some.inj hrun)).symm⟩

/-! ## Renaming and deletion -/

theorem deleteEntry_cases {pNs : NsId} {zTail : Bytes} {pData : Option CmdId}
    (hrun : s.deleteEntry pNs zTail pData = some s') :
    (pData = none ∧ s' = s.removeEntry pNs zTail) ∨
    ∃ c cmd, pData = some c ∧ s.commands c = some cmd ∧
      ((0 < s.nEvalDepth ∧
          s' = { (s.removeEntry pNs zTail).removeCmdTokenEntry cmd with
            pendingCmd :=
              ((s.removeEntry pNs zTail).removeCmdTokenEntry cmd).pendingCmd ++ [c] }) ∨
        s.nEvalDepth = 0 ∧
          s' = ((s.removeEntry pNs zTail).removeCmdTokenEntry cmd).releaseCommand c) := by
  unfold deleteEntry at hrun
  cases pData with
  | none =>
    simp only [some.injEq] at hrun
    exact .inl ⟨rfl, hrun.symm⟩
  | some c =>
    dsimp only at hrun
    split at hrun
    · cases hrun
    · rename_i cmd hc
      refine .inr ⟨c, cmd, rfl, hc, ?_⟩
      split_ifs at hrun with hdepth
      · exact .inl ⟨hdepth, (some.inj hrun).symm⟩
      · exact .inr ⟨Nat.eq_zero_of_not_pos hdepth, (some.inj hrun).symm⟩

theorem moveEntry_cases {mem : RenameMemory} {pNs pNewNs : NsId}
    {zTail zNewTail zNew : Bytes} {pData : Option CmdId} {r : CmdResult}
    (hrun : s.moveEntry mem pNs zTail pData pNewNs zNewTail zNew = some (s', r)) :
    s' = s ∨ ∃ ns, s.namespaces pNewNs = some ns ∧ (s.paCmd pNewNs).lookup zNewTail = none ∧
      ((pData = none ∧ s' = (s.setEntry pNewNs zNewTail none).removeEntry pNs zTail) ∨
        ∃ c cmd, pData = some c ∧ s.commands c = some cmd ∧
          s' = ((s.setEntry pNewNs zNewTail (some c)).removeEntry pNs zTail).setCommand c
            { cmd with zQualName := if mem.zQualName then some zNew else none }) := by
  unfold moveEntry at hrun
  rcases hns : s.namespaces pNewNs with _ | ns
  · simp [cmdTable, hns] at hrun
  · have htable : s.cmdTable pNewNs = some (s.paCmd pNewNs) := by simp [cmdTable, hns]
    simp only [htable] at hrun
    by_cases hexists : ((s.paCmd pNewNs).lookup zNewTail).isSome
    · rw [if_pos hexists, some.injEq] at hrun
      exact .inl (congrArg Prod.fst hrun).symm
    · rw [if_neg hexists] at hrun
      refine .inr ⟨ns, rfl, not_isSome_iff_eq_none.mp hexists, ?_⟩
      cases hmem : mem.pNewEntry with
      | false => simp [hmem] at hrun
      | true =>
        cases pData with
        | none =>
          simp only [hmem, Bool.not_true, Bool.false_eq_true, if_false, some.injEq] at hrun
          exact .inl ⟨rfl, (congrArg Prod.fst hrun).symm⟩
        | some c =>
          rcases hc : s.commands c with _ | cmd
          · simp [hmem, hc] at hrun
          · simp only [hmem, hc, Bool.not_true, Bool.false_eq_true, if_false, some.injEq] at hrun
            exact .inr ⟨c, cmd, rfl, hc, (congrArg Prod.fst hrun).symm⟩

theorem newEntryFor_cases {mem : RenameMemory} {zNew zNewTail : Bytes} {pNewNs : NsId}
    (hrun : s.newEntryFor mem zNew = some (s', pNewNs, zNewTail)) :
    (s' = s ∧ pNewNs = s.pCurrentNs) ∨
    ∃ zNs t root, splitQualName zNew = (some zNs, zNewTail) ∧
      s.toNsTree.findNamespaceEx mem.namespaces zNs = some (t, .found pNewNs root) ∧
      s.moveTo t = some s' := by
  unfold newEntryFor at hrun
  split at hrun
  · rename_i zNs zTail hsplit
    split at hrun
    · rename_i t pNs root hfind
      simp only [map_eq_some_iff, Prod.mk.injEq] at hrun
      obtain ⟨s₁, hmove, rfl, rfl, rfl⟩ := hrun
      exact .inr ⟨zNs, t, _, hsplit, hfind, hmove⟩
    · cases hrun
  · obtain ⟨rfl, heq⟩ := Prod.mk.inj (some.inj hrun)
    exact .inl ⟨rfl, (Prod.mk.inj heq).1.symm⟩

def commandAt (s : CmdInterp) (zName : Bytes) : Option CmdId :=
  (s.resolveEntry zName).join.bind fun entry => ((s.paCmd entry.1).lookup entry.2).join

theorem renameCommand_cases {mem : RenameMemory} {zOld zNew : Bytes} {r : CmdResult}
    (hrun : s.renameCommand mem zOld zNew = some (s', r)) :
    s' = s ∨ ∃ pNs ns zTail pData, s.resolveEntry zOld = some (some (pNs, zTail)) ∧
      s.namespaces pNs = some ns ∧ (s.paCmd pNs).lookup zTail = some pData ∧
      s.commandAt zOld = pData ∧
      ((zNew = [] ∧ s.deleteEntry pNs zTail pData = some s') ∨
        zNew ≠ [] ∧ ∃ s₁ pNewNs zNewTail, s.newEntryFor mem zNew = some (s₁, pNewNs, zNewTail) ∧
          s₁.moveEntry mem pNs zTail pData pNewNs zNewTail zNew = some (s', r)) := by
  unfold renameCommand at hrun
  rcases hres : s.resolveEntry zOld with _ | _ | ⟨pNs, zTail⟩
  · simp [hres] at hrun
  · simp only [hres, some.injEq] at hrun
    exact .inl (congrArg Prod.fst hrun).symm
  · rcases hns : s.namespaces pNs with _ | ns
    · simp [hres, cmdTable, hns] at hrun
    · have htable : s.cmdTable pNs = some (s.paCmd pNs) := by simp [cmdTable, hns]
      rcases hlook : (s.paCmd pNs).lookup zTail with _ | pData
      · simp only [hres, htable, hlook, some.injEq] at hrun
        exact .inl (congrArg Prod.fst hrun).symm
      · simp only [hres, htable, hlook] at hrun
        refine .inr ⟨pNs, ns, zTail, pData, rfl, hns, hlook, by simp [commandAt, hres, hlook], ?_⟩
        split_ifs at hrun with hnew
        · simp only [map_eq_some_iff, Prod.mk.injEq] at hrun
          obtain ⟨s₁, h₁, rfl, -⟩ := hrun
          exact .inl ⟨hnew, h₁⟩
        · rcases hfor : s.newEntryFor mem zNew with _ | ⟨s₁, pNewNs, zNewTail⟩
          · simp [hfor] at hrun
          · simp only [hfor] at hrun
            exact .inr ⟨hnew, s₁, pNewNs, zNewTail, rfl, hrun⟩

def noMemory : RenameMemory :=
  ⟨fun _ => ⟨false, false, false, false, false, false⟩, false, false⟩

theorem deleteCommand_cases {token : ℕ} {r : CmdResult}
    (hrun : s.deleteCommand token = some (s', r)) :
    s' = s ∨ ∃ c cmd zQualName, s.cmdTokenEntry token = some c ∧ s.commands c = some cmd ∧
      cmd.zQualName = some zQualName ∧ s.renameCommand noMemory zQualName [] = some (s', r) := by
  unfold deleteCommand at hrun
  rcases hindex : s.paCmdToken with _ | index
  · simp only [hindex, some.injEq] at hrun
    exact .inl (congrArg Prod.fst hrun).symm
  · rcases htoken : index token with _ | c
    · simp only [hindex, htoken, some.injEq] at hrun
      exact .inl (congrArg Prod.fst hrun).symm
    · rcases hc : s.commands c with _ | cmd
      · simp [hindex, htoken, hc] at hrun
      · simp only [hindex, htoken, hc] at hrun
        rcases hname : cmd.zQualName with _ | _ | ⟨b, zName⟩
        · simp only [hname, some.injEq] at hrun
          exact .inl (congrArg Prod.fst hrun).symm
        · simp only [hname, some.injEq] at hrun
          exact .inl (congrArg Prod.fst hrun).symm
        · simp only [hname] at hrun
          exact .inr ⟨c, cmd, b :: zName, by simp [cmdTokenEntry, hindex, htoken], hc, hname, hrun⟩

theorem setCommandCopy_cases {zName : Bytes} {xCopy : Pointer}
    (hrun : s.setCommandCopy zName xCopy = some s') :
    s' = s ∨ ∃ c cmd, s.commands c = some cmd ∧
      s' = s.setCommand c { cmd with xCopy := xCopy } := by
  unfold setCommandCopy at hrun
  rcases hres : s.resolveEntry (cString zName) with _ | _ | ⟨pNs, zTail⟩
  · simp [hres] at hrun
  · simp only [hres, some.injEq] at hrun
    exact .inl hrun.symm
  · rcases htable : s.cmdTable pNs with _ | paCmd
    · simp [hres, htable] at hrun
    · rcases hlook : (paCmd.lookup zTail).join with _ | c
      · simp only [hres, htable, hlook, some.injEq] at hrun
        exact .inl hrun.symm
      · rcases hc : s.commands c with _ | cmd
        · simp [hres, htable, hlook, hc] at hrun
        · simp only [hres, htable, hlook, hc, some.injEq] at hrun
          exact .inr ⟨c, cmd, hc, hrun.symm⟩

/-! ## Imports -/

theorem replaceImported_cases {mem : ImportMemory} {zName : Bytes} {pSrc : CmdId}
    {pOld : Option CmdId} {b : Bool}
    (hrun : s.replaceImported mem zName pSrc pOld = some (s', b)) :
    ∃ s₁, s.freeCmdEntry pOld = some s₁ ∧
      ((mem.pNew = false ∧ b = false ∧ s' = s₁) ∨
        mem.pNew = true ∧ b = true ∧ ∃ src, s₁.commands pSrc = some src ∧
          s' = (({ s₁ with nextCmd := s₁.nextCmd + 1 } : CmdInterp).setCommand s₁.nextCmd
            (importedCommand mem src)).setEntry s.pCurrentNs zName (some s₁.nextCmd)) := by
  unfold replaceImported at hrun
  rcases hfree : s.freeCmdEntry pOld with _ | s₁
  · simp [hfree] at hrun
  · refine ⟨s₁, rfl, ?_⟩
    cases hnew : mem.pNew with
    | false =>
      simp only [hfree, hnew, Bool.not_false, if_true, some.injEq, Prod.mk.injEq] at hrun
      exact .inl ⟨rfl, hrun.2.symm, hrun.1.symm⟩
    | true =>
      rcases hsrc : s₁.commands pSrc with _ | src
      · simp [hfree, hnew, hsrc] at hrun
      · simp only [hfree, hnew, hsrc, Bool.not_true, Bool.false_eq_true, if_false,
          some.injEq, Prod.mk.injEq] at hrun
        exact .inr ⟨rfl, hrun.2.symm, src, rfl, hrun.1.symm⟩

theorem importCallback_cases {pSrcNs : NsId} {zImportPat : Bytes} {bForce : Bool}
    {mem : ImportMemory} {zName : Bytes} {b : Bool}
    (hrun : s.importCallback pSrcNs zImportPat bForce mem zName = some (s', b)) :
    (b = true ∧ s' = s) ∨
    ∃ pSrc, (s.paCmd pSrcNs).lookup zName = some (some pSrc) ∧
      ((mem.pDst = true ∧ (s.setEntry s.pCurrentNs zName none).replaceImported mem zName pSrc
          none = some (s', b)) ∨
        ∃ pData, (s.paCmd s.pCurrentNs).lookup zName = some pData ∧ (pData = none ∨ bForce = true) ∧
          s.replaceImported mem zName pSrc pData = some (s', b)) := by
  have hskip : some (s, true) = some (s', b) → b = true ∧ s' = s := by
    intro heq
    cases heq
    exact ⟨rfl, rfl⟩
  unfold importCallback at hrun
  rcases hns : s.namespaces pSrcNs with _ | ns
  · simp [cmdTable, hns] at hrun
  · have htable : s.cmdTable pSrcNs = some (s.paCmd pSrcNs) := by simp [cmdTable, hns]
    simp only [htable] at hrun
    by_cases hmatch : importMatches (s.zExport pSrcNs) zImportPat zName = true
    · rw [if_neg (by simp [hmatch])] at hrun
      rcases hsrc : ((s.paCmd pSrcNs).lookup zName).join with _ | pSrc
      · simp only [hsrc] at hrun
        exact .inl (hskip hrun)
      · simp only [hsrc] at hrun
        rcases hcur : s.namespaces s.pCurrentNs with _ | cur
        · simp [cmdTable, hcur] at hrun
        · have hdst : s.cmdTable s.pCurrentNs = some (s.paCmd s.pCurrentNs) := by
            simp [cmdTable, hcur]
          simp only [hdst] at hrun
          have hsrc' := join_eq_some_iff.mp hsrc
          rcases hlook : (s.paCmd s.pCurrentNs).lookup zName with _ | pData
          · simp only [hlook] at hrun
            cases hmem : mem.pDst with
            | false => simp [hmem] at hrun
            | true =>
              simp only [hmem, Bool.not_true, Bool.false_eq_true, if_false] at hrun
              exact .inr ⟨pSrc, hsrc', .inl ⟨rfl, hrun⟩⟩
          · simp only [hlook] at hrun
            split_ifs at hrun with hreplace
            · exact .inr ⟨pSrc, hsrc', .inr ⟨pData, rfl, hreplace, hrun⟩⟩
            · exact .inl (hskip hrun)
    · rw [if_pos (by simpa using hmatch)] at hrun
      exact .inl (hskip hrun)

theorem nsImport_cases {mem : ℕ → ImportMemory} {zPattern : Bytes} {bForce : Bool}
    {r : NsResult} (hrun : s.nsImport mem zPattern bForce = some (s', r)) :
    (s' = s ∧ ∃ e, r = .error e) ∨
    ∃ zNs zTail pSrcNs ns, splitQualName zPattern = (some zNs, zTail) ∧
      s.findNamespace zNs = some (some pSrcNs) ∧ s.namespaces pSrcNs = some ns ∧ r = .ok ∧
      importLoop pSrcNs zTail bForce mem s (s.paCmd pSrcNs).keys = some s' := by
  have hfailed : ∀ {e : Failure}, some (s, NsResult.error e) = some (s', r) →
      s' = s ∧ ∃ e, r = .error e := by
    intro e heq
    cases heq
    exact ⟨rfl, e, rfl⟩
  unfold nsImport at hrun
  rcases hsplit : splitQualName zPattern with ⟨_ | _ | ⟨b, zNs⟩, zTail⟩
  · simp only [hsplit] at hrun
    exact .inl (hfailed hrun)
  · simp only [hsplit] at hrun
    exact .inl (hfailed hrun)
  · simp only [hsplit] at hrun
    rcases hfind : s.findNamespace (b :: zNs) with _ | _ | pSrcNs
    · simp [hfind] at hrun
    · simp only [hfind] at hrun
      exact .inl (hfailed hrun)
    · rcases hns : s.namespaces pSrcNs with _ | ns
      · simp [hfind, cmdTable, hns] at hrun
      · simp only [hfind, cmdTable, hns, map_some, map_eq_some_iff, Prod.mk.injEq] at hrun
        obtain ⟨s₁, hloop, rfl, rfl⟩ := hrun
        exact .inr ⟨_, zTail, pSrcNs, ns, rfl, hfind, hns, rfl, hloop⟩

theorem appendExport_cases {pNs : NsId} {zPattern : Bytes} {blank pattern : Bool}
    {r : NsResult} (hrun : s.appendExport pNs zPattern blank pattern = some (s', r)) :
    ∃ z, s' = { s with zExport := z } := by
  unfold appendExport at hrun
  rcases hns : s.namespaces pNs with _ | ns
  · simp [hns] at hrun
  · simp only [hns] at hrun
    by_cases hblank : s.zExport pNs ≠ [] ∧ (!blank) = true
    · rw [if_pos hblank, some.injEq] at hrun
      exact ⟨s.zExport, (congrArg Prod.fst hrun).symm⟩
    · rw [if_neg hblank] at hrun
      by_cases hpattern : (!pattern) = true
      · rw [if_pos hpattern, some.injEq] at hrun
        exact ⟨_, (congrArg Prod.fst hrun).symm⟩
      · rw [if_neg hpattern, some.injEq] at hrun
        exact ⟨_, (congrArg Prod.fst hrun).symm⟩

theorem nsExport_cases {zNs zPattern : Bytes} {blank pattern : Bool} {r : NsResult}
    (hrun : s.nsExport zNs zPattern blank pattern = some (s', r)) :
    ∃ z, s' = { s with zExport := z } := by
  unfold nsExport at hrun
  split_ifs at hrun with hnil
  · exact appendExport_cases hrun
  · rcases hfind : s.findNamespace zNs with _ | _ | pNs
    · simp [hfind] at hrun
    · simp only [hfind, some.injEq] at hrun
      exact ⟨s.zExport, (congrArg Prod.fst hrun).symm⟩
    · simp only [hfind] at hrun
      exact appendExport_cases hrun

theorem createNamespace_cases {mem : ℕ → ChildMemory} {zName : Bytes} {r : CreateResult}
    (hrun : s.createNamespace mem zName = some (s', r)) :
    ∃ t, s.toNsTree.findNamespaceEx mem zName = some (t, r) ∧ s.moveTo t = some s' := by
  unfold createNamespace at hrun
  rcases hfind : s.toNsTree.findNamespaceEx mem zName with _ | ⟨t, res⟩
  · simp [hfind] at hrun
  · simp only [hfind, map_eq_some_iff, Prod.mk.injEq] at hrun
    obtain ⟨s₁, hmove, rfl, rfl⟩ := hrun
    exact ⟨t, rfl, hmove⟩

theorem deleteNamespace_cases {zName : Bytes} {granted : Bool} {r : NsResult}
    (hrun : s.deleteNamespace zName granted = some (s', r)) :
    ∃ t s₁, s.toNsTree.deleteNamespace zName granted = some (t, r) ∧ s.moveTo t = some s₁ ∧
      (s' = s₁ ∨ ∃ s₂ z, s₁.freeCommandsOf globalNs = some s₂ ∧ s' = { s₂ with zExport := z }) := by
  unfold deleteNamespace at hrun
  rcases hdel : s.toNsTree.deleteNamespace zName granted with _ | ⟨t, res⟩
  · simp [hdel] at hrun
  · rcases hmove : s.moveTo t with _ | s₁
    · simp [hdel, hmove] at hrun
    · simp only [hdel, hmove] at hrun
      split_ifs at hrun with hglobal
      · simp only [map_eq_some_iff, Prod.mk.injEq] at hrun
        obtain ⟨s₂, hfree, rfl, rfl⟩ := hrun
        exact ⟨t, s₁, rfl, hmove, .inr ⟨s₂, _, hfree, rfl⟩⟩
      · simp only [some.injEq, Prod.mk.injEq] at hrun
        obtain ⟨rfl, rfl⟩ := hrun
        exact ⟨t, s₁, rfl, hmove, .inl rfl⟩

theorem drainPendingDeletes_cases (hrun : s.drainPendingDeletes = some s') :
    ∃ s₁ t, s.pendingCmd.foldlM drainCommand ({ s with pendingCmd := [] } : CmdInterp) = some s₁ ∧
      s₁.toNsTree.drainPendingNs = some t ∧ s₁.moveTo t = some s' := by
  unfold drainPendingDeletes at hrun
  rcases hdrain : s.pendingCmd.foldlM drainCommand ({ s with pendingCmd := [] } : CmdInterp)
    with _ | s₁
  · simp [hdrain] at hrun
  · simp only [hdrain] at hrun
    obtain ⟨t, ht, hmove⟩ := bind_eq_some_iff.mp hrun
    exact ⟨s₁, t, rfl, ht, hmove⟩

theorem reported_eq {r : CmdInterp × CmdResult} {e : Option Failure}
    (h : Op.run.reported r = (s', e)) : s' = r.1 := by
  unfold Op.run.reported at h
  split at h
  · exact (congrArg Prod.fst h).symm
  · exact (congrArg Prod.fst h).symm

theorem nsReported_eq {r : CmdInterp × NsResult} {e : Option Failure}
    (h : Op.run.nsReported r = (s', e)) : s' = r.1 := by
  unfold Op.run.nsReported at h
  split at h
  · exact (congrArg Prod.fst h).symm
  · exact (congrArg Prod.fst h).symm

/-- What an operation that came to an end has run. -/
def Ran (s s' : CmdInterp) : Op → Prop
  | .createCommand mem zName h => ∃ r, s.createCommand mem zName h = some (s', r)
  | .createSubCommand mem zCmdName zSubName h =>
    ∃ r, s.createSubCommand mem zCmdName zSubName h = some (s', r)
  | .deleteSubCommand token => ∃ r, s.deleteSubCommand token = some (s', r)
  | .renameCommand mem zOld zNew => ∃ r, s.renameCommand mem zOld zNew = some (s', r)
  | .deleteCommand token => ∃ r, s.deleteCommand token = some (s', r)
  | .setCommandCopy zName xCopy => s.setCommandCopy zName xCopy = some s'
  | .createNamespace mem zName => ∃ r, s.createNamespace mem zName = some (s', r)
  | .deleteNamespace zName granted => ∃ r, s.deleteNamespace zName granted = some (s', r)
  | .nsExport zNs zPattern blank pattern =>
    ∃ r, s.nsExport zNs zPattern blank pattern = some (s', r)
  | .nsImport mem zPattern bForce => ∃ r, s.nsImport mem zPattern bForce = some (s', r)
  | .setCurrent pNs => (∃ ns, s.namespaces pNs = some ns) ∧ s' = { s with pCurrentNs := pNs }
  | .enterEval => s' = { s with nEvalDepth := s.nEvalDepth + 1 }
  | .leaveEval =>
    (s.nEvalDepth ≤ 1 ∧ ({ s with nEvalDepth := 0 } : CmdInterp).drainPendingDeletes = some s') ∨
      ¬s.nEvalDepth ≤ 1 ∧ s' = { s with nEvalDepth := s.nEvalDepth - 1 }

theorem ran_of_run {op : Op} {e : Option Failure} (hrun : op.run s = some (s', e)) :
    Ran s s' op := by
  cases op with
  | createNamespace mem zName =>
    obtain ⟨⟨s₁, r⟩, h₁, heq⟩ := map_eq_some_iff.mp hrun
    refine ⟨r, ?_⟩
    cases r with
    | found pNs root =>
      obtain rfl : s₁ = s' := congrArg Prod.fst heq
      exact h₁
    | failed e =>
      obtain rfl : s₁ = s' := congrArg Prod.fst heq
      exact h₁
  | setCommandCopy zName xCopy =>
    obtain ⟨s₁, h₁, heq⟩ := map_eq_some_iff.mp hrun
    obtain rfl : s₁ = s' := congrArg Prod.fst heq
    exact h₁
  | setCurrent pNs =>
    simp only [Op.run, ite_none_right_eq_some, some.injEq, Prod.mk.injEq] at hrun
    exact ⟨isSome_iff_exists.mp hrun.1, hrun.2.1.symm⟩
  | enterEval =>
    simp only [Op.run, some.injEq, Prod.mk.injEq] at hrun
    exact hrun.1.symm
  | leaveEval =>
    simp only [Op.run] at hrun
    split_ifs at hrun with hdepth
    · obtain ⟨s₁, h₁, heq⟩ := map_eq_some_iff.mp hrun
      obtain rfl : s₁ = s' := congrArg Prod.fst heq
      exact .inl ⟨hdepth, h₁⟩
    · simp only [some.injEq, Prod.mk.injEq] at hrun
      exact .inr ⟨hdepth, hrun.1.symm⟩
  | createCommand | createSubCommand | deleteSubCommand | renameCommand | deleteCommand =>
    obtain ⟨⟨s₁, r⟩, h₁, heq⟩ := map_eq_some_iff.mp hrun
    obtain rfl : s' = s₁ := reported_eq heq
    exact ⟨r, h₁⟩
  | deleteNamespace | nsExport | nsImport =>
    obtain ⟨⟨s₁, r⟩, h₁, heq⟩ := map_eq_some_iff.mp hrun
    obtain rfl : s' = s₁ := nsReported_eq heq
    exact ⟨r, h₁⟩

end CmdInterp

end Th8
