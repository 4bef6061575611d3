import Th8.Command.FailedCreate
import Th8.Command.SubIndex

/-!
# Live commands

Every entry of a command table refers to a live command that no other entry refers to.
The invariant is stated with the commands that are held outside the tables: those that
wait for their release.
-/

namespace Th8

open Support List Option
open Function (update update_of_ne update_self)

namespace CmdInterp

/-! ## The invariant -/

def Live (s : CmdInterp) (c : CmdId) : Prop := ∃ cmd, s.commands c = some cmd

/-- What holds between the tables and the records.  `held` are the commands that are in
no table. -/
structure CmdInv (s : CmdInterp) (held : List CmdId) : Prop where
  entry : ∀ pNs ns k e, s.namespaces pNs = some ns → (s.paCmd pNs).lookup k = some e →
    ∃ c, e = some c ∧ c ∉ held ∧ s.Live c
  unique : ∀ pNs ns pNs' ns' k k' c, s.namespaces pNs = some ns →
    s.namespaces pNs' = some ns' → (s.paCmd pNs).lookup k = some (some c) →
    (s.paCmd pNs').lookup k' = some (some c) → pNs = pNs' ∧ k = k'
  heldLive : ∀ c ∈ held, s.Live c
  nodup : held.Nodup

section Lookup

variable {s : CmdInterp} {pNs x : NsId} {k l : Bytes} {pData e : Option CmdId}

theorem lookup_removeEntry (h : ((s.removeEntry pNs k).paCmd x).lookup l = some e) :
    ¬(x = pNs ∧ l = k) ∧ (s.paCmd x).lookup l = some e := by
  by_cases hx : x = pNs
  · subst hx
    simp only [removeEntry, update_self] at h
    refine ⟨fun hxl => ?_, lookup_of_erase h⟩
    rw [hxl.2, AList.lookup_erase] at h
    simp at h
  · simp only [removeEntry, update_of_ne hx] at h
    exact ⟨fun hxl => hx hxl.1, h⟩

theorem lookup_removeEntry_of_ne (s : CmdInterp) (hne : ¬(x = pNs ∧ l = k)) :
    ((s.removeEntry pNs k).paCmd x).lookup l = (s.paCmd x).lookup l := by
  by_cases hx : x = pNs
  · subst hx
    simp only [removeEntry, update_self]
    exact AList.lookup_erase_ne fun hl => hne ⟨rfl, hl⟩
  · simp only [removeEntry, update_of_ne hx]

theorem lookup_setEntry_of_ne (s : CmdInterp) (hne : ¬(x = pNs ∧ l = k)) :
    ((s.setEntry pNs k pData).paCmd x).lookup l = (s.paCmd x).lookup l := by
  by_cases hx : x = pNs
  · subst hx
    simp only [setEntry, update_self]
    exact AList.lookup_insert_ne fun hl => hne ⟨rfl, hl⟩
  · simp only [setEntry, update_of_ne hx]

theorem lookup_setEntry (h : ((s.setEntry pNs k pData).paCmd x).lookup l = some e) :
    (x = pNs ∧ l = k) ∧ e = pData ∨ ¬(x = pNs ∧ l = k) ∧ (s.paCmd x).lookup l = some e := by
  by_cases hxl : x = pNs ∧ l = k
  · obtain ⟨rfl, rfl⟩ := hxl
    simp only [setEntry, update_self, AList.lookup_insert, some.injEq] at h
    exact .inl ⟨⟨rfl, rfl⟩, h.symm⟩
  · exact .inr ⟨hxl, (lookup_setEntry_of_ne s hxl).symm.trans h⟩

end Lookup

namespace CmdInv

variable {s s' : CmdInterp} {held held' : List CmdId} {c : CmdId}

theorem shrink (h : CmdInv s held)
    (hentry : ∀ x ns l e, s'.namespaces x = some ns → (s'.paCmd x).lookup l = some e →
      (∃ ns', s.namespaces x = some ns') ∧ (s.paCmd x).lookup l = some e ∧
        ∀ d, e = some d → s.Live d → s'.Live d)
    (hheld : ∀ d ∈ held', d ∈ held ∧ (s.Live d → s'.Live d)) (hnodup : held'.Nodup) :
    CmdInv s' held' := by
  refine ⟨?_, ?_, fun d hd => (hheld d hd).2 (h.heldLive d (hheld d hd).1), hnodup⟩
  · intro x ns l e hx hl
    obtain ⟨⟨ns', hx'⟩, hl', hlive⟩ := hentry x ns l e hx hl
    obtain ⟨d, rfl, hd, hdl⟩ := h.entry x ns' l e hx' hl'
    exact ⟨d, rfl, fun hmem => hd (hheld d hmem).1, hlive d rfl hdl⟩
  · intro x ns x' ns' l l' d hx hx' hl hl'
    obtain ⟨⟨n, hn⟩, hl, -⟩ := hentry x ns l _ hx hl
    obtain ⟨⟨n', hn'⟩, hl', -⟩ := hentry x' ns' l' _ hx' hl'
    exact h.unique x n x' n' l l' d hn hn' hl hl'

theorem congr (h : CmdInv s held) (hns : s'.namespaces = s.namespaces)
    (hpaCmd : s'.paCmd = s.paCmd) (hlive : ∀ d, s.Live d → s'.Live d) :
    CmdInv s' held := by
  refine h.shrink ?_ (fun d hd => ⟨hd, hlive d⟩) h.nodup
  intro x ns l e hx hl
  rw [hns] at hx
  rw [hpaCmd] at hl
  exact ⟨⟨ns, hx⟩, hl, fun d _ => hlive d⟩

theorem link (h : CmdInv s held) (c : CmdId) (pNs : NsId) (k : Bytes) (hc : c ∉ held)
    (hfree : ∀ x ns l, s.namespaces x = some ns → (s.paCmd x).lookup l ≠ some (some c))
    (hns : s'.namespaces = s.namespaces)
    (hentry : ∀ x l e, (s'.paCmd x).lookup l = some e → (x = pNs ∧ l = k) ∧ e = some c ∨
      (s.paCmd x).lookup l = some e)
    (hlive : ∀ d, s.Live d ∨ d = c → s'.Live d) : CmdInv s' held := by
  refine ⟨?_, ?_, fun d hd => hlive d (.inl (h.heldLive d hd)), h.nodup⟩
  · intro x ns l e hx hl
    rw [hns] at hx
    rcases hentry x l e hl with ⟨-, rfl⟩ | hl
    · exact ⟨c, rfl, hc, hlive c (.inr rfl)⟩
    · obtain ⟨d, rfl, hd, hdl⟩ := h.entry x ns l e hx hl
      exact ⟨d, rfl, hd, hlive d (.inl hdl)⟩
  · intro x ns x' ns' l l' d hx hx' hl hl'
    rw [hns] at hx hx'
    rcases hentry x l _ hl with ⟨hxl, heq⟩ | hl
    · rcases hentry x' l' _ hl' with ⟨hxl', -⟩ | hl'
      · exact ⟨hxl.1.trans hxl'.1.symm, hxl.2.trans hxl'.2.symm⟩
      · exact absurd (heq ▸ hl') (hfree x' ns' l' hx')
    · rcases hentry x' l' _ hl' with ⟨-, heq⟩ | hl'
      · exact absurd (heq ▸ hl) (hfree x ns l hx)
      · exact h.unique x ns x' ns' l l' d hx hx' hl hl'

variable {pNs : NsId}

section

variable (h : CmdInv s held)

include h

theorem unlink {ns : Namespace} {k : Bytes} (hns : s.namespaces pNs = some ns)
    (hk : (s.paCmd pNs).lookup k = some (some c)) :
    CmdInv (s.removeEntry pNs k) (held ++ [c]) := by
  obtain ⟨d, hd, hheld, hlive⟩ := h.entry pNs ns k _ hns hk
  cases hd
  refine ⟨?_, ?_, ?_, ?_⟩
  · intro x nx l e hx hl
    obtain ⟨hne, hl⟩ := lookup_removeEntry hl
    obtain ⟨d, rfl, hheld', hlive'⟩ := h.entry x nx l e hx hl
    refine ⟨d, rfl, ?_, hlive'⟩
    rw [mem_append, mem_singleton, not_or]
    refine ⟨hheld', fun hdc => ?_⟩
    subst hdc
    exact hne (h.unique x nx pNs ns l k d hx hns hl hk)
  · intro x nx x' nx' l l' d hx hx' hl hl'
    exact h.unique x nx x' nx' l l' d hx hx' (lookup_removeEntry hl).2 (lookup_removeEntry hl').2
  · intro d hd
    rcases mem_append.mp hd with hd | hd
    · exact h.heldLive d hd
    · obtain rfl : d = c := mem_singleton.mp hd
      exact hlive
  · rw [nodup_append]
    refine ⟨h.nodup, nodup_singleton c, ?_⟩
    rintro a ha b hb rfl
    exact hheld (mem_singleton.mp hb ▸ ha)

theorem removeEntry (pNs : NsId) (k : Bytes) : CmdInv (s.removeEntry pNs k) held := by
  refine h.shrink ?_ (fun d hd => ⟨hd, id⟩) h.nodup
  intro x ns l e hx hl
  exact ⟨⟨ns, hx⟩, (lookup_removeEntry hl).2, fun _ _ => id⟩

theorem of_undone {f : NsId → CmdTable} (hf : Undone s.paCmd f) :
    CmdInv { s with paCmd := f } held := by
  refine h.shrink ?_ (fun d hd => ⟨hd, id⟩) h.nodup
  intro x ns l e hx hl
  refine ⟨⟨ns, hx⟩, ?_, fun _ _ => id⟩
  rcases hf x l with heq | ⟨hnone, -⟩
  · exact heq ▸ hl
  · exact absurd (hnone.symm.trans hl) (by simp)

theorem released {C : CmdId → Prop} (hr : Released s s' C)
    (hentry : ∀ x ns l e, s'.namespaces x = some ns → (s'.paCmd x).lookup l = some e →
      (∃ ns', s.namespaces x = some ns') ∧ (s.paCmd x).lookup l = some e ∧ ∀ d, e = some d → ¬C d)
    (hheld : ∀ d ∈ held', d ∈ held ∧ ¬C d) (hnodup : held'.Nodup) : CmdInv s' held' := by
  have hlive : ∀ d, ¬C d → s.Live d → s'.Live d := by
    rintro d hd ⟨cmd, hcmd⟩
    exact ⟨cmd, ((hr.commands d).2 hd).trans hcmd⟩
  refine h.shrink ?_ (fun d hd => ⟨(hheld d hd).1, hlive d (hheld d hd).2⟩) hnodup
  intro x ns l e hx hl
  obtain ⟨hns, hl, hC⟩ := hentry x ns l e hx hl
  exact ⟨hns, hl, fun d hd => hlive d (hC d hd)⟩

theorem moveTo {t : NsTree}
    (hlater : ∀ x, x < s.nextNs → s.namespaces x = none → t.namespaces x = none)
    (hmove : s.moveTo t = some s') : CmdInv s' held := by
  have hspec := moveTo_spec hmove
  have htable : ∀ {x ns l e}, s'.namespaces x = some ns → (s'.paCmd x).lookup l = some e →
      x ∉ s.releasedNs t ∧ (∃ ns', s.namespaces x = some ns') ∧ (s.paCmd x).lookup l = some e := by
    intro x ns l e hx hl
    rw [hspec.paCmd] at hl
    split_ifs at hl with hold
    · refine ⟨hold.2, ?_, hl⟩
      rcases hns : s.namespaces x with _ | ns'
      · have hnone := hlater x hold.1 hns
        rw [← hspec.toNsTree, hx] at hnone
        simp at hnone
      · exact ⟨ns', rfl⟩
    · simp at hl
  refine h.released hspec.released ?_ (fun d hd => ⟨hd, ?_⟩) h.nodup
  · intro x ns l e hx hl
    obtain ⟨hout, ⟨ns', hns⟩, hl⟩ := htable hx hl
    refine ⟨⟨ns', hns⟩, hl, ?_⟩
    rintro d rfl ⟨y, l', hy, hl'⟩
    obtain ⟨-, ⟨ny, hny⟩, -⟩ := mem_releasedNs.mp hy
    exact hout ((h.unique x ns' y ny l l' d hns hny hl hl').1 ▸ hy)
  · rintro ⟨y, l, hy, hl⟩
    obtain ⟨-, ⟨ny, hny⟩, -⟩ := mem_releasedNs.mp hy
    obtain ⟨d', hd', hnot, -⟩ := h.entry y ny l _ hny hl
    exact hnot (some.inj hd' ▸ hd)

/-! ## Creation -/

theorem lt_nextCmd_of_entry (hsub : SubInv False s) {x : NsId}
    {ns : Namespace} {l : Bytes} (hx : s.namespaces x = some ns)
    (hl : (s.paCmd x).lookup l = some (some c)) : c < s.nextCmd := by
  obtain ⟨d, hd, -, cmd, hcmd⟩ := h.entry x ns l _ hx hl
  cases hd
  exact hsub.lt_nextCmd hcmd

end

theorem commitCommand (h : CmdInv s s.pendingCmd) (hsub : SubInv False s) {zTail zName : Bytes}
    {handler : Handler} {r : CmdResult} (hrun : (s.withCmdToken.setEntry pNs zTail ((s.paCmd
      pNs).lookup zTail).join).commitCommand pNs zTail zName handler ((s.paCmd pNs).lookup
      zTail).join = some (s', r)) : CmdInv s' s'.pendingCmd := by
  obtain ⟨-, ⟨hnone, rfl⟩ | ⟨c, old, s₁, hold, hc, h₁, rfl⟩⟩ := commitCommand_cases hrun
  · refine h.link s.nextCmd pNs zTail ?_ ?_ rfl ?_ ?_
    · intro hmem
      obtain ⟨cmd, hcmd⟩ := h.heldLive _ hmem
      exact Nat.lt_irrefl _ (hsub.lt_nextCmd hcmd)
    · intro x ns l hx hl
      exact Nat.lt_irrefl _ (h.lt_nextCmd_of_entry hsub hx hl)
    · intro x l e hl
      have hl := lookup_setEntry (s := s.withCmdToken.setEntry pNs zTail
        ((s.paCmd pNs).lookup zTail).join) hl
      rcases hl with hnew | ⟨hne, hl⟩
      · exact .inl hnew
      · rcases lookup_setEntry hl with ⟨heq, -⟩ | ⟨-, hl⟩
        · exact absurd heq hne
        · exact .inr hl
    · rintro d (⟨cmd, hcmd⟩ | rfl)
      · have hd : d ≠ s.nextCmd := Nat.ne_of_lt (hsub.lt_nextCmd hcmd)
        refine ⟨cmd, ?_⟩
        change update s.commands s.nextCmd _ d = some cmd
        rw [update_of_ne hd, hcmd]
      · exact ⟨_, update_self ..⟩
  · obtain ⟨index, heq, -⟩ := removeCmdTokenEntry_eq
      (s.withCmdToken.setEntry pNs zTail ((s.paCmd pNs).lookup zTail).join) old
    rw [heq] at h₁
    obtain ⟨cmd₀, -, hcount, htables, hcommands, -⟩ := freeSubCommands_spec h₁
    have hentry := join_eq_some_iff.mp hold
    -- The entry of the replaced command is written twice with what it holds.
    have hsame : ∀ {x l e}, ((s₁.publish pNs zTail c
        ((s.withCmdToken.setEntry pNs zTail ((s.paCmd pNs).lookup zTail).join).newCommand
          (some old) zName handler pNs)).paCmd x).lookup l = some e →
        (s.paCmd x).lookup l = some e := by
      intro x l e hl
      rcases lookup_setEntry (s := s₁) hl with ⟨⟨rfl, rfl⟩, rfl⟩ | ⟨hne, hl⟩
      · exact hentry
      · rw [htables.paCmd] at hl
        rcases lookup_setEntry hl with ⟨heq, -⟩ | ⟨-, hl⟩
        · exact absurd heq hne
        · exact hl
    have hlive : ∀ d, s.Live d → (s₁.publish pNs zTail c
        ((s.withCmdToken.setEntry pNs zTail ((s.paCmd pNs).lookup zTail).join).newCommand
          (some old) zName handler pNs)).Live d := by
      rintro d ⟨cmd, hcmd⟩
      by_cases hd : d = c
      · subst hd
        exact ⟨_, update_self ..⟩
      · refine ⟨cmd, ?_⟩
        change update s₁.commands c _ d = some cmd
        rw [update_of_ne hd, hcommands, update_of_ne hd]
        exact hcmd
    have hpending : s₁.pendingCmd = s.pendingCmd := hcount.pendingCmd
    refine h.shrink ?_ (fun d hd => ⟨hpending ▸ hd, hlive d⟩) (hpending ▸ h.nodup)
    intro x ns l e hx hl
    have hns : s₁.namespaces = s.namespaces := by rw [htables.toNsTree]; rfl
    exact ⟨⟨ns, hns ▸ hx⟩, hsame hl, fun d _ => hlive d⟩

theorem createIn (h : CmdInv s s.pendingCmd) (hsub : SubInv False s) {mem : CreateMemory}
    {root : Option NsId} {zTail zName : Bytes} {handler : Handler} {r : CmdResult}
    (hlater : ∀ t, s.toNsTree.rollback root = some t → ∀ x, x < s.nextNs → s.namespaces x = none →
      t.namespaces x = none) (hrun : s.createIn mem pNs root zTail zName handler = some (s', r)) :
    CmdInv s' s'.pendingCmd := by
  obtain ⟨-, ⟨f, hf, hout⟩ | hcommit⟩ := createIn_cases hrun
  · obtain ⟨t, ht, hmove, -⟩ := outOfMemory_cases hout
    have hmoved := (h.of_undone hf).moveTo (hlater t ht) hmove
    rw [(moveTo_spec hmove).released.counters.pendingCmd]
    exact hmoved
  · exact h.commitCommand hsub hcommit

end CmdInv

theorem CreateOutcome.rollback_later {t t' t'' : NsTree} (h' : t'.Inv) {pNs : NsId}
    {root : Option NsId} (hout : CreateOutcome t t' (.found pNs root))
    (hroll : t'.rollback root = some t'') : Later t' t'' := by
  match root, hout with
  | none, _ =>
    cases hroll
    exact .of_eq rfl rfl rfl
  | some root, ⟨hg, _⟩ =>
    obtain ⟨p, ns, k, -, -, hp, -⟩ := hg.under
    obtain ⟨t₁, ht₁, -, hlater, -⟩ := h'.unlinkFree_gone hp (AList.lookup_insert _)
    obtain rfl : t₁ = t'' := some.inj (ht₁.symm.trans hroll)
    exact hlater

structure Sound (s : CmdInterp) : Prop where
  tree : s.toNsTree.Inv
  subs : SubInv False s
  cmds : CmdInv s s.pendingCmd

section Operations

variable {s s' : CmdInterp}

theorem Sound.moveTo_outcome (h : Sound s) {t : NsTree} {r : CreateResult} (ht : t.Inv)
    (hout : CreateOutcome s.toNsTree t r) (hmove : s.moveTo t = some s') : Sound s' := by
  refine ⟨(moveTo_spec hmove).toNsTree ▸ ht, h.subs.moveTo hmove, ?_⟩
  rw [(moveTo_spec hmove).released.counters.pendingCmd]
  exact h.cmds.moveTo (CreateOutcome.later h.tree hout).released hmove

variable {r : CmdResult}

theorem Sound.createCommand (h : Sound s) {mem : CreateMemory} {zName : Bytes} {handler : Handler}
    (hclean : CleanName s zName) (hrun : s.createCommand mem zName handler = some (s', r)) :
    CmdInv s' s'.pendingCmd := by
  rcases createCommand_cases hrun with ⟨-, -, hin⟩ | ⟨zNs, zTail, t, res, hsplit, hfind, hend⟩
  · refine h.cmds.createIn h.subs ?_ hin
    intro t ht x _ hx
    cases ht
    exact hx
  · obtain ⟨hinv, hout⟩ := NsTree.Inv.findNamespaceEx h.tree (hclean zNs zTail hsplit) hfind
    rcases hend with ⟨e, rfl, hmove, -⟩ | ⟨pNs, root, s₁, rfl, hmove, hin⟩
    · exact (h.moveTo_outcome hinv hout hmove).cmds
    · have h₁ := h.moveTo_outcome hinv hout hmove
      refine h₁.cmds.createIn h₁.subs ?_ hin
      intro t' ht' x hx hnone
      have htree := (moveTo_spec hmove).toNsTree
      rw [htree] at ht'
      have hlater := CreateOutcome.rollback_later hinv hout ht'
      exact hlater.released x (htree ▸ hx) (by rw [← htree]; exact hnone)

variable {pNs : NsId} {ns : Namespace}

theorem CmdInv.deleteEntry (h : CmdInv s s.pendingCmd) {zTail : Bytes} {pData : Option CmdId}
    (hns : s.namespaces pNs = some ns) (hk : (s.paCmd pNs).lookup zTail = some pData)
    (hrun : s.deleteEntry pNs zTail pData = some s') : CmdInv s' s'.pendingCmd := by
  rcases deleteEntry_cases hrun with ⟨-, rfl⟩ | ⟨c, cmd, rfl, -, ⟨-, rfl⟩ | ⟨-, rfl⟩⟩
  · exact h.removeEntry pNs zTail
  · obtain ⟨index, heq, -⟩ := removeCmdTokenEntry_eq (s.removeEntry pNs zTail) cmd
    rw [heq]
    exact (h.unlink hns hk).congr rfl rfl fun _ => id
  · obtain ⟨index, heq, -⟩ := removeCmdTokenEntry_eq (s.removeEntry pNs zTail) cmd
    rw [heq]
    obtain ⟨d, hd, hheld, -⟩ := h.entry pNs ns zTail _ hns hk
    cases hd
    have hlive : ∀ d, d ≠ c → s.Live d → (({ s.removeEntry pNs zTail with
        paCmdToken := index } : CmdInterp).releaseCommand c).Live d := by
      rintro d hne ⟨cmd', hcmd'⟩
      exact ⟨cmd', (update_of_ne hne ..).trans hcmd'⟩
    refine h.shrink ?_ (fun d hd => ⟨hd, hlive d fun hdc => hheld (hdc ▸ hd)⟩) h.nodup
    intro x nx l e hx hl
    obtain ⟨hne, hl₀⟩ := lookup_removeEntry hl
    refine ⟨⟨nx, hx⟩, hl₀, fun d hd => hlive d fun hdc => ?_⟩
    subst hd hdc
    exact hne (h.unique x nx pNs ns l zTail d hx hns hl₀ hk)

theorem CmdInv.moveEntry (h : CmdInv s s.pendingCmd) {mem : RenameMemory} {pNewNs : NsId}
    {zTail zNewTail zNew : Bytes} {pData : Option CmdId} (hns : s.namespaces pNs = some ns)
    (hk : (s.paCmd pNs).lookup zTail = some pData)
    (hrun : s.moveEntry mem pNs zTail pData pNewNs zNewTail zNew = some (s', r)) :
    CmdInv s' s'.pendingCmd := by
  obtain ⟨c, rfl, hheld, hlive⟩ := h.entry pNs ns zTail pData hns hk
  rcases moveEntry_cases hrun with rfl | ⟨nsNew, hnew, -, ⟨hnull, -⟩ | ⟨c', cmd, hc', hc, rfl⟩⟩
  · exact h
  · simp at hnull
  · cases hc'
    refine (h.removeEntry pNs zTail).link c pNewNs zNewTail hheld ?_ rfl ?_ ?_
    · intro x nx l hx hl
      obtain ⟨hne, hl⟩ := lookup_removeEntry hl
      exact hne (h.unique x nx pNs ns l zTail c hx hns hl hk)
    · intro x l e hl
      obtain ⟨hne, hl₀⟩ := lookup_removeEntry (s := s.setEntry pNewNs zNewTail (some c)) hl
      rcases lookup_setEntry hl₀ with hnew | ⟨-, hl₁⟩
      · exact .inl hnew
      · exact .inr ((lookup_removeEntry_of_ne s hne).trans hl₁)
    · intro d hd
      by_cases hdc : d = c
      · subst hdc
        exact ⟨_, update_self ..⟩
      · obtain ⟨cmd', hcmd'⟩ := hd.resolve_right hdc
        exact ⟨cmd', (update_of_ne hdc ..).trans hcmd'⟩

theorem Sound.renameCommand (h : Sound s) {mem : RenameMemory} {zOld zNew : Bytes}
    (hclean : CleanName s zNew) (hrun : s.renameCommand mem zOld zNew = some (s', r)) :
    CmdInv s' s'.pendingCmd := by
  rcases renameCommand_cases hrun with rfl |
    ⟨pNs, ns, zTail, pData, -, hns, hk, -, ⟨-, hdel⟩ | ⟨-, s₁, _, _, hnew, hmove⟩⟩
  · exact h.cmds
  · exact h.cmds.deleteEntry hns hk hdel
  · rcases newEntryFor_cases hnew with ⟨rfl, -⟩ | ⟨zNs, t, root, hsplit, hfind, hmoveTo⟩
    · exact h.cmds.moveEntry hns hk hmove
    · obtain ⟨hinv, hout⟩ := NsTree.Inv.findNamespaceEx h.tree (hclean zNs _ hsplit) hfind
      have h₁ := h.moveTo_outcome hinv hout hmoveTo
      obtain ⟨-, hold, -⟩ := moveTo_of_outcome h.tree hout hmoveTo
      obtain ⟨ns', hns'⟩ := CreateOutcome.allocated h.tree hout hns
      have htree := (moveTo_spec hmoveTo).toNsTree
      have hns₁ : s₁.namespaces pNs = some ns' := by rw [htree]; exact hns'
      refine h₁.cmds.moveEntry hns₁ ?_ hmove
      rw [hold pNs (ForestInv.lt_nextNs h.tree hns), hk]

/-! ## The other operations -/

section

variable (h : CmdInv s s.pendingCmd)

include h

theorem CmdInv.createSubCommand {mem : SubMemory}
    {zCmdName zSubName : Bytes} {handler : Handler}
    (hrun : s.createSubCommand mem zCmdName zSubName handler = some (s', r)) :
    CmdInv s' s'.pendingCmd := by
  have hlive : ∀ {c cmd d}, s.Live d → ∃ cmd', update s.commands c (some cmd) d = some cmd' := by
    rintro c cmd d ⟨cmd', hcmd'⟩
    by_cases hd : d = c
    · subst hd
      exact ⟨_, update_self ..⟩
    · exact ⟨cmd', (update_of_ne hd ..).trans hcmd'⟩
  rcases createSubCommand_cases hrun with rfl | ⟨c, cmd, hc, hin⟩
  · exact h
  · rcases createSubIn_cases hc hin with ⟨-, rfl⟩ | ⟨-, ⟨pOld, old, -, -, rfl⟩ | ⟨-, rfl⟩⟩
    · exact h
    · obtain ⟨index, heq, -⟩ := removeSubTokenEntry_eq s old
      rw [heq]
      exact h.congr rfl rfl fun _ => hlive
    · exact h.congr rfl rfl fun _ => hlive

theorem CmdInv.deleteSubCommand {token : ℕ}
    (hrun : s.deleteSubCommand token = some (s', r)) : CmdInv s' s'.pendingCmd := by
  rcases deleteSubCommand_cases hrun with rfl | ⟨pSub, sub, cmd, T, -, -, -, -, rfl⟩
  · exact h
  · obtain ⟨index, heq, -⟩ := removeSubTokenEntry_eq s sub
    rw [heq]
    refine h.congr rfl rfl ?_
    rintro d ⟨cmd', hcmd'⟩
    by_cases hd : d = sub.pParent
    · subst hd
      exact ⟨_, update_self ..⟩
    · exact ⟨cmd', (update_of_ne hd ..).trans hcmd'⟩

theorem CmdInv.freeCommandsOf (hns : s.namespaces pNs = some ns)
    (hrun : s.freeCommandsOf pNs = some s') :
    CmdInv s' s'.pendingCmd := by
  have hspec := freeCommandsOf_spec hrun
  have hpending : s'.pendingCmd = s.pendingCmd := hspec.released.counters.pendingCmd
  rw [hpending]
  refine h.released hspec.released ?_ (fun d hd => ⟨hd, ?_⟩) h.nodup
  · intro x nx l e hx hl
    rw [hspec.paCmd] at hl
    split_ifs at hl with hmem
    · simp at hl
    · have hx' : s.namespaces x = some nx := by rw [← hspec.toNsTree]; exact hx
      refine ⟨⟨nx, hx'⟩, hl, ?_⟩
      rintro d rfl ⟨y, l', hy, hl'⟩
      obtain rfl : y = pNs := mem_singleton.mp hy
      exact hmem ((h.unique x nx y ns l l' d hx' hns hl hl').1 ▸ hy)
  · rintro ⟨y, l, hy, hl⟩
    obtain rfl : y = pNs := mem_singleton.mp hy
    obtain ⟨d', hd', hnot, -⟩ := h.entry y ns l _ hns hl
    exact hnot (some.inj hd' ▸ hd)

end

theorem Sound.deleteNamespace (h : Sound s) {zName : Bytes} {granted : Bool} {r : NsResult}
    (hrun : s.deleteNamespace zName granted = some (s', r)) : CmdInv s' s'.pendingCmd := by
  obtain ⟨t, s₁, hdel, hmove, hend⟩ := deleteNamespace_cases hrun
  obtain ⟨hinv, hlater⟩ := delete_inv h.tree hdel
  have h₁ : CmdInv s₁ s₁.pendingCmd := by
    rw [(moveTo_spec hmove).released.counters.pendingCmd]
    exact h.cmds.moveTo hlater.released hmove
  rcases hend with rfl | ⟨s₂, z, hfree, rfl⟩
  · exact h₁
  · obtain ⟨g, hg, -⟩ := hinv.global
    have hg₁ : s₁.namespaces globalNs = some g := by
      rw [(moveTo_spec hmove).toNsTree]
      exact hg
    exact (h₁.freeCommandsOf hg₁ hfree).congr rfl rfl fun _ => id

theorem Sound.drainPendingDeletes (h : Sound s) (hrun : s.drainPendingDeletes = some s') :
    CmdInv s' s'.pendingCmd := by
  obtain ⟨s₁, t, hdrain, hns, hmove⟩ := drainPendingDeletes_cases hrun
  obtain ⟨hr, htables⟩ := foldlM_drainCommand_spec hdrain
  have htree : s₁.toNsTree = s.toNsTree := htables.toNsTree
  have hempty : s₁.pendingCmd = [] := hr.counters.pendingCmd
  have h₀ : CmdInv { s with pendingCmd := [] } s.pendingCmd := h.cmds.congr rfl rfl fun _ => id
  have h₁ : CmdInv s₁ [] := by
    refine h₀.released hr ?_ (by simp) nodup_nil
    intro x ns l e hx hl
    rw [htree] at hx
    rw [htables.paCmd] at hl
    obtain ⟨c, rfl, hc, -⟩ := h.cmds.entry x ns l e hx hl
    refine ⟨⟨ns, hx⟩, hl, ?_⟩
    rintro d hd
    exact some.inj hd ▸ hc
  rw [(moveTo_spec hmove).released.counters.pendingCmd, hempty]
  refine h₁.moveTo ?_ hmove
  have hinv : s₁.toNsTree.Inv := htree ▸ h.tree
  exact (drain_inv hinv hns).2.released

end Operations

end CmdInterp

end Th8
