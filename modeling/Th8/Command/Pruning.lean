import Th8.Command.ProcDefns
import Th8.Namespace.Growth

/-!
# Namespaces that are deleted

A deletion and the end of the last evaluation release the namespaces that the condition
speaks of and no others, and the commands in their tables go along.
-/

namespace Th8

open Support Option

namespace CmdInterp

def depthAfter (s : CmdInterp) : Op → ℕ
  | .leaveEval => 0
  | _ => s.nEvalDepth

/-- What the deletion of namespaces leaves: the namespaces that are not doomed, and the
commands that do not go along with the doomed ones. -/
structure Deleted (s s' : CmdInterp) (op : Op) : Prop where
  kept : ∀ x ns, s.namespaces x = some ns → ¬s.Doomed op x → ∃ ns', s'.namespaces x = some ns'
  fresh : s'.toNsTree.Fresh
  current : s'.pCurrentNs = s.currentAfter op
  depth : s'.nEvalDepth = s.depthAfter op
  nextCmd : s'.nextCmd = s.nextCmd
  commands : ∀ c cmd, s'.commands c = some cmd ↔ s.commands c = some cmd ∧ ¬s.GoesAlong op c

structure Pruned (s : CmdInterp) (op : Op) (t : NsTree) : Prop where
  kept : ∀ x ns, s.namespaces x = some ns → ¬s.Doomed op x → ∃ ns', t.namespaces x = some ns'
  gone : ∀ x, s.Doomed op x → t.namespaces x = none
  fresh : t.Fresh
  current : t.pCurrentNs = s.currentAfter op
  depth : t.nEvalDepth = s.depthAfter op

variable {s s' : CmdInterp}

theorem Pruned.commands {op : Op} {t : NsTree} (hpruned : s.Pruned op t)
    (hfresh : s.toNsTree.Fresh) {s₁ : CmdInterp} (hns : s₁.namespaces = s.namespaces)
    (hnext : s₁.nextNs = s.nextNs) (hpaCmd : s₁.paCmd = s.paCmd)
    (hmove : s₁.moveTo t = some s') (c : CmdId) (cmd : CommandRecord) :
    s'.commands c = some cmd ↔ s₁.commands c = some cmd ∧
      ¬∃ x ns k, s.namespaces x = some ns ∧ s.Doomed op x ∧
        (s.paCmd x).lookup k = some (some c) := by
  have hspec := moveTo_spec hmove
  have hgone : s₁.InTableOf (s₁.releasedNs t) c ↔
      ∃ x ns k, s.namespaces x = some ns ∧ s.Doomed op x ∧
        (s.paCmd x).lookup k = some (some c) := by
    constructor
    · rintro ⟨x, k, hx, hk⟩
      obtain ⟨-, ⟨ns, hx⟩, hnone⟩ := mem_releasedNs.mp hx
      rw [hns] at hx
      refine ⟨x, ns, k, hx, ?_, hpaCmd ▸ hk⟩
      by_contra hnot
      obtain ⟨ns', hns'⟩ := hpruned.kept x ns hx hnot
      rw [hnone] at hns'
      cases hns'
    · rintro ⟨x, ns, k, hx, hdoomed, hk⟩
      refine ⟨x, k, mem_releasedNs.mpr ⟨?_, ⟨ns, ?_⟩, hpruned.gone x hdoomed⟩, ?_⟩
      · rw [hnext]
        exact hfresh.lt_nextNs hx
      · rw [hns]
        exact hx
      · rw [hpaCmd]
        exact hk
  rw [← hgone]
  by_cases hin : s₁.InTableOf (s₁.releasedNs t) c
  · simp [(hspec.released.commands c).1 hin, hin]
  · simp [(hspec.released.commands c).2 hin, hin]

theorem unlink_setCurrent {t t' : NsTree} {q cur : NsId}
    (hrun : ({ t with pCurrentNs := cur } : NsTree).unlink q = some t') :
    t.unlink q = some { t' with pCurrentNs := t.pCurrentNs } ∧ t'.pCurrentNs = cur ∧
      t'.nextNs = t.nextNs ∧ t'.nEvalDepth = t.nEvalDepth := by
  unfold NsTree.unlink at hrun ⊢
  rcases hq : t.namespaces q with _ | ns
  · simp [hq] at hrun
  · rcases hp : ns.pParent with _ | p
    · simp only [hq, hp, some.injEq] at hrun
      subst hrun
      simp [hp]
    · rcases hparent : t.namespaces p with _ | parent
      · simp [hq, hp, hparent] at hrun
      · simp only [hq, hp, hparent, some.injEq] at hrun
        subst hrun
        simp [hp, hparent]

theorem pruned_global (hfresh : s.toNsTree.Fresh) {zName : Bytes} {granted : Bool}
    {ns : Namespace} {m : Memory NsId Namespace}
    (hfind : s.findNamespace zName = some (some globalNs))
    (hns : s.namespaces globalNs = some ns)
    (hm : ns.kids.foldlM (release Namespace.kids releaseFuel) s.namespaces = some m) :
    s.Pruned (.deleteNamespace zName granted)
      { s.toNsTree with
        namespaces := Function.update m globalNs (some { ns with paChild := ∅ })
        pCurrentNs := globalNs } := by
  have hcleared := foldlM_release_of_eq (fun _ _ _ => cleared_of_release) hm
  have hdoomed : ∀ x, s.Doomed (.deleteNamespace zName granted) x ↔
      x ≠ globalNs ∧ ∃ c ∈ ns.kids, Below Namespace.kids s.namespaces c x := by
    intro x
    constructor
    · rintro ⟨q, hq, ⟨hne, -⟩ | ⟨-, hx, ns', hns', hbelow⟩⟩
      · rw [hfind, some.injEq, some.injEq] at hq
        exact absurd hq.symm hne
      · obtain rfl := some.inj (hns.symm.trans hns')
        exact ⟨hx, hbelow⟩
    · rintro ⟨hx, hbelow⟩
      exact ⟨globalNs, hfind, .inr ⟨rfl, hx, ns, hns, hbelow⟩⟩
  refine ⟨?_, ?_, hfresh.shrink rfl ?_ hfresh.pending, ?_, rfl⟩
  · intro x nsx hx hnot
    rw [hdoomed] at hnot
    by_cases hg : x = globalNs
    · subst hg
      have hself : Function.update m globalNs (some { ns with paChild := ∅ }) globalNs =
          some { ns with paChild := ∅ } := Function.update_self ..
      exact ⟨_, hself⟩
    · refine ⟨nsx, (Function.update_of_ne hg ..).trans ?_⟩
      rw [(hcleared x).2 fun hbelow => hnot ⟨hg, hbelow⟩]
      exact hx
  · intro x hx
    obtain ⟨hg, hbelow⟩ := (hdoomed x).mp hx
    exact (Function.update_of_ne hg ..).trans ((hcleared x).1 hbelow)
  · intro x nsx hx
    by_cases hg : x = globalNs
    · subst hg
      have hself : Function.update m globalNs (some { ns with paChild := ∅ }) globalNs =
          some nsx := hx
      rw [Function.update_self, some.injEq] at hself
      subst hself
      exact ⟨ns, hns, by simp [Namespace.kids]⟩
    · have hmx : m x = some nsx := (Function.update_of_ne hg ..).symm.trans hx
      by_cases hbelow : ∃ c ∈ ns.kids, Below Namespace.kids s.namespaces c x
      · rw [(hcleared x).1 hbelow] at hmx
        cases hmx
      · exact ⟨nsx, ((hcleared x).2 hbelow).symm.trans hmx, fun _ => id⟩
  · exact (if_pos (.inr hfind)).symm

theorem pruned_unlinkFree (hfresh : s.toNsTree.Fresh) {zName : Bytes} {granted : Bool}
    {q cur : NsId} {t : NsTree} (hfind : s.findNamespace zName = some (some q))
    (hq : q ≠ globalNs) (hcur : cur = s.currentAfter (.deleteNamespace zName granted))
    (hrun : ({ s.toNsTree with pCurrentNs := cur } : NsTree).unlinkFreeNamespace q = some t) :
    s.Pruned (.deleteNamespace zName granted) t := by
  simp only [NsTree.unlinkFreeNamespace] at hrun
  rcases hunlink : ({ s.toNsTree with pCurrentNs := cur } : NsTree).unlink q with _ | t₁
  · simp [hunlink] at hrun
  · obtain ⟨hunlink', hcur₁, hnext, hdepth⟩ := unlink_setCurrent hunlink
    obtain ⟨⟨-, -, -, hpending⟩, hstay, hback⟩ := NsTree.unlink_records hunlink'
    have hdoomed : ∀ x, s.Doomed (.deleteNamespace zName granted) x ↔
        s.nEvalDepth = 0 ∧ Below Namespace.kids t₁.namespaces q x := by
      intro x
      constructor
      · rintro ⟨q', hq', ⟨-, hzero, t₂, ht₂, hbelow⟩ | ⟨hg, -⟩⟩
        · rw [hfind, some.injEq, some.injEq] at hq'
          subst hq'
          obtain rfl := some.inj (hunlink'.symm.trans ht₂)
          exact ⟨hzero, hbelow⟩
        · rw [hfind, some.injEq, some.injEq] at hq'
          exact absurd (hq'.trans hg) hq
      · rintro ⟨hzero, hbelow⟩
        exact ⟨q, hfind, .inl ⟨hq, hzero, _, hunlink', hbelow⟩⟩
    simp only [hunlink] at hrun
    split_ifs at hrun with hpos
    · cases hrun
      have hnot : ∀ x, ¬s.Doomed (.deleteNamespace zName granted) x := by
        intro x hx
        rw [((hdoomed x).mp hx).1] at hpos
        exact Nat.lt_irrefl 0 hpos
      refine ⟨fun x ns hx _ => hstay x ns hx, fun x hx => absurd hx (hnot x),
        hfresh.shrink hnext hback ?_, hcur₁.trans hcur, hdepth⟩
      intro hmem
      rcases List.mem_append.mp hmem with hmem | hmem
      · exact hfresh.pending (hpending ▸ hmem)
      · exact hq (List.mem_singleton.mp hmem).symm
    · obtain ⟨m, hm, rfl⟩ := map_eq_some_iff.mp hrun
      have hcleared := cleared_of_release hm
      have hzero : s.nEvalDepth = 0 := Nat.eq_zero_of_not_pos hpos
      refine ⟨?_, ?_, hfresh.shrink hnext ?_ ?_, hcur₁.trans hcur, hdepth⟩
      · intro x ns hx hnot
        obtain ⟨ns', hns'⟩ := hstay x ns hx
        refine ⟨ns', ((hcleared x).2 fun hbelow => ?_).trans hns'⟩
        exact hnot ((hdoomed x).mpr ⟨hzero, hbelow⟩)
      · intro x hx
        exact (hcleared x).1 ((hdoomed x).mp hx).2
      · intro x ns hx
        by_cases hbelow : Below Namespace.kids t₁.namespaces q x
        · exact absurd (((hcleared x).1 hbelow).symm.trans hx) (by simp)
        · exact hback x ns (((hcleared x).2 hbelow).symm.trans hx)
      · intro hmem
        exact hfresh.pending (hpending ▸ hmem)

theorem deleteNamespace_global {t t' : NsTree} {zName : Bytes} {granted : Bool} {r : NsResult}
    (hfind : t.findNamespace zName = some (some globalNs))
    (hrun : t.deleteNamespace zName granted = some (t', r)) :
    ∃ ns m, t.namespaces globalNs = some ns ∧
      ns.kids.foldlM (release Namespace.kids releaseFuel) t.namespaces = some m ∧
      t' = { t with
        namespaces := Function.update m globalNs (some { ns with paChild := ∅ })
        pCurrentNs := globalNs } := by
  have hmoved : (if globalNs = t.pCurrentNs then { t with pCurrentNs := globalNs } else t) = t := by
    split_ifs with hcur
    · rw [hcur]
    · rfl
  simp only [NsTree.deleteNamespace, hfind, hmoved, if_true] at hrun
  rcases hns : t.namespaces globalNs with _ | ns
  · simp [hns] at hrun
  · simp only [hns] at hrun
    obtain ⟨-, hrun⟩ := ite_none_right_eq_some.mp hrun
    obtain ⟨m, hm, heq⟩ := map_eq_some_iff.mp hrun
    exact ⟨ns, m, rfl, hm, (congrArg Prod.fst heq).symm⟩

section

variable (hfresh : s.toNsTree.Fresh)

include hfresh

theorem pruned_deleteNamespace {zName : Bytes} {granted : Bool}
    {t : NsTree} {r : NsResult}
    (hrun : s.toNsTree.deleteNamespace zName granted = some (t, r)) :
    s.Pruned (.deleteNamespace zName granted) t := by
  by_cases hglobal : s.findNamespace zName = some (some globalNs)
  · obtain ⟨ns, m, hns, hm, rfl⟩ := deleteNamespace_global hglobal hrun
    exact pruned_global hfresh hglobal hns hm
  · unfold NsTree.deleteNamespace at hrun
    rcases hfind : s.findNamespace zName with _ | _ | q
    · simp [hfind] at hrun
    · simp only [hfind, some.injEq] at hrun
      obtain rfl : s.toNsTree = t := congrArg Prod.fst hrun
      have hnot : ∀ x, ¬s.Doomed (.deleteNamespace zName granted) x := by
        rintro x ⟨q, hq, -⟩
        rw [hfind] at hq
        cases hq
      exact ⟨fun x ns hx _ => ⟨ns, hx⟩, fun x hx => absurd hx (hnot x), hfresh,
        (if_neg (by simp [hfind])).symm, rfl⟩
    · have hq : q ≠ globalNs := fun heq => hglobal (heq ▸ hfind)
      simp only [hfind, if_neg hq] at hrun
      obtain ⟨t', ht', heq⟩ := map_eq_some_iff.mp hrun
      obtain rfl : t' = t := congrArg Prod.fst heq
      by_cases hcur : q = s.pCurrentNs
      · rw [if_pos hcur] at ht'
        exact pruned_unlinkFree hfresh hfind hq (if_pos (.inl (hcur ▸ hfind))).symm ht'
      · rw [if_neg hcur] at ht'
        refine pruned_unlinkFree hfresh hfind hq (if_neg ?_).symm ht'
        rw [hfind]
        rintro (heq | heq)
        · exact hcur (some.inj (some.inj heq))
        · exact hq (some.inj (some.inj heq))

theorem deleted_deleteNamespace {zName : Bytes} {granted : Bool}
    {r : NsResult} (hrun : s.deleteNamespace zName granted = some (s', r)) :
    Deleted s s' (.deleteNamespace zName granted) := by
  unfold deleteNamespace at hrun
  rcases hdel : s.toNsTree.deleteNamespace zName granted with _ | ⟨t, res⟩
  · simp [hdel] at hrun
  · have hpruned := pruned_deleteNamespace hfresh hdel
    rcases hmove : s.moveTo t with _ | s₁
    · simp [hdel, hmove] at hrun
    · have hspec := moveTo_spec hmove
      have hcommands := hpruned.commands hfresh rfl rfl rfl hmove
      obtain ⟨hkept, -, hfresh', hcurrent, hdepth⟩ := hpruned
      rw [← hspec.toNsTree] at hkept hfresh' hcurrent hdepth
      simp only [hdel, hmove] at hrun
      by_cases hglobal : s.findNamespace zName = some (some globalNs)
      · rw [if_pos hglobal] at hrun
        obtain ⟨s₂, hfree, heq⟩ := map_eq_some_iff.mp hrun
        obtain rfl := congrArg Prod.fst heq
        have htables := freeCommandsOf_spec hfree
        obtain ⟨ns, -, hns, -⟩ := deleteNamespace_global hglobal hdel
        have hstays : ¬s.Doomed (.deleteNamespace zName granted) globalNs := by
          rintro ⟨q, hq, ⟨hne, -⟩ | ⟨-, hx, -⟩⟩
          · rw [hglobal] at hq
            exact hne (some.inj (some.inj hq)).symm
          · exact hx rfl
        have hpaCmd : s₁.paCmd globalNs = s.paCmd globalNs := by
          refine (hspec.paCmd globalNs).trans (if_pos ⟨?_, fun hmem => ?_⟩)
          · exact hfresh.lt_nextNs hns
          · obtain ⟨ns', hns'⟩ := hkept globalNs ns hns hstays
            rw [hspec.toNsTree, (mem_releasedNs.mp hmem).2.2] at hns'
            cases hns'
        have htree₂ : s₂.toNsTree = s₁.toNsTree := htables.toNsTree
        rw [← htree₂] at hkept hfresh' hcurrent hdepth
        refine ⟨hkept, hfresh', hcurrent, hdepth, htables.released.counters.nextCmd.trans
          hspec.released.counters.nextCmd, fun c cmd => ?_⟩
        have hin : s₁.InTableOf [globalNs] c ↔
            ∃ k, (s.paCmd globalNs).lookup k = some (some c) := by
          simp [InTableOf, hpaCmd]
        have hgone : s.GoesAlong (.deleteNamespace zName granted) c ↔
            (∃ x ns k, s.namespaces x = some ns ∧ s.Doomed (.deleteNamespace zName granted) x ∧
              (s.paCmd x).lookup k = some (some c)) ∨ s₁.InTableOf [globalNs] c :=
          or_congr_right ((and_iff_right hglobal).trans hin.symm)
        rw [hgone, not_or, ← and_assoc, ← hcommands c cmd]
        by_cases hin : s₁.InTableOf [globalNs] c
        · simp [(htables.released.commands c).1 hin, hin]
        · simp [(htables.released.commands c).2 hin, hin]
      · rw [if_neg hglobal, some.injEq] at hrun
        obtain rfl := congrArg Prod.fst hrun
        refine ⟨hkept, hfresh', hcurrent, hdepth, hspec.released.counters.nextCmd, fun c cmd => ?_⟩
        refine (hcommands c cmd).trans (and_congr_right' (not_congr ?_))
        exact (or_iff_left fun hg => hglobal hg.1).symm

theorem deleted_leaveEval (hdepth : s.nEvalDepth ≤ 1)
    (hrun : ({ s with nEvalDepth := 0 } : CmdInterp).drainPendingDeletes = some s') :
    Deleted s s' .leaveEval := by
  obtain ⟨s₁, t, hdrain, ht, hmove⟩ := drainPendingDeletes_cases hrun
  obtain ⟨hr, htables⟩ := foldlM_drainCommand_spec hdrain
  have htree : s₁.toNsTree = { s.toNsTree with nEvalDepth := 0 } := htables.toNsTree
  rw [htree] at ht
  obtain ⟨m, hm, rfl⟩ := map_eq_some_iff.mp ht
  have hcleared := foldlM_release_of_eq (fun _ _ _ => cleared_of_release) hm
  have hpruned : s.Pruned .leaveEval
      { s.toNsTree with namespaces := m, nEvalDepth := 0, pendingNs := [] } := by
    refine ⟨?_, fun x hx => (hcleared x).1 hx.2, hfresh.shrink rfl ?_ (by simp), rfl, rfl⟩
    · intro x ns hx hnot
      exact ⟨ns, ((hcleared x).2 fun hb => hnot ⟨hdepth, hb⟩).trans hx⟩
    · intro x ns hx
      by_cases hb : ∃ q ∈ s.pendingNs, Below Namespace.kids s.namespaces q x
      · exact absurd (((hcleared x).1 hb).symm.trans hx) (by simp)
      · exact ⟨ns, ((hcleared x).2 hb).symm.trans hx, fun _ => id⟩
  have hspec := moveTo_spec hmove
  refine ⟨?_, ?_, ?_, ?_, hspec.released.counters.nextCmd.trans hr.counters.nextCmd,
    fun c cmd => ?_⟩
  · rw [hspec.toNsTree]
    exact hpruned.kept
  · rw [hspec.toNsTree]
    exact hpruned.fresh
  · rw [hspec.toNsTree]
    rfl
  · rw [hspec.toNsTree]
    rfl
  · have hnext : s₁.nextNs = s.nextNs := by rw [htree]
    have hns : s₁.namespaces = s.namespaces := by rw [htree]
    have hgone : s.GoesAlong .leaveEval c ↔
        (∃ x ns k, s.namespaces x = some ns ∧ s.Doomed .leaveEval x ∧
          (s.paCmd x).lookup k = some (some c)) ∨ c ∈ s.pendingCmd :=
      or_congr_right (and_iff_right hdepth)
    rw [hpruned.commands hfresh hns hnext htables.paCmd hmove c cmd, hgone, not_or]
    by_cases hin : c ∈ s.pendingCmd
    · simp [(hr.commands c).1 hin, hin]
    · simp [(hr.commands c).2 hin, hin]

theorem not_doomed_globalNs (op : Op) : ¬s.Doomed op globalNs := by
  intro hdoomed
  cases op with
  | deleteNamespace zName granted =>
    obtain ⟨q, -, ⟨hq, -, t, ht, hbelow⟩ | ⟨-, hne, -⟩⟩ := hdoomed
    · obtain ⟨⟨hnext, -, -, hpending⟩, -, hback⟩ := NsTree.unlink_records ht
      have hfresh' : t.Fresh := hfresh.shrink hnext hback (hpending ▸ hfresh.pending)
      exact hfresh'.not_below hq hbelow
    · exact hne rfl
  | leaveEval =>
    obtain ⟨-, q, hq, hbelow⟩ := hdoomed
    exact hfresh.not_below (fun heq => hfresh.pending (heq ▸ hq)) hbelow
  | _ => exact hdoomed

end

end CmdInterp

end Th8
