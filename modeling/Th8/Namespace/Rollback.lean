import Th8.Namespace.TreeInv

/-!
# Creation of namespaces and its undoing

A creating walk adds a chain of new namespaces below one that was there.  When it
fails, or its caller does, the chain is unlinked at its root and released.  Both are
described against the tree before the walk.
-/

namespace Th8

open Support Option Nat

section Unlink

variable {t : NsTree} {p c : NsId} {ns : Namespace} {k : Bytes}

/-- The memory without the entry for `k` in the table of `p`. -/
def NsTree.withoutEntry (t : NsTree) (p : NsId) (ns : Namespace) (k : Bytes) :
    Memory NsId Namespace :=
  Function.update t.namespaces p (some { ns with paChild := ns.paChild.erase k })

theorem NsTree.Inv.unlink_eq (h : t.Inv) (hp : t.namespaces p = some ns)
    (hk : ns.paChild.lookup k = some c) :
    t.unlink c = some { t with namespaces := t.withoutEntry p ns k } := by
  obtain ⟨-, hgood, child, hc, hchild⟩ := h.child p ns k c hp hk
  simp only [NsTree.unlink, hc, hchild.pParent, hp, hchild.zName, hgood.splitQualName]
  rfl

theorem NsTree.Inv.unlinkFree (h : t.Inv) (hp : t.namespaces p = some ns)
    (hk : ns.paChild.lookup k = some c) :
    ∃ t', t.unlinkFreeNamespace c = some t' ∧ t'.Inv ∧ t'.nextNs = t.nextNs ∧
      t'.pCurrentNs = t.pCurrentNs ∧ t'.nEvalDepth = t.nEvalDepth ∧
      (0 < t.nEvalDepth ∧ t'.namespaces = t.withoutEntry p ns k ∧
          t'.pendingNs = t.pendingNs ++ [c] ∨
        Cleared Namespace.kids (t.withoutEntry p ns k) c t'.namespaces ∧
          t'.pendingNs = t.pendingNs) := by
  have hroot : ForestInv (t.withoutEntry p ns k) t.nextNs (t.pendingNs ++ [c]) :=
    ForestInv.unlink h hp hk
  by_cases hdepth : 0 < t.nEvalDepth
  · refine ⟨{ t with namespaces := t.withoutEntry p ns k
                     pendingNs := t.pendingNs ++ [c] }, ?_, hroot, rfl, rfl, rfl,
      .inl ⟨hdepth, rfl, rfl⟩⟩
    simp [NsTree.unlinkFreeNamespace, h.unlink_eq hp hk, hdepth]
  · have hnot : c ∉ t.pendingNs := fun hc => (h.root c hc).2.2 p ns k hp hk
    obtain ⟨m', hm', hcleared, hforest⟩ :=
      hroot.releaseRoot (q := c) (List.mem_append_right _ (by simp))
    have herase : (t.pendingNs ++ [c]).erase c = t.pendingNs := by
      rw [List.erase_append_right _ hnot]
      simp
    rw [herase] at hforest
    refine ⟨{ t with namespaces := m' }, ?_, hforest, rfl, rfl, rfl, .inr ⟨hcleared, rfl⟩⟩
    simp [NsTree.unlinkFreeNamespace, h.unlink_eq hp hk, hdepth, NsTree.freeNamespace, hm']

end Unlink

/-- `t` is `t₀` with new namespaces, all of them below `root`, which is in the table
of an old one. -/
structure Grown (t₀ t : NsTree) (root : NsId) : Prop where
  root_eq : root = t₀.nextNs
  under : ∃ p ns k, t₀.namespaces p = some ns ∧ ns.paChild.lookup k = none ∧
    t.namespaces p = some { ns with paChild := ns.paChild.insert k root } ∧
    ∀ x, x < t₀.nextNs → x ≠ p → t.namespaces x = t₀.namespaces x
  below : ∀ x, t₀.nextNs ≤ x → t.namespaces x ≠ none → Below Namespace.kids t.namespaces root x
  new : ∀ x, Below Namespace.kids t.namespaces root x → t₀.nextNs ≤ x
  pCurrentNs : t.pCurrentNs = t₀.pCurrentNs
  nEvalDepth : t.nEvalDepth = t₀.nEvalDepth
  pendingNs : t.pendingNs = t₀.pendingNs
  nextNs : t₀.nextNs ≤ t.nextNs

/-- `t` has the namespaces of `t₀` as they were there.  Any others are new and wait
for their release. -/
structure Restored (t₀ t : NsTree) : Prop where
  old : ∀ x, x < t₀.nextNs → t.namespaces x = t₀.namespaces x
  new : ∀ x ns k c, t₀.nextNs ≤ x → t.namespaces x = some ns →
    ns.paChild.lookup k = some c → t₀.nextNs ≤ c
  pCurrentNs : t.pCurrentNs = t₀.pCurrentNs
  nEvalDepth : t.nEvalDepth = t₀.nEvalDepth
  pendingNs : ∃ l, t.pendingNs = t₀.pendingNs ++ l
  nextNs : t₀.nextNs ≤ t.nextNs

theorem Restored.refl {t : NsTree} (h : t.Inv) : Restored t t := by
  refine ⟨fun _ _ => rfl, ?_, rfl, rfl, ⟨[], by simp⟩, le_refl _⟩
  intro x ns k c hx hns
  simp [h.fresh x hx] at hns

theorem Grown.rollback {t₀ t : NsTree} {root : NsId} (hg : Grown t₀ t root)
    (h₀ : t₀.Inv) (h : t.Inv) :
    ∃ t', t.rollback (some root) = some t' ∧ t'.Inv ∧ Restored t₀ t' := by
  obtain ⟨p, ns, k, hp₀, hk₀, hp, hother⟩ := hg.under
  have hlt : p < t₀.nextNs := ForestInv.lt_nextNs h₀ hp₀
  obtain ⟨t', ht', hinv, hnext, hcurrent, hdepth, hcases⟩ := h.unlinkFree hp (AList.lookup_insert _)
  have hp' : t.withoutEntry p { ns with paChild := ns.paChild.insert k root } k p =
      t₀.namespaces p := by
    rw [NsTree.withoutEntry, Function.update_self, hp₀]
    simp only [erase_insert_of_lookup_eq_none hk₀]
  have hold : ∀ x, x < t₀.nextNs →
      t.withoutEntry p { ns with paChild := ns.paChild.insert k root } k x = t₀.namespaces x := by
    intro x hx
    by_cases hxp : x = p
    · rw [hxp, hp']
    · rw [NsTree.withoutEntry, Function.update_of_ne hxp]
      exact hother x hx hxp
  -- The new namespaces have their entries from before, which lead to new ones.
  have hnew : ∀ x ns' l c, t₀.nextNs ≤ x →
      t.withoutEntry p { ns with paChild := ns.paChild.insert k root } k x = some ns' →
      ns'.paChild.lookup l = some c → t₀.nextNs ≤ c := by
    intro x ns' l c hx hns' hl
    have hxp : x ≠ p := fun hxp => not_le.mpr hlt (hxp ▸ hx)
    rw [NsTree.withoutEntry, Function.update_of_ne hxp] at hns'
    exact hg.new c (.kid (hg.below x hx (by simp [hns'])) hns' (mem_kids.mpr ⟨l, hl⟩))
  refine ⟨t', ht', hinv, ⟨?_, ?_, hcurrent.trans hg.pCurrentNs, hdepth.trans hg.nEvalDepth, ?_,
    hnext ▸ hg.nextNs⟩⟩
  · intro x hx
    rcases hcases with ⟨-, hns, -⟩ | ⟨hcleared, -⟩
    · rw [hns]
      exact hold x hx
    · have hbelow : ¬Below Namespace.kids
          (t.withoutEntry p { ns with paChild := ns.paChild.insert k root } k) root x := by
        intro hb
        have hb' : Below Namespace.kids t.namespaces root x := by
          refine (Below.congr fun y hy => ?_).mp hb
          have hyp : y ≠ p := fun hyp => not_le.mpr hlt (hyp ▸ hg.new y hy)
          rw [NsTree.withoutEntry, Function.update_of_ne hyp]
        exact not_le.mpr hx (hg.new x hb')
      rw [(hcleared x).2 hbelow]
      exact hold x hx
  · intro x ns' l c hx hns' hl
    rcases hcases with ⟨-, hns, -⟩ | ⟨hcleared, -⟩
    · exact hnew x ns' l c hx (hns ▸ hns') hl
    · by_cases hbelow : Below Namespace.kids
          (t.withoutEntry p { ns with paChild := ns.paChild.insert k root } k) root x
      · simp [(hcleared x).1 hbelow] at hns'
      · exact hnew x ns' l c hx ((hcleared x).2 hbelow ▸ hns') hl
  · rcases hcases with ⟨-, -, hpending⟩ | ⟨-, hpending⟩
    · exact ⟨[root], by rw [hpending, hg.pendingNs]⟩
    · exact ⟨[], by rw [hpending, hg.pendingNs, List.append_nil]⟩

/-! ## The creating walk -/

/-- Where the walk leaves the tree, the namespace it is at does not have a name that
ends in a colon, and none of the components to be created holds a terminator. -/
def NsTree.CleanWalk (t : NsTree) : NsId → List Bytes → Prop
  | _, [] => True
  | pNs, zComp :: rest =>
    match t.namespaces pNs with
    | none => True
    | some ns =>
      match ns.paChild.lookup zComp with
      | some pChild => t.CleanWalk pChild rest
      | none =>
        (pNs = globalNs ∨ ns.zName.getLast? ≠ some chColon) ∧ ∀ c ∈ zComp :: rest, 0 ∉ c

/-- The condition for a creating lookup of `zName`. -/
def NsTree.CleanCreate (t : NsTree) (zName : Bytes) : Prop :=
  t.CleanWalk (t.walkStart zName).1 (t.walkStart zName).2

section Create

variable {t₀ t : NsTree} {pNs : NsId} {ns : Namespace} {zComp : Bytes}

theorem linkChild_inv (h : t.Inv) (hns : t.namespaces pNs = some ns)
    (hk : ns.paChild.lookup zComp = none) (hgood : GoodKey pNs ns zComp)
    (hdepth : ns.nDepth < mxNsDepth) : (t.linkChild pNs ns zComp).Inv :=
  ForestInv.link h hns hk hgood hdepth

theorem linkChild_new (h : t.Inv) (hns : t.namespaces pNs = some ns) :
    (t.linkChild pNs ns zComp).namespaces t.nextNs =
      some ⟨cString (getFullNsName pNs ns zComp), some pNs, ns.nDepth + 1, ∅⟩ := by
  have hne : t.nextNs ≠ pNs := Ne.symm (Nat.ne_of_lt (ForestInv.lt_nextNs h hns))
  simp [NsTree.linkChild, Function.update_of_ne hne]

theorem linkChild_parent :
    (t.linkChild pNs ns zComp).namespaces pNs =
      some { ns with paChild := ns.paChild.insert zComp t.nextNs } := by
  simp [NsTree.linkChild]

theorem linkChild_other {x : NsId} (hx : x ≠ pNs) (hnew : x ≠ t.nextNs) :
    (t.linkChild pNs ns zComp).namespaces x = t.namespaces x := by
  simp [NsTree.linkChild, Function.update_of_ne hx, Function.update_of_ne hnew]

theorem grown_first (h : t.Inv) (hns : t.namespaces pNs = some ns)
    (hk : ns.paChild.lookup zComp = none) :
    Grown t (t.linkChild pNs ns zComp) t.nextNs := by
  have hsingle : ∀ x, Below Namespace.kids (t.linkChild pNs ns zComp).namespaces t.nextNs x →
      x = t.nextNs := by
    intro x hx
    induction hx with
    | root => rfl
    | kid hp hr hc ih =>
      subst ih
      rw [linkChild_new h hns, some.injEq] at hr
      subst hr
      simp [Namespace.kids] at hc
  refine ⟨rfl, ⟨pNs, ns, zComp, hns, hk, linkChild_parent, ?_⟩, ?_, ?_, rfl, rfl, rfl, le_succ _⟩
  · intro x hx hxp
    exact linkChild_other hxp (Nat.ne_of_lt hx)
  · intro x hx hsome
    by_cases hxn : x = t.nextNs
    · subst hxn
      exact .root
    · have hxp : x ≠ pNs := by
        have := ForestInv.lt_nextNs h hns
        rintro rfl
        exact not_le.mpr this hx
      rw [linkChild_other hxp hxn] at hsome
      exact absurd (h.fresh x hx) hsome
  · intro x hx
    rw [hsingle x hx]

/-- A further namespace of a chain, below the last one. -/
theorem Grown.next {root : NsId} (hg : Grown t₀ t root) (h₀ : t₀.Inv) (h : t.Inv)
    (hns : t.namespaces pNs = some ns) (hk : ns.paChild.lookup zComp = none)
    (hlast : Below Namespace.kids t.namespaces root pNs) :
    Grown t₀ (t.linkChild pNs ns zComp) root ∧
      Below Namespace.kids (t.linkChild pNs ns zComp).namespaces root t.nextNs := by
  have hnew : t₀.nextNs ≤ pNs := hg.new pNs hlast
  -- Below the root there is what was there, and the new namespace.
  have hback : ∀ x, Below Namespace.kids (t.linkChild pNs ns zComp).namespaces root x →
      x = t.nextNs ∨ Below Namespace.kids t.namespaces root x := by
    intro x hx
    induction hx with
    | root => exact .inr .root
    | kid hp hr hc ih =>
      rename_i p c r
      rcases ih with rfl | hp'
      · rw [linkChild_new h hns, some.injEq] at hr
        subst hr
        simp [Namespace.kids] at hc
      · obtain ⟨k, hk⟩ := mem_kids.mp hc
        by_cases hpp : p = pNs
        · subst hpp
          rw [linkChild_parent, some.injEq] at hr
          subst hr
          by_cases hkk : k = zComp
          · subst hkk
            exact .inl (by simpa using hk.symm)
          · rw [AList.lookup_insert_ne hkk] at hk
            exact .inr (.kid hp' hns (mem_kids.mpr ⟨k, hk⟩))
        · have hpn : p ≠ t.nextNs := by
            intro hpn
            subst hpn
            rw [linkChild_new h hns, some.injEq] at hr
            subst hr
            simp at hk
          rw [linkChild_other hpp hpn] at hr
          exact .inr (.kid hp' hr hc)
  have hforth : ∀ x, Below Namespace.kids t.namespaces root x →
      Below Namespace.kids (t.linkChild pNs ns zComp).namespaces root x := by
    intro x hx
    induction hx with
    | root => exact .root
    | kid hp hr hc ih =>
      rename_i p c r
      obtain ⟨k, hkc⟩ := mem_kids.mp hc
      by_cases hpp : p = pNs
      · subst hpp
        have hsame : ns = r := some.inj (hns.symm.trans hr)
        subst hsame
        have hkk : k ≠ zComp := by
          rintro rfl
          simp [hk] at hkc
        refine .kid ih linkChild_parent (mem_kids.mpr ⟨k, ?_⟩)
        rw [AList.lookup_insert_ne hkk, hkc]
      · have hpn : p ≠ t.nextNs := Nat.ne_of_lt (ForestInv.lt_nextNs h hr)
        exact .kid ih ((linkChild_other hpp hpn).trans hr) hc
  have hnext : Below Namespace.kids (t.linkChild pNs ns zComp).namespaces root t.nextNs :=
    .kid (hforth pNs hlast) linkChild_parent (mem_kids.mpr ⟨zComp, AList.lookup_insert _⟩)
  obtain ⟨p, r, k, hp₀, hk₀, hp, hother⟩ := hg.under
  have hp₀lt : p < t₀.nextNs := ForestInv.lt_nextNs h₀ hp₀
  have hold : ∀ x, x < t₀.nextNs → x ≠ pNs ∧ x ≠ t.nextNs := fun x hx =>
    ⟨Nat.ne_of_lt (Nat.lt_of_lt_of_le hx hnew), Nat.ne_of_lt (Nat.lt_of_lt_of_le hx hg.nextNs)⟩
  refine ⟨⟨hg.root_eq, ⟨p, r, k, hp₀, hk₀, ?_, ?_⟩, ?_, ?_, hg.pCurrentNs, hg.nEvalDepth,
    hg.pendingNs, le_succ_of_le hg.nextNs⟩, hnext⟩
  · rw [linkChild_other (hold p hp₀lt).1 (hold p hp₀lt).2, hp]
  · intro x hx hxp
    rw [linkChild_other (hold x hx).1 (hold x hx).2]
    exact hother x hx hxp
  · intro x hx hsome
    by_cases hxn : x = t.nextNs
    · exact hxn ▸ hnext
    · apply hforth
      apply hg.below x hx
      by_cases hxp : x = pNs
      · simp [hxp, hns]
      · rwa [linkChild_other hxp hxn] at hsome
  · intro x hx
    rcases hback x hx with rfl | hx
    · exact hg.nextNs
    · exact hg.new x hx

theorem getLast_getFullNsName {p : NsId} {ns : Namespace} {k : Bytes} (hne : k ≠ []) :
    (getFullNsName p ns k).getLast? = k.getLast? := by
  unfold getFullNsName
  split_ifs
  · rw [List.getLast?_append_of_ne_nil _ hne]
  · rw [List.getLast?_append_of_ne_nil _ hne]

/-- What a creating walk does to a tree that it started on as `t₀` and has already
extended by the chain below `root`. -/
def CreateOutcome (t₀ t' : NsTree) : CreateResult → Prop
  | .found pNs none => t' = t₀ ∧ ∃ ns, t'.namespaces pNs = some ns
  | .found pNs (some root) => Grown t₀ t' root ∧ ∃ ns, t'.namespaces pNs = some ns
  | .failed _ => Restored t₀ t'

theorem createWalk_chain (mem : ℕ → ChildMemory) {root : NsId} {comps : List Bytes}
    (h₀ : t₀.Inv) (h : t.Inv) (hg : Grown t₀ t root)
    (hns : t.namespaces pNs = some ns) (hempty : ns.paChild = ∅)
    (hlast : Below Namespace.kids t.namespaces root pNs) (hsplit : WellSplit comps)
    (hnul : ∀ c ∈ comps, 0 ∉ c) (hend : comps ≠ [] → ns.zName.getLast? ≠ some chColon) :
    ∃ t' r, NsTree.createWalk mem t (some root) pNs comps = some (t', r) ∧ t'.Inv ∧
      CreateOutcome t₀ t' r := by
  induction comps generalizing t pNs ns with
  | nil => exact ⟨t, .found pNs (some root), rfl, h, hg, ns, hns⟩
  | cons zComp rest ih =>
    have hk : ns.paChild.lookup zComp = none := by simp [hempty]
    obtain ⟨hne, hsep, hrestEnd, hrest⟩ := hsplit
    by_cases hdeep : mxNsDepth ≤ ns.nDepth
    · obtain ⟨t', ht', hinv, hrestored⟩ := hg.rollback h₀ h
      refine ⟨t', .failed (.static "namespace nested too deeply"), ?_, hinv, hrestored⟩
      simp only [NsTree.createWalk, hns, hk, hdeep, if_true, ht', map_some]
    · by_cases hmem : (mem rest.length).granted = true
      · have hgood : GoodKey pNs ns zComp :=
          ⟨hne, hsep, hnul zComp (by simp), .inr (hend (by simp))⟩
        have hinv := linkChild_inv h hns hk hgood (Nat.lt_of_not_le hdeep)
        obtain ⟨hgrown, hbelow⟩ := hg.next h₀ h hns hk hlast
        have hnew := @linkChild_new t pNs ns zComp h hns
        obtain ⟨t', r, hwalk, hresult⟩ := ih hinv hgrown hnew rfl hbelow hrest
          (fun c hc => hnul c (by simp [hc])) (by
            intro hne'
            rw [(ForestInv.cString_getFullNsName h hns hgood.noNul).1, getLast_getFullNsName hne]
            exact hrestEnd hne')
        refine ⟨t', r, ?_, hresult⟩
        simpa only [NsTree.createWalk, hns, hk, hdeep, if_false, hmem, if_true,
          getD_some] using hwalk
      · obtain ⟨t', ht', hinv, hrestored⟩ := hg.rollback h₀ h
        refine ⟨t', .failed .silent, ?_, hinv, hrestored⟩
        simp only [NsTree.createWalk, hns, hk, hdeep, if_false, hmem, ht',
          map_some, Bool.false_eq_true]

theorem createWalk_spec (mem : ℕ → ChildMemory) {comps : List Bytes} (h : t.Inv)
    (hns : t.namespaces pNs = some ns) (hsplit : WellSplit comps) (hclean : t.CleanWalk pNs comps) :
    ∃ t' r, NsTree.createWalk mem t none pNs comps = some (t', r) ∧ t'.Inv ∧
      CreateOutcome t t' r := by
  induction comps generalizing pNs ns with
  | nil => exact ⟨t, .found pNs none, rfl, h, rfl, ns, hns⟩
  | cons zComp rest ih =>
    obtain ⟨hne, hsep, hrestEnd, hrest⟩ := hsplit
    rcases hk : ns.paChild.lookup zComp with _ | pChild
    · simp only [NsTree.CleanWalk, hns, hk] at hclean
      obtain ⟨hparent, hnul⟩ := hclean
      by_cases hdeep : mxNsDepth ≤ ns.nDepth
      · refine ⟨t, .failed (.static "namespace nested too deeply"), ?_, h, Restored.refl h⟩
        simp only [NsTree.createWalk, hns, hk, hdeep, if_true, NsTree.rollback, map_some]
      · by_cases hmem : (mem rest.length).granted = true
        · have hgood : GoodKey pNs ns zComp := ⟨hne, hsep, hnul zComp (by simp), hparent⟩
          have hinv := linkChild_inv h hns hk hgood (Nat.lt_of_not_le hdeep)
          obtain ⟨t', r, hwalk, hresult⟩ := createWalk_chain mem h hinv
            (grown_first h hns hk) (linkChild_new h hns) rfl .root hrest
            (fun c hc => hnul c (by simp [hc])) (by
              intro hne'
              rw [(ForestInv.cString_getFullNsName h hns hgood.noNul).1, getLast_getFullNsName hne]
              exact hrestEnd hne')
          refine ⟨t', r, ?_, hresult⟩
          simpa only [NsTree.createWalk, hns, hk, hdeep, if_false, hmem, if_true,
            getD_none] using hwalk
        · refine ⟨t, .failed .silent, ?_, h, Restored.refl h⟩
          simp only [NsTree.createWalk, hns, hk, hdeep, if_false, hmem, NsTree.rollback,
            map_some, Bool.false_eq_true]
    · obtain ⟨-, -, child, hchild, -⟩ := h.child pNs ns zComp pChild hns hk
      simp only [NsTree.CleanWalk, hns, hk] at hclean
      obtain ⟨t', r, hwalk, hresult⟩ := ih hchild hrest hclean
      refine ⟨t', r, ?_, hresult⟩
      simpa only [NsTree.createWalk, hns, hk] using hwalk

end Create

end Th8
