import Th8.Namespace.TreeInv

/-!
# The tree of namespaces as it grows

Addresses are given out in order, and a failed creation takes back only what it has made.
Nothing is assumed of the shape of the tree: a release that comes to an end has cleared what
is below its namespace.
-/

namespace Th8

open Support Option Nat

namespace NsTree

/-! ## Namespaces that are made -/

/-- Addresses that have not been given out hold nothing, and the global namespace is
nobody's child. -/
structure Fresh (t : NsTree) : Prop where
  free : ∀ x, t.nextNs ≤ x → t.namespaces x = none
  kids : ∀ x ns, t.namespaces x = some ns → globalNs ∉ ns.kids
  pending : globalNs ∉ t.pendingNs

theorem fresh_init : init.Fresh := by
  refine ⟨fun x hx => ?_, fun x ns hx => ?_, List.not_mem_nil⟩
  · have hne : x ≠ globalNs := ne_of_gt hx
    simp [init, Function.update_of_ne hne]
  · by_cases hg : x = globalNs
    · subst hg
      obtain rfl : (⟨nsSeparator, none, 0, ∅⟩ : Namespace) = ns := some.inj hx
      simp [Namespace.kids]
    · simp [init, Function.update_of_ne hg] at hx

theorem Fresh.shrink {t₀ t : NsTree} (h : t₀.Fresh) (hnext : t.nextNs = t₀.nextNs)
    (hback : ∀ x ns, t.namespaces x = some ns →
      ∃ ns₀, t₀.namespaces x = some ns₀ ∧ ∀ c ∈ ns.kids, c ∈ ns₀.kids)
    (hpending : globalNs ∉ t.pendingNs) : t.Fresh := by
  refine ⟨fun x hx => ?_, fun x ns hx hc => ?_, hpending⟩
  · rcases hns : t.namespaces x with _ | ns
    · rfl
    · obtain ⟨ns₀, hns₀, -⟩ := hback x ns hns
      rw [h.free x (hnext ▸ hx)] at hns₀
      cases hns₀
  · obtain ⟨ns₀, hns₀, hkids⟩ := hback x ns hx
    exact h.kids x ns₀ hns₀ (hkids _ hc)

theorem Fresh.lt_nextNs {t : NsTree} (h : t.Fresh) {x : NsId} {ns : Namespace}
    (hx : t.namespaces x = some ns) : x < t.nextNs := by
  by_contra hge
  rw [h.free x (Nat.le_of_not_lt hge)] at hx
  cases hx

theorem Fresh.not_below {t : NsTree} (h : t.Fresh) {q : NsId} (hq : q ≠ globalNs) :
    ¬Below Namespace.kids t.namespaces q globalNs := by
  intro hb
  cases hb with
  | root => exact hq rfl
  | kid _ hr hc => exact h.kids _ _ hr hc

theorem unlink_records {t t' : NsTree} {q : NsId} (hrun : t.unlink q = some t') :
    (t'.nextNs = t.nextNs ∧ t'.pCurrentNs = t.pCurrentNs ∧ t'.nEvalDepth = t.nEvalDepth ∧
      t'.pendingNs = t.pendingNs) ∧
      (∀ x ns, t.namespaces x = some ns → ∃ ns', t'.namespaces x = some ns') ∧
      ∀ x ns', t'.namespaces x = some ns' →
        ∃ ns, t.namespaces x = some ns ∧ ∀ c ∈ ns'.kids, c ∈ ns.kids := by
  unfold NsTree.unlink at hrun
  rcases hq : t.namespaces q with _ | ns
  · simp [hq] at hrun
  · rcases hp : ns.pParent with _ | p
    · simp only [hq, hp, some.injEq] at hrun
      subst hrun
      exact ⟨⟨rfl, rfl, rfl, rfl⟩, fun x ns hx => ⟨ns, hx⟩, fun x ns hx => ⟨ns, hx, fun _ => id⟩⟩
    · rcases hparent : t.namespaces p with _ | parent
      · simp [hq, hp, hparent] at hrun
      · simp only [hq, hp, hparent, some.injEq] at hrun
        subst hrun
        refine ⟨⟨rfl, rfl, rfl, rfl⟩, fun x nsx hx => ?_, fun x nsx hx => ?_⟩
        · by_cases hxp : x = p
          · subst hxp
            exact ⟨_, Function.update_self ..⟩
          · exact ⟨nsx, (Function.update_of_ne hxp ..).trans hx⟩
        · by_cases hxp : x = p
          · subst hxp
            have hself : Function.update t.namespaces x (some _) x = some nsx := hx
            rw [Function.update_self, some.injEq] at hself
            subst hself
            refine ⟨parent, hparent, fun c hc => ?_⟩
            obtain ⟨k, hk⟩ := mem_kids.mp hc
            exact mem_kids.mpr ⟨k, lookup_of_erase hk⟩
          · exact ⟨nsx, (Function.update_of_ne hxp ..).symm.trans hx, fun _ => id⟩

/-- What has happened since `t₀` only concerned namespaces from the address `n` on, and the
tables of the others. -/
structure Beyond (n : NsId) (t₀ t : NsTree) : Prop where
  old : ∀ x ns, x < n → t₀.namespaces x = some ns → ∃ ns', t.namespaces x = some ns'
  kids : ∀ x ns c, n ≤ x → t.namespaces x = some ns → c ∈ ns.kids → n ≤ c
  fresh : t.Fresh
  pos : globalNs < n
  le : n ≤ t.nextNs
  current : t.pCurrentNs = t₀.pCurrentNs
  depth : t.nEvalDepth = t₀.nEvalDepth

theorem Beyond.refl {t : NsTree} (h : t.Fresh) (hpos : globalNs < t.nextNs) :
    Beyond t.nextNs t t where
  old x ns _ hx := ⟨ns, hx⟩
  kids x ns c hx hns := by
    rw [h.free x hx] at hns
    cases hns
  fresh := h
  pos := hpos
  le := le_refl _
  current := rfl
  depth := rfl

namespace Beyond

variable {n : NsId} {t₀ t t' : NsTree}

section

variable (h : Beyond n t₀ t)

include h

theorem self : Beyond n t t :=
  ⟨fun _ ns _ hx => ⟨ns, hx⟩, h.kids, h.fresh, h.pos, h.le, rfl, rfl⟩

theorem below {q x : NsId} (hq : n ≤ q) (hx : Below Namespace.kids t.namespaces q x) : n ≤ x := by
  induction hx with
  | root => exact hq
  | kid _ hr hc ih => exact h.kids _ _ _ ih hr hc

theorem linkChild {pNs : NsId} {ns : Namespace} {zComp : Bytes}
    (hns : t.namespaces pNs = some ns) : Beyond n t₀ (t.linkChild pNs ns zComp) := by
  have hlt := h.fresh.lt_nextNs hns
  have hparent : (t.linkChild pNs ns zComp).namespaces pNs =
      some { ns with paChild := ns.paChild.insert zComp t.nextNs } := Function.update_self ..
  have hother : ∀ x, x ≠ pNs → x ≠ t.nextNs →
      (t.linkChild pNs ns zComp).namespaces x = t.namespaces x := by
    intro x hx hnew
    simp [NsTree.linkChild, Function.update_of_ne hx, Function.update_of_ne hnew]
  have hchild : (t.linkChild pNs ns zComp).namespaces t.nextNs =
      some ⟨cString (getFullNsName pNs ns zComp), some pNs, ns.nDepth + 1, ∅⟩ := by
    simp [NsTree.linkChild, Function.update_of_ne (ne_of_gt hlt)]
  have hkids : ∀ x ns' c, (t.linkChild pNs ns zComp).namespaces x = some ns' → c ∈ ns'.kids →
      c = t.nextNs ∨ ∃ ns₀, t.namespaces x = some ns₀ ∧ c ∈ ns₀.kids := by
    intro x ns' c hns' hc
    by_cases hxp : x = pNs
    · subst hxp
      obtain rfl := some.inj (hparent.symm.trans hns')
      obtain ⟨k, hk⟩ := mem_kids.mp hc
      by_cases hkk : k = zComp
      · subst hkk
        rw [AList.lookup_insert, some.injEq] at hk
        exact .inl hk.symm
      · rw [AList.lookup_insert_ne hkk] at hk
        exact .inr ⟨ns, hns, mem_kids.mpr ⟨k, hk⟩⟩
    · by_cases hnew : x = t.nextNs
      · subst hnew
        obtain rfl := some.inj (hchild.symm.trans hns')
        simp [Namespace.kids] at hc
      · exact .inr ⟨ns', (hother x hxp hnew).symm.trans hns', hc⟩
  refine ⟨?_, ?_, ⟨?_, ?_, h.fresh.pending⟩, h.pos, le_succ_of_le h.le, h.current, h.depth⟩
  · intro x ns₀ hx hold
    by_cases hxp : x = pNs
    · subst hxp
      exact ⟨_, hparent⟩
    · obtain ⟨ns', hns'⟩ := h.old x ns₀ hx hold
      exact ⟨ns', (hother x hxp (Nat.ne_of_lt (Nat.lt_of_lt_of_le hx h.le))).trans hns'⟩
  · intro x ns' c hx hns' hc
    rcases hkids x ns' c hns' hc with rfl | ⟨ns₀, hns₀, hc₀⟩
    · exact h.le
    · exact h.kids x ns₀ c hx hns₀ hc₀
  · intro x hx
    have hnew : t.nextNs < x := hx
    have hxp : x ≠ pNs := ne_of_gt (lt_trans hlt hnew)
    rw [hother x hxp (ne_of_gt hnew)]
    exact h.fresh.free x (le_of_lt hnew)
  · intro x ns' hns' hc
    rcases hkids x ns' globalNs hns' hc with heq | ⟨ns₀, hns₀, hc₀⟩
    · exact Nat.ne_of_lt (Nat.lt_of_lt_of_le h.pos h.le) heq
    · exact h.fresh.kids x ns₀ hns₀ hc₀

theorem unlink {q : NsId} (hrun : t.unlink q = some t') : Beyond n t₀ t' := by
  obtain ⟨⟨hnext, hcur, hdepth, hpending⟩, hkept, hback⟩ := unlink_records hrun
  refine ⟨?_, ?_, h.fresh.shrink hnext hback (hpending ▸ h.fresh.pending), h.pos,
    hnext ▸ h.le, hcur.trans h.current, hdepth.trans h.depth⟩
  · intro x ns₀ hx hold
    obtain ⟨ns, hns⟩ := h.old x ns₀ hx hold
    exact hkept x ns hns
  · intro x ns' c hx hns' hc
    obtain ⟨ns, hns, hkids⟩ := hback x ns' hns'
    exact h.kids x ns c hx hns (hkids c hc)

theorem freeNamespace {q : NsId} (hq : n ≤ q)
    (hrun : t.freeNamespace q = some t') : Beyond n t₀ t' := by
  obtain ⟨m, hm, rfl⟩ := map_eq_some_iff.mp hrun
  have hclear := cleared_of_release hm
  have hback : ∀ {x ns}, m x = some ns → t.namespaces x = some ns := by
    intro x ns hx
    by_cases hb : Below Namespace.kids t.namespaces q x
    · rw [(hclear x).1 hb] at hx
      cases hx
    · exact ((hclear x).2 hb).symm.trans hx
  refine ⟨?_, fun x ns c hx hns => h.kids x ns c hx (hback hns), ?_, h.pos, h.le, h.current,
    h.depth⟩
  · intro x ns₀ hx hold
    obtain ⟨ns', hns'⟩ := h.old x ns₀ hx hold
    refine ⟨ns', ((hclear x).2 fun hb => ?_).trans hns'⟩
    exact Nat.not_le_of_lt hx (h.below hq hb)
  · exact h.fresh.shrink rfl (fun x ns hx => ⟨ns, hback hx, fun _ => id⟩) h.fresh.pending

theorem rollback {root : Option NsId} (hroot : ∀ q ∈ root, n ≤ q)
    (hrun : t.rollback root = some t') : Beyond n t₀ t' := by
  cases root with
  | none =>
    cases hrun
    exact h
  | some q =>
    simp only [NsTree.rollback, NsTree.unlinkFreeNamespace] at hrun
    rcases hunlink : t.unlink q with _ | t₁
    · simp [hunlink] at hrun
    · have h₁ := h.unlink hunlink
      simp only [hunlink] at hrun
      split_ifs at hrun
      · cases hrun
        refine ⟨h₁.old, h₁.kids, ⟨h₁.fresh.free, h₁.fresh.kids, ?_⟩, h₁.pos, h₁.le,
          h₁.current, h₁.depth⟩
        intro hmem
        rcases List.mem_append.mp hmem with hmem | hmem
        · exact h₁.fresh.pending hmem
        · exact Nat.not_le_of_lt h.pos (List.mem_singleton.mp hmem ▸ hroot q rfl)
      · exact h₁.freeNamespace (hroot q rfl) hrun

theorem createWalk {mem : ℕ → ChildMemory} {comps : List Bytes} {pNs : NsId}
    {root : Option NsId} {r : CreateResult} (hroot : ∀ q ∈ root, n ≤ q)
    (hrun : NsTree.createWalk mem t root pNs comps = some (t', r)) :
    Beyond n t₀ t' ∧ ∀ pNs' root', r = .found pNs' root' → ∀ q ∈ root', n ≤ q := by
  induction comps generalizing t pNs root with
  | nil =>
    cases hrun
    refine ⟨h, fun _ _ hr => ?_⟩
    obtain ⟨rfl, rfl⟩ := CreateResult.found.inj hr
    exact hroot
  | cons zComp rest ih =>
    obtain ⟨ns, hns, ⟨c, -, hrest⟩ | ⟨-, hrest⟩ | ⟨hback, e, rfl⟩⟩ := NsTree.createWalk_cons hrun
    · exact ih h hroot hrest
    · refine ih (h.linkChild hns) ?_ hrest
      rintro q ⟨⟩
      rcases root with _ | q₀
      · exact h.le
      · exact hroot q₀ rfl
    · exact ⟨h.rollback hroot hback, fun _ _ hr => by cases hr⟩

theorem createWalk_made {mem : ℕ → ChildMemory} {comps : List Bytes} {pNs pNs' : NsId}
    {root root' : Option NsId} (hp : n ≤ pNs)
    (hrun : NsTree.createWalk mem t root pNs comps = some (t', .found pNs' root')) :
    n ≤ pNs' := by
  induction comps generalizing t pNs root with
  | nil =>
    obtain ⟨-, hr⟩ := Prod.mk.inj (some.inj hrun)
    obtain ⟨rfl, -⟩ := CreateResult.found.inj hr
    exact hp
  | cons zComp rest ih =>
    obtain ⟨ns, hns, ⟨c, hk, hrest⟩ | ⟨-, hrest⟩ | ⟨-, e, he⟩⟩ := NsTree.createWalk_cons hrun
    · exact ih h (h.kids pNs ns c hp hns (mem_kids.mpr ⟨zComp, hk⟩)) hrest
    · exact ih (h.linkChild hns) h.le hrest
    · cases he

theorem createWalk_found {mem : ℕ → ChildMemory} {comps : List Bytes} {pNs pNs' : NsId}
    {root root' : Option NsId} (hrun : NsTree.createWalk mem t root pNs comps = some
    (t', .found pNs' root')) :
    (t' = t ∧ root' = root ∧ t.walk pNs comps = some (some pNs')) ∨ n ≤ pNs' := by
  induction comps generalizing t pNs root with
  | nil =>
    obtain ⟨rfl, hr⟩ := Prod.mk.inj (some.inj hrun)
    obtain ⟨rfl, rfl⟩ := CreateResult.found.inj hr
    exact .inl ⟨rfl, rfl, rfl⟩
  | cons zComp rest ih =>
    obtain ⟨ns, hns, ⟨c, hk, hrest⟩ | ⟨-, hrest⟩ | ⟨-, e, he⟩⟩ := NsTree.createWalk_cons hrun
    · rcases ih h hrest with ⟨ht, hroot, hwalk⟩ | hmade
      · refine .inl ⟨ht, hroot, ?_⟩
        simpa only [NsTree.walk, hns, hk] using hwalk
      · exact .inr hmade
    · exact .inr ((h.linkChild hns).createWalk_made h.le hrest)
    · cases he

theorem findNamespaceEx {mem : ℕ → ChildMemory} {zName : Bytes}
    {r : CreateResult} (hrun : t.findNamespaceEx mem zName = some (t', r)) :
    Beyond n t₀ t' ∧ ∀ pNs root, r = .found pNs root → ∀ q ∈ root, n ≤ q :=
  h.createWalk (fun _ hq => by cases hq) hrun

end

end Beyond

end NsTree

end Th8
