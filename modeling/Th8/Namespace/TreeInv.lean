import Mathlib.Data.List.TakeWhile
import Th8.Namespace.Names

/-!
# The invariant of the namespace tree

Every entry in a table of children leads to a record that knows its parent, is one
level deeper and carries the name that the entry's key gives it.  The invariant is
stated for the memory with a list of roots: namespaces that are in no table and wait
for their release.
-/

namespace Th8

open Support List Option
open Function (update update_of_ne update_self)

/-! ## The invariant -/

structure GoodKey (p : NsId) (ns : Namespace) (zComp : Bytes) : Prop where
  nonempty : zComp ≠ []
  noSeparator : lastSeparator zComp = none
  noNul : 0 ∉ zComp
  parent : p = globalNs ∨ ns.zName.getLast? ≠ some chColon

/-- The record of a child, as the entry for it in the parent's table determines it. -/
structure IsChild (p : NsId) (ns : Namespace) (zComp : Bytes) (child : Namespace) : Prop where
  pParent : child.pParent = some p
  nDepth : child.nDepth = ns.nDepth + 1
  zName : child.zName = getFullNsName p ns zComp

structure ForestInv (m : Memory NsId Namespace) (nextNs : NsId) (roots : List NsId) : Prop where
  global : ∃ g, m globalNs = some g ∧ g.zName = nsSeparator ∧ g.nDepth = 0
  fresh : ∀ x, nextNs ≤ x → m x = none
  depth : ∀ p ns, m p = some ns → ns.nDepth ≤ mxNsDepth
  noNul : ∀ p ns, m p = some ns → 0 ∉ ns.zName
  child : ∀ p ns k c, m p = some ns → ns.paChild.lookup k = some c →
    c ≠ globalNs ∧ GoodKey p ns k ∧ ∃ child, m c = some child ∧ IsChild p ns k child
  root : ∀ q ∈ roots, q ≠ globalNs ∧ (∃ ns, m q = some ns) ∧
    ∀ p ns k, m p = some ns → ns.paChild.lookup k ≠ some q
  nodup : roots.Nodup

def NsTree.Inv (t : NsTree) : Prop := ForestInv t.namespaces t.nextNs t.pendingNs

variable {ns : Namespace}

theorem mem_kids {c : NsId} :
    c ∈ ns.kids ↔ ∃ k, ns.paChild.lookup k = some c := mem_values_iff

theorem getFullNsName_injective {p : NsId} {k k' : Bytes}
    (h : getFullNsName p ns k = getFullNsName p ns k') : k = k' := by
  unfold getFullNsName at h
  split_ifs at h
  · exact append_cancel_left h
  · exact append_cancel_left h

theorem GoodKey.splitQualName {p : NsId} {k : Bytes} (h : GoodKey p ns k) :
    (splitQualName (getFullNsName p ns k)).2 = k := by
  unfold getFullNsName
  split_ifs with hp
  · have := @splitQualName_append [] k (by simp) h.noSeparator
    simpa using congrArg Prod.snd this
  · rw [splitQualName_append (h.parent.resolve_left hp) h.noSeparator]

section Forest

variable {m m' : Memory NsId Namespace} {nextNs : NsId} {roots : List NsId}

namespace ForestInv

variable {p : NsId} {ns : Namespace}

theorem lt_nextNs (h : ForestInv m nextNs roots) (hp : m p = some ns) : p < nextNs := by
  by_contra hge
  have := h.fresh p (Nat.le_of_not_lt hge)
  simp [hp] at this

variable {k : Bytes} {c : NsId}

section

variable (h : ForestInv m nextNs roots)

include h

theorem entry_unique {p' : NsId} {ns' : Namespace} {k' : Bytes}
    (hp : m p = some ns) (hp' : m p' = some ns') (hk : ns.paChild.lookup k = some c)
    (hk' : ns'.paChild.lookup k' = some c) :
    p = p' ∧ k = k' := by
  obtain ⟨-, -, child, hc, hchild⟩ := h.child p ns k c hp hk
  obtain ⟨-, -, child', hc', hchild'⟩ := h.child p' ns' k' c hp' hk'
  have hsame : child = child' := some.inj (hc.symm.trans hc')
  subst hsame
  have hpp : p = p' := some.inj (hchild.pParent.symm.trans hchild'.pParent)
  subst hpp
  have hns : ns = ns' := some.inj (hp.symm.trans hp')
  subst hns
  exact ⟨rfl, getFullNsName_injective (hchild.zName.symm.trans hchild'.zName)⟩

theorem kids_nodup (hp : m p = some ns) : ns.kids.Nodup := by
  apply List.Nodup.map_on
  · rintro ⟨k, c⟩ hk ⟨k', c'⟩ hk' hcc
    simp only at hcc
    subst hcc
    have := (h.entry_unique hp hp (AList.mem_lookup_iff.mpr hk) (AList.mem_lookup_iff.mpr hk')).2
    simp [this]
  · exact ns.paChild.nodupKeys.nodup

theorem treeBelow (q : NsId) : TreeBelow Namespace.kids Namespace.nDepth releaseFuel m q where
  kid p ns c _ hp hc := by
    obtain ⟨k, hk⟩ := mem_kids.mp hc
    obtain ⟨-, -, child, hchild, his⟩ := h.child p ns k c hp hk
    exact ⟨child, hchild, his.nDepth⟩
  unique p p' ns ns' c _ _ hp hp' hc hc' := by
    obtain ⟨k, hk⟩ := mem_kids.mp hc
    obtain ⟨k', hk'⟩ := mem_kids.mp hc'
    exact (h.entry_unique hp hp' hk hk').1
  nodup p ns _ hp := h.kids_nodup hp
  bounded p ns _ hp := by
    have := h.depth p ns hp
    simp only [releaseFuel]
    omega

theorem clear {D : NsId → Prop} {roots' : List NsId}
    (hcleared : ∀ x, (D x → m' x = none) ∧ (¬D x → m' x = m x)) (hglobal : ¬D globalNs)
    (hclosed : ∀ p ns k c, m p = some ns → ¬D p → ns.paChild.lookup k = some c → ¬D c)
    (hsub : ∀ q ∈ roots', q ∈ roots ∧ ¬D q) (hnodup : roots'.Nodup) :
    ForestInv m' nextNs roots' := by
  have hback : ∀ {x ns}, m' x = some ns → ¬D x ∧ m x = some ns := by
    intro x ns hx
    by_cases hD : D x
    · simp [(hcleared x).1 hD] at hx
    · exact ⟨hD, (hcleared x).2 hD ▸ hx⟩
  refine ⟨?_, ?_, ?_, ?_, ?_, ?_, hnodup⟩
  · obtain ⟨g, hg, hname, hdepth⟩ := h.global
    exact ⟨g, ((hcleared _).2 hglobal).trans hg, hname, hdepth⟩
  · intro x hx
    by_cases hD : D x
    · exact (hcleared x).1 hD
    · exact ((hcleared x).2 hD).trans (h.fresh x hx)
  · intro p ns hp
    exact h.depth p ns (hback hp).2
  · intro p ns hp
    exact h.noNul p ns (hback hp).2
  · intro p ns k c hp hk
    obtain ⟨hD, hp⟩ := hback hp
    obtain ⟨hne, hgood, child, hc, hchild⟩ := h.child p ns k c hp hk
    exact ⟨hne, hgood, child, ((hcleared c).2 (hclosed p ns k c hp hD hk)).trans hc, hchild⟩
  · intro q hq
    obtain ⟨hq, hD⟩ := hsub q hq
    obtain ⟨hne, ⟨ns, hns⟩, hfree⟩ := h.root q hq
    exact ⟨hne, ⟨ns, ((hcleared q).2 hD).trans hns⟩, fun p ns k hp => hfree p ns k (hback hp).2⟩

theorem not_below_of_entry {q : NsId}
    (hfree : ∀ p ns k, m p = some ns → ns.paChild.lookup k ≠ some q) (hp : m p = some ns)
    (hout : ¬Below Namespace.kids m q p) (hk : ns.paChild.lookup k = some c) :
    ¬Below Namespace.kids m q c := by
  intro hc
  cases hc with
  | root => exact hfree p ns k hp hk
  | kid hp' hns' hc' =>
    obtain ⟨k', hk'⟩ := mem_kids.mp hc'
    obtain ⟨rfl, -⟩ := h.entry_unique hp hns' hk hk'
    exact hout hp'

theorem releaseRoot {q : NsId} (hq : q ∈ roots) :
    ∃ m', release Namespace.kids releaseFuel m q = some m' ∧
      Cleared Namespace.kids m q m' ∧ ForestInv m' nextNs (roots.erase q) := by
  obtain ⟨hne, ⟨ns, hns⟩, hfree⟩ := h.root q hq
  obtain ⟨m', hm', hcleared⟩ := release_cleared releaseFuel m q (h.treeBelow q) ⟨ns, hns, by omega⟩
  -- A root other than `q`, and the global namespace, are in no table and so not below it.
  have hnot : ∀ x, x ≠ q → (∀ p ns k, m p = some ns → ns.paChild.lookup k ≠ some x) →
      ¬Below Namespace.kids m q x := by
    intro x hxq hx hbelow
    cases hbelow with
    | root => exact hxq rfl
    | kid hp hns' hc =>
      obtain ⟨k, hk⟩ := mem_kids.mp hc
      exact hx _ _ k hns' hk
  refine ⟨m', hm', hcleared, h.clear hcleared ?_ ?_ ?_ (h.nodup.erase q)⟩
  · exact hnot globalNs (Ne.symm hne) fun p ns k hp hk => (h.child p ns k _ hp hk).1 rfl
  · intro p ns k c hp hout hk
    exact h.not_below_of_entry hfree hp hout hk
  · intro x hx
    have hx' := (h.nodup.mem_erase_iff).mp hx
    exact ⟨hx'.2, hnot x hx'.1 (h.root x hx'.2).2.2⟩

theorem releaseRoots :
    ∃ m', roots.foldlM (release Namespace.kids releaseFuel) m = some m' ∧
      ForestInv m' nextNs [] ∧ (∀ q ∈ roots, m' q = none) ∧ ∀ x, m' x = none ∨ m' x = m x := by
  induction roots generalizing m with
  | nil => exact ⟨m, rfl, h, by simp, fun x => .inr rfl⟩
  | cons q roots ih =>
    obtain ⟨m₁, hm₁, hcleared, h₁⟩ := h.releaseRoot mem_cons_self
    rw [erase_cons_head] at h₁
    obtain ⟨m', hm', h', hroots, hkeep⟩ := ih h₁
    refine ⟨m', by simp [foldlM_cons, hm₁, hm'], h', ?_, ?_⟩
    · intro x hx
      rcases mem_cons.mp hx with rfl | hx
      · exact (hkeep _).elim id fun heq => heq.trans ((hcleared _).1 .root)
      · exact hroots x hx
    · intro x
      rcases hkeep x with hnone | heq
      · exact .inl hnone
      · by_cases hbelow : Below Namespace.kids m q x
        · exact .inl (heq.trans ((hcleared x).1 hbelow))
        · exact .inr (heq.trans ((hcleared x).2 hbelow))

end

/-! ### Changing one table -/

theorem update_table (hp : m p = some ns) (T : AList fun _ : Bytes => NsId) {x : NsId}
    {r : Namespace} (hx : update m p (some { ns with paChild := T }) x = some r) :
    ∃ r₀, m x = some r₀ ∧ r = { r₀ with paChild := if x = p then T else r₀.paChild } := by
  by_cases hxp : x = p
  · subst hxp
    rw [update_self, some.injEq] at hx
    exact ⟨ns, hp, by simp [← hx]⟩
  · rw [update_of_ne hxp] at hx
    exact ⟨r, hx, by simp [hxp]⟩

theorem exists_update_table (hp : m p = some ns) (T : AList fun _ : Bytes => NsId) {x : NsId}
    {r₀ : Namespace} (hx : m x = some r₀) :
    ∃ r, update m p (some { ns with paChild := T }) x = some r ∧
      r.zName = r₀.zName ∧ r.pParent = r₀.pParent ∧ r.nDepth = r₀.nDepth := by
  by_cases hxp : x = p
  · subst hxp
    have hsame : ns = r₀ := some.inj (hp.symm.trans hx)
    subst hsame
    exact ⟨_, update_self .., rfl, rfl, rfl⟩
  · exact ⟨r₀, by rw [update_of_ne hxp, hx], rfl, rfl, rfl⟩

section

variable (h : ForestInv m nextNs roots)

include h

section

variable (hp : m p = some ns)

include hp

theorem shrink {T : AList fun _ : Bytes => NsId}
    (hsub : ∀ k c, T.lookup k = some c → ns.paChild.lookup k = some c) :
    ForestInv (update m p (some { ns with paChild := T })) nextNs roots := by
  -- An entry after the change is an entry before it.
  have hentry : ∀ {x r r₀ k c}, m x = some r₀ →
      r = { r₀ with paChild := if x = p then T else r₀.paChild } →
      r.paChild.lookup k = some c → r₀.paChild.lookup k = some c := by
    intro x r r₀ k c hx hr hk
    by_cases hxp : x = p
    · subst hxp
      have hsame : ns = r₀ := some.inj (hp.symm.trans hx)
      subst hsame
      exact hsub k c (by simpa [hr] using hk)
    · simpa [hr, hxp] using hk
  refine ⟨?_, ?_, ?_, ?_, ?_, ?_, h.nodup⟩
  · obtain ⟨g, hg, hname, hdepth⟩ := h.global
    obtain ⟨r, hr, hzName, -, hnDepth⟩ := exists_update_table hp T hg
    exact ⟨r, hr, hzName.trans hname, hnDepth.trans hdepth⟩
  · intro x hx
    have hxp : x ≠ p := by
      have := h.lt_nextNs hp
      rintro rfl
      exact absurd hx (Nat.not_le.mpr this)
    rw [update_of_ne hxp]
    exact h.fresh x hx
  · intro x r hx
    obtain ⟨r₀, hx₀, rfl⟩ := update_table hp T hx
    exact h.depth x r₀ hx₀
  · intro x r hx
    obtain ⟨r₀, hx₀, rfl⟩ := update_table hp T hx
    exact h.noNul x r₀ hx₀
  · intro x r k c hx hk
    obtain ⟨r₀, hx₀, hr⟩ := update_table hp T hx
    obtain ⟨hne, hgood, child, hc, hchild⟩ := h.child x r₀ k c hx₀ (hentry hx₀ hr hk)
    obtain ⟨child', hc', hzName, hpParent, hnDepth⟩ := exists_update_table hp T hc
    subst hr
    exact ⟨hne, ⟨hgood.nonempty, hgood.noSeparator, hgood.noNul, hgood.parent⟩, child', hc',
      ⟨hpParent.trans hchild.pParent, hnDepth.trans hchild.nDepth, hzName.trans hchild.zName⟩⟩
  · intro q hq
    obtain ⟨hne, ⟨r₀, hr₀⟩, hfree⟩ := h.root q hq
    obtain ⟨r, hr, -⟩ := exists_update_table hp T hr₀
    refine ⟨hne, ⟨r, hr⟩, fun x r k hx hk => ?_⟩
    obtain ⟨r₀, hx₀, hr⟩ := update_table hp T hx
    exact hfree x r₀ k hx₀ (hentry hx₀ hr hk)

theorem unlink (hk : ns.paChild.lookup k = some c) :
    ForestInv (update m p (some { ns with paChild := ns.paChild.erase k }))
      nextNs (roots ++ [c]) := by
  have herase : ∀ k' c', (ns.paChild.erase k).lookup k' = some c' →
      k' ≠ k ∧ ns.paChild.lookup k' = some c' := by
    intro k' c' hk'
    by_cases hkk : k' = k
    · subst hkk
      simp [AList.lookup_erase] at hk'
    · exact ⟨hkk, by rwa [AList.lookup_erase_ne hkk] at hk'⟩
  have h' := h.shrink hp fun k' c' hk' => (herase k' c' hk').2
  obtain ⟨hne, -, child, hc, -⟩ := h.child p ns k c hp hk
  obtain ⟨child', hc', -⟩ := exists_update_table hp (ns.paChild.erase k) hc
  refine { h' with root := ?_, nodup := ?_ }
  · intro q hq
    rcases mem_append.mp hq with hq | hq
    · exact h'.root q hq
    · obtain rfl : q = c := by simpa using hq
      refine ⟨hne, ⟨child', hc'⟩, fun x r k' hx hk' => ?_⟩
      obtain ⟨r₀, hx₀, rfl⟩ := update_table hp _ hx
      by_cases hxp : x = p
      · subst hxp
        simp only [if_true] at hk'
        exact (herase k' q hk').1 (h.entry_unique hp hp (herase k' q hk').2 hk).2
      · simp only [hxp, if_false] at hk'
        exact hxp (h.entry_unique hx₀ hp hk' hk).1
  · rw [nodup_append]
    refine ⟨h.nodup, by simp, fun q hq q' hq' hqq => ?_⟩
    obtain rfl : q' = c := by simpa using hq'
    exact (h.root q hq).2.2 p ns k hp (hqq ▸ hk)

theorem cString_getFullNsName (hk : 0 ∉ k) :
    cString (getFullNsName p ns k) = getFullNsName p ns k ∧ 0 ∉ getFullNsName p ns k := by
  have hnul : 0 ∉ getFullNsName p ns k := by
    have hname := h.noNul p ns hp
    have hsep : 0 ∉ nsSeparator := by decide
    unfold getFullNsName
    split_ifs
    · simp [hk, hsep]
    · simp [hk, hname, hsep]
  refine ⟨?_, hnul⟩
  apply takeWhile_eq_self_iff.mpr
  intro c hc
  simpa using fun hc0 : c = 0 => hnul (hc0 ▸ hc)

/-- Linking a new namespace. -/
theorem link (hk : ns.paChild.lookup k = none)
    (hgood : GoodKey p ns k) (hdepth : ns.nDepth < mxNsDepth) :
    ForestInv
      (update (update m nextNs (some ⟨cString (getFullNsName p ns k), some p, ns.nDepth + 1, ∅⟩)) p
        (some { ns with paChild := ns.paChild.insert k nextNs }))
      (nextNs + 1) roots := by
  obtain ⟨hname, hnul⟩ := h.cString_getFullNsName hp hgood.noNul
  rw [hname]
  have hpn : p ≠ nextNs := Nat.ne_of_lt (h.lt_nextNs hp)
  -- The memory with the new record, which no table mentions yet.
  generalize hchild : Namespace.mk (getFullNsName p ns k) (some p) (ns.nDepth + 1) ∅ = child
  have hmid : ∀ {x r}, update m nextNs (some child) x = some r →
      x = nextNs ∧ r = child ∨ x ≠ nextNs ∧ m x = some r := by
    intro x r hx
    by_cases hxn : x = nextNs
    · subst hxn
      rw [update_self, some.injEq] at hx
      exact .inl ⟨rfl, hx.symm⟩
    · rw [update_of_ne hxn] at hx
      exact .inr ⟨hxn, hx⟩
  have hp' : update m nextNs (some child) p = some ns := by
    rw [update_of_ne hpn, hp]
  have hlift : ∀ {x r}, m x = some r → update m nextNs (some child) x = some r := by
    intro x r hx
    rw [update_of_ne (Nat.ne_of_lt (h.lt_nextNs hx)), hx]
  -- An entry of the new memory is the new one or an old one.
  have hentry : ∀ {x r k' c},
      update (update m nextNs (some child)) p
        (some { ns with paChild := ns.paChild.insert k nextNs }) x = some r →
      r.paChild.lookup k' = some c →
      x = p ∧ k' = k ∧ c = nextNs ∨
        ∃ r₀, m x = some r₀ ∧ r₀.paChild.lookup k' = some c ∧ r.zName = r₀.zName ∧
          r.nDepth = r₀.nDepth := by
    intro x r k' c hx hk'
    obtain ⟨r₀, hx₀, rfl⟩ := update_table hp' _ hx
    rcases hmid hx₀ with ⟨rfl, rfl⟩ | ⟨hxn, hx₀⟩
    · simp [Ne.symm hpn, ← hchild] at hk'
    · by_cases hxp : x = p
      · subst hxp
        have hsame : ns = r₀ := some.inj (hp.symm.trans hx₀)
        subst hsame
        by_cases hkk : k' = k
        · subst hkk
          exact .inl ⟨rfl, rfl, by simpa using hk'.symm⟩
        · refine .inr ⟨ns, hx₀, ?_, rfl, rfl⟩
          simpa [AList.lookup_insert_ne hkk] using hk'
      · exact .inr ⟨r₀, hx₀, by simpa [hxp] using hk', rfl, rfl⟩
  refine ⟨?_, ?_, ?_, ?_, ?_, ?_, h.nodup⟩
  · obtain ⟨g, hg, hgname, hgdepth⟩ := h.global
    obtain ⟨r, hr, hzName, -, hnDepth⟩ := exists_update_table hp' _ (hlift hg)
    exact ⟨r, hr, hzName.trans hgname, hnDepth.trans hgdepth⟩
  · intro x hx
    have hxp : x ≠ p := by
      have := h.lt_nextNs hp
      rintro rfl
      exact absurd (Nat.le_of_succ_le hx) (Nat.not_le.mpr this)
    have hxn : x ≠ nextNs := Nat.ne_of_gt hx
    rw [update_of_ne hxp, update_of_ne hxn]
    exact h.fresh x (Nat.le_of_succ_le hx)
  · intro x r hx
    obtain ⟨r₀, hx₀, rfl⟩ := update_table hp' _ hx
    rcases hmid hx₀ with ⟨rfl, rfl⟩ | ⟨-, hx₀⟩
    · simp only [← hchild]
      exact hdepth
    · exact h.depth x r₀ hx₀
  · intro x r hx
    obtain ⟨r₀, hx₀, rfl⟩ := update_table hp' _ hx
    rcases hmid hx₀ with ⟨rfl, rfl⟩ | ⟨-, hx₀⟩
    · simpa only [← hchild] using hnul
    · exact h.noNul x r₀ hx₀
  · intro x r k' c hx hk'
    rcases hentry hx hk' with ⟨rfl, rfl, hc⟩ | ⟨r₀, hx₀, hk₀, hzName, hnDepth⟩
    · have hr : r = { ns with paChild := ns.paChild.insert k' nextNs } := by
        rw [update_self, some.injEq] at hx
        exact hx.symm
      rw [hc]
      have hne : nextNs ≠ globalNs := by
        obtain ⟨g, hg, -⟩ := h.global
        exact Ne.symm (Nat.ne_of_lt (h.lt_nextNs hg))
      subst hr
      refine ⟨hne, ⟨hgood.nonempty, hgood.noSeparator, hgood.noNul, hgood.parent⟩, child, ?_, ?_⟩
      · rw [update_of_ne (Ne.symm hpn), update_self]
      · rw [← hchild]
        exact ⟨rfl, rfl, rfl⟩
    · obtain ⟨hne, hgood₀, child₀, hc₀, hchild₀⟩ := h.child x r₀ k' c hx₀ hk₀
      obtain ⟨child', hc', hzName', hpParent', hnDepth'⟩ :=
        exists_update_table hp' (ns.paChild.insert k nextNs) (hlift hc₀)
      refine ⟨hne, ⟨hgood₀.nonempty, hgood₀.noSeparator, hgood₀.noNul, ?_⟩, child', hc',
        ⟨hpParent'.trans hchild₀.pParent, ?_, ?_⟩⟩
      · rw [hzName]
        exact hgood₀.parent
      · rw [hnDepth', hchild₀.nDepth, hnDepth]
      · rw [hzName', hchild₀.zName, getFullNsName, getFullNsName, hzName]
  · intro q hq
    obtain ⟨hne, ⟨r₀, hr₀⟩, hfree⟩ := h.root q hq
    obtain ⟨r, hr, -⟩ := exists_update_table hp' (ns.paChild.insert k nextNs) (hlift hr₀)
    refine ⟨hne, ⟨r, hr⟩, fun x r k' hx hk' => ?_⟩
    rcases hentry hx hk' with ⟨-, -, rfl⟩ | ⟨r₀, hx₀, hk₀, -⟩
    · exact Nat.lt_irrefl _ (h.lt_nextNs hr₀)
    · exact hfree x r₀ k' hx₀ hk₀

end

end

end ForestInv

end Forest

end Th8
