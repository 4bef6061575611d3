import Th8.Namespace.Rollback

/-!
# Full names lead back to their namespaces

In a run that creates no namespace below one whose name ends in a colon, and none
with a terminator in its name, the stored name of every namespace in the tree leads
back to it, and a deleted namespace is out of reach for good.
-/

namespace Th8

open Support Option Nat
open NsTree (findNamespace walk walkStart)
open Function (update update_of_ne update_self)

/-! ## What one operation changes -/

/-- What every operation keeps: no old namespace gets into a table it was not in, a
pending one stays pending until it is released, and a released one stays released. -/
structure Later (t t' : NsTree) : Prop where
  nextNs : t.nextNs ≤ t'.nextNs
  entry : ∀ p ns k c, t'.namespaces p = some ns → ns.paChild.lookup k = some c →
    c < t.nextNs → ∃ p' ns' k', t.namespaces p' = some ns' ∧ ns'.paChild.lookup k' = some c
  pending : ∀ q ∈ t.pendingNs, q ∈ t'.pendingNs ∨ t'.namespaces q = none
  released : ∀ x, x < t.nextNs → t.namespaces x = none → t'.namespaces x = none

theorem Later.of_eq {t t' : NsTree} (hns : t'.namespaces = t.namespaces)
    (hnext : t'.nextNs = t.nextNs) (hpending : t'.pendingNs = t.pendingNs) :
    Later t t' where
  nextNs := le_of_eq hnext.symm
  entry p ns k c hp hk _ := ⟨p, ns, k, hns ▸ hp, hk⟩
  pending q hq := .inl (hpending ▸ hq)
  released x _ hx := hns ▸ hx

theorem Later.trans {t₁ t₂ t₃ : NsTree} (h : t₁.Inv) (h₁₂ : Later t₁ t₂)
    (h₂₃ : Later t₂ t₃) : Later t₁ t₃ := by
  refine ⟨le_trans h₁₂.nextNs h₂₃.nextNs, ?_, ?_, ?_⟩
  · intro p ns k c hp hk hc
    obtain ⟨p', ns', k', hp', hk'⟩ := h₂₃.entry p ns k c hp hk (lt_of_lt_of_le hc h₁₂.nextNs)
    exact h₁₂.entry p' ns' k' c hp' hk' hc
  · intro q hq
    obtain ⟨-, ⟨ns, hns⟩, -⟩ := h.root q hq
    have hlt : q < t₂.nextNs := lt_of_lt_of_le (ForestInv.lt_nextNs h hns) h₁₂.nextNs
    rcases h₁₂.pending q hq with hpending | hnone
    · exact h₂₃.pending q hpending
    · exact .inr (h₂₃.released q hlt hnone)
  · intro x hx hnone
    exact h₂₃.released x (lt_of_lt_of_le hx h₁₂.nextNs) (h₁₂.released x hx hnone)

theorem Grown.later {t t' : NsTree} {root : NsId} (hg : Grown t t' root) (h : t.Inv) :
    Later t t' := by
  obtain ⟨p, ns, k, hp, hk, hp', hother⟩ := hg.under
  refine ⟨hg.nextNs, ?_, fun q hq => .inl (hg.pendingNs ▸ hq), ?_⟩
  · intro x r l c hx hl hc
    by_cases hxp : x = p
    · subst hxp
      rw [hp', some.injEq] at hx
      subst hx
      by_cases hlk : l = k
      · subst hlk
        rw [AList.lookup_insert, some.injEq] at hl
        rw [← hl, hg.root_eq] at hc
        exact absurd hc (lt_irrefl _)
      · rw [AList.lookup_insert_ne hlk] at hl
        exact ⟨x, ns, l, hp, hl⟩
    · by_cases hold : x < t.nextNs
      · rw [hother x hold hxp] at hx
        exact ⟨x, r, l, hx, hl⟩
      · have hbelow := hg.below x (Nat.le_of_not_lt hold) (by simp [hx])
        have := hg.new c (.kid hbelow hx (mem_kids.mpr ⟨l, hl⟩))
        exact absurd hc (Nat.not_lt.mpr this)
  · intro x hx hnone
    have hxp : x ≠ p := by
      rintro rfl
      simp [hp] at hnone
    rw [hother x hx hxp, hnone]

theorem Restored.later {t t' : NsTree} (hr : Restored t t') : Later t t' := by
  obtain ⟨l, hl⟩ := hr.pendingNs
  refine ⟨hr.nextNs, ?_, fun q hq => .inl (by simp [hl, hq]), ?_⟩
  · intro p ns k c hp hk hc
    by_cases hold : p < t.nextNs
    · exact ⟨p, ns, k, hr.old p hold ▸ hp, hk⟩
    · exact absurd hc (Nat.not_lt.mpr (hr.new p ns k c (Nat.le_of_not_lt hold) hp hk))
  · intro x hx hnone
    rw [hr.old x hx, hnone]

/-- A memory whose records are those of `t`, some with fewer entries. -/
structure Shrunk (m m' : Memory NsId Namespace) : Prop where
  record : ∀ x ns', m' x = some ns' → ∃ ns, m x = some ns ∧
    ∀ k c, ns'.paChild.lookup k = some c → ns.paChild.lookup k = some c

theorem Shrunk.later {t t' : NsTree} (hs : Shrunk t.namespaces t'.namespaces)
    (hnext : t'.nextNs = t.nextNs)
    (hpending : ∀ q ∈ t.pendingNs, q ∈ t'.pendingNs ∨ t'.namespaces q = none) :
    Later t t' := by
  refine ⟨le_of_eq hnext.symm, ?_, hpending, ?_⟩
  · intro p ns k c hp hk _
    obtain ⟨ns₀, hp₀, hsub⟩ := hs.record p ns hp
    exact ⟨p, ns₀, k, hp₀, hsub k c hk⟩
  · intro x _ hnone
    rcases hx : t'.namespaces x with _ | ns
    · rfl
    · obtain ⟨ns₀, hx₀, -⟩ := hs.record x ns hx
      simp [hnone] at hx₀

theorem Shrunk.trans {m₁ m₂ m₃ : Memory NsId Namespace} (h₁₂ : Shrunk m₁ m₂)
    (h₂₃ : Shrunk m₂ m₃) : Shrunk m₁ m₃ := by
  refine ⟨fun x ns₃ hx => ?_⟩
  obtain ⟨ns₂, hx₂, hsub₂⟩ := h₂₃.record x ns₃ hx
  obtain ⟨ns₁, hx₁, hsub₁⟩ := h₁₂.record x ns₂ hx₂
  exact ⟨ns₁, hx₁, fun k c hk => hsub₁ k c (hsub₂ k c hk)⟩

theorem Shrunk.of_cleared {m m' : Memory NsId Namespace} {D : NsId → Prop}
    (h : ∀ x, (D x → m' x = none) ∧ (¬D x → m' x = m x)) : Shrunk m m' := by
  refine ⟨fun x ns hx => ?_⟩
  by_cases hD : D x
  · simp [(h x).1 hD] at hx
  · exact ⟨ns, (h x).2 hD ▸ hx, fun _ _ hk => hk⟩

theorem Shrunk.of_table {m : Memory NsId Namespace} {p : NsId} {ns : Namespace}
    (hp : m p = some ns) {T : AList fun _ : Bytes => NsId}
    (hsub : ∀ k c, T.lookup k = some c → ns.paChild.lookup k = some c) :
    Shrunk m (update m p (some { ns with paChild := T })) := by
  refine ⟨fun x r hx => ?_⟩
  obtain ⟨r₀, hx₀, rfl⟩ := ForestInv.update_table hp T hx
  refine ⟨r₀, hx₀, fun k c hk => ?_⟩
  by_cases hxp : x = p
  · subst hxp
    have hsame : ns = r₀ := some.inj (hp.symm.trans hx₀)
    subst hsame
    exact hsub k c (by simpa using hk)
  · simpa [hxp] using hk

/-! ## One operation -/

def NsOp.Clean (t : NsTree) : NsOp → Prop
  | .create zName _ => t.CleanCreate zName
  | .createThenFail zName _ => t.CleanCreate zName
  | _ => True

section Step

variable {t t' : NsTree}

theorem walkStart_of_nil {zName : Bytes} (h : (t.walkStart zName).2 = []) :
    (t.walkStart zName).1 = globalNs := by
  unfold walkStart at h ⊢
  split_ifs at h ⊢ with hnil habs
  · rfl
  · rfl
  · exact absurd h (nsComponents_ne_nil hnil (by simpa using habs))

theorem walkStart_wellSplit (zName : Bytes) : WellSplit (t.walkStart zName).2 := by
  unfold walkStart
  split_ifs
  · trivial
  · exact nsComponents_wellSplit _
  · exact nsComponents_wellSplit _

theorem NsTree.Inv.findNamespaceEx (h : t.Inv) {zName : Bytes} {mem : ℕ → ChildMemory}
    {r : CreateResult} (hclean : t.CleanCreate zName)
    (hfind : t.findNamespaceEx mem zName = some (t', r)) :
    t'.Inv ∧ CreateOutcome t t' r := by
  unfold NsTree.findNamespaceEx at hfind
  rcases hstart : t.namespaces (t.walkStart zName).1 with _ | ns
  · rcases hcomps : (t.walkStart zName).2 with _ | ⟨zComp, rest⟩
    · obtain ⟨g, hg, -⟩ := h.global
      simp [walkStart_of_nil hcomps, hg] at hstart
    · simp [hcomps, NsTree.createWalk, hstart] at hfind
  · obtain ⟨t'', r', hwalk, hspec⟩ :=
      createWalk_spec mem h hstart (walkStart_wellSplit zName) hclean
    rw [hwalk, some.injEq, Prod.mk.injEq] at hfind
    obtain ⟨rfl, rfl⟩ := hfind
    exact hspec

theorem CreateOutcome.later (h : t.Inv) {r : CreateResult} (hr : CreateOutcome t t' r) :
    Later t t' := by
  match r, hr with
  | .found _ none, hr =>
    obtain ⟨rfl, -⟩ := hr
    exact .of_eq rfl rfl rfl
  | .found _ (some _), hr => exact hr.1.later h
  | .failed _, hr => exact Restored.later hr

theorem CreateOutcome.rollback (h : t.Inv) (h' : t'.Inv) {pNs : NsId}
    {root : Option NsId} (hr : CreateOutcome t t' (.found pNs root)) :
    ∃ t'', t'.rollback root = some t'' ∧ t''.Inv ∧ Restored t t'' := by
  match root, hr with
  | none, hr =>
    obtain ⟨rfl, -⟩ := hr
    exact ⟨t', rfl, h, .refl h⟩
  | some _, hr => exact hr.1.rollback h h'

theorem entry_of_walk {pNs N : NsId} {comps : List Bytes} (hne : comps ≠ [])
    (hwalk : t.walk pNs comps = some (some N)) :
    ∃ p ns k, t.namespaces p = some ns ∧ ns.paChild.lookup k = some N := by
  induction comps generalizing pNs with
  | nil => exact absurd rfl hne
  | cons zComp rest ih =>
    rcases hns : t.namespaces pNs with _ | ns
    · simp [walk, hns] at hwalk
    · rcases hk : ns.paChild.lookup zComp with _ | pChild
      · simp [walk, hns, hk] at hwalk
      · simp only [walk, hns, hk] at hwalk
        cases rest with
        | nil =>
          obtain rfl : pChild = N := by simpa [walk] using hwalk
          exact ⟨pNs, ns, zComp, hns, hk⟩
        | cons d rest => exact ih (by simp) hwalk

theorem entry_of_find {N : NsId} {zName : Bytes} (hN : N ≠ globalNs)
    (hfind : t.findNamespace zName = some (some N)) :
    ∃ p ns k, t.namespaces p = some ns ∧ ns.paChild.lookup k = some N := by
  by_cases hnil : (t.walkStart zName).2 = []
  · rw [findNamespace, hnil, walkStart_of_nil hnil, walk, some.injEq, some.injEq] at hfind
    exact absurd hfind.symm hN
  · exact entry_of_walk hnil hfind

structure Gone (t : NsTree) (N : NsId) : Prop where
  old : N < t.nextNs
  unlinked : ∀ p ns k, t.namespaces p = some ns → ns.paChild.lookup k ≠ some N
  waiting : N ∈ t.pendingNs ∨ t.namespaces N = none

theorem Gone.later {N : NsId} (hg : Gone t N) (hl : Later t t') : Gone t' N := by
  refine ⟨lt_of_lt_of_le hg.old hl.nextNs, ?_, ?_⟩
  · intro p ns k hp hk
    obtain ⟨p', ns', k', hp', hk'⟩ := hl.entry p ns k N hp hk hg.old
    exact hg.unlinked p' ns' k' hp' hk'
  · rcases hg.waiting with hpending | hnone
    · exact hl.pending N hpending
    · exact .inr (hl.released N hg.old hnone)

section

variable (h : t.Inv)

include h

theorem NsTree.Inv.unlinkFree_gone {p N : NsId} {ns : Namespace} {k : Bytes}
    (hp : t.namespaces p = some ns) (hk : ns.paChild.lookup k = some N) :
    ∃ t', t.unlinkFreeNamespace N = some t' ∧ t'.Inv ∧ Later t t' ∧ Gone t' N := by
  obtain ⟨t', ht', hinv, hnext, -, -, hcases⟩ := h.unlinkFree hp hk
  have hunlinked := ((ForestInv.unlink h hp hk).root N (by simp)).2.2
  obtain ⟨-, -, child, hc, -⟩ := h.child p ns k N hp hk
  have hold : N < t'.nextNs := hnext ▸ ForestInv.lt_nextNs h hc
  have hsub : Shrunk t.namespaces (t.withoutEntry p ns k) := .of_table hp fun _ _ => lookup_of_erase
  refine ⟨t', ht', hinv, ?_⟩
  rcases hcases with ⟨-, hns, hpending⟩ | ⟨hcleared, hpending⟩
  · refine ⟨Shrunk.later (hns ▸ hsub) hnext fun q hq => .inl (by simp [hpending, hq]),
      hold, ?_, .inl (by simp [hpending])⟩
    rw [hns]
    exact hunlinked
  · refine ⟨Shrunk.later (hsub.trans (.of_cleared hcleared)) hnext
      fun q hq => .inl (hpending ▸ hq), hold, ?_, .inr ((hcleared N).1 .root)⟩
    intro x r l hx hl
    obtain ⟨r₀, hx₀, hsub₀⟩ := (Shrunk.of_cleared hcleared).record x r hx
    exact hunlinked x r₀ l hx₀ (hsub₀ l N hl)

/-- Emptying the global namespace. -/
theorem NsTree.Inv.emptyGlobal {g : Namespace}
    (hg : t.namespaces globalNs = some g) {m' : Memory NsId Namespace}
    (hm' : g.kids.foldlM (release Namespace.kids releaseFuel) t.namespaces = some m') :
    ForestInv (update m' globalNs (some { g with paChild := ∅ })) t.nextNs t.pendingNs ∧
      Shrunk t.namespaces (update m' globalNs (some { g with paChild := ∅ })) := by
  -- The addresses that are released: those below the children of the global namespace.
  let D : NsId → Prop := fun x => ∃ c ∈ g.kids, Below Namespace.kids t.namespaces c x
  have hlinked : ∀ x, D x → ∃ p ns k, (p = globalNs ∨ D p) ∧ t.namespaces p = some ns ∧
      ns.paChild.lookup k = some x := by
    rintro x ⟨c, hc, hx⟩
    cases hx with
    | root =>
      obtain ⟨k, hk⟩ := mem_kids.mp hc
      exact ⟨globalNs, g, k, .inl rfl, hg, hk⟩
    | kid hp hr hx =>
      obtain ⟨k, hk⟩ := mem_kids.mp hx
      exact ⟨_, _, k, .inr ⟨c, hc, hp⟩, hr, hk⟩
  have hrec : ∀ c ∈ g.kids, ∃ r, t.namespaces c = some r ∧
      releaseFuel ≤ r.nDepth + releaseFuel := by
    intro c hc
    obtain ⟨k, hk⟩ := mem_kids.mp hc
    obtain ⟨-, -, child, hchild, -⟩ := h.child globalNs g k c hg hk
    exact ⟨child, hchild, by omega⟩
  obtain ⟨m'', hm'', hclear⟩ := foldlM_release
    (release_cleared releaseFuel) (fun c _ => ForestInv.treeBelow h c) hrec
    (fun c hc c' hc' x hx hx' =>
      (ForestInv.treeBelow h globalNs).disjoint hg hc hc' hx hx')
    (ForestInv.kids_nodup h hg) (fun _ _ _ _ => rfl)
  obtain rfl : m'' = m' := some.inj (hm''.symm.trans hm')
  have hglobal : ¬D globalNs := by
    intro hD
    obtain ⟨p, ns, k, -, hp, hk⟩ := hlinked globalNs hD
    exact (h.child p ns k globalNs hp hk).1 rfl
  have hempty : ForestInv (update t.namespaces globalNs
      (some { g with paChild := ∅ })) t.nextNs t.pendingNs :=
    ForestInv.shrink h hg (by simp)
  have hcleared : ∀ x, (D x → update m'' globalNs (some { g with paChild := ∅ }) x = none) ∧
      (¬D x → update m'' globalNs (some { g with paChild := ∅ }) x =
        update t.namespaces globalNs (some { g with paChild := ∅ }) x) := by
    intro x
    by_cases hx : x = globalNs
    · subst hx
      exact ⟨fun hD => absurd hD hglobal, fun _ => by simp⟩
    · rw [update_of_ne hx, update_of_ne hx]
      exact hclear x
  refine ⟨hempty.clear hcleared hglobal ?_ ?_ h.nodup,
    (Shrunk.of_table hg (by simp)).trans (.of_cleared hcleared)⟩
  · intro p ns k c hp hout hk hD
    by_cases hpg : p = globalNs
    · subst hpg
      rw [update_self, some.injEq] at hp
      subst hp
      simp at hk
    · rw [update_of_ne hpg] at hp
      obtain ⟨p', ns', k', hp'D, hp', hk'⟩ := hlinked c hD
      obtain ⟨rfl, -⟩ := ForestInv.entry_unique h hp hp' hk hk'
      exact hp'D.elim hpg hout
  · intro q hq
    refine ⟨hq, fun hD => ?_⟩
    obtain ⟨p, ns, k, -, hp, hk⟩ := hlinked q hD
    exact (h.root q hq).2.2 p ns k hp hk

theorem NsTree.Inv.setCurrent (pNs : NsId) :
    NsTree.Inv { t with pCurrentNs := pNs } := h

theorem NsTree.Inv.deleteNamespace {N : NsId} (hN : N ≠ globalNs)
    {zName : Bytes} (hfind : t.findNamespace zName = some (some N)) (granted : Bool) :
    ∃ t', t.deleteNamespace zName granted = some (t', .ok) ∧ t'.Inv ∧ Later t t' ∧ Gone t' N := by
  obtain ⟨p, ns, k, hp, hk⟩ := entry_of_find hN hfind
  simp only [NsTree.deleteNamespace, hfind, hN, if_false]
  by_cases hcurrent : N = t.pCurrentNs
  · have h₁ := h.setCurrent globalNs
    obtain ⟨t', ht', hinv, hlater, hgone⟩ := h₁.unlinkFree_gone hp hk
    refine ⟨t', ?_, hinv, ⟨hlater.nextNs, hlater.entry, hlater.pending, hlater.released⟩, hgone⟩
    rw [if_pos hcurrent, ht']
    rfl
  · obtain ⟨t', ht', hinv, hlater, hgone⟩ := h.unlinkFree_gone hp hk
    refine ⟨t', ?_, hinv, hlater, hgone⟩
    rw [if_neg hcurrent, ht']
    rfl

theorem delete_inv {zName : Bytes} {granted : Bool} {r : NsResult}
    (hdel : t.deleteNamespace zName granted = some (t', r)) : t'.Inv ∧ Later t t' := by
  rcases hfind : t.findNamespace zName with _ | _ | N
  · simp [NsTree.deleteNamespace, hfind] at hdel
  · simp only [NsTree.deleteNamespace, hfind, some.injEq, Prod.mk.injEq] at hdel
    obtain ⟨rfl, -⟩ := hdel
    exact ⟨h, .of_eq rfl rfl rfl⟩
  · by_cases hN : N = globalNs
    · subst hN
      -- The current namespace is reset first, which changes no table.
      generalize ht₁ : (if globalNs = t.pCurrentNs then
        { t with pCurrentNs := globalNs } else t) = t₁
      have hsame : t₁.namespaces = t.namespaces ∧ t₁.nextNs = t.nextNs ∧
          t₁.pendingNs = t.pendingNs := by
        rw [← ht₁]
        split_ifs
        · exact ⟨rfl, rfl, rfl⟩
        · exact ⟨rfl, rfl, rfl⟩
      obtain ⟨g, hg, -⟩ := h.global
      simp only [NsTree.deleteNamespace, hfind, ht₁, if_true, hsame.1, hg] at hdel
      cases granted with
      | false => simp at hdel
      | true =>
        simp only [if_true, map_eq_some_iff, Prod.mk.injEq] at hdel
        obtain ⟨m, hm, rfl, -⟩ := hdel
        obtain ⟨hforest, hshrunk⟩ := h.emptyGlobal hg hm
        refine ⟨?_, hshrunk.later hsame.2.1 fun q hq => .inl ?_⟩
        · simpa only [NsTree.Inv, hsame.2.1, hsame.2.2] using hforest
        · simpa only [hsame.2.2] using hq
    · obtain ⟨t'', ht'', hinv, hlater, -⟩ := h.deleteNamespace hN hfind granted
      rw [ht'', some.injEq, Prod.mk.injEq] at hdel
      obtain ⟨rfl, -⟩ := hdel
      exact ⟨hinv, hlater⟩

theorem drain_inv (hdrain : t.drainPendingNs = some t') : t'.Inv ∧ Later t t' := by
  obtain ⟨m, hm, hforest, hroots, hkeep⟩ := ForestInv.releaseRoots h
  simp only [NsTree.drainPendingNs, hm, map_some, some.injEq] at hdrain
  subst hdrain
  refine ⟨hforest, Shrunk.later ⟨fun x ns hx => ?_⟩ rfl fun q hq => .inr (hroots q hq)⟩
  rcases hkeep x with hnone | heq
  · simp [hnone] at hx
  · exact ⟨ns, heq ▸ hx, fun _ _ hk => hk⟩

theorem run_inv {op : NsOp} (hclean : op.Clean t) (hrun : op.run t = some t') :
    t'.Inv ∧ Later t t' := by
  cases op with
  | create zName mem =>
    simp only [NsOp.run, map_eq_some_iff, Prod.exists] at hrun
    obtain ⟨t₁, r, hfind, rfl⟩ := hrun
    obtain ⟨hinv, hout⟩ := h.findNamespaceEx hclean hfind
    exact ⟨hinv, hout.later h⟩
  | createThenFail zName mem =>
    rcases hfind : t.findNamespaceEx mem zName with _ | ⟨t₁, r⟩
    · simp [NsOp.run, hfind] at hrun
    · obtain ⟨hinv, hout⟩ := h.findNamespaceEx hclean hfind
      cases r with
      | found pNs root =>
        obtain ⟨t₂, ht₂, hinv₂, hrestored⟩ := hout.rollback h hinv
        simp only [NsOp.run, hfind, ht₂, some.injEq] at hrun
        subst hrun
        exact ⟨hinv₂, hrestored.later⟩
      | failed e =>
        simp only [NsOp.run, hfind, some.injEq] at hrun
        subst hrun
        exact ⟨hinv, Restored.later hout⟩
  | delete zName granted =>
    simp only [NsOp.run, map_eq_some_iff, Prod.exists] at hrun
    obtain ⟨t₁, r, hdel, rfl⟩ := hrun
    exact delete_inv h hdel
  | setCurrent pNs =>
    simp only [NsOp.run, ite_none_right_eq_some, some.injEq] at hrun
    obtain ⟨-, rfl⟩ := hrun
    exact ⟨h, .of_eq rfl rfl rfl⟩
  | enterEval =>
    simp only [NsOp.run, some.injEq] at hrun
    subst hrun
    exact ⟨h, .of_eq rfl rfl rfl⟩
  | leaveEval =>
    by_cases hdepth : t.nEvalDepth ≤ 1
    · simp only [NsOp.run, hdepth, if_true] at hrun
      have h₀ : NsTree.Inv { t with nEvalDepth := 0 } := h
      obtain ⟨hinv, hlater⟩ := drain_inv h₀ hrun
      exact ⟨hinv, ⟨hlater.nextNs, hlater.entry, hlater.pending, hlater.released⟩⟩
    · simp only [NsOp.run, hdepth, if_false, some.injEq] at hrun
      subst hrun
      exact ⟨h, .of_eq rfl rfl rfl⟩

end

theorem init_inv : NsTree.init.Inv := by
  have honly : ∀ {x ns}, NsTree.init.namespaces x = some ns →
      x = globalNs ∧ ns = ⟨nsSeparator, none, 0, ∅⟩ := by
    intro x ns hx
    by_cases hxg : x = globalNs
    · subst hxg
      simp only [NsTree.init, update_self, some.injEq] at hx
      exact ⟨rfl, hx.symm⟩
    · simp [NsTree.init, update_of_ne hxg] at hx
  refine ⟨⟨⟨nsSeparator, none, 0, ∅⟩, by simp [NsTree.init], rfl, rfl⟩, ?_, ?_, ?_, ?_, ?_,
    List.nodup_nil⟩
  · intro x hx
    have hxg : x ≠ globalNs := ne_of_gt hx
    simp [NsTree.init, update_of_ne hxg]
  · intro p ns hp
    obtain ⟨-, rfl⟩ := honly hp
    exact zero_le _
  · intro p ns hp
    obtain ⟨-, rfl⟩ := honly hp
    decide
  · intro p ns k c hp hk
    obtain ⟨-, rfl⟩ := honly hp
    simp at hk
  · intro q hq
    simp [NsTree.init] at hq

end Step

/-! ## Full names -/

inductive PathTo (t : NsTree) : NsId → List Bytes → Prop where
  | global : PathTo t globalNs []
  | child {p c : NsId} {ns : Namespace} {k : Bytes} {path : List Bytes}
      (hpath : PathTo t p path) (hp : t.namespaces p = some ns)
      (hk : ns.paChild.lookup k = some c) : PathTo t c (path ++ [k])

def NsTree.InTree (t : NsTree) (N : NsId) : Prop := ∃ path, PathTo t N path

section Name

variable {t : NsTree} {N : NsId} {path : List Bytes}

structure NameSpells (N : NsId) (ns : Namespace) (path : List Bytes) : Prop where
  wellSplit : WellSplit path
  zName : ns.zName = nsSeparator ++ joinNs path
  last : N ≠ globalNs → ∃ k, path.getLast? = some k ∧ ns.zName.getLast? = k.getLast?
  global : path ≠ [] → N ≠ globalNs

theorem PathTo.nameSpells (h : t.Inv) (hpath : PathTo t N path) :
    ∃ ns, t.namespaces N = some ns ∧ NameSpells N ns path := by
  induction hpath with
  | global =>
    obtain ⟨g, hg, hname, -⟩ := h.global
    exact ⟨g, hg, ⟨trivial, by simp [hname, joinNs], fun hne => absurd rfl hne,
      fun hne => absurd rfl hne⟩⟩
  | child hpath hp hk ih =>
    rename_i p c ns k path
    obtain ⟨ns', hns', hspells⟩ := ih
    have hsame : ns = ns' := some.inj (hp.symm.trans hns')
    subst hsame
    obtain ⟨hne, hgood, child, hc, hchild⟩ := h.child p ns k c hp hk
    refine ⟨child, hc, ⟨?_, ?_, ?_, fun _ => hne⟩⟩
    · refine wellSplit_concat hspells.wellSplit ?_ hgood.nonempty hgood.noSeparator
      intro l hl hcolon
      have hpg : p ≠ globalNs := hspells.global (by rintro rfl; simp at hl)
      obtain ⟨l', hl', hend⟩ := hspells.last hpg
      obtain rfl : l = l' := some.inj (hl.symm.trans hl')
      exact hgood.parent.resolve_left hpg (hend.trans hcolon)
    · rw [hchild.zName, getFullNsName]
      by_cases hpg : p = globalNs
      · have hnil : path = [] := by
          by_contra hpath'
          exact hspells.global hpath' hpg
        simp [hpg, hnil, joinNs]
      · obtain ⟨l, hl, -⟩ := hspells.last hpg
        have hpath' : path ≠ [] := by
          rintro rfl
          simp at hl
        rw [if_neg hpg, hspells.zName, joinNs_concat hpath']
        simp only [List.append_assoc]
    · intro _
      refine ⟨k, by simp, ?_⟩
      rw [hchild.zName, getLast_getFullNsName hgood.nonempty]

theorem walk_append {pNs : NsId} {comps : List Bytes} {k : Bytes} {ns : Namespace}
    {c p : NsId} (hwalk : t.walk pNs comps = some (some p)) (hp : t.namespaces p = some ns)
    (hk : ns.paChild.lookup k = some c) :
    t.walk pNs (comps ++ [k]) = some (some c) := by
  induction comps generalizing pNs with
  | nil =>
    obtain rfl : pNs = p := by simpa [walk] using hwalk
    simp [walk, hp, hk]
  | cons d comps ih =>
    rcases hns : t.namespaces pNs with _ | ns'
    · simp [walk, hns] at hwalk
    · rcases hd : ns'.paChild.lookup d with _ | pChild
      · simp [walk, hns, hd] at hwalk
      · simp only [walk, hns, hd, List.cons_append] at hwalk ⊢
        exact ih hwalk

theorem PathTo.walk (hpath : PathTo t N path) : t.walk globalNs path = some (some N) := by
  induction hpath with
  | global => rfl
  | child hpath hp hk ih => exact walk_append ih hp hk

theorem pathTo_of_walk {pNs : NsId} {comps : List Bytes} (hpath : PathTo t pNs path)
    (hwalk : t.walk pNs comps = some (some N)) : PathTo t N (path ++ comps) := by
  induction comps generalizing pNs path with
  | nil =>
    obtain rfl : pNs = N := by simpa [walk] using hwalk
    simpa using hpath
  | cons k comps ih =>
    rcases hns : t.namespaces pNs with _ | ns
    · simp [walk, hns] at hwalk
    · rcases hk : ns.paChild.lookup k with _ | pChild
      · simp [walk, hns, hk] at hwalk
      · simp only [walk, hns, hk] at hwalk
        simpa using ih (hpath.child hns hk) hwalk

theorem walk_setCurrent (pCurrentNs pNs : NsId) (comps : List Bytes) :
    walk { t with pCurrentNs := pCurrentNs } pNs comps = t.walk pNs comps := by
  induction comps generalizing pNs with
  | nil => rfl
  | cons zComp rest ih =>
    simp only [walk]
    split
    · rfl
    · split
      · rfl
      · exact ih _

theorem NsTree.Inv.findNamespace_zName (h : t.Inv) (hN : t.InTree N) :
    ∃ ns, t.namespaces N = some ns ∧ ns.nDepth ≤ mxNsDepth ∧ ∀ pCurrentNs,
      findNamespace { t with pCurrentNs := pCurrentNs } ns.zName = some (some N) := by
  obtain ⟨path, hpath⟩ := hN
  obtain ⟨ns, hns, hspells⟩ := hpath.nameSpells h
  refine ⟨ns, hns, h.depth N ns hns, fun pCurrentNs => ?_⟩
  have hstart : walkStart { t with pCurrentNs := pCurrentNs } ns.zName = (globalNs, path) := by
    have habs : isAbsolute (nsSeparator ++ joinNs path) = true := by
      simp [nsSeparator, isAbsolute]
    have hdrop : (nsSeparator ++ joinNs path).drop 2 = joinNs path := rfl
    rw [walkStart, hspells.zName, if_neg (by simp [nsSeparator]), if_pos habs, hdrop,
      nsComponents_joinNs hspells.wellSplit]
  rw [findNamespace, hstart, walk_setCurrent]
  exact hpath.walk

end Name

/-! ## Runs -/

/-- The namespace is released, no lookup leads to it, whichever is current, and no
table holds it. -/
structure NsTree.OutOfReach (t : NsTree) (N : NsId) : Prop where
  released : t.namespaces N = none
  lookup : ∀ pCurrentNs zName,
    findNamespace { t with pCurrentNs := pCurrentNs } zName ≠ some (some N)
  entry : ∀ p ns k, t.namespaces p = some ns → ns.paChild.lookup k ≠ some N

/-- What a namespace in the tree is held to: its stored name leads back to it and its
depth is within the limit, and once it has been deleted, by whatever name, and nothing
is pending any more, it is out of reach.  Further operations may come in between. -/
structure NamespaceSound (allowed : Option NsTree → NsOp → Prop) (t : NsTree)
    (N : NsId) : Prop where
  resolves : ∃ ns, t.namespaces N = some ns ∧ ns.nDepth ≤ mxNsDepth ∧ ∀ pCurrentNs,
    findNamespace { t with pCurrentNs := pCurrentNs } ns.zName = some (some N)
  deleted : N ≠ globalNs → ∀ zName granted, t.findNamespace zName = some (some N) →
    ∃ t', t.deleteNamespace zName granted = some (t', .ok) ∧
      ∀ t'', ReachableBy nsStep allowed (some t') (some t'') → t''.pendingNs = [] → t''.OutOfReach N

def CleanStep (t : Option NsTree) (op : NsOp) : Prop :=
  ∀ t', t = some t' → op.Clean t'

theorem reachable_inv {t t' : NsTree} (h : t.Inv)
    (hreach : ReachableBy nsStep CleanStep (some t) (some t')) : t'.Inv ∧ Later t t' := by
  have hinit : ∀ t', some t = some t' → NsTree.Inv t' ∧ Later t t' := by
    rintro t' ⟨⟩
    exact ⟨h, .of_eq rfl rfl rfl⟩
  have hstep : ∀ (s : Option NsTree) (op : NsOp),
      (∀ t', s = some t' → NsTree.Inv t' ∧ Later t t') → CleanStep s op →
        ∀ t', nsStep s op = some t' → NsTree.Inv t' ∧ Later t t' := by
    intro s op hs hclean t'' hrun
    obtain ⟨t', rfl, hrun⟩ := bind_eq_some_iff.mp hrun
    obtain ⟨h', hl⟩ := hs t' rfl
    obtain ⟨h'', hl'⟩ := run_inv h' (hclean t' rfl) hrun
    exact ⟨h'', hl.trans h hl'⟩
  exact hreach.invariant hinit hstep t' rfl

theorem Gone.outOfReach {t : NsTree} {N : NsId} (hg : Gone t N) (hN : N ≠ globalNs)
    (hpending : t.pendingNs = []) : t.OutOfReach N := by
  refine ⟨hg.waiting.resolve_left (by simp [hpending]), fun pCurrentNs zName hfind => ?_,
    hg.unlinked⟩
  obtain ⟨p, ns, k, hp, hk⟩ := entry_of_find hN hfind
  exact hg.unlinked p ns k hp hk

/-- In every run of clean operations every namespace in the tree is sound. -/
theorem namespaceSound_of_clean {t : NsTree}
    (hreach : ReachableBy nsStep CleanStep (some .init) (some t)) {N : NsId}
    (hN : t.InTree N) : NamespaceSound CleanStep t N := by
  obtain ⟨h, -⟩ := reachable_inv init_inv hreach
  refine ⟨h.findNamespace_zName hN, fun hne zName granted hfind => ?_⟩
  obtain ⟨t', hdel, h', -, hgone⟩ := h.deleteNamespace hne hfind granted
  refine ⟨t', hdel, fun t'' hreach' hpending => ?_⟩
  exact (hgone.later (reachable_inv h' hreach').2).outOfReach hne hpending

def allGranted : ℕ → ChildMemory := fun _ => ⟨true, true, true, true, true, true⟩

/-- The tree after `namespace eval a::b`. -/
def nestedTree : Option NsTree := nsStep (some .init) (.create (ascii "a::b") allGranted)

theorem namespaceSound_nested :
    ∃ t, nestedTree = some t ∧ t.InTree 2 ∧ NamespaceSound CleanStep t 2 := by
  obtain ⟨t, ht⟩ : ∃ t, nestedTree = some t := isSome_iff_exists.mp (by decide)
  have hwalk : nestedTree.bind (fun t => t.walk globalNs [ascii "a", ascii "b"]) =
      some (some 2) := by decide
  rw [ht, bind_some] at hwalk
  have hN : t.InTree 2 := ⟨_, pathTo_of_walk .global hwalk⟩
  have hclean : CleanStep (some .init) (.create (ascii "a::b") allGranted) := by
    rintro t' ⟨⟩
    have hstart : NsTree.init.walkStart (ascii "a::b") =
        (globalNs, [ascii "a", ascii "b"]) := by decide
    have hnul : ∀ c ∈ [ascii "a", ascii "b"], 0 ∉ c := by decide
    rw [NsOp.Clean, NsTree.CleanCreate, hstart]
    exact ⟨.inl rfl, hnul⟩
  have hreach : ReachableBy nsStep CleanStep (some .init) (some t) := by
    rw [← ht]
    exact .step _ .init hclean
  exact ⟨t, ht, hN, namespaceSound_of_clean hreach hN⟩

/-- The tree after `namespace eval a: (namespace eval b ...)`. -/
def colonTree : Option NsTree :=
  [.create (ascii "a:") allGranted, .setCurrent 1, .create (ascii "b") allGranted].foldl
    nsStep (some .init)

/-- The name `::a:::b` of the inner namespace does not lead back to it. -/
theorem colonTree_not_sound :
    ¬∀ t, Reachable nsStep (some .init) (some t) → ∀ N, t.InTree N →
      NamespaceSound (fun _ _ => True) t N := by
  intro hall
  obtain ⟨t, ht⟩ : ∃ t, colonTree = some t := isSome_iff_exists.mp (by decide)
  have hwalk : colonTree.bind (fun t => t.walk globalNs [ascii "a:", ascii "b"]) =
      some (some 2) := by decide
  have hname : colonTree.bind (fun t => (t.namespaces 2).bind fun ns =>
      t.findNamespace ns.zName) = some none := by decide
  rw [ht, bind_some] at hwalk hname
  have hreach : Reachable nsStep (some .init) (some t) := ht ▸ reachable_foldl _ _ _
  obtain ⟨⟨ns, hns, -, hfind⟩, -⟩ := hall t hreach 2 ⟨_, pathTo_of_walk .global hwalk⟩
  rw [hns, bind_some, hfind t.pCurrentNs] at hname
  simp at hname

end Th8
