import Th8.Command.Release

/-!
# The tables of sub-commands and their index

A sub-command is owned by its command and indexed for the whole interpreter.  The
invariant of the tables is kept by every change that is made to them; the index stays
exact unless a command goes without its sub-commands.
-/

namespace Th8

open Support Option Nat
open Function (update update_of_ne update_self)

namespace CmdInterp

/-- The index has the tokens of the sub-commands that are in a table, and no others. -/
structure IndexExact (s : CmdInterp) : Prop where
  sound : ∀ token r, s.subTokenEntry token = some r → ∃ sub,
    s.subCommands r = some sub ∧ sub.nToken = token ∧ s.subEntry sub.pParent sub.zName = some r
  complete : ∀ c k r, s.subEntry c k = some r →
    ∃ sub, s.subCommands r = some sub ∧ s.subTokenEntry sub.nToken = some r
  bound : ∀ token r, s.subTokenEntry token = some r → 0 < token ∧ token < s.nNextCmdToken
  pos : 0 < s.nNextCmdToken

/-- Every entry of a sub-command table refers to a live sub-command that knows the
command and its key.  If `indexed` holds the index is exact, too. -/
structure SubInv (indexed : Prop) (s : CmdInterp) : Prop where
  sub : ∀ c k r, s.subEntry c k = some r →
    ∃ sub, s.subCommands r = some sub ∧ sub.pParent = c ∧ sub.zName = k
  freshCmd : ∀ c, s.nextCmd ≤ c → s.commands c = none
  freshSub : ∀ r, s.nextSub ≤ r → s.subCommands r = none
  index : indexed → IndexExact s

theorem init_subInv (indexed : Prop) : SubInv indexed CmdInterp.init := by
  refine ⟨?_, fun _ _ => rfl, fun _ _ => rfl, fun _ => ⟨?_, ?_, ?_, Nat.one_pos⟩⟩
  · intro c k r hk
    simp [subEntry, CmdInterp.init] at hk
  · intro token r hr
    simp [subTokenEntry, CmdInterp.init] at hr
  · intro c k r hk
    simp [subEntry, CmdInterp.init] at hk
  · intro token r hr
    simp [subTokenEntry, CmdInterp.init] at hr

namespace SubInv

variable {indexed : Prop} {s s' : CmdInterp} {c : CmdId}

theorem lt_nextCmd (h : SubInv indexed s) {cmd : CommandRecord}
    (hc : s.commands c = some cmd) : c < s.nextCmd := by
  by_contra hge
  simp [h.freshCmd c (Nat.le_of_not_lt hge)] at hc

variable {r : SubId}

section

variable (h : SubInv indexed s)

include h

theorem sub_unique {c' : CmdId} {k k' : Bytes} (hk : s.subEntry c k = some r)
    (hk' : s.subEntry c' k' = some r) :
    c = c' ∧ k = k' := by
  obtain ⟨sub, hsub, hp, hz⟩ := h.sub c k r hk
  obtain ⟨sub', hsub', hp', hz'⟩ := h.sub c' k' r hk'
  obtain rfl : sub = sub' := some.inj (hsub.symm.trans hsub')
  exact ⟨hp.symm.trans hp', hz.symm.trans hz'⟩

/-! ## Changes to the tables of sub-commands -/

theorem congr (hentry : ∀ c k, s'.subEntry c k = s.subEntry c k)
    (hsubs : s'.subCommands = s.subCommands) (hindex : s'.paSubToken = s.paSubToken)
    (htoken : s.nNextCmdToken ≤ s'.nNextCmdToken) (hnext : s'.nextSub = s.nextSub)
    (hfresh : ∀ c, s'.nextCmd ≤ c → s'.commands c = none) : SubInv indexed s' := by
  have htok : ∀ token, s'.subTokenEntry token = s.subTokenEntry token := fun token => by
    simp only [subTokenEntry, hindex]
  refine ⟨?_, hfresh, by rw [hsubs, hnext]; exact h.freshSub, fun hi => ?_⟩
  · intro c k r hk
    rw [hsubs]
    exact h.sub c k r (hentry c k ▸ hk)
  · obtain ⟨hsound, hcomplete, hbound, hpos⟩ := h.index hi
    refine ⟨?_, ?_, ?_, lt_of_lt_of_le hpos htoken⟩
    · intro token r hr
      obtain ⟨sub, hsub, heq, hk⟩ := hsound token r (htok token ▸ hr)
      exact ⟨sub, hsubs ▸ hsub, heq, (hentry _ _).trans hk⟩
    · intro c k r hk
      obtain ⟨sub, hsub, hr⟩ := hcomplete c k r (hentry c k ▸ hk)
      exact ⟨sub, hsubs ▸ hsub, (htok _).trans hr⟩
    · intro token r hr
      have hlt := hbound token r (htok token ▸ hr)
      exact ⟨hlt.1, lt_of_lt_of_le hlt.2 htoken⟩

theorem strip {C : CmdId → Prop} (hfreed : FreedSubs s s' (OwnedBy s C))
    (hentry : ∀ c k, (C c → s'.subEntry c k = none) ∧ (¬C c → s'.subEntry c k = s.subEntry c k))
    (hcount : SameCounters s s')
    (hfresh : ∀ c, s'.nextCmd ≤ c → s'.commands c = none) : SubInv indexed s' := by
  have hback : ∀ {c k r}, s'.subEntry c k = some r → ¬C c ∧ s.subEntry c k = some r := by
    intro c k r hk
    by_cases hc : C c
    · simp [(hentry c k).1 hc] at hk
    · exact ⟨hc, (hentry c k).2 hc ▸ hk⟩
  -- What is in a table that stays is not among the released sub-commands.
  have hkeep : ∀ {c k r}, s'.subEntry c k = some r → ¬OwnedBy s C r := by
    rintro c k r hk ⟨c', k', hc', hk'⟩
    obtain ⟨hc, hk⟩ := hback hk
    exact hc ((h.sub_unique hk hk').1 ▸ hc')
  refine ⟨?_, hfresh, ?_, fun hi => ?_⟩
  · intro c k r hk
    obtain ⟨sub, hsub, hpz⟩ := h.sub c k r (hback hk).2
    exact ⟨sub, ((hfreed.subCommands r).2 (hkeep hk)).trans hsub, hpz⟩
  · intro r hr
    rw [hcount.nextSub] at hr
    by_cases hD : OwnedBy s C r
    · exact (hfreed.subCommands r).1 hD
    · exact ((hfreed.subCommands r).2 hD).trans (h.freshSub r hr)
  · obtain ⟨hsound, hcomplete, hbound, hpos⟩ := h.index hi
    have hshrunk : ∀ {token r}, s'.subTokenEntry token = some r →
        s.subTokenEntry token = some r := by
      intro token r hr
      rcases hfreed.shrunk token with hnone | heq
      · simp [hnone] at hr
      · exact heq ▸ hr
    refine ⟨?_, ?_, ?_, hcount.nNextCmdToken ▸ hpos⟩
    · intro token r hr
      obtain ⟨sub, hsub, htoken, hk⟩ := hsound token r (hshrunk hr)
      have hzero : sub.nToken ≠ 0 := by
        rw [htoken]
        exact ne_of_gt (hbound token r (hshrunk hr)).1
      have hD : ¬OwnedBy s C r := by
        intro hD
        rw [← htoken, hfreed.cleared r sub hD hsub hzero] at hr
        simp at hr
      have hC : ¬C sub.pParent := fun hC => hD ⟨_, _, hC, hk⟩
      exact ⟨sub, ((hfreed.subCommands r).2 hD).trans hsub, htoken, ((hentry _ _).2 hC).trans hk⟩
    · intro c k r hk
      obtain ⟨sub, hsub, hr⟩ := hcomplete c k r (hback hk).2
      refine ⟨sub, ((hfreed.subCommands r).2 (hkeep hk)).trans hsub, ?_⟩
      rw [hfreed.kept sub.nToken, hr]
      intro r' sub' hD hsub' htoken
      obtain ⟨c', k', hc', hk'⟩ := hD
      obtain ⟨sub'', hsub'', hr'⟩ := hcomplete c' k' r' hk'
      obtain rfl : sub' = sub'' := some.inj (hsub'.symm.trans hsub'')
      rw [htoken, hr, some.injEq] at hr'
      exact hkeep hk (hr' ▸ ⟨c', k', hc', hk'⟩)
    · intro token r hr
      exact hcount.nNextCmdToken ▸ hbound token r (hshrunk hr)

theorem released {C : CmdId → Prop} (hr : Released s s' C) : SubInv indexed s' := by
  refine h.strip hr.freed hr.subEntry hr.counters fun c hc => ?_
  rw [hr.counters.nextCmd] at hc
  by_cases hC : C c
  · exact (hr.commands c).1 hC
  · exact ((hr.commands c).2 hC).trans (h.freshCmd c hc)

theorem releaseCommand (hnone : indexed → ∀ k r, s.subEntry c k ≠ some r) :
    SubInv indexed (s.releaseCommand c) := by
  have hentry : ∀ x k, (x = c → (s.releaseCommand c).subEntry x k = none) ∧
      (¬x = c → (s.releaseCommand c).subEntry x k = s.subEntry x k) := by
    intro x k
    refine ⟨fun hx => ?_, fun hx => ?_⟩
    · simp [subEntry, CmdInterp.releaseCommand, hx]
    · simp [subEntry, CmdInterp.releaseCommand, hx]
  have hfresh : ∀ x, s.nextCmd ≤ x → (s.releaseCommand c).commands x = none := by
    intro x hx
    by_cases hxc : x = c
    · simp [CmdInterp.releaseCommand, hxc]
    · simp [CmdInterp.releaseCommand, hxc, h.freshCmd x hx]
  by_cases hi : indexed
  · refine h.strip (.of_empty rfl rfl ?_) hentry ⟨rfl, rfl, rfl, rfl⟩ hfresh
    rintro r ⟨x, k, rfl, hk⟩
    exact hnone hi k r hk
  · refine ⟨?_, hfresh, h.freshSub, fun hi' => absurd hi' hi⟩
    intro x k r hk
    by_cases hx : x = c
    · simp [(hentry x k).1 hx] at hk
    · exact h.sub x k r ((hentry x k).2 hx ▸ hk)

/-- A sub-command gets a fresh token: a new one, or an old one under its key. -/
theorem add {k : Bytes} {sub : SubCommand}
    (hr : s.subEntry c k = some r ∨ s.subEntry c k = none ∧ s.nextSub ≤ r)
    (hsub : sub.nToken = s.nNextCmdToken ∧ sub.pParent = c ∧ sub.zName = k)
    (hentry : ∀ x l, s'.subEntry x l =
      if x = c ∧ l = k then some r else s.subEntry x l)
    (hsubs : s'.subCommands = update s.subCommands r (some sub))
    (hindex : ∀ token, s'.subTokenEntry token =
      if token = s.nNextCmdToken then some r
      else if ∃ old, s.subCommands r = some old ∧ old.nToken ≠ 0 ∧ token = old.nToken
        then
      none
      else s.subTokenEntry token) (htoken : s'.nNextCmdToken = s.nNextCmdToken + 1)
    (hfresh : ∀ c, s'.nextCmd ≤ c → s'.commands c = none)
    (hnext : s.nextSub ≤ s'.nextSub ∧ r < s'.nextSub) : SubInv indexed s' := by
  -- An entry is the new one, or an old one for another sub-command.
  have hback : ∀ {x l r'}, s'.subEntry x l = some r' →
      (x = c ∧ l = k) ∧ r' = r ∨ ¬(x = c ∧ l = k) ∧ s.subEntry x l = some r' ∧ r' ≠ r := by
    intro x l r' hl
    rw [hentry] at hl
    split_ifs at hl with hxl
    · exact .inl ⟨hxl, (some.inj hl).symm⟩
    · refine .inr ⟨hxl, hl, ?_⟩
      rintro rfl
      rcases hr with hold | ⟨-, hnew⟩
      · exact hxl (h.sub_unique hl hold)
      · obtain ⟨sub', hsub', -⟩ := h.sub x l r' hl
        simp [h.freshSub r' hnew] at hsub'
  refine ⟨?_, hfresh, ?_, fun hi => ?_⟩
  · intro x l r' hl
    rcases hback hl with ⟨⟨rfl, rfl⟩, rfl⟩ | ⟨-, hl, hne⟩
    · exact ⟨sub, by rw [hsubs, update_self], hsub.2⟩
    · rw [hsubs, update_of_ne hne]
      exact h.sub x l r' hl
  · intro r' hr'
    have hne : r' ≠ r := ne_of_gt (lt_of_lt_of_le hnext.2 hr')
    rw [hsubs, update_of_ne hne]
    exact h.freshSub r' (le_trans hnext.1 hr')
  · obtain ⟨hsound, hcomplete, hbound, hpos⟩ := h.index hi
    -- The token of another sub-command stays where it is.
    have hkept : ∀ {token r'}, s.subTokenEntry token = some r' → r' ≠ r →
        s'.subTokenEntry token = some r' := by
      intro token r' hr' hne
      rw [hindex, if_neg (Nat.ne_of_lt (hbound token r' hr').2), if_neg, hr']
      rintro ⟨old, hold, -, heq⟩
      rcases hr with hin | ⟨-, hnew⟩
      · obtain ⟨old', hold', hold_entry⟩ := hcomplete c k r hin
        obtain rfl : old = old' := some.inj (hold.symm.trans hold')
        rw [← heq, hr', some.injEq] at hold_entry
        exact hne hold_entry
      · simp [h.freshSub r hnew] at hold
    have htok : ∀ {token r'}, s'.subTokenEntry token = some r' →
        token = s.nNextCmdToken ∧ r' = r ∨ s.subTokenEntry token = some r' ∧ r' ≠ r := by
      intro token r' hr'
      rw [hindex] at hr'
      split_ifs at hr' with hnew hgone
      · exact .inl ⟨hnew, (some.inj hr').symm⟩
      · refine .inr ⟨hr', ?_⟩
        rintro rfl
        obtain ⟨old, hold, heq, -⟩ := hsound token r' hr'
        refine hgone ⟨old, hold, ?_, heq.symm⟩
        rw [heq]
        exact ne_of_gt (hbound token r' hr').1
    refine ⟨?_, ?_, ?_, by omega⟩
    · intro token r' hr'
      rcases htok hr' with ⟨rfl, rfl⟩ | ⟨hr', hne⟩
      · refine ⟨sub, by rw [hsubs, update_self], hsub.1, ?_⟩
        rw [hentry, if_pos hsub.2]
      · obtain ⟨old, hold, heq, hl⟩ := hsound token r' hr'
        refine ⟨old, by rw [hsubs, update_of_ne hne, hold], heq, ?_⟩
        rw [hentry, if_neg, hl]
        rintro ⟨hx, hlk⟩
        rw [hx, hlk] at hl
        rcases hr with hin | ⟨hnone, -⟩
        · exact hne (some.inj (hl.symm.trans hin))
        · simp [hnone] at hl
    · intro x l r' hl
      rcases hback hl with ⟨⟨rfl, rfl⟩, rfl⟩ | ⟨-, hl, hne⟩
      · refine ⟨sub, by rw [hsubs, update_self], ?_⟩
        rw [hindex, hsub.1, if_pos rfl]
      · obtain ⟨old, hold, hr'⟩ := hcomplete x l r' hl
        exact ⟨old, by rw [hsubs, update_of_ne hne, hold], hkept hr' hne⟩
    · intro token r' hr'
      rcases htok hr' with ⟨rfl, -⟩ | ⟨hr', -⟩
      · exact ⟨hpos, by omega⟩
      · have := hbound token r' hr'
        exact ⟨this.1, by omega⟩

/-- A sub-command goes with its entry and its token. -/
theorem remove {sub : SubCommand} (hsub : s.subCommands r = some sub)
    (hentry : ∀ x l, s'.subEntry x l = if x = sub.pParent ∧ l = sub.zName then none else s.subEntry
      x l) (hsubs : s'.subCommands = update s.subCommands r none)
    (hindex : ∀ token, s'.subTokenEntry token = if sub.nToken ≠ 0 ∧ token = sub.nToken then none
      else s.subTokenEntry token) (howned : indexed → s.subEntry sub.pParent sub.zName = some r)
    (hcount : SameCounters s s') (hfresh : ∀ c, s'.nextCmd ≤ c → s'.commands c = none) :
    SubInv indexed s' := by
  have hback : ∀ {x l r'}, s'.subEntry x l = some r' →
      ¬(x = sub.pParent ∧ l = sub.zName) ∧ s.subEntry x l = some r' ∧ r' ≠ r := by
    intro x l r' hl
    rw [hentry] at hl
    split_ifs at hl with hxl
    · refine ⟨hxl, hl, ?_⟩
      rintro rfl
      obtain ⟨sub', hsub', hp, hz⟩ := h.sub x l r' hl
      obtain rfl : sub = sub' := some.inj (hsub.symm.trans hsub')
      exact hxl ⟨hp.symm, hz.symm⟩
  refine ⟨?_, hfresh, ?_, fun hi => ?_⟩
  · intro x l r' hl
    obtain ⟨-, hl, hne⟩ := hback hl
    rw [hsubs, update_of_ne hne]
    exact h.sub x l r' hl
  · intro r' hr'
    rw [hcount.nextSub] at hr'
    rw [hsubs]
    by_cases hne : r' = r
    · rw [hne, update_self]
    · rw [update_of_ne hne]
      exact h.freshSub r' hr'
  · obtain ⟨hsound, hcomplete, hbound, hpos⟩ := h.index hi
    have htok : ∀ {token r'}, s'.subTokenEntry token = some r' →
        s.subTokenEntry token = some r' ∧ r' ≠ r := by
      intro token r' hr'
      rw [hindex] at hr'
      split_ifs at hr' with hgone
      · refine ⟨hr', ?_⟩
        rintro rfl
        obtain ⟨sub', hsub', heq, -⟩ := hsound token r' hr'
        obtain rfl : sub = sub' := some.inj (hsub.symm.trans hsub')
        refine hgone ⟨?_, heq.symm⟩
        rw [heq]
        exact ne_of_gt (hbound token r' hr').1
    refine ⟨?_, ?_, ?_, hcount.nNextCmdToken ▸ hpos⟩
    · intro token r' hr'
      obtain ⟨hr', hne⟩ := htok hr'
      obtain ⟨old, hold, heq, hl⟩ := hsound token r' hr'
      refine ⟨old, by rw [hsubs, update_of_ne hne, hold], heq, ?_⟩
      rw [hentry, if_neg, hl]
      rintro ⟨hx, hlk⟩
      rw [hx, hlk] at hl
      exact hne (some.inj (hl.symm.trans (howned hi)))
    · intro x l r' hl
      obtain ⟨-, hl, hne⟩ := hback hl
      obtain ⟨old, hold, hr'⟩ := hcomplete x l r' hl
      refine ⟨old, by rw [hsubs, update_of_ne hne, hold], ?_⟩
      rw [hindex, if_neg, hr']
      rintro ⟨-, heq⟩
      obtain ⟨sub', hsub', hsub_entry⟩ := hcomplete _ _ r (howned hi)
      obtain rfl : sub = sub' := some.inj (hsub.symm.trans hsub')
      rw [← heq, hr', some.injEq] at hsub_entry
      exact hne hsub_entry
    · intro token r' hr'
      exact hcount.nNextCmdToken ▸ hbound token r' (htok hr').1

end

end SubInv

end CmdInterp

end Th8
