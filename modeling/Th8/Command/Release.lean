import Th8.Command.Operations

/-!
# The release of commands

What the release of commands does to the rest of the interpreter: their records go, the
sub-commands in their tables go with them, and the tokens of those are retired.  The
effects are those of every release that comes to an end.
-/

namespace Th8

open Support List Option

namespace CmdInterp

def subEntry (s : CmdInterp) (c : CmdId) (k : Bytes) : Option SubId :=
  (s.commands c).bind fun cmd => cmd.paSubCommands.bind fun T => T.lookup k

theorem subEntry_of_commands {s : CmdInterp} {c : CmdId} {cmd : CommandRecord}
    (hc : s.commands c = some cmd) (k : Bytes) :
    s.subEntry c k = cmd.paSubCommands.bind fun T => T.lookup k := by
  simp [subEntry, hc]

theorem subEntry_of_none {s : CmdInterp} {c : CmdId} (hc : s.commands c = none)
    (k : Bytes) : s.subEntry c k = none := by
  simp [subEntry, hc]

theorem subEntry_setCommand (s : CmdInterp) (c : CmdId) (cmd : CommandRecord) (x : CmdId)
    (k : Bytes) : (s.setCommand c cmd).subEntry x k =
      if x = c then cmd.paSubCommands.bind fun T => T.lookup k else s.subEntry x k := by
  by_cases hx : x = c
  · simp [subEntry, setCommand, hx]
  · simp [subEntry, setCommand, hx]

def OwnedBy (s : CmdInterp) (C : CmdId → Prop) (r : SubId) : Prop :=
  ∃ c k, C c ∧ s.subEntry c k = some r

structure SameCounters (s s' : CmdInterp) : Prop where
  nextCmd : s'.nextCmd = s.nextCmd
  nextSub : s'.nextSub = s.nextSub
  nNextCmdToken : s'.nNextCmdToken = s.nNextCmdToken
  pendingCmd : s'.pendingCmd = s.pendingCmd

theorem SameCounters.trans {s₁ s₂ s₃ : CmdInterp} (h₁₂ : SameCounters s₁ s₂)
    (h₂₃ : SameCounters s₂ s₃) : SameCounters s₁ s₃ :=
  ⟨h₂₃.nextCmd.trans h₁₂.nextCmd, h₂₃.nextSub.trans h₁₂.nextSub,
    h₂₃.nNextCmdToken.trans h₁₂.nNextCmdToken, h₂₃.pendingCmd.trans h₁₂.pendingCmd⟩

structure SameTables (s s' : CmdInterp) : Prop where
  toNsTree : s'.toNsTree = s.toNsTree
  paCmd : s'.paCmd = s.paCmd
  zExport : s'.zExport = s.zExport

theorem SameTables.trans {s₁ s₂ s₃ : CmdInterp} (h₁₂ : SameTables s₁ s₂)
    (h₂₃ : SameTables s₂ s₃) : SameTables s₁ s₃ :=
  ⟨h₂₃.toNsTree.trans h₁₂.toNsTree, h₂₃.paCmd.trans h₁₂.paCmd, h₂₃.zExport.trans h₁₂.zExport⟩

theorem index_update_none {β : Type} (index : Option (ℕ → Option β)) (n token : ℕ) :
    ((index.map fun f => Function.update f n none).bind fun f => f token) =
      if token = n then none else index.bind fun f => f token := by
  rcases index with _ | f
  · simp
  · by_cases htoken : token = n
    · simp [htoken]
    · simp [htoken]

theorem removeCmdTokenEntry_eq (s : CmdInterp) (cmd : CommandRecord) :
    ∃ index, s.removeCmdTokenEntry cmd = { s with paCmdToken := index } ∧
      ∀ token, index.bind (fun f => f token) =
        if cmd.nToken ≠ 0 ∧ token = cmd.nToken then none else s.cmdTokenEntry token := by
  unfold removeCmdTokenEntry cmdTokenEntry
  by_cases hzero : cmd.nToken = 0
  · exact ⟨s.paCmdToken, by simp [hzero], by simp [hzero]⟩
  · refine ⟨_, if_neg hzero, fun token => ?_⟩
    rw [index_update_none]
    exact if_congr (by simp [hzero]) rfl rfl

theorem removeSubTokenEntry_eq (s : CmdInterp) (sub : SubCommand) :
    ∃ index, s.removeSubTokenEntry sub = { s with paSubToken := index } ∧
      ∀ token, index.bind (fun f => f token) =
        if sub.nToken ≠ 0 ∧ token = sub.nToken then none else s.subTokenEntry token := by
  unfold removeSubTokenEntry subTokenEntry
  by_cases hzero : sub.nToken = 0
  · exact ⟨s.paSubToken, by simp [hzero], by simp [hzero]⟩
  · refine ⟨_, if_neg hzero, fun token => ?_⟩
    rw [index_update_none]
    exact if_congr (by simp [hzero]) rfl rfl

/-! ## Sub-commands -/

/-- What the release of the sub-commands in `D` does: their records go and with them
their tokens. -/
structure FreedSubs (s s' : CmdInterp) (D : SubId → Prop) : Prop where
  subCommands : ∀ r, (D r → s'.subCommands r = none) ∧ (¬D r → s'.subCommands r = s.subCommands r)
  cleared : ∀ r sub, D r → s.subCommands r = some sub → sub.nToken ≠ 0 →
    s'.subTokenEntry sub.nToken = none
  kept : ∀ token, (∀ r sub, D r → s.subCommands r = some sub → sub.nToken ≠ token) →
    s'.subTokenEntry token = s.subTokenEntry token
  shrunk : ∀ token, s'.subTokenEntry token = none ∨ s'.subTokenEntry token = s.subTokenEntry token

namespace FreedSubs

variable {s s' s₁ s₂ s₃ : CmdInterp} {D D₁ D₂ : SubId → Prop}

theorem of_empty (hsubs : s'.subCommands = s.subCommands)
    (hindex : s'.paSubToken = s.paSubToken) (hD : ∀ r, ¬D r) : FreedSubs s s' D where
  subCommands r := ⟨fun hr => absurd hr (hD r), fun _ => by rw [hsubs]⟩
  cleared r _ hr := absurd hr (hD r)
  kept token _ := by simp only [subTokenEntry, hindex]
  shrunk token := .inr (by simp only [subTokenEntry, hindex])

theorem back (h : FreedSubs s s' D) {r : SubId} {sub : SubCommand}
    (hr : s'.subCommands r = some sub) : ¬D r ∧ s.subCommands r = some sub := by
  by_cases hD : D r
  · simp [(h.subCommands r).1 hD] at hr
  · exact ⟨hD, (h.subCommands r).2 hD ▸ hr⟩

theorem trans (h₁₂ : FreedSubs s₁ s₂ D₁) (h₂₃ : FreedSubs s₂ s₃ D₂) :
    FreedSubs s₁ s₃ fun r => D₁ r ∨ D₂ r := by
  refine ⟨fun r => ⟨?_, ?_⟩, ?_, ?_, ?_⟩
  · intro hr
    by_cases hD₂ : D₂ r
    · exact (h₂₃.subCommands r).1 hD₂
    · rw [(h₂₃.subCommands r).2 hD₂]
      exact (h₁₂.subCommands r).1 (hr.resolve_right hD₂)
  · intro hr
    rw [not_or] at hr
    rw [(h₂₃.subCommands r).2 hr.2, (h₁₂.subCommands r).2 hr.1]
  · intro r sub hr hsub hzero
    by_cases hD₁ : D₁ r
    · rcases h₂₃.shrunk sub.nToken with hnone | heq
      · exact hnone
      · rw [heq]
        exact h₁₂.cleared r sub hD₁ hsub hzero
    · exact h₂₃.cleared r sub (hr.resolve_left hD₁) ((h₁₂.subCommands r).2 hD₁ ▸ hsub) hzero
  · intro token hno
    rw [h₂₃.kept token fun r sub hr hsub => hno r sub (.inr hr) (h₁₂.back hsub).2]
    exact h₁₂.kept token fun r sub hr hsub => hno r sub (.inl hr) hsub
  · intro token
    rcases h₂₃.shrunk token with hnone | heq
    · exact .inl hnone
    · rw [heq]
      exact h₁₂.shrunk token

theorem congr (h : FreedSubs s s' D₁) (hD : ∀ r, D₁ r ↔ D₂ r) : FreedSubs s s' D₂ := by
  obtain rfl : D₁ = D₂ := funext fun r => propext (hD r)
  exact h

end FreedSubs

section Specs

variable {s s' : CmdInterp} {c : CmdId}

theorem freeSubCmdEntry_spec {r : SubId} (h : s.freeSubCmdEntry r = some s') :
    SameCounters s s' ∧ SameTables s s' ∧ s'.commands = s.commands ∧
      s'.paCmdToken = s.paCmdToken ∧ FreedSubs s s' (· = r) := by
  unfold freeSubCmdEntry at h
  rcases hsub : s.subCommands r with _ | sub
  · simp [hsub] at h
  · obtain ⟨index, heq, hindex⟩ := removeSubTokenEntry_eq s sub
    simp only [hsub, heq, some.injEq] at h
    subst h
    refine ⟨⟨rfl, rfl, rfl, rfl⟩, ⟨rfl, rfl, rfl⟩, rfl, rfl, ⟨fun x => ⟨?_, ?_⟩, ?_, ?_, ?_⟩⟩
    · rintro rfl
      exact Function.update_self ..
    · intro hx
      exact Function.update_of_ne hx ..
    · rintro x sub' rfl hsub' hzero
      obtain rfl : sub = sub' := some.inj (hsub.symm.trans hsub')
      exact (hindex _).trans (if_pos ⟨hzero, rfl⟩)
    · intro token hno
      refine (hindex token).trans (if_neg fun htoken => ?_)
      exact hno r sub rfl hsub htoken.2.symm
    · intro token
      by_cases htoken : sub.nToken ≠ 0 ∧ token = sub.nToken
      · exact .inl ((hindex token).trans (if_pos htoken))
      · exact .inr ((hindex token).trans (if_neg htoken))

theorem foldlM_freeSubCmdEntry_spec {rs : List SubId} (h : rs.foldlM freeSubCmdEntry s = some s') :
    SameCounters s s' ∧ SameTables s s' ∧ s'.commands = s.commands ∧
      s'.paCmdToken = s.paCmdToken ∧ FreedSubs s s' (· ∈ rs) := by
  induction rs generalizing s with
  | nil =>
    obtain rfl : s = s' := by simpa using h
    exact ⟨⟨rfl, rfl, rfl, rfl⟩, ⟨rfl, rfl, rfl⟩, rfl, rfl, .of_empty rfl rfl (by simp)⟩
  | cons r rs ih =>
    rw [foldlM_cons] at h
    obtain ⟨s₁, h₁, h₂⟩ := bind_eq_some_iff.mp h
    obtain ⟨hcount₁, htables₁, hcommands₁, hindex₁, hfreed₁⟩ := freeSubCmdEntry_spec h₁
    obtain ⟨hcount₂, htables₂, hcommands₂, hindex₂, hfreed₂⟩ := ih h₂
    exact ⟨hcount₁.trans hcount₂, htables₁.trans htables₂, hcommands₂.trans hcommands₁,
      hindex₂.trans hindex₁, (hfreed₁.trans hfreed₂).congr fun x => mem_cons.symm⟩

theorem freeSubCommands_spec (h : s.freeSubCommands c = some s') :
    ∃ cmd, s.commands c = some cmd ∧ SameCounters s s' ∧ SameTables s s' ∧
      s'.commands = Function.update s.commands c (some { cmd with paSubCommands := none }) ∧
      s'.paCmdToken = s.paCmdToken ∧ FreedSubs s s' (OwnedBy s (· = c)) := by
  unfold freeSubCommands at h
  rcases hc : s.commands c with _ | cmd
  · simp [hc] at h
  · have hentry := subEntry_of_commands hc
    rcases hT : cmd.paSubCommands with _ | T
    · obtain rfl : s = s' := by simpa [hc, hT] using h
      refine ⟨cmd, rfl, ⟨rfl, rfl, rfl, rfl⟩, ⟨rfl, rfl, rfl⟩, ?_, rfl, .of_empty rfl rfl ?_⟩
      · rw [← hT]
        exact (Function.update_eq_self_iff.mpr hc.symm).symm
      · rintro r ⟨x, k, rfl, hk⟩
        simp [hentry, hT] at hk
    · simp only [hc, hT, map_eq_some_iff] at h
      obtain ⟨s₁, h₁, rfl⟩ := h
      obtain ⟨hcount, htables, hcommands, hindex, hfreed⟩ := foldlM_freeSubCmdEntry_spec h₁
      refine ⟨cmd, rfl, ⟨hcount.nextCmd, hcount.nextSub, hcount.nNextCmdToken,
        hcount.pendingCmd⟩, ⟨htables.toNsTree, htables.paCmd, htables.zExport⟩,
        by rw [setCommand, hcommands], hindex, ?_⟩
      have howned : ∀ r, r ∈ T.entries.map Sigma.snd ↔ OwnedBy s (· = c) r := by
        intro r
        rw [mem_values_iff]
        constructor
        · rintro ⟨k, hk⟩
          exact ⟨c, k, rfl, by simp [hentry, hT, hk]⟩
        · rintro ⟨x, k, rfl, hk⟩
          exact ⟨k, by simpa [hentry, hT] using hk⟩
      have := hfreed.congr howned
      exact ⟨this.subCommands, this.cleared, this.kept, this.shrunk⟩

/-! ## Commands -/

/-- What the release of the commands in `C` does. -/
structure Released (s s' : CmdInterp) (C : CmdId → Prop) : Prop where
  counters : SameCounters s s'
  live : ∀ c, C c → ∃ cmd, s.commands c = some cmd
  commands : ∀ c, (C c → s'.commands c = none) ∧ (¬C c → s'.commands c = s.commands c)
  freed : FreedSubs s s' (OwnedBy s C)
  cmdTokens : ∀ token, (∀ c cmd, C c → s.commands c = some cmd → cmd.nToken ≠ token) →
    s'.cmdTokenEntry token = s.cmdTokenEntry token

theorem Released.refl (s : CmdInterp) : Released s s fun _ => False :=
  ⟨⟨rfl, rfl, rfl, rfl⟩, fun _ hc => hc.elim, fun _ => ⟨fun hc => hc.elim, fun _ => rfl⟩,
    .of_empty rfl rfl fun _ hr => hr.choose_spec.choose_spec.1, fun _ _ => rfl⟩

theorem Released.subEntry {C : CmdId → Prop} (h : Released s s' C) (c : CmdId)
    (k : Bytes) : (C c → s'.subEntry c k = none) ∧ (¬C c → s'.subEntry c k = s.subEntry c k) := by
  refine ⟨fun hc => subEntry_of_none ((h.commands c).1 hc) k, fun hc => ?_⟩
  rw [CmdInterp.subEntry, CmdInterp.subEntry, (h.commands c).2 hc]

theorem Released.congr {C₁ C₂ : CmdId → Prop} (h : Released s s' C₁)
    (hC : ∀ c, C₁ c ↔ C₂ c) : Released s s' C₂ := by
  obtain rfl : C₁ = C₂ := funext fun c => propext (hC c)
  exact h

theorem Released.of_fields {C : CmdId → Prop} {s'' : CmdInterp} (h : Released s s' C)
    (hcount : SameCounters s' s'') (hcommands : s''.commands = s'.commands)
    (hsubs : s''.subCommands = s'.subCommands)
    (hindex : s''.paSubToken = s'.paSubToken) (hcmds : s''.paCmdToken = s'.paCmdToken) :
    Released s s'' C := by
  refine ⟨h.counters.trans hcount, h.live, by rw [hcommands]; exact h.commands, ?_, ?_⟩
  · have hempty : FreedSubs s' s'' fun _ => False := .of_empty hsubs hindex fun _ => id
    exact (h.freed.trans hempty).congr fun r => or_iff_left id
  · intro token hno
    rw [cmdTokenEntry, hcmds]
    exact h.cmdTokens token hno

theorem Released.trans {s₁ s₂ s₃ : CmdInterp} {C₁ C₂ : CmdId → Prop}
    (h₁₂ : Released s₁ s₂ C₁) (h₂₃ : Released s₂ s₃ C₂) :
    Released s₁ s₃ fun c => C₁ c ∨ C₂ c := by
  have hback : ∀ c, C₂ c → ¬C₁ c ∧ s₂.commands c = s₁.commands c := by
    intro c hc
    by_cases hC₁ : C₁ c
    · obtain ⟨cmd, hcmd⟩ := h₂₃.live c hc
      simp [(h₁₂.commands c).1 hC₁] at hcmd
    · exact ⟨hC₁, (h₁₂.commands c).2 hC₁⟩
  refine ⟨h₁₂.counters.trans h₂₃.counters, ?_, fun c => ⟨?_, ?_⟩, ?_, ?_⟩
  · rintro c (hc | hc)
    · exact h₁₂.live c hc
    · exact (hback c hc).2 ▸ h₂₃.live c hc
  · rintro (hc | hc)
    · by_cases hC₂ : C₂ c
      · exact (h₂₃.commands c).1 hC₂
      · rw [(h₂₃.commands c).2 hC₂]
        exact (h₁₂.commands c).1 hc
    · exact (h₂₃.commands c).1 hc
  · intro hc
    rw [not_or] at hc
    rw [(h₂₃.commands c).2 hc.2, (h₁₂.commands c).2 hc.1]
  · refine (h₁₂.freed.trans h₂₃.freed).congr fun r => ?_
    constructor
    · rintro (⟨c, k, hc, hk⟩ | ⟨c, k, hc, hk⟩)
      · exact ⟨c, k, .inl hc, hk⟩
      · exact ⟨c, k, .inr hc, (h₁₂.subEntry c k).2 (hback c hc).1 ▸ hk⟩
    · rintro ⟨c, k, hc | hc, hk⟩
      · exact .inl ⟨c, k, hc, hk⟩
      · exact .inr ⟨c, k, hc, ((h₁₂.subEntry c k).2 (hback c hc).1).trans hk⟩
  · intro token hno
    rw [h₂₃.cmdTokens token fun c cmd hc hcmd =>
      hno c cmd (.inr hc) ((hback c hc).2 ▸ hcmd)]
    exact h₁₂.cmdTokens token fun c cmd hc hcmd => hno c cmd (.inl hc) hcmd

theorem drainCommand_spec (h : s.drainCommand c = some s') :
    Released s s' (· = c) ∧ SameTables s s' := by
  obtain ⟨s₁, h₁, rfl⟩ := map_eq_some_iff.mp h
  obtain ⟨cmd, hc, hcount, htables, hcommands, hindex, hfreed⟩ := freeSubCommands_spec h₁
  refine ⟨⟨⟨hcount.nextCmd, hcount.nextSub, hcount.nNextCmdToken, hcount.pendingCmd⟩, ?_,
    fun x => ⟨?_, ?_⟩, ⟨hfreed.subCommands, hfreed.cleared, hfreed.kept, hfreed.shrunk⟩, ?_⟩,
    ⟨htables.toNsTree, htables.paCmd, htables.zExport⟩⟩
  · rintro x rfl
    exact ⟨cmd, hc⟩
  · rintro rfl
    exact Function.update_self ..
  · intro hx
    simp [releaseCommand, hcommands, Function.update_of_ne hx]
  · intro token _
    simp only [cmdTokenEntry, releaseCommand, hindex]

theorem freeCommand_spec (h : s.freeCommand c = some s') :
    Released s s' (· = c) ∧ SameTables s s' := by
  unfold freeCommand at h
  rcases hc : s.commands c with _ | cmd
  · simp [hc] at h
  · obtain ⟨index, heq, hindex⟩ := removeCmdTokenEntry_eq s cmd
    simp only [hc, heq] at h
    obtain ⟨hreleased, htables⟩ := drainCommand_spec h
    have hcount := hreleased.counters
    have hfreed := hreleased.freed
    refine ⟨⟨⟨hcount.nextCmd, hcount.nextSub, hcount.nNextCmdToken, hcount.pendingCmd⟩,
      hreleased.live, hreleased.commands,
      ⟨hfreed.subCommands, hfreed.cleared, hfreed.kept, hfreed.shrunk⟩, ?_⟩,
      ⟨htables.toNsTree, htables.paCmd, htables.zExport⟩⟩
    intro token hno
    rw [hreleased.cmdTokens token hno]
    refine (hindex token).trans (if_neg fun htoken => ?_)
    exact hno c cmd rfl hc htoken.2.symm

theorem freeCmdEntry_spec {e : Option CmdId} (h : s.freeCmdEntry e = some s') :
    Released s s' (fun c => e = some c) ∧ SameTables s s' := by
  cases e with
  | none =>
    obtain rfl : s = s' := by simpa [freeCmdEntry] using h
    exact ⟨(Released.refl s).congr (by simp), ⟨rfl, rfl, rfl⟩⟩
  | some c =>
    obtain ⟨hreleased, htables⟩ := freeCommand_spec h
    exact ⟨hreleased.congr fun x => by simp [eq_comm], htables⟩

theorem foldlM_freeCmdEntry_spec {es : List (Option CmdId)}
    (h : es.foldlM freeCmdEntry s = some s') :
    Released s s' (fun c => some c ∈ es) ∧ SameTables s s' := by
  induction es generalizing s with
  | nil =>
    obtain rfl : s = s' := by simpa using h
    exact ⟨(Released.refl s).congr (by simp), ⟨rfl, rfl, rfl⟩⟩
  | cons e es ih =>
    rw [foldlM_cons] at h
    obtain ⟨s₁, h₁, h₂⟩ := bind_eq_some_iff.mp h
    obtain ⟨hreleased₁, htables₁⟩ := freeCmdEntry_spec h₁
    obtain ⟨hreleased₂, htables₂⟩ := ih h₂
    refine ⟨(hreleased₁.trans hreleased₂).congr fun c => ?_, htables₁.trans htables₂⟩
    rw [mem_cons]
    exact or_congr_left eq_comm

theorem foldlM_drainCommand_spec {cs : List CmdId} (h : cs.foldlM drainCommand s = some s') :
    Released s s' (· ∈ cs) ∧ SameTables s s' := by
  induction cs generalizing s with
  | nil =>
    obtain rfl : s = s' := by simpa using h
    exact ⟨(Released.refl s).congr (by simp), ⟨rfl, rfl, rfl⟩⟩
  | cons c cs ih =>
    rw [foldlM_cons] at h
    obtain ⟨s₁, h₁, h₂⟩ := bind_eq_some_iff.mp h
    obtain ⟨hreleased₁, htables₁⟩ := drainCommand_spec h₁
    obtain ⟨hreleased₂, htables₂⟩ := ih h₂
    exact ⟨(hreleased₁.trans hreleased₂).congr fun x => mem_cons.symm, htables₁.trans htables₂⟩

def InTableOf (s : CmdInterp) (l : List NsId) (c : CmdId) : Prop :=
  ∃ pNs k, pNs ∈ l ∧ (s.paCmd pNs).lookup k = some (some c)

/-- The release of the commands in the tables of `l`, which are emptied. -/
structure ReleasedTables (s s' : CmdInterp) (l : List NsId) : Prop where
  released : Released s s' (s.InTableOf l)
  toNsTree : s'.toNsTree = s.toNsTree
  zExport : s'.zExport = s.zExport
  paCmd : ∀ x, s'.paCmd x = if x ∈ l then ∅ else s.paCmd x

theorem freeCommandsOf_spec {pNs : NsId} (h : s.freeCommandsOf pNs = some s') :
    ReleasedTables s s' [pNs] := by
  obtain ⟨s₁, h₁, rfl⟩ := map_eq_some_iff.mp h
  obtain ⟨hreleased, htables⟩ := foldlM_freeCmdEntry_spec h₁
  refine ⟨(hreleased.congr fun c => ?_).of_fields ⟨rfl, rfl, rfl, rfl⟩ rfl rfl rfl rfl,
    htables.toNsTree, htables.zExport, fun x => ?_⟩
  · constructor
    · intro hc
      obtain ⟨⟨k, e⟩, hmem, heq⟩ := mem_map.mp hc
      obtain rfl : e = some c := heq
      exact ⟨pNs, k, mem_singleton_self pNs, AList.mem_lookup_iff.mpr hmem⟩
    · rintro ⟨x, k, hx, hk⟩
      obtain rfl : x = pNs := mem_singleton.mp hx
      exact mem_map.mpr ⟨⟨k, some c⟩, AList.mem_lookup_iff.mp hk, rfl⟩
  · by_cases hx : x = pNs
    · simp [hx]
    · simp [hx, htables.paCmd]

theorem foldlM_freeCommandsOf_spec {l : List NsId}
    (h : l.foldlM freeCommandsOf s = some s') : ReleasedTables s s' l := by
  induction l generalizing s with
  | nil =>
    obtain rfl : s = s' := by simpa using h
    refine ⟨(Released.refl s).congr fun c => ?_, rfl, rfl, by simp⟩
    simp [InTableOf]
  | cons pNs l ih =>
    rw [foldlM_cons] at h
    obtain ⟨s₁, h₁, h₂⟩ := bind_eq_some_iff.mp h
    have hfirst := freeCommandsOf_spec h₁
    have hrest := ih h₂
    refine ⟨(hfirst.released.trans hrest.released).congr fun c => ?_,
      hrest.toNsTree.trans hfirst.toNsTree, hrest.zExport.trans hfirst.zExport, fun x => ?_⟩
    · constructor
      · rintro (⟨x, k, hx, hk⟩ | ⟨x, k, hx, hk⟩)
        · obtain rfl : x = pNs := mem_singleton.mp hx
          exact ⟨x, k, mem_cons_self, hk⟩
        · rw [hfirst.paCmd] at hk
          split_ifs at hk with hmem
          · simp at hk
          · exact ⟨x, k, mem_cons_of_mem pNs hx, hk⟩
      · rintro ⟨x, k, hx, hk⟩
        by_cases hxp : x = pNs
        · exact .inl ⟨x, k, mem_singleton.mpr hxp, hk⟩
        · refine .inr ⟨x, k, (mem_cons.mp hx).resolve_left hxp, ?_⟩
          rw [hfirst.paCmd, if_neg (by simpa using hxp), hk]
    · rw [hrest.paCmd, hfirst.paCmd]
      by_cases hx : x ∈ l
      · simp [hx]
      · simp [hx]

theorem mem_releasedNs {t : NsTree} {x : NsId} :
    x ∈ s.releasedNs t ↔ x < s.nextNs ∧ (∃ ns, s.namespaces x = some ns) ∧
      t.namespaces x = none := by
  simp [releasedNs, isSome_iff_exists]

/-- The namespaces become those of `t`. -/
structure Moved (s s' : CmdInterp) (t : NsTree) : Prop where
  toNsTree : s'.toNsTree = t
  released : Released s s' (s.InTableOf (s.releasedNs t))
  paCmd : ∀ x, s'.paCmd x =
    if x < s.nextNs ∧ x ∉ s.releasedNs t then s.paCmd x else ∅

theorem moveTo_spec {t : NsTree} (h : s.moveTo t = some s') : Moved s s' t := by
  obtain ⟨s₁, h₁, rfl⟩ := map_eq_some_iff.mp h
  have hspec := foldlM_freeCommandsOf_spec h₁
  refine ⟨rfl, hspec.released.of_fields ⟨rfl, rfl, rfl, rfl⟩ rfl rfl rfl rfl, fun x => ?_⟩
  have hnext : s₁.nextNs = s.nextNs := congrArg NsTree.nextNs hspec.toNsTree
  simp only [withTree, hnext, hspec.paCmd]
  by_cases hx : x < s.nextNs
  · by_cases hmem : x ∈ s.releasedNs t
    · simp [hmem]
    · simp [hx, hmem]
  · simp [hx]

end Specs

end CmdInterp

end Th8
