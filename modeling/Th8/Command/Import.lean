import Th8.Command.Liveness

/-!
# Imports

An import copies the exported commands of a namespace into the current one while it
iterates over the table of the source.  If its requests for memory are granted and it
does not overwrite the commands it reads, every table is left with live commands, no
released record is read, and what it reports as done is done.
-/

namespace Th8

open Support List

theorem NsTree.Inv.walk_spec {t : NsTree} (h : t.Inv) {pNs : NsId} {ns : Namespace}
    (hns : t.namespaces pNs = some ns) (comps : List Bytes) :
    t.walk pNs comps = some none ∨
      ∃ N nsN, t.walk pNs comps = some (some N) ∧ t.namespaces N = some nsN := by
  induction comps generalizing pNs ns with
  | nil => exact .inr ⟨pNs, ns, rfl, hns⟩
  | cons zComp rest ih =>
    rcases hk : ns.paChild.lookup zComp with _ | c
    · exact .inl (by simp only [NsTree.walk, hns, hk])
    · obtain ⟨-, -, child, hc, -⟩ := h.child pNs ns zComp c hns hk
      simp only [NsTree.walk, hns, hk]
      exact ih hc

namespace CmdInterp

variable {s s' : CmdInterp}

theorem exists_foldlM_freeSubCmdEntry {rs : List SubId} (hnodup : rs.Nodup)
    (hlive : ∀ r ∈ rs, ∃ sub, s.subCommands r = some sub) :
    ∃ s', rs.foldlM freeSubCmdEntry s = some s' := by
  induction rs generalizing s with
  | nil => exact ⟨s, rfl⟩
  | cons r rs ih =>
    obtain ⟨hr, hrs⟩ := nodup_cons.mp hnodup
    obtain ⟨sub, hsub⟩ := hlive r mem_cons_self
    obtain ⟨s₁, h₁⟩ : ∃ s₁, s.freeSubCmdEntry r = some s₁ := by
      simp [freeSubCmdEntry, hsub]
    obtain ⟨-, -, -, -, hfreed⟩ := freeSubCmdEntry_spec h₁
    obtain ⟨s', hs'⟩ := ih hrs fun x hx => by
      rw [(hfreed.subCommands x).2 fun hxr => hr (hxr ▸ hx)]
      exact hlive x (mem_cons_of_mem r hx)
    exact ⟨s', by rw [foldlM_cons, h₁]; exact hs'⟩

theorem SubInv.exists_freeSubCommands {indexed : Prop} (h : SubInv indexed s) {c : CmdId}
    {cmd : CommandRecord} (hc : s.commands c = some cmd) :
    ∃ s', s.freeSubCommands c = some s' := by
  rcases hT : cmd.paSubCommands with _ | T
  · exact ⟨s, by simp [CmdInterp.freeSubCommands, hc, hT]⟩
  · have hentry : ∀ {k r}, T.lookup k = some r → s.subEntry c k = some r := by
      intro k r hk
      simp [subEntry_of_commands hc, hT, hk]
    have hnodup : (T.entries.map Sigma.snd).Nodup := by
      apply List.Nodup.map_on
      · rintro ⟨k, r⟩ hk ⟨k', r'⟩ hk' hrr
        obtain rfl : r = r' := hrr
        obtain rfl := (h.sub_unique (hentry (AList.mem_lookup_iff.mpr hk))
          (hentry (AList.mem_lookup_iff.mpr hk'))).2
        rfl
      · exact T.nodupKeys.nodup
    obtain ⟨s₁, h₁⟩ := exists_foldlM_freeSubCmdEntry hnodup fun r hr => by
      obtain ⟨k, hk⟩ := mem_values_iff.mp hr
      obtain ⟨sub, hsub, -⟩ := h.sub c k r (hentry hk)
      exact ⟨sub, hsub⟩
    exact ⟨s₁.setCommand c { cmd with paSubCommands := none },
      by simp [CmdInterp.freeSubCommands, hc, hT, h₁]⟩

theorem SubInv.exists_freeCommand {indexed : Prop} (h : SubInv indexed s) {c : CmdId}
    (hc : s.Live c) : ∃ s', s.freeCommand c = some s' := by
  obtain ⟨cmd, hcmd⟩ := hc
  have h₁ := h.removeCmdTokenEntry cmd
  obtain ⟨index, heq, -⟩ := removeCmdTokenEntry_eq s cmd
  rw [heq] at h₁
  obtain ⟨s₁, hs₁⟩ := h₁.exists_freeSubCommands hcmd
  exact ⟨s₁.releaseCommand c, by simp [freeCommand, hcmd, heq, drainCommand, hs₁]⟩

/-! ## One name -/

/-- The name `zName` of the current namespace leads to a live copy of `src`, or, where
nothing is to be overwritten, to the command it led to before. -/
def Imported (s s' : CmdInterp) (bForce : Bool) (zName : Bytes) (src : CommandRecord) : Prop :=
  ∃ c cmd, (s'.paCmd s.pCurrentNs).lookup zName = some (some c) ∧ s'.commands c = some cmd ∧
    (cmd.xProc = src.xProc ∧ cmd.pDefNs = src.pDefNs ∧
        (if src.xCopy = 0 then cmd.pContext = src.pContext else cmd.pContext ≠ 0) ∨
      bForce = false ∧ (s.paCmd s.pCurrentNs).lookup zName = some (some c))

/-- What the import of some names leaves alone: all but their entries in the current
namespace, and the commands that other entries refer to. -/
structure Kept (s s' : CmdInterp) (names : Bytes → Prop) : Prop where
  toNsTree : s'.toNsTree = s.toNsTree
  zExport : s'.zExport = s.zExport
  pendingCmd : s'.pendingCmd = s.pendingCmd
  entry : ∀ x l, ¬(x = s.pCurrentNs ∧ names l) → (s'.paCmd x).lookup l = (s.paCmd x).lookup l
  command : ∀ x ns l c, s.namespaces x = some ns →
    (s.paCmd x).lookup l = some (some c) → ¬(x = s.pCurrentNs ∧ names l) →
    s'.commands c = s.commands c

theorem Kept.refl (s : CmdInterp) (names : Bytes → Prop) : Kept s s names :=
  ⟨rfl, rfl, rfl, fun _ _ _ => rfl, fun _ _ _ _ _ _ _ => rfl⟩

theorem Kept.trans {s₁ s₂ s₃ : CmdInterp} {names₁ names₂ : Bytes → Prop}
    (h₁₂ : Kept s₁ s₂ names₁) (h₂₃ : Kept s₂ s₃ names₂) :
    Kept s₁ s₃ fun l => names₁ l ∨ names₂ l := by
  have hcurrent : s₂.pCurrentNs = s₁.pCurrentNs := by rw [h₁₂.toNsTree]
  refine ⟨h₂₃.toNsTree.trans h₁₂.toNsTree, h₂₃.zExport.trans h₁₂.zExport,
    h₂₃.pendingCmd.trans h₁₂.pendingCmd, ?_, ?_⟩
  · intro x l hne
    rw [h₂₃.entry x l fun hx => hne ⟨hcurrent ▸ hx.1, .inr hx.2⟩]
    exact h₁₂.entry x l fun hx => hne ⟨hx.1, .inl hx.2⟩
  · intro x ns l c hx hl hne
    have hne₁ : ¬(x = s₁.pCurrentNs ∧ names₁ l) := fun hx => hne ⟨hx.1, .inl hx.2⟩
    have hns : s₂.namespaces x = some ns := by rw [h₁₂.toNsTree]; exact hx
    rw [h₂₃.command x ns l c hns ((h₁₂.entry x l hne₁).trans hl)
      fun hx => hne ⟨hcurrent ▸ hx.1, .inr hx.2⟩]
    exact h₁₂.command x ns l c hx hl hne₁

/-- The target entry is written with a copy, after what it held has been released. -/
theorem replaceImported_spec {held : List CmdId} (h : CmdInv s held) (hsub : SubInv False s)
    {ns : Namespace} (hns : s.namespaces s.pCurrentNs = some ns) {mem : ImportMemory}
    (hmem : mem.pNew = true) {zName : Bytes} {pSrc : CmdId} {src : CommandRecord}
    (hsrc : s.commands pSrc = some src) {pOld : Option CmdId}
    (hold : ∀ c, pOld = some c → (s.paCmd s.pCurrentNs).lookup zName = some (some c) ∧ c ≠ pSrc)
    {f : NsId → CmdTable} (hf : ∀ x l, ¬(x = s.pCurrentNs ∧ l = zName) →
      (f x).lookup l = (s.paCmd x).lookup l) :
    ∃ s', ({ s with paCmd := f } : CmdInterp).replaceImported mem zName pSrc pOld =
        some (s', true) ∧
      CmdInv s' held ∧ SubInv False s' ∧ Kept s s' (· = zName) ∧
      (s'.paCmd s.pCurrentNs).lookup zName = some (some s.nextCmd) ∧
      s'.commands s.nextCmd = some (importedCommand mem src) := by
  let s₀ : CmdInterp := { s with paCmd := f }
  have hsub₀ : SubInv False s₀ := hsub.of_fields rfl rfl rfl rfl rfl rfl
  obtain ⟨s₁, hfree⟩ : ∃ s₁, s₀.freeCmdEntry pOld = some s₁ := by
    cases pOld with
    | none => exact ⟨s₀, rfl⟩
    | some c =>
      obtain ⟨d, hd, -, hlive⟩ := h.entry _ ns zName _ hns (hold c rfl).1
      cases hd
      exact hsub₀.exists_freeCommand hlive
  obtain ⟨hr, htables⟩ := freeCmdEntry_spec hfree
  have hnext : s₁.nextCmd = s.nextCmd := hr.counters.nextCmd
  have hsrc₁ : s₁.commands pSrc = some src :=
    ((hr.commands pSrc).2 fun hc => (hold pSrc hc).2 rfl).trans hsrc
  -- The released command is in no other entry.
  have hother : ∀ {x nx l c}, s.namespaces x = some nx →
      (s.paCmd x).lookup l = some (some c) → ¬(x = s.pCurrentNs ∧ l = zName) → pOld ≠ some c := by
    intro x nx l c hx hl hne hc
    exact hne (h.unique x nx _ ns l zName c hx hns hl (hold c hc).1)
  have hlt : ∀ {x nx l c}, s.namespaces x = some nx →
      (s.paCmd x).lookup l = some (some c) → c < s.nextCmd :=
    fun hx hl => h.lt_nextCmd_of_entry hsub hx hl
  let s₂ : CmdInterp := { s₁ with paCmd := (s.removeEntry s.pCurrentNs zName).paCmd }
  have hr₂ : Released s s₂ fun c => pOld = some c :=
    ⟨⟨hr.counters.nextCmd, hr.counters.nextSub, hr.counters.nNextCmdToken,
      hr.counters.pendingCmd⟩, hr.live, hr.commands,
      ⟨hr.freed.subCommands, hr.freed.cleared, hr.freed.kept, hr.freed.shrunk⟩, hr.cmdTokens⟩
  have hns₂ : s₂.namespaces = s.namespaces := by
    rw [htables.toNsTree]
  have h₂ : CmdInv s₂ held := by
    refine h.released hr₂ ?_ (fun d hd => ⟨hd, fun hc => ?_⟩) h.nodup
    · intro x nx l e hx hl
      rw [hns₂] at hx
      obtain ⟨hne, hl⟩ := lookup_removeEntry hl
      refine ⟨⟨nx, hx⟩, hl, ?_⟩
      rintro d rfl
      exact hother hx hl hne
    · obtain ⟨d', hd', hnot, -⟩ := h.entry _ ns zName _ hns (hold d hc).1
      exact hnot (Option.some.inj hd' ▸ hd)
  let s' : CmdInterp := (({ s₁ with nextCmd := s₁.nextCmd + 1 } : CmdInterp).setCommand s₁.nextCmd
    (importedCommand mem src)).setEntry s.pCurrentNs zName (some s₁.nextCmd)
  have hcommand : ∀ {d}, d ≠ s.nextCmd → s'.commands d = s₁.commands d := by
    intro d hd
    exact Function.update_of_ne (hnext ▸ hd) ..
  have hentry : ∀ x l, ¬(x = s.pCurrentNs ∧ l = zName) →
      (s'.paCmd x).lookup l = (s.paCmd x).lookup l := by
    intro x l hne
    refine (lookup_setEntry_of_ne _ hne).trans ?_
    rw [htables.paCmd]
    exact hf x l hne
  have hcopy : s'.commands s.nextCmd = some (importedCommand mem src) := by
    rw [← hnext]
    exact Function.update_self ..
  refine ⟨s', ?_, ?_, ?_, ⟨?_, ?_, ?_, hentry, ?_⟩, ?_, hcopy⟩
  · simp only [replaceImported, s₀, hfree, hmem, hsrc₁]
    rfl
  · refine h₂.link s.nextCmd s.pCurrentNs zName ?_ ?_ rfl ?_ ?_
    · intro hmem
      obtain ⟨cmd, hcmd⟩ := h.heldLive _ hmem
      exact Nat.lt_irrefl _ (hsub.lt_nextCmd hcmd)
    · intro x nx l hx hl
      rw [hns₂] at hx
      exact Nat.lt_irrefl _ (hlt hx (lookup_removeEntry hl).2)
    · intro x l e hl
      by_cases hne : x = s.pCurrentNs ∧ l = zName
      · obtain ⟨rfl, rfl⟩ := hne
        refine .inl ⟨⟨rfl, rfl⟩, ?_⟩
        rw [← hnext]
        rcases lookup_setEntry hl with ⟨-, he⟩ | ⟨hne, -⟩
        · exact he
        · exact absurd ⟨rfl, rfl⟩ hne
      · right
        exact (lookup_removeEntry_of_ne s hne).trans ((hentry x l hne).symm.trans hl)
    · intro d hd
      by_cases hdn : d = s.nextCmd
      · exact ⟨_, hdn ▸ hcopy⟩
      · obtain ⟨cmd, hcmd⟩ := hd.resolve_right hdn
        exact ⟨cmd, (hcommand hdn).trans hcmd⟩
  · have hnone : (importedCommand mem src).paSubCommands = none := rfl
    exact ((hsub₀.released hr).newRecord hnone).of_fields rfl rfl rfl rfl rfl rfl
  · exact htables.toNsTree
  · exact htables.zExport
  · exact hr.counters.pendingCmd
  · intro x nx l c hx hl hne
    rw [hcommand (Nat.ne_of_lt (hlt hx hl))]
    exact (hr.commands c).2 (hother hx hl hne)
  · rw [← hnext]
    simp [s', setEntry]

def ImportMemory.Granted (mem : ImportMemory) : Prop :=
  mem.pDst = true ∧ mem.pNew = true ∧ mem.pContext ≠ 0

def Overwrites (s : CmdInterp) (pSrcNs : NsId) (zImportPat : Bytes) (bForce : Bool)
    (zName : Bytes) : Prop :=
  bForce = true ∧ pSrcNs = s.pCurrentNs ∧ importMatches (s.zExport pSrcNs) zImportPat zName = true ∧
    ∃ c, (s.paCmd pSrcNs).lookup zName = some (some c)

section Callback

variable {held : List CmdId} {pSrcNs : NsId} {srcNs cur : Namespace} {zImportPat : Bytes}
  {bForce : Bool}

theorem importCallback_spec (h : CmdInv s held) (hsub : SubInv False s)
    (hsrcNs : s.namespaces pSrcNs = some srcNs)
    (hcur : s.namespaces s.pCurrentNs = some cur) {mem : ImportMemory}
    (hmem : mem.Granted) {zName : Bytes} (hself : ¬Overwrites s pSrcNs zImportPat bForce zName) :
    ∃ s', s.importCallback pSrcNs zImportPat bForce mem zName = some (s', true) ∧
      CmdInv s' held ∧ SubInv False s' ∧ Kept s s' (· = zName) ∧
      ∀ pSrc src, (s.paCmd pSrcNs).lookup zName = some (some pSrc) → s.commands pSrc = some src →
        importMatches (s.zExport pSrcNs) zImportPat zName = true →
        Imported s s' bForce zName src := by
  have htable : s.cmdTable pSrcNs = some (s.paCmd pSrcNs) := by simp [cmdTable, hsrcNs]
  have hdst : s.cmdTable s.pCurrentNs = some (s.paCmd s.pCurrentNs) := by
    simp [cmdTable, hcur]
  by_cases hmatch : importMatches (s.zExport pSrcNs) zImportPat zName = true
  swap
  · refine ⟨s, ?_, h, hsub, .refl s _, fun _ _ _ _ hm => absurd hm hmatch⟩
    simp only [importCallback, htable]
    rw [if_pos (by simpa using hmatch)]
  rcases hlook : (s.paCmd pSrcNs).lookup zName with _ | e
  · refine ⟨s, ?_, h, hsub, .refl s _, fun _ _ hl => absurd hl (by simp)⟩
    simp only [importCallback, htable, hmatch, hlook, Option.join_none, Bool.not_true,
      Bool.false_eq_true, if_false]
  obtain ⟨pSrc, rfl, -, src, hsrc⟩ := h.entry pSrcNs srcNs zName e hsrcNs hlook
  -- What the copy looks like once it is in the target entry.
  have hcopied : ∀ {s'}, (s'.paCmd s.pCurrentNs).lookup zName = some (some s.nextCmd) →
      s'.commands s.nextCmd = some (importedCommand mem src) →
      ∀ pSrc' src', some (some pSrc) = some (some pSrc') → s.commands pSrc' = some src' →
        importMatches (s.zExport pSrcNs) zImportPat zName = true →
        Imported s s' bForce zName src' := by
    rintro s' hl hc pSrc' src' heq hsrc' -
    obtain rfl : pSrc = pSrc' := Option.some.inj (Option.some.inj heq)
    obtain rfl : src = src' := Option.some.inj (hsrc.symm.trans hsrc')
    refine ⟨s.nextCmd, importedCommand mem src, hl, hc, .inl ⟨rfl, rfl, ?_⟩⟩
    by_cases hcopy : src.xCopy = 0
    · rw [if_pos hcopy]
      exact if_pos hcopy
    · have hcontext : (importedCommand mem src).pContext = mem.pContext := if_neg hcopy
      rw [if_neg hcopy, hcontext]
      exact hmem.2.2
  rcases htarget : (s.paCmd s.pCurrentNs).lookup zName with _ | pData
  · have hold : ∀ c, (none : Option CmdId) = some c →
        (s.paCmd s.pCurrentNs).lookup zName = some (some c) ∧ c ≠ pSrc := by simp
    obtain ⟨s', hs', hcmd, hsubs, hkept, hl, hc⟩ := replaceImported_spec h hsub hcur
      hmem.2.1 hsrc hold fun x l hne => lookup_setEntry_of_ne s hne
    refine ⟨s', ?_, hcmd, hsubs, hkept, hcopied hl hc⟩
    simp only [importCallback, htable, hmatch, hlook, hdst, htarget, hmem.1, Option.join_some,
      Bool.not_true, Bool.false_eq_true, if_false]
    exact hs'
  · obtain ⟨c, rfl, -, cmd, hcmd⟩ := h.entry s.pCurrentNs cur zName pData hcur htarget
    cases hforce : bForce with
    | true =>
      have hne : c ≠ pSrc := by
        rintro rfl
        have := h.unique _ _ _ _ _ _ c hcur hsrcNs htarget hlook
        exact hself ⟨hforce, this.1.symm, hmatch, c, hlook⟩
      have hold : ∀ d, some c = some d →
          (s.paCmd s.pCurrentNs).lookup zName = some (some d) ∧ d ≠ pSrc := by
        rintro d ⟨⟩
        exact ⟨htarget, hne⟩
      obtain ⟨s', hs', hcmd', hsubs, hkept, hl, hc⟩ := replaceImported_spec h hsub hcur
        hmem.2.1 hsrc hold (f := s.paCmd) fun _ _ _ => rfl
      refine ⟨s', ?_, hcmd', hsubs, hkept, hforce ▸ hcopied hl hc⟩
      simp only [importCallback, htable, hmatch, hlook, hdst, htarget, Option.join_some,
        Bool.not_true, Bool.false_eq_true, if_false, or_true, if_true]
      exact hs'
    | false =>
      refine ⟨s, ?_, h, hsub, .refl s _, fun _ _ _ _ _ =>
        ⟨c, cmd, htarget, hcmd, .inr ⟨rfl, htarget⟩⟩⟩
      simp only [importCallback, htable, hmatch, hlook, hdst, htarget, Option.join_some,
        Bool.not_true, Bool.false_eq_true, if_false, reduceCtorEq, or_self]

theorem importLoop_spec (h : CmdInv s held) (hsub : SubInv False s)
    (hsrcNs : s.namespaces pSrcNs = some srcNs)
    (hcur : s.namespaces s.pCurrentNs = some cur) {mem : ℕ → ImportMemory}
    (hmem : ∀ i, (mem i).Granted) {names : List Bytes} (hnodup : names.Nodup)
    (hself : ∀ zName ∈ names, ¬Overwrites s pSrcNs zImportPat bForce zName) :
    ∃ s', importLoop pSrcNs zImportPat bForce mem s names = some s' ∧
      CmdInv s' held ∧ SubInv False s' ∧ Kept s s' (· ∈ names) ∧
      ∀ zName ∈ names, ∀ pSrc src, (s.paCmd pSrcNs).lookup zName = some (some pSrc) →
        s.commands pSrc = some src → importMatches (s.zExport pSrcNs) zImportPat zName = true →
        Imported s s' bForce zName src := by
  induction names generalizing s with
  | nil => exact ⟨s, rfl, h, hsub, .refl s _, by simp⟩
  | cons zName rest ih =>
    obtain ⟨hnot, hrest⟩ := nodup_cons.mp hnodup
    obtain ⟨s₁, h₁, hcmd₁, hsub₁, hkept₁, himported₁⟩ :=
      importCallback_spec h hsub hsrcNs hcur (hmem rest.length) (hself zName mem_cons_self)
    have hns₁ : s₁.namespaces = s.namespaces := by rw [hkept₁.toNsTree]
    have hcur₁ : s₁.pCurrentNs = s.pCurrentNs := by rw [hkept₁.toNsTree]
    have hne : ∀ {x l}, l ∈ rest → ¬(x = s.pCurrentNs ∧ l = zName) :=
      fun hl hxl => hnot (hxl.2 ▸ hl)
    obtain ⟨s', hs', hcmd', hsub', hkept', himported'⟩ := ih hcmd₁ hsub₁
      (hns₁ ▸ hsrcNs) (by rw [hns₁, hcur₁]; exact hcur) hrest fun l hl hover => by
        obtain ⟨hforce, hsame, hmatch, c, hc⟩ := hover
        rw [hkept₁.entry pSrcNs l (hne hl)] at hc
        rw [hkept₁.zExport] at hmatch
        exact hself l (mem_cons_of_mem zName hl) ⟨hforce, hsame.trans hcur₁, hmatch, c, hc⟩
    refine ⟨s', ?_, hcmd', hsub', ?_, ?_⟩
    · simp only [importLoop, h₁]
      exact hs'
    · have hboth := hkept₁.trans hkept'
      simpa only [mem_cons] using hboth
    · intro l hl pSrc src hlook hsrc hmatch
      rcases mem_cons.mp hl with rfl | hl
      · obtain ⟨c, cmd, hc, hcmd, hcopy⟩ := himported₁ pSrc src hlook hsrc hmatch
        have hlater : ¬(s.pCurrentNs = s₁.pCurrentNs ∧ l ∈ rest) := fun hx => hnot hx.2
        refine ⟨c, cmd, (hkept'.entry _ _ hlater).trans hc, ?_, hcopy⟩
        rw [hkept'.command _ cur l c (by rw [hns₁]; exact hcur) hc hlater, hcmd]
      · have hlook₁ := (hkept₁.entry pSrcNs l (hne hl)).trans hlook
        have hsrc₁ := (hkept₁.command pSrcNs srcNs l pSrc hsrcNs hlook (hne hl)).trans hsrc
        obtain ⟨c, cmd, hc, hcmd, hcopy⟩ :=
          himported' l hl pSrc src hlook₁ hsrc₁ (by rw [hkept₁.zExport]; exact hmatch)
        rw [hcur₁] at hc
        refine ⟨c, cmd, hc, hcmd, hcopy.imp id fun hold => ⟨hold.1, ?_⟩⟩
        rw [← hkept₁.entry s.pCurrentNs l (hne hl), ← hcur₁]
        exact hold.2

end Callback

def importSource (s : CmdInterp) (zPattern : Bytes) : Option (NsId × Bytes) :=
  match splitQualName zPattern with
  | (some (c :: zNs), zTail) => (s.findNamespace (c :: zNs)).join.map (·, zTail)
  | _ => none

/-- The condition on an import: the current namespace is there, every request for memory
is granted and every context copied, and it would not overwrite what it reads. -/
structure ImportClean (s : CmdInterp) (mem : ℕ → ImportMemory) (zPattern : Bytes)
    (bForce : Bool) : Prop where
  current : ∃ ns, s.namespaces s.pCurrentNs = some ns
  granted : ∀ i, (mem i).Granted
  apart : ∀ pSrcNs zTail zName, s.importSource zPattern = some (pSrcNs, zTail) →
    ¬Overwrites s pSrcNs zTail bForce zName

def EntriesLive (s : CmdInterp) : Prop :=
  ∀ pNs ns k e, s.namespaces pNs = some ns → (s.paCmd pNs).lookup k = some e →
    ∃ c cmd, e = some c ∧ s.commands c = some cmd

def ImportDone (s s' : CmdInterp) (zPattern : Bytes) (bForce : Bool) : Prop :=
  ∃ pSrcNs zTail, s.importSource zPattern = some (pSrcNs, zTail) ∧
    ∀ zName pSrc src, (s.paCmd pSrcNs).lookup zName = some (some pSrc) →
      s.commands pSrc = some src →
      importMatches (s.zExport pSrcNs) zTail zName = true → Imported s s' bForce zName src

/-- What an import is held to: it uses no released record, leaves live commands in all
tables, and reports what it could not complete. -/
def ImportSound (s : CmdInterp) (mem : ℕ → ImportMemory) (zPattern : Bytes)
    (bForce : Bool) : Prop :=
  ∃ s' r, s.nsImport mem zPattern bForce = some (s', r) ∧ EntriesLive s' ∧
    (r = .ok → ImportDone s s' zPattern bForce)

theorem CmdInv.entriesLive {held : List CmdId} (h : CmdInv s held) : EntriesLive s := by
  intro pNs ns k e hns hk
  obtain ⟨c, rfl, -, cmd, hc⟩ := h.entry pNs ns k e hns hk
  exact ⟨c, cmd, rfl, hc⟩

theorem nsImport_spec (h : Sound s) {mem : ℕ → ImportMemory} {zPattern : Bytes}
    {bForce : Bool} (hclean : ImportClean s mem zPattern bForce) :
    ∃ s' r, s.nsImport mem zPattern bForce = some (s', r) ∧ CmdInv s' s'.pendingCmd ∧
      (r = .ok → ImportDone s s' zPattern bForce) := by
  have hfailed : ∀ {e : Failure}, s.nsImport mem zPattern bForce = some (s, .error e) →
      ∃ s' r, s.nsImport mem zPattern bForce = some (s', r) ∧ CmdInv s' s'.pendingCmd ∧
        (r = .ok → ImportDone s s' zPattern bForce) :=
    fun heq => ⟨s, _, heq, h.cmds, by simp⟩
  obtain ⟨cur, hcur⟩ := hclean.current
  rcases hsplit : splitQualName zPattern with ⟨_ | _ | ⟨b, zNs⟩, zTail⟩
  · exact hfailed (by simp only [nsImport, hsplit]; rfl)
  · exact hfailed (by simp only [nsImport, hsplit]; rfl)
  · obtain ⟨start, hstart⟩ := walkStart_allocated h.tree hcur (b :: zNs)
    rcases h.tree.walk_spec hstart (s.toNsTree.walkStart (b :: zNs)).2 with
      hnone | ⟨pSrcNs, srcNs, hfind, hsrcNs⟩
    · have hnone : s.findNamespace (b :: zNs) = some none := hnone
      exact hfailed (by simp only [nsImport, hsplit, hnone]; rfl)
    · have hfind : s.findNamespace (b :: zNs) = some (some pSrcNs) := hfind
      have hsource : s.importSource zPattern = some (pSrcNs, zTail) := by
        simp [importSource, hsplit, hfind]
      obtain ⟨s', hs', hcmd, -, hkept, himported⟩ := importLoop_spec h.cmds h.subs hsrcNs hcur
        hclean.granted (s.paCmd pSrcNs).keys_nodup
        fun zName _ => hclean.apart pSrcNs zTail zName hsource
      refine ⟨s', .ok, ?_, hkept.pendingCmd ▸ hcmd, fun _ => ⟨pSrcNs, zTail, hsource, ?_⟩⟩
      · simp only [nsImport, hsplit, hfind, cmdTable, hsrcNs, Option.map_some, hs']
      · intro zName pSrc src hlook
        refine himported zName ?_ pSrc src hlook
        exact AList.mem_keys.mpr (AList.lookup_isSome.mp (by simp [hlook]))

/-! ## Runs -/

def Op.Disciplined (s : CmdInterp) : Op → Prop
  | .nsImport mem zPattern bForce => ImportClean s mem zPattern bForce
  | op => op.CleanTree s

theorem Sound.ran (h : Sound s) {op : Op} (hop : op.Disciplined s) (hran : Ran s s' op) :
    Sound s' := by
  have hcleanTree : op.CleanTree s := by
    cases op with
    | nsImport => trivial
    | _ => exact hop
  refine ⟨?_, h.subs.ran hran fun hfalse => hfalse.elim, ?_⟩
  · rcases exists_nsOp hran with hsame | ⟨nop, hnop, hclean⟩
    · exact hsame ▸ h.tree
    · exact (run_inv h.tree (hclean hcleanTree) hnop).1
  · cases op with
    | createCommand mem zName handler => exact h.createCommand hop hran.choose_spec
    | createSubCommand mem zCmdName zSubName handler =>
      exact h.cmds.createSubCommand hran.choose_spec
    | deleteSubCommand token => exact h.cmds.deleteSubCommand hran.choose_spec
    | renameCommand mem zOld zNew => exact h.renameCommand hop hran.choose_spec
    | deleteCommand token =>
      obtain ⟨r, hrun⟩ := hran
      rcases deleteCommand_cases hrun with rfl | ⟨c, cmd, zName, -, -, -, hrename⟩
      · exact h.cmds
      · refine h.renameCommand ?_ hrename
        intro zNs zTail hsplit
        simp [splitQualName, lastSeparator] at hsplit
    | setCommandCopy zName xCopy =>
      rcases setCommandCopy_cases hran with rfl | ⟨c, cmd, -, rfl⟩
      · exact h.cmds
      · refine h.cmds.congr rfl rfl ?_
        rintro d ⟨cmd', hcmd'⟩
        by_cases hd : d = c
        · subst hd
          exact ⟨_, Function.update_self ..⟩
        · exact ⟨cmd', (Function.update_of_ne hd ..).trans hcmd'⟩
    | createNamespace mem zName =>
      obtain ⟨r, hrun⟩ := hran
      obtain ⟨t, hfind, hmove⟩ := createNamespace_cases hrun
      obtain ⟨hinv, hout⟩ := NsTree.Inv.findNamespaceEx h.tree hop hfind
      exact (h.moveTo_outcome hinv hout hmove).cmds
    | deleteNamespace zName granted => exact h.deleteNamespace hran.choose_spec
    | nsExport zNs zPattern blank pattern =>
      obtain ⟨r, hrun⟩ := hran
      obtain ⟨z, rfl⟩ := nsExport_cases hrun
      exact h.cmds.congr rfl rfl fun _ => id
    | nsImport mem zPattern bForce =>
      obtain ⟨r, hrun⟩ := hran
      obtain ⟨s'', r', hrun', hcmd, -⟩ := nsImport_spec h hop
      obtain ⟨rfl, -⟩ := Prod.mk.inj (Option.some.inj (hrun.symm.trans hrun'))
      exact hcmd
    | setCurrent pNs =>
      obtain ⟨-, rfl⟩ := hran
      exact h.cmds.congr rfl rfl fun _ => id
    | enterEval =>
      obtain rfl := hran
      exact h.cmds.congr rfl rfl fun _ => id
    | leaveEval =>
      rcases hran with ⟨-, hdrain⟩ | ⟨-, rfl⟩
      · have h₀ : Sound { s with nEvalDepth := 0 } :=
          ⟨h.tree, h.subs.of_fields rfl rfl rfl rfl rfl rfl, h.cmds.congr rfl rfl fun _ => id⟩
        exact h₀.drainPendingDeletes hdrain
      · exact h.cmds.congr rfl rfl fun _ => id

theorem init_sound : Sound CmdInterp.init := by
  refine ⟨init_inv, init_subInv False, ⟨?_, ?_, by simp [CmdInterp.init], nodup_nil⟩⟩
  · intro pNs ns k e _ hk
    simp [CmdInterp.init] at hk
  · intro pNs ns pNs' ns' k k' c _ _ hk
    simp [CmdInterp.init] at hk

def DisciplinedStep (s : Option CmdInterp) (op : Op) : Prop :=
  ∀ s₁, s = some s₁ → op.Disciplined s₁

theorem reachable_sound
    (hreach : ReachableBy step DisciplinedStep (some .init) (some s)) : Sound s := by
  refine hreach.invariant_some init_sound (fun _ => rfl) fun s₁ op s₂ h hop hrun => ?_
  obtain ⟨⟨s₃, e⟩, hop', rfl⟩ := Option.map_eq_some_iff.mp hrun
  exact h.ran (hop s₁ rfl) (ran_of_run hop')

/-- In every run of disciplined operations, every clean import is sound. -/
theorem importSound_of_disciplined (hreach : ReachableBy step DisciplinedStep (some .init) (some s))
    {mem : ℕ → ImportMemory} {zPattern : Bytes} {bForce : Bool}
    (hclean : ImportClean s mem zPattern bForce) : ImportSound s mem zPattern bForce := by
  obtain ⟨s', r, hrun, hcmd, hdone⟩ := nsImport_spec (reachable_sound hreach) hclean
  exact ⟨s', r, hrun, hcmd.entriesLive, hdone⟩

/-- The command `x` in the namespace `n`, which exports everything. -/
def exporting : List Op :=
  [.createCommand ampleMemory (ascii "n::x") ⟨1, 0, 0⟩,
    .nsExport (ascii "n") (ascii "*") true true]

theorem importSound_exporting :
    ∃ s, runAll exporting = some s ∧
      ImportSound s (fun _ => ⟨true, true, 1⟩) (ascii "n::*") false ∧
      s.importSource (ascii "n::*") = some (1, ascii "*") := by
  obtain ⟨s, hs⟩ : ∃ s, runAll exporting = some s := Option.isSome_iff_exists.mp (by decide)
  have hsource : (runAll exporting).bind (fun s => s.importSource (ascii "n::*")) =
      some (1, ascii "*") := by decide
  have hcurrent : (runAll exporting).bind (fun s => s.namespaces s.pCurrentNs) ≠ none := by
    decide
  rw [hs, Option.bind_some] at hsource hcurrent
  have hreach : ReachableBy step DisciplinedStep (some .init) (some s) := by
    rw [← hs]
    refine ReachableBy.foldl .init ⟨?_, fun _ _ => trivial, trivial⟩
    rintro s₁ ⟨⟩
    exact cleanName_init_qualified
  refine ⟨s, hs, importSound_of_disciplined hreach ⟨?_, ?_, ?_⟩, hsource⟩
  · exact Option.ne_none_iff_exists'.mp hcurrent
  · exact fun _ => ⟨rfl, rfl, by simp⟩
  · exact fun _ _ _ _ hover => absurd hover.1 (by simp)

/-- An import from the current namespace into itself, with overwriting, reads a command
that it has released. -/
theorem selfImport_not_sound :
    ¬∀ s, Reachable step (some .init) (some s) →
      ∀ mem zPattern bForce, (∃ ns, s.namespaces s.pCurrentNs = some ns) →
        ImportSound s mem zPattern bForce := by
  intro hall
  let ops : List Op := exporting ++ [.setCurrent 1]
  obtain ⟨s, hs⟩ : ∃ s, runAll ops = some s := Option.isSome_iff_exists.mp (by decide)
  have hcurrent : (runAll ops).bind (fun s => s.namespaces s.pCurrentNs) ≠ none := by
    decide
  have hfault : (runAll ops).map (fun s =>
      (s.nsImport (fun _ => ⟨true, true, 1⟩) (ascii "::n::*") true).isNone) =
      some true := by decide
  rw [hs, Option.bind_some] at hcurrent
  rw [hs, Option.map_some, Option.some.injEq, Option.isNone_iff_eq_none] at hfault
  have hreach : Reachable step (some .init) (some s) := hs ▸ reachable_foldl _ _ _
  obtain ⟨s', r, hrun, -⟩ := hall s hreach (fun _ => ⟨true, true, 1⟩) (ascii "::n::*") true
    (Option.ne_none_iff_exists'.mp hcurrent)
  simp [hfault] at hrun

end CmdInterp

end Th8
