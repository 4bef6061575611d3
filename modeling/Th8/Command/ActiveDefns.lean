import Th8.Command.Carried
import Th8.Command.Invocations
import Th8.Command.Pruning

/-!
# Active procedures keep their definitions

Every invocation was made by an evaluation, and the evaluations of the running chain are
counted by the depth.  So where a deletion is carried out because no evaluation is left,
nothing is active but on chains that do not run.
-/

namespace Th8

open Support List Option Nat

namespace Invocations

/-! ## Chains -/

def evals : List ChainItem → ℕ
  | [] => 0
  | .eval _ :: rest => evals rest + 1
  | _ :: rest => evals rest

/-- Every invocation is directly above an evaluation, and an evaluation began at a depth that
counts those below it. -/
def Balanced : List ChainItem → Prop
  | [] => True
  | .eval nSavedDepth :: rest => evals rest ≤ nSavedDepth ∧ Balanced rest
  | .invocation _ :: rest => (∃ nSavedDepth below, rest = .eval nSavedDepth :: below) ∧
      Balanced rest
  | .coroCreate :: rest => Balanced rest

theorem Balanced.tail {item : ChainItem} {rest : List ChainItem} (h : Balanced (item :: rest)) :
    Balanced rest := by
  rcases item with _ | _ | _
  · exact h.2
  · exact h.2
  · exact h

theorem Balanced.drop {chain : List ChainItem} (h : Balanced chain) (n : ℕ) :
    Balanced (chain.drop n) := by
  induction n generalizing chain with
  | zero => exact h
  | succ n ih =>
    rcases chain with _ | ⟨item, rest⟩
    · exact h
    · exact ih h.tail

theorem evals_tail_le (item : ChainItem) (rest : List ChainItem) :
    evals rest ≤ evals (item :: rest) := by
  rcases item with _ | _ | _
  · exact le_succ _
  · exact le_refl _
  · exact le_refl _

theorem mem_invocationsOf {chain : List ChainItem} {p : Pointer} :
    p ∈ invocationsOf chain ↔ .invocation p ∈ chain := by
  unfold invocationsOf
  rw [mem_filterMap]
  constructor
  · rintro ⟨_ | _ | _, hmem, heq⟩
    · cases heq
    · exact some.inj heq ▸ hmem
    · cases heq
  · exact fun hmem => ⟨_, hmem, rfl⟩

theorem Balanced.invocationsOf_eq_nil {chain : List ChainItem} (h : Balanced chain)
    (hzero : evals chain = 0) : invocationsOf chain = [] := by
  induction chain with
  | nil => rfl
  | cons item rest ih =>
    have hrest := ih h.tail (le_zero.mp (hzero ▸ evals_tail_le item rest))
    rcases item with _ | _ | _
    · exact absurd hzero (succ_ne_zero _)
    · obtain ⟨_, _, rfl⟩ := h.1
      exact absurd hzero (succ_ne_zero _)
    · exact hrest

theorem cutChain_cases (chain : List ChainItem) :
    cutChain chain = (chain, none) ∨
      ∃ upper lower, cutChain chain = (upper, some lower) ∧
        chain = upper ++ .coroCreate :: lower := by
  induction chain with
  | nil => exact .inl rfl
  | cons item rest ih =>
    rcases item with nSavedDepth | pDefn | _
    · rcases ih with hnone | ⟨upper, lower, hsome, rfl⟩
      · exact .inl (by simp [cutChain, hnone])
      · exact .inr ⟨.eval nSavedDepth :: upper, lower, by simp [cutChain, hsome], rfl⟩
    · rcases ih with hnone | ⟨upper, lower, hsome, rfl⟩
      · exact .inl (by simp [cutChain, hnone])
      · exact .inr ⟨.invocation pDefn :: upper, lower, by simp [cutChain, hsome], rfl⟩
    · exact .inr ⟨[], rest, rfl, rfl⟩

theorem evals_append (upper lower : List ChainItem) :
    evals (upper ++ lower) = evals upper + evals lower := by
  induction upper with
  | nil => simp [evals]
  | cons item rest ih =>
    rcases item with _ | _ | _
    · simp only [cons_append, evals, ih]
      omega
    · exact ih
    · exact ih

theorem Balanced.upper {upper lower : List ChainItem}
    (h : Balanced (upper ++ .coroCreate :: lower)) : Balanced upper := by
  induction upper with
  | nil => trivial
  | cons item rest ih =>
    have hrest := ih h.tail
    rcases item with nSavedDepth | _ | _
    · refine ⟨?_, hrest⟩
      have hcount : evals (rest ++ .coroCreate :: lower) ≤ nSavedDepth := h.1
      rw [evals_append] at hcount
      exact le_trans (le_add_right _ _) hcount
    · obtain ⟨⟨nSavedDepth, below, heq⟩, -⟩ := h
      rcases rest with _ | ⟨item, rest⟩
      · cases heq
      · obtain ⟨rfl, -⟩ := List.cons.inj heq
        exact ⟨⟨_, _, rfl⟩, hrest⟩
    · exact hrest

theorem Balanced.lower {upper lower : List ChainItem}
    (h : Balanced (upper ++ .coroCreate :: lower)) : Balanced lower := by
  induction upper with
  | nil => exact h
  | cons item rest ih => exact ih h.tail

end Invocations

/-! ## Commands that are destroyed -/

namespace CmdInterp

structure Rooted (s : CmdInterp) : Prop where
  fresh : s.toNsTree.Fresh
  root : ∃ ns, s.namespaces globalNs = some ns
  unused : ∀ c, s.nextCmd ≤ c → s.commands c = none

/-- The commands outside `R` have kept their contexts. -/
structure Retired (R : CmdId → Prop) (s s' : CmdInterp) : Prop where
  rooted : s'.Rooted
  kept : ∀ c cmd, s.commands c = some cmd → R c ∨ ∃ cmd', s'.commands c = some cmd' ∧
    cmd'.xDel = cmd.xDel ∧ cmd'.pContext = cmd.pContext

def Op.nEvalDepth (s : CmdInterp) : Op → ℕ
  | .enterEval => s.nEvalDepth + 1
  | .leaveEval => s.nEvalDepth - 1
  | _ => s.nEvalDepth

variable {s s' : CmdInterp} {R : CmdId → Prop}

section

variable (h : s.Rooted)

include h

theorem Rooted.carried (R : CmdId → Prop) : Carried s (fun _ _ _ => True) R s :=
  .refl h.fresh (h.fresh.lt_nextNs h.root.choose_spec) (fun _ _ _ => trivial) h.unused

theorem Rooted.setCurrent (pNs : NsId) : ({ s with pCurrentNs := pNs } : CmdInterp).Rooted :=
  ⟨⟨h.fresh.free, h.fresh.kids, h.fresh.pending⟩, h.root, h.unused⟩

theorem Rooted.setDepth (nEvalDepth : ℕ) :
    ({ s with nEvalDepth := nEvalDepth } : CmdInterp).Rooted :=
  ⟨⟨h.fresh.free, h.fresh.kids, h.fresh.pending⟩, h.root, h.unused⟩

theorem Rooted.of_carried {M : Pointer → Pointer → Pointer → Prop}
    (hcarried : Carried s M R s') : Retired R s s' := by
  refine ⟨⟨hcarried.tree.fresh, ?_, hcarried.unused⟩, hcarried.kept⟩
  obtain ⟨ns, hns⟩ := h.root
  exact hcarried.tree.old globalNs ns (h.fresh.lt_nextNs hns) hns

theorem Rooted.of_deleted {op : Op} (hdel : Deleted s s' op) : Retired (s.GoesAlong op) s s' := by
  refine ⟨⟨hdel.fresh, ?_, fun c hc => ?_⟩, fun c cmd hc => ?_⟩
  · exact hdel.kept _ _ h.root.choose_spec (not_doomed_globalNs h.fresh op)
  · rcases hcmd : s'.commands c with _ | cmd
    · rfl
    · have hold := ((hdel.commands c cmd).mp hcmd).1
      rw [h.unused c (hdel.nextCmd ▸ hc)] at hold
      cases hold
  · by_cases hgone : s.GoesAlong op c
    · exact .inl hgone
    · exact .inr ⟨cmd, (hdel.commands c cmd).mpr ⟨hc, hgone⟩, rfl, rfl⟩

theorem Rooted.ran {op : Op} (hran : Ran s s' op)
    (hop : ∀ mem zPattern bForce, op ≠ .nsImport mem zPattern bForce) :
    Retired (fun c => op.Destroys s c ∨ s.GoesAlong op c) s s' ∧
      s'.nEvalDepth = op.nEvalDepth s := by
  have hgrowing : op.Growing → op.nEvalDepth s = s.nEvalDepth →
      Retired (fun c => op.Destroys s c ∨ s.GoesAlong op c) s s' ∧
        s'.nEvalDepth = op.nEvalDepth s := by
    intro hgrowing hdepth
    have hkeeps : op.Keeps fun _ _ _ => True := by
      cases op with
      | createCommand mem zName handler => exact ⟨trivial, fun _ _ _ _ => trivial⟩
      | setCommandCopy zName xCopy => exact fun _ _ _ _ => trivial
      | _ => trivial
    have hcarried := (h.carried fun c => op.Destroys s c ∨ s.GoesAlong op c).ran hgrowing hkeeps
      (fun _ => Or.inl) hran
    exact ⟨h.of_carried hcarried, hcarried.tree.depth.trans hdepth.symm⟩
  have hdeleted : Deleted s s' op → op.nEvalDepth s = s.depthAfter op →
      Retired (fun c => op.Destroys s c ∨ s.GoesAlong op c) s s' ∧
        s'.nEvalDepth = op.nEvalDepth s := by
    intro hdel hdepth
    have hretired := h.of_deleted hdel
    exact ⟨⟨hretired.rooted, fun c cmd hc => (hretired.kept c cmd hc).imp_left .inr⟩,
      hdel.depth.trans hdepth.symm⟩
  have hsame : s'.Rooted → s'.commands = s.commands →
      Retired (fun c => op.Destroys s c ∨ s.GoesAlong op c) s s' := by
    intro hrooted hcommands
    exact ⟨hrooted, fun c cmd hc => .inr ⟨cmd, hcommands ▸ hc, rfl, rfl⟩⟩
  cases op with
  | deleteNamespace zName granted =>
    obtain ⟨r, hrun⟩ := hran
    exact hdeleted (deleted_deleteNamespace h.fresh hrun) rfl
  | nsImport mem zPattern bForce => exact absurd rfl (hop mem zPattern bForce)
  | setCurrent pNs =>
    obtain ⟨-, rfl⟩ := hran
    exact ⟨hsame (h.setCurrent pNs) rfl, rfl⟩
  | enterEval =>
    obtain rfl := hran
    exact ⟨hsame (h.setDepth _) rfl, rfl⟩
  | leaveEval =>
    rcases hran with ⟨hdepth, hrun⟩ | ⟨-, rfl⟩
    · exact hdeleted (deleted_leaveEval h.fresh hdepth hrun) (Nat.sub_eq_zero_of_le hdepth)
    · exact ⟨hsame (h.setDepth _) rfl, rfl⟩
  | _ => exact hgrowing trivial rfl

end

theorem importCallback_others {pSrcNs : NsId} {zImportPat : Bytes} {bForce : Bool}
    {mem : ImportMemory} {zName : Bytes} {b : Bool}
    (hrun : s.importCallback pSrcNs zImportPat bForce mem zName = some (s', b)) :
    s'.toNsTree = s.toNsTree ∧ s'.zExport = s.zExport ∧
      ∀ x l, l ≠ zName → (s'.paCmd x).lookup l = (s.paCmd x).lookup l := by
  have hentry : ∀ {s : CmdInterp} {pData : Option CmdId} (x : NsId) (l : Bytes), l ≠ zName →
      ((s.setEntry s.pCurrentNs zName pData).paCmd x).lookup l = (s.paCmd x).lookup l := by
    intro s pData x l hl
    by_cases hx : x = s.pCurrentNs
    · subst hx
      simp [setEntry, AList.lookup_insert_ne hl]
    · simp [setEntry, Function.update_of_ne hx]
  have hreplace : ∀ {s : CmdInterp} {pSrc : CmdId} {pOld : Option CmdId},
      s.replaceImported mem zName pSrc pOld = some (s', b) →
      s'.toNsTree = s.toNsTree ∧ s'.zExport = s.zExport ∧
        ∀ x l, l ≠ zName → (s'.paCmd x).lookup l = (s.paCmd x).lookup l := by
    intro s pSrc pOld hrun
    obtain ⟨s₁, hfree, hrest⟩ := replaceImported_cases hrun
    obtain ⟨-, htables⟩ := freeCmdEntry_spec hfree
    have hcur : s₁.pCurrentNs = s.pCurrentNs := by rw [htables.toNsTree]
    rcases hrest with ⟨-, -, rfl⟩ | ⟨-, -, src, -, rfl⟩
    · exact ⟨htables.toNsTree, htables.zExport, fun x l _ => by rw [htables.paCmd]⟩
    · refine ⟨htables.toNsTree, htables.zExport, fun x l hl => ?_⟩
      rw [← hcur]
      exact (hentry x l hl).trans (by rw [← htables.paCmd]; rfl)
  rcases importCallback_cases hrun with ⟨-, rfl⟩ | ⟨pSrc, -, ⟨-, hnew⟩ | ⟨pData, -, -, hold⟩⟩
  · exact ⟨rfl, rfl, fun _ _ _ => rfl⟩
  · obtain ⟨htree, hexport, hlookup⟩ := hreplace hnew
    exact ⟨htree, hexport, fun x l hl => (hlookup x l hl).trans (hentry x l hl)⟩
  · exact hreplace hold

end CmdInterp

namespace ProcInterp

open CmdInterp (Carried Retired)

variable {s s' : ProcInterp}

def DefnsKept (s s' : ProcInterp) : Prop :=
  ∀ p, (∃ d, s.defns p = some d) → ∃ d, s'.defns p = some d

theorem defnsKept_allocDefn (s : ProcInterp) (d : ProcDefn) : DefnsKept s (s.allocDefn d) := by
  rintro p ⟨d', hp⟩
  by_cases hnext : p = s.nextDefn
  · subst hnext
    exact ⟨d, Function.update_self ..⟩
  · exact ⟨d', (Function.update_of_ne hnext ..).trans hp⟩

theorem importCallback_kept {pSrcNs : NsId} {zImportPat : Bytes} {bForce : Bool}
    {mem : CopyMemory} {zName : Bytes} {go : Bool}
    (hrun : s.importCallback pSrcNs zImportPat bForce mem zName = some (s', go)) :
    DefnsKept s s' ∧ ∃ importMem : CmdInterp.ImportMemory,
      s.cmds.importCallback pSrcNs zImportPat bForce importMem zName = some (s'.cmds, go) := by
  obtain ⟨pContext, cmds, hcall, ⟨rfl, -⟩ | ⟨src, s₁, -, -, hcopy, rfl⟩⟩ :=
    importCallback_cases hrun
  · exact ⟨fun _ hp => hp, _, hcall⟩
  · refine ⟨?_, _, hcall⟩
    rcases copyDefn_cases hcopy with ⟨rfl, -⟩ | ⟨-, -, d, -, rfl⟩
    · exact fun _ hp => hp
    · exact defnsKept_allocDefn s d

theorem importLoop_carried {s₀ : CmdInterp} {R : CmdId → Prop} {pSrcNs : NsId}
    {zImportPat : Bytes} {bForce : Bool} {mem : ℕ → CopyMemory} {names : List Bytes}
    (hnodup : names.Nodup) (h : Carried s₀ (fun _ _ _ => True) R s.cmds)
    (hR : ∀ c pSrc, ∀ zName ∈ names, bForce = true →
      importMatches (s.cmds.zExport pSrcNs) zImportPat zName = true →
      (s.cmds.paCmd pSrcNs).lookup zName = some (some pSrc) →
      (s.cmds.paCmd s.cmds.pCurrentNs).lookup zName = some (some c) → R c)
    (hrun : importLoop pSrcNs zImportPat bForce mem s names = some s') :
    DefnsKept s s' ∧ Carried s₀ (fun _ _ _ => True) R s'.cmds := by
  induction names generalizing s with
  | nil =>
    cases hrun
    exact ⟨fun _ hp => hp, h⟩
  | cons zName rest ih =>
    obtain ⟨hfirst, hrest⟩ := nodup_cons.mp hnodup
    obtain ⟨s₁, go, hcall, hloop⟩ := importLoop_cases hrun
    obtain ⟨hkept, importMem, hcallback⟩ := importCallback_kept hcall
    have h₁ : Carried s₀ (fun _ _ _ => True) R s₁.cmds := by
      rcases h.importCallback (fun c pSrc => hR c pSrc zName mem_cons_self) hcallback with
        hsame | ⟨-, pSrc, -, hnew⟩
      · exact hsame
      · exact hnew.mono fun _ _ _ _ => trivial
    rcases hloop with rfl | hloop
    · exact ⟨hkept, h₁⟩
    · obtain ⟨htree, hexport, hothers⟩ := CmdInterp.importCallback_others hcallback
      have hcur : s₁.cmds.pCurrentNs = s.cmds.pCurrentNs := by rw [htree]
      have hR' : ∀ c pSrc, ∀ l ∈ rest, bForce = true →
          importMatches (s₁.cmds.zExport pSrcNs) zImportPat l = true →
          (s₁.cmds.paCmd pSrcNs).lookup l = some (some pSrc) →
          (s₁.cmds.paCmd s₁.cmds.pCurrentNs).lookup l = some (some c) → R c := by
        intro c pSrc l hl hforce hmatch hsrc hdst
        have hne : l ≠ zName := fun heq => hfirst (heq ▸ hl)
        rw [hexport] at hmatch
        rw [hothers _ l hne] at hsrc hdst
        rw [hcur] at hdst
        exact hR c pSrc l (mem_cons_of_mem zName hl) hforce hmatch hsrc hdst
      obtain ⟨hkept', h'⟩ := ih hrest h₁ hR' hloop
      exact ⟨fun p hp => hkept' p (hkept p hp), h'⟩

def Op.nEvalDepth (s : ProcInterp) : Op → ℕ
  | .other op => op.nEvalDepth s.cmds
  | _ => s.cmds.nEvalDepth

theorem define_retired (h : s.cmds.Rooted) {xProc : Pointer} {mem : CmdInterp.CreateMemory}
    {zName : Bytes} (hrun : s.define xProc mem zName = some s') :
    DefnsKept s s' ∧ Retired (fun c => s.cmds.commandAt (cString zName) = some c) s.cmds s'.cmds ∧
      s'.cmds.nEvalDepth = s.cmds.nEvalDepth := by
  obtain ⟨cmds, r, cmds₁, hcreate, hcopy, rfl⟩ := define_cases hrun
  have hcreated := (h.carried fun c => s.cmds.commandAt (cString zName) = some c).createCommand
    ⟨trivial, fun _ _ _ _ => trivial⟩ (fun _ => id) hcreate
  have hcarried := hcreated.setCommandCopy (fun _ _ _ _ => trivial) hcopy
  exact ⟨defnsKept_allocDefn s _, h.of_carried hcarried, hcarried.tree.depth⟩

theorem nsImport_retired (h : s.cmds.Rooted) {mem : ℕ → CopyMemory} {zPattern : Bytes}
    {bForce : Bool} (hrun : s.nsImport mem zPattern bForce = some s') :
    DefnsKept s s' ∧ Retired (fun c => bForce = true ∧ s.Overwritten zPattern c) s.cmds s'.cmds ∧
      s'.cmds.nEvalDepth = s.cmds.nEvalDepth := by
  have hcarried := h.carried fun c => bForce = true ∧ s.Overwritten zPattern c
  rcases nsImport_cases hrun with rfl | ⟨b, zNs, zTail, pSrcNs, paCmd, hsplit, hfind, -, hloop⟩
  · exact ⟨fun _ hp => hp, h.of_carried hcarried, rfl⟩
  · have hsource : s.cmds.importSource zPattern = some (pSrcNs, zTail) := by
      simp [CmdInterp.importSource, hsplit, hfind]
    obtain ⟨hkept, hcarried'⟩ := importLoop_carried paCmd.keys_nodup hcarried
      (fun c pSrc zName _ hforce hmatch hsrc hdst =>
        ⟨hforce, pSrcNs, zTail, zName, pSrc, hsource, hsrc, hmatch, hdst⟩) hloop
    exact ⟨hkept, h.of_carried hcarried', hcarried'.tree.depth⟩

theorem callProc_invoked {zName : Bytes} (hrun : s.callProc zName = some s') :
    (∀ p, s.invoked zName = some p → ∃ d, s.defns p = some d) ∧
      ∃ pCurrentNs, s' = { s with cmds := { s.cmds with pCurrentNs := pCurrentNs } } := by
  unfold invoked
  rcases callProc_cases hrun with ⟨rfl, hnot⟩ | ⟨c, cmd, d, hfind, hc, hproc, hd, rfl⟩
  · refine ⟨fun p hp => ?_, s'.cmds.pCurrentNs, rfl⟩
    split at hp
    · rename_i c hfind
      obtain ⟨cmd, hc, hcontext⟩ := bind_eq_some_iff.mp hp
      exact absurd (ite_none_right_eq_some.mp hcontext).1 (hnot c cmd hfind hc)
    · cases hp
  · exact ⟨by simp [hfind, hc, hproc, hd], _, rfl⟩

theorem run_retired (h : s.cmds.Rooted) {op : Op}
    (hop : ∀ mem zPattern bForce, op ≠ .other (.nsImport mem zPattern bForce))
    (hrun : op.run s = some s') :
    DefnsKept s s' ∧ Retired (op.Retires s) s.cmds s'.cmds ∧
      s'.cmds.nEvalDepth = op.nEvalDepth s := by
  cases op with
  | proc mem zName => exact define_retired h hrun
  | nproc mem zName => exact define_retired h hrun
  | nsImport mem zPattern bForce => exact nsImport_retired h hrun
  | callProc zName =>
    obtain ⟨-, pCurrentNs, rfl⟩ := callProc_invoked hrun
    exact ⟨fun _ hp => hp, ⟨h.setCurrent pCurrentNs, fun c cmd hc => .inr ⟨cmd, hc, rfl, rfl⟩⟩, rfl⟩
  | other op =>
    obtain ⟨⟨cmds, e⟩, hop', rfl⟩ := map_eq_some_iff.mp hrun
    obtain ⟨hretired, hdepth⟩ := h.ran (CmdInterp.ran_of_run hop')
      fun mem zPattern bForce heq => hop mem zPattern bForce (congrArg Op.other heq)
    exact ⟨fun _ hp => hp, hretired, hdepth⟩

end ProcInterp

/-! ## The invariant -/

namespace Invocations

open CmdInterp (ampleMemory)
open ProcInterp (Op)

def Counted (chain : List ChainItem) (nEvalDepth : ℕ) : Prop :=
  Balanced chain ∧ evals chain ≤ nEvalDepth

structure Inv (s : Invocations) : Prop where
  rooted : s.procs.cmds.Rooted
  running : Counted s.chain s.nEvalDepth
  saved : ∀ x ∈ s.callers ++ s.suspended, Counted x.chain x.nEvalDepth
  live : s.DefnsLive

variable {s s' : Invocations}

theorem init_inv : Inv init :=
  ⟨⟨NsTree.fresh_init, ⟨_, rfl⟩, fun _ _ => rfl⟩, ⟨trivial, le_refl _⟩,
    fun _ hx => absurd hx not_mem_nil, fun _ hp => absurd hp not_mem_nil⟩

theorem owns_of_mem_freedDefns {procs : ProcInterp} {R : CmdId → Prop}
    (hretired : CmdInterp.Retired R s.procs.cmds procs.cmds) {p : Pointer}
    (hp : p ∈ s.procs.cmds.freedDefns procs.cmds) : ∃ c, R c ∧ s.Owns c p := by
  obtain ⟨c, -, hc⟩ := mem_filterMap.mp hp
  rcases hcmd : s.procs.cmds.commands c with _ | cmd
  · simp [hcmd] at hc
  · simp only [hcmd] at hc
    obtain ⟨⟨hdel, hchanged⟩, hcontext⟩ := ite_none_right_eq_some.mp hc
    cases hcontext
    refine ⟨c, ?_, cmd, hcmd, hdel, rfl⟩
    rcases hretired.kept c cmd hcmd with hR | ⟨cmd', hcmd', hxDel, hpContext⟩
    · exact hR
    · exact absurd (by rw [hcmd', map_some, hxDel, hpContext]) hchanged

theorem not_retires_enterEval {procs : ProcInterp} {c : CmdId} :
    ¬Op.Retires procs (.other .enterEval) c := by
  rintro (⟨-, hnone⟩ | ⟨_, _, _, _, hfalse, _⟩ | hfalse)
  · cases hnone
  · exact hfalse
  · exact hfalse

theorem nEvalDepth_of_retires {procs : ProcInterp} {op : Op} {c : CmdId}
    (hretires : op.Retires procs c) (hwait : ¬op.AtOnce procs) : op.nEvalDepth procs = 0 := by
  cases op with
  | other op =>
    cases op with
    | createCommand mem zName handler => exact absurd trivial hwait
    | deleteNamespace zName granted =>
      rcases hretires with
        hdestroyed | ⟨x, ns, k, -, ⟨q, hq, ⟨-, hzero, -⟩ | ⟨hglobal, -⟩⟩, -⟩ | hgone
      · exact hdestroyed.1
      · exact hzero
      · subst hglobal
        exact absurd hq hwait
      · exact absurd hgone.1 hwait
    | enterEval => exact absurd hretires not_retires_enterEval
    | leaveEval =>
      refine Nat.sub_eq_zero_of_le ?_
      rcases hretires with ⟨-, hnone⟩ | ⟨x, ns, k, -, hdoomed, -⟩ | hgone
      · cases hnone
      · exact hdoomed.1
      · exact hgone.1
    | _ =>
      rcases hretires with hdestroyed | ⟨_, _, _, _, hfalse, _⟩ | hfalse
      · exact hdestroyed.1
      · exact hfalse.elim
      · exact hfalse.elim
  | callProc zName => exact hretires.elim
  | _ => exact absurd trivial hwait

section

variable (h : Inv s)

include h

theorem Inv.ran {op : Op} {procs : ProcInterp} {chain : List ChainItem}
    (hop : ∀ mem zPattern bForce, op ≠ .other (.nsImport mem zPattern bForce))
    (hspares : s.Spares op) (hrun : op.run s.procs = some procs)
    (hcounted : Counted chain (op.nEvalDepth s.procs))
    (hsub : ∀ p ∈ invocationsOf chain, p ∈ invocationsOf s.chain) :
    Inv { s with procs := procs.freeDefns s.procs.cmds, chain := chain } := by
  obtain ⟨hkept, hretired, hdepth⟩ := ProcInterp.run_retired h.rooted hop hrun
  refine ⟨hretired.rooted, ⟨hcounted.1, hcounted.2.trans_eq hdepth.symm⟩, h.saved, fun p hp => ?_⟩
  have hactive : p ∈ s.active :=
    (mem_append.mp hp).elim (fun hp => mem_append_left _ (hsub p hp))
      fun hp => mem_append_right _ hp
  obtain ⟨d, hd⟩ := hkept p (h.live p hactive)
  refine ⟨d, (if_neg fun hfreed => ?_).trans hd⟩
  obtain ⟨c, hretires, howns⟩ := owns_of_mem_freedDefns hretired hfreed
  obtain ⟨helsewhere, honce⟩ := hspares c p hretires howns
  by_cases hwait : op.AtOnce s.procs
  · exact honce hwait hactive
  · -- No evaluation is left, and so no invocation on the chain that runs.
    have hzero := le_zero.mp (nEvalDepth_of_retires hretires hwait ▸ hcounted.2)
    have hnone : invocationsOf chain = [] := hcounted.1.invocationsOf_eq_nil hzero
    rcases mem_append.mp hp with hp | hp
    · rw [show invocationsOf chain = [] from hnone] at hp
      cases hp
    · exact helsewhere hp

theorem Inv.runOp {op : Op}
    (hop : ∀ mem zPattern bForce, op ≠ .other (.nsImport mem zPattern bForce))
    (hdepth : op.nEvalDepth s.procs = s.nEvalDepth) (hspares : s.Spares op)
    (hrun : s.runOp op = some s') : Inv s' := by
  obtain ⟨procs, hop', rfl⟩ := map_eq_some_iff.mp hrun
  exact h.ran hop hspares hop' ⟨h.running.1, h.running.2.trans_eq hdepth.symm⟩ fun _ => id

theorem Inv.enterEval (hrun : s.enterEval = some s') : Inv s' := by
  have hspares : s.Spares (.other .enterEval) := fun _ _ hretires =>
    absurd hretires not_retires_enterEval
  obtain ⟨s₁, hop, rfl⟩ := map_eq_some_iff.mp hrun
  obtain ⟨procs, hop', rfl⟩ := map_eq_some_iff.mp hop
  exact h.ran (by simp) hspares hop' ⟨⟨h.running.2, h.running.1⟩, succ_le_succ h.running.2⟩
    fun _ => id

theorem Inv.leaveEval (hspares : s.Spares (.other .leaveEval))
    (hrun : s.leaveEval = some s') : Inv s' := by
  unfold Invocations.leaveEval at hrun
  obtain ⟨hbalanced, hcount⟩ := h.running
  split at hrun
  · rename_i rest hchain
    obtain ⟨s₁, hop, rfl⟩ := map_eq_some_iff.mp hrun
    obtain ⟨procs, hop', rfl⟩ := map_eq_some_iff.mp hop
    rw [hchain] at hbalanced hcount
    exact h.ran (by simp) hspares hop' ⟨hbalanced.2, le_sub_one_of_lt hcount⟩
      fun p hp => hchain ▸ hp
  · exact some.inj hrun ▸ h

theorem Inv.callProc {zName : Bytes} (hrun : s.callProc zName = some s') : Inv s' := by
  unfold Invocations.callProc at hrun
  split at hrun
  · rename_i nSavedDepth rest hchain
    obtain ⟨procs, hcall, rfl⟩ := map_eq_some_iff.mp hrun
    obtain ⟨hdefn, pCurrentNs, rfl⟩ := ProcInterp.callProc_invoked hcall
    have hrooted := h.rooted.setCurrent pCurrentNs
    split
    · exact ⟨hrooted, h.running, h.saved, h.live⟩
    · rename_i pDefn hinvoked
      refine ⟨hrooted, ⟨⟨⟨_, _, hchain⟩, h.running.1⟩, h.running.2⟩, h.saved, fun p hp => ?_⟩
      rcases mem_cons.mp hp with rfl | hp
      · exact hdefn p hinvoked
      · exact h.live p hp
  · exact some.inj hrun ▸ h

theorem Inv.script {op : Op} (hspares : s.Spares op) (hrun : s.script op = some s') : Inv s' := by
  cases op with
  | callProc zName => exact h.callProc hrun
  | other op =>
    cases op with
    | enterEval => exact h.enterEval hrun
    | leaveEval => exact h.leaveEval hspares hrun
    | nsImport mem zPattern bForce =>
      cases hrun
      exact h
    | _ => exact h.runOp (by simp) rfl hspares hrun
  | _ => exact h.runOp (by simp) rfl hspares hrun

theorem Inv.switch (hrooted : s'.procs.cmds.Rooted)
    (hdefns : s'.procs.defns = s.procs.defns) (hrunning : Counted s'.chain s'.nEvalDepth)
    (hsaved : ∀ x ∈ s'.callers ++ s'.suspended, Counted x.chain x.nEvalDepth)
    (hactive : ∀ p ∈ s'.active, p ∈ s.active) : Inv s' :=
  ⟨hrooted, hrunning, hsaved, fun p hp => hdefns ▸ h.live p (hactive p hp)⟩

theorem Inv.discard {chain : List ChainItem} {n nEvalDepth : ℕ}
    (hchain : s.chain.drop n = chain) (hrunning : Counted chain nEvalDepth) :
    Inv { s with chain := chain, procs := s.procs.setDepth nEvalDepth } := by
  refine h.switch (h.rooted.setDepth nEvalDepth) rfl hrunning h.saved fun p hp => ?_
  rcases mem_append.mp hp with hp | hp
  · refine mem_append_left _ (mem_invocationsOf.mpr (mem_of_mem_drop (i := n) ?_))
    rw [hchain]
    exact mem_invocationsOf.mp hp
  · exact mem_append_right _ hp

theorem Inv.returnProc (hrun : s.returnProc = some s') : Inv s' := by
  unfold Invocations.returnProc at hrun
  obtain ⟨hbalanced, hcount⟩ := h.running
  split at hrun
  · rename_i pDefn rest hchain
    cases hrun
    rw [hchain] at hbalanced hcount
    exact h.discard (n := 1) (by rw [hchain]; rfl) ⟨hbalanced.2, hcount⟩
  · exact some.inj hrun ▸ h

theorem Inv.unwind {n : ℕ} (hrun : s.unwind n = some s') : Inv s' := by
  unfold Invocations.unwind at hrun
  have hbalanced := h.running.1.drop n
  split at hrun
  · rename_i nSavedDepth rest hchain
    cases hrun
    rw [hchain] at hbalanced
    have hrest : s.chain.drop (n + 1) = rest := by
      rw [← drop_drop, hchain]
      rfl
    exact h.discard hrest ⟨hbalanced.2, hbalanced.1⟩
  · rename_i hchain
    cases hrun
    exact h.discard hchain ⟨trivial, zero_le _⟩
  · exact some.inj hrun ▸ h

theorem Inv.coroCreate (hrun : s.coroCreate = some s') : Inv s' := by
  have hcreated : Inv { s with chain := .coroCreate :: s.chain } :=
    h.switch h.rooted rfl h.running h.saved fun _ => id
  exact hcreated.enterEval hrun

theorem Inv.coroEnd (hrun : s.coroEnd = some s') : Inv s' := by
  unfold Invocations.coroEnd at hrun
  obtain ⟨hbalanced, hcount⟩ := h.running
  split at hrun
  · rename_i rest hchain
    cases hrun
    rw [hchain] at hbalanced hcount
    exact h.discard (n := 1) (by rw [hchain]; rfl) ⟨hbalanced, hcount⟩
  · exact some.inj hrun ▸ h

end

theorem mem_active {p : Pointer} : p ∈ s.active ↔ p ∈ invocationsOf s.chain ∨
    (∃ x ∈ s.callers, p ∈ invocationsOf x.chain) ∨
      ∃ x ∈ s.suspended, p ∈ invocationsOf x.chain := by
  simp [active, elsewhere]

theorem coroYield_cases (hrun : s.coroYield = some s') :
    s' = s ∨
      (∃ nSavedDepth upper lower, s.chain = (.eval nSavedDepth :: upper) ++ .coroCreate :: lower ∧
        s' = ⟨s.procs.setDepth (s.nEvalDepth - 1), lower, s.callers,
          s.suspended ++ [⟨.eval nSavedDepth :: upper, s.nEvalDepth⟩]⟩) ∨
      ∃ caller callers, s.callers = caller :: callers ∧
        s' = ⟨s.procs.setDepth caller.nEvalDepth, caller.chain, callers,
          s.suspended ++ [⟨s.chain, s.nEvalDepth⟩]⟩ := by
  unfold Invocations.coroYield at hrun
  split at hrun
  · rename_i nSavedDepth rest hchain
    rcases cutChain_cases s.chain with hcut | ⟨upper, lower, hcut, hparts⟩
    · rcases hcallers : s.callers with _ | ⟨caller, callers⟩
      · simp only [hcut, hcallers, some.injEq] at hrun
        exact .inl hrun.symm
      · simp only [hcut, hcallers, some.injEq] at hrun
        exact .inr (.inr ⟨caller, callers, rfl, hrun.symm⟩)
    · rcases upper with _ | ⟨item, upper⟩
      · cases hchain.symm.trans hparts
      · obtain ⟨rfl, rfl⟩ := List.cons.inj (hchain.symm.trans hparts)
        simp only [hcut, some.injEq] at hrun
        exact .inr (.inl ⟨nSavedDepth, upper, lower, hparts, hrun.symm⟩)
  · exact .inl (some.inj hrun).symm

theorem Inv.coroYield (h : Inv s) (hrun : s.coroYield = some s') : Inv s' := by
  have hsaved := h.saved
  obtain ⟨hbalanced, hcount⟩ := h.running
  rcases coroYield_cases hrun with
    rfl | ⟨nSavedDepth, upper, lower, hchain, rfl⟩ | ⟨caller, callers, hcallers, rfl⟩
  · exact h
  · rw [hchain] at hbalanced hcount
    rw [evals_append] at hcount
    have hupper : Counted (.eval nSavedDepth :: upper) s.nEvalDepth :=
      ⟨hbalanced.upper, le_trans (le_add_right _ _) hcount⟩
    have hlower : Counted lower (s.nEvalDepth - 1) := by
      refine ⟨hbalanced.lower, ?_⟩
      simp only [evals] at hcount
      omega
    refine h.switch (h.rooted.setDepth _) rfl hlower (fun x hx => ?_) fun p hp => ?_
    · rw [← append_assoc] at hx
      rcases mem_append.mp hx with hx | hx
      · exact hsaved x hx
      · obtain rfl := mem_singleton.mp hx
        exact hupper
    · rw [mem_active] at hp ⊢
      have hpart : p ∈ invocationsOf (.eval nSavedDepth :: upper) ∨ p ∈ invocationsOf lower →
          p ∈ invocationsOf s.chain := by
        simp only [mem_invocationsOf, hchain, mem_append, mem_cons]
        tauto
      rcases hp with hp | hp | ⟨x, hx, hp⟩
      · exact .inl (hpart (.inr hp))
      · exact .inr (.inl hp)
      · rcases mem_append.mp hx with hx | hx
        · exact .inr (.inr ⟨x, hx, hp⟩)
        · obtain rfl := mem_singleton.mp hx
          exact .inl (hpart (.inl hp))
  · rw [hcallers] at hsaved
    refine h.switch (h.rooted.setDepth _) rfl (hsaved caller mem_cons_self)
      (fun x hx => ?_) fun p hp => ?_
    · rw [← append_assoc] at hx
      rcases mem_append.mp hx with hx | hx
      · exact hsaved x (mem_cons_of_mem caller hx)
      · obtain rfl := mem_singleton.mp hx
        exact h.running
    · rw [mem_active] at hp ⊢
      rw [hcallers]
      rcases hp with hp | ⟨x, hx, hp⟩ | ⟨x, hx, hp⟩
      · exact .inr (.inl ⟨caller, mem_cons_self, hp⟩)
      · exact .inr (.inl ⟨x, mem_cons_of_mem caller hx, hp⟩)
      · rcases mem_append.mp hx with hx | hx
        · exact .inr (.inr ⟨x, hx, hp⟩)
        · obtain rfl := mem_singleton.mp hx
          exact .inl hp

theorem Inv.resume (h : Inv s) {i : ℕ} (hrun : s.resume i = some s') : Inv s' := by
  unfold Invocations.resume at hrun
  have hsaved := h.saved
  split at hrun
  · exact some.inj hrun ▸ h
  · rename_i saved hi
    cases hrun
    have hmem : saved ∈ s.suspended := mem_of_getElem? hi
    have hkept : ∀ {x}, x ∈ s.suspended.eraseIdx i → x ∈ s.suspended := mem_of_mem_eraseIdx
    refine h.switch (h.rooted.setDepth _) rfl
      (hsaved saved (mem_append_right _ hmem)) (fun x hx => ?_) fun p hp => ?_
    · rcases mem_append.mp hx with hx | hx
      · rcases mem_cons.mp hx with rfl | hx
        · exact h.running
        · exact hsaved x (mem_append_left _ hx)
      · exact hsaved x (mem_append_right _ (hkept hx))
    · rw [mem_active] at hp ⊢
      rcases hp with hp | ⟨x, hx, hp⟩ | ⟨x, hx, hp⟩
      · exact .inr (.inr ⟨saved, hmem, hp⟩)
      · rcases mem_cons.mp hx with rfl | hx
        · exact .inl hp
        · exact .inr (.inl ⟨x, hx, hp⟩)
      · exact .inr (.inr ⟨x, hkept hx, hp⟩)

theorem Inv.resumeEnd (h : Inv s) (hrun : s.resumeEnd = some s') : Inv s' := by
  unfold Invocations.resumeEnd at hrun
  have hsaved := h.saved
  split at hrun
  · rename_i caller callers hchain hcallers
    cases hrun
    rw [hcallers] at hsaved
    refine h.switch (h.rooted.setDepth _) rfl (hsaved caller mem_cons_self)
      (fun x hx => hsaved x (mem_cons_of_mem caller hx)) fun p hp => ?_
    rw [mem_active] at hp ⊢
    rw [hcallers]
    rcases hp with hp | ⟨x, hx, hp⟩ | hp
    · exact .inr (.inl ⟨caller, mem_cons_self, hp⟩)
    · exact .inr (.inl ⟨x, mem_cons_of_mem caller hx, hp⟩)
    · exact .inr (.inr hp)
  · exact some.inj hrun ▸ h

theorem Inv.run (h : Inv s) {m : Move} (hm : m.Allowed s) (hrun : m.run s = some s') : Inv s' := by
  cases m with
  | script op => exact h.script hm hrun
  | returnProc => exact h.returnProc hrun
  | unwind n => exact h.unwind hrun
  | coroCreate => exact h.coroCreate hrun
  | coroEnd => exact h.coroEnd hrun
  | coroYield => exact h.coroYield hrun
  | resume i => exact h.resume hrun
  | resumeEnd => exact h.resumeEnd hrun

def AllowedMove (s : Option Invocations) (m : Move) : Prop := ∀ s₁, s = some s₁ → m.Allowed s₁

/-- In every run of allowed moves, every active invocation has its definition. -/
theorem defnsLive_of_allowed (hreach : ReachableBy step AllowedMove (some init) (some s)) :
    s.DefnsLive := by
  have h : Inv s := hreach.invariant_some init_inv (fun _ => rfl) fun s₁ _ _ h hm hrun =>
    h.run (hm s₁ rfl) hrun
  exact h.live

def deletesItself : List Move :=
  [.script (.other .enterEval),
    .script (.proc ampleMemory (ascii "p")),
    .script (.callProc (ascii "p")),
    .script (.other .enterEval),
    .script (.other (.renameCommand ⟨ampleMemory.namespaces, true, true⟩ (ascii "p") (ascii "q"))),
    .script (.other (.renameCommand ⟨ampleMemory.namespaces, true, true⟩ (ascii "q") []))]

theorem defnsLive_deletesItself :
    ∃ s, deletesItself.foldl step (some init) = some s ∧ s.DefnsLive ∧ s.active = [1] ∧
      s.procs.cmds.pendingCmd = [0] := by
  obtain ⟨s, hs⟩ : ∃ s, deletesItself.foldl step (some init) = some s :=
    isSome_iff_exists.mp (by decide)
  have hactive : (deletesItself.foldl step (some init)).map
      (fun s => (s.active, s.procs.cmds.pendingCmd)) = some ([1], [0]) := by decide
  have hnew : ((deletesItself.take 1).foldl step (some init)).map
      (fun s => s.procs.cmds.commandAt (cString (ascii "p"))) = some none := by decide
  have hevaluating : ((deletesItself.take 5).foldl step (some init)).map nEvalDepth =
      some 2 := by decide
  have hquiet : ∀ {o : Option Invocations} {op : Op}, (∀ s c, ¬op.Retires s c) →
      AllowedMove o (.script op) :=
    fun hop s₁ _ c _ hretires => absurd hretires (hop s₁.procs c)
  have hrename : ∀ (s : CmdInterp) mem zOld b zNew c,
      ¬(s.nEvalDepth = 0 ∧ (CmdInterp.Op.renameCommand mem zOld (b :: zNew)).deleted s = some c ∨
        s.GoesAlong (.renameCommand mem zOld (b :: zNew)) c) := by
    rintro s mem zOld b zNew c (⟨-, hnone⟩ | ⟨_, _, _, _, hfalse, _⟩ | hfalse)
    · cases hnone
    · exact hfalse
    · exact hfalse
  have hreach : ReachableBy step AllowedMove (some init) (some s) := by
    rw [← hs]
    refine ReachableBy.foldl .init ⟨hquiet fun _ _ => not_retires_enterEval, ?_,
      hquiet fun _ _ => id, hquiet fun _ _ => not_retires_enterEval,
      hquiet fun s c => hrename s.cmds _ _ _ _ c, ?_, trivial⟩
    · intro s₁ hs₁ c p hretires _
      have hs₁ : (deletesItself.take 1).foldl step (some init) = some s₁ := hs₁
      rw [hs₁, map_some, some.injEq] at hnew
      cases hnew.symm.trans hretires
    · -- The deletion waits for the end of the evaluation.
      intro s₁ hs₁ c p hretires _
      have hs₁ : (deletesItself.take 5).foldl step (some init) = some s₁ := hs₁
      rw [hs₁, map_some, some.injEq] at hevaluating
      rcases hretires with ⟨hzero, -⟩ | ⟨_, _, _, _, hfalse, _⟩ | hfalse
      · cases hevaluating.symm.trans hzero
      · exact hfalse.elim
      · exact hfalse.elim
  rw [hs, map_some, some.injEq] at hactive
  obtain ⟨hone, hpending⟩ := Prod.mk.inj hactive
  exact ⟨s, hs, defnsLive_of_allowed hreach, hone, hpending⟩

def definesItself : List Move :=
  [.script (.other .enterEval),
    .script (.proc ampleMemory (ascii "p")),
    .script (.callProc (ascii "p")),
    .script (.other .enterEval),
    .script (.proc ampleMemory (ascii "p"))]

theorem replacedDefn_not_live : ¬∀ s, Reachable step (some init) (some s) → s.DefnsLive := by
  intro hall
  obtain ⟨s, hs⟩ : ∃ s, definesItself.foldl step (some init) = some s :=
    isSome_iff_exists.mp (by decide)
  have hfreed : (definesItself.foldl step (some init)).map
      (fun s => (s.active, (s.procs.defns 1).isNone)) = some ([1], true) := by decide
  have hreach : Reachable step (some init) (some s) := hs ▸ reachable_foldl _ _ _
  rw [hs, map_some, some.injEq] at hfreed
  obtain ⟨hactive, hnone⟩ := Prod.mk.inj hfreed
  obtain ⟨d, hd⟩ := hall s hreach 1 (by simp [hactive])
  simp [hd] at hnone

end Invocations

end Th8
