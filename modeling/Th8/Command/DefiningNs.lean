import Th8.Command.Carried
import Th8.Command.Pruning

/-!
# Defining namespaces stay allocated

The invariant of runs in which no namespace is released that stays current or that a
procedure which stays was defined in.
-/

namespace Th8

open Support Option

namespace ProcInterp

open CmdInterp (Carried Deleted ampleMemory)

def Placed (s : ProcInterp) (t : NsTree) (xProc pContext : Pointer) : Prop :=
  IsProc xProc → pContext < s.nextDefn ∧
    ∀ p x, s.defns pContext = some p → p.pDefNs = some x → ∃ ns, t.namespaces x = some ns

def Sited (s : ProcInterp) (t : NsTree) (xProc pContext xCopy : Pointer) : Prop :=
  s.Placed t xProc pContext ∧ (xCopy = 0 ∨ xCopy = procCopy)

structure Inv (s : ProcInterp) : Prop where
  fresh : s.cmds.toNsTree.Fresh
  root : ∃ ns, s.cmds.namespaces globalNs = some ns
  current : ∃ ns, s.cmds.namespaces s.cmds.pCurrentNs = some ns
  record : ∀ c cmd, s.cmds.commands c = some cmd →
    s.Sited s.cmds.toNsTree cmd.xProc cmd.pContext cmd.xCopy
  unused : ∀ c, s.cmds.nextCmd ≤ c → s.cmds.commands c = none
  null : s.defns 0 = none
  pos : 0 < s.nextDefn

variable {s s' : ProcInterp}

theorem Inv.defNsLive (h : Inv s) : s.DefNsLive := by
  refine ⟨?_, h.current⟩
  rintro c x ⟨cmd, p, hc, hproc, hp, hx⟩
  exact ((h.record c cmd hc).1 hproc).2 p x hp hx

theorem init_inv : Inv init := by
  refine ⟨NsTree.fresh_init, ⟨_, rfl⟩, ⟨_, rfl⟩, fun c cmd hc => ?_, fun _ _ => rfl, rfl,
    Nat.one_pos⟩
  simp [init, CmdInterp.init] at hc

theorem Inv.carried (h : Inv s) : Carried s.cmds (s.Sited s.cmds.toNsTree) (fun _ => True) s.cmds :=
  .refl h.fresh (h.fresh.lt_nextNs h.root.choose_spec) h.record h.unused

theorem Inv.of_carried (h : Inv s)
    (hcarried : Carried s.cmds (s'.Sited s.cmds.toNsTree) (fun _ => True) s'.cmds)
    (hnull : s'.defns 0 = none) (hpos : 0 < s'.nextDefn) : Inv s' := by
  have hold : ∀ {x ns}, s.cmds.namespaces x = some ns →
      ∃ ns', s'.cmds.namespaces x = some ns' := fun hx =>
    hcarried.tree.old _ _ (h.fresh.lt_nextNs hx) hx
  refine ⟨hcarried.tree.fresh, hold h.root.choose_spec, ?_, fun c cmd hc => ?_,
    hcarried.unused, hnull, hpos⟩
  · obtain ⟨ns, hns⟩ := h.current
    rw [hcarried.tree.current]
    exact hold hns
  · obtain ⟨hplaced, hcopy⟩ := hcarried.record c cmd hc
    refine ⟨fun hproc => ⟨(hplaced hproc).1, fun p x hp hx => ?_⟩, hcopy⟩
    obtain ⟨ns, hns⟩ := (hplaced hproc).2 p x hp hx
    exact hold hns

theorem Placed.allocDefn {t : NsTree} {xProc pContext : Pointer}
    (h : s.Placed t xProc pContext) (d : ProcDefn) :
    (s.allocDefn d).Placed t xProc pContext := by
  intro hproc
  obtain ⟨hlt, hlive⟩ := h hproc
  refine ⟨Nat.lt_succ_of_lt hlt, fun p x hp hx => hlive p x ?_ hx⟩
  exact (Function.update_of_ne (Nat.ne_of_lt hlt) ..).symm.trans hp

theorem placed_nextDefn {t : NsTree} {d : ProcDefn} (xProc : Pointer)
    (hd : ∀ x, d.pDefNs = some x → ∃ ns, t.namespaces x = some ns) :
    (s.allocDefn d).Placed t xProc s.nextDefn := by
  intro _
  refine ⟨Nat.lt_succ_self _, fun p x hp hx => hd x ?_⟩
  have hself : Function.update s.defns s.nextDefn (some d) s.nextDefn = some p := hp
  rw [Function.update_self, some.injEq] at hself
  exact hself ▸ hx

theorem Inv.null_allocDefn (h : Inv s) (d : ProcDefn) : (s.allocDefn d).defns 0 = none :=
  (Function.update_of_ne (Nat.ne_of_lt h.pos) ..).trans h.null

/-! ## Operations -/

variable {zName : Bytes}

theorem Inv.define (h : Inv s) {xProc : Pointer} {mem : CmdInterp.CreateMemory}
    (hrun : s.define xProc mem zName = some s') : Inv s' := by
  obtain ⟨cmds, r, cmds₁, hcreate, hcopy, rfl⟩ := define_cases hrun
  have hnew := placed_nextDefn (s := s) (t := s.cmds.toNsTree)
    (d := ⟨some s.cmds.pCurrentNs⟩) xProc fun x hx => some.inj hx ▸ h.current
  have hold : Carried s.cmds ((s.allocDefn ⟨some s.cmds.pCurrentNs⟩).Sited s.cmds.toNsTree)
      (fun _ => True) s.cmds := h.carried.mono fun _ _ _ hp => ⟨hp.1.allocDefn _, hp.2⟩
  have hcarried := hold.createCommand ⟨⟨hnew, .inl rfl⟩, fun _ _ _ hp => ⟨hnew, hp.2⟩⟩
    (fun _ _ => trivial) hcreate
  exact h.of_carried (hcarried.setCommandCopy (fun _ _ _ hp => ⟨hp.1, .inr rfl⟩) hcopy)
    (h.null_allocDefn _) (Nat.succ_pos _)

theorem Inv.callProc (h : Inv s) (hrun : s.callProc zName = some s') : Inv s' := by
  rcases callProc_cases hrun with ⟨rfl, -⟩ | ⟨c, cmd, p, -, hc, hproc, hp, rfl⟩
  · exact h
  · refine ⟨⟨h.fresh.free, h.fresh.kids, h.fresh.pending⟩, h.root, ?_, h.record, h.unused,
      h.null, h.pos⟩
    rcases hx : p.pDefNs with _ | x
    · exact h.current
    · exact ((h.record c cmd hc).1 hproc).2 p x hp hx

theorem Inv.copyDefn (h : Inv s) {mem : CopyMemory} {c : CmdId} {src : CommandRecord}
    (hsrc : s.cmds.commands c = some src)
    (hrun : s.copyDefn (s.copyContext mem src) src = some s') :
    (∀ x p k, s.Sited s.cmds.toNsTree x p k → s'.Sited s.cmds.toNsTree x p k) ∧
      s'.Placed s.cmds.toNsTree src.xProc (CmdInterp.importedCommand
        ⟨mem.pDst, mem.pNew, s.copyContext mem src⟩ src).pContext ∧
      s'.defns 0 = none ∧ 0 < s'.nextDefn := by
  obtain ⟨hplaced, hcopy⟩ := h.record c src hsrc
  rcases copyDefn_cases hrun with ⟨rfl, hshared⟩ | ⟨hproc, hsome, d, hd, rfl⟩
  · refine ⟨fun _ _ _ => id, ?_, h.null, h.pos⟩
    rcases hcopy with hzero | hproc
    · simpa only [CmdInterp.importedCommand, hzero, if_true] using hplaced
    · have hnull := hshared.resolve_left (not_not.mpr hproc)
      have hne : src.xCopy ≠ 0 := by simp [hproc, procCopy]
      simp only [CmdInterp.importedCommand, if_neg hne, hnull]
      intro _
      refine ⟨h.pos, fun p x hp _ => ?_⟩
      rw [h.null] at hp
      cases hp
  · refine ⟨fun _ _ _ hp => ⟨hp.1.allocDefn d, hp.2⟩, ?_, h.null_allocDefn d, Nat.succ_pos _⟩
    have hne : src.xCopy ≠ 0 := by simp [hproc, procCopy]
    have hnext : s.copyContext mem src = s.nextDefn := by
      unfold ProcInterp.copyContext at hsome ⊢
      split_ifs at hsome ⊢
      · exact absurd hproc ‹_›
      · exact absurd rfl hsome
      · rfl
    simp only [CmdInterp.importedCommand, if_neg hne, hnext]
    intro hisProc
    exact placed_nextDefn src.xProc (fun x hx => (hplaced hisProc).2 d x hd hx) hisProc

variable {bForce : Bool}

section

variable (h : Inv s)

include h

theorem Inv.importCallback {pSrcNs : NsId} {zImportPat : Bytes} {mem : CopyMemory}
    {go : Bool} (hrun : s.importCallback pSrcNs zImportPat bForce mem zName = some (s', go)) :
    Inv s' := by
  obtain ⟨pContext, cmds, hcall, hcopied⟩ := importCallback_cases hrun
  have hcases := h.carried.importCallback (fun _ _ _ _ _ _ => trivial) hcall
  rcases hcopied with ⟨rfl, hnone⟩ | ⟨src, s₁, hsrc, rfl, hcopy, rfl⟩
  · rcases hcases with hsame | ⟨hne, pSrc, hlook, hnew⟩
    · exact h.of_carried hsame h.null h.pos
    · refine h.of_carried (hnew.mono ?_) h.null h.pos
      rintro x p k (hp | ⟨src, hsrc, -⟩)
      · exact hp
      · have hfound := hnone.resolve_right hne
        simp [importSrc, hlook, hsrc] at hfound
  · obtain ⟨pSrc, hjoin, hc⟩ := bind_eq_some_iff.mp hsrc
    obtain ⟨hold, hplaced, hnull, hpos⟩ := h.copyDefn hc hcopy
    rcases hcases with hsame | ⟨-, pSrc', hlook, hnew⟩
    · exact h.of_carried (hsame.mono hold) hnull hpos
    · obtain rfl : pSrc = pSrc' :=
        some.inj (some.inj ((join_eq_some_iff.mp hjoin).symm.trans hlook))
      refine h.of_carried (hnew.mono ?_) hnull hpos
      rintro x p k (hp | ⟨src', hc', rfl, rfl, rfl⟩)
      · exact hold x p k hp
      · obtain rfl := some.inj (hc.symm.trans hc')
        exact ⟨hplaced, (h.record pSrc src hc).2⟩

theorem Inv.importLoop {pSrcNs : NsId} {zImportPat : Bytes} {mem : ℕ → CopyMemory}
    {names : List Bytes} (hrun : importLoop pSrcNs zImportPat bForce mem s names = some s') :
    Inv s' := by
  induction names generalizing s with
  | nil =>
    cases hrun
    exact h
  | cons zName rest ih =>
    obtain ⟨s₁, go, hcall, rfl | hrest⟩ := importLoop_cases hrun
    · exact h.importCallback hcall
    · exact ih (h.importCallback hcall) hrest

theorem Inv.nsImport {mem : ℕ → CopyMemory} {zPattern : Bytes}
    (hrun : s.nsImport mem zPattern bForce = some s') : Inv s' := by
  rcases nsImport_cases hrun with rfl | ⟨_, _, _, _, _, -, -, -, hloop⟩
  · exact h
  · exact h.importLoop hloop

theorem Inv.of_deleted {op : CmdInterp.Op} {cmds : CmdInterp}
    (hop : Op.Permitted s (.other op)) (hdel : Deleted s.cmds cmds op)
    (hcur : s.cmds.currentAfter op = s.cmds.pCurrentNs ∨ s.cmds.currentAfter op = globalNs) :
    Inv { s with cmds := cmds } := by
  obtain ⟨-, hcurrent, hprocs⟩ := hop
  have hroot := hdel.kept _ _ h.root.choose_spec (CmdInterp.not_doomed_globalNs h.fresh op)
  refine ⟨hdel.fresh, hroot, ?_, fun c cmd hc => ?_, fun c hc => ?_, h.null, h.pos⟩
  · change ∃ ns, cmds.namespaces cmds.pCurrentNs = some ns
    rw [hdel.current]
    rcases hcur with heq | heq
    · rw [heq] at hcurrent ⊢
      exact hdel.kept _ _ h.current.choose_spec hcurrent
    · rw [heq]
      exact hroot
  · obtain ⟨hold, hstays⟩ := (hdel.commands c cmd).mp hc
    obtain ⟨hplaced, hcopy⟩ := h.record c cmd hold
    refine ⟨fun hproc => ⟨(hplaced hproc).1, fun p x hp hx => ?_⟩, hcopy⟩
    obtain ⟨ns, hns⟩ := (hplaced hproc).2 p x hp hx
    exact hdel.kept x ns hns fun hdoomed =>
      hstays (hprocs c x ⟨cmd, p, hold, hproc, hp, hx⟩ hdoomed)
  · have hc : s.cmds.nextCmd ≤ c := hdel.nextCmd ▸ hc
    rcases hcmd : cmds.commands c with _ | cmd
    · rfl
    · exact absurd (((hdel.commands c cmd).mp hcmd).1.symm.trans (h.unused c hc)) (by simp)

theorem Inv.other {op : CmdInterp.Op} {cmds : CmdInterp}
    (hop : Op.Permitted s (.other op)) (hran : CmdInterp.Ran s.cmds cmds op) :
    Inv { s with cmds := cmds } := by
  have hgrowing : op.Growing → Inv { s with cmds := cmds } := by
    intro hgrowing
    have hkeeps : op.Keeps (s.Sited s.cmds.toNsTree) := by
      cases op with
      | createCommand mem zName handler =>
        have hforeign : s.Placed s.cmds.toNsTree handler.xProc handler.pContext :=
          fun hproc => absurd hproc hop.1.1
        exact ⟨⟨hforeign, .inl rfl⟩, fun _ _ _ hp => ⟨hforeign, hp.2⟩⟩
      | setCommandCopy zName xCopy => exact fun _ _ _ hp => ⟨hp.1, hop.1⟩
      | _ => trivial
    exact h.of_carried (h.carried.ran hgrowing hkeeps (fun _ _ => trivial) hran) h.null h.pos
  cases op with
  | deleteNamespace zName granted =>
    obtain ⟨r, hrun⟩ := hran
    refine h.of_deleted hop (CmdInterp.deleted_deleteNamespace h.fresh hrun) ?_
    exact (ite_eq_or_eq ..).symm
  | nsImport mem zPattern bForce => exact hop.1.elim
  | setCurrent pNs =>
    obtain ⟨hlive, rfl⟩ := hran
    exact ⟨⟨h.fresh.free, h.fresh.kids, h.fresh.pending⟩, h.root, hlive, h.record,
      h.unused, h.null, h.pos⟩
  | enterEval =>
    obtain rfl := hran
    exact ⟨⟨h.fresh.free, h.fresh.kids, h.fresh.pending⟩, h.root, h.current, h.record,
      h.unused, h.null, h.pos⟩
  | leaveEval =>
    rcases hran with ⟨hdepth, hrun⟩ | ⟨-, rfl⟩
    · exact h.of_deleted hop (CmdInterp.deleted_leaveEval h.fresh hdepth hrun) (.inl rfl)
    · exact ⟨⟨h.fresh.free, h.fresh.kids, h.fresh.pending⟩, h.root, h.current, h.record,
        h.unused, h.null, h.pos⟩
  | _ => exact hgrowing trivial

theorem Inv.run {op : Op} (hop : op.Permitted s) (hrun : op.run s = some s') : Inv s' := by
  cases op with
  | proc mem zName => exact h.define hrun
  | nproc mem zName => exact h.define hrun
  | nsImport mem zPattern bForce => exact h.nsImport hrun
  | callProc zName => exact h.callProc hrun
  | other op =>
    obtain ⟨⟨cmds, e⟩, hop', rfl⟩ := map_eq_some_iff.mp hrun
    exact h.other hop (CmdInterp.ran_of_run hop')

end

/-! ## Runs -/

def PermittedStep (s : Option ProcInterp) (op : Op) : Prop :=
  ∀ s₁, s = some s₁ → op.Permitted s₁

def ampleCopy : ℕ → CopyMemory := fun _ => ⟨true, true, true, 0⟩

/-- A namespace is made and deleted again.  Then, within an evaluation, a procedure is
exported from `n`, imported, moved to another namespace and called, and `n` is deleted. -/
def importing : List Op :=
  [.other (.createNamespace ampleMemory.namespaces (ascii "m")),
    .other (.deleteNamespace (ascii "m") true),
    .other .enterEval,
    .other (.createNamespace ampleMemory.namespaces (ascii "n")),
    .other (.setCurrent 2),
    .proc ampleMemory (ascii "p"),
    .other (.nsExport [] (ascii "*") true true),
    .other (.setCurrent globalNs),
    .nsImport ampleCopy (ascii "n::*") false,
    .other (.renameCommand ⟨ampleMemory.namespaces, true, true⟩ (ascii "p") (ascii "k::q")),
    .callProc (ascii "k::q"),
    .other (.deleteNamespace (ascii "::n") true)]

/-- An imported procedure outlives the namespace that the original was defined in, and makes
it current when it is called. -/
def deletedThenCalled : List Op :=
  [.other .enterEval,
    .other (.createNamespace ampleMemory.namespaces (ascii "n")),
    .other (.setCurrent 1),
    .proc ampleMemory (ascii "p"),
    .other (.nsExport [] (ascii "*") true true),
    .other (.setCurrent globalNs),
    .nsImport ampleCopy (ascii "n::*") false,
    .other (.deleteNamespace (ascii "n") true),
    .other .leaveEval,
    .callProc (ascii "p")]

end ProcInterp

end Th8
