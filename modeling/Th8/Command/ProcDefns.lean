import Th8.Command.SubIndex

/-!
# Procedures and their defining namespaces

A procedure is a command whose context is a `Th8_ProcDefn`; it remembers the namespace that
was current when the procedure was defined, and the namespace becomes current when the
procedure is invoked.  An import copies the definition, a rename keeps it.

Of the definitions only that field is left, and their release goes with that of the
commands.  `none` is the use of a released record or of a null pointer.
-/

namespace Th8

open Support Option

def procCall1 : Pointer := 1

def nprocCall1 : Pointer := 2

def procDel : Pointer := 3

def procCopy : Pointer := 4

def IsProc (xProc : Pointer) : Prop := xProc = procCall1 ∨ xProc = nprocCall1

instance (xProc : Pointer) : Decidable (IsProc xProc) :=
  inferInstanceAs (Decidable (_ ∨ _))

structure ProcDefn where
  pDefNs : Option NsId
deriving DecidableEq

structure ProcInterp where
  cmds : CmdInterp
  defns : Memory Pointer ProcDefn
  nextDefn : Pointer

namespace ProcInterp

def init : ProcInterp := ⟨.init, fun _ => none, 1⟩

variable (s : ProcInterp)

def allocDefn (p : ProcDefn) : ProcInterp :=
  { s with
    defns := Function.update s.defns s.nextDefn (some p)
    nextDefn := s.nextDefn + 1 }

/-- The end of `proc_command` and `nproc_command`, with the arguments checked. -/
def define (xProc : Pointer) (mem : CmdInterp.CreateMemory) (zName : Bytes) : Option ProcInterp :=
  let s₁ := s.allocDefn ⟨some s.cmds.pCurrentNs⟩
  match s.cmds.createCommand mem (cString zName) ⟨xProc, s.nextDefn, procDel⟩ with
  | none => none
  | some (cmds, _) =>
    (cmds.setCommandCopy zName procCopy).map fun cmds₁ => { s₁ with cmds := cmds₁ }

/-- `proc_command`. -/
def proc (mem : CmdInterp.CreateMemory) (zName : Bytes) : Option ProcInterp :=
  s.define procCall1 mem zName

/-- `nproc_command`. -/
def nproc (mem : CmdInterp.CreateMemory) (zName : Bytes) : Option ProcInterp :=
  s.define nprocCall1 mem zName

/-- The switch in `proc_call_nr` and `nproc_call_nr`: the defining namespace becomes current.
The namespace that was current is restored by a move of its own. -/
def callProc (zName : Bytes) : Option ProcInterp :=
  match s.cmds.lookupCommand zName with
  | none => none
  | some none => some s
  | some (some pCmd) =>
    match s.cmds.commands pCmd with
    | none => none
    | some cmd =>
      if ¬IsProc cmd.xProc then some s
      else
        match s.defns cmd.pContext with
        | none => none
        | some p =>
          some { s with cmds := { s.cmds with
            pCurrentNs := p.pDefNs.getD s.cmds.pCurrentNs } }

/-- The requests for memory behind one imported command, and what an `xCopy` other than
`th8ProcCopy` returns. -/
structure CopyMemory where
  pDst : Bool
  pNew : Bool
  pDefn : Bool
  pContext : Pointer

def importSrc (pSrcNs : NsId) (zName : Bytes) : Option CommandRecord :=
  ((s.cmds.paCmd pSrcNs).lookup zName).join.bind s.cmds.commands

/-- What `xCopy` returns for a command. -/
def copyContext (mem : CopyMemory) (src : CommandRecord) : Pointer :=
  if src.xCopy ≠ procCopy then mem.pContext
  else if src.pContext = 0 ∨ !mem.pDefn then 0
  else s.nextDefn

/-- `th8CopyProcDefn`: the definition after it has returned `pContext`. -/
def copyDefn (pContext : Pointer) (src : CommandRecord) : Option ProcInterp :=
  if src.xCopy ≠ procCopy ∨ pContext = 0 then some s
  else (s.defns src.pContext).map s.allocDefn

/-- `th8ImportCallback`.  The context is copied where a record has been made. -/
def importCallback (pSrcNs : NsId) (zImportPat : Bytes) (bForce : Bool) (mem : CopyMemory)
    (zName : Bytes) : Option (ProcInterp × Bool) :=
  match s.importSrc pSrcNs zName with
  | none =>
    (s.cmds.importCallback pSrcNs zImportPat bForce ⟨mem.pDst, mem.pNew, 0⟩ zName).map
      fun r => ({ s with cmds := r.1 }, r.2)
  | some src =>
    let pContext := s.copyContext mem src
    match s.cmds.importCallback pSrcNs zImportPat bForce ⟨mem.pDst, mem.pNew, pContext⟩ zName with
    | none => none
    | some (cmds, go) =>
      if cmds.nextCmd = s.cmds.nextCmd then some ({ s with cmds := cmds }, go)
      else (s.copyDefn pContext src).map fun s₁ => ({ s₁ with cmds := cmds }, go)

def importLoop (pSrcNs : NsId) (zImportPat : Bytes) (bForce : Bool) (mem : ℕ → CopyMemory)
    (s : ProcInterp) : List Bytes → Option ProcInterp
  | [] => some s
  | zName :: rest =>
    match s.importCallback pSrcNs zImportPat bForce (mem rest.length) zName with
    | none => none
    | some (s₁, false) => some s₁
    | some (s₁, true) => importLoop pSrcNs zImportPat bForce mem s₁ rest

def nsImport (mem : ℕ → CopyMemory) (zPattern : Bytes) (bForce : Bool) : Option ProcInterp :=
  match splitQualName zPattern with
  | (some (c :: zNs), zTail) =>
    match s.cmds.findNamespace (c :: zNs) with
    | none => none
    | some none => some s
    | some (some pSrcNs) =>
      match s.cmds.cmdTable pSrcNs with
      | none => none
      | some paCmd => importLoop pSrcNs zTail bForce mem s paCmd.keys
  | _ => some s

/-- What scripts may do: define, import and invoke procedures, and whatever else the
operations on commands and namespaces do. -/
inductive Op where
  | proc (mem : CmdInterp.CreateMemory) (zName : Bytes)
  | nproc (mem : CmdInterp.CreateMemory) (zName : Bytes)
  | nsImport (mem : ℕ → CopyMemory) (zPattern : Bytes) (bForce : Bool)
  | callProc (zName : Bytes)
  | other (op : CmdInterp.Op)

def Op.run : Op → Option ProcInterp
  | .proc mem zName => s.proc mem zName
  | .nproc mem zName => s.nproc mem zName
  | .nsImport mem zPattern bForce => s.nsImport mem zPattern bForce
  | .callProc zName => s.callProc zName
  | .other op => (op.run s.cmds).map fun r => { s with cmds := r.1 }

def step (s : Option ProcInterp) (op : Op) : Option ProcInterp := s.bind fun s₁ => op.run s₁

/-! ## What the operations do -/

variable {s : ProcInterp} {s' : ProcInterp} {zName : Bytes} {pSrcNs : NsId} {zImportPat : Bytes}
  {bForce : Bool}

theorem define_cases {xProc : Pointer} {mem : CmdInterp.CreateMemory}
    (hrun : s.define xProc mem zName = some s') : ∃ cmds r cmds₁,
      s.cmds.createCommand mem (cString zName) ⟨xProc, s.nextDefn, procDel⟩ = some (cmds, r) ∧
        cmds.setCommandCopy zName procCopy = some cmds₁ ∧
          s' = { s.allocDefn ⟨some s.cmds.pCurrentNs⟩ with cmds := cmds₁ } := by
  unfold define at hrun
  split at hrun
  · cases hrun
  · rename_i cmds r hcreate
    obtain ⟨cmds₁, hcopy, rfl⟩ := map_eq_some_iff.mp hrun
    exact ⟨cmds, r, cmds₁, hcreate, hcopy, rfl⟩

theorem callProc_cases (hrun : s.callProc zName = some s') :
    (s' = s ∧ ∀ c cmd, s.cmds.lookupCommand zName = some (some c) →
        s.cmds.commands c = some cmd → ¬IsProc cmd.xProc) ∨
      ∃ c cmd p, s.cmds.lookupCommand zName = some (some c) ∧ s.cmds.commands c = some cmd ∧
        IsProc cmd.xProc ∧ s.defns cmd.pContext = some p ∧
          s' = { s with cmds := { s.cmds with
            pCurrentNs := p.pDefNs.getD s.cmds.pCurrentNs } } := by
  unfold callProc at hrun
  split at hrun
  · cases hrun
  · rename_i hfind
    exact .inl ⟨(some.inj hrun).symm, fun c cmd hc => by simp [hfind] at hc⟩
  · rename_i c hfind
    split at hrun
    · cases hrun
    · rename_i cmd hc
      split_ifs at hrun with hproc
      · split at hrun
        · cases hrun
        · rename_i p hp
          exact .inr ⟨c, cmd, p, hfind, hc, hproc, hp, (some.inj hrun).symm⟩
      · refine .inl ⟨(some.inj hrun).symm, fun c' cmd' hc' hcmd => ?_⟩
        obtain rfl := some.inj (some.inj (hfind.symm.trans hc'))
        exact some.inj (hc.symm.trans hcmd) ▸ hproc

theorem copyDefn_cases {pContext : Pointer} {src : CommandRecord}
    (hrun : s.copyDefn pContext src = some s') :
    (s' = s ∧ (src.xCopy ≠ procCopy ∨ pContext = 0)) ∨ (src.xCopy = procCopy ∧ pContext ≠ 0 ∧
      ∃ d, s.defns src.pContext = some d ∧ s' = s.allocDefn d) := by
  unfold copyDefn at hrun
  split_ifs at hrun with hshared
  · exact .inl ⟨(some.inj hrun).symm, hshared⟩
  · obtain ⟨d, hd, rfl⟩ := map_eq_some_iff.mp hrun
    obtain ⟨hproc, hsome⟩ := not_or.mp hshared
    exact .inr ⟨not_not.mp hproc, hsome, d, hd, rfl⟩

theorem importCallback_cases {mem : CopyMemory} {go : Bool}
    (hrun : s.importCallback pSrcNs zImportPat bForce mem zName = some (s', go)) :
    ∃ pContext cmds, s.cmds.importCallback pSrcNs zImportPat bForce
        ⟨mem.pDst, mem.pNew, pContext⟩ zName = some (cmds, go) ∧
      ((s' = { s with cmds := cmds } ∧
          (s.importSrc pSrcNs zName = none ∨ cmds.nextCmd = s.cmds.nextCmd)) ∨
        ∃ src s₁, s.importSrc pSrcNs zName = some src ∧ pContext = s.copyContext mem src ∧
          s.copyDefn pContext src = some s₁ ∧ s' = { s₁ with cmds := cmds }) := by
  unfold importCallback at hrun
  split at hrun
  · rename_i hsrc
    obtain ⟨⟨cmds, b⟩, hcall, heq⟩ := map_eq_some_iff.mp hrun
    cases heq
    exact ⟨_, cmds, hcall, .inl ⟨rfl, .inl hsrc⟩⟩
  · rename_i src hsrc
    dsimp only at hrun
    split at hrun
    · cases hrun
    · rename_i cmds b hcall
      split_ifs at hrun with hnext
      · cases hrun
        exact ⟨_, cmds, hcall, .inl ⟨rfl, .inr hnext⟩⟩
      · obtain ⟨s₁, hcopy, heq⟩ := map_eq_some_iff.mp hrun
        cases heq
        exact ⟨_, cmds, hcall, .inr ⟨src, s₁, hsrc, rfl, hcopy, rfl⟩⟩

theorem importLoop_cases {mem : ℕ → CopyMemory} {rest : List Bytes}
    (hrun : importLoop pSrcNs zImportPat bForce mem s (zName :: rest) = some s') : ∃ s₁ go,
      s.importCallback pSrcNs zImportPat bForce (mem rest.length) zName = some (s₁, go) ∧
        (s' = s₁ ∨ importLoop pSrcNs zImportPat bForce mem s₁ rest = some s') := by
  rw [importLoop] at hrun
  split at hrun
  · cases hrun
  · rename_i s₁ hcall
    exact ⟨s₁, false, hcall, .inl (some.inj hrun).symm⟩
  · rename_i s₁ hcall
    exact ⟨s₁, true, hcall, .inr hrun⟩

theorem nsImport_cases {mem : ℕ → CopyMemory} {zPattern : Bytes}
    (hrun : s.nsImport mem zPattern bForce = some s') :
    s' = s ∨ ∃ b zNs zTail pSrcNs paCmd, splitQualName zPattern = (some (b :: zNs), zTail) ∧
      s.cmds.findNamespace (b :: zNs) = some (some pSrcNs) ∧ s.cmds.cmdTable pSrcNs = some paCmd ∧
      importLoop pSrcNs zTail bForce mem s paCmd.keys = some s' := by
  unfold nsImport at hrun
  split at hrun
  · rename_i b zNs zTail hsplit
    split at hrun
    · cases hrun
    · exact .inl (some.inj hrun).symm
    · rename_i pSrcNs hfind
      split at hrun
      · cases hrun
      · rename_i paCmd htable
        exact .inr ⟨b, zNs, zTail, pSrcNs, paCmd, hsplit, hfind, htable, hrun⟩
  · exact .inl (some.inj hrun).symm

end ProcInterp

namespace CmdInterp

/-- The namespaces that an operation releases: what is below a namespace that is deleted
outside an evaluation, what is below the global one, and at the end of the last evaluation
what is below a namespace that waits. -/
def Doomed (s : CmdInterp) : Op → NsId → Prop
  | .deleteNamespace zName _, x =>
    ∃ q, s.findNamespace zName = some (some q) ∧
      ((q ≠ globalNs ∧ s.nEvalDepth = 0 ∧ ∃ t, s.toNsTree.unlink q = some t ∧
          Below Namespace.kids t.namespaces q x) ∨
        q = globalNs ∧ x ≠ globalNs ∧ ∃ ns, s.namespaces globalNs = some ns ∧
          ∃ c ∈ ns.kids, Below Namespace.kids s.namespaces c x)
  | .leaveEval, x =>
    s.nEvalDepth ≤ 1 ∧ ∃ q ∈ s.pendingNs, Below Namespace.kids s.namespaces q x
  | _, _ => False

/-- The commands that go with them, and with the table of the global namespace; at the end
of the last evaluation also those that wait. -/
def GoesAlong (s : CmdInterp) (op : Op) (c : CmdId) : Prop :=
  (∃ x ns k, s.namespaces x = some ns ∧ s.Doomed op x ∧ (s.paCmd x).lookup k = some (some c)) ∨
    match op with
    | .deleteNamespace zName _ =>
      s.findNamespace zName = some (some globalNs) ∧
        ∃ k, (s.paCmd globalNs).lookup k = some (some c)
    | .leaveEval => s.nEvalDepth ≤ 1 ∧ c ∈ s.pendingCmd
    | _ => False

def currentAfter (s : CmdInterp) : Op → NsId
  | .deleteNamespace zName _ =>
    if s.findNamespace zName = some (some s.pCurrentNs) ∨
        s.findNamespace zName = some (some globalNs) then globalNs
    else s.pCurrentNs
  | _ => s.pCurrentNs

/-- The command that an operation destroys at once: the one that a new command replaces,
and outside an evaluation the one that is deleted. -/
def Op.Destroys (s : CmdInterp) : Op → CmdId → Prop
  | .createCommand _ zName _, c => s.commandAt zName = some c
  | op, c => s.nEvalDepth = 0 ∧ op.deleted s = some c

/-- Nobody else makes procedures or copies contexts, and imports go through
`ProcInterp.nsImport`. -/
def Op.Foreign : Op → Prop
  | .createCommand _ _ h => ¬IsProc h.xProc ∧ h.xDel ≠ procDel
  | .setCommandCopy _ xCopy => xCopy = 0 ∨ xCopy = procCopy
  | .nsImport .. => False
  | _ => True

end CmdInterp

namespace ProcInterp

def DefinedIn (s : ProcInterp) (c : CmdId) (x : NsId) : Prop :=
  ∃ cmd p, s.cmds.commands c = some cmd ∧ IsProc cmd.xProc ∧
    s.defns cmd.pContext = some p ∧ p.pDefNs = some x

def Op.Permitted (s : ProcInterp) : Op → Prop
  | .other op =>
    op.Foreign ∧ ¬s.cmds.Doomed op (s.cmds.currentAfter op) ∧
      ∀ c x, s.DefinedIn c x → s.cmds.Doomed op x → s.cmds.GoesAlong op c
  | _ => True

/-- The current namespace and those that procedures were defined in are not released. -/
structure DefNsLive (s : ProcInterp) : Prop where
  procs : ∀ c x, s.DefinedIn c x → ∃ ns, s.cmds.namespaces x = some ns
  current : ∃ ns, s.cmds.namespaces s.cmds.pCurrentNs = some ns

end ProcInterp

end Th8
