import Th8.Command.FailedCreate
import Th8.Namespace.Growth

/-!
# Commands that are replaced

`Th8_CreateCommand` uses the record of an existing command again.  Here the record that
it leaves is compared with the one that a deletion of the command and a creation from
scratch leave.  Every field is set by hand but the copy hook.
-/

namespace Th8

open Support Option

/-! ## Addresses of namespaces -/

namespace NsTree

variable {t t' : NsTree}

def Addressed (t : NsTree) : Prop := ∀ x, t.nextNs ≤ x → t.namespaces x = none

theorem addressed_init : init.Addressed := fresh_init.free

variable {x : NsId}

theorem Addressed.lt_nextNs (h : t.Addressed) {ns : Namespace} (hx : t.namespaces x = some ns) :
    x < t.nextNs := by
  by_contra hge
  rw [h x (Nat.le_of_not_lt hge)] at hx
  cases hx

theorem Addressed.shrink (h : t.Addressed) (hnext : t'.nextNs = t.nextNs)
    (hgone : ∀ x, t.namespaces x = none → t'.namespaces x = none) : t'.Addressed :=
  fun x hx => hgone x (h x (hnext ▸ hx))

variable {q : NsId}

theorem Addressed.unlink (h : t.Addressed) (hrun : t.unlink q = some t') : t'.Addressed := by
  obtain ⟨⟨hnext, -⟩, -, hback⟩ := unlink_records hrun
  apply h.shrink hnext
  intro x hx
  cases hx' : t'.namespaces x with
  | none => rfl
  | some ns =>
    obtain ⟨ns₀, hns₀, -⟩ := hback x ns hx'
    rw [hx] at hns₀
    cases hns₀

theorem none_of_release {fuel : ℕ} {m m' : Memory NsId Namespace}
    (hrun : release Namespace.kids fuel m q = some m') (hx : m x = none) : m' x = none := by
  by_cases hbelow : Below Namespace.kids m q x
  · exact (cleared_of_release hrun x).1 hbelow
  · exact ((cleared_of_release hrun x).2 hbelow).trans hx

theorem none_of_releases {fuel : ℕ} {qs : List NsId} {m m' : Memory NsId Namespace}
    (hrun : qs.foldlM (release Namespace.kids fuel) m = some m') (hx : m x = none) :
    m' x = none := by
  induction qs generalizing m with
  | nil =>
    cases hrun
    exact hx
  | cons q qs ih =>
    obtain ⟨m₁, h₁, hrest⟩ := bind_eq_some_iff.mp hrun
    exact ih hrest (none_of_release h₁ hx)

section

variable (h : t.Addressed)

include h

theorem Addressed.unlinkFreeNamespace (hrun : t.unlinkFreeNamespace q = some t') :
    t'.Addressed := by
  unfold NsTree.unlinkFreeNamespace at hrun
  cases hunlink : t.unlink q with
  | none => simp [hunlink] at hrun
  | some t₁ =>
    have h₁ := h.unlink hunlink
    simp only [hunlink] at hrun
    split_ifs at hrun
    · cases hrun
      exact h₁
    · obtain ⟨m, hm, rfl⟩ := map_eq_some_iff.mp hrun
      exact h₁.shrink rfl fun x => none_of_release hm

theorem Addressed.rollback {root : Option NsId}
    (hrun : t.rollback root = some t') : t'.Addressed := by
  cases root with
  | none =>
    cases hrun
    exact h
  | some q => exact h.unlinkFreeNamespace hrun

theorem Addressed.linkChild {pNs : NsId} {ns : Namespace} {zComp : Bytes}
    (hns : t.namespaces pNs = some ns) : (t.linkChild pNs ns zComp).Addressed := by
  have hlt := h.lt_nextNs hns
  intro x hx
  have hgt : t.nextNs < x := Nat.lt_of_succ_le hx
  have hne : x ≠ pNs := Nat.ne_of_gt (Nat.lt_trans hlt hgt)
  change Function.update (Function.update t.namespaces _ _) _ _ x = none
  rw [Function.update_of_ne hne, Function.update_of_ne (Nat.ne_of_gt hgt)]
  exact h x (Nat.le_of_lt hgt)

theorem Addressed.createWalk {mem : ℕ → ChildMemory} {comps : List Bytes}
    {pNs : NsId} {root : Option NsId} {r : CreateResult}
    (hrun : createWalk mem t root pNs comps = some (t', r)) : t'.Addressed := by
  induction comps generalizing t pNs root with
  | nil =>
    obtain ⟨rfl, -⟩ := Prod.mk.inj (some.inj hrun)
    exact h
  | cons zComp rest ih =>
    obtain ⟨ns, hns, ⟨c, -, hrest⟩ | ⟨-, hrest⟩ | ⟨hback, -⟩⟩ := NsTree.createWalk_cons hrun
    · exact ih h hrest
    · exact ih (h.linkChild hns) hrest
    · exact h.rollback hback

theorem Addressed.deleteNamespace {zName : Bytes} {granted : Bool}
    {r : NsResult} (hrun : t.deleteNamespace zName granted = some (t', r)) :
    t'.Addressed := by
  unfold NsTree.deleteNamespace at hrun
  rcases hfind : t.findNamespace zName with _ | _ | pNs
  · simp [hfind] at hrun
  · simp only [hfind, some.injEq, Prod.mk.injEq] at hrun
    exact hrun.1 ▸ h
  · simp only [hfind] at hrun
    have h₁ : (if pNs = t.pCurrentNs then { t with pCurrentNs := globalNs } else t).Addressed := by
      split
      · exact h
      · exact h
    generalize (if pNs = t.pCurrentNs then { t with pCurrentNs := globalNs } else t) = t₁ at hrun h₁
    by_cases hglobal : pNs = globalNs
    · rw [if_pos hglobal] at hrun
      cases hns : t₁.namespaces globalNs with
      | none => simp [hns] at hrun
      | some ns =>
        simp only [hns] at hrun
        split_ifs at hrun
        obtain ⟨m, hm, heq⟩ := map_eq_some_iff.mp hrun
        rw [← (Prod.mk.inj heq).1]
        intro x hx
        have hfree := h₁ x hx
        have hne : x ≠ globalNs := by
          rintro rfl
          rw [hns] at hfree
          cases hfree
        exact (Function.update_of_ne hne ..).trans (none_of_releases hm hfree)
    · rw [if_neg hglobal] at hrun
      obtain ⟨t₂, h₂, heq⟩ := map_eq_some_iff.mp hrun
      rw [← (Prod.mk.inj heq).1]
      exact h₁.unlinkFreeNamespace h₂

theorem Addressed.run {op : NsOp} (hrun : op.run t = some t') : t'.Addressed := by
  cases op with
  | create zName mem =>
    obtain ⟨⟨t₁, r⟩, h₁, rfl⟩ := map_eq_some_iff.mp hrun
    exact h.createWalk h₁
  | createThenFail zName mem =>
    rw [NsOp.run] at hrun
    rcases hfind : t.findNamespaceEx mem zName with _ | ⟨t₁, pNs | e⟩
    · simp [hfind] at hrun
    · simp only [hfind] at hrun
      exact (h.createWalk hfind).rollback hrun
    · simp only [hfind, some.injEq] at hrun
      exact hrun ▸ h.createWalk hfind
  | delete zName granted =>
    obtain ⟨⟨t₁, r⟩, h₁, rfl⟩ := map_eq_some_iff.mp hrun
    exact h.deleteNamespace h₁
  | setCurrent pNs =>
    rw [NsOp.run] at hrun
    split_ifs at hrun
    cases hrun
    exact h
  | enterEval =>
    cases hrun
    exact h
  | leaveEval =>
    rw [NsOp.run] at hrun
    split_ifs at hrun
    · obtain ⟨m, hm, rfl⟩ := map_eq_some_iff.mp hrun
      exact h.shrink rfl fun x => none_of_releases hm
    · cases hrun
      exact h

end

end NsTree

namespace CmdInterp

variable {s s' : CmdInterp}

theorem addressed_of_reachable (hreach : Reachable step (some .init) (some s)) :
    s.toNsTree.Addressed := by
  refine hreach.invariant_some (I := fun s => s.toNsTree.Addressed) NsTree.addressed_init
    (fun _ => rfl) fun s₁ op s₂ h _ hrun => ?_
  obtain ⟨⟨s₃, e⟩, hop, rfl⟩ := map_eq_some_iff.mp hrun
  rcases exists_nsOp (ran_of_run hop) with hsame | ⟨nop, hnop, -⟩
  · exact hsame ▸ h
  · exact h.run hnop

/-! ## The record at a name -/

def recordAt (s : CmdInterp) (zName : Bytes) : Option CommandRecord :=
  (s.commandAt zName).bind s.commands

variable {pNs : NsId}

theorem createWalk_of_walk {t : NsTree} {mem : ℕ → ChildMemory} {comps : List Bytes} {pNs' : NsId}
    (hwalk : t.walk pNs comps = some (some pNs')) (root : Option NsId) :
    t.createWalk mem root pNs comps = some (t, .found pNs' root) := by
  induction comps generalizing pNs with
  | nil =>
    obtain rfl := some.inj (some.inj hwalk)
    rfl
  | cons zComp rest ih =>
    rw [NsTree.walk] at hwalk
    rw [NsTree.createWalk]
    cases hns : t.namespaces pNs with
    | none => simp [hns] at hwalk
    | some ns =>
      simp only [hns] at hwalk ⊢
      cases hkid : ns.paChild.lookup zComp with
      | none => simp [hkid] at hwalk
      | some pChild =>
        simp only [hkid] at hwalk ⊢
        exact ih hwalk

theorem moveTo_self : s.moveTo s.toNsTree = some (s.withTree s.toNsTree) := by
  have hnone : s.releasedNs s.toNsTree = [] := by
    apply List.filter_eq_nil_iff.mpr
    intro x _
    cases s.namespaces x <;> simp
  rw [moveTo, hnone]
  rfl

variable {zName zTail : Bytes} {h : Handler}

theorem createCommand_existing (haddr : s.toNsTree.Addressed) {mem : CreateMemory} {r : CmdResult}
    (hres : s.resolveEntry zName = some (some (pNs, zTail)))
    (hrun : s.createCommand mem zName h = some (s', r)) :
    ∃ s₀ : CmdInterp, s₀.toNsTree = s.toNsTree ∧ s₀.commands = s.commands ∧
      s₀.nNextCmdToken = s.nNextCmdToken ∧ s₀.paCmd pNs = s.paCmd pNs ∧
      s₀.createIn mem pNs none zTail zName h = some (s', r) := by
  unfold resolveEntry at hres
  rcases createCommand_cases hrun with ⟨zTail', hsplit, hin⟩ |
    ⟨zNs, zTail', t, res, hsplit, hfind, hend⟩
  · simp only [hsplit, some.injEq, Prod.mk.injEq] at hres
    obtain ⟨rfl, rfl⟩ := hres
    exact ⟨s, rfl, rfl, rfl, rfl, hin⟩
  · simp only [hsplit, map_eq_some_iff, Prod.mk.injEq] at hres
    obtain ⟨_, hwalk, pNs', rfl, rfl, rfl⟩ := hres
    have hsame : s.createWalk mem.namespaces none _ _ = _ := createWalk_of_walk hwalk none
    rw [NsTree.findNamespaceEx, hsame, some.injEq, Prod.mk.injEq] at hfind
    obtain ⟨rfl, rfl⟩ := hfind
    rcases hend with ⟨e, hfailed, -⟩ | ⟨_, _, s₁, hfound, hmove, hin⟩
    · cases hfailed
    · cases hfound
      rw [moveTo_self, some.injEq] at hmove
      subst hmove
      obtain ⟨⟨ns, hns⟩, -⟩ := createIn_cases hin
      exact ⟨s.withTree s.toNsTree, rfl, rfl, rfl, if_pos (haddr.lt_nextNs hns), hin⟩

variable {c : CmdId}

theorem recordAt_publish {cmd : CommandRecord}
    (hres : s.resolveEntry zName = some (some (pNs, zTail))) :
    (s.publish pNs zTail c cmd).recordAt zName = some cmd := by
  have hsame : (s.publish pNs zTail c cmd).resolveEntry zName = s.resolveEntry zName := rfl
  have htable : ((s.publish pNs zTail c cmd).paCmd pNs).lookup zTail = some (some c) := by
    change (Function.update s.paCmd pNs _ pNs).lookup zTail = _
    rw [Function.update_self, AList.lookup_insert]
  have hat : (s.publish pNs zTail c cmd).commandAt zName = some c := by
    unfold commandAt
    rw [hsame, hres]
    change ((((s.publish pNs zTail c cmd).paCmd pNs).lookup zTail).join) = some c
    rw [htable]
    rfl
  rw [recordAt, hat]
  exact Function.update_self ..

theorem resolveEntry_congr {s₀ : CmdInterp} (h : s₀.toNsTree = s.toNsTree) (zName : Bytes) :
    s₀.resolveEntry zName = s.resolveEntry zName := by
  unfold resolveEntry
  rw [h]

theorem recordAt_createCommand (haddr : s.toNsTree.Addressed) {mem : CreateMemory}
    {token : Option ℕ} (hres : s.resolveEntry zName = some (some (pNs, zTail)))
    (hrun : s.createCommand mem zName h = some (s', .ok token)) :
    s'.recordAt zName = some (s.newCommand (s.recordAt zName) zName h pNs) := by
  obtain ⟨s₀, htree, hcommands, htoken, htable, hin⟩ := createCommand_existing haddr hres hrun
  have hat : s.commandAt zName = ((s₀.paCmd pNs).lookup zTail).join := by
    rw [commandAt, hres, htable]
    rfl
  have hnew : ∀ old, s₀.newCommand old zName h pNs = s.newCommand old zName h pNs := by
    intro old
    rw [newCommand, newCommand, htoken]
  obtain ⟨-, ⟨f, -, hout⟩ | hcommit⟩ := createIn_cases hin
  · obtain ⟨_, _, _, herror⟩ := outOfMemory_cases hout
    cases herror
  have hrecord : s.recordAt zName = ((s₀.paCmd pNs).lookup zTail).join.bind s.commands := by
    rw [recordAt, hat]
  rw [hrecord]
  obtain ⟨-, ⟨hold, rfl⟩ | ⟨c, old, s₁, hold, hc, hfree, rfl⟩⟩ := commitCommand_cases hcommit
  · rw [hold, bind_none, ← hnew]
    apply recordAt_publish
    rw [← hres]
    exact resolveEntry_congr htree zName
  · have hold' : s.commands c = some old := hcommands ▸ hc
    rw [hold, bind_some, hold', ← hnew]
    apply recordAt_publish
    rw [← hres]
    obtain ⟨index, hremoved, -⟩ := removeCmdTokenEntry_eq
      (s₀.withCmdToken.setEntry pNs zTail ((s₀.paCmd pNs).lookup zTail).join) old
    obtain ⟨-, -, -, hsame, -⟩ := freeSubCommands_spec hfree
    apply resolveEntry_congr
    rw [hsame.toNsTree, hremoved]
    exact htree

theorem deleteEntry_paCmd {pData : Option CmdId} (hrun : s.deleteEntry pNs zTail pData = some s') :
    s'.paCmd = Function.update s.paCmd pNs ((s.paCmd pNs).erase zTail) ∧
      s'.nNextCmdToken = s.nNextCmdToken := by
  rcases deleteEntry_cases hrun with ⟨-, rfl⟩ | ⟨c, cmd, -, -, ⟨-, rfl⟩ | ⟨-, rfl⟩⟩
  · exact ⟨rfl, rfl⟩
  · obtain ⟨index, heq, -⟩ := removeCmdTokenEntry_eq (s.removeEntry pNs zTail) cmd
    rw [heq]
    exact ⟨rfl, rfl⟩
  · obtain ⟨index, heq, -⟩ := removeCmdTokenEntry_eq (s.removeEntry pNs zTail) cmd
    rw [heq]
    exact ⟨rfl, rfl⟩

theorem commandAt_eq_some (hat : s.commandAt zName = some c) :
    ∃ pNs zTail, s.resolveEntry zName = some (some (pNs, zTail)) ∧
      (s.paCmd pNs).lookup zTail = some (some c) := by
  obtain ⟨⟨pNs, zTail⟩, hres, hlook⟩ := bind_eq_some_iff.mp hat
  exact ⟨pNs, zTail, join_eq_some_iff.mp hres, join_eq_some_iff.mp hlook⟩

theorem deleted_command {mem : RenameMemory} {r : CmdResult} (hat : s.commandAt zName = some c)
    (hrun : s.renameCommand mem zName [] = some (s', r)) :
    s'.toNsTree = s.toNsTree ∧ s'.nNextCmdToken = s.nNextCmdToken ∧ s'.recordAt zName = none := by
  obtain ⟨pNs, zTail, hres, hlook⟩ := commandAt_eq_some hat
  unfold renameCommand at hrun
  rcases hns : s.namespaces pNs with _ | ns
  · simp [hres, cmdTable, hns] at hrun
  have hcmds : s.cmdTable pNs = some (s.paCmd pNs) := by simp [cmdTable, hns]
  simp only [hres, hcmds, hlook, if_true] at hrun
  obtain ⟨s₁, hdelete, heq⟩ := map_eq_some_iff.mp hrun
  obtain ⟨rfl, -⟩ := Prod.mk.inj heq
  have htree := deleteEntry_toNsTree hdelete
  obtain ⟨htable, htoken⟩ := deleteEntry_paCmd hdelete
  refine ⟨htree, htoken, ?_⟩
  rw [recordAt, commandAt, resolveEntry_congr htree, hres]
  change (((s₁.paCmd pNs).lookup zTail).join).bind s₁.commands = none
  rw [htable, Function.update_self, AList.lookup_erase]
  rfl

/-! ## Replacement against deletion and creation -/

theorem newCommand_eq_iff (old : CommandRecord) :
    s.newCommand (some old) zName h pNs = s.newCommand none zName h pNs ↔ old.xCopy = 0 := by
  simp [newCommand]

def createGranted : CreateMemory :=
  ⟨fun _ => ⟨true, true, true, true, true, true⟩, true, true, true, true, true⟩

def renameGranted : RenameMemory :=
  ⟨fun _ => ⟨true, true, true, true, true, true⟩, true, true⟩

/-- A command `f` with the copy hook `xCopy`. -/
def hooked (xCopy : Pointer) : List Op :=
  [.createCommand createGranted (ascii "f") ⟨1, 2, 3⟩, .setCommandCopy (ascii "f") xCopy]

/-- The state with the command `f`, what its replacement gives there, what its deletion
gives and what the creation after that gives. -/
def hookRuns (xCopy : Pointer) : Option (CmdInterp × (CmdInterp × CmdResult) ×
    (CmdInterp × CmdResult) × (CmdInterp × CmdResult)) :=
  (runAll (hooked xCopy)).bind fun s =>
  (s.createCommand createGranted (ascii "f") ⟨4, 5, 6⟩).bind fun replaced =>
  (s.renameCommand renameGranted (ascii "f") []).bind fun deleted =>
  (deleted.1.createCommand createGranted (ascii "f") ⟨4, 5, 6⟩).map fun fresh =>
    (s, replaced, deleted, fresh)

theorem hookRuns_spec (xCopy : Pointer)
    (hran : (hookRuns xCopy).map (fun r => (r.1.commandAt (ascii "f"), r.1.commands 0 |>.isSome,
      r.2.1.2, r.2.2.2.2)) = some (some 0, true, .ok (some 2), .ok (some 2))) :
    ∃ s s' s₁ s₂ old r, Reachable step (some .init) (some s) ∧
      s.commandAt (ascii "f") = some 0 ∧ s.commands 0 = some old ∧
      s.createCommand createGranted (ascii "f") ⟨4, 5, 6⟩ = some (s', .ok (some 2)) ∧
      s.renameCommand renameGranted (ascii "f") [] = some (s₁, r) ∧
      s₁.createCommand createGranted (ascii "f") ⟨4, 5, 6⟩ = some (s₂, .ok (some 2)) ∧
      hookRuns xCopy = some (s, (s', .ok (some 2)), (s₁, r), (s₂, .ok (some 2))) := by
  obtain ⟨⟨s, ⟨s', r'⟩, ⟨s₁, r⟩, ⟨s₂, r₂⟩⟩, hruns, heq⟩ := map_eq_some_iff.mp hran
  simp only [Prod.mk.injEq] at heq
  obtain ⟨hat, hold, rfl, rfl⟩ := heq
  obtain ⟨old, hold⟩ := isSome_iff_exists.mp hold
  have hsteps := hruns
  obtain ⟨s₀, hs, hsteps⟩ := bind_eq_some_iff.mp hsteps
  obtain ⟨a, hreplace, hsteps⟩ := bind_eq_some_iff.mp hsteps
  obtain ⟨b, hdelete, hsteps⟩ := bind_eq_some_iff.mp hsteps
  obtain ⟨d, hfresh, hsteps⟩ := map_eq_some_iff.mp hsteps
  simp only [Prod.mk.injEq] at hsteps
  obtain ⟨rfl, rfl, rfl, rfl⟩ := hsteps
  have hreach : Reachable step (some .init) (some s₀) := hs ▸ reachable_foldl _ _ _
  exact ⟨s₀, s', s₁, s₂, old, r, hreach, hat, hold, hreplace, hdelete, hfresh, hruns⟩

/-- In every reachable state, replacing a command leaves the record that deleting it and
creating it afresh would leave, exactly when the old command has no copy hook. -/
theorem replaced_eq_fresh_iff {s s' s₁ s₂ : CmdInterp} {mem mem' : CreateMemory}
    {renameMem : RenameMemory} {zName : Bytes} {h : Handler} {c : CmdId}
    {old : CommandRecord} {token token' : Option ℕ} {r : CmdResult}
    (hreach : Reachable step (some .init) (some s)) (hat : s.commandAt zName = some c)
    (hold : s.commands c = some old)
    (hreplace : s.createCommand mem zName h = some (s', .ok token))
    (hdelete : s.renameCommand renameMem zName [] = some (s₁, r))
    (hfresh : s₁.createCommand mem' zName h = some (s₂, .ok token')) :
    s'.recordAt zName = s₂.recordAt zName ↔ old.xCopy = 0 := by
  have haddr := addressed_of_reachable hreach
  obtain ⟨pNs, zTail, hres, -⟩ := commandAt_eq_some hat
  obtain ⟨htree, htoken, hnone⟩ := deleted_command hat hdelete
  have hrecord : s.recordAt zName = some old := by rw [recordAt, hat, bind_some, hold]
  have hreplaced := recordAt_createCommand haddr hres hreplace
  have hcreated := recordAt_createCommand (htree ▸ haddr)
    ((resolveEntry_congr htree zName).trans hres) hfresh
  have hsame : s₁.newCommand none zName h pNs = s.newCommand none zName h pNs := by
    rw [newCommand, newCommand, htoken]
  rw [hreplaced, hcreated, hrecord, hnone, some_inj, hsame, newCommand_eq_iff]

/-- A command without a hook leaves nothing behind. -/
theorem replaced_eq_fresh_unhooked :
    ∃ s replaced deleted fresh, hookRuns 0 = some (s, replaced, deleted, fresh) ∧
      (replaced.1.recordAt (ascii "f") = fresh.1.recordAt (ascii "f") ↔
        (s.commands 0).map CommandRecord.xCopy = some 0) := by
  obtain ⟨s, s', s₁, s₂, old, r, hreach, hat, hold, hreplace, hdelete, hfresh, hruns⟩ :=
    hookRuns_spec 0 (by decide)
  refine ⟨s, _, _, _, hruns, ?_⟩
  rw [hold, map_some, some_inj]
  exact replaced_eq_fresh_iff hreach hat hold hreplace hdelete hfresh

/-- The copy hook of a command outlives its replacement. -/
theorem not_replaced_eq_fresh :
    ¬∀ (s s' s₁ s₂ : CmdInterp) (mem mem' : CreateMemory) (renameMem : RenameMemory)
      (zName : Bytes) (h : Handler) (c : CmdId) (token token' : Option ℕ) (r : CmdResult),
      Reachable step (some .init) (some s) → s.commandAt zName = some c →
      s.createCommand mem zName h = some (s', .ok token) →
      s.renameCommand renameMem zName [] = some (s₁, r) →
      s₁.createCommand mem' zName h = some (s₂, .ok token') →
        s'.recordAt zName = s₂.recordAt zName := by
  intro hall
  obtain ⟨s, s', s₁, s₂, old, r, hreach, hat, -, hreplace, hdelete, hfresh, hruns⟩ :=
    hookRuns_spec 7 (by decide)
  have hsame := hall s s' s₁ s₂ createGranted createGranted renameGranted (ascii "f") _ 0 _ _
    r hreach hat hreplace hdelete hfresh
  have hhooks : (hookRuns 7).map (fun r => ((r.2.1.1.recordAt (ascii "f")).map
      CommandRecord.xCopy, (r.2.2.2.1.recordAt (ascii "f")).map CommandRecord.xCopy)) =
      some (some 7, some 0) := by decide
  rw [hruns, map_some, hsame, some_inj, Prod.mk.injEq] at hhooks
  rw [hhooks.1] at hhooks
  simp at hhooks

end CmdInterp

end Th8
