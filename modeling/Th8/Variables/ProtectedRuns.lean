import Th8.Variables.ScriptCommands
import Th8.Variables.SystemVariables

/-!
# Runs that leave a system variable alone

The guard of the variable commands compares texts, and what a command writes is found by
other means.  In a run in which no call past the guard reaches a system variable it stays
as it was, and every command that the guard knows is refused.  There are commands that
reach it: under another spelling of its name, through a link, and by the commands that
have no guard.
-/

namespace Th8

open Support List Nat

/-! ## Records are allocated before they are reached -/

structure IdsBounded (s : VarState) : Prop where
  entry : ∀ {k r}, s.Entry k r → r < s.nextVar
  outside : ∀ {r}, s.Outside r → r < s.nextVar

namespace IdsBounded

variable {s s' : VarState}

section

variable (h : IdsBounded s)

include h

theorem mono (hnext : s.nextVar ≤ s'.nextVar) (hentry : ∀ {k r}, s'.Entry k r → s.Entry k r)
    (houtside : ∀ {r}, s'.Outside r → s.Outside r) : IdsBounded s' :=
  ⟨fun hk => (h.entry (hentry hk)).trans_le hnext,
    fun ho => (h.outside (houtside ho)).trans_le hnext⟩

theorem outer_lt {place : VarPlace} {r : VarId} (hr : s.outer place = some r) : r < s.nextVar := by
  cases place with
  | frame up key => exact h.entry ⟨_, frameAt_mem s up, mem_of_lookup hr⟩
  | global key => exact h.outside (.inl ⟨_, mem_of_lookup hr⟩)
  | ns path key => exact h.outside (.inr (.inl ⟨_, _, mem_of_lookup hr⟩))

theorem findValueAt_lt {up : ℕ} {zVar : Bytes} {r : VarId}
    (hr : findValueAt s up zVar = some r) : r < s.nextVar := by
  rcases findValueAt_cases hr with hentry | ⟨houtside, -⟩
  · exact h.entry hentry
  · exact h.outside houtside

theorem cellsOld (z : Bytes) : CellsOld s z := by
  rintro c ⟨a, ha, rfl | ⟨t, k, hhash, hlookup⟩⟩
  · exact h.outer_lt ha
  · exact h.outside (.inr (.inr ⟨a, t, k, hhash, mem_of_lookup hlookup⟩))

theorem insert {a : VarId} (ha : a < s.nextVar) (place : VarPlace) :
    IdsBounded (s.insert a place) := by
  refine ⟨fun hk => ?_, fun ho => ?_⟩
  · rw [insert_nextVar]
    rcases entry_insert hk with hk | ⟨rfl, -⟩
    · exact h.entry hk
    · exact ha
  · rw [insert_nextVar]
    rcases outside_insert ho with ho | rfl
    · exact h.outside ho
    · exact ha

theorem alloc : IdsBounded s.alloc.1 := by
  refine h.mono (le_succ _) (fun hk => hk) fun ho => ?_
  rcases ho with ho | ho | ⟨a, t, k, hhash, hk⟩
  · exact .inl ho
  · exact .inr (.inl ho)
  · by_cases ha : a = s.nextVar
    · subst ha
      simp [VarState.alloc, Variable.new] at hhash
    · exact .inr (.inr ⟨a, t, k, by simpa [VarState.alloc, ha] using hhash, hk⟩)

theorem setHash (r : VarId) {t : Table} (ht : ∀ p ∈ t, p.2 < s.nextVar) :
    IdsBounded (s.setHash r t) := by
  refine ⟨fun hk => h.entry hk, fun ho => ?_⟩
  rcases ho with ho | ho | ⟨a, t', k, hhash, hk⟩
  · exact h.outside (.inl ho)
  · exact h.outside (.inr (.inl ho))
  · by_cases ha : a = r
    · subst ha
      have heq : t = t' := by simpa [VarState.setHash] using hhash
      exact ht _ (heq ▸ hk)
    · rw [setHash_of_ne s ha] at hhash
      exact h.outside (.inr (.inr ⟨a, t', k, hhash, hk⟩))

theorem creationStep (hstep : CreationStep s s') : IdsBounded s' := by
  cases hstep with
  | namespaces path hdepth => exact h.mono (le_refl _) (fun hk => hk) fun ho => ho
  | entry place hns hnone => exact h.alloc.insert (lt_succ_self _) place
  | element place r zInner hr hscalar hnone =>
    refine h.alloc.setHash r fun p hp => ?_
    rcases mem_cons.mp hp with rfl | hp
    · exact lt_succ_self _
    · cases hhash : (s.heap r).pHash with
      | none => simp [hhash] at hp
      | some t =>
        rw [hhash, Option.getD_some] at hp
        exact lt_succ_of_lt (h.outside (.inr (.inr ⟨r, t, p.1, hhash, hp⟩)))

theorem sameTables (hsame : SameTables s s') : IdsBounded s' := by
  refine h.mono hsame.nextVar.ge ?_ fun ho => ?_
  · rintro k r ⟨f, hf, hk⟩
    exact ⟨f, by simpa only [VarState.frames, hsame.procFrames, hsame.globalFrame] using hf, hk⟩
  · exact ho.of_pHash_eq (fun x hx => hsame.globalFrame ▸ hx) hsame.nsVars hsame.pHash

theorem written (hw : Written s s') : IdsBounded s' := by
  obtain ⟨s₁, hcreate, hsame⟩ := hw
  exact (hcreate.invariant creationStep h).sameTables hsame

theorem linkVar (zLocal : Bytes) (iFrame : ℤ) (zRemote : Bytes) :
    IdsBounded (linkVar s zLocal iFrame zRemote).1 := by
  rcases linkVar_cases s zLocal iFrame zRemote with hsame | ⟨s₁, r, hcreate, hfind, hs₁⟩
  · rw [hsame]
    exact h
  · have hbounded : IdsBounded s₁ := hcreate.invariant creationStep h
    rcases hs₁ with hs₁ | ⟨-, hs₁⟩
    · rw [hs₁]
      exact hbounded
    · rw [hs₁]
      have hinsert := hbounded.insert (hbounded.findValueAt_lt hfind) (.frame 0 zLocal)
      refine hinsert.mono (le_refl _) (fun hk => hk) fun ho => ?_
      refine ho.of_pHash_eq (fun _ hx => hx) rfl fun c => ?_
      rw [insert_heap]
      exact (update_nRef s₁.heap r _ c).2

theorem unsetVar (zVar : Bytes) : IdsBounded (unsetVar s zVar).1 := by
  unfold Th8.unsetVar
  dsimp only
  split
  · exact h
  · rename_i a zInner _ _
    cases hhash : (s.heap a).pHash with
    | none => exact h
    | some t =>
      dsimp only
      cases t.lookup zInner with
      | none => exact h
      | some e =>
        have hdec : IdsBounded { s with heap := decRef s.heap e } :=
          h.mono (le_refl _) (fun hk => hk) fun ho =>
            ho.of_pHash_eq (fun _ hx => hx) rfl fun c => (decRef_sameData s.heap e c).2
        exact hdec.setHash a fun p hp =>
          h.outside (.inr (.inr ⟨a, t, p.1, hhash, mem_of_mem_filter hp⟩))
  · rename_i a _ _
    obtain ⟨hproc, hglobal⟩ := mem_unlink s
      ((analyzeVarName zVar).bGlobal || s.procFrames.isEmpty) (analyzeVarName zVar).zOuter a
    refine h.mono (le_refl _) ?_ fun ho => ?_
    · rintro k r ⟨f, hf, hk⟩
      simp only [VarState.frames, mem_append, mem_singleton] at hf
      rcases hf with hf | rfl
      · obtain ⟨f', hf', hsub⟩ := hproc f hf
        exact ⟨f', mem_append_left _ hf', hsub _ hk⟩
      · exact entry_of_global (hglobal _ hk)
    · exact ho.of_pHash_eq hglobal rfl fun c => (update_nRef s.heap a _ c).2

theorem pushFrame : IdsBounded (pushFrame s) := by
  refine h.mono (le_refl _) ?_ fun ho => ho
  rintro k r ⟨f, hf, hk⟩
  simp only [VarState.frames, Th8.pushFrame, cons_append, mem_cons] at hf
  rcases hf with rfl | hf
  · cases hk
  · exact ⟨f, hf, hk⟩

theorem popFrame : IdsBounded (popFrame s) := by
  unfold Th8.popFrame
  cases hframes : s.procFrames with
  | nil => exact h
  | cons f callers =>
    have hheap := foldl_decRef_sameData (f.map Prod.snd) s.heap
    refine h.mono (le_refl _) ?_ fun ho => ?_
    · rintro k r ⟨f', hf', hk⟩
      refine ⟨f', ?_, hk⟩
      simp only [VarState.frames, hframes, cons_append, mem_cons] at hf' ⊢
      exact .inr hf'
    · exact ho.of_pHash_eq (fun _ hx => hx) rfl fun a => (hheap a).2

theorem varStep (op : VarOp) : IdsBounded (varStep s op) := by
  cases op with
  | secureCreate zVar v => exact h.written (secureVarCreate_written s zVar v)
  | set zVar v => exact h.written (setVar_written s zVar v)
  | append zVar args => exact h.written (appendVar_written s zVar args)
  | link zLocal iFrame zRemote => exact h.linkVar zLocal iFrame zRemote
  | unset zVar => exact h.unsetVar zVar
  | push => exact h.pushFrame
  | pop => exact h.popFrame

end

end IdsBounded

theorem idsBounded_of_reachable {s : VarState} (hs : Reachable varStep VarState.init s) :
    IdsBounded s := by
  refine hs.invariant ?_ fun _ op h _ => h.varStep op
  refine ⟨?_, ?_⟩
  · rintro k r ⟨f, hf, hk⟩
    simp [VarState.frames, VarState.init] at hf
    simp [hf] at hk
  · rintro r (⟨k, hk⟩ | ⟨p, k, hk⟩ | ⟨a, t, k, hhash, -⟩)
    · cases hk
    · cases hk
    · simp [VarState.init, Variable.new] at hhash

namespace Script

/-! ## Calls that reach the variable -/

/-- The call writes under a name that leads to the variable, takes it away, creates
something in it or makes a link in its place. -/
def CallReaches (z : Bytes) (s : VarState) : VarCall → Prop
  | .get _ | .exist _ | .names _ => False
  | .set zVar _ | .append zVar _ =>
    LeadsTo s z 0 zVar ∨ (isSecureVar s zVar = true ∧ Means z zVar)
  | .unset zVar => UnsetHits s z zVar
  | .link zLocal iFrame zRemote =>
    (findValueAt s (framesUp s iFrame) zRemote = none ∧ LeadsTo s z (framesUp s iFrame) zRemote) ∨
      (s.outer (.frame 0 zLocal) = none ∧ s.slot (.frame 0 zLocal) = globalPlace z)

theorem exec_kept {z : Bytes} {s : VarState} (hold : CellsOld s z) {call : VarCall}
    (hnot : ¬ CallReaches z s call) :
    Kept z s (exec s call).1 ∧ s.nextVar ≤ (exec s call).1.nextVar := by
  cases call with
  | get zVar => exact ⟨.refl z s, le_refl _⟩
  | exist zVar => exact ⟨.refl z s, le_refl _⟩
  | names zArr => exact ⟨.refl z s, le_refl _⟩
  | set zVar v =>
    obtain ⟨hleads, hsecure⟩ := not_or.mp hnot
    exact setVar_kept hold hleads (not_and.mp hsecure) v
  | append zVar args =>
    obtain ⟨hleads, hsecure⟩ := not_or.mp hnot
    exact appendVar_kept hold hleads (not_and.mp hsecure) args
  | unset zVar => exact unsetVar_kept hnot
  | link zLocal iFrame zRemote =>
    obtain ⟨hremote, hlocal⟩ := not_or.mp hnot
    exact linkVar_kept hold (not_and.mp hremote) (not_and.mp hlocal)

def Quiet (env : ScriptEnv) (z : Bytes) (s : VarState) : ScriptStep → Prop
  | .command ctx name argv =>
    (command env ctx argv name).run.Allowed exec (fun s call => ¬ CallReaches z s call) s
  | .call | .ret => True

structure Untouched (z : Bytes) (s₀ s : VarState) : Prop where
  kept : Kept z s₀ s
  old : CellsOld s z

namespace Untouched

variable {z : Bytes} {s₀ s : VarState}

section

variable (h : Untouched z s₀ s)

include h

theorem step {s' : VarState} (h' : Kept z s s' ∧ s.nextVar ≤ s'.nextVar) : Untouched z s₀ s' :=
  ⟨h.kept.trans h'.1, h'.1.cellsOld h.old h'.2⟩

theorem call {call : VarCall} (hnot : ¬ CallReaches z s call) : Untouched z s₀ (exec s call).1 :=
  h.step (exec_kept h.old hnot)

theorem scriptStep {env : ScriptEnv} {step : ScriptStep}
    (hquiet : Quiet env z s step) : Untouched z s₀ (scriptStep env s step) := by
  cases step with
  | command ctx name argv =>
    exact Program.run_invariant (fun _ _ ht hnot => ht.call hnot) _ h hquiet
  | call => exact h.step ⟨pushFrame_kept, le_refl _⟩
  | ret => exact h.step popFrame_kept

end

end Untouched

variable {env : ScriptEnv}

theorem untouched_of_quiet {z : Bytes} {s₀ s : VarState} (hs₀ : Reachable varStep VarState.init s₀)
    (hrun : ReachableBy (scriptStep env) (Quiet env z) s₀ s) : Untouched z s₀ s :=
  hrun.invariant ⟨.refl z s₀, (idsBounded_of_reachable hs₀).cellsOld z⟩
    fun _ _ h hquiet => h.scriptStep hquiet

def guardedName : CmdName → List TString → Option Bytes
  | .set, [zVar, _] => some zVar.bytes
  | .append, zVar :: _ :: _ => some zVar.bytes
  | .incr, [zVar] | .incr, [zVar, _] => some zVar.bytes
  | .arraySet, [zArr, _] => some zArr.bytes
  | .unset, argv =>
    match unsetOptions false (argv.map TString.bytes) with
    | (false, zName :: _) => some zName
    | _ => none
  | _, _ => none

theorem checkSystemVar_eq {zName : Bytes} (h : isSystemVar env zName = true) :
    checkSystemVar env zName = throw (.message "can't modify system variable \"" zName) :=
  if_pos h

theorem runCommand_guarded {name : CmdName} {argv : List TString} {zName : Bytes}
    (h : guardedName name argv = some zName) (hsystem : isSystemVar env zName = true) (s : VarState)
    (ctx : CmdContext) :
    runCommand env s ctx name argv =
      (s, .error (.message "can't modify system variable \"" zName)) := by
  unfold guardedName at h
  split at h
  · cases h
    simp only [runCommand, command, setCommand, checkSystemVar_eq hsystem]
    rfl
  · cases h
    simp only [runCommand, command, appendCommand, checkSystemVar_eq hsystem]
    rfl
  · cases h
    simp only [runCommand, command, incrCommand, checkSystemVar_eq hsystem]
    rfl
  · cases h
    simp only [runCommand, command, incrCommand, checkSystemVar_eq hsystem]
    rfl
  · cases h
    simp only [runCommand, command, arraySetCommand, checkSystemVar_eq hsystem]
    rfl
  · split at h
    · rename_i hoptions
      cases h
      simp only [runCommand, command, unsetCommand, hoptions, unsetNames, checkSystemVar_eq hsystem]
      rfl
    · cases h
  · cases h

def securityEnv : ScriptEnv where
  paSystemVar := [ascii "::th8_security"]
  splitList _ := .ok []
  joinList _ := []
  globMatch _ _ := false

def globalContext : CmdContext := ⟨0, ascii "::", true⟩

def words (argv : List String) : List TString := argv.map fun z => TString.plain (ascii z)

def securityState : VarState :=
  varStep VarState.init
    (.set (ascii "::th8_security(policy)") (TString.plain (ascii "enforce")))

def runWords (s : VarState) (name : CmdName) (argv : List String) :
    VarState × Except Failure Unit :=
  runCommand securityEnv s globalContext name (words argv)

def policyRead (s : VarState) : Except Failure VarRead :=
  getVar (atGlobal s) (ascii "::th8_security(policy)")

theorem securityState_reachable : Reachable varStep VarState.init securityState :=
  .step _ .init trivial

end Script

end Th8
