import Th8.Nre.Discipline

/-!
# Coroutines

A creation or resumption gives its caller back the context it had, and the command of a
coroutine is gone once it is done, in every run in which a creation ends with a yield of
its body where the caller stands, and a coroutine ends under the name it was created with.
-/

namespace Th8

open Support List Option

namespace Nre

variable {m m' : Nre}

def nameless (m : Nre) (pCoro : ℕ) : Prop := ∀ key, m.commands key ≠ some (.coroResume pCoro)

def nameFound (m : Nre) (pCoro : ℕ) (pCurrentNs : Path) : Prop :=
  ∀ key, m.commands key = some (.coroResume pCoro) →
    ∀ co, m.coroutines[pCoro]? = some co → key = co.zName.resolve pCurrentNs

/-- A creation ends in the namespace, at the line and in the depths of its caller, with
callbacks left after a yield and without a command otherwise. -/
def createAllowed (m : Nre) (pBottom : Chain) (rc : ReturnCode) (canceled : Bool)
    (pCoro : ℕ) (before : Outer) : Prop :=
  if rc = .yield then
    m.ctx.pCallbacks ≠ pBottom ∧ canceled = false ∧
      m.ctx.place = { before.place with
        pFrame := m.ctx.place.pFrame, nEvalDepth := before.place.nEvalDepth + 1 }
  else
    m.ctx.pCallbacks = pBottom ∧ rc ≠ .suspend ∧ m.nameless pCoro ∧
      m.ctx.place = { before.place with
        pFrame := m.ctx.place.pFrame
        nEvalDepth := if canceled then m.ctx.place.nEvalDepth
          else before.place.nEvalDepth }

/-- The caller of the trampoline can give back what it has found, and a resumption that ends
its coroutine finds the command. -/
def goOnAllowed (m : Nre) (pBottom : Chain) (rc : ReturnCode) (canceled : Bool) :
    Caller → Prop
  | .coroCreate pCoro _ _ _ before => m.createAllowed pBottom rc canceled pCoro before
  | .coroResume pCoro outerCtx _ =>
    rc = .yield ∧ m.ctx.pSuspendedCallbacks ++ m.ctx.pCallbacks ≠ [] ∨
      m.nameFound pCoro outerCtx.place.pCurrentNs
  | _ => True

/-- The move drops no callback of a coroutine, and the end of a trampoline is one that its
caller can deal with. -/
def CoroAllowed (m : Nre) (i : Move) : Prop :=
  (m.stack.any Activity.ofCoroutine → m.dropsBy i = []) ∧
    ∀ t caller rest, m.stack = .trampoline t caller :: rest →
      match i with
      | .finish canceled => m.goOnAllowed t.pBottom t.rc canceled caller
      | .suspend canceled => m.goOnAllowed t.pBottom .suspend canceled caller
      | .unwind canceled =>
        goOnAllowed { m with ctx := { m.ctx with pCallbacks := t.pBottom } } t.pBottom
          .error canceled caller
      | _ => True

/-! ## The invariant -/

def Caller.Faithful (t : Activation) : Caller → Prop
  | .coroCreate _ pOuterYielding pSavedFrame nSavedDepth before =>
    t.pBottom = before.pCallbacks ∧ pSavedFrame = before.place.pFrame ∧
      nSavedDepth = before.place.nEvalDepth ∧ pOuterYielding = before.pYieldingCoro
  | _ => True

def NoneDone (m : Nre) : Prop :=
  ∀ pCoro co, m.coroutines[pCoro]? = some co → co.bDone → m.nameless pCoro

theorem NoneDone.mono (h : NoneDone m)
    (hcommands : ∀ key pCoro, m'.commands key = some (.coroResume pCoro) →
      ∃ key', m.commands key' = some (.coroResume pCoro))
    (hdone : ∀ (pCoro : ℕ) (co' : Coroutine), m'.coroutines[pCoro]? = some co' → co'.bDone →
      ∃ co : Coroutine, m.coroutines[pCoro]? = some co ∧ co.bDone) : NoneDone m' := by
  intro pCoro co' hco' hbDone key hkey
  obtain ⟨key', hkey'⟩ := hcommands key pCoro hkey
  obtain ⟨co, hco, hbDone⟩ := hdone pCoro co' hco' hbDone
  exact h pCoro co hco hbDone key' hkey'

theorem NoneDone.congr (h : NoneDone m) (hcommands : m'.commands = m.commands)
    (hcoroutines : m'.coroutines = m.coroutines) : NoneDone m' :=
  h.mono (fun key _ hkey => ⟨key, hcommands ▸ hkey⟩)
    (fun _ co' hco' hbDone => ⟨co', hcoroutines ▸ hco', hbDone⟩)

theorem NoneDone.setCoroutine (h : NoneDone m) (pCoro : ℕ) {f : Coroutine → Coroutine}
    (hf : ∀ co, (f co).bDone = co.bDone) (hcommands : m'.commands = m.commands)
    (hcoroutines : m'.coroutines = m.coroutines.modify pCoro f) : NoneDone m' := by
  refine h.mono (fun key _ hkey => ⟨key, hcommands ▸ hkey⟩) ?_
  intro pCoro' co' hco' hbDone
  rw [hcoroutines, getElem?_modify] at hco'
  obtain ⟨co, hco, rfl⟩ := map_eq_some_iff.mp hco'
  refine ⟨co, hco, ?_⟩
  split_ifs at hbDone
  · rwa [hf] at hbDone
  · exact hbDone

theorem nameFound.setCoroutine {pCoro : ℕ} {pCurrentNs : Path} (h : m.nameFound pCoro pCurrentNs)
    {f : Coroutine → Coroutine} (hf : ∀ co, (f co).zName = co.zName)
    (hcommands : m'.commands = m.commands)
    (hcoroutines : m'.coroutines = m.coroutines.modify pCoro f) :
    m'.nameFound pCoro pCurrentNs := by
  intro key hkey co' hco'
  rw [hcoroutines, getElem?_modify_eq] at hco'
  obtain ⟨co, hco, rfl⟩ := map_eq_some_iff.mp hco'
  rw [hf]
  exact h key (hcommands ▸ hkey) co hco

theorem deleteCommand_commands {key key' : Path} {cmd : Command}
    (h : (m.deleteCommand key).commands key' = some cmd) :
    m.commands key' = some cmd ∧ (key' = key → m.commands key = none) := by
  rw [deleteCommand] at h
  split at h
  · have hne : key' ≠ key := fun heq => by simp [heq] at h
    exact ⟨by simpa [hne] using h, fun heq => absurd heq hne⟩
  · have hne : key' ≠ key := fun heq => by simp [heq] at h
    exact ⟨by simpa [hne] using h, fun heq => absurd heq hne⟩
  · rename_i hnone
    exact ⟨h, fun _ => hnone⟩

theorem deleteCommand_coroutines (m : Nre) (key : Path) :
    (m.deleteCommand key).coroutines = m.coroutines := by
  obtain ⟨commands, pending, heq⟩ := deleteCommand_eq m key
  rw [heq]

section

variable (h : NoneDone m)

include h

theorem NoneDone.setDone {pCoro : ℕ} (hname : m.nameless pCoro)
    (hcommands : m'.commands = m.commands)
    (hcoroutines : m'.coroutines = m.coroutines.modify pCoro
      fun co => { co with bDone := true }) : NoneDone m' := by
  intro pCoro' co' hco' hbDone key
  rw [hcommands]
  by_cases heq : pCoro' = pCoro
  · rw [heq]
    exact hname key
  · refine h pCoro' co' ?_ hbDone key
    simpa [hcoroutines, getElem?_modify, Ne.symm heq] using hco'

theorem NoneDone.deleteCommand (key : Path) : NoneDone (m.deleteCommand key) := by
  refine h.mono (fun key' pCoro hkey' => ⟨key', (deleteCommand_commands hkey').1⟩) ?_
  intro pCoro co' hco' hbDone
  rw [deleteCommand_coroutines] at hco'
  exact ⟨co', hco', hbDone⟩

theorem NoneDone.renameCommand (key key' : Path) : NoneDone (m.renameCommand key key') := by
  rw [Nre.renameCommand]
  split_ifs
  · refine h.mono (fun key₁ pCoro hkey₁ => ?_) fun _ co' hco' hbDone => ⟨co', hco', hbDone⟩
    by_cases heq : key₁ = key'
    · rw [heq] at hkey₁
      exact ⟨key, by simpa using hkey₁⟩
    · have hkey₂ : Function.update m.commands key none key₁ = some (.coroResume pCoro) := by
        simpa [heq] using hkey₁
      by_cases heq' : key₁ = key
      · simp [heq'] at hkey₂
      · exact ⟨key₁, by simpa [heq'] using hkey₂⟩
  · exact h

theorem NoneDone.defineCommand (key : Path) : NoneDone (m.defineCommand key) := by
  refine h.mono (fun key₁ pCoro hkey₁ => ?_) ?_
  · by_cases heq : key₁ = key
    · simp [Nre.defineCommand, heq] at hkey₁
    · exact ⟨key₁, by simpa [Nre.defineCommand, heq] using hkey₁⟩
  · intro pCoro co' hco' hbDone
    have hsame : (m.defineCommand key).coroutines = m.coroutines := deleteCommand_coroutines m key
    exact ⟨co', hsame ▸ hco', hbDone⟩

theorem NoneDone.coroDone {pCoro : ℕ}
    (hfound : nameFound m pCoro m.ctx.place.pCurrentNs) : NoneDone (m.coroDone pCoro) := by
  rw [Nre.coroDone]
  split
  · rename_i co hco
    intro pCoro' co' hco' hbDone key hkey
    rw [deleteCommand_coroutines] at hco'
    obtain ⟨hkey', hne⟩ := deleteCommand_commands hkey
    by_cases heq : pCoro' = pCoro
    · subst heq
      have hkey'' := hfound key hkey' co hco
      have hnone := hne hkey''
      rw [← hkey''] at hnone
      exact absurd (hnone.symm.trans hkey') (by simp)
    · refine h pCoro' co' ?_ hbDone key hkey'
      simpa [Nre.setCoroutine, getElem?_modify, Ne.symm heq] using hco'
  · exact h

end

/-- What creations under way have kept, what has been given back, and what is done. -/
structure Faithful (m : Nre) : Prop where
  callers : ∀ t caller, .trampoline t caller ∈ m.stack → caller.Faithful t
  returned : ∀ p ∈ m.returned, p.2 = p.1
  done : NoneDone m

theorem faithful_fresh : Faithful fresh :=
  ⟨by simp [fresh], by simp [fresh], fun _ _ h => by simp [fresh] at h⟩

/-! ## Code -/

section

variable (h : Faithful m)

include h

theorem Faithful.note (events : List Event) (hstack : m'.stack = note events m.stack)
    (hreturned : m'.returned = m.returned) (hdone : NoneDone m') : Faithful m' := by
  refine ⟨fun t caller ht => ?_, hreturned ▸ h.returned, hdone⟩
  rw [hstack] at ht
  obtain ⟨t', -, hbottom, ht'⟩ := mem_note ht
  have hcaller := h.callers t' caller ht'
  cases caller with
  | coroCreate => exact ⟨hbottom.symm.trans hcaller.1, hcaller.2⟩
  | _ => trivial

theorem Faithful.congr (hstack : m'.stack = m.stack)
    (hreturned : m'.returned = m.returned) (hdone : NoneDone m') : Faithful m' :=
  ⟨hstack ▸ h.callers, hreturned ▸ h.returned, hdone⟩

theorem Faithful.push {t : Activation} {caller : Caller}
    (hcaller : caller.Faithful t) (hstack : m'.stack = .trampoline t caller :: m.stack)
    (hreturned : m'.returned = m.returned) (hdone : NoneDone m') : Faithful m' := by
  refine ⟨fun t' caller' ht => ?_, hreturned ▸ h.returned, hdone⟩
  rw [hstack] at ht
  rcases mem_cons.mp ht with heq | ht
  · obtain ⟨rfl, rfl⟩ := Activity.trampoline.inj heq
    exact hcaller
  · exact h.callers t' caller' ht

theorem Faithful.returns {before : Outer} (hbefore : m.outer = before) :
    Faithful (m.returns before) := by
  refine ⟨h.callers, fun p hp => ?_, h.done.congr rfl rfl⟩
  rcases mem_append.mp hp with hp | hp
  · exact h.returned p hp
  · rw [mem_singleton.mp hp]
    exact hbefore

theorem Faithful.evalLocal {caller : Caller}
    (hcaller : ∀ t : Activation, t.pBottom = m.ctx.pCallbacks → caller.Faithful t)
    (callbacks : ℕ) (rc : ReturnCode) : Faithful (m.evalLocal callbacks rc caller) := by
  rw [Nre.evalLocal]
  split_ifs
  · exact h.push (hcaller _ rfl) rfl rfl (h.done.congr rfl rfl)
  · exact h.push (hcaller _ rfl) rfl rfl (h.done.congr rfl rfl)

theorem Faithful.coroCreate (zName : Name)
    (hasRecord hasCommand hasBody : Bool) (callbacks : ℕ) (rc : ReturnCode) :
    Faithful (m.coroCreate zName hasRecord hasCommand hasBody callbacks rc) := by
  have hdone (commands : Path → Option Command)
      (hcommands : ∀ key pCoro, commands key = some (.coroResume pCoro) →
        m.commands key = some (.coroResume pCoro) ∨ pCoro = m.coroutines.length) :
      NoneDone { m with
        coroutines := m.coroutines ++ [⟨noCtx, false, zName, false⟩]
        commands := commands } := by
    intro pCoro co hco hbDone key hkey
    rcases Nat.lt_trichotomy pCoro m.coroutines.length with hlt | heq | hgt
    · rw [getElem?_append_left hlt] at hco
      rcases hcommands key pCoro hkey with hold | heq
      · exact h.done pCoro co hco hbDone key hold
      · omega
    · rw [heq, getElem?_concat_length] at hco
      rw [← some.inj hco] at hbDone
      cases hbDone
    · rw [getElem?_eq_none (by simp; omega)] at hco
      cases hco
  have hnew (key key' : Path) (pCoro : ℕ)
      (hkey' : Function.update m.commands key (some (.coroResume m.coroutines.length)) key' =
        some (.coroResume pCoro)) :
      m.commands key' = some (.coroResume pCoro) ∨ pCoro = m.coroutines.length := by
    by_cases heq : key' = key
    · rw [heq] at hkey'
      exact .inr (by simpa using hkey'.symm)
    · exact .inl (by simpa [heq] using hkey')
  have hfaithful (commands : Path → Option Command)
      (hcommands : ∀ key pCoro, commands key = some (.coroResume pCoro) →
        m.commands key = some (.coroResume pCoro) ∨ pCoro = m.coroutines.length) :
      Faithful { m with
        coroutines := m.coroutines ++ [⟨noCtx, false, zName, false⟩]
        commands := commands } :=
    h.congr rfl rfl (hdone commands hcommands)
  rw [Nre.coroCreate]
  dsimp only
  split_ifs
  · exact h.returns rfl
  · exact (hfaithful _ (hnew _)).returns rfl
  · exact (hfaithful _ fun _ _ => .inl).returns rfl
  · refine Faithful.evalLocal ?_ ?_ callbacks rc
    · have hcreated := hfaithful _ (hnew (zName.resolve m.ctx.place.pCurrentNs))
      exact hcreated.congr rfl rfl (hcreated.done.congr rfl rfl)
    · exact fun t ht => ⟨ht, rfl, rfl, rfl⟩
  · refine Faithful.evalLocal ?_ ?_ callbacks rc
    · have hcreated := hfaithful m.commands fun _ _ => .inl
      exact hcreated.congr rfl rfl (hcreated.done.congr rfl rfl)
    · exact fun t ht => ⟨ht, rfl, rfl, rfl⟩

theorem Faithful.coroResume {key : Path} (hmove : m.coroResume key = some m') : Faithful m' := by
  rw [Nre.coroResume] at hmove
  split at hmove
  case h_2 => cases hmove
  rename_i pCoro _
  split at hmove
  case h_2 => cases hmove
  rename_i co hco
  split_ifs at hmove
  · cases hmove
    exact h.returns rfl
  · cases hmove
    refine h.push (by trivial) rfl rfl ?_
    exact h.done.setCoroutine pCoro
      (f := fun co => { co with ctx := { co.ctx with pCallbacks := [] } }) (fun _ => rfl) rfl rfl

theorem Faithful.coroDelete (hmove : m.coroDelete = some m') : Faithful m' := by
  rw [Nre.coroDelete] at hmove
  split at hmove
  case h_2 => cases hmove
  rename_i pCoro pending _
  split at hmove
  case h_2 => cases hmove
  rename_i co hco
  have hdone {m₁ : Nre} (hcommands : m₁.commands = m.commands)
      (hcoroutines : m₁.coroutines = m.coroutines.modify pCoro
        fun co => { co with ctx := noCtx, freed := true }) : NoneDone m₁ :=
    h.done.setCoroutine pCoro (f := fun co => { co with ctx := noCtx, freed := true })
      (fun _ => rfl) hcommands hcoroutines
  split_ifs at hmove
  · rw [← some.inj hmove, coroDeleteSuspended]
    split_ifs
    · exact h.congr rfl rfl (hdone rfl rfl)
    · exact h.push (by trivial) rfl rfl (hdone rfl rfl)
  · cases hmove
    exact h.push (by trivial) rfl rfl (hdone rfl rfl)

theorem Faithful.codeMove {i : Move} (hmove : m.codeMove i = some m') : Faithful m' := by
  cases i with
  | addCallback hasMemory =>
    rw [← some.inj hmove, Nre.addCallback]
    split_ifs
    · exact h.note _ rfl rfl (h.done.congr rfl rfl)
    · exact h
  | move place =>
    cases hmove
    exact h.congr rfl rfl (h.done.congr rfl rfl)
  | evalCommon pFrame callbacks rc =>
    cases hmove
    refine Faithful.evalLocal ?_ ?_ callbacks rc
    · exact h.congr rfl rfl (h.done.congr rfl rfl)
    · exact fun _ _ => trivial
  | evalDownlevel pTarget pNs callbacks rc =>
    cases hmove
    refine Faithful.evalLocal ?_ ?_ callbacks rc
    · exact h.congr rfl rfl (h.done.congr rfl rfl)
    · exact fun _ _ => trivial
  | thaw =>
    rw [← some.inj hmove, Nre.thaw]
    split_ifs
    · exact h
    · exact h.push (by trivial) rfl rfl (h.done.congr rfl rfl)
  | coroCreate zName hasRecord hasCommand hasBody callbacks rc =>
    cases hmove
    exact h.coroCreate zName hasRecord hasCommand hasBody callbacks rc
  | coroResume key => exact h.coroResume hmove
  | coroDelete => exact h.coroDelete hmove
  | deleteCommand key =>
    cases hmove
    have hsame : (m.deleteCommand key).stack = m.stack ∧
        (m.deleteCommand key).returned = m.returned := by
      obtain ⟨commands, pending, heq⟩ := deleteCommand_eq m key
      rw [heq]
      exact ⟨rfl, rfl⟩
    exact h.congr hsame.1 hsame.2 (h.done.deleteCommand key)
  | renameCommand key key' =>
    cases hmove
    refine h.congr ?_ ?_ (h.done.renameCommand key key') <;>
    · rw [Nre.renameCommand]
      split_ifs <;> rfl
  | defineCommand key =>
    cases hmove
    have hsame : (m.deleteCommand key).stack = m.stack ∧
        (m.deleteCommand key).returned = m.returned := by
      obtain ⟨commands, pending, heq⟩ := deleteCommand_eq m key
      rw [heq]
      exact ⟨rfl, rfl⟩
    exact h.congr hsame.1 hsame.2 (h.done.defineCommand key)
  | callbackReturn rc =>
    simp only [Nre.codeMove, Nre.callbackReturn] at hmove
    split at hmove
    · rename_i n t caller rest hstack
      cases hmove
      refine ⟨fun t' caller' ht => ?_, h.returned, h.done.congr rfl rfl⟩
      rcases mem_cons.mp ht with heq | ht
      · obtain ⟨rfl, rfl⟩ := Activity.trampoline.inj heq
        exact h.callers t caller' (by simp [hstack])
      · exact h.callers t' caller' (by simp [hstack, ht])
    · cases hmove
  | _ => cases hmove

theorem Faithful.run {canceled : Bool} (hmove : m.run canceled = some m') : Faithful m' := by
  rw [Nre.run] at hmove
  split at hmove
  case h_2 => cases hmove
  rename_i t caller rest n chain hstack hchain
  by_cases hstop : n :: chain = t.pBottom ∨ t.yielded
  · rw [if_pos hstop] at hmove
    cases hmove
  rw [if_neg hstop] at hmove
  cases hmove
  refine ⟨fun t' caller' ht => ?_, h.returned, h.done.congr rfl rfl⟩
  simp only [mem_cons, reduceCtorEq, Activity.trampoline.injEq, false_or] at ht
  rcases ht with ⟨rfl, rfl⟩ | ht
  · exact h.callers t caller' (by simp [hstack])
  · exact h.callers t' caller' (by simp [hstack, ht])

end

/-! ## The end of a trampoline -/

section Leaving

variable {t : Activation} {caller : Caller} {rest : List Activity} {rc : ReturnCode}
  {canceled : Bool}

section

variable (h : Faithful m)

include h

theorem Faithful.yielded {pCoro : ℕ} {pOuterYielding : Option ℕ}
    {pSavedFrame : ℕ} {nSavedDepth : ℤ} {before : Outer}
    (hcaller : (Caller.coroCreate pCoro pOuterYielding pSavedFrame nSavedDepth before).Faithful t)
    (hchain : m.ctx.pCallbacks ≠ t.pBottom)
    (hplace : m.ctx.place = { before.place with
      pFrame := m.ctx.place.pFrame, nEvalDepth := before.place.nEvalDepth + 1 }) :
    Faithful (m.goOn t.pBottom .yield false
      (.coroCreate pCoro pOuterYielding pSavedFrame nSavedDepth before)) := by
  obtain ⟨hbottom, hframe, -, hyielding⟩ := hcaller
  have hbreaks : ReturnCode.yield.breaksOff = true ∧ m.ctx.pCallbacks ≠ t.pBottom := ⟨rfl, hchain⟩
  rw [goOn, coroCreateEnd, if_pos rfl]
  refine Faithful.returns ?_ ?_
  · refine h.congr rfl rfl (h.done.setCoroutine pCoro (fun co => ?_) rfl rfl)
    split_ifs <;> rfl
  · have hdepth : m.ctx.place.nEvalDepth - 1 = before.place.nEvalDepth := by
      rw [hplace]
      exact Int.add_sub_cancel before.place.nEvalDepth 1
    simp only [evalEnd, outer, if_pos hbreaks]
    simp only [Bool.false_eq_true, if_false, hdepth, hframe, hyielding, hbottom]
    rw [hplace]

theorem Faithful.finished {pCoro : ℕ} {pOuterYielding : Option ℕ}
    {pSavedFrame : ℕ} {nSavedDepth : ℤ} {before : Outer}
    (hcaller : (Caller.coroCreate pCoro pOuterYielding pSavedFrame nSavedDepth before).Faithful t)
    (hrc : rc ≠ .yield) (hchain : m.ctx.pCallbacks = t.pBottom) (hsuspend : rc ≠ .suspend)
    (hname : m.nameless pCoro)
    (hplace : m.ctx.place = { before.place with
      pFrame := m.ctx.place.pFrame
      nEvalDepth := if canceled then m.ctx.place.nEvalDepth
        else before.place.nEvalDepth }) :
    Faithful (m.goOn t.pBottom rc canceled
      (.coroCreate pCoro pOuterYielding pSavedFrame nSavedDepth before)) := by
  obtain ⟨hbottom, hframe, hsaved, hyielding⟩ := hcaller
  have hbreaks : rc.breaksOff = false := by
    cases rc with
    | yield => exact absurd rfl hrc
    | suspend => exact absurd rfl hsuspend
    | _ => rfl
  rw [goOn, coroCreateEnd, if_neg hrc]
  refine Faithful.returns ?_ ?_
  · refine h.congr rfl rfl ?_
    exact h.done.setDone hname rfl rfl
  · have hdepth : (if canceled then nSavedDepth else m.ctx.place.nEvalDepth) =
        before.place.nEvalDepth := by
      cases canceled with
      | true => exact hsaved
      | false =>
        rw [hplace]
        rfl
    simp only [setCoroutine, evalEnd, outer, hbreaks, Bool.false_eq_true, false_and, if_false,
      hdepth, hframe, hyielding, hchain, hbottom]
    rw [hplace]

theorem Faithful.resumed {pCoro : ℕ} {outerCtx : ExecCtx}
    {pOuterYielding : Option ℕ}
    (hallowed : rc = .yield ∧ m.ctx.pSuspendedCallbacks ++ m.ctx.pCallbacks ≠ [] ∨
      m.nameFound pCoro outerCtx.place.pCurrentNs) :
    Faithful (m.goOn t.pBottom rc canceled (.coroResume pCoro outerCtx pOuterYielding)) := by
  have hswitched (m₁ : Nre) (hstack : m₁.stack = m.stack) (hreturned : m₁.returned = m.returned)
      (hdone : NoneDone m₁) (hctx : m₁.ctx = outerCtx)
      (hyielding : m₁.pYieldingCoro = pOuterYielding) :
      Faithful (m₁.returns ⟨outerCtx.pCallbacks, outerCtx.place, pOuterYielding⟩) := by
    refine Faithful.returns (h.congr hstack hreturned hdone) ?_
    rw [outer, hctx, hyielding]
  have hended (m₁ : Nre) (hstack : m₁.stack = m.stack) (hreturned : m₁.returned = m.returned)
      (hdone : NoneDone m₁) (hctx : m₁.ctx = outerCtx)
      (hyielding : m₁.pYieldingCoro = pOuterYielding)
      (hfound : m₁.nameFound pCoro outerCtx.place.pCurrentNs) :
      Faithful ((m₁.coroDone pCoro).returns
        ⟨outerCtx.pCallbacks, outerCtx.place, pOuterYielding⟩) := by
    obtain ⟨commands, pending, heq⟩ := coroDone_eq m₁ pCoro
    have hnone : NoneDone (m₁.coroDone pCoro) := by
      refine hdone.coroDone ?_
      rwa [hctx]
    rw [heq] at hnone ⊢
    exact hswitched _ hstack hreturned hnone hctx hyielding
  have hsaved (ctx : ExecCtx) {m₁ : Nre} (hcommands : m₁.commands = m.commands)
      (hcoroutines : m₁.coroutines = (m.saveExecCtx pCoro ctx).coroutines) : NoneDone m₁ := by
    refine h.done.setCoroutine pCoro (fun co => ?_) hcommands hcoroutines
    split_ifs <;> rfl
  rw [goOn, coroResumeEnd]
  split_ifs with hyield hchain
  · have hfound := hallowed.resolve_left fun hleft => hleft.2 hchain
    refine hended _ rfl rfl (hsaved _ rfl rfl) rfl rfl ?_
    refine hfound.setCoroutine (fun co => ?_) rfl rfl
    split_ifs <;> rfl
  · exact hswitched _ rfl rfl (hsaved _ rfl rfl) rfl rfl
  · have hfound := hallowed.resolve_left fun hleft => hyield hleft.1
    exact hended _ rfl rfl (h.done.congr rfl rfl) rfl rfl hfound

theorem Faithful.goOn (hcaller : caller.Faithful t)
    (hallowed : m.goOnAllowed t.pBottom rc canceled caller) :
    Faithful (m.goOn t.pBottom rc canceled caller) := by
  cases caller with
  | evalCommon pSavedFrame nSavedDepth => exact h.congr rfl rfl (h.done.congr rfl rfl)
  | evalDownlevel pSaved pSavedNs => exact h.note _ rfl rfl (h.done.congr rfl rfl)
  | thaw pSaved => exact h.congr rfl rfl (h.done.congr rfl rfl)
  | coroCreate pCoro pOuterYielding pSavedFrame nSavedDepth before =>
    rw [goOnAllowed, createAllowed] at hallowed
    by_cases hyield : rc = .yield
    · rw [if_pos hyield] at hallowed
      obtain ⟨hchain, rfl, hplace⟩ := hallowed
      rw [hyield]
      exact h.yielded hcaller hchain hplace
    · rw [if_neg hyield] at hallowed
      obtain ⟨hchain, hsuspend, hname, hplace⟩ := hallowed
      exact h.finished hcaller hyield hchain hsuspend hname hplace
  | coroResume pCoro outerCtx pOuterYielding => exact h.resumed hallowed
  | coroDelete outerCtx pSuspended =>
    rw [Nre.goOn, coroDeleteSuspended]
    split_ifs
    · exact h.congr rfl rfl (h.done.congr rfl rfl)
    · exact h.push (by trivial) rfl rfl (h.done.congr rfl rfl)
  | coroDeleteSuspended outerCtx => exact h.congr rfl rfl (h.done.congr rfl rfl)

section

variable (hstack : m.stack = .trampoline t caller :: rest)

include hstack

theorem Faithful.pop (hstack' : m'.stack = rest) (hreturned : m'.returned = m.returned)
    (hcommands : m'.commands = m.commands) (hcoroutines : m'.coroutines = m.coroutines) :
    Faithful m' := by
  refine ⟨fun t' caller' ht => ?_, hreturned ▸ h.returned, h.done.congr hcommands hcoroutines⟩
  rw [hstack'] at ht
  exact h.callers t' caller' (by simp [hstack, ht])

theorem Faithful.leave {ending : Ending} (hallowed : m.goOnAllowed t.pBottom rc canceled caller)
    (hmove : m.leave rc ending canceled = some m') : Faithful m' := by
  rw [Nre.leave, hstack] at hmove
  cases hmove
  refine Faithful.goOn ?_ (h.callers t caller (by simp [hstack])) ?_
  · exact h.pop hstack rfl rfl rfl rfl
  · cases caller <;> exact hallowed

end

end

end Leaving

theorem Faithful.next (h : Faithful m) {i : Move} (hallowed : CoroAllowed m i)
    (hmove : m.next i = some m') : Faithful m' := by
  have hcode (hnext : m.next i = if m.inCode then m.codeMove i else none) : Faithful m' := by
    rw [hnext] at hmove
    split_ifs at hmove
    exact h.codeMove hmove
  cases i with
  | run canceled => exact h.run hmove
  | finish canceled =>
    simp only [Nre.next, Nre.finish] at hmove
    split at hmove
    · rename_i t caller rest hstack
      have hgoOn := hallowed.2 t caller rest hstack
      split_ifs at hmove
      · exact h.leave hstack hgoOn hmove
      · exact h.leave hstack hgoOn hmove
    · cases hmove
  | suspend canceled =>
    simp only [Nre.next, Nre.suspend] at hmove
    split at hmove
    · rename_i t caller rest hstack
      have hgoOn := hallowed.2 t caller rest hstack
      split_ifs at hmove
      exact h.leave hstack hgoOn hmove
    · cases hmove
  | unwind canceled =>
    simp only [Nre.next, Nre.unwind] at hmove
    split at hmove
    · rename_i t caller rest hstack
      have hgoOn := hallowed.2 t caller rest hstack
      split_ifs at hmove
      cases hmove
      refine Faithful.goOn ?_ (h.callers t caller (by simp [hstack])) ?_
      · exact h.pop hstack rfl rfl rfl rfl
      · cases caller <;> exact hgoOn
    · cases hmove
  | _ => exact hcode rfl

theorem Faithful.step (h : Faithful m) {i : Move} (hallowed : CoroAllowed m i) :
    Faithful (m.step i) := by
  rw [Nre.step]
  cases hmove : m.next i with
  | none => exact h
  | some m' => exact h.next hallowed hmove

/-! ## Runs -/

structure Separate (m : Nre) : Prop where
  /-- Callers of a creation or resumption find the context they had. -/
  returned : ∀ p ∈ m.returned, p.2 = p.1
  /-- A callback waits, or has been invoked, freed by an unwinding cancellation or dropped
  with no coroutine under way, once. -/
  once : (m.waiting ++ m.invoked ++ m.released ++ m.dropped.map Prod.fst).Perm
    (List.range m.nextCallback)
  dropped : ∀ d ∈ m.dropped, d.2 = false
  /-- The command of a coroutine that is done does not exist. -/
  done : NoneDone m

theorem Kept.each (h : Kept m) :
    (m.waiting ++ m.invoked ++ m.released ++ m.dropped.map Prod.fst).Perm
      (List.range m.nextCallback) := by
  refine perm_iff_count.mpr fun n => ?_
  rw [count_append, count_append, count_append]
  refine (h.tally n).trans ?_
  split_ifs with hn
  · exact (count_eq_one_of_mem nodup_range (mem_range.mpr hn)).symm
  · exact (count_eq_zero_of_not_mem fun hmem => hn (mem_range.mp hmem)).symm

/-- In every run of such moves a creation or resumption gives its caller back the context it
had, callbacks come to their end once, and a coroutine that is done has no command. -/
theorem separate_of_reachable (hrun : ReachableBy Nre.step CoroAllowed fresh m) : Separate m := by
  have hstep (m : Nre) (i : Move)
      (h : Kept m ∧ Faithful m ∧ ∀ d ∈ m.dropped, d.2 = false) (hallowed : CoroAllowed m i) :
      Kept (m.step i) ∧ Faithful (m.step i) ∧ ∀ d ∈ (m.step i).dropped, d.2 = false := by
    obtain ⟨hkept, hfaithful, hdropped⟩ := h
    refine ⟨hkept.step i, hfaithful.step hallowed, fun d hd => ?_⟩
    rw [step_dropped] at hd
    rcases mem_append.mp hd with hd | hd
    · exact hdropped d hd
    · obtain ⟨n, hn, rfl⟩ := mem_map.mp hd
      refine Bool.eq_false_iff.mpr fun hunder => ?_
      rw [hallowed.1 hunder] at hn
      cases hn
  obtain ⟨hkept, hfaithful, hdropped⟩ : Kept m ∧ Faithful m ∧ ∀ d ∈ m.dropped, d.2 = false := by
    refine ReachableBy.invariant ?_ hstep hrun
    exact ⟨kept_fresh, faithful_fresh, by simp [fresh]⟩
  exact ⟨hfaithful.returned, hkept.each, hdropped, hfaithful.done⟩

def Move.ends : Move → Bool
  | .finish _ => true
  | .suspend _ => true
  | .unwind _ => true
  | _ => false

theorem CoroAllowed.goesOn {i : Move} (hends : i.ends = false) : CoroAllowed m i := by
  cases i with
  | finish canceled => cases hends
  | suspend canceled => cases hends
  | unwind canceled => cases hends
  | _ => exact ⟨fun _ => rfl, fun _ _ _ _ => trivial⟩

theorem CoroAllowed.finish {t : Activation} {caller : Caller} {rest : List Activity}
    {canceled : Bool} (hstack : m.stack = .trampoline t caller :: rest)
    (hdrops : m.dropsBy (.finish canceled) = [])
    (hallowed : m.goOnAllowed t.pBottom t.rc canceled caller) :
    CoroAllowed m (.finish canceled) := by
  refine ⟨fun _ => hdrops, fun t' caller' rest' hstack' => ?_⟩
  rw [hstack] at hstack'
  obtain ⟨heq, -⟩ := List.cons.inj hstack'
  obtain ⟨rfl, rfl⟩ := Activity.trampoline.inj heq
  exact hallowed

def yieldAndResume : List Move :=
  [.move ⟨1, [], 0, 0, 1⟩, .coroCreate ⟨false, [5]⟩ true true true 2 .ok, .run false,
    .callbackReturn .yield, .finish false, .coroResume [5], .run false, .callbackReturn .ok,
    .finish false]

theorem separate_yieldAndResume : Separate (yieldAndResume.foldl Nre.step fresh) := by
  have hallowed : ReachableBy.AllowedRun Nre.step CoroAllowed fresh yieldAndResume := by
    refine ⟨.goesOn rfl, .goesOn rfl, .goesOn rfl, .goesOn rfl, ?_, .goesOn rfl, .goesOn rfl,
      .goesOn rfl, ?_, trivial⟩
    · refine CoroAllowed.finish rfl (by decide) ?_
      exact ⟨by decide, rfl, by decide⟩
    · refine CoroAllowed.finish rfl (by decide) (.inr fun key hkey co hco => ?_)
      have hname : co.zName = ⟨false, [5]⟩ := by
        cases hco
        rfl
      have hcommands : Function.update (fun _ => none) [5] (some (Command.coroResume 0)) key =
          some (.coroResume 0) := hkey
      by_cases heq : key = [5]
      · rw [hname, heq]
        rfl
      · rw [Function.update_of_ne heq] at hcommands
        cases hcommands
  exact separate_of_reachable (ReachableBy.init.foldl hallowed)

/-- The command stays when a body has finished without a yield, and after a yield the
namespace of the body is left to the caller. -/
theorem coroutine_leftovers :
    let finishing : List Move := [.move ⟨1, [], 0, 0, 1⟩,
      .coroCreate ⟨false, [5]⟩ true true true 2 .ok, .run false, .callbackReturn .ok,
      .run false, .move ⟨1, [], 0, 0, 1⟩, .callbackReturn .ok, .finish false]
    let yielding : List Move := [.move ⟨1, [], 0, 0, 1⟩,
      .coroCreate ⟨false, [5]⟩ true true true 2 .ok, .run false, .addCallback true,
      .move ⟨2, [7], 1, 0, 1⟩, .callbackReturn .ok, .run false, .callbackReturn .yield,
      .finish false]
    let m₁ := finishing.foldl Nre.step fresh
    let m₂ := yielding.foldl Nre.step fresh
    m₁.stack = [] ∧ m₁.coroutines.map Coroutine.bDone = [true] ∧
      m₁.commands [5] = some (.coroResume 0) ∧ m₂.stack = [] ∧
      m₂.returned.map (fun p => (p.1.place.pCurrentNs, p.2.place.pCurrentNs)) = [([], [7])] := by
  decide

end Nre

end Th8
