import Mathlib.Data.List.Nodup
import Th8.Nre.Invariant

/-!
# The moves keep the callbacks

One lemma for each move: the order on the chain and the places of the callbacks are kept.
-/

namespace Th8

open Support List

namespace Nre

variable {m m' : Nre}

theorem flatMap_held_note (events : List Event) (stack : List Activity) :
    (note events stack).flatMap Activity.held = stack.flatMap Activity.held := by
  rw [note.eq_def]
  split
  · simp [Activity.held]
  · rfl

variable {t : Activation} {caller : Caller}

theorem mem_note {events : List Event} {stack : List Activity}
    (h : .trampoline t caller ∈ note events stack) :
    ∃ t', t'.start = t.start ∧ t'.pBottom = t.pBottom ∧ .trampoline t' caller ∈ stack := by
  rw [note.eq_def] at h
  split at h
  · rename_i n t₁ caller₁ rest
    rcases mem_cons.mp h with heq | h
    · cases heq
    · rcases mem_cons.mp h with heq | h
      · obtain ⟨rfl, rfl⟩ := Activity.trampoline.inj heq
        exact ⟨t₁, rfl, rfl, by simp⟩
      · exact ⟨t, rfl, rfl, by simp [h]⟩
  · exact ⟨t, rfl, rfl, h⟩

variable {finished : List Record}

theorem Sound.congr {t' : Activation} (h : Sound finished t caller) (hstart : t'.start = t.start) :
    Sound finished t' caller :=
  ⟨h.oneLoop, fun hresumes => hstart ▸ h.start hresumes, h.suspended⟩

theorem Sound.mono {finished' : List Record} (h : Sound finished t caller)
    (hsub : finished ⊆ finished') : Sound finished' t caller :=
  ⟨h.oneLoop, fun hresumes => (h.start hresumes).mono hsub, h.suspended.mono hsub⟩

theorem Kept.waits (h : Kept m) (hcode : m.inCode) : Waits m.stack m.ctx.pCallbacks := by
  have hlayout := h.layout
  rw [Layout.eq_def] at hlayout
  split at hlayout
  · rename_i hstack
    simp [inCode, hstack] at hcode
  · exact hlayout

theorem Kept.addCallback (h : Kept m) (hcode : m.inCode) (hasMemory : Bool) :
    Kept (m.addCallback hasMemory) := by
  rw [Nre.addCallback]
  split_ifs
  · refine ⟨⟨?_, h.suspended, h.saved, h.records, h.resumed, h.unwound⟩, ?_, fun n => ?_⟩
    · intro t caller ht
      obtain ⟨t', hstart, -, ht'⟩ := mem_note ht
      exact (h.sound t' caller ht').congr hstart.symm
    · exact ((h.waits hcode).note [m.nextCallback]).layout
    · have htally := h.tally n
      rw [tally_eq] at htally ⊢
      simp only [flatMap_held_note, count_cons, savedChains] at htally ⊢
      by_cases hn : m.nextCallback = n
      · subst hn
        simp at htally ⊢
        omega
      · have hlt : n < m.nextCallback + 1 ↔ n < m.nextCallback := by omega
        simp [hn, hlt]
        omega
  · exact h

/-! ## Calls of the trampoline -/

theorem Books.trampoline {pBottom start : Chain} {rc : ReturnCode} (h : Books m)
    (hwaits : Waits m.stack (caller.chain pBottom)) (hbottom : caller.ownsChain → pBottom = [])
    (honeLoop : caller.oneLoop) (hstart : caller.resumes → KeptChain m.finished start)
    (hsuspended : KeptChain m.finished caller.suspended) (htally : ∀ n, start.count n +
      pBottom.count n + m.ctx.pSuspendedCallbacks.count n + (m.stack.flatMap Activity.held).count n
      + caller.held.count n + m.savedChains.count n + m.invoked.count n + m.released.count n +
      (m.dropped.map Prod.fst).count n = if n < m.nextCallback then 1 else 0) :
    Kept (m.trampoline pBottom start rc caller) := by
  refine ⟨⟨?_, h.suspended, h.saved, h.records, h.resumed, h.unwound⟩, ?_, fun n => ?_⟩
  · intro t caller' ht
    rcases mem_cons.mp ht with heq | ht
    · obtain ⟨rfl, rfl⟩ := Activity.trampoline.inj heq
      exact ⟨honeLoop, hstart, hsuspended⟩
    · exact h.sound t caller' ht
  · exact ⟨Fits.start pBottom start rc hbottom, hwaits⟩
  · refine Eq.trans ?_ (htally n)
    rw [tally_eq]
    simp only [Nre.trampoline, count_append, flatMap_cons, Activity.held, savedChains]
    omega

theorem Caller.plain (h : caller.ownsChain = false) (pBottom : Chain) :
    caller.chain pBottom = pBottom ∧ caller.held = [] ∧ caller.oneLoop ∧
      caller.resumes = false ∧ caller.suspended = [] := by
  cases caller <;> first | exact ⟨rfl, rfl, trivial, rfl, rfl⟩ | cases h

theorem count_range'_reverse (next callbacks n : ℕ) :
    (List.range' next callbacks).reverse.count n =
      if next ≤ n ∧ n < next + callbacks then 1 else 0 := by
  rw [count_reverse]
  split_ifs with hn
  · exact count_eq_one_of_mem nodup_range' (mem_range'_1.mpr hn)
  · exact count_eq_zero_of_not_mem fun hmem => hn (mem_range'_1.mp hmem)

section

variable (h : Kept m)

include h

theorem Kept.evalLocal (hcode : m.inCode) (hcaller : caller.ownsChain = false)
    (callbacks : ℕ) (rc : ReturnCode) :
    Kept (m.evalLocal callbacks rc caller) := by
  obtain ⟨hchain, hheld, honeLoop, hresumes, hsuspended⟩ := Caller.plain hcaller m.ctx.pCallbacks
  have hwaits : Waits m.stack (caller.chain m.ctx.pCallbacks) := by
    rw [hchain]
    exact h.waits hcode
  have hkept : KeptChain m.finished caller.suspended := by
    rw [hsuspended]
    exact .nil
  have hbottom : caller.ownsChain → m.ctx.pCallbacks = [] := by simp [hcaller]
  have hstart (start : Chain) : caller.resumes → KeptChain m.finished start := by
    simp [hresumes]
  rw [Nre.evalLocal]
  split_ifs with hzero
  · refine h.toBooks.trampoline hwaits hbottom honeLoop (hstart []) hkept fun n => ?_
    have htally := h.tally n
    rw [tally_eq] at htally
    rw [hheld, count_nil]
    omega
  · refine Books.trampoline ⟨h.sound, h.suspended, h.saved, h.records, h.resumed, h.unwound⟩
      hwaits hbottom honeLoop (hstart _) hkept fun n => ?_
    have htally := h.tally n
    rw [tally_eq] at htally
    rw [hheld, count_nil, count_range'_reverse]
    simp only [savedChains] at htally ⊢
    have hsplit : (if n < m.nextCallback + callbacks then 1 else 0) =
        (if n < m.nextCallback then 1 else 0) +
          if m.nextCallback ≤ n ∧ n < m.nextCallback + callbacks then 1 else 0 := by
      split_ifs <;> omega
    rw [hsplit]
    omega

theorem Kept.move (place : Place) : Kept (m.move place) :=
  h.congr rfl rfl rfl rfl rfl rfl rfl rfl rfl

theorem Kept.evalCommon (hcode : m.inCode) (pFrame callbacks : ℕ)
    (rc : ReturnCode) : Kept (m.evalCommon pFrame callbacks rc) := by
  refine Kept.evalLocal (h.move _) ?_ ?_ callbacks rc
  · exact hcode
  · rfl

theorem Kept.evalDownlevel (hcode : m.inCode) (pTarget : ℕ) (pNs : Path)
    (callbacks : ℕ) (rc : ReturnCode) : Kept (m.evalDownlevel pTarget pNs callbacks rc) := by
  refine Kept.evalLocal (h.move _) ?_ ?_ callbacks rc
  · exact hcode
  · rfl

theorem Kept.returns (before : Outer) : Kept (m.returns before) :=
  h.congr rfl rfl rfl rfl rfl rfl rfl rfl rfl

theorem Kept.deleteCommand (key : Path) : Kept (m.deleteCommand key) := by
  obtain ⟨commands, pending, heq⟩ := deleteCommand_eq m key
  rw [heq]
  exact h.congr rfl rfl rfl rfl rfl rfl rfl rfl rfl

theorem Kept.renameCommand (key key' : Path) : Kept (m.renameCommand key key') := by
  rw [Nre.renameCommand]
  split_ifs
  · exact h.congr rfl rfl rfl rfl rfl rfl rfl rfl rfl
  · exact h

section

variable (hcode : m.inCode)

include hcode

theorem Kept.thaw : Kept m.thaw := by
  rw [Nre.thaw]
  split_ifs
  · exact h
  · refine Books.trampoline ⟨h.sound, .nil, h.saved, h.records, h.resumed, h.unwound⟩
      (h.waits hcode) (fun _ => rfl) trivial (fun _ => h.suspended) .nil fun n => ?_
    have htally := h.tally n
    rw [tally_eq] at htally
    simp only [Caller.held, count_nil, savedChains] at htally ⊢
    omega

theorem Kept.coroCreate (zName : Name)
    (hasRecord hasCommand hasBody : Bool) (callbacks : ℕ) (rc : ReturnCode) :
    Kept (m.coroCreate zName hasRecord hasCommand hasBody callbacks rc) := by
  have hnew (commands : Path → Option Command) : Kept { m with
      coroutines := m.coroutines ++ [⟨noCtx, false, zName, false⟩]
      commands := commands } := by
    refine ⟨⟨h.sound, h.suspended, ?_, h.records, h.resumed, h.unwound⟩, h.layout, fun n => ?_⟩
    · intro co hco
      rcases mem_append.mp hco with hco | hco
      · exact h.saved co hco
      · rw [mem_singleton.mp hco]
        exact ⟨.nil, rfl⟩
    · have htally := h.tally n
      rw [tally_eq] at htally ⊢
      simpa [savedChains, noCtx] using htally
  rw [Nre.coroCreate]
  dsimp only
  split_ifs
  · exact h.returns _
  · exact (hnew _).returns _
  · exact (hnew _).returns _
  all_goals
    refine Kept.evalLocal ?_ ?_ ?_ callbacks rc
    rotate_left
    · exact hcode
    · rfl
    · exact (hnew m.commands).congr rfl rfl rfl rfl rfl rfl rfl rfl rfl

theorem Kept.coroResume {key : Path} (hmove : m.coroResume key = some m') : Kept m' := by
  rw [Nre.coroResume] at hmove
  split at hmove
  case h_2 => cases hmove
  rename_i pCoro _
  split at hmove
  case h_2 => cases hmove
  rename_i co hco
  have hmem := mem_of_getElem? hco
  split_ifs at hmove
  · cases hmove
    exact h.returns _
  · cases hmove
    have hnone := (h.saved co hmem).2
    have hsaved : ∀ co' ∈ m.coroutines.modify pCoro
        (fun co => { co with ctx := { co.ctx with pCallbacks := [] } }),
        KeptChain m.finished co'.ctx.pCallbacks ∧ co'.ctx.pSuspendedCallbacks = [] := by
      refine forall_mem_modify h.saved ?_ pCoro
      intro co hco
      exact ⟨.nil, hco.2⟩
    refine Books.trampoline ⟨h.sound, ?_, hsaved, h.records, h.resumed, h.unwound⟩
      (h.waits hcode) (fun _ => rfl) trivial (fun _ => (h.saved co hmem).1) h.suspended fun n => ?_
    · rw [hnone]
      exact .nil
    · have htally := h.tally n
      have hcount := count_flatMap_modify hco
        (fun co => { co with ctx := { co.ctx with pCallbacks := [] } })
        (fun co => co.ctx.pCallbacks) n
      rw [tally_eq] at htally
      refine Eq.trans ?_ htally
      simp only [Caller.held, count_append, count_nil, hnone, savedChains, setCoroutine] at hcount ⊢
      omega

theorem Kept.coroDelete (hmove : m.coroDelete = some m') : Kept m' := by
  rw [Nre.coroDelete] at hmove
  split at hmove
  case h_2 => cases hmove
  rename_i pCoro pending _
  split at hmove
  case h_2 => cases hmove
  rename_i co hco
  have hmem := mem_of_getElem? hco
  have hnone := (h.saved co hmem).2
  have hcount (n : ℕ) := count_flatMap_modify hco
    (fun co => { co with ctx := noCtx, freed := true }) (fun co => co.ctx.pCallbacks) n
  have hsaved : ∀ co' ∈ m.coroutines.modify pCoro
      (fun co => { co with ctx := noCtx, freed := true }),
      KeptChain m.finished co'.ctx.pCallbacks ∧ co'.ctx.pSuspendedCallbacks = [] :=
    forall_mem_modify h.saved (fun co _ => ⟨.nil, rfl⟩) pCoro
  split_ifs at hmove with hnil
  · rw [← Option.some.inj hmove, hnone]
    refine ⟨⟨h.sound, h.suspended, hsaved, h.records, h.resumed, h.unwound⟩, h.layout, fun n => ?_⟩
    have htally := h.tally n
    have hn := hcount n
    rw [tally_eq] at htally
    refine Eq.trans ?_ htally
    rw [tally_eq]
    simp only [coroDeleteSuspended, if_true, setCoroutine, savedChains, noCtx, hnil,
      count_nil] at hn ⊢
    omega
  · rw [← Option.some.inj hmove, hnone]
    refine Books.trampoline ⟨h.sound, ?_, hsaved, h.records, h.resumed, h.unwound⟩
      (h.waits hcode) (fun _ => rfl) rfl (fun _ => (h.saved co hmem).1) h.suspended fun n => ?_
    · rw [hnone]
      exact .nil
    · have htally := h.tally n
      have hn := hcount n
      rw [tally_eq] at htally
      refine Eq.trans ?_ htally
      simp only [Caller.held, count_append, count_nil, hnone, savedChains,
        setCoroutine, noCtx] at hn ⊢
      omega

end

end

variable {canceled : Bool}

theorem Kept.run (h : Kept m) (hmove : m.run canceled = some m') : Kept m' := by
  rw [Nre.run] at hmove
  split at hmove
  case h_2 => cases hmove
  rename_i t caller rest n chain hstack hchain
  by_cases hstop : n :: chain = t.pBottom ∨ t.yielded
  · rw [if_pos hstop] at hmove
    cases hmove
  rw [if_neg hstop] at hmove
  rw [not_or, Bool.not_eq_true] at hstop
  cases hmove
  have hlayout := h.layout
  rw [hstack, hchain] at hlayout
  refine ⟨⟨?_, h.suspended, h.saved, h.records, h.resumed, h.unwound⟩, ?_, fun n' => ?_⟩
  · intro t' caller' ht
    simp only [mem_cons, reduceCtorEq, Activity.trampoline.injEq, false_or] at ht
    rcases ht with ⟨rfl, rfl⟩ | ht
    · exact (h.sound t caller' (by simp [hstack])).congr rfl
    · exact h.sound t' caller' (by simp [hstack, ht])
  · exact ⟨hlayout.1.run hstop.1 hstop.2 canceled, hlayout.2⟩
  · have htally := h.tally n'
    rw [tally_eq] at htally
    refine Eq.trans ?_ htally
    rw [tally_eq]
    simp only [hstack, hchain, count_cons, count_append, flatMap_cons,
      Activity.held, nil_append, savedChains, count_nil]
    omega

theorem Kept.callbackReturn (h : Kept m) {rc : ReturnCode}
    (hmove : m.callbackReturn rc = some m') : Kept m' := by
  rw [Nre.callbackReturn] at hmove
  split at hmove
  case h_2 => cases hmove
  rename_i n t caller rest hstack
  cases hmove
  have hlayout := h.layout
  rw [hstack] at hlayout
  refine ⟨⟨?_, h.suspended, h.saved, h.records, h.resumed, h.unwound⟩, ?_, fun n' => ?_⟩
  · intro t' caller' ht
    simp only [mem_cons, Activity.trampoline.injEq] at ht
    rcases ht with ⟨rfl, rfl⟩ | ht
    · exact (h.sound t caller' (by simp [hstack])).congr rfl
    · exact h.sound t' caller' (by simp [hstack, ht])
  · exact ⟨hlayout.1.callbackReturn n rc, hlayout.2⟩
  · have htally := h.tally n'
    rw [tally_eq] at htally
    refine Eq.trans ?_ htally
    rw [tally_eq]
    simp only [hstack, flatMap_cons, Activity.held, nil_append, savedChains]

/-! ## The callers go on -/

/-- The trampoline has been left with `inner` above its marker. -/
structure Popped (m : Nre) (pBottom inner : Chain) (rc : ReturnCode) (caller : Caller) :
    Prop extends Books m where
  waits : Waits m.stack (caller.chain pBottom)
  chain : m.ctx.pCallbacks = inner ++ pBottom
  ends : rc.breaksOff ∨ inner = []
  bottom : caller.ownsChain → pBottom = []
  oneLoop : caller.oneLoop
  callerSuspended : KeptChain m.finished caller.suspended
  inner : KeptChain m.finished inner
  tally : ∀ n, m.tally n + caller.held.count n =
    (m.drops pBottom rc caller).count n + if n < m.nextCallback then 1 else 0

variable {pBottom inner : Chain} {rc : ReturnCode}

section

variable (hchain : m.ctx.pCallbacks = inner ++ pBottom)

include hchain

section

variable (hends : rc.breaksOff ∨ inner = [])

include hends

theorem evalEnd_pCallbacks (pSavedFrame : ℕ) (nSavedDepth : ℤ) (canceled : Bool) :
    (m.evalEnd pBottom pSavedFrame nSavedDepth rc canceled).ctx.pCallbacks = pBottom := by
  by_cases hdetach : rc.breaksOff ∧ m.ctx.pCallbacks ≠ pBottom
  · simp [evalEnd, hdetach]
  · have hbottom : m.ctx.pCallbacks = pBottom := by
      rcases hends with hbreaks | rfl
      · simpa [hbreaks] using hdetach
      · exact hchain
    simp [evalEnd, hbottom]

theorem evalEnd_pSuspendedCallbacks (pSavedFrame : ℕ) (nSavedDepth : ℤ) (canceled : Bool) :
    (m.evalEnd pBottom pSavedFrame nSavedDepth rc canceled).ctx.pSuspendedCallbacks =
      if inner = [] then m.ctx.pSuspendedCallbacks else inner := by
  by_cases hinner : inner = []
  · rw [hinner, nil_append] at hchain
    simp [evalEnd, hchain, hinner]
  · have hbreaks := hends.resolve_right hinner
    simp [evalEnd, hchain, hinner, hbreaks, above_append]

theorem evalDrops_eq :
    m.evalDrops pBottom rc = if inner = [] then [] else m.ctx.pSuspendedCallbacks := by
  by_cases hinner : inner = []
  · simp [evalDrops, hchain, hinner]
  · have hbreaks := hends.resolve_right hinner
    simp [evalDrops, hchain, hinner, hbreaks]

theorem count_evalEnd (pSavedFrame : ℕ) (nSavedDepth : ℤ) (canceled : Bool) (n : ℕ) :
    (m.evalEnd pBottom pSavedFrame nSavedDepth rc canceled).ctx.pSuspendedCallbacks.count n +
        (m.evalDrops pBottom rc).count n =
      m.ctx.pSuspendedCallbacks.count n + inner.count n := by
  rw [evalEnd_pSuspendedCallbacks hchain hends, evalDrops_eq hchain hends]
  by_cases hinner : inner = []
  · simp [hinner]
  · simp only [hinner, if_false]
    omega

end

end

theorem Popped.keptSuspended (h : Popped m pBottom inner rc caller) (pSavedFrame : ℕ)
    (nSavedDepth : ℤ) (canceled : Bool) :
    KeptChain m.finished
      (m.evalEnd pBottom pSavedFrame nSavedDepth rc canceled).ctx.pSuspendedCallbacks := by
  rw [evalEnd_pSuspendedCallbacks h.chain h.ends]
  split_ifs
  · exact h.suspended
  · exact h.inner

theorem Popped.evalEnd (h : Popped m pBottom inner rc caller) (hcaller : caller.ownsChain = false)
    {lost : Chain} (hdrops : m.drops pBottom rc caller = m.evalDrops pBottom rc ++ lost)
    (pSavedFrame : ℕ) (nSavedDepth : ℤ) (canceled : Bool) :
    let m₁ := m.evalEnd pBottom pSavedFrame nSavedDepth rc canceled
    Books m₁ ∧ Layout m₁.stack m₁.ctx.pCallbacks ∧
      ∀ n, m₁.tally n = lost.count n + if n < m₁.nextCallback then 1 else 0 := by
  obtain ⟨hbottom, hheld, -⟩ := Caller.plain hcaller pBottom
  refine ⟨⟨h.sound, h.keptSuspended _ _ canceled, h.saved, h.records, h.resumed, h.unwound⟩,
    ?_, fun n => ?_⟩
  · rw [evalEnd_pCallbacks h.chain h.ends]
    have hwaits := h.waits
    rw [hbottom] at hwaits
    exact hwaits.layout
  · change _ = _ + if n < m.nextCallback then 1 else 0
    have htally := h.tally n
    have hcount := count_evalEnd h.chain h.ends pSavedFrame nSavedDepth canceled n
    have hchain : m.ctx.pCallbacks.count n = inner.count n + pBottom.count n := by
      rw [h.chain, count_append]
    rw [hdrops, hheld, count_append, count_nil, tally_eq] at htally
    rw [tally_eq, evalEnd_pCallbacks h.chain h.ends]
    simp only [Nre.evalEnd, savedChains] at htally hcount ⊢
    omega

theorem Popped.evalCommon {pSavedFrame : ℕ} {nSavedDepth : ℤ}
    (h : Popped m pBottom inner rc (.evalCommon pSavedFrame nSavedDepth)) (canceled : Bool) :
    Kept (m.evalEnd pBottom pSavedFrame nSavedDepth rc canceled) := by
  obtain ⟨hbooks, hlayout, htally⟩ := h.evalEnd rfl (append_nil _).symm pSavedFrame
    nSavedDepth canceled
  refine ⟨hbooks, hlayout, fun n => (htally n).trans ?_⟩
  rw [count_nil, Nat.zero_add]

theorem Popped.evalDownlevel {pSaved : ℕ} {pSavedNs : Path}
    (h : Popped m pBottom inner rc (.evalDownlevel pSaved pSavedNs)) (canceled : Bool) :
    Kept (m.goOn pBottom rc canceled (.evalDownlevel pSaved pSavedNs)) := by
  have hlayout : Waits (note ((above pBottom m.ctx.pCallbacks).reverse.map .pushed) m.stack)
      m.ctx.pCallbacks := by
    rw [h.chain, above_append]
    exact h.waits.note inner
  refine ⟨⟨?_, h.suspended, h.saved, h.records, h.resumed, h.unwound⟩, hlayout.layout, fun n => ?_⟩
  · intro t caller ht
    obtain ⟨t', hstart, -, ht'⟩ := mem_note ht
    exact (h.sound t' caller ht').congr hstart.symm
  · change _ = if n < m.nextCallback then 1 else 0
    have htally := h.tally n
    rw [tally_eq] at htally ⊢
    simp only [goOn, Nre.move, flatMap_held_note, drops, Caller.held, count_nil,
      savedChains] at htally ⊢
    omega

theorem Popped.thaw {pSaved : Chain} (h : Popped m pBottom inner rc (.thaw pSaved)) :
    Kept (m.thawEnd pSaved) := by
  refine ⟨⟨h.sound, h.suspended, h.saved, h.records, h.resumed, h.unwound⟩, h.waits.layout,
    fun n => ?_⟩
  change _ = if n < m.nextCallback then 1 else 0
  have htally := h.tally n
  rw [tally_eq] at htally ⊢
  simp only [thawEnd, drops, Caller.held, savedChains] at htally ⊢
  omega

theorem Kept.setCoroutine (h : Kept m) (pCoro : ℕ) {f : Coroutine → Coroutine}
    (hf : ∀ co, (f co).ctx = co.ctx) : Kept (m.setCoroutine pCoro f) := by
  refine h.congr rfl rfl rfl ?_ rfl rfl rfl rfl rfl
  rw [Nre.setCoroutine]
  refine ext_getElem? fun i => ?_
  rw [getElem?_map, getElem?_map, getElem?_modify]
  split_ifs
  · simp [Option.map_map, Function.comp_def, hf]
  · simp

theorem Kept.coroDone (h : Kept m) (pCoro : ℕ) : Kept (m.coroDone pCoro) := by
  obtain ⟨commands, pending, heq⟩ := coroDone_eq m pCoro
  rw [heq]
  have hdone : Kept (m.setCoroutine pCoro fun co => { co with bDone := true }) :=
    h.setCoroutine pCoro fun _ => rfl
  exact hdone.congr rfl rfl rfl rfl rfl rfl rfl rfl rfl

variable {pCoro : ℕ}

theorem saved_saveExecCtx {ctx : ExecCtx} (h : ∀ co ∈ m.coroutines, KeptChain finished
      co.ctx.pCallbacks ∧ co.ctx.pSuspendedCallbacks = [])
    (hctx : KeptChain finished ctx.pCallbacks) (hnone : ctx.pSuspendedCallbacks = []) :
    ∀ co ∈ (m.saveExecCtx pCoro ctx).coroutines, KeptChain finished co.ctx.pCallbacks ∧
      co.ctx.pSuspendedCallbacks = [] := by
  refine forall_mem_modify h (fun co hco => ?_) pCoro
  split_ifs
  · exact hco
  · exact ⟨hctx, hnone⟩

theorem Books.coroCreateEnd (h : Books m) (hlayout : Layout m.stack m.ctx.pCallbacks)
    (htally : ∀ n, m.tally n = (if rc = .yield then m.replaced pCoro m.ctx.pSuspendedCallbacks
      else []).count n +
        if n < m.nextCallback then 1 else 0) (pOuterYielding : Option ℕ) :
    Kept (m.coroCreateEnd pCoro pOuterYielding rc) := by
  rw [Nre.coroCreateEnd]
  split_ifs with hyield
  · refine ⟨⟨h.sound, .nil, ?_, h.records, h.resumed, h.unwound⟩, hlayout, fun n => ?_⟩
    · exact saved_saveExecCtx h.saved h.suspended rfl
    · change _ = if n < m.nextCallback then 1 else 0
      have hn := htally n
      have hsave := count_saveExecCtx m pCoro { m.ctx with
        pCallbacks := m.ctx.pSuspendedCallbacks, pSuspendedCallbacks := [] } n
      rw [if_pos hyield, tally_eq] at hn
      rw [tally_eq]
      simp only [saveExecCtx, Nre.setCoroutine, savedChains, count_nil] at hn hsave ⊢
      omega
  · have hkept : Kept m := by
      refine ⟨h, hlayout, fun n => (htally n).trans ?_⟩
      rw [if_neg hyield, count_nil, Nat.zero_add]
    have hdone : Kept (m.setCoroutine pCoro fun co => { co with bDone := true }) :=
      hkept.setCoroutine pCoro fun _ => rfl
    exact hdone.congr rfl rfl rfl rfl rfl rfl rfl rfl rfl

theorem Popped.coroCreate {pOuterYielding : Option ℕ} {pSavedFrame : ℕ} {nSavedDepth : ℤ}
    {before : Outer} (h : Popped m pBottom inner rc (.coroCreate pCoro pOuterYielding pSavedFrame
      nSavedDepth before)) (canceled : Bool) :
    Kept ((m.evalEnd pBottom pSavedFrame nSavedDepth rc canceled).coroCreateEnd pCoro
      pOuterYielding rc) := by
  obtain ⟨hbooks, hlayout, htally⟩ := h.evalEnd rfl rfl pSavedFrame nSavedDepth canceled
  refine hbooks.coroCreateEnd hlayout (fun n => (htally n).trans ?_) pOuterYielding
  rw [evalEnd_pSuspendedCallbacks h.chain h.ends, evalEnd_pSuspendedCallbacks h.chain h.ends]
  rfl

theorem Popped.coroResume {outerCtx : ExecCtx} {pOuterYielding : Option ℕ}
    (h : Popped m pBottom inner rc (.coroResume pCoro outerCtx pOuterYielding)) :
    Kept (m.coroResumeEnd pCoro outerCtx pOuterYielding rc) := by
  have hbottom : pBottom = [] := h.bottom rfl
  have hchain : m.ctx.pCallbacks = inner := by
    rw [h.chain, hbottom, append_nil]
  have hkept : KeptChain m.finished (m.ctx.pSuspendedCallbacks ++ m.ctx.pCallbacks) := by
    rw [hchain]
    exact h.suspended.append h.inner
  rw [coroResumeEnd]
  by_cases hyield : rc = .yield
  · rw [if_pos hyield]
    have hsaved : Kept { m.saveExecCtx pCoro { m.ctx with
        pCallbacks := m.ctx.pSuspendedCallbacks ++ m.ctx.pCallbacks
        pSuspendedCallbacks := [] } with
        ctx := outerCtx, pYieldingCoro := pOuterYielding } := by
      refine ⟨⟨h.sound, h.callerSuspended, ?_, h.records, h.resumed, h.unwound⟩,
        h.waits.layout, fun n => ?_⟩
      · exact saved_saveExecCtx h.saved hkept rfl
      · change _ = if n < m.nextCallback then 1 else 0
        have htally := h.tally n
        have hsave := count_saveExecCtx m pCoro { m.ctx with
          pCallbacks := m.ctx.pSuspendedCallbacks ++ m.ctx.pCallbacks
          pSuspendedCallbacks := [] } n
        rw [drops, if_pos hyield, tally_eq] at htally
        rw [tally_eq]
        simp only [Caller.held, count_append, saveExecCtx, Nre.setCoroutine,
          savedChains] at htally hsave ⊢
        omega
    split_ifs
    · exact hsaved.coroDone pCoro
    · exact hsaved
  · rw [if_neg hyield]
    refine Kept.coroDone ?_ pCoro
    refine ⟨⟨h.sound, h.callerSuspended, h.saved, h.records, h.resumed, h.unwound⟩,
      h.waits.layout, fun n => ?_⟩
    have htally := h.tally n
    rw [drops, if_neg hyield, tally_eq] at htally
    rw [tally_eq]
    simp only [Caller.held, count_append, savedChains] at htally ⊢
    omega

theorem Popped.coroDelete {outerCtx : ExecCtx} {pSuspended : Chain}
    (h : Popped m pBottom inner rc (.coroDelete outerCtx pSuspended)) :
    Kept (coroDeleteSuspended { m with ctx := outerCtx } pSuspended) := by
  have hnone : pSuspended = [] := h.oneLoop
  rw [coroDeleteSuspended, if_pos hnone]
  refine ⟨⟨h.sound, h.callerSuspended, h.saved, h.records, h.resumed, h.unwound⟩,
    h.waits.layout, fun n => ?_⟩
  have htally := h.tally n
  rw [drops, tally_eq] at htally
  rw [tally_eq]
  simp only [Caller.held, count_append, savedChains] at htally ⊢
  omega

theorem Popped.goOn (h : Popped m pBottom inner rc caller) (canceled : Bool) :
    Kept (m.goOn pBottom rc canceled caller) := by
  cases caller with
  | evalCommon pSavedFrame nSavedDepth => exact h.evalCommon canceled
  | evalDownlevel pSaved pSavedNs => exact h.evalDownlevel canceled
  | thaw pSaved => exact h.thaw
  | coroCreate => exact (h.coroCreate canceled).returns _
  | coroResume => exact h.coroResume.returns _
  | coroDelete => exact h.coroDelete
  | coroDeleteSuspended => exact h.oneLoop.elim

/-! ## The loop is left -/

theorem Record.rest_eq {ending : Ending} {inner : Chain} :
    Record.rest ⟨t, caller, ending, inner ++ t.pBottom⟩ = inner := by
  rw [Record.rest, above_append]

variable {rest : List Activity}

theorem Books.record {r : Record} (h : Books m) (hstack : m.stack = .trampoline t caller :: rest)
    (hr : r.Orderly) (hcaller : r.caller = caller) (hstart : r.activation.start = t.start)
    (ctx : ExecCtx) (hctx : ctx.pSuspendedCallbacks = m.ctx.pSuspendedCallbacks) (released : List ℕ)
    (hreleased : r.ending = .unwound → r.rest ⊆ released) (dropped : List (ℕ × Bool)) :
    Books { m with
      ctx := ctx
      stack := rest
      released := m.released ++ released
      finished := m.finished ++ [r]
      dropped := dropped } := by
  have hsub : m.finished ⊆ m.finished ++ [r] := subset_append_left _ _
  have hsound := h.sound t caller (by simp [hstack])
  refine ⟨?_, ?_, ?_, ?_, ?_, ?_⟩
  · intro t' caller' ht
    exact (h.sound t' caller' (by simp [hstack, ht])).mono hsub
  · rw [hctx]
    exact h.suspended.mono hsub
  · exact fun co hco => ⟨(h.saved co hco).1.mono hsub, (h.saved co hco).2⟩
  · intro r' hr'
    rcases mem_append.mp hr' with hr' | hr'
    · exact h.records r' hr'
    · rwa [mem_singleton.mp hr']
  · intro r' hr' hresumes
    rcases mem_append.mp hr' with hr' | hr'
    · exact (h.resumed r' hr' hresumes).mono hsub
    · rw [mem_singleton.mp hr'] at hresumes ⊢
      rw [hstart]
      exact (hsound.start (hcaller ▸ hresumes)).mono hsub
  · intro r' hr' hunwound
    rcases mem_append.mp hr' with hr' | hr'
    · exact subset_append_of_subset_left _ (h.unwound r' hr' hunwound)
    · rw [mem_singleton.mp hr'] at hunwound ⊢
      exact subset_append_of_subset_right _ (hreleased hunwound)

theorem map_fst_tag (l : List ℕ) (b : Bool) : (l.map (·, b)).map Prod.fst = l := by
  rw [map_map]
  exact map_id l

section

variable (h : Kept m)

include h

theorem Kept.fits (hstack : m.stack = .trampoline t caller :: rest) :
    Fits t caller m.ctx.pCallbacks ∧ Waits rest (caller.chain t.pBottom) := by
  have hlayout := h.layout
  rw [hstack] at hlayout
  exact hlayout

theorem Kept.leave (hstack : m.stack = .trampoline t caller :: rest)
    (hchain : m.ctx.pCallbacks = inner ++ t.pBottom) (hreplay : t.replay = some (inner, t.rc))
    {ending : Ending} (hends : rc.breaksOff ∧ ending = .brokenOff ∨ inner = [] ∧ ending = .drained)
    (hmove : m.leave rc ending canceled = some m') : Kept m' := by
  rw [Nre.leave, hstack] at hmove
  rw [← Option.some.inj hmove, hchain]
  obtain ⟨hfits, hwaits⟩ := h.fits hstack
  have hsound := h.sound t caller (by simp [hstack])
  have hsub (r : Record) : m.finished ⊆ m.finished ++ [r] := subset_append_left _ _
  have horderly : Record.Orderly ⟨{ t with rc := rc }, caller, ending, inner ++ t.pBottom⟩ := by
    have hrest : Record.rest ⟨{ t with rc := rc }, caller, ending, inner ++ t.pBottom⟩ =
        inner := Record.rest_eq
    refine ⟨⟨t.rc, ?_⟩, ?_, fun hdrained => ?_⟩
    · rw [hrest]
      exact hreplay
    · rw [hrest]
    · rw [hrest]
      exact (hends.resolve_left fun hbroken => by simp [hbroken.2] at hdrained).1
  have hbooks := h.toBooks.record hstack horderly rfl rfl m.ctx rfl []
    (by rcases hends with ⟨-, rfl⟩ | ⟨-, rfl⟩ <;> simp)
    (m.dropped ++ (m.drops t.pBottom rc caller).map
      (·, (Activity.trampoline t caller :: rest).any Activity.ofCoroutine))
  rw [append_nil] at hbooks
  refine Popped.goOn ⟨hbooks, hwaits, hchain, ?_, hfits.bottom, hsound.oneLoop, ?_, ?_,
    fun n => ?_⟩ canceled
  · exact hends.imp (·.1) (·.1)
  · exact hsound.suspended.mono (hsub _)
  · rcases hends with ⟨-, rfl⟩ | ⟨rfl, -⟩
    · have hkept := KeptChain.ofRecord (mem_append_right m.finished
        (mem_singleton_self (⟨{ t with rc := rc }, caller, .brokenOff,
          inner ++ t.pBottom⟩ : Record))) rfl
      rwa [Record.rest_eq] at hkept
    · exact .nil
  · change _ = (m.drops t.pBottom rc caller).count n + if n < m.nextCallback then 1 else 0
    have htally := h.tally n
    rw [tally_eq] at htally ⊢
    simp only [hstack, flatMap_cons, Activity.held, count_append, map_append,
      map_fst_tag, savedChains] at htally ⊢
    omega

theorem Kept.finish (hmove : m.finish canceled = some m') : Kept m' := by
  rw [Nre.finish] at hmove
  split at hmove
  case h_2 => cases hmove
  rename_i t caller rest hstack
  obtain ⟨hfits, -⟩ := h.fits hstack
  obtain ⟨inner, hchain, hreplay⟩ := hfits.replay
  split_ifs at hmove with hbottom hyielded
  · have hinner : inner = [] := by
      rw [hchain] at hbottom
      exact append_left_eq_self.mp hbottom
    exact h.leave hstack hchain hreplay (.inr ⟨hinner, rfl⟩) hmove
  · refine h.leave hstack hchain hreplay (.inl ⟨?_, rfl⟩) hmove
    rw [hfits.yielded hyielded]
    rfl

theorem Kept.suspend (hmove : m.suspend canceled = some m') : Kept m' := by
  rw [Nre.suspend] at hmove
  split at hmove
  case h_2 => cases hmove
  rename_i t caller rest hstack
  obtain ⟨hfits, -⟩ := h.fits hstack
  obtain ⟨inner, hchain, hreplay⟩ := hfits.replay
  split_ifs at hmove
  exact h.leave hstack hchain hreplay (.inl ⟨rfl, rfl⟩) hmove

theorem Kept.unwind (hmove : m.unwind canceled = some m') : Kept m' := by
  rw [Nre.unwind] at hmove
  split at hmove
  case h_2 => cases hmove
  rename_i t caller rest hstack
  obtain ⟨hfits, hwaits⟩ := h.fits hstack
  obtain ⟨inner, hchain, hreplay⟩ := hfits.replay
  split_ifs at hmove
  rw [← Option.some.inj hmove, hchain, above_append]
  have hsound := h.sound t caller (by simp [hstack])
  have hrest : Record.rest ⟨{ t with rc := .error }, caller, .unwound, inner ++ t.pBottom⟩ =
      inner := Record.rest_eq
  have horderly : Record.Orderly ⟨{ t with rc := .error }, caller, .unwound,
      inner ++ t.pBottom⟩ := by
    refine ⟨⟨t.rc, ?_⟩, ?_, fun hdrained => by simp at hdrained⟩
    · rw [hrest]
      exact hreplay
    · rw [hrest]
  have hbooks := h.toBooks.record hstack horderly rfl rfl
    { m.ctx with pCallbacks := t.pBottom } rfl inner (fun _ => by rw [hrest]; exact fun _ => id)
  refine Popped.goOn ⟨hbooks _, hwaits, rfl, .inr rfl, hfits.bottom, hsound.oneLoop,
    hsound.suspended.mono (subset_append_left _ _), .nil, fun n => ?_⟩ canceled
  change _ = (drops { m with
      ctx := { m.ctx with pCallbacks := t.pBottom }
      released := m.released ++ inner } t.pBottom .error caller).count n +
    if n < m.nextCallback then 1 else 0
  have htally := h.tally n
  rw [tally_eq] at htally ⊢
  simp only [hstack, hchain, flatMap_cons, Activity.held, count_append,
    map_append, map_fst_tag, savedChains] at htally ⊢
  omega

theorem Kept.next {i : Move} (hmove : m.next i = some m') : Kept m' := by
  rw [Nre.next.eq_def] at hmove
  split at hmove
  · exact h.run hmove
  · exact h.finish hmove
  · exact h.suspend hmove
  · exact h.unwind hmove
  · split_ifs at hmove with hcode
    cases i with
    | addCallback hasMemory => exact Option.some.inj hmove ▸ h.addCallback hcode hasMemory
    | move place => exact Option.some.inj hmove ▸ h.move place
    | evalCommon pFrame callbacks rc =>
      exact Option.some.inj hmove ▸ h.evalCommon hcode pFrame callbacks rc
    | evalDownlevel pTarget pNs callbacks rc =>
      exact Option.some.inj hmove ▸ h.evalDownlevel hcode pTarget pNs callbacks rc
    | thaw => exact Option.some.inj hmove ▸ h.thaw hcode
    | coroCreate zName hasRecord hasCommand hasBody callbacks rc =>
      exact Option.some.inj hmove ▸
        h.coroCreate hcode zName hasRecord hasCommand hasBody callbacks rc
    | coroResume key => exact h.coroResume hcode hmove
    | coroDelete => exact h.coroDelete hcode hmove
    | deleteCommand key => exact Option.some.inj hmove ▸ h.deleteCommand key
    | renameCommand key key' => exact Option.some.inj hmove ▸ h.renameCommand key key'
    | defineCommand key =>
      exact Option.some.inj hmove ▸ (h.deleteCommand key).congr rfl rfl rfl rfl rfl rfl rfl rfl rfl
    | callbackReturn rc => exact h.callbackReturn hmove
    | _ => cases hmove

theorem Kept.step (i : Move) : Kept (m.step i) := by
  rw [Nre.step]
  cases hmove : m.next i with
  | none => exact h
  | some m' => exact h.next hmove

end

end Nre

end Th8
