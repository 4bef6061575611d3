import Mathlib.Data.List.Count
import Th8.Nre.Machine

/-!
# The order of callbacks

What a trampoline has seen, replayed from the callbacks above its marker, gives the part of
the chain above the marker again, however evaluations and coroutines nest.  So every call
of the trampoline takes the callbacks last in, first out, hands each return code to the next
one, and leaves the chain below its marker as it was.
-/

namespace Th8

open Support List

namespace Nre

theorem above_append (inner pBottom : Chain) : above pBottom (inner ++ pBottom) = inner := by
  rw [above, length_append, Nat.add_sub_cancel, take_left]

/-- An event takes place: a push goes on top, the callback invoked is the one on top and is
given the last return code. -/
def follow : Chain × ReturnCode → Event → Option (Chain × ReturnCode)
  | (chain, rc), .pushed n => some (n :: chain, rc)
  | ([], _), .invoked _ _ => none
  | (n :: chain, rc), .invoked n' rc' => if n' = n ∧ rc' = rc then some (chain, rc) else none
  | (chain, _), .returned _ rc => some (chain, rc)
  | (chain, _), .canceled => some (chain, .error)

def Activation.replay (t : Activation) : Option (Chain × ReturnCode) :=
  t.events.foldlM follow (t.start, t.rcStart)

theorem replay_append {t : Activation} {state state' : Chain × ReturnCode}
    (h : t.replay = some state) {rc : ReturnCode} {yielded : Bool} {events : List Event}
    (hevents : events.foldlM follow state = some state') :
    { t with rc := rc, yielded := yielded, events := t.events ++ events }.replay = some state' := by
  rw [Activation.replay] at h ⊢
  rw [foldlM_append, h]
  exact hevents

theorem follow_pushes (chain pushed : Chain) (rc : ReturnCode) :
    (pushed.reverse.map Event.pushed).foldlM follow (chain, rc) = some (pushed ++ chain, rc) := by
  induction pushed generalizing chain with
  | nil => rfl
  | cons n pushed ih =>
    rw [reverse_cons, map_append, foldlM_append, ih]
    rfl

def pushedIn (events : List Event) : Chain :=
  events.filterMap fun
    | .pushed n => some n
    | _ => none

def invokedIn (events : List Event) : Chain :=
  events.filterMap fun
    | .invoked n _ => some n
    | _ => none

theorem perm_of_follow {events : List Event} {chain chain' : Chain} {rc rc' : ReturnCode}
    (h : events.foldlM follow (chain, rc) = some (chain', rc')) :
    (invokedIn events ++ chain').Perm (chain ++ pushedIn events) := by
  induction events generalizing chain rc with
  | nil =>
    cases h
    simp [invokedIn, pushedIn]
  | cons e events ih =>
    rw [foldlM_cons] at h
    cases e with
    | pushed n =>
      refine (ih h).trans ?_
      rw [cons_append]
      exact perm_middle.symm
    | invoked n rc₁ =>
      cases chain with
      | nil => cases h
      | cons n' chain =>
        by_cases hn : n = n' ∧ rc₁ = rc
        · rw [follow, if_pos hn] at h
          rw [hn.1]
          exact (ih h).cons n'
        · rw [follow, if_neg hn] at h
          cases h
    | returned n rc₁ => exact ih (by simpa [follow] using h)
    | canceled => exact ih (by simpa [follow] using h)

/-! ### The stack of trampolines -/

def Caller.ownsChain : Caller → Bool
  | .evalCommon .. => false
  | .evalDownlevel .. => false
  | .coroCreate .. => false
  | _ => true

def Caller.chain (pBottom : Chain) : Caller → Chain
  | .thaw pSaved => pSaved
  | .coroResume _ outerCtx _ => outerCtx.pCallbacks
  | .coroDelete outerCtx _ => outerCtx.pCallbacks
  | .coroDeleteSuspended outerCtx => outerCtx.pCallbacks
  | _ => pBottom

structure Fits (t : Activation) (caller : Caller) (chain : Chain) : Prop where
  replay : ∃ inner, chain = inner ++ t.pBottom ∧ t.replay = some (inner, t.rc)
  yielded : t.yielded → t.rc = .yield
  bottom : caller.ownsChain → t.pBottom = []

def Waits : List Activity → Chain → Prop
  | [], _ => True
  | .callback _ :: .trampoline t caller :: rest, chain =>
    Fits t caller chain ∧ Waits rest (caller.chain t.pBottom)
  | _, _ => False

def Layout (stack : List Activity) (chain : Chain) : Prop :=
  match stack with
  | .trampoline t caller :: rest =>
    Fits t caller chain ∧ Waits rest (caller.chain t.pBottom)
  | stack => Waits stack chain

variable {t : Activation} {caller : Caller} {chain : Chain} {stack : List Activity}

theorem Fits.start (pBottom start : Chain) (rc : ReturnCode)
    (hbottom : caller.ownsChain → pBottom = []) :
    Fits ⟨pBottom, rc, false, start, rc, []⟩ caller (start ++ pBottom) :=
  ⟨⟨start, rfl, rfl⟩, by simp, hbottom⟩

theorem Fits.note (h : Fits t caller chain) (pushed : Chain) :
    Fits { t with events := t.events ++ pushed.reverse.map .pushed } caller (pushed ++ chain) := by
  obtain ⟨inner, hchain, hreplay⟩ := h.replay
  refine ⟨⟨pushed ++ inner, ?_, ?_⟩, h.yielded, h.bottom⟩
  · rw [hchain, append_assoc]
  · exact replay_append hreplay (follow_pushes inner pushed t.rc)

theorem Fits.run {n : ℕ} (h : Fits t caller (n :: chain)) (hbottom : n :: chain ≠ t.pBottom)
    (hyielded : t.yielded = false) (canceled : Bool) :
    Fits { t with
      rc := if canceled then .error else t.rc
      events := t.events ++ (if canceled then [.canceled] else []) ++
        [.invoked n (if canceled then .error else t.rc)] } caller chain := by
  obtain ⟨inner, hchain, hreplay⟩ := h.replay
  cases inner with
  | nil => exact absurd hchain hbottom
  | cons n' inner =>
    obtain ⟨rfl, hrest⟩ := List.cons.inj hchain
    refine ⟨⟨inner, hrest, ?_⟩, by simp [hyielded], h.bottom⟩
    rw [append_assoc]
    refine replay_append hreplay ?_
    cases canceled <;> simp [follow]

theorem Fits.callbackReturn (h : Fits t caller chain) (n : ℕ) (rc : ReturnCode) :
    Fits { t with rc := rc, yielded := rc = .yield, events := t.events ++ [.returned n rc] }
      caller chain := by
  obtain ⟨inner, hchain, hreplay⟩ := h.replay
  refine ⟨⟨inner, hchain, ?_⟩, by simp, h.bottom⟩
  exact replay_append hreplay rfl

section

variable (h : Waits stack chain)

include h

theorem Waits.cases :
    stack = [] ∨ ∃ n t caller rest, stack = .callback n :: .trampoline t caller :: rest ∧
      Fits t caller chain ∧ Waits rest (caller.chain t.pBottom) := by
  rcases stack with _ | ⟨_ | n, _ | ⟨⟨t, caller⟩ | _, rest⟩⟩
  · exact .inl rfl
  · exact h.elim
  · exact h.elim
  · exact h.elim
  · exact h.elim
  · exact .inr ⟨n, t, caller, rest, rfl, h⟩
  · exact h.elim

theorem Waits.layout : Layout stack chain := by
  rcases h.cases with rfl | ⟨n, t, caller, rest, rfl, -⟩
  · exact h
  · exact h

theorem Waits.note (pushed : Chain) :
    Waits (note (pushed.reverse.map .pushed) stack) (pushed ++ chain) := by
  rcases h.cases with rfl | ⟨n, t, caller, rest, rfl, hfits, hrest⟩
  · exact h
  · exact ⟨hfits.note pushed, hrest⟩

end

end Nre

/-!
## Where the callbacks are

Every callback waits in one place, or has been invoked, freed by an unwinding cancellation
or dropped, each once.  What a suspension or a yield has set aside is the chain that a thaw
or a resumption goes on with.
-/

namespace Nre

def Caller.held : Caller → Chain
  | .thaw pSaved => pSaved
  | .coroResume _ outerCtx _ => outerCtx.pCallbacks ++ outerCtx.pSuspendedCallbacks
  | .coroDelete outerCtx _ => outerCtx.pCallbacks ++ outerCtx.pSuspendedCallbacks
  | .coroDeleteSuspended outerCtx => outerCtx.pCallbacks ++ outerCtx.pSuspendedCallbacks
  | _ => []

def Activity.held : Activity → Chain
  | .trampoline _ caller => caller.held
  | .callback _ => []

def savedChains (m : Nre) : Chain := m.coroutines.flatMap fun co => co.ctx.pCallbacks

def waiting (m : Nre) : Chain :=
  m.ctx.pCallbacks ++ m.ctx.pSuspendedCallbacks ++ m.stack.flatMap Activity.held ++ m.savedChains

def tally (m : Nre) (n : ℕ) : ℕ :=
  m.waiting.count n + m.invoked.count n + m.released.count n + (m.dropped.map Prod.fst).count n

theorem tally_eq (m : Nre) (n : ℕ) : m.tally n =
    m.ctx.pCallbacks.count n + m.ctx.pSuspendedCallbacks.count n +
      (m.stack.flatMap Activity.held).count n + m.savedChains.count n +
      m.invoked.count n + m.released.count n + (m.dropped.map Prod.fst).count n := by
  simp only [tally, waiting, count_append]

theorem count_flatMap_modify {l : List Coroutine} {i : ℕ} {co : Coroutine}
    (hco : l[i]? = some co) (f : Coroutine → Coroutine) (g : Coroutine → Chain) (n : ℕ) :
    ((l.modify i f).flatMap g).count n + (g co).count n =
      (l.flatMap g).count n + (g (f co)).count n := by
  induction l generalizing i with
  | nil => simp at hco
  | cons a l ih =>
    cases i with
    | zero =>
      obtain rfl : a = co := by simpa using hco
      simp only [modify_zero_cons, flatMap_cons, count_append]
      omega
    | succ i =>
      have hrest := ih (by simpa using hco)
      simp only [modify_succ_cons, flatMap_cons, count_append]
      omega

theorem forall_mem_modify {l : List Coroutine} {P : Coroutine → Prop} {f : Coroutine → Coroutine}
    (h : ∀ co ∈ l, P co) (hf : ∀ co, P co → P (f co)) (i : ℕ) : ∀ co ∈ l.modify i f, P co := by
  induction l generalizing i with
  | nil => simp
  | cons a l ih =>
    have ha := h a mem_cons_self
    have hl : ∀ co ∈ l, P co := fun co hco => h co (mem_cons_of_mem a hco)
    cases i with
    | zero => exact forall_mem_cons.mpr ⟨hf a ha, hl⟩
    | succ i => exact forall_mem_cons.mpr ⟨ha, ih hl i⟩

theorem count_saveExecCtx (m : Nre) (pCoro : ℕ) (ctx : ExecCtx) (n : ℕ) :
    (m.saveExecCtx pCoro ctx).savedChains.count n + (m.replaced pCoro ctx.pCallbacks).count n =
      m.savedChains.count n + ctx.pCallbacks.count n := by
  rw [saveExecCtx, setCoroutine, savedChains, savedChains, replaced, coroFreed]
  cases hco : m.coroutines[pCoro]? with
  | none => simp [modify_eq_self (getElem?_eq_none_iff.mp hco)]
  | some co =>
    have hcount := count_flatMap_modify hco
      (fun co => if co.freed then co else { co with ctx := ctx }) (fun co => co.ctx.pCallbacks) n
    cases hfreed : co.freed with
    | true =>
      simp only [hfreed, if_true] at hcount
      simp only [Option.map_some, Option.getD_some, hfreed, if_true]
      omega
    | false =>
      simp only [hfreed, Bool.false_eq_true, if_false] at hcount
      simp only [Option.map_some, Option.getD_some, hfreed, Bool.false_eq_true, if_false]
      omega

def Record.rest (r : Record) : Chain := above r.activation.pBottom r.chain

def KeptChain (finished : List Record) (chain : Chain) : Prop :=
  ∃ rs : List Record, (∀ r ∈ rs, r ∈ finished ∧ r.ending = .brokenOff) ∧
    chain = rs.flatMap Record.rest

variable {finished finished' : List Record} {chain chain' : Chain}

theorem KeptChain.nil : KeptChain finished [] := ⟨[], by simp, rfl⟩

theorem KeptChain.append (h : KeptChain finished chain) (h' : KeptChain finished chain') :
    KeptChain finished (chain ++ chain') := by
  obtain ⟨rs, hrs, rfl⟩ := h
  obtain ⟨rs', hrs', rfl⟩ := h'
  refine ⟨rs ++ rs', fun r hr => ?_, flatMap_append.symm⟩
  rcases mem_append.mp hr with hr | hr
  · exact hrs r hr
  · exact hrs' r hr

theorem KeptChain.mono (h : KeptChain finished chain) (hsub : finished ⊆ finished') :
    KeptChain finished' chain := by
  obtain ⟨rs, hrs, rfl⟩ := h
  exact ⟨rs, fun r hr => ⟨hsub (hrs r hr).1, (hrs r hr).2⟩, rfl⟩

theorem KeptChain.ofRecord {r : Record} (hr : r ∈ finished) (hending : r.ending = .brokenOff) :
    KeptChain finished r.rest := by
  refine ⟨[r], fun r' hr' => ?_, ?_⟩
  · rw [mem_singleton.mp hr']
    exact ⟨hr, hending⟩
  · rw [flatMap_singleton]

def Caller.resumes : Caller → Bool
  | .evalCommon .. => false
  | .evalDownlevel .. => false
  | .coroCreate .. => false
  | _ => true

def Caller.suspended : Caller → Chain
  | .coroResume _ outerCtx _ => outerCtx.pSuspendedCallbacks
  | .coroDelete outerCtx _ => outerCtx.pSuspendedCallbacks
  | _ => []

/-- The second loop of `coro_delete_proc` has nothing to do. -/
def Caller.oneLoop : Caller → Prop
  | .coroDelete _ pSuspended => pSuspended = []
  | .coroDeleteSuspended _ => False
  | _ => True

structure Sound (finished : List Record) (t : Activation) (caller : Caller) : Prop where
  oneLoop : caller.oneLoop
  start : caller.resumes → KeptChain finished t.start
  suspended : KeptChain finished caller.suspended

structure Record.Orderly (r : Record) : Prop where
  replay : ∃ rc, r.activation.replay = some (r.rest, rc)
  chain : r.chain = r.rest ++ r.activation.pBottom
  drained : r.ending = .drained → r.rest = []

/-- The chains that are set aside have been left by calls that were broken off, and every
call on record has gone by the rules. -/
structure Books (m : Nre) : Prop where
  sound : ∀ t caller, .trampoline t caller ∈ m.stack → Sound m.finished t caller
  suspended : KeptChain m.finished m.ctx.pSuspendedCallbacks
  saved : ∀ co ∈ m.coroutines, KeptChain m.finished co.ctx.pCallbacks ∧
    co.ctx.pSuspendedCallbacks = []
  records : ∀ r ∈ m.finished, r.Orderly
  resumed : ∀ r ∈ m.finished, r.caller.resumes → KeptChain m.finished r.activation.start
  unwound : ∀ r ∈ m.finished, r.ending = .unwound → r.rest ⊆ m.released

structure Kept (m : Nre) : Prop extends Books m where
  layout : Layout m.stack m.ctx.pCallbacks
  tally : ∀ n, m.tally n = if n < m.nextCallback then 1 else 0

theorem kept_fresh : Kept fresh where
  layout := trivial
  tally _ := rfl
  sound := by simp [fresh]
  suspended := .nil
  saved := by simp [fresh]
  records := by simp [fresh]
  resumed := by simp [fresh]
  unwound := by simp [fresh]

variable {m m' : Nre}

theorem Kept.congr (h : Kept m) (hstack : m'.stack = m.stack)
    (hcallbacks : m'.ctx.pCallbacks = m.ctx.pCallbacks)
    (hsuspended : m'.ctx.pSuspendedCallbacks = m.ctx.pSuspendedCallbacks)
    (hsaved : m'.coroutines.map Coroutine.ctx = m.coroutines.map Coroutine.ctx)
    (hnext : m'.nextCallback = m.nextCallback) (hinvoked : m'.invoked = m.invoked)
    (hreleased : m'.released = m.released) (hdropped : m'.dropped = m.dropped)
    (hfinished : m'.finished = m.finished) : Kept m' := by
  have hchains : m'.savedChains = m.savedChains := by
    have hmap (m : Nre) : m.savedChains =
        (m.coroutines.map Coroutine.ctx).flatMap ExecCtx.pCallbacks := by
      rw [savedChains, flatMap_map]
    rw [hmap, hmap, hsaved]
  refine ⟨⟨?_, ?_, fun co hco => ?_, ?_, ?_, ?_⟩, ?_, fun n => ?_⟩
  · rw [hstack, hfinished]
    exact h.sound
  · rw [hfinished, hsuspended]
    exact h.suspended
  · have hmem : co.ctx ∈ m.coroutines.map Coroutine.ctx := by
      rw [← hsaved]
      exact mem_map_of_mem hco
    obtain ⟨co', hco', heq⟩ := mem_map.mp hmem
    rw [← heq, hfinished]
    exact h.saved co' hco'
  · rw [hfinished]
    exact h.records
  · rw [hfinished]
    exact h.resumed
  · rw [hfinished, hreleased]
    exact h.unwound
  · rw [hstack, hcallbacks]
    exact h.layout
  · have htally := h.tally n
    rw [tally_eq] at htally ⊢
    rwa [hcallbacks, hsuspended, hstack, hchains, hinvoked, hreleased, hdropped, hnext]

end Nre

end Th8
