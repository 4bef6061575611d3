import Mathlib.Algebra.BigOperators.Group.Finset.Basic
import Mathlib.Algebra.Order.BigOperators.Group.Finset
import Mathlib.Data.Prod.Lex
import Th8.Events.EventQueue

/-!
# Draining all states

`th8DrainAll` walks the registry of asynchronous states again and again, takes at most one
event off each live state in a pass, and returns after a pass without an event.  The
callbacks it invokes queue further events, on any state.
-/

namespace Th8

open Support List Nat
open Function (update update_of_ne update_self)

variable {σ C : Type}

/-- A callback in a queue, with the number of the request that queued it.  The code keeps
no such number. -/
structure QueuedEvent (C : Type) where
  nSerial : ℕ
  xCallback : C
deriving DecidableEq

/-- `Th8_AsyncStateNode`.  The state is gone once it has been finalized. -/
structure AsyncStateNode (C : Type) where
  pState : Option (AsyncState (QueuedEvent C))
  nFinalized : Bool

/-- The interpreter: its registry, the number of requests so far and all the rest. -/
structure EventInterp (σ C : Type) where
  pAsyncStateHead : List (AsyncStateNode C)
  nSerial : ℕ
  rest : σ

/-- What callbacks do to the queues.  The last one is a drain inside a callback. -/
inductive StateChange (C : Type) where
  | createAsyncState
  | finalizeAsyncState (i : ℕ)
  | queueEvent (i : ℕ) (xCallback : Option C) (granted : Bool)
  | drainPop (i : ℕ)

namespace EventInterp

def init (rest : σ) : EventInterp σ C := ⟨[], 0, rest⟩

variable (w : EventInterp σ C)

def stateAt (i : ℕ) : Option (AsyncState (QueuedEvent C)) :=
  w.pAsyncStateHead[i]?.bind AsyncStateNode.pState

def setState (i : ℕ) (s : AsyncState (QueuedEvent C)) : EventInterp σ C :=
  { w with
    pAsyncStateHead := w.pAsyncStateHead.modify i fun pNode => { pNode with pState := some s } }

/-- One change.  The node that the platform hands out for an event has the number of the
request as its address. -/
def change : StateChange C → EventInterp σ C
  | .createAsyncState =>
    { w with pAsyncStateHead := w.pAsyncStateHead ++ [⟨some .create, false⟩] }
  | .finalizeAsyncState i =>
    { w with pAsyncStateHead := w.pAsyncStateHead.modify i fun _ => ⟨none, true⟩ }
  | .queueEvent i xCallback granted =>
    match w.stateAt i with
    | none => w
    | some s =>
      let xMalloc := if granted then some w.nSerial else none
      let r := s.queueEvent (xCallback.map fun cb => ⟨w.nSerial, cb⟩) xMalloc
      { w.setState i r.1 with nSerial := w.nSerial + 1 }
  | .drainPop i =>
    match w.stateAt i with
    | none => w
    | some s => w.setState i s.drainPop.1

end EventInterp

/-- What an invocation of a callback does: changes of the queues, those other threads make
meanwhile among them, the rest of the interpreter after it and the code it returns. -/
structure CallbackEffect (σ C : Type) where
  changes : List (StateChange C)
  rest : σ
  rc : ℤ

abbrev Callbacks (σ C : Type) := C → EventInterp σ C → CallbackEffect σ C

namespace EventInterp

variable (xCallbacks : Callbacks σ C) (w : EventInterp σ C)

def invoke (cb : C) : EventInterp σ C × ℤ :=
  let effect := xCallbacks cb w
  ({ effect.changes.foldl change w with rest := effect.rest }, effect.rc)

/-- `th8DrainOneStateEvent` of the state `s` at node `i`: the event taken off its queue, if
there is one, with the code returned for it. -/
def drainOneStateEvent (i : ℕ) (s : AsyncState (QueuedEvent C)) :
    EventInterp σ C × Option (QueuedEvent C × ℤ) :=
  match s.drainPop with
  | (_, none) => (w, none)
  | (s', some ev) =>
    let w' := w.setState i s'
    if s'.pInterp then
      let r := w'.invoke xCallbacks ev.xCallback
      (r.1, some (ev, r.2))
    else (w', some (ev, 0))

end EventInterp

/-- A call of `th8DrainAll`: the interpreter, the local variables, the code it has
returned and the events it has taken off. -/
structure DrainCall (σ C : Type) where
  interp : EventInterp σ C
  pNode : ℕ
  bAnyDrained : Bool
  nProcessed : ℤ
  rc : Option ℤ
  drained : List (QueuedEvent C)

namespace DrainCall

def start (w : EventInterp σ C) : DrainCall σ C := ⟨w, 0, false, 0, none, []⟩

variable (xCallbacks : Callbacks σ C) (nLimit : ℤ) (d : DrainCall σ C)

def atLimit : Bool := decide (0 ≤ nLimit) && decide (nLimit ≤ d.nProcessed)

/-- One round of the inner loop, or the end of a pass. -/
def step : DrainCall σ C :=
  match d.rc with
  | some _ => d
  | none =>
    match d.interp.pAsyncStateHead[d.pNode]? with
    | none =>
      if d.bAnyDrained then { d with pNode := 0, bAnyDrained := false }
      else { d with rc := some 0 }
    | some pNode =>
      if d.atLimit nLimit then { d with rc := some 0 }
      else if pNode.nFinalized then { d with pNode := d.pNode + 1 }
      else
        match pNode.pState with
        | none => { d with pNode := d.pNode + 1 }
        | some s =>
          match d.interp.drainOneStateEvent xCallbacks d.pNode s with
          | (_, none) => { d with pNode := d.pNode + 1 }
          | (w, some (ev, rc)) =>
            { interp := w
              pNode := d.pNode + 1
              bAnyDrained := true
              nProcessed := wrapInt (d.nProcessed + 1)
              rc := if rc = 0 then none else some rc
              drained := d.drained ++ [ev] }

def visited : Option (AsyncState (QueuedEvent C)) :=
  match d.rc, d.interp.pAsyncStateHead[d.pNode]? with
  | none, some pNode =>
    if d.atLimit nLimit || pNode.nFinalized then none else pNode.pState
  | _, _ => none

end DrainCall

/-! ## The queue of one state -/

namespace AsyncState

variable {E : Type} {s : AsyncState E}

theorem backfill_bMutexReady (s : AsyncState E) : s.backfill.bMutexReady = s.bMutexReady := by
  unfold backfill
  split
  · rfl
  · split <;> rfl

theorem backfill_heap {p : ℕ} (hp : s.heap p = none) : s.backfill.heap p = none := by
  unfold backfill
  split
  · exact hp
  · rename_i pH hhead
    split
    · exact hp
    · rename_i pEv hpEv
      change update s.heap pH none p = none
      by_cases hpH : p = pH
      · rw [hpH, update_self]
      · rw [update_of_ne hpH, hp]

theorem queueEvent_bMutexReady (xCallback : Option E) (xMalloc : Option ℕ) :
    (s.queueEvent xCallback xMalloc).1.bMutexReady = s.bMutexReady := by
  unfold queueEvent
  split
  · rfl
  · split_ifs
    · rfl
    · rfl
    · split
      · rfl
      · exact overflowAppend_bMutexReady ..

theorem queueEvent_heap {xMalloc : Option ℕ} {p : ℕ} (xCallback : Option E)
    (hne : xMalloc ≠ some p) (hp : s.heap p = none) :
    (s.queueEvent xCallback xMalloc).1.heap p = none := by
  unfold queueEvent
  split
  · exact hp
  · split_ifs
    · exact hp
    · exact hp
    · split
      · exact hp
      · rename_i pEv
        apply overflowAppend_heap_of_ne _ _ _ hp
        rintro rfl
        exact hne rfl

/-- The state holds the events `q`, oldest first, all of them requested before the request
with the number `n`. -/
structure Queues (s : AsyncState (QueuedEvent C)) (n : ℕ) (q : List (QueuedEvent C)) : Prop where
  ready : s.bMutexReady = true
  live : s.pInterp = true
  holds : ∃ ring items, s.Holds ring items ∧ pendingOf ring items = q
  ordered : q.Pairwise fun a b => a.nSerial < b.nSerial
  below : ∀ ev ∈ q, ev.nSerial < n
  fresh : ∀ p, n ≤ p → s.heap p = none

namespace Queues

variable {s : AsyncState (QueuedEvent C)} {n : ℕ} {q : List (QueuedEvent C)}

theorem create (n : ℕ) : (AsyncState.create : AsyncState (QueuedEvent C)).Queues n [] where
  ready := rfl
  live := rfl
  holds := ⟨[], [], .create, rfl⟩
  ordered := .nil
  below _ h := absurd h not_mem_nil
  fresh _ _ := rfl

theorem mono {n' : ℕ} (h : s.Queues n q) (hn : n ≤ n') : s.Queues n' q where
  ready := h.ready
  live := h.live
  holds := h.holds
  ordered := h.ordered
  below ev hev := lt_of_lt_of_le (h.below ev hev) hn
  fresh p hp := h.fresh p (le_trans hn hp)

theorem queueEvent (h : s.Queues n q) (xCallback : Option C) (granted : Bool) :
    ∃ q', (s.queueEvent (xCallback.map fun cb => ⟨n, cb⟩)
        (if granted then some n else none)).1.Queues (n + 1) q' ∧
      (q' = q ∨ ∃ cb, q' = q ++ [⟨n, cb⟩]) := by
  obtain ⟨ring, items, hholds, rfl⟩ := h.holds
  have hfresh : ∀ p, (if granted then some n else none) = some p → s.heap p = none := by
    intro p hp
    split_ifs at hp
    cases hp
    exact h.fresh n (le_refl n)
  have hheap : ∀ p, n + 1 ≤ p → (s.queueEvent (xCallback.map fun cb => ⟨n, cb⟩)
      (if granted then some n else none)).1.heap p = none := by
    intro p hp
    apply queueEvent_heap _ _ (h.fresh p (le_of_succ_le hp))
    intro heq
    split_ifs at heq
    cases heq
    exact not_succ_le_self _ hp
  have hsucc := le_succ n
  rcases hholds.queueEvent (xCallback.map fun cb => ⟨n, cb⟩) hfresh with
    hsame | ⟨ev, ring', items', hev, -, hholds', hpending, -⟩
  · rw [hsame]
    exact ⟨_, h.mono hsucc, .inl rfl⟩
  · obtain ⟨cb, -, rfl⟩ := Option.map_eq_some_iff.mp hev
    refine ⟨_, ⟨?_, ?_, ⟨ring', items', hholds', hpending⟩, ?_, ?_, hheap⟩, .inr ⟨cb, rfl⟩⟩
    · rw [queueEvent_bMutexReady]
      exact h.ready
    · rw [queueEvent_pInterp]
      exact h.live
    · apply pairwise_append.mpr ⟨h.ordered, pairwise_singleton _ _, ?_⟩
      intro a ha b hb
      rw [mem_singleton.mp hb]
      exact h.below a ha
    · intro a ha
      rcases mem_append.mp ha with ha | ha
      · exact lt_succ_of_lt (h.below a ha)
      · rw [mem_singleton.mp ha]
        exact lt_succ_self n

theorem drainPop (h : s.Queues n q) :
    (q = [] ∧ s.drainPop = (s, none)) ∨
      ∃ ev q' s', q = ev :: q' ∧ s.drainPop = (s', some ev) ∧ s'.Queues n q' := by
  obtain ⟨ring, items, hholds, hq⟩ := h.holds
  unfold AsyncState.drainPop
  rw [h.ready, Bool.true_and]
  by_cases hpos : 0 < s.nStatic
  · right
    rw [if_pos (decide_eq_true hpos)]
    obtain ⟨ev, ring', items', hev, hholds', hpending, -⟩ := hholds.popStatic_backfill hpos
    have hcons : q = ev :: pendingOf ring' items' := hq ▸ hpending
    have hordered := h.ordered
    rw [hcons, pairwise_cons] at hordered
    refine ⟨ev, pendingOf ring' items', s.popStatic.backfill, hcons, by rw [hev], ?_⟩
    refine ⟨?_, ?_, ⟨ring', items', hholds', rfl⟩, hordered.2, ?_, ?_⟩
    · rw [backfill_bMutexReady]
      exact h.ready
    · rw [backfill_pInterp]
      exact h.live
    · intro a ha
      apply h.below
      rw [hcons]
      exact mem_cons_of_mem ev ha
    · intro p hp
      exact backfill_heap (h.fresh p hp)
  · left
    rw [if_neg (by simpa using hpos)]
    have hzero : s.nStatic = 0 := Nat.eq_zero_of_not_pos hpos
    have hring : ring = [] := by
      apply eq_nil_of_length_eq_zero
      rw [hholds.ring_length, hzero]
    have hitems : items = [] := hholds.items_eq_nil (by rw [hzero]; decide)
    refine ⟨?_, rfl⟩
    rw [← hq, hring, hitems]
    rfl

end Queues

end AsyncState

/-! ## The queues of all states -/

/-- How many of the events were requested before the request with the number `n`. -/
def olderThan (n : ℕ) (q : List (QueuedEvent C)) : ℕ := q.countP fun ev => decide (ev.nSerial < n)

namespace EventInterp

/-- The states of the registry hold the queues `qs`. -/
structure Holds (w : EventInterp σ C) (qs : ℕ → List (QueuedEvent C)) : Prop where
  queue : ∀ i s, w.stateAt i = some s → s.Queues w.nSerial (qs i)
  freed : ∀ i, w.stateAt i = none → qs i = []

/-- The number of events in all queues that were requested before the request `n`. -/
def nOlder (w : EventInterp σ C) (qs : ℕ → List (QueuedEvent C)) (n : ℕ) : ℕ :=
  ∑ i ∈ Finset.range w.pAsyncStateHead.length, olderThan n (qs i)

/-- The registry grows, requests are numbered on, and no queue gets more events from before
the request `n`. -/
structure Grows (n : ℕ) (w : EventInterp σ C) (qs : ℕ → List (QueuedEvent C))
    (w' : EventInterp σ C) (qs' : ℕ → List (QueuedEvent C)) : Prop where
  length_le : w.pAsyncStateHead.length ≤ w'.pAsyncStateHead.length
  nSerial_le : w.nSerial ≤ w'.nSerial
  older_le : ∀ i, olderThan n (qs' i) ≤ olderThan n (qs i)

variable {w w' : EventInterp σ C} {qs qs' : ℕ → List (QueuedEvent C)} {n : ℕ}

theorem holds_init (rest : σ) : (init rest : EventInterp σ C).Holds fun _ => [] where
  queue _ _ h := by cases h
  freed _ _ := rfl

theorem stateAt_of_length_le {i : ℕ} (hi : w.pAsyncStateHead.length ≤ i) : w.stateAt i = none := by
  rw [stateAt, getElem?_eq_none hi]
  rfl

theorem lt_length {i : ℕ} {s : AsyncState (QueuedEvent C)} (h : w.stateAt i = some s) :
    i < w.pAsyncStateHead.length := by
  by_contra hge
  rw [stateAt_of_length_le (Nat.le_of_not_lt hge)] at h
  cases h

theorem stateAt_setState {i : ℕ} {s s' : AsyncState (QueuedEvent C)}
    (h : w.stateAt i = some s) (j : ℕ) :
    (w.setState i s').stateAt j = if j = i then some s' else w.stateAt j := by
  unfold stateAt setState
  rw [getElem?_modify]
  by_cases hj : i = j
  · subst hj
    rw [if_pos rfl]
    cases hnode : w.pAsyncStateHead[i]? with
    | none =>
      rw [stateAt, hnode] at h
      cases h
    | some node => simp
  · rw [if_neg (Ne.symm hj)]
    cases w.pAsyncStateHead[j]? <;> simp [hj]

namespace Grows

theorem refl (n : ℕ) (w : EventInterp σ C) (qs : ℕ → List (QueuedEvent C)) : Grows n w qs w qs :=
  ⟨le_refl _, le_refl _, fun _ => le_refl _⟩

theorem trans {w'' : EventInterp σ C} {qs'' : ℕ → List (QueuedEvent C)}
    (h : Grows n w qs w' qs') (h' : Grows n w' qs' w'' qs'') : Grows n w qs w'' qs'' :=
  ⟨h.length_le.trans h'.length_le, h.nSerial_le.trans h'.nSerial_le,
    fun i => (h'.older_le i).trans (h.older_le i)⟩

theorem sum_range_eq (h : w.Holds qs) {m : ℕ} (hm : w.pAsyncStateHead.length ≤ m) :
    ∑ i ∈ Finset.range m, olderThan n (qs i) = w.nOlder qs n := by
  symm
  apply Finset.sum_subset (Finset.range_mono hm)
  intro i _ hi
  have hge : w.pAsyncStateHead.length ≤ i := Nat.le_of_not_lt (mt Finset.mem_range.mpr hi)
  rw [h.freed i (stateAt_of_length_le hge)]
  rfl

theorem nOlder_le (hw : w.Holds qs) (h : Grows n w qs w' qs') :
    w'.nOlder qs' n ≤ w.nOlder qs n := by
  rw [← sum_range_eq hw h.length_le]
  exact Finset.sum_le_sum fun i _ => h.older_le i

theorem nOlder_lt (hw : w.Holds qs) (h : Grows n w qs w' qs') {i : ℕ}
    (hi : i < w.pAsyncStateHead.length) (hlt : olderThan n (qs' i) < olderThan n (qs i)) :
    w'.nOlder qs' n < w.nOlder qs n := by
  rw [← sum_range_eq hw h.length_le]
  have hmem : i ∈ Finset.range w'.pAsyncStateHead.length :=
    Finset.mem_range.mpr (lt_of_lt_of_le hi h.length_le)
  exact Finset.sum_lt_sum (fun i _ => h.older_le i) ⟨i, hmem, hlt⟩

end Grows

theorem Holds.setState (h : w.Holds qs) {i m : ℕ} {s s' : AsyncState (QueuedEvent C)}
    {q' : List (QueuedEvent C)} (hs : w.stateAt i = some s) (hm : w.nSerial ≤ m)
    (hs' : s'.Queues m q') :
    ({ w.setState i s' with nSerial := m } : EventInterp σ C).Holds (update qs i q') where
  queue j t ht := by
    replace ht : (w.setState i s').stateAt j = some t := ht
    rw [stateAt_setState hs] at ht
    by_cases hj : j = i
    · subst hj
      rw [if_pos rfl] at ht
      rw [update_self, ← Option.some.inj ht]
      exact hs'
    · rw [if_neg hj] at ht
      rw [update_of_ne hj]
      exact (h.queue j t ht).mono hm
  freed j hj := by
    replace hj : (w.setState i s').stateAt j = none := hj
    rw [stateAt_setState hs] at hj
    split_ifs at hj with heq
    rw [update_of_ne heq]
    exact h.freed j hj

theorem length_setState {i : ℕ} {s : AsyncState (QueuedEvent C)} :
    (w.setState i s).pAsyncStateHead.length = w.pAsyncStateHead.length :=
  length_modify ..

theorem grows_setState {i m : ℕ} {s : AsyncState (QueuedEvent C)} {q' : List (QueuedEvent C)}
    (hm : w.nSerial ≤ m) (hq : olderThan n q' ≤ olderThan n (qs i)) :
    Grows n w qs { w.setState i s with nSerial := m } (update qs i q') where
  length_le := le_of_eq length_setState.symm
  nSerial_le := hm
  older_le j := by
    by_cases hj : j = i
    · subst hj
      rw [update_self]
      exact hq
    · rw [update_of_ne hj]

theorem olderThan_append_new {q : List (QueuedEvent C)} {ev : QueuedEvent C}
    (h : n ≤ ev.nSerial) : olderThan n (q ++ [ev]) = olderThan n q := by
  unfold olderThan
  rw [countP_append, countP_singleton, if_neg (by simpa using h)]
  rfl

theorem olderThan_le_cons {q : List (QueuedEvent C)} {ev : QueuedEvent C} :
    olderThan n q ≤ olderThan n (ev :: q) :=
  (sublist_cons_self ev q).countP_le

section

variable (h : w.Holds qs)

include h

theorem Holds.createAsyncState : (w.change .createAsyncState).Holds qs := by
  have hlength := h.freed _ (stateAt_of_length_le (le_refl _))
  constructor
  · intro i s hs
    replace hs : (w.pAsyncStateHead ++ [⟨some .create, false⟩])[i]?.bind
      AsyncStateNode.pState = some s := hs
    rcases lt_trichotomy i w.pAsyncStateHead.length with hi | rfl | hi
    · rw [getElem?_append_left hi] at hs
      exact h.queue i s hs
    · rw [getElem?_concat_length] at hs
      cases hs
      rw [hlength]
      exact .create _
    · rw [getElem?_eq_none (by rw [length_append]; exact hi)] at hs
      cases hs
  · intro i hi
    by_cases hlt : i < w.pAsyncStateHead.length
    · replace hi : (w.pAsyncStateHead ++ [⟨some .create, false⟩])[i]?.bind
        AsyncStateNode.pState = none := hi
      rw [getElem?_append_left hlt] at hi
      exact h.freed i hi
    · exact h.freed i (stateAt_of_length_le (Nat.le_of_not_lt hlt))

theorem Holds.finalizeAsyncState (i : ℕ) :
    (w.change (.finalizeAsyncState i)).Holds (update qs i []) := by
  have hat : ∀ j, (w.change (.finalizeAsyncState i)).stateAt j =
      if j = i then none else w.stateAt j := by
    intro j
    change (w.pAsyncStateHead.modify i fun _ => ⟨none, true⟩)[j]?.bind AsyncStateNode.pState = _
    rw [getElem?_modify, stateAt]
    by_cases hj : j = i
    · subst hj
      cases w.pAsyncStateHead[j]? <;> simp
    · cases w.pAsyncStateHead[j]? <;> simp [hj, Ne.symm hj]
  constructor
  · intro j s hs
    rw [hat] at hs
    split_ifs at hs with hj
    rw [update_of_ne hj]
    exact h.queue j s hs
  · intro j hj
    rw [hat] at hj
    by_cases heq : j = i
    · rw [heq, update_self]
    · rw [if_neg heq] at hj
      rw [update_of_ne heq]
      exact h.freed j hj

section

variable (hn : n ≤ w.nSerial)

include hn

theorem Holds.change (c : StateChange C) :
    ∃ qs', (w.change c).Holds qs' ∧ Grows n w qs (w.change c) qs' := by
  cases c with
  | createAsyncState =>
    exact ⟨qs, h.createAsyncState, by simp [EventInterp.change], le_refl _, fun _ => le_refl _⟩
  | finalizeAsyncState i =>
    refine ⟨_, h.finalizeAsyncState i, (length_modify ..).ge, le_refl _, ?_⟩
    intro j
    by_cases hj : j = i
    · subst hj
      rw [update_self]
      exact zero_le _
    · rw [update_of_ne hj]
  | queueEvent i xCallback granted =>
    rw [EventInterp.change]
    cases hs : w.stateAt i with
    | none => exact ⟨qs, h, .refl ..⟩
    | some s =>
      obtain ⟨q', hq', hnew⟩ := (h.queue i s hs).queueEvent xCallback granted
      have hsucc := le_succ w.nSerial
      refine ⟨_, h.setState hs hsucc hq', grows_setState hsucc ?_⟩
      rcases hnew with rfl | ⟨cb, rfl⟩
      · exact le_refl _
      · exact le_of_eq (olderThan_append_new hn)
  | drainPop i =>
    rw [EventInterp.change]
    cases hs : w.stateAt i with
    | none => exact ⟨qs, h, .refl ..⟩
    | some s =>
      rcases (h.queue i s hs).drainPop with ⟨hnil, hpop⟩ | ⟨ev, q', s', hq, hpop, hs'⟩
      · simp only [hpop]
        exact ⟨_, h.setState hs (le_refl _) (h.queue i s hs),
          grows_setState (le_refl _) (le_refl _)⟩
      · simp only [hpop]
        refine ⟨_, h.setState hs (le_refl _) hs', grows_setState (le_refl _) ?_⟩
        rw [hq]
        exact olderThan_le_cons

theorem Holds.changes (cs : List (StateChange C)) :
    ∃ qs', (cs.foldl EventInterp.change w).Holds qs' ∧
      Grows n w qs (cs.foldl EventInterp.change w) qs' := by
  induction cs generalizing w qs with
  | nil => exact ⟨qs, h, .refl ..⟩
  | cons c cs ih =>
    obtain ⟨qs₁, h₁, hgrows⟩ := h.change hn c
    obtain ⟨qs₂, h₂, hgrows'⟩ := ih h₁ (hn.trans hgrows.nSerial_le)
    exact ⟨qs₂, h₂, hgrows.trans hgrows'⟩

theorem Holds.invoke (xCallbacks : Callbacks σ C)
    (cb : C) : ∃ qs', (w.invoke xCallbacks cb).1.Holds qs' ∧
      Grows n w qs (w.invoke xCallbacks cb).1 qs' := by
  obtain ⟨qs', h', hgrows⟩ := h.changes hn (xCallbacks cb w).changes
  exact ⟨qs', ⟨h'.queue, h'.freed⟩, hgrows.length_le, hgrows.nSerial_le, hgrows.older_le⟩

theorem Holds.drainOneStateEvent (xCallbacks : Callbacks σ C) {i : ℕ} {s : AsyncState
    (QueuedEvent C)}
    (hs : w.stateAt i = some s) :
    (qs i = [] ∧ w.drainOneStateEvent xCallbacks i s = (w, none)) ∨
      ∃ ev q w' rc qs', qs i = ev :: q ∧
        w.drainOneStateEvent xCallbacks i s = (w', some (ev, rc)) ∧ w'.Holds qs' ∧
        Grows n w (update qs i q) w' qs' := by
  rw [EventInterp.drainOneStateEvent]
  rcases (h.queue i s hs).drainPop with ⟨hnil, hpop⟩ | ⟨ev, q, s', hq, hpop, hs'⟩
  · left
    exact ⟨hnil, by rw [hpop]⟩
  · right
    have hset : (w.setState i s').Holds (update qs i q) := h.setState hs (le_refl _) hs'
    have hgrowsSet : Grows n w (update qs i q) (w.setState i s') (update qs i q) :=
      ⟨le_of_eq length_setState.symm, le_refl _, fun _ => le_refl _⟩
    obtain ⟨qs', hqs', hgrows⟩ := hset.invoke hn xCallbacks ev.xCallback
    refine ⟨ev, q, _, ((w.setState i s').invoke xCallbacks ev.xCallback).2, qs', hq, ?_, hqs',
      hgrowsSet.trans hgrows⟩
    rw [hpop]
    simp only [hs'.live, if_true]

end

end

end EventInterp

namespace DrainCall

variable {xCallbacks : Callbacks σ C} {nLimit : ℤ} {d : DrainCall σ C} {n : ℕ}
  {qs : ℕ → List (QueuedEvent C)}

theorem visited_eq_some {s : AsyncState (QueuedEvent C)} (h : d.visited nLimit = some s) :
    d.rc = none ∧ d.atLimit nLimit = false ∧
      d.interp.pAsyncStateHead[d.pNode]? = some ⟨some s, false⟩ := by
  unfold visited at h
  split at h
  · rename_i pNode hrc hnode
    split_ifs at h with hskip
    simp only [Bool.or_eq_true, not_or, Bool.not_eq_true] at hskip
    obtain ⟨pState, nFinalized⟩ := pNode
    obtain rfl : pState = some s := h
    obtain rfl : nFinalized = false := hskip.2
    exact ⟨hrc, hskip.1, hnode⟩
  · cases h

theorem stateAt_of_visited {s : AsyncState (QueuedEvent C)}
    (h : d.visited nLimit = some s) : d.interp.stateAt d.pNode = some s := by
  rw [EventInterp.stateAt, (visited_eq_some h).2.2]
  rfl

variable (xCallbacks) in
theorem step_of_visited_none (hrc : d.rc = none) (h : d.visited nLimit = none) :
    (∃ rc, d.step xCallbacks nLimit = { d with rc := some rc }) ∨
      (d.bAnyDrained = true ∧
        d.step xCallbacks nLimit = { d with pNode := 0, bAnyDrained := false }) ∨
      (d.pNode < d.interp.pAsyncStateHead.length ∧
        d.step xCallbacks nLimit = { d with pNode := d.pNode + 1 }) := by
  unfold visited at h
  unfold step
  simp only [hrc] at h ⊢
  cases hnode : d.interp.pAsyncStateHead[d.pNode]? with
  | none =>
    by_cases hany : d.bAnyDrained = true
    · exact .inr (.inl ⟨hany, by simp [hany]⟩)
    · exact .inl ⟨0, by simp [hany]⟩
  | some pNode =>
    simp only [hnode] at h ⊢
    obtain ⟨hlt, -⟩ := List.getElem?_eq_some_iff.mp hnode
    by_cases hlimit : d.atLimit nLimit = true
    · exact .inl ⟨0, by simp [hlimit]⟩
    · right
      right
      refine ⟨hlt, ?_⟩
      by_cases hfinalized : pNode.nFinalized = true
      · simp [hlimit, hfinalized]
      · simp only [hlimit, hfinalized, Bool.or_self, Bool.false_eq_true, if_false] at h ⊢
        rw [h]

variable (xCallbacks) in
theorem step_of_visited (hd : d.interp.Holds qs) (hn : n ≤ d.interp.nSerial)
    {s : AsyncState (QueuedEvent C)} (h : d.visited nLimit = some s) :
    (qs d.pNode = [] ∧ d.step xCallbacks nLimit = { d with pNode := d.pNode + 1 }) ∨
      ∃ ev q w rc qs', qs d.pNode = ev :: q ∧ w.Holds qs' ∧
        EventInterp.Grows n d.interp (update qs d.pNode q) w qs' ∧
        d.step xCallbacks nLimit =
          ⟨w, d.pNode + 1, true, wrapInt (d.nProcessed + 1), rc, d.drained ++ [ev]⟩ := by
  obtain ⟨hrc, hlimit, hnode⟩ := visited_eq_some h
  have hstep : d.step xCallbacks nLimit =
      match d.interp.drainOneStateEvent xCallbacks d.pNode s with
      | (_, none) => { d with pNode := d.pNode + 1 }
      | (w, some (ev, rc)) =>
        { interp := w
          pNode := d.pNode + 1
          bAnyDrained := true
          nProcessed := wrapInt (d.nProcessed + 1)
          rc := if rc = 0 then none else some rc
          drained := d.drained ++ [ev] } := by
    rw [step]
    simp [hrc, hlimit, hnode]
  rw [hstep]
  rcases hd.drainOneStateEvent hn xCallbacks (stateAt_of_visited h) with
    ⟨hnil, hdrain⟩ | ⟨ev, q, w, rc, qs', hq, hdrain, hw, hgrows⟩
  · exact .inl ⟨hnil, by rw [hdrain]⟩
  · exact .inr ⟨ev, q, w, _, qs', hq, hw, hgrows, by rw [hdrain]⟩

/-! ## Runs of the drain -/

def run (xCallbacks : Callbacks σ C) (nLimit : ℤ) (d : DrainCall σ C) (m : ℕ) : DrainCall σ C :=
  (step xCallbacks nLimit)^[m] d

theorem run_succ (m : ℕ) : run xCallbacks nLimit d (m + 1) =
    (run xCallbacks nLimit d m).step xCallbacks nLimit :=
  Function.iterate_succ_apply' ..

theorem run_succ' (m : ℕ) : run xCallbacks nLimit d (m + 1) =
    run xCallbacks nLimit (d.step xCallbacks nLimit) m :=
  Function.iterate_succ_apply ..

/-- A state whose queue the next round looks at holds an event from before the request `n`,
if it holds any. -/
def VisitsOlder (nLimit : ℤ) (n : ℕ) (d : DrainCall σ C) : Prop :=
  ∀ s, d.visited nLimit = some s → ∀ ring items, s.Holds ring items →
    pendingOf ring items ≠ [] → ∃ ev ∈ pendingOf ring items, ev.nSerial < n

/-- The state of a call that found `total` events before the request `n`. -/
structure Within (n total : ℕ) (d : DrainCall σ C) (qs : ℕ → List (QueuedEvent C)) : Prop where
  holds : d.interp.Holds qs
  nSerial_ge : n ≤ d.interp.nSerial
  count_le : olderThan n d.drained + d.interp.nOlder qs n ≤ total

theorem grows_of_drained {w : EventInterp σ C} {qs' : ℕ → List (QueuedEvent C)}
    {ev : QueuedEvent C} {q : List (QueuedEvent C)} {i : ℕ} (hq : qs i = ev :: q)
    (h : EventInterp.Grows n d.interp (update qs i q) w qs') :
    EventInterp.Grows n d.interp qs w qs' ∧
      (ev.nSerial < n → olderThan n (qs' i) < olderThan n (qs i)) := by
  have hi := h.older_le i
  rw [update_self] at hi
  constructor
  · refine ⟨h.length_le, h.nSerial_le, ?_⟩
    intro j
    by_cases hj : j = i
    · subst hj
      rw [hq]
      exact hi.trans EventInterp.olderThan_le_cons
    · have hother := h.older_le j
      rw [update_of_ne hj] at hother
      exact hother
  · intro hev
    apply lt_of_le_of_lt hi
    rw [hq, olderThan, olderThan, countP_cons, if_pos (decide_eq_true hev)]
    exact lt_succ_self _

theorem Within.drained_event {total : ℕ} (h : d.Within n total qs)
    {s : AsyncState (QueuedEvent C)} (hvisited : d.visited nLimit = some s)
    {ev : QueuedEvent C} {q : List (QueuedEvent C)} (hq : qs d.pNode = ev :: q)
    {d' : DrainCall σ C} {qs' : ℕ → List (QueuedEvent C)} (hd' : d'.interp.Holds qs')
    (hgrows : EventInterp.Grows n d.interp (update qs d.pNode q) d'.interp qs')
    (hdrained : d'.drained = d.drained ++ [ev]) : d'.Within n total qs' := by
  obtain ⟨hgrows', hless⟩ := grows_of_drained hq hgrows
  refine ⟨hd', h.nSerial_ge.trans hgrows'.nSerial_le, le_trans ?_ h.count_le⟩
  rw [hdrained, olderThan, countP_append, countP_singleton]
  by_cases hev : ev.nSerial < n
  · have hlt := hgrows'.nOlder_lt h.holds
      (EventInterp.lt_length (stateAt_of_visited hvisited)) (hless hev)
    simp only [hev, decide_true, if_true]
    unfold olderThan
    omega
  · have hle := hgrows'.nOlder_le h.holds
    simp only [hev, decide_false, Bool.false_eq_true, if_false]
    unfold olderThan
    omega

theorem Within.step {total : ℕ} (h : d.Within n total qs) :
    ∃ qs', (d.step xCallbacks nLimit).Within n total qs' := by
  cases hrc : d.rc with
  | some rc =>
    have hsame : d.step xCallbacks nLimit = d := by
      rw [DrainCall.step, hrc]
    rw [hsame]
    exact ⟨qs, h⟩
  | none =>
    cases hvisited : d.visited nLimit with
    | none =>
      rcases step_of_visited_none xCallbacks hrc hvisited with ⟨rc, hstep⟩ | ⟨-, hstep⟩ | ⟨-, hstep⟩
      all_goals
        rw [hstep]
        exact ⟨qs, h.holds, h.nSerial_ge, h.count_le⟩
    | some s =>
      rcases step_of_visited xCallbacks h.holds h.nSerial_ge hvisited with
        ⟨-, hstep⟩ | ⟨ev, q, w, rc, qs', hq, hw, hgrows, hstep⟩
      · rw [hstep]
        exact ⟨qs, h.holds, h.nSerial_ge, h.count_le⟩
      · rw [hstep]
        exact ⟨qs', h.drained_event hvisited hq hw hgrows rfl⟩

variable (xCallbacks nLimit) in
theorem Within.reaches {total : ℕ} (h : d.Within n total qs) (m : ℕ) :
    ∃ qs', (run xCallbacks nLimit d m).Within n total qs' := by
  induction m with
  | zero => exact ⟨qs, h⟩
  | succ m ih =>
    obtain ⟨qs', h'⟩ := ih
    rw [run_succ]
    exact h'.step

theorem head_pending {s : AsyncState (QueuedEvent C)} {ring : List (QueuedEvent C)}
    {items : List (ℕ × QueuedEvent C)} {q : List (QueuedEvent C)} (h : s.Holds ring items)
    (hs : s.Queues n q) : (pendingOf ring items).head? = q.head? := by
  obtain ⟨ring', items', h', rfl⟩ := hs.holds
  by_cases hpos : 0 < s.nStatic
  · obtain ⟨ev, _, _, hev, -, hpending, -⟩ := h.popStatic_backfill hpos
    obtain ⟨ev', _, _, hev', -, hpending', -⟩ := h'.popStatic_backfill hpos
    rw [hpending, hpending', head?_cons, head?_cons, ← hev, ← hev']
  · have hzero : s.nStatic = 0 := Nat.eq_zero_of_not_pos hpos
    have hnil : ∀ {ring items}, s.Holds ring items → pendingOf ring items = [] := by
      intro ring items hholds
      have hring : ring = [] := by
        apply eq_nil_of_length_eq_zero
        rw [hholds.ring_length, hzero]
      rw [hring, hholds.items_eq_nil (by rw [hzero]; decide)]
      rfl
    rw [hnil h, hnil h']

theorem visitsOlder_iff (hd : d.interp.Holds qs) {s : AsyncState (QueuedEvent C)}
    (h : d.visited nLimit = some s) :
    d.VisitsOlder nLimit n ↔ ∀ ev q, qs d.pNode = ev :: q → ev.nSerial < n := by
  have hs := hd.queue _ _ (stateAt_of_visited h)
  constructor
  · intro holder ev q hq
    obtain ⟨ring, items, hholds, hpending⟩ := hs.holds
    have hne : pendingOf ring items ≠ [] := by
      rw [hpending, hq]
      exact cons_ne_nil ev q
    obtain ⟨ev', hmem, hev'⟩ := holder s h ring items hholds hne
    rw [hpending, hq] at hmem
    have hordered := hs.ordered
    rw [hq, pairwise_cons] at hordered
    rcases mem_cons.mp hmem with rfl | hmem
    · exact hev'
    · exact lt_trans (hordered.1 ev' hmem) hev'
  · intro hhead s' hs' ring items hholds hne
    obtain rfl : s = s' := Option.some.inj (h.symm.trans hs')
    have hsame := head_pending hholds hs
    obtain ⟨ev, q, hpending⟩ := exists_cons_of_ne_nil hne
    rw [hpending, head?_cons] at hsame
    obtain ⟨q', hq'⟩ := head?_eq_some_iff.mp hsame.symm
    rw [hpending]
    exact ⟨ev, mem_cons_self, hhead ev q' hq'⟩

def rank (n : ℕ) (d : DrainCall σ C) (qs : ℕ → List (QueuedEvent C)) : ℕ ×ₗ ℕ ×ₗ ℕ :=
  toLex (d.interp.nOlder qs n,
    toLex (d.bAnyDrained.toNat, d.interp.pAsyncStateHead.length - d.pNode))

theorem rank_lt_iff {d' : DrainCall σ C} {qs' : ℕ → List (QueuedEvent C)} :
    rank n d' qs' < rank n d qs ↔ d'.interp.nOlder qs' n < d.interp.nOlder qs n ∨
      d'.interp.nOlder qs' n = d.interp.nOlder qs n ∧
        (d'.bAnyDrained.toNat < d.bAnyDrained.toNat ∨
          d'.bAnyDrained.toNat = d.bAnyDrained.toNat ∧
            d'.interp.pAsyncStateHead.length - d'.pNode <
              d.interp.pAsyncStateHead.length - d.pNode) := by
  rw [rank, rank, Prod.Lex.toLex_lt_toLex, Prod.Lex.toLex_lt_toLex]

variable (xCallbacks) in
theorem Within.step_rank {total : ℕ} (h : d.Within n total qs) (hrc : d.rc = none)
    (holder : d.VisitsOlder nLimit n) :
    (d.step xCallbacks nLimit).rc.isSome = true ∨
      ∃ qs', (d.step xCallbacks nLimit).Within n total qs' ∧
        rank n (d.step xCallbacks nLimit) qs' < rank n d qs := by
  have hpass : d.pNode < d.interp.pAsyncStateHead.length →
      ∃ qs', { d with pNode := d.pNode + 1 }.Within n total qs' ∧
        rank n { d with pNode := d.pNode + 1 } qs' < rank n d qs := by
    intro hlt
    refine ⟨qs, ⟨h.holds, h.nSerial_ge, h.count_le⟩, ?_⟩
    rw [rank_lt_iff]
    exact .inr ⟨rfl, .inr ⟨rfl, sub_succ_lt_self _ _ hlt⟩⟩
  cases hvisited : d.visited nLimit with
  | none =>
    rcases step_of_visited_none xCallbacks hrc hvisited with
      ⟨rc, hstep⟩ | ⟨hany, hstep⟩ | ⟨hlt, hstep⟩
    · rw [hstep]
      exact .inl rfl
    · rw [hstep]
      refine .inr ⟨qs, ⟨h.holds, h.nSerial_ge, h.count_le⟩, ?_⟩
      rw [rank_lt_iff, hany]
      exact .inr ⟨rfl, .inl zero_lt_one⟩
    · rw [hstep]
      exact .inr (hpass hlt)
  | some s =>
    have hlt := EventInterp.lt_length (stateAt_of_visited hvisited)
    rcases step_of_visited xCallbacks h.holds h.nSerial_ge hvisited with
      ⟨-, hstep⟩ | ⟨ev, q, w, rc, qs', hq, hw, hgrows, hstep⟩
    · rw [hstep]
      exact .inr (hpass hlt)
    · right
      have hev := (visitsOlder_iff h.holds hvisited).mp holder ev q hq
      obtain ⟨hgrows', hless⟩ := grows_of_drained hq hgrows
      rw [hstep]
      refine ⟨qs', h.drained_event hvisited hq hw hgrows rfl, ?_⟩
      rw [rank_lt_iff]
      exact .inl (hgrows'.nOlder_lt h.holds hlt (hless hev))

theorem Within.exists_returned {total : ℕ} (h : d.Within n total qs)
    (holder : ∀ m, (run xCallbacks nLimit d m).VisitsOlder nLimit n) :
    ∃ m, (run xCallbacks nLimit d m).rc.isSome = true := by
  induction hx : rank n d qs using WellFoundedLT.induction generalizing d qs with
  | ind x ih =>
    subst hx
    cases hrc : d.rc with
    | some rc =>
      refine ⟨0, ?_⟩
      rw [run, Function.iterate_zero_apply, hrc]
      rfl
    | none =>
      rcases h.step_rank xCallbacks hrc (holder 0) with hreturned | ⟨qs', h', hlt⟩
      · exact ⟨1, hreturned⟩
      · have holder' : ∀ m, (run xCallbacks nLimit (d.step xCallbacks nLimit) m).VisitsOlder
            nLimit n := by
          intro m
          rw [← run_succ']
          exact holder (m + 1)
        obtain ⟨m, hm⟩ := ih _ hlt h' holder' rfl
        refine ⟨m + 1, ?_⟩
        rw [run_succ']
        exact hm

theorem within_start {w : EventInterp σ C} (hw : w.Holds qs) :
    (start w).Within w.nSerial (∑ i ∈ Finset.range w.pAsyncStateHead.length, (qs i).length) qs := by
  refine ⟨hw, le_refl _, ?_⟩
  rw [start, olderThan, countP_nil, zero_add]
  exact Finset.sum_le_sum fun i _ => countP_le_length

variable (xCallbacks nLimit) in
theorem Within.step_drained {total : ℕ} (h : d.Within n total qs) :
    (d.step xCallbacks nLimit).drained = d.drained ∧ (∀ s, d.visited nLimit = some s →
        qs d.pNode = []) ∨
      ∃ s ev q, d.visited nLimit = some s ∧ qs d.pNode = ev :: q ∧
        (d.step xCallbacks nLimit).drained = d.drained ++ [ev] := by
  cases hvisited : d.visited nLimit with
  | none =>
    left
    constructor
    · cases hrc : d.rc with
      | some rc => rw [DrainCall.step, hrc]
      | none =>
        rcases step_of_visited_none xCallbacks hrc hvisited with
          ⟨rc, hstep⟩ | ⟨-, hstep⟩ | ⟨-, hstep⟩
        all_goals rw [hstep]
    · rintro s ⟨⟩
  | some s =>
    rcases step_of_visited xCallbacks h.holds h.nSerial_ge hvisited with
      ⟨hnil, hstep⟩ | ⟨ev, q, w, rc, qs', hq, -, -, hstep⟩
    · left
      rw [hstep]
      exact ⟨rfl, fun _ _ => hnil⟩
    · right
      rw [hstep]
      exact ⟨s, ev, q, rfl, hq, rfl⟩

theorem Within.drained_older_iff {total : ℕ} (h : d.Within n total qs)
    (hold : ∀ ev ∈ d.drained, ev.nSerial < n) :
    (∀ ev ∈ (d.step xCallbacks nLimit).drained, ev.nSerial < n) ↔ d.VisitsOlder nLimit n := by
  rcases h.step_drained xCallbacks nLimit with ⟨hsame, hnil⟩ | ⟨s, ev, q, hvisited, hq, hdrained⟩
  · rw [hsame]
    refine iff_of_true hold ?_
    intro s hs
    refine (visitsOlder_iff h.holds hs).mpr ?_ s hs
    intro ev q hq
    rw [hnil s hs] at hq
    cases hq
  · rw [hdrained, visitsOlder_iff h.holds hvisited]
    constructor
    · intro hall ev' q' hq'
      obtain ⟨rfl, -⟩ := List.cons.inj (hq.symm.trans hq')
      exact hall ev (mem_append_right _ (mem_singleton_self ev))
    · intro hhead ev' hev'
      rcases mem_append.mp hev' with hev' | hev'
      · exact hold ev' hev'
      · rw [mem_singleton.mp hev']
        exact hhead ev q hq

/-- One state with the event `true` in its queue. -/
def oneEvent : EventInterp Unit Bool :=
  [StateChange.createAsyncState, .queueEvent 0 (some true) true].foldl EventInterp.change (.init ())

theorem oneEvent_holds : ∃ qs, oneEvent.Holds qs := by
  obtain ⟨qs, hqs, -⟩ := (EventInterp.holds_init ()).changes (le_refl 0) _
  exact ⟨qs, hqs⟩

/-- The callback `true` queues the event `false`, which does nothing. -/
def queuesAnother : Callbacks Unit Bool := fun cb _ =>
  ⟨if cb then [.queueEvent 0 (some false) true] else [], (), 0⟩

end DrainCall

end Th8
