import Th8.Memory.SafeAlloc
import Th8.Support.Queue
import Th8.Support.Transition

/-!
# The event queue of an asynchronous state

Callbacks are queued from any thread and drained on the interpreter's thread.  The
queue is a ring of eight slots, followed by a linked list of heap nodes that is used
while the ring is full; a pop from the ring moves the first of these nodes into the
slot it frees.  Every change of the queue happens under its mutex, so that a run is an
interleaving of whole changes.  A drained callback is taken off the queue under the
mutex and invoked after it was released.
-/

namespace Th8

open Support

variable {C : Type}

def eventQueueStaticN : ℕ := 8

/-- `Th8_AsyncState`, with the `Th8_Event` nodes of the heap. -/
structure AsyncState (C : Type) where
  nDeleted : Bool
  pInterp : Bool
  bMutexReady : Bool
  aStatic : ℕ → Option C
  iHead : ℕ
  nStatic : ℕ
  pOverflowHead : Option ℕ
  pOverflowTail : Option ℕ
  nOverflow : ℤ
  heap : ℕ → Option (Node C)

namespace AsyncState

/-- `Th8_CreateAsyncState`. -/
def create : AsyncState C :=
  { nDeleted := false
    pInterp := true
    bMutexReady := true
    aStatic := fun _ => none
    iHead := 0
    nStatic := 0
    pOverflowHead := none
    pOverflowTail := none
    nOverflow := 0
    heap := fun _ => none }

def freeSlot (s : AsyncState C) : ℕ := (s.iHead + s.nStatic) % eventQueueStaticN

def pushStatic (s : AsyncState C) (xCallback : C) : AsyncState C :=
  { s with
    aStatic := Function.update s.aStatic s.freeSlot (some xCallback)
    nStatic := s.nStatic + 1 }

/-- `th8EventOverflowAppend` of a new node at `pEv`. -/
def overflowAppend (s : AsyncState C) (pEv : ℕ) (xCallback : C) : AsyncState C :=
  let heap := Function.update s.heap pEv (some ⟨xCallback, none⟩)
  match s.pOverflowTail with
  | some t =>
    { s with
      heap := Function.update heap t ((heap t).map fun n => { n with next := some pEv })
      pOverflowTail := some pEv
      nOverflow := wrapInt (s.nOverflow + 1) }
  | none =>
    { s with
      heap := heap
      pOverflowHead := some pEv
      pOverflowTail := some pEv
      nOverflow := wrapInt (s.nOverflow + 1) }

/-- `Th8_QueueEvent`: the state after it and whether it returned `TH8_OK`.  `xMalloc` is
the node the platform hands out when the ring is full. -/
def queueEvent (s : AsyncState C) (xCallback : Option C) (xMalloc : Option ℕ) :
    AsyncState C × Bool :=
  match xCallback with
  | none => (s, false)
  | some cb =>
    if !s.bMutexReady || s.nDeleted then (s, false)
    else if s.nStatic < eventQueueStaticN then (s.pushStatic cb, true)
    else
      match xMalloc with
      | none => (s, false)
      | some pEv => (s.overflowAppend pEv cb, true)

def popStatic (s : AsyncState C) : AsyncState C :=
  { s with
    iHead := (s.iHead + 1) % eventQueueStaticN
    nStatic := s.nStatic - 1 }

/-- `th8EventOverflowPopHead` of the node at `pH`, and its release. -/
def overflowPopHead (s : AsyncState C) (pH : ℕ) (pEv : Node C) : AsyncState C :=
  { s with
    pOverflowHead := pEv.next
    pOverflowTail := if pEv.next = none then none else s.pOverflowTail
    nOverflow := wrapInt (s.nOverflow - 1)
    heap := Function.update s.heap pH none }

def backfill (s : AsyncState C) : AsyncState C :=
  match s.pOverflowHead with
  | none => s
  | some pH =>
    match s.heap pH with
    | none => s
    | some pEv => (s.overflowPopHead pH pEv).pushStatic pEv.val

/-- The part of `th8DrainOneStateEvent` under the mutex: the state after it and the
callback taken off. -/
def drainPop (s : AsyncState C) : AsyncState C × Option C :=
  if s.bMutexReady && 0 < s.nStatic then (s.popStatic.backfill, s.aStatic s.iHead)
  else (s, none)

/-! The interpreter pointer is not touched by queueing and draining. -/

@[simp] theorem overflowAppend_pInterp (s : AsyncState C) (pEv : ℕ) (cb : C) :
    (s.overflowAppend pEv cb).pInterp = s.pInterp := by
  unfold overflowAppend
  split <;> rfl

theorem overflowAppend_bMutexReady (s : AsyncState C) (pEv : ℕ) (cb : C) :
    (s.overflowAppend pEv cb).bMutexReady = s.bMutexReady := by
  unfold overflowAppend
  split <;> rfl

theorem overflowAppend_nDeleted (s : AsyncState C) (pEv : ℕ) (cb : C) :
    (s.overflowAppend pEv cb).nDeleted = s.nDeleted := by
  unfold overflowAppend
  split <;> rfl

theorem overflowAppend_nStatic (s : AsyncState C) (pEv : ℕ) (cb : C) :
    (s.overflowAppend pEv cb).nStatic = s.nStatic := by
  unfold overflowAppend
  split <;> rfl

theorem overflowAppend_heap_of_ne (s : AsyncState C) {pEv p : ℕ} (cb : C) (hne : p ≠ pEv)
    (hp : s.heap p = none) : (s.overflowAppend pEv cb).heap p = none := by
  unfold overflowAppend
  split
  · rename_i t ht
    by_cases hpt : p = t
    · subst hpt
      simp [Function.update_of_ne hne, hp]
    · simp [Function.update_of_ne hne, Function.update_of_ne hpt, hp]
  · simp [Function.update_of_ne hne, hp]

@[simp] theorem queueEvent_pInterp (s : AsyncState C) (xCallback : Option C)
    (xMalloc : Option ℕ) : (s.queueEvent xCallback xMalloc).1.pInterp = s.pInterp := by
  unfold queueEvent
  split
  · rfl
  · split_ifs
    · rfl
    · rfl
    · split
      · rfl
      · simp

@[simp] theorem backfill_pInterp (s : AsyncState C) : s.backfill.pInterp = s.pInterp := by
  unfold backfill
  split
  · rfl
  · split <;> rfl

end AsyncState

/-- A state and the thread that drains it.  The thread holds a callback between taking
it off the queue and invoking it.  The three lists record the events queued with
success, the callbacks run and those dropped because the interpreter was gone. -/
structure EventLoop (C : Type) where
  pState : AsyncState C
  inHand : Option C
  queued : List C
  ran : List C
  dropped : List C

inductive EventOp (C : Type) where
  | queueEvent (xCallback : Option C) (xMalloc : Option ℕ)
  | drainPop
  | drainInvoke
  | deleteInterp

namespace EventLoop

def init : EventLoop C := ⟨.create, none, [], [], []⟩

/-- One change of the state.  A callback that is being run is a sequence of further
steps; the draining thread invokes what it holds before it takes off more. -/
def step (l : EventLoop C) : EventOp C → EventLoop C
  | .queueEvent xCallback xMalloc =>
    let r := l.pState.queueEvent xCallback xMalloc
    { l with
      pState := r.1
      queued := if r.2 then l.queued ++ xCallback.toList else l.queued }
  | .drainPop =>
    match l.inHand with
    | some _ => l
    | none =>
      let r := l.pState.drainPop
      { l with pState := r.1, inHand := r.2 }
  | .drainInvoke =>
    if l.pState.pInterp then
      { l with inHand := none, ran := l.ran ++ l.inHand.toList }
    else { l with inHand := none, dropped := l.dropped ++ l.inHand.toList }
  | .deleteInterp =>
    { l with pState := { l.pState with nDeleted := true, pInterp := false } }

end EventLoop

def EventOp.Promised (l : EventLoop C) : EventOp C → Prop
  | .queueEvent _ xMalloc => ∀ p, xMalloc = some p → l.pState.heap p = none
  | .drainPop => True
  | .drainInvoke => True
  | .deleteInterp => True

/-- No node is appended to the overflow list while its counter is the largest `int`. -/
def EventOp.CounterFits (l : EventLoop C) : EventOp C → Prop
  | .queueEvent _ xMalloc =>
    l.pState.nStatic = eventQueueStaticN → xMalloc.isSome → l.pState.nOverflow ≠ cIntMax
  | .drainPop => True
  | .drainInvoke => True
  | .deleteInterp => True

/-! ## The queue a state holds -/

/-- The ring of a state holds the callbacks `ring`. -/
structure AsyncState.RingHolds (s : AsyncState C) (ring : List C) : Prop where
  head_lt : s.iHead < eventQueueStaticN
  static_le : s.nStatic ≤ eventQueueStaticN
  ring_eq : ringItems eventQueueStaticN s.aStatic s.iHead s.nStatic = ring.map some

/-- The state holds the callbacks `ring` in its ring and the nodes `items` behind it. -/
structure AsyncState.Holds (s : AsyncState C) (ring : List C) (items : List (ℕ × C)) :
    Prop extends s.RingHolds ring where
  overflow : LinkedQueue s.heap s.pOverflowHead s.pOverflowTail items
  full : items ≠ [] → s.nStatic = eventQueueStaticN
  count : s.nOverflow = wrapInt items.length

def pendingOf (ring : List C) (items : List (ℕ × C)) : List C :=
  ring ++ items.map Prod.snd

namespace AsyncState.RingHolds

variable {s : AsyncState C} {ring : List C}

theorem pushStatic (h : s.RingHolds ring) (hroom : s.nStatic < eventQueueStaticN) (cb : C) :
    (s.pushStatic cb).RingHolds (ring ++ [cb]) := by
  constructor
  · exact h.head_lt
  · exact hroom
  · simp only [AsyncState.pushStatic, freeSlot]
    rw [ringItems_push _ _ hroom, h.ring_eq]
    simp

theorem popStatic (h : s.RingHolds ring) (hpos : 0 < s.nStatic) :
    ∃ cb ring', ring = cb :: ring' ∧ s.aStatic s.iHead = some cb ∧ s.popStatic.RingHolds ring' := by
  obtain ⟨n, hn⟩ : ∃ n, s.nStatic = n + 1 := ⟨s.nStatic - 1, by omega⟩
  have hring := h.ring_eq
  rw [hn, ringItems_succ _ h.head_lt] at hring
  cases ring with
  | nil => simp at hring
  | cons cb ring' =>
    rw [List.map_cons, List.cons.injEq] at hring
    refine ⟨cb, ring', rfl, hring.1, ?_⟩
    have hle := h.static_le
    constructor
    · exact Nat.mod_lt _ (by decide)
    · simp only [AsyncState.popStatic]
      omega
    · simpa [AsyncState.popStatic, hn] using hring.2

end AsyncState.RingHolds

namespace AsyncState.Holds

variable {s : AsyncState C} {ring : List C} {items : List (ℕ × C)}

theorem create : (AsyncState.create : AsyncState C).Holds [] [] := by
  constructor
  · exact ⟨Nat.zero_lt_succ 7, Nat.zero_le 8, rfl⟩
  · exact LinkedQueue.nil
  · exact fun h => absurd rfl h
  · exact (wrapInt_of_fits le_rfl (by decide)).symm

section

variable (h : s.Holds ring items)

include h

theorem ring_length : ring.length = s.nStatic := by
  have hlen := congrArg List.length h.ring_eq
  simpa using hlen.symm

theorem items_eq_nil (hroom : s.nStatic < eventQueueStaticN) : items = [] := by
  by_contra hne
  have := h.full hne
  omega

theorem pushStatic (hroom : s.nStatic < eventQueueStaticN)
    (cb : C) : (s.pushStatic cb).Holds (ring ++ [cb]) [] := by
  have hnil := h.items_eq_nil hroom
  subst hnil
  constructor
  · exact h.toRingHolds.pushStatic hroom cb
  · exact h.overflow
  · exact fun hne => absurd rfl hne
  · exact h.count

theorem overflowAppend (hfull : s.nStatic = eventQueueStaticN)
    {pEv : ℕ} (hfresh : s.heap pEv = none) (cb : C) :
    (s.overflowAppend pEv cb).Holds ring (items ++ [(pEv, cb)]) := by
  have hcount : wrapInt (s.nOverflow + 1) = wrapInt (items ++ [(pEv, cb)]).length := by
    rw [h.count, wrapInt_succ]
    simp
  have hring := h.toRingHolds
  cases htail : s.pOverflowTail with
  | none =>
    have hnil : items = [] := h.overflow.tail_eq_none.mp htail
    subst hnil
    rw [AsyncState.overflowAppend, htail]
    exact ⟨⟨hring.head_lt, hring.static_le, hring.ring_eq⟩,
      LinkedQueue.singleton pEv cb, fun _ => hfull, hcount⟩
  | some t =>
    have hover := h.overflow
    rw [htail] at hover
    obtain ⟨⟨b, next⟩, hb⟩ := hover.tail_heap
    have hne : t ≠ pEv := by
      rintro rfl
      simp [hfresh] at hb
    have hpush := hover.push_tail cb hb hfresh
    rw [AsyncState.overflowAppend, htail]
    refine ⟨⟨hring.head_lt, hring.static_le, hring.ring_eq⟩, ?_, fun _ => hfull, hcount⟩
    simpa [Function.update_of_ne hne, hb] using hpush

theorem queueEvent (xCallback : Option C) {xMalloc : Option ℕ}
    (hfresh : ∀ p, xMalloc = some p → s.heap p = none) :
    s.queueEvent xCallback xMalloc = (s, false) ∨
      ∃ cb ring' items', xCallback = some cb ∧ (s.queueEvent xCallback xMalloc).2 = true ∧
        (s.queueEvent xCallback xMalloc).1.Holds ring' items' ∧
        pendingOf ring' items' = pendingOf ring items ++ [cb] ∧ items'.length ≤ items.length + 1 ∧
        (items'.length = items.length + 1 → s.nStatic = eventQueueStaticN ∧ xMalloc.isSome) := by
  cases xCallback with
  | none => exact Or.inl rfl
  | some cb =>
    simp only [AsyncState.queueEvent]
    by_cases hgone : (!s.bMutexReady || s.nDeleted) = true
    · exact Or.inl (by simp only [hgone, if_true])
    · simp only [hgone]
      by_cases hroom : s.nStatic < eventQueueStaticN
      · right
        have hnil := h.items_eq_nil hroom
        subst hnil
        refine ⟨cb, ring ++ [cb], [], rfl, by simp [hroom], ?_, by simp [pendingOf],
          by simp, by simp⟩
        simpa [hroom] using h.pushStatic hroom cb
      · have hfull : s.nStatic = eventQueueStaticN := by
          have := h.static_le
          omega
        cases xMalloc with
        | none => exact Or.inl (by simp [hroom])
        | some p =>
          right
          refine ⟨cb, ring, items ++ [(p, cb)], rfl, by simp [hroom], ?_,
            by simp [pendingOf], by simp, fun _ => ⟨hfull, rfl⟩⟩
          simpa [hroom] using h.overflowAppend hfull (hfresh p rfl) cb

theorem popStatic_backfill (hpos : 0 < s.nStatic) :
    ∃ cb ring' items', s.aStatic s.iHead = some cb ∧ s.popStatic.backfill.Holds ring' items' ∧
      pendingOf ring items = cb :: pendingOf ring' items' ∧ items'.length ≤ items.length := by
  obtain ⟨cb, ring', hring, hcb, hpop⟩ := h.toRingHolds.popStatic hpos
  cases items with
  | nil =>
    have hhead : s.pOverflowHead = none := h.overflow.head_eq_none.mpr rfl
    have hsame : s.popStatic.backfill = s.popStatic := by
      simp [AsyncState.backfill, AsyncState.popStatic, hhead]
    refine ⟨cb, ring', [], hcb, ?_, by simp [pendingOf, hring], le_rfl⟩
    rw [hsame]
    exact ⟨hpop, h.overflow, fun hne => absurd rfl hne, h.count⟩
  | cons e rest =>
    obtain ⟨p, a⟩ := e
    obtain ⟨hhead, next, hp, hqueue⟩ := h.overflow.pop
    have hfull := h.full (by simp)
    refine ⟨cb, ring' ++ [a], rest, hcb, ?_, by simp [pendingOf, hring], by simp⟩
    have hback : s.popStatic.backfill = (s.popStatic.overflowPopHead p ⟨a, next⟩).pushStatic a := by
      simp [AsyncState.backfill, AsyncState.popStatic, hhead, hp]
    rw [hback]
    have hroom : s.popStatic.nStatic < eventQueueStaticN := by
      simp only [AsyncState.popStatic]
      omega
    have hpop' : (s.popStatic.overflowPopHead p ⟨a, next⟩).RingHolds ring' :=
      ⟨hpop.head_lt, hpop.static_le, hpop.ring_eq⟩
    constructor
    · exact hpop'.pushStatic hroom a
    · exact hqueue
    · intro _
      simp only [AsyncState.pushStatic, AsyncState.overflowPopHead, AsyncState.popStatic]
      omega
    · simp only [AsyncState.pushStatic, AsyncState.overflowPopHead, AsyncState.popStatic]
      rw [h.count, wrapInt_pred]
      simp

end

end AsyncState.Holds

/-! ## First in, first out -/

namespace EventLoop

variable {l : EventLoop C}

/-- The events queued are those run, dropped, held and pending, in this order, and
nothing is dropped while the interpreter lives. -/
structure Tracks (l : EventLoop C) (ring : List C) (items : List (ℕ × C)) : Prop where
  holds : l.pState.Holds ring items
  queued_eq : l.queued = l.ran ++ l.dropped ++ l.inHand.toList ++ pendingOf ring items
  dropped_eq : l.pState.pInterp = true → l.dropped = []

theorem init_tracks : (init : EventLoop C).Tracks [] [] := by
  constructor
  · exact AsyncState.Holds.create
  · rfl
  · exact fun _ => rfl

variable {ring : List C} {items : List (ℕ × C)}

section

variable (h : l.Tracks ring items)

include h

theorem Tracks.step_queueEvent {xCallback : Option C} {xMalloc : Option ℕ}
    (hfresh : ∀ p, xMalloc = some p → l.pState.heap p = none) :
    ∃ ring' items', (l.step (.queueEvent xCallback xMalloc)).Tracks ring' items' ∧
      (items'.length ≤ items.length ∨
        items'.length = items.length + 1 ∧
          l.pState.nStatic = eventQueueStaticN ∧ xMalloc.isSome) := by
  rcases h.holds.queueEvent xCallback hfresh with
    heq | ⟨cb, ring', items', rfl, hok, hholds, hpend, hlen, hgrow⟩
  · refine ⟨ring, items, ?_, Or.inl le_rfl⟩
    have hsame : l.step (.queueEvent xCallback xMalloc) = l := by
      rw [EventLoop.step, heq]
      rfl
    rw [hsame]
    exact h
  · refine ⟨ring', items', ?_, ?_⟩
    · constructor
      · exact hholds
      · simp only [EventLoop.step, hok, if_true]
        rw [hpend, h.queued_eq]
        simp
      · simpa [EventLoop.step] using h.dropped_eq
    · by_cases hle : items'.length ≤ items.length
      · exact Or.inl hle
      · exact Or.inr ⟨by omega, hgrow (by omega)⟩

theorem Tracks.step_drainPop :
    ∃ ring' items', (l.step .drainPop).Tracks ring' items' ∧ items'.length ≤ items.length := by
  cases hhand : l.inHand with
  | some cb =>
    refine ⟨ring, items, ?_, le_rfl⟩
    have hsame : l.step .drainPop = l := by
      rw [EventLoop.step, hhand]
    rw [hsame]
    exact h
  | none =>
    have hqueued := h.queued_eq
    rw [hhand, Option.toList_none, List.append_nil] at hqueued
    have hstep : l.step .drainPop =
        { l with pState := l.pState.drainPop.1, inHand := l.pState.drainPop.2 } := by
      rw [EventLoop.step, hhand]
    by_cases hpop : (l.pState.bMutexReady && 0 < l.pState.nStatic) = true
    · have hpos : 0 < l.pState.nStatic := by
        simp only [Bool.and_eq_true, decide_eq_true_eq] at hpop
        exact hpop.2
      obtain ⟨cb, ring', items', hcb, hholds, hpend, hlen⟩ := h.holds.popStatic_backfill hpos
      have hdrain : l.pState.drainPop = (l.pState.popStatic.backfill, some cb) := by
        rw [AsyncState.drainPop, if_pos hpop, hcb]
      refine ⟨ring', items', ?_, hlen⟩
      rw [hstep, hdrain]
      constructor
      · exact hholds
      · simp only [Option.toList_some]
        rw [hqueued, hpend]
        simp
      · simpa [AsyncState.popStatic] using h.dropped_eq
    · have hdrain : l.pState.drainPop = (l.pState, none) := by
        rw [AsyncState.drainPop, if_neg hpop]
      refine ⟨ring, items, ?_, le_rfl⟩
      rw [hstep, hdrain]
      constructor
      · exact h.holds
      · simpa using hqueued
      · exact h.dropped_eq

theorem Tracks.step_drainInvoke : (l.step .drainInvoke).Tracks ring items := by
  have hqueued := h.queued_eq
  rw [EventLoop.step]
  by_cases hinterp : l.pState.pInterp = true
  · rw [if_pos hinterp]
    constructor
    · exact h.holds
    · simpa [h.dropped_eq hinterp] using hqueued
    · exact h.dropped_eq
  · rw [if_neg hinterp]
    constructor
    · exact h.holds
    · simpa using hqueued
    · exact fun hlive => absurd hlive hinterp

theorem Tracks.step_deleteInterp : (l.step .deleteInterp).Tracks ring items := by
  constructor
  · exact ⟨⟨h.holds.head_lt, h.holds.static_le, h.holds.ring_eq⟩, h.holds.overflow,
      h.holds.full, h.holds.count⟩
  · exact h.queued_eq
  · simp [EventLoop.step]

theorem Tracks.step (op : EventOp C) (hop : op.Promised l) :
    ∃ ring' items', (l.step op).Tracks ring' items' ∧
      (items'.length ≤ items.length ∨
        items'.length = items.length + 1 ∧ (op.CounterFits l → l.pState.nOverflow ≠ cIntMax)) := by
  cases op with
  | queueEvent xCallback xMalloc =>
    obtain ⟨ring', items', htracks, hlen⟩ := h.step_queueEvent hop
    refine ⟨ring', items', htracks, ?_⟩
    rcases hlen with hle | ⟨heq, hfull, hsome⟩
    · exact Or.inl hle
    · exact Or.inr ⟨heq, fun hfits => hfits hfull hsome⟩
  | drainPop =>
    obtain ⟨ring', items', htracks, hle⟩ := h.step_drainPop
    exact ⟨ring', items', htracks, Or.inl hle⟩
  | drainInvoke => exact ⟨ring, items, h.step_drainInvoke, Or.inl le_rfl⟩
  | deleteInterp => exact ⟨ring, items, h.step_deleteInterp, Or.inl le_rfl⟩

end

/-- The callbacks run are a prefix of the events queued, what is missing being held,
pending or, once the interpreter is gone, dropped; and the queue is well formed, with a
counter that tells the length of the overflow list. -/
def Sound (l : EventLoop C) : Prop :=
  l.ran <+: l.queued ∧ ∃ ring items, l.Tracks ring items ∧ l.pState.nOverflow = items.length

theorem Tracks.nOverflow_eq (h : l.Tracks ring items) (hlen : (items.length : ℤ) ≤ cIntMax) :
    l.pState.nOverflow = items.length := by
  rw [h.holds.count]
  exact wrapInt_of_fits (Int.natCast_nonneg _) hlen

theorem Tracks.ran_isPrefix (h : l.Tracks ring items) : l.ran <+: l.queued := by
  rw [h.queued_eq, List.append_assoc, List.append_assoc]
  exact List.prefix_append _ _

theorem exists_tracks_of_reachable
    (hl : ReachableBy step (fun l op => op.Promised l ∧ op.CounterFits l) init l) :
    ∃ ring items, l.Tracks ring items ∧ (items.length : ℤ) ≤ cIntMax := by
  apply hl.invariant
  · exact ⟨[], [], init_tracks, Int.natCast_nonneg _⟩
  · rintro l op ⟨ring, items, htracks, hlen⟩ ⟨hpromised, hfits⟩
    obtain ⟨ring', items', htracks', hgrow⟩ := htracks.step op hpromised
    refine ⟨ring', items', htracks', ?_⟩
    rcases hgrow with hle | ⟨heq, hne⟩
    · omega
    · have hcount := htracks.nOverflow_eq hlen
      have := hne hfits
      omega

/-- In every run in which no node is appended behind a counter that is the largest
`int`, the queue is first in, first out and well formed throughout. -/
theorem sound_of_counterFits
    (hl : ReachableBy step (fun l op => op.Promised l ∧ op.CounterFits l) init l) :
    l.Sound := by
  obtain ⟨ring, items, htracks, hlen⟩ := exists_tracks_of_reachable hl
  exact ⟨htracks.ran_isPrefix, ring, items, htracks, htracks.nOverflow_eq hlen⟩

/-! ## Filling the overflow list -/

/-- A loop whose ring is full and whose overflow list has `n` nodes, all below the
address `n`. -/
structure Filled (l : EventLoop Unit) (n : ℕ) : Prop where
  ready : l.pState.bMutexReady = true
  live : l.pState.nDeleted = false
  full : l.pState.nStatic = eventQueueStaticN
  tracks : ∃ ring items, l.Tracks ring items ∧ items.length = n
  fresh : ∀ p, n ≤ p → l.pState.heap p = none

def fillRing : EventLoop Unit :=
  (List.replicate 8 (EventOp.queueEvent (some ()) none)).foldl step init

theorem fillRing_reachable : ReachableBy step EventOp.Promised init fillRing := by
  apply ReachableBy.init.foldl
  simp [ReachableBy.AllowedRun, List.replicate, EventOp.Promised]

theorem exists_tracks (hl : ReachableBy step EventOp.Promised init l) :
    ∃ ring items, l.Tracks ring items := by
  apply hl.invariant
  · exact ⟨[], [], init_tracks⟩
  · rintro l op ⟨ring, items, htracks⟩ hop
    obtain ⟨ring', items', htracks', -⟩ := htracks.step op hop
    exact ⟨ring', items', htracks'⟩

theorem fillRing_filled : fillRing.Filled 0 := by
  constructor
  · rfl
  · rfl
  · rfl
  · obtain ⟨ring, items, htracks⟩ := exists_tracks fillRing_reachable
    have hnil : items = [] := htracks.holds.overflow.head_eq_none.mp rfl
    exact ⟨ring, items, htracks, by simp [hnil]⟩
  · exact fun _ _ => rfl

theorem Filled.step {l : EventLoop Unit} {n : ℕ} (h : l.Filled n) :
    (l.step (.queueEvent (some ()) (some n))).Filled (n + 1) := by
  have hroom : ¬l.pState.nStatic < eventQueueStaticN := by
    have := h.full
    omega
  have hstate : l.pState.queueEvent (some ()) (some n) = (l.pState.overflowAppend n (), true) := by
    simp [AsyncState.queueEvent, h.ready, h.live, hroom]
  have hpState : (l.step (.queueEvent (some ()) (some n))).pState =
      l.pState.overflowAppend n () := by
    simp only [EventLoop.step, hstate]
  obtain ⟨ring, items, htracks, hlen⟩ := h.tracks
  constructor
  · rw [hpState, AsyncState.overflowAppend_bMutexReady]
    exact h.ready
  · rw [hpState, AsyncState.overflowAppend_nDeleted]
    exact h.live
  · rw [hpState, AsyncState.overflowAppend_nStatic]
    exact h.full
  · refine ⟨ring, items ++ [(n, ())], ?_, by simp [hlen]⟩
    constructor
    · rw [hpState]
      exact htracks.holds.overflowAppend h.full (h.fresh n le_rfl) ()
    · simp only [EventLoop.step, hstate, if_true, htracks.queued_eq]
      simp [pendingOf]
    · simpa [EventLoop.step] using htracks.dropped_eq
  · intro p hp
    rw [hpState]
    apply AsyncState.overflowAppend_heap_of_ne
    · omega
    · exact h.fresh p (by omega)

theorem exists_filled (n : ℕ) : ∃ l, ReachableBy step EventOp.Promised init l ∧ l.Filled n := by
  induction n with
  | zero => exact ⟨fillRing, fillRing_reachable, fillRing_filled⟩
  | succ n ih =>
    obtain ⟨l, hl, hfilled⟩ := ih
    refine ⟨_, hl.step (.queueEvent (some ()) (some n)) ?_, hfilled.step⟩
    rintro p ⟨⟩
    exact hfilled.fresh n le_rfl

/-- After 2147483656 events that are not drained the counter of the overflow list has
left its range. -/
theorem not_sound_overflow_counter :
    ∃ l : EventLoop Unit, ReachableBy step EventOp.Promised init l ∧ ¬l.Sound := by
  obtain ⟨l, hl, hfilled⟩ := exists_filled (2 ^ 31)
  refine ⟨l, hl, ?_⟩
  obtain ⟨ring, items, htracks, hlen⟩ := hfilled.tracks
  have hcount := htracks.holds.count
  have hwrap : wrapInt ((2 ^ 31 : ℕ) : ℤ) = -2147483648 := by decide
  rw [hlen, hwrap] at hcount
  rintro ⟨-, ring', items', -, hlength⟩
  omega

def drainRun : List (EventOp Unit) :=
  List.replicate 8 (.queueEvent (some ()) none) ++
    [.queueEvent (some ()) (some 0), .drainPop, .drainInvoke]

/-- The run is sound. -/
theorem sound_drainRun :
    (drainRun.foldl step init).pState.nOverflow = 0 ∧
      (drainRun.foldl step init).ran.length = 1 ∧ (drainRun.foldl step init).Sound := by
  refine ⟨by rfl, by rfl, sound_of_counterFits ?_⟩
  have hring : ∀ l : EventLoop Unit,
      EventOp.Promised l (.queueEvent (some ()) none) ∧
        EventOp.CounterFits l (.queueEvent (some ()) none) := by
    intro l
    refine ⟨?_, ?_⟩
    · rintro p ⟨⟩
    · intro _ hsome
      simp at hsome
  apply ReachableBy.init.foldl
  refine ⟨hring _, hring _, hring _, hring _, hring _, hring _, hring _, hring _,
    ⟨?_, ?_⟩, ⟨trivial, trivial⟩, ⟨trivial, trivial⟩, trivial⟩
  · rintro p ⟨⟩
    rfl
  · intro _ _
    decide

end EventLoop

end Th8
