import Mathlib.Data.List.Basic
import Th8.Support.Custody
import Th8.Support.Transition

/-!
# Cancellation across threads

A request to cancel is one word, into which publishers OR their bits; its message is a
buffer that they exchange into a slot.  The thread that owns the interpreter adopts a
request, clears it, or puts it aside for a `finally` clause and back.  Any of these is a
sequence of atomic steps, and the steps of all parties come in any order.

Compare-and-exchange operations are atomic.  What only the owner reads and writes changes
together with the atomic step next to it, and so do the memory of a buffer and its text.
Buffers get numbers as they are allocated, and any allocation may fail.  The last fields of
the state record what has happened.
-/

namespace Th8

open Support

namespace Cancel

/-! ## Data -/

/-- `TH8_CANCEL_FLAG_MASK`. -/
structure Flags where
  unwind : Bool
  signal : Bool
deriving DecidableEq

def Flags.none : Flags := ⟨false, false⟩

def Flags.or (f g : Flags) : Flags := ⟨f.unwind || g.unwind, f.signal || g.signal⟩

/-- The bits of `nCancelReq`. -/
structure Request where
  canceled : Bool
  flags : Flags
deriving DecidableEq

def Request.zero : Request := ⟨false, .none⟩

def Request.or (r s : Request) : Request := ⟨r.canceled || s.canceled, r.flags.or s.flags⟩

def Flags.publish (f : Flags) : Request := ⟨true, f⟩

abbrev Text := List ℕ

structure OwnerState where
  cancelFlags : Flags
  bCancelMsgOwned : Bool
  zCancelMsg : Option ℕ
deriving DecidableEq

def OwnerState.zero : OwnerState := ⟨.none, false, none⟩

def OwnerState.freed (own : OwnerState) : List ℕ :=
  if own.bCancelMsgOwned then own.zCancelMsg.toList else []

inductive Taker where
  | publisher
  | adoption
  | clear
deriving DecidableEq

/-- Where a publisher is in `th8CancelReqPublish`; `seen` is what a loop has read. -/
inductive PublishPc where
  | build
  | exchange (pBuf : ℕ) (seen : Option (Option ℕ))
  | free (pOld : ℕ)
  | orReq (seen : Option Request)
  | done
deriving DecidableEq

/-- A call of `th8CancelReqPublish`; a signal has no message.  The last field records the
buffer that has been built. -/
structure Publication where
  flags : Flags
  zMsg : Text
  pc : PublishPc
  pBuf : Option ℕ
deriving DecidableEq

/-- Where the owner is.  An adoption goes on to the rest of `th8SaveCancel` or not. -/
inductive OwnerPc where
  | idle
  | cancelOr (flags : Flags) (message : Bool) (seen : Option Request)
  | adoptRead (saving : Bool)
  | adoptExchange (saving : Bool) (seen : Option (Option ℕ))
  | adoptInstall (saving : Bool) (pBuf : ℕ)
  | clearRead
  | clearZero (seen : Option Request)
  | clearExchange (seen : Option (Option ℕ))
  | clearFree (pBuf : ℕ)
  | saveRead
  | saveZero
  | restoreRead (i : ℕ)
  | restoreOr (i : ℕ) (before : List (Option ℕ)) (seen : Option Request)
deriving DecidableEq

/-- `Th8_CancelSave`, and who has requested a cancellation since. -/
structure Save where
  bCanceled : Request
  own : OwnerState
  arrivals : List (Option ℕ)
deriving DecidableEq

/-- A request in the word: its publication, if it has one, its bits, and whether a message
has come with it that is still to be reported. -/
structure Pending where
  source : Option ℕ
  bits : Request
  message : Bool
deriving DecidableEq

/-- The record of a call of `th8RestoreCancel`: the save, who had requested a cancellation
when it was checked, whether the save was discarded, and the state afterwards. -/
structure Restored where
  save : Save
  before : List (Option ℕ)
  discarded : Bool
  nCancelReq : Request
  own : OwnerState
  nCancelReqMsg : Option ℕ
  message : Bool
deriving DecidableEq

end Cancel

structure Cancel where
  nCancelReq : Cancel.Request
  nCancelReqMsg : Option ℕ
  own : Cancel.OwnerState
  owner : Cancel.OwnerPc
  publications : List Cancel.Publication
  saves : List Cancel.Save
  /-- What the buffers contain. -/
  texts : List Cancel.Text
  released : List ℕ
  /-- The buffers that have been exchanged out of the slot. -/
  taken : List (ℕ × Cancel.Taker)
  /-- The buffers that have been adopted, and their copies. -/
  adoptions : List (ℕ × ℕ)
  /-- The requests that have been ORed into the word since it was zeroed. -/
  since : List Cancel.Pending
  /-- The publications whose request a clear has zeroed, or a save has taken. -/
  cleared : List ℕ
  saved : List ℕ
  restores : List Cancel.Restored

namespace Cancel

variable (m : Cancel)

/-- One round of a loop that reads a word and exchanges it if it has not changed. -/
inductive Round (α : Type) where
  | read (old : α)
  | failed
  | exchanged

def round {α : Type} [DecidableEq α] (word : α) : Option α → Round α
  | none => .read word
  | some old => if word = old then .exchanged else .failed

def orBits (source : Option ℕ) (bits : Request) (message : Bool) : Cancel :=
  { m with
    nCancelReq := m.nCancelReq.or bits
    since := m.since ++ [⟨source, bits, message⟩]
    saves := if bits.canceled then
        m.saves.map fun s => { s with arrivals := s.arrivals ++ [source] }
      else m.saves }

def exchangeMsg (new : Option ℕ) (taker : Taker) : Cancel :=
  { m with
    nCancelReqMsg := new
    taken := m.taken ++ m.nCancelReqMsg.toList.map (·, taker) }

def release (l : List ℕ) : Cancel := { m with released := m.released ++ l }

def setOwner (owner : OwnerPc) : Cancel := { m with owner := owner }

/-- `Th8_CancelEval` in a signal handler or on another thread. -/
def publish (flags : Flags) (zMsg : Text) : Cancel :=
  { m with
    publications := m.publications ++
      [⟨flags, zMsg, if flags.signal ∨ zMsg = [] then .orReq none else .build, none⟩] }

def afterAttach : Option ℕ → PublishPc
  | some pOld => .free pOld
  | none => .orReq none

def setPublication (i : ℕ) (p : Publication) : Cancel :=
  { m with publications := m.publications.set i p }

/-- The next step of a publication. -/
def publisherStep (i : ℕ) (hasMemory : Bool) : Option Cancel :=
  match m.publications[i]? with
  | some p =>
    match p.pc with
    | .build =>
      if hasMemory then
        some { m.setPublication i
            { p with pc := .exchange m.texts.length none, pBuf := some m.texts.length } with
          texts := m.texts ++ [p.zMsg] }
      else some (m.setPublication i { p with pc := .orReq none })
    | .exchange pBuf seen =>
      match round m.nCancelReqMsg seen with
      | .read old => some (m.setPublication i { p with pc := .exchange pBuf (some old) })
      | .failed => some (m.setPublication i { p with pc := .exchange pBuf none })
      | .exchanged =>
        some ((m.setPublication i { p with pc := afterAttach m.nCancelReqMsg }).exchangeMsg
          (some pBuf) .publisher)
    | .free pOld => some ((m.setPublication i { p with pc := .orReq none }).release [pOld])
    | .orReq seen =>
      match round m.nCancelReq seen with
      | .read old => some (m.setPublication i { p with pc := .orReq (some old) })
      | .failed => some (m.setPublication i { p with pc := .orReq none })
      | .exchanged =>
        some ((m.setPublication i { p with pc := .done }).orBits (some i) p.flags.publish
          p.pBuf.isSome)
    | .done => none
  | none => none

/-! ## The owner -/

/-- `Th8_CancelEval` on the thread of the owner, up to the word. -/
def cancelEval (unwind : Bool) (zMsg : Option Text) (hasMemory : Bool) : Cancel :=
  let flags : Flags := ⟨unwind, false⟩
  let cancelFlags := m.own.cancelFlags.or flags
  match zMsg with
  | some text =>
    let m₁ := m.release m.own.freed
    if hasMemory then
      { m₁ with
        own := ⟨cancelFlags, true, some m.texts.length⟩
        texts := m.texts ++ [text]
        owner := .cancelOr flags true none }
    else
      { m₁ with own := ⟨cancelFlags, false, none⟩, owner := .cancelOr flags false none }
  | none =>
    { m with
      own := { m.own with cancelFlags := cancelFlags }
      owner := .cancelOr flags false none }

def afterAdopt (saving : Bool) : OwnerPc := if saving then .saveRead else .idle

def afterTake (taken : ℕ → OwnerPc) (pc : OwnerPc) : Option ℕ → OwnerPc
  | some pBuf => taken pBuf
  | none => pc

/-- The end of `th8CancelReqAdopt`: the message is copied unless there is one. -/
def adoptInstall (saving : Bool) (pBuf : ℕ) (hasMemory : Bool) : Cancel :=
  let m₁ : Cancel :=
    if m.own.zCancelMsg = none ∧ hasMemory then
      { m with
        own := { m.own with bCancelMsgOwned := true, zCancelMsg := some m.texts.length }
        texts := m.texts ++ [m.texts.getD pBuf []]
        adoptions := m.adoptions ++ [(pBuf, m.texts.length)] }
    else m
  (m₁.release [pBuf]).setOwner (afterAdopt saving)

/-- `th8SaveCancel` after the adoption: the fields of the owner go into the save. -/
def saveRead : Cancel :=
  { m with
    saves := ⟨m.nCancelReq, m.own, []⟩ :: m.saves
    own := .zero
    since := m.since.map fun e => { e with message := false }
    owner := .saveZero }

/-- The last exchange of `th8SaveCancel`: the word is zeroed if it has not changed. -/
def saveZero : Cancel :=
  match m.saves with
  | s :: _ =>
    if m.nCancelReq = s.bCanceled then
      { m with
        nCancelReq := .zero
        since := []
        saved := m.saved ++ m.since.filterMap Pending.source
        owner := .idle }
    else m.setOwner .idle
  | [] => m.setOwner .idle

def record (s : Save) (before : List (Option ℕ)) (discarded : Bool) : Cancel :=
  { m with
    owner := .idle
    restores := m.restores ++ [⟨s, before, discarded, m.nCancelReq, m.own, m.nCancelReqMsg,
      m.since.any Pending.message⟩] }

/-- `th8RestoreCancel` when there has been another cancellation: the save is discarded. -/
def restoreDiscards (i : ℕ) (s : Save) : Cancel :=
  record { m.release s.own.freed with saves := m.saves.eraseIdx i } s s.arrivals true

/-- The end of `th8RestoreCancel`: the saved bits are ORed in, and the fields put back. -/
def restoreEnd (i : ℕ) (s : Save) (before : List (Option ℕ)) : Cancel :=
  let m₁ : Cancel := { m with saves := m.saves.eraseIdx i }
  record { m₁.orBits none s.bCanceled s.own.zCancelMsg.isSome with own := s.own } s before false

/-- The next step of what the owner is doing. -/
def ownerStep (hasMemory : Bool) : Option Cancel :=
  match m.owner with
  | .idle => none
  | .cancelOr flags message seen =>
    match round m.nCancelReq seen with
    | .read old => some (m.setOwner (.cancelOr flags message (some old)))
    | .failed => some (m.setOwner (.cancelOr flags message none))
    | .exchanged => some ((m.orBits none flags.publish message).setOwner .idle)
  | .adoptRead saving =>
    if m.nCancelReq.canceled then
      some { m with
        own := { m.own with cancelFlags := m.own.cancelFlags.or m.nCancelReq.flags }
        owner := .adoptExchange saving none }
    else some (m.setOwner (afterAdopt saving))
  | .adoptExchange saving seen =>
    match round m.nCancelReqMsg seen with
    | .read old => some (m.setOwner (.adoptExchange saving (some old)))
    | .failed => some (m.setOwner (.adoptExchange saving none))
    | .exchanged =>
      some ((m.exchangeMsg none .adoption).setOwner
        (afterTake (.adoptInstall saving) (afterAdopt saving) m.nCancelReqMsg))
  | .adoptInstall saving pBuf => some (m.adoptInstall saving pBuf hasMemory)
  | .clearRead =>
    if m.nCancelReq.canceled then
      some { m.release m.own.freed with own := .zero, owner := .clearZero none }
    else some (m.setOwner .idle)
  | .clearZero seen =>
    match round m.nCancelReq seen with
    | .read old => some (m.setOwner (.clearZero (some old)))
    | .failed => some (m.setOwner (.clearZero none))
    | .exchanged =>
      some { m with
        nCancelReq := .zero
        since := []
        cleared := m.cleared ++ m.since.filterMap Pending.source
        owner := .clearExchange none }
  | .clearExchange seen =>
    match round m.nCancelReqMsg seen with
    | .read old => some (m.setOwner (.clearExchange (some old)))
    | .failed => some (m.setOwner (.clearExchange none))
    | .exchanged =>
      some ((m.exchangeMsg none .clear).setOwner (afterTake .clearFree .idle m.nCancelReqMsg))
  | .clearFree pBuf => some ((m.release [pBuf]).setOwner .idle)
  | .saveRead => some m.saveRead
  | .saveZero => some m.saveZero
  | .restoreRead i =>
    match m.saves[i]? with
    | some s =>
      if m.nCancelReq.canceled then some (m.restoreDiscards i s)
      else some (m.setOwner (.restoreOr i s.arrivals none))
    | none => none
  | .restoreOr i before seen =>
    match m.saves[i]? with
    | some s =>
      match round m.nCancelReq seen with
      | .read old => some (m.setOwner (.restoreOr i before (some old)))
      | .failed => some (m.setOwner (.restoreOr i before none))
      | .exchanged => some (m.restoreEnd i s before)
    | none => none

/-- `try_post_finally` is not scheduled, or freed by an unwinding cancellation. -/
def discardSave (i : ℕ) : Cancel := { m with saves := m.saves.eraseIdx i }

inductive Move where
  | publish (flags : Flags) (zMsg : Text)
  | publisher (i : ℕ) (hasMemory : Bool)
  | owner (hasMemory : Bool)
  | cancelEval (unwind : Bool) (zMsg : Option Text) (hasMemory : Bool)
  | adopt
  | clear
  | save
  | restore (i : ℕ)
  | discardSave (i : ℕ)

def begin : Move → Option Cancel
  | .cancelEval unwind zMsg hasMemory => some (m.cancelEval unwind zMsg hasMemory)
  | .adopt => some (m.setOwner (.adoptRead false))
  | .clear => some (m.setOwner .clearRead)
  | .save => some (m.setOwner (.adoptRead true))
  | .restore i => if i < m.saves.length then some (m.setOwner (.restoreRead i)) else none
  | .discardSave i => some (m.discardSave i)
  | _ => none

def next : Move → Option Cancel
  | .publish flags zMsg => some (m.publish flags zMsg)
  | .publisher i hasMemory => m.publisherStep i hasMemory
  | .owner hasMemory => m.ownerStep hasMemory
  | i => if m.owner = .idle then m.begin i else none

def step (i : Move) : Cancel := (m.next i).getD m

/-- A new interpreter. -/
def fresh : Cancel where
  nCancelReq := .zero
  nCancelReqMsg := none
  own := .zero
  owner := .idle
  publications := []
  saves := []
  texts := []
  released := []
  taken := []
  adoptions := []
  since := []
  cleared := []
  saved := []
  restores := []

end Cancel

end Th8
