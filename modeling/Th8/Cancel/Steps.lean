import Th8.Cancel.Machine

/-!
# The steps of a cancellation, one by one

A move that changes something is one of the steps below.  Each says what it has found and
what it does, so that no later proof unfolds the machine.
-/

namespace Th8.Cancel

open Option

def PublishPc.unread : PublishPc → PublishPc
  | .exchange pBuf _ => .exchange pBuf none
  | .orReq _ => .orReq none
  | pc => pc

def OwnerPc.unread : OwnerPc → OwnerPc
  | .cancelOr flags message _ => .cancelOr flags message none
  | .adoptExchange saving _ => .adoptExchange saving none
  | .clearZero _ => .clearZero none
  | .clearExchange _ => .clearExchange none
  | .restoreOr i before _ => .restoreOr i before none
  | pc => pc

variable {m m' : Cancel}

inductive Step (m : Cancel) : Move → Cancel → Prop where
  | publish (flags : Flags) (zMsg : Text) : Step m (.publish flags zMsg) (m.publish flags zMsg)
  | publisherReads {i : ℕ} {hasMemory : Bool} {p : Publication} {pc : PublishPc}
      (hp : m.publications[i]? = some p) (hpc : pc.unread = p.pc.unread) :
      Step m (.publisher i hasMemory) (m.setPublication i { p with pc := pc })
  | build {i : ℕ} {p : Publication} (hp : m.publications[i]? = some p) (hpc : p.pc = .build) :
      Step m (.publisher i true)
        { m.setPublication i
            { p with pc := .exchange m.texts.length none, pBuf := some m.texts.length } with
          texts := m.texts ++ [p.zMsg] }
  | buildFails {i : ℕ} {p : Publication} (hp : m.publications[i]? = some p) (hpc : p.pc = .build) :
      Step m (.publisher i false) (m.setPublication i { p with pc := .orReq none })
  | attach {i : ℕ} {hasMemory : Bool} {p : Publication} {pBuf : ℕ}
      (hp : m.publications[i]? = some p) (hpc : p.pc = .exchange pBuf (some m.nCancelReqMsg)) :
      Step m (.publisher i hasMemory)
        ((m.setPublication i { p with pc := afterAttach m.nCancelReqMsg }).exchangeMsg
          (some pBuf) .publisher)
  | freeOld {i : ℕ} {hasMemory : Bool} {p : Publication} {pOld : ℕ}
      (hp : m.publications[i]? = some p) (hpc : p.pc = .free pOld) :
      Step m (.publisher i hasMemory)
        ((m.setPublication i { p with pc := .orReq none }).release [pOld])
  | orReq {i : ℕ} {hasMemory : Bool} {p : Publication} (hp : m.publications[i]? = some p)
      (hpc : p.pc = .orReq (some m.nCancelReq)) :
      Step m (.publisher i hasMemory)
        ((m.setPublication i { p with pc := .done }).orBits (some i) p.flags.publish p.pBuf.isSome)
  | ownerReads {hasMemory : Bool} {pc : OwnerPc} (hpc : pc.unread = m.owner.unread) :
      Step m (.owner hasMemory) (m.setOwner pc)
  | cancelOr {hasMemory message : Bool} {flags : Flags}
      (howner : m.owner = .cancelOr flags message (some m.nCancelReq)) :
      Step m (.owner hasMemory) ((m.orBits none flags.publish message).setOwner .idle)
  | adoptRead {hasMemory saving : Bool} (howner : m.owner = .adoptRead saving)
      (hcanceled : m.nCancelReq.canceled) :
      Step m (.owner hasMemory) { m with
        own := { m.own with cancelFlags := m.own.cancelFlags.or m.nCancelReq.flags }
        owner := .adoptExchange saving none }
  | adoptNothing {hasMemory saving : Bool} (howner : m.owner = .adoptRead saving)
      (hcanceled : m.nCancelReq.canceled = false) :
      Step m (.owner hasMemory) (m.setOwner (afterAdopt saving))
  | adoptExchange {hasMemory saving : Bool}
      (howner : m.owner = .adoptExchange saving (some m.nCancelReqMsg)) :
      Step m (.owner hasMemory) ((m.exchangeMsg none .adoption).setOwner
        (afterTake (.adoptInstall saving) (afterAdopt saving) m.nCancelReqMsg))
  | adoptInstall {hasMemory saving : Bool} {pBuf : ℕ}
      (howner : m.owner = .adoptInstall saving pBuf) :
      Step m (.owner hasMemory) (m.adoptInstall saving pBuf hasMemory)
  | clearRead {hasMemory : Bool} (howner : m.owner = .clearRead)
      (hcanceled : m.nCancelReq.canceled) :
      Step m (.owner hasMemory)
        { m.release m.own.freed with own := .zero, owner := .clearZero none }
  | clearNothing {hasMemory : Bool} (howner : m.owner = .clearRead)
      (hcanceled : m.nCancelReq.canceled = false) : Step m (.owner hasMemory) (m.setOwner .idle)
  | clearZero {hasMemory : Bool} (howner : m.owner = .clearZero (some m.nCancelReq)) :
      Step m (.owner hasMemory) { m with
        nCancelReq := .zero
        since := []
        cleared := m.cleared ++ m.since.filterMap Pending.source
        owner := .clearExchange none }
  | clearExchange {hasMemory : Bool} (howner : m.owner = .clearExchange (some m.nCancelReqMsg)) :
      Step m (.owner hasMemory) ((m.exchangeMsg none .clear).setOwner
        (afterTake .clearFree .idle m.nCancelReqMsg))
  | clearFree {hasMemory : Bool} {pBuf : ℕ} (howner : m.owner = .clearFree pBuf) :
      Step m (.owner hasMemory) ((m.release [pBuf]).setOwner .idle)
  | saveRead {hasMemory : Bool} (howner : m.owner = .saveRead) :
      Step m (.owner hasMemory) m.saveRead
  | saveZero {hasMemory : Bool} {s : Save} {rest : List Save} (howner : m.owner = .saveZero)
      (hsaves : m.saves = s :: rest) (hsame : m.nCancelReq = s.bCanceled) :
      Step m (.owner hasMemory) { m with
        nCancelReq := .zero
        since := []
        saved := m.saved ++ m.since.filterMap Pending.source
        owner := .idle }
  | saveKeeps {hasMemory : Bool} (howner : m.owner = .saveZero)
      (hchanged : ∀ s ∈ m.saves.head?, m.nCancelReq ≠ s.bCanceled) :
      Step m (.owner hasMemory) (m.setOwner .idle)
  | restoreDiscards {hasMemory : Bool} {i : ℕ} {s : Save} (howner : m.owner = .restoreRead i)
      (hs : m.saves[i]? = some s) (hcanceled : m.nCancelReq.canceled) :
      Step m (.owner hasMemory) (m.restoreDiscards i s)
  | restoreReads {hasMemory : Bool} {i : ℕ} {s : Save} (howner : m.owner = .restoreRead i)
      (hs : m.saves[i]? = some s) (hcanceled : m.nCancelReq.canceled = false) :
      Step m (.owner hasMemory) (m.setOwner (.restoreOr i s.arrivals none))
  | restoreOr {hasMemory : Bool} {i : ℕ} {s : Save} {before : List (Option ℕ)}
      (howner : m.owner = .restoreOr i before (some m.nCancelReq)) (hs : m.saves[i]? = some s) :
      Step m (.owner hasMemory) (m.restoreEnd i s before)
  | cancelEval {unwind hasMemory : Bool} {zMsg : Option Text} (howner : m.owner = .idle) :
      Step m (.cancelEval unwind zMsg hasMemory) (m.cancelEval unwind zMsg hasMemory)
  | adopts (howner : m.owner = .idle) : Step m .adopt (m.setOwner (.adoptRead false))
  | clears (howner : m.owner = .idle) : Step m .clear (m.setOwner .clearRead)
  | saves (howner : m.owner = .idle) : Step m .save (m.setOwner (.adoptRead true))
  | restores {i : ℕ} (howner : m.owner = .idle) (hi : i < m.saves.length) :
      Step m (.restore i) (m.setOwner (.restoreRead i))
  | discardSave {i : ℕ} (howner : m.owner = .idle) : Step m (.discardSave i) (m.discardSave i)

section Loops

variable {α : Type} [DecidableEq α] {word : α} {seen : Option α}

theorem round_exchanged (h : round word seen = .exchanged) : seen = some word := by
  cases seen with
  | none => cases h
  | some old =>
    rw [round] at h
    split_ifs at h with heq
    rw [heq]

end Loops

theorem publisherStep_cases {i : ℕ} {hasMemory : Bool}
    (h : m.publisherStep i hasMemory = some m') : Step m (.publisher i hasMemory) m' := by
  rw [publisherStep] at h
  split at h
  case h_2 => cases h
  rename_i p hp
  split at h
  case h_1 hpc =>
    cases hasMemory with
    | true =>
      cases h
      exact .build hp hpc
    | false =>
      cases h
      exact .buildFails hp hpc
  case h_2 pBuf seen hpc =>
    split at h <;> rw [← some.inj h]
    · exact .publisherReads hp (by rw [hpc]; rfl)
    · exact .publisherReads hp (by rw [hpc]; rfl)
    · rename_i hround
      exact .attach hp (round_exchanged hround ▸ hpc)
  case h_3 pOld hpc =>
    cases h
    exact .freeOld hp hpc
  case h_4 seen hpc =>
    split at h <;> rw [← some.inj h]
    · exact .publisherReads hp (by rw [hpc]; rfl)
    · exact .publisherReads hp (by rw [hpc]; rfl)
    · rename_i hround
      exact .orReq hp (round_exchanged hround ▸ hpc)
  case h_5 => cases h

theorem ownerStep_cases {hasMemory : Bool} (h : m.ownerStep hasMemory = some m') :
    Step m (.owner hasMemory) m' := by
  rw [ownerStep] at h
  have hreads {pc pc' : OwnerPc} (howner : m.owner = pc) (hpc : pc'.unread = pc.unread) :
      Step m (.owner hasMemory) (m.setOwner pc') := by
    refine .ownerReads ?_
    rw [hpc, howner]
  split at h
  case h_1 => cases h
  case h_2 flags message seen howner =>
    split at h <;> rw [← some.inj h]
    · exact hreads howner rfl
    · exact hreads howner rfl
    · rename_i hround
      exact .cancelOr (round_exchanged hround ▸ howner)
  case h_3 saving howner =>
    split_ifs at h with hcanceled <;> rw [← some.inj h]
    · exact .adoptRead howner hcanceled
    · exact .adoptNothing howner (Bool.eq_false_iff.mpr hcanceled)
  case h_4 saving seen howner =>
    split at h <;> rw [← some.inj h]
    · exact hreads howner rfl
    · exact hreads howner rfl
    · rename_i hround
      exact .adoptExchange (round_exchanged hround ▸ howner)
  case h_5 saving pBuf howner =>
    cases h
    exact .adoptInstall howner
  case h_6 howner =>
    split_ifs at h with hcanceled <;> rw [← some.inj h]
    · exact .clearRead howner hcanceled
    · exact .clearNothing howner (Bool.eq_false_iff.mpr hcanceled)
  case h_7 seen howner =>
    split at h <;> rw [← some.inj h]
    · exact hreads howner rfl
    · exact hreads howner rfl
    · rename_i hround
      exact .clearZero (round_exchanged hround ▸ howner)
  case h_8 seen howner =>
    split at h <;> rw [← some.inj h]
    · exact hreads howner rfl
    · exact hreads howner rfl
    · rename_i hround
      exact .clearExchange (round_exchanged hround ▸ howner)
  case h_9 pBuf howner =>
    cases h
    exact .clearFree howner
  case h_10 howner =>
    cases h
    exact .saveRead howner
  case h_11 howner =>
    rw [← some.inj h, saveZero]
    split
    · rename_i s rest hsaves
      split_ifs with hsame
      · exact .saveZero howner hsaves hsame
      · exact .saveKeeps howner (by simpa [hsaves] using hsame)
    · rename_i hsaves
      exact .saveKeeps howner (by simp [hsaves])
  case h_12 i howner =>
    split at h
    case h_2 => cases h
    rename_i s hs
    split_ifs at h with hcanceled <;> rw [← some.inj h]
    · exact .restoreDiscards howner hs hcanceled
    · exact .restoreReads howner hs (Bool.eq_false_iff.mpr hcanceled)
  case h_13 i before seen howner =>
    split at h
    case h_2 => cases h
    rename_i s hs
    split at h <;> rw [← some.inj h]
    · exact hreads howner rfl
    · exact hreads howner rfl
    · rename_i hround
      exact .restoreOr (round_exchanged hround ▸ howner) hs

theorem next_cases {i : Move} (h : m.next i = some m') : Step m i m' := by
  have hbegin (hnext : m.next i = if m.owner = .idle then m.begin i else none) :
      m.owner = .idle ∧ m.begin i = some m' := by
    rw [hnext] at h
    split_ifs at h with howner
    exact ⟨howner, h⟩
  cases i with
  | publish flags zMsg =>
    cases h
    exact .publish flags zMsg
  | publisher i hasMemory => exact publisherStep_cases h
  | owner hasMemory => exact ownerStep_cases h
  | cancelEval unwind zMsg hasMemory =>
    obtain ⟨howner, h⟩ := hbegin rfl
    cases h
    exact .cancelEval howner
  | adopt =>
    obtain ⟨howner, h⟩ := hbegin rfl
    cases h
    exact .adopts howner
  | clear =>
    obtain ⟨howner, h⟩ := hbegin rfl
    cases h
    exact .clears howner
  | save =>
    obtain ⟨howner, h⟩ := hbegin rfl
    cases h
    exact .saves howner
  | restore i =>
    obtain ⟨howner, h⟩ := hbegin rfl
    rw [begin] at h
    split_ifs at h with hi
    cases h
    exact .restores howner hi
  | discardSave i =>
    obtain ⟨howner, h⟩ := hbegin rfl
    cases h
    exact .discardSave howner

theorem step_of_cases {P : Cancel → Prop} {i : Move} (h : P m)
    (hstep : ∀ m', Step m i m' → P m') : P (m.step i) := by
  rw [step]
  cases hnext : m.next i with
  | none => exact h
  | some m' => exact hstep m' (next_cases hnext)

end Th8.Cancel
