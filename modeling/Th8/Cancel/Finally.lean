import Th8.Cancel.Saves

/-!
# Cancellation and `finally`

A `finally` clause runs between a save and a restoration.  If no cancellation is requested
in between, the restoration puts back what was saved.  If one is, either it is still pending
and what was saved is freed, or it has been cleared and what was saved is put back.
-/

namespace Th8

open Support List

namespace Cancel

variable {m m' : Cancel}

def Publication.halfDone (p : Publication) : Bool :=
  match p.pc with
  | .free _ => p.pBuf.isSome
  | .orReq _ => p.pBuf.isSome
  | _ => false

def HalfDone (m : Cancel) : Prop := ∃ p ∈ m.publications, p.halfDone

instance : Decidable (HalfDone m) := List.decidableBEx _ _

def FinallyAllowed (m : Cancel) (i : Move) : Prop :=
  CoherentAllowed m i ∧
    match i with
    | .owner hasMemory =>
      (m.owner = .clearZero (some m.nCancelReq) → ¬HalfDone m) ∧
        (m.owner = .saveRead → HalfDone m → m.nCancelReqMsg ≠ none) ∧
          (m.owner.copies ≠ none → m.own.zCancelMsg = none → hasMemory)
    | .cancelEval _ zMsg hasMemory => zMsg ≠ none → m.own.zCancelMsg ≠ none → hasMemory
    | .discardSave i => ∀ s, m.saves[i]? = some s → s.arrivals ≠ []
    | _ => True

/-! ## Messages to be reported -/

def MessageDue (m : Cancel) : Prop := (m.since.any Pending.message = true) ∨ HalfDone m

def Reported (m : Cancel) : Prop :=
  m.nCancelReqMsg ≠ none ∨ m.own.zCancelMsg ≠ none ∨ m.owner.copies ≠ none

def OwnerPc.zeroing : OwnerPc → Bool
  | .clearZero _ => true
  | _ => false

theorem OwnerPc.zeroing_unread (pc : OwnerPc) : pc.unread.zeroing = pc.zeroing := by
  cases pc <;> rfl

/-- `Th8_CancelEval` has a message for the word it is about to set. -/
def OwnerPc.brings : OwnerPc → Bool
  | .cancelOr _ message _ => message
  | _ => false

theorem OwnerPc.brings_unread (pc : OwnerPc) : pc.unread.brings = pc.brings := by
  cases pc <;> rfl

structure Reports (m : Cancel) : Prop where
  brings : m.owner.brings → m.own.zCancelMsg ≠ none
  reported : MessageDue m → Reported m ∨ m.owner.zeroing
  clearing : m.owner.clearing → ¬MessageDue m

theorem reports_fresh : Reports fresh where
  brings h := by cases h
  reported h := by
    rcases h with h | ⟨p, hp, -⟩
    · cases h
    · cases hp
  clearing h := by cases h

variable {i : ℕ}

theorem HalfDone.of_set {p p' : Publication} (hp : m.publications[i]? = some p)
    (hp' : p'.halfDone → p.halfDone) (hpublications : m'.publications = m.publications.set i p')
    (h : HalfDone m') : HalfDone m := by
  obtain ⟨q, hq, hhalf⟩ := h
  rw [hpublications] at hq
  rcases mem_or_eq_of_mem_set hq with hq | rfl
  · exact ⟨q, hq, hhalf⟩
  · exact ⟨p, mem_of_getElem? hp, hp' hhalf⟩

section

variable (h : Reports m)

include h

theorem Reports.there (hcopies : m.owner.copies = none)
    (hzeroing : m.owner.zeroing = false) (hdue : MessageDue m) :
    m.nCancelReqMsg ≠ none ∨ m.own.zCancelMsg ≠ none := by
  rcases h.reported hdue with (hmsg | hmsg | hmsg) | hbusy
  · exact .inl hmsg
  · exact .inr hmsg
  · exact absurd hcopies hmsg
  · rw [hzeroing] at hbusy
    cases hbusy

theorem Reports.mono (hdue : MessageDue m' → MessageDue m)
    (hslot : m.nCancelReqMsg ≠ none → m'.nCancelReqMsg ≠ none) (hown : m'.own = m.own)
    (howner : m'.owner = m.owner) : Reports m' where
  brings := by
    rw [howner, hown]
    exact h.brings
  reported hm' := by
    rw [Reported, hown, howner]
    exact (h.reported (hdue hm')).imp_left (Or.imp_left hslot)
  clearing hbusy hm' := by
    rw [howner] at hbusy
    exact h.clearing hbusy (hdue hm')

theorem Reports.owner (hdue : MessageDue m' → MessageDue m)
    (hslot : m'.nCancelReqMsg = m.nCancelReqMsg)
    (hown : m.own.zCancelMsg ≠ none → m'.own.zCancelMsg ≠ none)
    (hcopies : m.owner.copies = none) (hzeroing : m.owner.zeroing → m'.owner.zeroing)
    (hbrings : m'.owner.brings = false) (hclearing : m'.owner.clearing = false) :
    Reports m' where
  brings hpc := by simp [hbrings] at hpc
  reported hm' := by
    rcases h.reported (hdue hm') with (hmsg | hmsg | hmsg) | hbusy
    · exact .inl (.inl (hslot ▸ hmsg))
    · exact .inl (.inr (.inl (hown hmsg)))
    · exact absurd hcopies hmsg
    · exact .inr (hzeroing hbusy)
  clearing hpc := by simp [hclearing] at hpc

theorem Reports.publisher {p p' : Publication} (hp : m.publications[i]? = some p)
    (hp' : p'.halfDone → p.halfDone) (hpublications : m'.publications = m.publications.set i p')
    (hsince : m'.since = m.since) (hslot : m'.nCancelReqMsg = m.nCancelReqMsg)
    (hown : m'.own = m.own) (howner : m'.owner = m.owner) : Reports m' := by
  refine h.mono (fun hdue => ?_) (fun hmsg => hslot ▸ hmsg) hown howner
  rcases hdue with hany | hhalf
  · exact .inl (hsince ▸ hany)
  · exact .inr (hhalf.of_set hp hp' hpublications)

end

theorem any_message_append (l : List Pending) (e : Pending) :
    (l ++ [e]).any Pending.message = (l.any Pending.message || e.message) := by
  simp [any_append]

theorem Reports.step (h : Reports m) (hkept : Kept m) {i : Move}
    (hallowed : FinallyAllowed m i) (hstep : Step m i m') : Reports m' := by
  cases hstep with
  | publish flags zMsg =>
    refine h.mono (fun hdue => ?_) id rfl rfl
    rcases hdue with hany | ⟨p, hp, hhalf⟩
    · exact .inl hany
    · rcases mem_append.mp hp with hp | hp
      · exact .inr ⟨p, hp, hhalf⟩
      · rw [mem_singleton.mp hp, Publication.halfDone] at hhalf
        split_ifs at hhalf
        cases hhalf
  | @publisherReads j _ p pc hp hpc =>
    refine h.publisher hp (fun hhalf => ?_) rfl rfl rfl rfl rfl
    cases hold : p.pc <;> cases hnew : pc <;> simp_all [PublishPc.unread, Publication.halfDone]
  | build hp hpc => exact h.publisher hp (fun hhalf => by cases hhalf) rfl rfl rfl rfl rfl
  | @buildFails j p hp hpc =>
    refine h.publisher hp (fun hhalf => ?_) rfl rfl rfl rfl rfl
    have hnone := hkept.origins.unbuilt hp hpc
    rw [Publication.halfDone] at hhalf
    simp [hnone] at hhalf
  | attach hp hpc =>
    have hidle : m.owner.clearing = false := hallowed.1.2 _ _ hp hpc
    refine ⟨h.brings, fun _ => .inl (.inl (by simp [exchangeMsg])), fun hbusy => ?_⟩
    change m.owner.clearing = true at hbusy
    rw [hidle] at hbusy
    cases hbusy
  | freeOld hp hpc =>
    refine h.publisher hp (fun hhalf => ?_) rfl rfl rfl rfl rfl
    rw [Publication.halfDone, hpc]
    exact hhalf
  | @orReq j _ p hp hpc =>
    refine h.mono (fun hdue => ?_) id rfl rfl
    have hhalf : p.halfDone = p.pBuf.isSome := by
      rw [Publication.halfDone, hpc]
    rcases hdue with hany | hdue
    · rw [orBits, any_message_append, Bool.or_eq_true] at hany
      rcases hany with hany | hsome
      · exact .inl hany
      · exact .inr ⟨p, mem_of_getElem? hp, hhalf.trans hsome⟩
    · exact .inr (hdue.of_set hp (fun hnew => by cases hnew) rfl)
  | @ownerReads _ pc hpc =>
    have hcopies : pc.copies = m.owner.copies := by
      rw [← OwnerPc.copies_unread, hpc, OwnerPc.copies_unread]
    have hzeroing : pc.zeroing = m.owner.zeroing := by
      rw [← OwnerPc.zeroing_unread, hpc, OwnerPc.zeroing_unread]
    have hbrings : pc.brings = m.owner.brings := by
      rw [← OwnerPc.brings_unread, hpc, OwnerPc.brings_unread]
    have hclearing : pc.clearing = m.owner.clearing := by
      rw [← OwnerPc.clearing_unread, hpc, OwnerPc.clearing_unread]
    refine ⟨?_, ?_, ?_⟩
    · rw [setOwner, hbrings]
      exact h.brings
    · rw [setOwner, Reported, hcopies, hzeroing]
      exact h.reported
    · rw [setOwner, hclearing]
      exact h.clearing
  | @cancelOr _ message flags howner =>
    refine ⟨(fun hpc => by cases hpc), fun hdue => .inl ?_, fun hpc => by cases hpc⟩
    have hstill := h.there (by rw [howner]; rfl) (by rw [howner]; rfl)
    rcases hdue with hany | hhalf
    · rw [setOwner, orBits, any_message_append, Bool.or_eq_true] at hany
      rcases hany with hany | hnew
      · exact (hstill (.inl hany)).imp_right .inl
      · refine .inr (.inl (h.brings ?_))
        rw [howner]
        exact hnew
    · exact (hstill (.inr hhalf)).imp_right .inl
  | adoptRead howner =>
    exact h.owner id rfl id (by rw [howner]; rfl) (by simp [howner, OwnerPc.zeroing]) rfl rfl
  | @adoptNothing _ saving howner =>
    refine h.owner id rfl id (by rw [howner]; rfl) (by simp [howner, OwnerPc.zeroing]) ?_ ?_
    · cases saving <;> rfl
    · cases saving <;> rfl
  | @adoptExchange _ saving howner =>
    have hpc : (afterTake (.adoptInstall saving) (afterAdopt saving)
        m.nCancelReqMsg).brings = false ∧ (afterTake (.adoptInstall saving)
          (afterAdopt saving) m.nCancelReqMsg).clearing = false := by
      cases m.nCancelReqMsg <;> cases saving <;> exact ⟨rfl, rfl⟩
    refine ⟨fun hbrings => ?_, fun hdue => .inl ?_, fun hclearing => ?_⟩
    · change (afterTake _ _ _).brings = true at hbrings
      simp [hpc.1] at hbrings
    · cases hslot : m.nCancelReqMsg with
      | some b =>
        refine .inr (.inr ?_)
        rw [setOwner, afterTake]
        simp [OwnerPc.copies]
      | none =>
        have hmsg := h.there (by rw [howner]; rfl) (by rw [howner]; rfl) hdue
        exact .inr (.inl (hmsg.resolve_left fun hnone => hnone hslot))
    · change (afterTake _ _ _).clearing = true at hclearing
      simp [hpc.2] at hclearing
  | @adoptInstall hasMemory saving pBuf howner =>
    have hown : (m.adoptInstall saving pBuf hasMemory).own.zCancelMsg ≠ none := by
      rw [adoptInstall]
      by_cases hnone : m.own.zCancelMsg = none
      · have hmemory := hallowed.2.2.2 (by simp [howner, OwnerPc.copies]) hnone
        rw [if_pos ⟨hnone, hmemory⟩]
        simp [setOwner, release]
      · rw [if_neg fun hcopy => hnone hcopy.1]
        exact hnone
    have hpc : (m.adoptInstall saving pBuf hasMemory).owner = afterAdopt saving := rfl
    refine ⟨fun _ => hown, fun _ => .inl (.inr (.inl hown)), fun hclearing => ?_⟩
    rw [hpc] at hclearing
    cases saving <;> cases hclearing
  | clearRead howner =>
    exact ⟨(fun hpc => by cases hpc), fun _ => .inr rfl, fun hpc => by cases hpc⟩
  | clearZero howner =>
    have hnone : ¬MessageDue { m with
        nCancelReq := .zero
        since := []
        cleared := m.cleared ++ m.since.filterMap Pending.source
        owner := .clearExchange none } := by
      rintro (hany | hhalf)
      · cases hany
      · exact hallowed.2.1 howner hhalf
    exact ⟨(fun hpc => by cases hpc), fun hdue => absurd hdue hnone, fun _ => hnone⟩
  | clearExchange howner =>
    have hnone : ¬MessageDue m := h.clearing (by rw [howner]; rfl)
    refine ⟨fun hpc => ?_, fun hdue => absurd hdue hnone, fun _ => hnone⟩
    exfalso
    revert hpc
    change (afterTake _ _ m.nCancelReqMsg).brings = true → False
    cases m.nCancelReqMsg <;> simp [afterTake, OwnerPc.brings]
  | saveRead howner =>
    refine ⟨(fun hpc => by cases hpc), fun hdue => .inl (.inl ?_), fun hpc => by cases hpc⟩
    rcases hdue with hany | hhalf
    · simp [Cancel.saveRead] at hany
    · exact hallowed.2.2.1 howner hhalf
  | saveZero howner =>
    refine h.owner (fun hdue => ?_) rfl id (by rw [howner]; rfl)
      (by simp [howner, OwnerPc.zeroing]) rfl rfl
    rcases hdue with hany | hhalf
    · cases hany
    · exact .inr hhalf
  | @restoreOr _ i s before howner hs =>
    have hnone : m.own.zCancelMsg = none := hkept.settled.emptied (by rw [howner]; rfl)
    refine ⟨(fun hpc => by cases hpc), fun hdue => .inl ?_, fun hpc => by cases hpc⟩
    have hstill (hdue : MessageDue m) : m.nCancelReqMsg ≠ none := by
      refine (h.there ?_ ?_ hdue).resolve_right fun hmsg => hmsg hnone
      · rw [howner]
        rfl
      · rw [howner]
        rfl
    rcases hdue with hany | hhalf
    · rw [restoreEnd, record, orBits, any_message_append, Bool.or_eq_true] at hany
      rcases hany with hany | hnew
      · exact .inl (hstill (.inl hany))
      · refine .inr (.inl fun heq : s.own.zCancelMsg = none => ?_)
        simp [heq] at hnew
    · exact .inl (hstill (.inr hhalf))
  | @cancelEval unwind hasMemory zMsg howner =>
    have hstill := h.there (by rw [howner]; rfl) (by rw [howner]; rfl)
    cases zMsg with
    | none =>
      exact ⟨(fun hpc => by cases hpc), fun hdue => .inl ((hstill hdue).imp_right .inl),
        fun hpc => by cases hpc⟩
    | some text =>
      cases hasMemory with
      | true =>
        refine ⟨fun _ => ?_, fun _ => .inl (.inr (.inl ?_)), fun hpc => by cases hpc⟩
        · simp [cancelEval]
        · simp [cancelEval]
      | false =>
        refine ⟨(fun hpc => by cases hpc), fun hdue => .inl (.inl ?_), fun hpc => by cases hpc⟩
        refine (hstill hdue).resolve_right fun hmsg => ?_
        exact Bool.false_ne_true (hallowed.2 (by simp) hmsg)
  | discardSave howner => exact h.mono id id rfl rfl
  | _ howner =>
    exact h.owner id rfl id (by rw [howner]; rfl) (by simp [howner, OwnerPc.zeroing]) rfl rfl

/-! ## Restorations -/

structure Restored.Faithful (m : Cancel) (r : Restored) : Prop where
  /-- If nobody has requested a cancellation, everything is as it was saved. -/
  quiet : r.save.arrivals = [] → r.discarded = false ∧ r.nCancelReq = r.save.bCanceled
  /-- The saved message is back, and the cancellations in between have been cleared or are
  in other saves. -/
  kept : r.discarded = false → r.own = r.save.own ∧
    ∀ i, some i ∈ r.before → i ∈ m.cleared ∨ i ∈ m.saved
  /-- The saved message has been freed, and one that has come since is there. -/
  freed : r.discarded → (∀ b, r.save.own.zCancelMsg = some b → b ∈ m.released) ∧
    (r.message → r.nCancelReqMsg ≠ none ∨ r.own.zCancelMsg ≠ none)

theorem Restored.Faithful.mono {r : Restored} (h : r.Faithful m) (hcleared : m.cleared ⊆ m'.cleared)
    (hsaved : m.saved ⊆ m'.saved) (hreleased : m.released ⊆ m'.released) : r.Faithful m' where
  quiet := h.quiet
  kept hdiscarded := by
    obtain ⟨hown, hbefore⟩ := h.kept hdiscarded
    exact ⟨hown, fun i hi => (hbefore i hi).imp (@hcleared i) (@hsaved i)⟩
  freed hdiscarded := by
    obtain ⟨hfreed, hmessage⟩ := h.freed hdiscarded
    exact ⟨fun b hb => hreleased (hfreed b hb), hmessage⟩

theorem Step.grows {i : Move} (hstep : Step m i m') :
    m.cleared ⊆ m'.cleared ∧ m.saved ⊆ m'.saved ∧ m.released ⊆ m'.released := by
  have hrefl (l : List ℕ) : l ⊆ l := List.Subset.refl l
  have hleft (l l' : List ℕ) : l ⊆ l ++ l' := subset_append_left l l'
  cases hstep with
  | freeOld => exact ⟨hrefl _, hrefl _, hleft _ _⟩
  | clearRead => exact ⟨hrefl _, hrefl _, hleft _ _⟩
  | clearFree => exact ⟨hrefl _, hrefl _, hleft _ _⟩
  | restoreDiscards => exact ⟨hrefl _, hrefl _, hleft _ _⟩
  | clearZero => exact ⟨hleft _ _, hrefl _, hrefl _⟩
  | saveZero => exact ⟨hrefl _, hleft _ _, hrefl _⟩
  | adoptInstall =>
    rw [Cancel.adoptInstall]
    split_ifs <;> exact ⟨hrefl _, hrefl _, hleft _ _⟩
  | @cancelEval unwind hasMemory zMsg =>
    cases zMsg with
    | none => exact ⟨hrefl _, hrefl _, hrefl _⟩
    | some text => cases hasMemory <;> exact ⟨hrefl _, hrefl _, hleft _ _⟩
  | _ => exact ⟨hrefl _, hrefl _, hrefl _⟩

def OwnerPc.checked : OwnerPc → List (Option ℕ)
  | .restoreOr _ before _ => before
  | _ => []

theorem OwnerPc.checked_unread (pc : OwnerPc) : pc.unread.checked = pc.checked := by
  cases pc <;> rfl

structure Records (m : Cancel) : Prop where
  checked : ∀ i, some i ∈ m.owner.checked → i ∈ m.cleared ∨ i ∈ m.saved
  restores : ∀ r ∈ m.restores, r.Faithful m

theorem Records.step (h : Records m) (hkept : Kept m) (hquiet : Quiet m) (hreports : Reports m)
    {i : Move} (hstep : Step m i m') : Records m' := by
  obtain ⟨hcleared, hsaved, hreleased⟩ := hstep.grows
  have hsame (hrestores : m'.restores = m.restores) : ∀ r ∈ m'.restores, r.Faithful m' := by
    rw [hrestores]
    exact fun r hr => (h.restores r hr).mono hcleared hsaved hreleased
  have hstill (howner : m'.owner.checked = m.owner.checked) :
      ∀ i, some i ∈ m'.owner.checked → i ∈ m'.cleared ∨ i ∈ m'.saved := by
    rw [howner]
    exact fun i hi => (h.checked i hi).imp (@hcleared i) (@hsaved i)
  have hnone (howner : m'.owner.checked = []) :
      ∀ i, some i ∈ m'.owner.checked → i ∈ m'.cleared ∨ i ∈ m'.saved := by
    simp [howner]
  cases hstep with
  | publish => exact ⟨hstill rfl, hsame rfl⟩
  | publisherReads => exact ⟨hstill rfl, hsame rfl⟩
  | build => exact ⟨hstill rfl, hsame rfl⟩
  | buildFails => exact ⟨hstill rfl, hsame rfl⟩
  | attach => exact ⟨hstill rfl, hsame rfl⟩
  | freeOld => exact ⟨hstill rfl, hsame rfl⟩
  | orReq => exact ⟨hstill rfl, hsame rfl⟩
  | ownerReads hpc =>
    refine ⟨hstill ?_, hsame rfl⟩
    rw [← OwnerPc.checked_unread m.owner, ← hpc, OwnerPc.checked_unread]
    rfl
  | @adoptNothing _ saving => exact ⟨hnone (by cases saving <;> rfl), hsame rfl⟩
  | @adoptExchange _ saving =>
    refine ⟨hnone ?_, hsame rfl⟩
    cases m.nCancelReqMsg <;> cases saving <;> rfl
  | @adoptInstall hasMemory saving pBuf =>
    refine ⟨hnone ?_, hsame ?_⟩
    · change (afterAdopt saving).checked = []
      cases saving <;> rfl
    · rw [adoptInstall]
      split_ifs <;> rfl
  | clearExchange =>
    refine ⟨hnone ?_, hsame rfl⟩
    change (afterTake _ _ m.nCancelReqMsg).checked = []
    cases m.nCancelReqMsg <;> rfl
  | @restoreDiscards _ i s howner hs hcanceled =>
    have hrunning : m.running = m.saves := if_neg (by simp [howner])
    have hmem : s ∈ m.saves := mem_of_getElem? hs
    refine ⟨hnone rfl, fun r hr => ?_⟩
    rcases mem_append.mp hr with hr | hr
    · exact (h.restores r hr).mono hcleared hsaved hreleased
    · rw [mem_singleton.mp hr]
      refine ⟨fun hnil => ?_, (fun hkeeps => by cases hkeeps), fun _ => ⟨fun b hb => ?_, ?_⟩⟩
      · rw [hquiet.running s (hrunning ▸ hmem) hnil] at hcanceled
        cases hcanceled
      · refine mem_append_right m.released ?_
        rw [(hkept.settled.saves s hmem).1.freed, OwnerState.held, hb]
        exact mem_singleton_self b
      · intro hmessage
        refine hreports.there ?_ ?_ (.inl hmessage)
        · rw [howner]
          rfl
        · rw [howner]
          rfl
  | @restoreReads _ i s howner hs hcanceled =>
    refine ⟨fun j hj => ?_, hsame rfl⟩
    have hdone : m.Done j := hquiet.arrivals s (mem_of_getElem? hs) j hj
    refine ((hkept.word.done j).mp hdone).resolve_left fun hpending => ?_
    obtain ⟨c, -, hhas⟩ := hkept.word.has hpending
    rw [hhas.canceled rfl] at hcanceled
    cases hcanceled
  | @restoreOr _ i s before howner hs =>
    have hrunning : m.running = m.saves := if_neg (by simp [howner])
    refine ⟨hnone rfl, fun r hr => ?_⟩
    rcases mem_append.mp hr with hr | hr
    · exact (h.restores r hr).mono hcleared hsaved hreleased
    · rw [mem_singleton.mp hr]
      refine ⟨fun hnil => ⟨rfl, ?_⟩, fun _ => ⟨rfl, fun j hj => ?_⟩,
        fun hdiscards => by cases hdiscards⟩
      · have hzero := hquiet.running s (hrunning ▸ mem_of_getElem? hs) hnil
        change m.nCancelReq.or s.bCanceled = s.bCanceled
        rw [hzero, Request.or_comm, or_zero]
      · refine h.checked j ?_
        rw [howner]
        exact hj
  | @cancelEval unwind hasMemory zMsg =>
    cases zMsg with
    | none => exact ⟨hnone rfl, hsame rfl⟩
    | some text =>
      cases hasMemory with
      | true => exact ⟨hnone rfl, hsame rfl⟩
      | false => exact ⟨hnone rfl, hsame rfl⟩
  | discardSave => exact ⟨hstill rfl, hsame rfl⟩
  | _ => exact ⟨hnone rfl, hsame rfl⟩

structure Restoring (m : Cancel) : Prop where
  coherent : Coherent m
  restores : ∀ r ∈ m.restores, r.Faithful m

/-- In every run in which saves are restored, and clears and saves find no publication half
done, a restoration puts back what was saved, or gives way to a new cancellation. -/
theorem restoring_of_reachable (hrun : ReachableBy Cancel.step FinallyAllowed fresh m) :
    Restoring m := by
  have hstep (m : Cancel) (i : Move)
      (h : Kept m ∧ Whole m ∧ Quiet m ∧ Reports m ∧ Records m) (hallowed : FinallyAllowed m i) :
      Kept (m.step i) ∧ Whole (m.step i) ∧ Quiet (m.step i) ∧ Reports (m.step i) ∧
        Records (m.step i) := by
    refine step_of_cases (P := fun m => Kept m ∧ Whole m ∧ Quiet m ∧ Reports m ∧ Records m) h
      fun m' hm' => ?_
    obtain ⟨hkept, hwhole, hquiet, hreports, hrecords⟩ := h
    exact ⟨hkept.step hallowed.1.1 hm',
      hwhole.step hkept.origins hkept.word hallowed.1 hm', hquiet.step hm',
      hreports.step hkept hallowed hm', hrecords.step hkept hquiet hreports hm'⟩
  have hreached : Kept m ∧ Whole m ∧ Quiet m ∧ Reports m ∧ Records m := by
    refine ReachableBy.invariant ?_ hstep hrun
    refine ⟨kept_fresh, whole_fresh, quiet_fresh, reports_fresh, ⟨?_, ?_⟩⟩
    · simp [fresh, OwnerPc.checked]
    · simp [fresh]
  obtain ⟨hkept, hwhole, -, -, hrecords⟩ := hreached
  exact ⟨hkept.coherent hwhole, hrecords.restores⟩

theorem finallyAllowed_publisher {hasMemory : Bool} (h : m.owner.clearing = false) :
    FinallyAllowed m (.publisher i hasMemory) := ⟨allowed_publisher h, trivial⟩

theorem finallyAllowed_owner (hzero : m.owner ≠ .clearZero (some m.nCancelReq))
    (hhalf : ¬HalfDone m) : FinallyAllowed m (.owner true) :=
  ⟨⟨trivial, fun howner => absurd howner hzero⟩, fun _ => hhalf,
    fun _ hdue => absurd hdue hhalf, fun _ _ => rfl⟩

/-- A canceled script has a `finally` clause, during which nothing happens, and another one,
during which a foreign thread cancels. -/
def restoreTwice : List Move :=
  [.cancelEval false (some [65]) true, .owner true, .owner true, .save, .owner true,
    .owner true, .owner true, .owner true, .owner true, .restore 0, .owner true, .owner true,
    .owner true, .save, .owner true, .owner true, .owner true, .owner true, .owner true,
    .publish .none [66], .publisher 0 true, .publisher 0 true, .publisher 0 true,
    .publisher 0 true, .publisher 0 true, .restore 0, .owner true]

theorem restoring_restoreTwice : Restoring (restoreTwice.foldl Cancel.step fresh) := by
  have hallowed : ReachableBy.AllowedRun Cancel.step FinallyAllowed fresh restoreTwice := by
    refine ⟨⟨⟨trivial, trivial⟩, fun _ _ => rfl⟩, ?_, ?_, ⟨⟨trivial, trivial⟩, trivial⟩,
      ?_, ?_, ?_, ?_, ?_, ⟨⟨trivial, trivial⟩, trivial⟩, ?_, ?_, ?_,
      ⟨⟨trivial, trivial⟩, trivial⟩, ?_, ?_, ?_, ?_, ?_, ⟨⟨trivial, trivial⟩, trivial⟩,
      ?_, ?_, ?_, ?_, ?_, ⟨⟨trivial, trivial⟩, trivial⟩, ?_, trivial⟩
    iterate 15 exact finallyAllowed_owner (by decide) (by decide)
    iterate 5 exact finallyAllowed_publisher (by decide)
    exact finallyAllowed_owner (by decide) (by decide)
  exact restoring_of_reachable (ReachableBy.init.foldl hallowed)

/-- A second cancellation unwinds the `finally` clause, and its restoration is never run. -/
def unwindFinally : List Move :=
  [.cancelEval false (some [65]) true, .owner true, .owner true, .save, .owner true,
    .owner true, .owner true, .owner true, .owner true, .cancelEval true none true,
    .owner true, .owner true, .discardSave 0]

def clearInFinally : List Move :=
  [.cancelEval false (some [65]) true, .owner true, .owner true, .save, .owner true,
    .owner true, .owner true, .owner true, .owner true, .publish ⟨false, true⟩ [],
    .publisher 0 true, .publisher 0 true, .publish .none [66], .publisher 1 true,
    .publisher 1 true, .publisher 1 true, .clear, .owner true, .owner true, .owner true,
    .owner true, .owner true, .owner true, .publisher 1 true, .publisher 1 true, .restore 0,
    .owner true]

/-- The first run loses the saved message, and the second one keeps neither. -/
theorem finally_not_restoring : ¬Restoring (unwindFinally.foldl Cancel.step fresh) ∧
    ¬Restoring (clearInFinally.foldl Cancel.step fresh) := by
  refine ⟨fun h => ?_, fun h => ?_⟩
  · have hlost : ¬0 ∈ (unwindFinally.foldl Cancel.step fresh).held ++
        (unwindFinally.foldl Cancel.step fresh).released := by decide
    refine hlost (h.coherent.once.mem_iff.mpr ?_)
    decide
  · have hrestore : (⟨⟨⟨true, .none⟩, ⟨.none, true, some 0⟩, [some 0, some 1]⟩,
        [some 0, some 1], true, ⟨true, .none⟩, .zero, none, true⟩ : Restored) ∈
          (clearInFinally.foldl Cancel.step fresh).restores := by decide
    have hneither := ((h.restores _ hrestore).freed rfl).2 rfl
    exact hneither.elim (fun hslot => hslot rfl) fun hown => hown rfl

end Cancel

end Th8
