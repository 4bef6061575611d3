import Th8.Cancel.Steps

/-!
# Where the buffers are

Every buffer is held in one place until it is freed: by the publisher that builds or frees
it, in the slot, by the owner that copies or frees it, as the message of the owner or in a
save.  Only a save that is never restored takes its buffer along.
-/

namespace Th8

open Support List Option

namespace Cancel

variable {m m' : Cancel}

def PublishPc.held : PublishPc → List ℕ
  | .exchange pBuf _ => [pBuf]
  | .free pOld => [pOld]
  | _ => []

def OwnerPc.held : OwnerPc → List ℕ
  | .adoptInstall _ pBuf => [pBuf]
  | .clearFree pBuf => [pBuf]
  | _ => []

def OwnerState.held (own : OwnerState) : List ℕ := own.zCancelMsg.toList

def held (m : Cancel) : List ℕ :=
  m.nCancelReqMsg.toList ++ m.publications.flatMap (·.pc.held) ++ m.owner.held ++
    m.own.held ++ m.saves.flatMap (·.own.held)

theorem count_held (m : Cancel) (n : ℕ) : m.held.count n =
    m.nCancelReqMsg.toList.count n + (m.publications.flatMap (·.pc.held)).count n +
      m.owner.held.count n + m.own.held.count n + (m.saves.flatMap (·.own.held)).count n := by
  simp only [held, count_append]

theorem PublishPc.held_unread (pc : PublishPc) : pc.unread.held = pc.held := by
  cases pc <;> rfl

theorem OwnerPc.held_unread (pc : OwnerPc) : pc.unread.held = pc.held := by
  cases pc <;> rfl

theorem afterAttach_held (old : Option ℕ) : (afterAttach old).held = old.toList := by
  cases old <;> rfl

theorem afterAdopt_held (saving : Bool) : (afterAdopt saving).held = [] := by
  cases saving <;> rfl

variable {pc : OwnerPc}

theorem afterTake_held {taken : ℕ → OwnerPc} (htaken : ∀ b, (taken b).held = [b])
    (hpc : pc.held = []) (old : Option ℕ) :
    (afterTake taken pc old).held = old.toList := by
  cases old with
  | none => exact hpc
  | some b => exact htaken b

/-! ## The owner -/

def OwnerState.Owned (own : OwnerState) : Prop := own.bCancelMsgOwned = own.zCancelMsg.isSome

theorem OwnerState.Owned.freed {own : OwnerState} (h : own.Owned) : own.freed = own.held := by
  rw [OwnerState.freed, OwnerState.held, h]
  cases own.zCancelMsg <;> rfl

/-- `Th8_CancelEval` has set the message and not yet the word. -/
def OwnerPc.cancels : OwnerPc → Bool
  | .cancelOr .. => true
  | _ => false

def OwnerPc.emptied : OwnerPc → Bool
  | .clearZero _ => true
  | .saveZero => true
  | .restoreOr .. => true
  | _ => false

def OwnerPc.adopting : OwnerPc → Bool
  | .adoptExchange .. => true
  | .adoptInstall .. => true
  | _ => false

theorem OwnerPc.cancels_unread (pc : OwnerPc) : pc.unread.cancels = pc.cancels := by
  cases pc <;> rfl

theorem OwnerPc.emptied_unread (pc : OwnerPc) : pc.unread.emptied = pc.emptied := by
  cases pc <;> rfl

theorem OwnerPc.adopting_unread (pc : OwnerPc) : pc.unread.adopting = pc.adopting := by
  cases pc <;> rfl

structure Settled (m : Cancel) : Prop where
  owned : m.own.Owned
  saves : ∀ s ∈ m.saves, s.own.Owned ∧ (s.own.zCancelMsg ≠ none → s.bCanceled.canceled)
  installed : m.own.zCancelMsg ≠ none → m.nCancelReq.canceled ∨ m.owner.cancels
  emptied : m.owner.emptied → m.own.zCancelMsg = none
  adopting : m.owner.adopting → m.nCancelReq.canceled

theorem settled_fresh : Settled fresh where
  owned := rfl
  saves := by simp [fresh]
  installed h := absurd rfl h
  emptied _ := rfl
  adopting h := by cases h

theorem Settled.publisher (h : Settled m) (hown : m'.own = m.own) (howner : m'.owner = m.owner)
    (hsaves : ∀ s ∈ m'.saves, ∃ s' ∈ m.saves, s.own = s'.own ∧ s.bCanceled = s'.bCanceled)
    (hreq : m.nCancelReq.canceled → m'.nCancelReq.canceled) : Settled m' where
  owned := hown ▸ h.owned
  saves s hs := by
    obtain ⟨s', hs', hsame, hbits⟩ := hsaves s hs
    rw [hsame, hbits]
    exact h.saves s' hs'
  installed hmsg := by
    rw [hown] at hmsg
    rw [howner]
    exact (h.installed hmsg).imp_left hreq
  emptied hemptied := by
    rw [howner] at hemptied
    rw [hown]
    exact h.emptied hemptied
  adopting hadopting := by
    rw [howner] at hadopting
    exact hreq (h.adopting hadopting)

theorem Settled.setOwner (h : Settled m)
    (hcancels : m.owner.cancels → pc.cancels ∨ m.nCancelReq.canceled)
    (hemptied : pc.emptied → m.own.zCancelMsg = none)
    (hadopting : pc.adopting → m.nCancelReq.canceled) : Settled (m.setOwner pc) where
  owned := h.owned
  saves := h.saves
  installed hmsg := by
    rcases h.installed hmsg with hreq | howner
    · exact .inl hreq
    · exact (hcancels howner).symm
  emptied := hemptied
  adopting := hadopting

theorem Settled.rest (h : Settled m) (hcancels : m.owner.cancels = false)
    (hemptied : pc.emptied = false) (hadopting : pc.adopting = false) :
    Settled (m.setOwner pc) := by
  refine h.setOwner ?_ ?_ ?_
  · simp [hcancels]
  · simp [hemptied]
  · simp [hadopting]

theorem canceled_or (r s : Request) : (r.or s).canceled = (r.canceled || s.canceled) := rfl

theorem arrivals_saves (m : Cancel) (source : Option ℕ) (bits : Request) (message : Bool) :
    ∀ s ∈ (m.orBits source bits message).saves,
      ∃ s' ∈ m.saves, s.own = s'.own ∧ s.bCanceled = s'.bCanceled := by
  intro s hs
  rw [orBits] at hs
  split_ifs at hs
  · obtain ⟨s', hs', rfl⟩ := mem_map.mp hs
    exact ⟨s', hs', rfl, rfl⟩
  · exact ⟨s, hs, rfl, rfl⟩

theorem Settled.orBits (h : Settled m) (source : Option ℕ) (bits : Request) (message : Bool) :
    Settled (m.orBits source bits message) := by
  refine h.publisher rfl rfl (arrivals_saves m source bits message) fun hreq => ?_
  rw [Cancel.orBits, canceled_or, hreq]
  rfl

theorem Settled.step (h : Settled m) {i : Move} (hstep : Step m i m') : Settled m' := by
  have hsame : ∀ s ∈ m.saves, ∃ s' ∈ m.saves, s.own = s'.own ∧ s.bCanceled = s'.bCanceled :=
    fun s hs => ⟨s, hs, rfl, rfl⟩
  cases hstep with
  | publish => exact h.publisher rfl rfl hsame id
  | publisherReads => exact h.publisher rfl rfl hsame id
  | build => exact h.publisher rfl rfl hsame id
  | buildFails => exact h.publisher rfl rfl hsame id
  | attach => exact h.publisher rfl rfl hsame id
  | freeOld => exact h.publisher rfl rfl hsame id
  | orReq =>
    refine Settled.orBits ?_ _ _ _
    exact h.publisher rfl rfl hsame id
  | ownerReads hpc =>
    refine h.setOwner ?_ ?_ ?_
    · rw [← OwnerPc.cancels_unread, ← hpc, OwnerPc.cancels_unread]
      exact .inl
    · rw [← OwnerPc.emptied_unread, hpc, OwnerPc.emptied_unread]
      exact h.emptied
    · rw [← OwnerPc.adopting_unread, hpc, OwnerPc.adopting_unread]
      exact h.adopting
  | cancelOr =>
    refine Settled.setOwner (h.orBits _ _ _) (fun _ => .inr ?_) (fun hpc => by cases hpc)
      fun hpc => by cases hpc
    exact Bool.or_true _
  | adoptRead howner hcanceled =>
    exact ⟨h.owned, h.saves, fun _ => .inl hcanceled, (fun hpc => by cases hpc), fun _ => hcanceled⟩
  | adoptNothing howner =>
    refine h.rest (by rw [howner]; rfl) ?_ ?_ <;>
    · rw [afterAdopt]
      split_ifs <;> rfl
  | @adoptExchange _ saving howner =>
    have hreq : m.nCancelReq.canceled := h.adopting (by rw [howner]; rfl)
    have hpc : (afterTake (.adoptInstall saving) (afterAdopt saving)
        m.nCancelReqMsg).emptied = false := by
      cases m.nCancelReqMsg with
      | none => cases saving <;> rfl
      | some pBuf => rfl
    refine Settled.setOwner ?_ (fun _ => .inr hreq) ?_ fun _ => hreq
    · exact h.publisher rfl rfl hsame id
    · simp [hpc]
  | adoptInstall howner =>
    have hreq : m.nCancelReq.canceled := h.adopting (by rw [howner]; rfl)
    rw [adoptInstall]
    refine Settled.rest ?_ ?_ ?_ ?_
    · split_ifs
      · exact ⟨rfl, h.saves, fun _ => .inl hreq, (by simp [release, howner, OwnerPc.emptied]),
          fun _ => hreq⟩
      · exact h.publisher rfl rfl hsame id
    · split_ifs <;> simp [release, howner, OwnerPc.cancels]
    · rw [afterAdopt]
      split_ifs <;> rfl
    · rw [afterAdopt]
      split_ifs <;> rfl
  | clearRead howner =>
    exact ⟨rfl, h.saves, fun hmsg => absurd rfl hmsg, fun _ => rfl, fun hpc => by cases hpc⟩
  | clearNothing howner => exact h.rest (by rw [howner]; rfl) rfl rfl
  | clearZero howner =>
    have hnone : m.own.zCancelMsg = none := h.emptied (by rw [howner]; rfl)
    exact ⟨h.owned, h.saves, fun hmsg => absurd hnone hmsg, fun _ => hnone, fun hpc => by cases hpc⟩
  | clearExchange howner =>
    refine Settled.rest ?_ ?_ ?_ ?_
    · exact h.publisher rfl rfl hsame id
    · rw [exchangeMsg, howner]
      rfl
    · cases m.nCancelReqMsg <;> rfl
    · cases m.nCancelReqMsg <;> rfl
  | clearFree howner =>
    refine Settled.rest ?_ ?_ rfl rfl
    · exact h.publisher rfl rfl hsame id
    · rw [release, howner]
      rfl
  | saveRead howner =>
    refine ⟨rfl, fun s hs => ?_, fun hmsg => absurd rfl hmsg, fun _ => rfl, fun hpc => by cases hpc⟩
    rcases mem_cons.mp hs with rfl | hs
    · refine ⟨h.owned, fun hmsg => (h.installed hmsg).resolve_right ?_⟩
      simp [howner, OwnerPc.cancels]
    · exact h.saves s hs
  | saveZero howner hsaves heq =>
    have hnone : m.own.zCancelMsg = none := h.emptied (by rw [howner]; rfl)
    exact ⟨h.owned, h.saves, fun hmsg => absurd hnone hmsg, fun _ => hnone, fun hpc => by cases hpc⟩
  | saveKeeps howner hchanged => exact h.rest (by rw [howner]; rfl) rfl rfl
  | restoreDiscards howner hs hcanceled =>
    exact ⟨h.owned, fun s hs => h.saves s (mem_of_mem_eraseIdx hs), fun _ => .inl hcanceled,
      (fun hpc => by cases hpc), fun hpc => by cases hpc⟩
  | restoreReads howner hs hcanceled =>
    refine h.setOwner ?_ (fun _ => ?_) fun hpc => by cases hpc
    · simp [howner, OwnerPc.cancels]
    · by_contra hmsg
      have hinstalled := h.installed hmsg
      simp [hcanceled, howner, OwnerPc.cancels] at hinstalled
  | @restoreOr _ i r before howner hr =>
    obtain ⟨howned, hbits⟩ := h.saves r (mem_of_getElem? hr)
    refine ⟨howned, fun s hs => ?_, fun hmsg => .inl ?_, (fun hpc => by cases hpc),
      fun hpc => by cases hpc⟩
    · obtain ⟨s', hs', hsame', hbits'⟩ := arrivals_saves { m with saves := m.saves.eraseIdx i }
        none r.bCanceled r.own.zCancelMsg.isSome s hs
      rw [hsame', hbits']
      exact h.saves s' (mem_of_mem_eraseIdx hs')
    · change (_ || _) = true
      rw [hbits hmsg, Bool.or_true]
  | @cancelEval unwind hasMemory zMsg howner =>
    cases zMsg with
    | none =>
      exact ⟨h.owned, h.saves, fun _ => .inr rfl, (fun hpc => by cases hpc),
        fun hpc => by cases hpc⟩
    | some text =>
      cases hasMemory with
      | true =>
        exact ⟨rfl, h.saves, fun _ => .inr rfl, (fun hpc => by cases hpc), fun hpc => by cases hpc⟩
      | false =>
        exact ⟨rfl, h.saves, fun _ => .inr rfl, (fun hpc => by cases hpc), fun hpc => by cases hpc⟩
  | adopts howner => exact h.rest (by rw [howner]; rfl) rfl rfl
  | clears howner => exact h.rest (by rw [howner]; rfl) rfl rfl
  | saves howner => exact h.rest (by rw [howner]; rfl) rfl rfl
  | restores howner => exact h.rest (by rw [howner]; rfl) rfl rfl
  | discardSave howner =>
    exact ⟨h.owned, fun s hs => h.saves s (mem_of_mem_eraseIdx hs), h.installed,
      h.emptied, h.adopting⟩

/-! ## Buffers -/

def Custody (m : Cancel) : Prop := Accounted m.held m.released m.texts.length

def KeepsMessages (m : Cancel) : Move → Prop
  | .discardSave i => ∀ s, m.saves[i]? = some s → s.own.zCancelMsg = none
  | _ => True

theorem count_setPublication {i : ℕ} {p : Publication} (hp : m.publications[i]? = some p)
    (p' : Publication) (n : ℕ) :
    ((m.setPublication i p').publications.flatMap (·.pc.held)).count n + p.pc.held.count n =
      (m.publications.flatMap (·.pc.held)).count n + p'.pc.held.count n :=
  count_flatMap_set hp p' (·.pc.held) n

theorem flatMap_arrivals (l : List Save) (source : Option ℕ) :
    (l.map fun s => { s with arrivals := s.arrivals ++ [source] }).flatMap (·.own.held) =
      l.flatMap (·.own.held) := by
  rw [flatMap_map]

theorem held_orBits (m : Cancel) (source : Option ℕ) (bits : Request) (message : Bool) :
    (m.orBits source bits message).held = m.held := by
  rw [held, held, orBits]
  split_ifs
  · rw [flatMap_arrivals]
  · rfl

theorem Custody.setOwner (h : Custody m) (hpc : pc.held = m.owner.held) :
    Custody (m.setOwner pc) := by
  refine h.pass fun n => ?_
  rw [count_held, count_held, Cancel.setOwner, hpc]

theorem Custody.step (h : Custody m) (hsettled : Settled m) {i : Move}
    (hallowed : KeepsMessages m i) (hstep : Step m i m') : Custody m' := by
  cases hstep with
  | publish flags zMsg =>
    refine h.pass fun n => ?_
    have hnew : (if flags.signal = true ∨ zMsg = [] then PublishPc.orReq none
        else .build).held = [] := by
      split_ifs <;> rfl
    simp [count_held, Cancel.publish, hnew]
  | @publisherReads i _ p pc hp hpc =>
    refine h.pass fun n => ?_
    have hcount := count_setPublication hp { p with pc := pc } n
    have hheld : pc.held = p.pc.held := by
      rw [← PublishPc.held_unread, hpc, PublishPc.held_unread]
    rw [hheld] at hcount
    rw [count_held, count_held]
    simp only [setPublication] at hcount ⊢
    omega
  | @build i p hp hpc =>
    rw [Custody, length_append, length_singleton]
    refine h.make fun n => ?_
    have hcount := count_setPublication hp
      { p with pc := .exchange m.texts.length none, pBuf := some m.texts.length } n
    rw [hpc] at hcount
    rw [count_held, count_held]
    simp only [setPublication, PublishPc.held, count_nil] at hcount ⊢
    omega
  | @buildFails i p hp hpc =>
    refine h.pass fun n => ?_
    have hcount := count_setPublication hp { p with pc := .orReq none } n
    rw [hpc] at hcount
    rw [count_held, count_held]
    simp only [setPublication, PublishPc.held, count_nil] at hcount ⊢
    omega
  | @attach i _ p pBuf hp hpc =>
    refine h.pass fun n => ?_
    have hcount := count_setPublication hp { p with pc := afterAttach m.nCancelReqMsg } n
    rw [hpc, afterAttach_held] at hcount
    rw [count_held, count_held]
    simp only [setPublication, exchangeMsg, PublishPc.held, toList_some] at hcount ⊢
    omega
  | @freeOld i _ p pOld hp hpc =>
    refine h.release fun n => ?_
    have hcount := count_setPublication hp { p with pc := .orReq none } n
    rw [hpc] at hcount
    rw [count_held, count_held]
    simp only [setPublication, Cancel.release, PublishPc.held, count_nil] at hcount ⊢
    omega
  | @orReq i _ p hp hpc =>
    refine h.pass fun n => ?_
    have hcount := count_setPublication hp { p with pc := .done } n
    rw [hpc] at hcount
    rw [held_orBits, count_held, count_held]
    simp only [setPublication, PublishPc.held, count_nil] at hcount ⊢
    omega
  | ownerReads hpc =>
    refine h.setOwner ?_
    rw [← OwnerPc.held_unread, hpc, OwnerPc.held_unread]
  | @cancelOr _ message flags howner =>
    refine Custody.setOwner ?_ ?_
    · exact h.pass fun n => by rw [held_orBits]
    · rw [orBits, howner]
      rfl
  | adoptRead howner hcanceled =>
    refine h.pass fun n => ?_
    rw [count_held, count_held, howner]
    rfl
  | adoptNothing howner =>
    refine h.setOwner ?_
    rw [afterAdopt_held, howner]
    rfl
  | @adoptExchange _ saving howner =>
    have htake : (afterTake (.adoptInstall saving) (afterAdopt saving) m.nCancelReqMsg).held =
        m.nCancelReqMsg.toList :=
      afterTake_held (fun _ => rfl) (afterAdopt_held saving) m.nCancelReqMsg
    have hnone : m.owner.held = [] := by
      rw [howner]
      rfl
    refine h.pass fun n => ?_
    rw [count_held, count_held, hnone]
    simp only [exchangeMsg, Cancel.setOwner, htake, toList_none, count_nil]
    omega
  | @adoptInstall hasMemory saving pBuf howner =>
    have hpc : m.owner.held = [pBuf] := by
      rw [howner]
      rfl
    rw [Cancel.adoptInstall]
    by_cases hcopy : m.own.zCancelMsg = none ∧ hasMemory = true
    · rw [if_pos hcopy, Custody]
      simp only [Cancel.setOwner, Cancel.release, length_append, length_singleton]
      refine h.replace fun n => ?_
      rw [count_held, count_held, hpc]
      simp only [afterAdopt_held, OwnerState.held, hcopy.1, toList_none, toList_some, count_nil]
      omega
    · rw [if_neg hcopy]
      refine h.release fun n => ?_
      rw [count_held, count_held, hpc]
      simp only [Cancel.release, Cancel.setOwner, afterAdopt_held, count_nil]
      omega
  | clearRead howner hcanceled =>
    refine h.release fun n => ?_
    rw [count_held, count_held, howner, hsettled.owned.freed]
    simp only [Cancel.release, OwnerPc.held, OwnerState.held, OwnerState.zero,
      toList_none, count_nil]
    omega
  | clearNothing howner => exact h.setOwner (by rw [howner]; rfl)
  | clearZero howner =>
    refine h.pass fun n => ?_
    rw [count_held, count_held, howner]
    rfl
  | clearExchange howner =>
    have htake : (afterTake .clearFree .idle m.nCancelReqMsg).held =
        m.nCancelReqMsg.toList := afterTake_held (fun _ => rfl) rfl m.nCancelReqMsg
    have hnone : m.owner.held = [] := by
      rw [howner]
      rfl
    refine h.pass fun n => ?_
    rw [count_held, count_held, hnone]
    simp only [exchangeMsg, Cancel.setOwner, htake, toList_none, count_nil]
    omega
  | clearFree howner =>
    refine h.release fun n => ?_
    rw [count_held, count_held, howner]
    simp only [Cancel.release, Cancel.setOwner, OwnerPc.held, count_nil]
    omega
  | saveRead howner =>
    refine h.pass fun n => ?_
    rw [count_held, count_held, howner]
    simp only [Cancel.saveRead, OwnerPc.held, OwnerState.held, OwnerState.zero,
      toList_none, count_nil, flatMap_cons, count_append]
    omega
  | saveZero howner hsaves hsame =>
    refine h.pass fun n => ?_
    rw [count_held, count_held, howner]
    rfl
  | saveKeeps howner hchanged => exact h.setOwner (by rw [howner]; rfl)
  | @restoreDiscards _ i s howner hs hcanceled =>
    refine h.release fun n => ?_
    have hcount := count_flatMap_eraseIdx hs (·.own.held) n
    rw [count_held, count_held, howner, (hsettled.saves s (mem_of_getElem? hs)).1.freed]
    simp only [Cancel.restoreDiscards, record, Cancel.release, OwnerPc.held, count_nil]
    omega
  | restoreReads howner hs hcanceled => exact h.setOwner (by rw [howner]; rfl)
  | @restoreOr _ i s before howner hs =>
    refine h.pass fun n => ?_
    have hcount := count_flatMap_eraseIdx hs (·.own.held) n
    have hnone : m.own.zCancelMsg = none := hsettled.emptied (by rw [howner]; rfl)
    have hsaves : (m.restoreEnd i s before).saves.flatMap (·.own.held) =
        (m.saves.eraseIdx i).flatMap (·.own.held) := by
      simp only [restoreEnd, record, orBits]
      split_ifs
      · exact flatMap_arrivals _ none
      · rfl
    rw [count_held, hsaves, count_held, howner]
    simp only [restoreEnd, record, orBits, OwnerPc.held, OwnerState.held, hnone,
      toList_none, count_nil] at hcount ⊢
    omega
  | @cancelEval unwind hasMemory zMsg howner =>
    cases zMsg with
    | none =>
      refine h.pass fun n => ?_
      rw [count_held, count_held, howner]
      rfl
    | some text =>
      have hfreed : m.own.freed = m.own.held := hsettled.owned.freed
      cases hasMemory with
      | true =>
        rw [Custody, Cancel.cancelEval, if_pos rfl]
        simp only [Cancel.release, length_append, length_singleton]
        refine h.replace fun n => ?_
        rw [count_held, count_held, howner, hfreed]
        simp only [OwnerPc.held, OwnerState.held, toList_some, count_nil]
        omega
      | false =>
        rw [Cancel.cancelEval, if_neg Bool.false_ne_true]
        refine h.release fun n => ?_
        rw [count_held, count_held, howner, hfreed]
        simp only [Cancel.release, OwnerPc.held, OwnerState.held, toList_none, count_nil]
        omega
  | adopts howner => exact h.setOwner (by rw [howner]; rfl)
  | clears howner => exact h.setOwner (by rw [howner]; rfl)
  | saves howner => exact h.setOwner (by rw [howner]; rfl)
  | restores howner => exact h.setOwner (by rw [howner]; rfl)
  | @discardSave i howner =>
    refine h.pass fun n => ?_
    rw [count_held, count_held]
    cases hs : m.saves[i]? with
    | none =>
      rw [Cancel.discardSave, eraseIdx_of_length_le (getElem?_eq_none_iff.mp hs)]
    | some s =>
      have hcount := count_flatMap_eraseIdx hs (·.own.held) n
      rw [OwnerState.held, hallowed s hs, toList_none, count_nil] at hcount
      simp only [Cancel.discardSave]
      omega

end Cancel

end Th8
