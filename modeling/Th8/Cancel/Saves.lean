import Th8.Cancel.Coherence

/-!
# Saves

As long as nobody requests a cancellation after a save, the word stays zero.  What has been
requested since is noted in the save.
-/

namespace Th8

open Support List

namespace Cancel

variable {m m' : Cancel}

/-! ## The invariant -/

/-- The saves whose `finally` clause is under way. -/
def running (m : Cancel) : List Save :=
  if m.owner = .saveZero then m.saves.tail else m.saves

/-- As long as nobody requests a cancellation, the word of a running clause is zero. -/
structure Quiet (m : Cancel) : Prop where
  zero : m.nCancelReq.canceled = false → m.nCancelReq = .zero
  saves : ∀ s ∈ m.saves, s.bCanceled.canceled = false → s.bCanceled = .zero
  running : ∀ s ∈ m.running, s.arrivals = [] → m.nCancelReq = .zero
  saving : m.owner = .saveZero → ∀ s ∈ m.saves.head?, s.arrivals = [] → m.nCancelReq = s.bCanceled
  arrivals : ∀ s ∈ m.saves, ∀ i, some i ∈ s.arrivals → m.Done i

theorem quiet_fresh : Quiet fresh where
  zero _ := rfl
  saves := by simp [fresh]
  running := by simp [fresh, Cancel.running]
  saving h := by cases h
  arrivals := by simp [fresh]

theorem or_zero (r : Request) : r.or .zero = r := by
  simp [Request.or, Request.zero, Flags.or, Flags.none]

theorem done_set {i : ℕ} {p p' : Publication} (hp : m.publications[i]? = some p)
    (hpc : p.pc ≠ .done) (hpublications : m'.publications = m.publications.set i p') {j : ℕ}
    (hj : m.Done j) : m'.Done j := by
  obtain ⟨p₁, hp₁, hdone⟩ := hj
  refine ⟨p₁, ?_, hdone⟩
  have hne : i ≠ j := by
    rintro rfl
    rw [hp] at hp₁
    exact hpc (Option.some.inj hp₁ ▸ hdone)
  rw [hpublications, getElem?_set_ne hne, hp₁]

theorem Step.done {i : Move} (hstep : Step m i m') {j : ℕ} (hj : m.Done j) : m'.Done j := by
  cases hstep with
  | publish flags zMsg =>
    obtain ⟨p, hp, hdone⟩ := hj
    refine ⟨p, ?_, hdone⟩
    rw [Cancel.publish, List.getElem?_append_left (List.getElem?_eq_some_iff.mp hp).1, hp]
  | @publisherReads _ _ p pc hp hpc =>
    by_cases hdone : p.pc = .done
    · have hsame : pc = .done := by
        cases pc <;> simp_all [PublishPc.unread]
      obtain ⟨p₁, hp₁, hdone₁⟩ := hj
      rw [Done, setPublication, getElem?_set]
      split_ifs with heq
      · exact ⟨_, rfl, hsame⟩
      · rename_i hlt
        exact absurd (List.getElem?_eq_some_iff.mp hp).1 (by omega)
      · exact ⟨p₁, hp₁, hdone₁⟩
    · exact done_set hp hdone rfl hj
  | build hp hpc => exact done_set hp (by simp [hpc]) rfl hj
  | buildFails hp hpc => exact done_set hp (by simp [hpc]) rfl hj
  | attach hp hpc => exact done_set hp (by simp [hpc]) rfl hj
  | freeOld hp hpc => exact done_set hp (by simp [hpc]) rfl hj
  | orReq hp hpc => exact done_set hp (by simp [hpc]) rfl hj
  | adoptInstall =>
    rw [Cancel.adoptInstall]
    split_ifs <;> exact hj
  | @cancelEval unwind hasMemory zMsg =>
    cases zMsg with
    | none => exact hj
    | some text => cases hasMemory <;> exact hj
  | _ => exact hj

theorem Quiet.congr (h : Quiet m) (hreq : m'.nCancelReq = m.nCancelReq)
    (hsaves : m'.saves = m.saves) (howner : m'.owner = .saveZero ↔ m.owner = .saveZero)
    (hdone : ∀ j, m.Done j → m'.Done j) : Quiet m' where
  zero := by
    rw [hreq]
    exact h.zero
  saves := by
    rw [hsaves]
    exact h.saves
  running := by
    simp only [Cancel.running, howner, hsaves, hreq]
    exact h.running
  saving := by
    simp only [howner, hsaves, hreq]
    exact h.saving
  arrivals s hs i hi := by
    rw [hsaves] at hs
    exact hdone i (h.arrivals s hs i hi)

theorem running_subset (m : Cancel) : m.running ⊆ m.saves := by
  rw [running]
  split_ifs
  · exact fun s hs => mem_of_mem_tail hs
  · exact List.Subset.refl _

theorem Quiet.orBits (h : Quiet m) (source : Option ℕ) {bits : Request} (message : Bool)
    (hbits : bits.canceled) (hsource : ∀ i, source = some i → m.Done i) :
    Quiet (m.orBits source bits message) := by
  have hsaves : (m.orBits source bits message).saves =
      m.saves.map fun s => { s with arrivals := s.arrivals ++ [source] } := if_pos hbits
  have harrivals : ∀ s ∈ (m.orBits source bits message).saves, s.arrivals ≠ [] := by
    intro s hs
    rw [hsaves] at hs
    obtain ⟨s', -, rfl⟩ := mem_map.mp hs
    simp
  refine ⟨fun hzero => ?_, fun s hs => ?_, fun s hs hnil => ?_, fun _ s hs hnil => ?_,
    fun s hs i hi => ?_⟩
  · rw [Cancel.orBits, canceled_or] at hzero
    simp [hbits] at hzero
  · rw [hsaves] at hs
    obtain ⟨s', hs', rfl⟩ := mem_map.mp hs
    exact h.saves s' hs'
  · exact absurd hnil (harrivals s (running_subset _ hs))
  · exact absurd hnil (harrivals s (mem_of_mem_head? hs))
  · rw [hsaves] at hs
    obtain ⟨s', hs', rfl⟩ := mem_map.mp hs
    rcases mem_append.mp hi with hi | hi
    · exact h.arrivals s' hs' i hi
    · exact hsource i (mem_singleton.mp hi).symm

theorem Quiet.erase (h : Quiet m) (i : ℕ) (hrunning : m.running = m.saves)
    (hreq : m'.nCancelReq = m.nCancelReq) (hsaves : m'.saves = m.saves.eraseIdx i)
    (howner : m'.owner ≠ .saveZero) (hdone : ∀ j, m.Done j → m'.Done j) : Quiet m' := by
  have hsub {s : Save} (hs : s ∈ m'.saves) : s ∈ m.saves := by
    rw [hsaves] at hs
    exact mem_of_mem_eraseIdx hs
  refine ⟨?_, fun s hs => h.saves s (hsub hs), fun s hs hnil => ?_,
    fun hpc => absurd hpc howner, fun s hs i hi => hdone i (h.arrivals s (hsub hs) i hi)⟩
  · rw [hreq]
    exact h.zero
  · rw [hreq]
    refine h.running s ?_ hnil
    rw [hrunning]
    exact hsub (running_subset m' hs)

theorem Quiet.step (h : Quiet m) {i : Move} (hstep : Step m i m') : Quiet m' := by
  have hdone : ∀ j, m.Done j → m'.Done j := fun j hj => hstep.done hj
  cases hstep with
  | publish => exact h.congr rfl rfl Iff.rfl hdone
  | publisherReads => exact h.congr rfl rfl Iff.rfl hdone
  | build => exact h.congr rfl rfl Iff.rfl hdone
  | buildFails => exact h.congr rfl rfl Iff.rfl hdone
  | attach => exact h.congr rfl rfl Iff.rfl hdone
  | freeOld => exact h.congr rfl rfl Iff.rfl hdone
  | @orReq j _ p hp hpc =>
    have hset : Quiet (m.setPublication j { p with pc := .done }) :=
      h.congr rfl rfl Iff.rfl fun k hk => done_set hp (by simp [hpc]) rfl hk
    refine hset.orBits (some j) _ rfl fun k hk => ?_
    have hj : j < m.publications.length := (List.getElem?_eq_some_iff.mp hp).1
    rw [← Option.some.inj hk]
    exact ⟨_, getElem?_set_self hj, rfl⟩
  | @ownerReads _ pc hpc =>
    refine h.congr rfl rfl ?_ hdone
    change pc = _ ↔ _
    cases pc <;> cases howner : m.owner <;> simp_all [OwnerPc.unread]
  | @cancelOr _ message flags howner =>
    have hor : Quiet (m.orBits none flags.publish message) :=
      h.orBits none message rfl fun i hi => by cases hi
    refine hor.congr rfl rfl ?_ fun _ hj => hj
    change OwnerPc.idle = _ ↔ m.owner = _
    simp [howner]
  | clearZero howner =>
    refine ⟨fun _ => rfl, h.saves, fun _ _ _ => rfl, (fun hpc => by cases hpc), h.arrivals⟩
  | saveRead howner =>
    have hrunning : m.running = m.saves := if_neg (by simp [howner])
    have hrunning' : m.saveRead.running = m.saves := if_pos rfl
    refine ⟨h.zero, fun s hs => ?_, fun s hs hnil => ?_, fun _ s hs _ => ?_, fun s hs i hi => ?_⟩
    · rcases mem_cons.mp hs with rfl | hs
      · exact h.zero
      · exact h.saves s hs
    · rw [hrunning', ← hrunning] at hs
      exact h.running s hs hnil
    · rw [← Option.some.inj hs]
      rfl
    · rcases mem_cons.mp hs with rfl | hs
      · cases hi
      · exact h.arrivals s hs i hi
  | saveZero howner hsaves hsame =>
    exact ⟨fun _ => rfl, h.saves, fun _ _ _ => rfl, (fun hpc => by cases hpc), h.arrivals⟩
  | saveKeeps howner hchanged =>
    refine ⟨h.zero, h.saves, fun s hs hnil => ?_, (fun hpc => by cases hpc), h.arrivals⟩
    have hrunning : m.running = m.saves.tail := if_pos howner
    change s ∈ m.saves at hs
    cases hsaves : m.saves with
    | nil =>
      rw [hsaves] at hs
      cases hs
    | cons s₀ rest =>
      rw [hsaves] at hs
      rcases mem_cons.mp hs with rfl | hs
      · have hhead : s ∈ m.saves.head? := by simp [hsaves]
        exact absurd (h.saving howner s hhead hnil) (hchanged s hhead)
      · refine h.running s ?_ hnil
        rwa [hrunning, hsaves]
  | @restoreDiscards _ i s₀ howner hs₀ hcanceled =>
    have hrunning : m.running = m.saves := if_neg (by simp [howner])
    exact h.erase i hrunning rfl rfl (by simp [restoreDiscards, record]) hdone
  | @restoreOr _ i s₀ before howner hs₀ =>
    have hrunning : m.running = m.saves := if_neg (by simp [howner])
    have herased : Quiet { m with saves := m.saves.eraseIdx i } :=
      h.erase i hrunning rfl rfl (by simp [howner]) fun _ hj => hj
    have hidle : (m.restoreEnd i s₀ before).owner = .saveZero ↔ m.owner = .saveZero := by
      simp [howner, restoreEnd, record]
    cases hbits : s₀.bCanceled.canceled with
    | true =>
      have hor := herased.orBits none s₀.own.zCancelMsg.isSome hbits fun i hi => by cases hi
      exact hor.congr rfl rfl hidle fun _ hj => hj
    | false =>
      have hzero := h.saves s₀ (mem_of_getElem? hs₀) hbits
      refine herased.congr ?_ ?_ hidle fun _ hj => hj
      · change m.nCancelReq.or s₀.bCanceled = m.nCancelReq
        rw [hzero, or_zero]
      · exact if_neg (by simp [hbits])
  | @discardSave i howner =>
    have hrunning : m.running = m.saves := if_neg (by simp [howner])
    exact h.erase i hrunning rfl rfl (by simp [Cancel.discardSave, howner]) hdone
  | @adoptInstall hasMemory saving pBuf howner =>
    rw [adoptInstall] at *
    split_ifs at hdone ⊢ <;>
    · refine h.congr rfl rfl ?_ hdone
      cases saving <;> simp [howner, release, setOwner, afterAdopt]
  | @cancelEval unwind hasMemory zMsg howner =>
    cases zMsg with
    | none => exact h.congr rfl rfl (by simp [howner, cancelEval]) hdone
    | some text =>
      cases hasMemory with
      | true => exact h.congr rfl rfl (by simp [howner, cancelEval]) hdone
      | false => exact h.congr rfl rfl (by simp [howner, cancelEval]) hdone
  | @adoptNothing _ saving howner =>
    refine h.congr rfl rfl ?_ hdone
    cases saving <;> simp [howner, setOwner, afterAdopt]
  | @adoptExchange _ saving howner =>
    refine h.congr rfl rfl ?_ hdone
    cases m.nCancelReqMsg <;> cases saving <;> simp [howner, setOwner, afterAdopt, afterTake]
  | clearExchange howner =>
    refine h.congr rfl rfl ?_ hdone
    cases m.nCancelReqMsg <;> simp [howner, setOwner, afterTake]
  | _ howner => exact h.congr rfl rfl (by rw [howner]; simp [setOwner, release]) hdone

end Cancel

end Th8
