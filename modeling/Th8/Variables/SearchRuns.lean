import Mathlib
import Th8.Variables.SearchCalls

/-!
# Runs of array searches

While nothing touches an array, the calls of a search hand out its elements, each of them
once.  What touches the array ends the search for good.
-/

namespace Th8

open Bigint Support

namespace ArraySearch

variable {seed : HashSeed}

/-- A search by this id, if there is one, is at the array `r` or has lost it. -/
structure Tied (s : State) (zSid : Bytes) (r : VarId) : Prop where
  issued : s.Issued zSid
  search : ∀ p, s.searches zSid = some p → Stale s.store p ∨ ∃ pending, Live s.store p r pending

structure Dead (s : State) (zSid : Bytes) : Prop where
  issued : s.Issued zSid
  search : ∀ p, s.searches zSid = some p → Stale s.store p

variable {s : State} {zSid : Bytes}

theorem Dead.step (hs : StateInv seed s) {op : Op} (hop : op.Granted s) (h : Dead s zSid) :
    Dead (step seed s op).1 zSid := by
  obtain ⟨sop, rfl⟩ | hcall := op_cases op
  · exact ⟨h.issued, fun p hp => (h.search p hp).evolves (storeStep_evolves hs.store hop)⟩
  · have hstep := step_callStep hs hcall
    refine ⟨h.issued.mono hstep.counter, fun p' hp' => ?_⟩
    rw [hstep.store]
    obtain hold | ⟨p, r, pending, hp, hlive, -⟩ | ⟨hissued, -⟩ := hstep.search zSid p' hp'
    · exact h.search p' hold
    · exact absurd hlive (h.search p hp).not_live
    · exact absurd h.issued hissued

variable {r : VarId}

theorem Tied.step (hs : StateInv seed s) {op : Op} (hop : op.Granted s) (h : Tied s zSid r) :
    Tied (step seed s op).1 zSid r := by
  obtain ⟨sop, rfl⟩ | hcall := op_cases op
  · refine ⟨h.issued, fun p hp => ?_⟩
    obtain hstale | ⟨pending, hlive⟩ := h.search p hp
    · exact .inl (hstale.evolves (storeStep_evolves hs.store hop))
    · by_cases htouch : sop.Touches s.store r
      · obtain ⟨v, tid, t, hv, htid, -, hgen, -⟩ := id hlive
        exact .inl ((hs.bound zSid p hp).stale hs.store hop hv (by simp [htid]) hgen htouch)
      · exact .inr ⟨pending, hlive.storeStep hs.store hop htouch⟩
  · have hstep := step_callStep hs hcall
    refine ⟨h.issued.mono hstep.counter, fun p' hp' => ?_⟩
    rw [hstep.store]
    obtain hold | ⟨p, r', pending, hp, hlive, -, hlive'⟩ | ⟨hissued, -⟩ := hstep.search zSid p' hp'
    · exact h.search p' hold
    · obtain hstale | ⟨pending', hlive''⟩ := h.search p hp
      · exact absurd hlive hstale.not_live
      · obtain rfl := hlive.unique hs.store hlive'' rfl
        exact .inr ⟨_, hlive'⟩
    · exact absurd h.issued hissued

theorem Tied.dead (hs : StateInv seed s) {sop : StoreOp} (hop : sop.Granted s.store)
    (h : Tied s zSid r) (htouch : sop.Touches s.store r) :
    Dead (ArraySearch.step seed s (.store sop)).1 zSid := by
  refine ⟨h.issued, fun p hp => ?_⟩
  obtain hstale | ⟨pending, hlive⟩ := h.search p hp
  · exact hstale.evolves (storeStep_evolves hs.store hop)
  · obtain ⟨v, tid, t, hv, htid, -, hgen, -⟩ := hlive
    exact (hs.bound zSid p hp).stale hs.store hop hv (by simp [htid]) hgen htouch

theorem Dead.refused (hs : StateInv seed s) (h : Dead s zSid) (zArray : Bytes) :
    (nextElement s zArray zSid).2 = .error (.noSearch zSid) ∧
      (anyMore s zArray zSid).2 = .error (.noSearch zSid) ∧
      (doneSearch s zArray zSid).2 = .error (.noSearch zSid) := by
  have hmiss : ∀ p r pending, ¬Hit s zArray zSid p r pending :=
    fun p r pending hhit => (h.search p hhit.search).not_live hhit.live
  obtain ⟨s', -, hnext, hmore, hdone⟩ := call_refused hs hmiss
  rw [hnext, hmore, hdone]
  exact ⟨rfl, rfl, rfl⟩

/-! ## The keys that a search hands out -/

/-- The search by this id and this name is at the array `r` and has these keys before it. -/
def Tracked (s : State) (zArray zSid : Bytes) (r : VarId) (pending : List Bytes) : Prop :=
  ∃ p, s.searches zSid = some p ∧ p.zArray = zArray ∧ Live s.store p r pending

/-- The step does not touch the array, does not end the search, and asks for the search only
where the name leads to the array. -/
def Op.Keeps (s : State) (zArray zSid : Bytes) (r : VarId) : Op → Prop
  | .store sop => ¬sop.Touches s.store r
  | .startSearch _ => True
  | .nextElement z sid => z = zArray → sid = zSid → s.store.LeadsTo zArray r
  | .anyMore z sid => z = zArray → sid = zSid → s.store.LeadsTo zArray r
  | .doneSearch z sid => z = zArray → sid ≠ zSid

def Op.isNext (zArray zSid : Bytes) : Op → Bool
  | .nextElement z sid => z = zArray && sid = zSid
  | _ => false

namespace Tracked

variable {s : State} {zArray zSid : Bytes} {r : VarId} {pending : List Bytes}

theorem hit (h : Tracked s zArray zSid r pending) (hleads : s.store.LeadsTo zArray r) :
    ∃ p, Hit s zArray zSid p r pending := by
  obtain ⟨p, hp, hname, hlive⟩ := h
  exact ⟨p, hp, hname, hleads, hlive⟩

theorem call_other (hs : StateInv seed s) (h : Tracked s zArray zSid r pending) {z sid : Bytes}
    (hne : z = zArray → sid ≠ zSid) :
    Tracked (nextElement s z sid).1 zArray zSid r pending ∧
      Tracked (anyMore s z sid).1 zArray zSid r pending ∧
      Tracked (doneSearch s z sid).1 zArray zSid r pending := by
  obtain ⟨p, hp, hname, hlive⟩ := id h
  by_cases hsid : sid = zSid
  · -- under another name the search is refused and stays
    have hother : p.zArray ≠ z := fun hz => hne (hz.symm.trans hname) hsid
    have hfind : searchFind s sid z = (none, s) := by
      subst hsid
      simp [searchFind, hp, hother]
    simp only [nextElement, anyMore, doneSearch, hfind]
    exact ⟨h, h, h⟩
  · have hupdate : ∀ entry : Option Search,
        Tracked { s with searches := Function.update s.searches sid entry } zArray zSid r
          pending := by
      intro entry
      refine ⟨p, ?_, hname, hlive⟩
      rw [← hp]
      exact Function.update_of_ne (Ne.symm hsid) ..
    obtain ⟨p', r', pending', hhit⟩ | hmiss := hit_or_miss s z sid
    · obtain ⟨cursor, -, hnext⟩ := hhit.nextElement hs.store
      rw [hnext, hhit.anyMore hs.store, hhit.doneSearch]
      exact ⟨hupdate _, h, hupdate _⟩
    · obtain ⟨s', hs', hnext, hmore, hdone⟩ := call_refused hs hmiss
      rw [hnext, hmore, hdone]
      obtain rfl | rfl := hs'
      · exact ⟨h, h, h⟩
      · exact ⟨hupdate none, hupdate none, hupdate none⟩

theorem startSearch (hs : StateInv seed s) (h : Tracked s zArray zSid r pending)
    (z : TString) : Tracked (ArraySearch.startSearch s z).1 zArray zSid r pending := by
  obtain ⟨p, hp, hname, hlive⟩ := id h
  obtain ⟨e, herror⟩ | ⟨p', hstart, -⟩ := startSearch_cases hs.store z
  · rw [herror]
    exact h
  · rw [hstart]
    have hold : zSid ≠ searchId (s.iArraySearchCounter + 1) z.bytes := by
      rintro rfl
      exact not_issued s z.bytes (hs.issued _ p hp)
    exact ⟨p, (Function.update_of_ne hold ..).trans hp, hname, hlive⟩

theorem step (hs : StateInv seed s) {op : Op} (hop : op.Granted s)
    (hkeeps : op.Keeps s zArray zSid r) (h : Tracked s zArray zSid r pending) :
    Tracked (ArraySearch.step seed s op).1 zArray zSid r
      (if op.isNext zArray zSid then pending.tail else pending) := by
  cases op with
  | store sop =>
    obtain ⟨p, hp, hname, hlive⟩ := h
    exact ⟨p, hp, hname, hlive.storeStep hs.store hop hkeeps⟩
  | startSearch z => exact h.startSearch hs z
  | nextElement z sid =>
    by_cases hcall : z = zArray ∧ sid = zSid
    · obtain ⟨rfl, rfl⟩ := hcall
      obtain ⟨p, hhit⟩ := h.hit (hkeeps rfl rfl)
      obtain ⟨cursor, hlive, hnext⟩ := hhit.nextElement hs.store
      rw [ArraySearch.step, hnext, if_pos (by simp [Op.isNext])]
      exact ⟨_, Function.update_self .., hhit.name, hlive⟩
    · rw [if_neg (by simpa [Op.isNext] using hcall)]
      exact (h.call_other hs fun hz hsid => hcall ⟨hz, hsid⟩).1
  | anyMore z sid =>
    rw [if_neg (by simp [Op.isNext])]
    by_cases hcall : z = zArray ∧ sid = zSid
    · obtain ⟨rfl, rfl⟩ := hcall
      obtain ⟨p, hhit⟩ := h.hit (hkeeps rfl rfl)
      rw [ArraySearch.step, hhit.anyMore hs.store]
      exact h
    · exact (h.call_other hs fun hz hsid => hcall ⟨hz, hsid⟩).2.1
  | doneSearch z sid =>
    rw [if_neg (by simp [Op.isNext])]
    exact (h.call_other hs hkeeps).2.2

end Tracked

/-! ## Runs -/

def State.next (seed : HashSeed) (s : State) (op : Op) : State := (step seed s op).1

theorem StoreInv.init : StoreInv seed Store.init where
  table _ _ _ hv := nomatch hv
  chained _ _ ht := nomatch ht
  owner _ _ _ _ _ hv := nomatch hv
  generation _ _ _ _ hv := nomatch hv
  generation_le _ _ hv := nomatch hv

theorem StateInv.init : StateInv seed State.init :=
  ⟨.init, fun _ _ hp => (nomatch hp), fun _ _ hp => (nomatch hp)⟩

theorem stateInv_of_reachable (hs : ReachableBy (State.next seed) Op.Granted State.init s) :
    StateInv seed s :=
  hs.invariant .init fun _ _ hinv hop => step_inv hinv hop

open ReachableBy (AllowedRun)

variable {ops : List Op}

section

variable (hs : StateInv seed s)

include hs

theorem Tracked.run {zArray : Bytes} {pending : List Bytes} (hops : AllowedRun (State.next seed)
    (fun s op => op.Granted s ∧ op.Keeps s zArray zSid r) s
      ops) (h : Tracked s zArray zSid r pending) :
    StateInv seed (ops.foldl (State.next seed) s) ∧
      Tracked (ops.foldl (State.next seed) s) zArray zSid r
        (pending.drop (ops.countP (·.isNext zArray zSid))) := by
  induction ops generalizing s pending with
  | nil => exact ⟨hs, h⟩
  | cons op ops ih =>
    obtain ⟨⟨hop, hkeeps⟩, hops⟩ := hops
    have hnext := h.step hs hop hkeeps
    obtain ⟨hinv, htracked⟩ := ih (step_inv hs hop) hops hnext
    refine ⟨hinv, ?_⟩
    rw [List.countP_cons]
    split_ifs at htracked with hcall
    · rwa [if_pos hcall, Nat.add_comm, ← List.drop_drop, List.drop_one]
    · rwa [if_neg hcall]

section

variable (hops : AllowedRun (State.next seed) Op.Granted s ops)

include hops

theorem Tied.run (h : Tied s zSid r) :
    StateInv seed (ops.foldl (State.next seed) s) ∧
      Tied (ops.foldl (State.next seed) s) zSid r := by
  induction ops generalizing s with
  | nil => exact ⟨hs, h⟩
  | cons op ops ih => exact ih (step_inv hs hops.1) hops.2 (h.step hs hops.1)

theorem Dead.run (h : Dead s zSid) :
    StateInv seed (ops.foldl (State.next seed) s) ∧ Dead (ops.foldl (State.next seed) s) zSid := by
  induction ops generalizing s with
  | nil => exact ⟨hs, h⟩
  | cons op ops ih => exact ih (step_inv hs hops.1) hops.2 (h.step hs hops.1)

end

theorem tracked_of_start {s' : State} {zArray : TString}
    (hstart : startSearch s zArray = (s', .ok zSid)) (hleads : s.store.LeadsTo zArray.bytes r) :
    StateInv seed s' ∧ Tracked s' zArray.bytes zSid r (s.store.elements r) ∧ Tied s' zSid r := by
  have hinv : StateInv seed s' := by
    have hnext : StateInv seed (step seed s (.startSearch zArray)).1 := step_inv hs trivial
    rwa [step, hstart] at hnext
  obtain ⟨e, herror⟩ | ⟨p, hp, hname, -, hlive⟩ := startSearch_cases hs.store zArray
  · rw [hstart] at herror
    cases herror
  · obtain ⟨rfl, hsid⟩ := Prod.mk.inj (hstart.symm.trans hp)
    obtain rfl := Reply.ok.inj hsid
    refine ⟨hinv, ⟨p, Function.update_self .., hname, hlive r hleads⟩, ⟨_, le_rfl, _, rfl⟩, ?_⟩
    intro p' hp'
    obtain ⟨-, rfl⟩ | ⟨hne, -⟩ := update_some_cases hp'
    · exact .inr ⟨_, hlive r hleads⟩
    · exact absurd rfl hne

theorem not_dangling (op : Op) : (step seed s op).2 ≠ .dangling := by
  cases op with
  | store sop => rintro ⟨⟩
  | startSearch zArray =>
    obtain ⟨e, herror⟩ | ⟨p, hp, -⟩ := startSearch_cases hs.store zArray
    · rw [step, herror]
      rintro ⟨⟩
    · rw [step, hp]
      rintro ⟨⟩
  | nextElement zArray zSid =>
    obtain ⟨p, r, pending, hhit⟩ | hmiss := hit_or_miss s zArray zSid
    · obtain ⟨cursor, -, hnext⟩ := hhit.nextElement hs.store
      rw [step, hnext]
      rintro ⟨⟩
    · obtain ⟨s', -, hnext, -⟩ := call_refused hs hmiss
      rw [step, hnext]
      rintro ⟨⟩
  | anyMore zArray zSid =>
    obtain ⟨p, r, pending, hhit⟩ | hmiss := hit_or_miss s zArray zSid
    · rw [step, hhit.anyMore hs.store]
      rintro ⟨⟩
    · obtain ⟨s', -, -, hmore, -⟩ := call_refused hs hmiss
      rw [step, hmore]
      rintro ⟨⟩
  | doneSearch zArray zSid =>
    obtain ⟨p, r, pending, hhit⟩ | hmiss := hit_or_miss s zArray zSid
    · rw [step, hhit.doneSearch]
      rintro ⟨⟩
    · obtain ⟨s', -, -, -, hdone⟩ := call_refused hs hmiss
      rw [step, hdone]
      rintro ⟨⟩

end

/-- From any reachable state, a search hands out the elements of its array, each of them once,
while nothing touches the array; after anything has, every call refuses the id.  No call
follows a pointer to an entry that is not there. -/
theorem search_enumerates_until_touched {s s₁ : State} {zArray : TString} {zSid : Bytes}
    {r : VarId} (hs : ReachableBy (State.next seed) Op.Granted State.init s)
    (hstart : startSearch s zArray = (s₁, .ok zSid)) (hleads : s.store.LeadsTo zArray.bytes r) :
    (s.store.elements r).Nodup ∧
      (∀ ops, AllowedRun (State.next seed)
          (fun s op => op.Granted s ∧ op.Keeps s zArray.bytes zSid r) s₁ ops →
        let s' := ops.foldl (State.next seed) s₁
        let pending :=
          (s.store.elements r).drop (ops.countP (·.isNext zArray.bytes zSid))
        s'.store.LeadsTo zArray.bytes r →
          (nextElement s' zArray.bytes zSid).2 = .ok (pending.headD []) ∧
            (anyMore s' zArray.bytes zSid).2 = .ok (decimal (if pending = [] then 0 else 1))) ∧
      (∀ before sop after,
        AllowedRun (State.next seed) Op.Granted s₁ (before ++ .store sop :: after) →
        sop.Touches (before.foldl (State.next seed) s₁).store r →
        let s' := (before ++ .store sop :: after).foldl (State.next seed) s₁
        ∀ zName,
          (nextElement s' zName zSid).2 = .error (.noSearch zSid) ∧
            (anyMore s' zName zSid).2 = .error (.noSearch zSid) ∧
            (doneSearch s' zName zSid).2 = .error (.noSearch zSid)) ∧
      ∀ ops op, AllowedRun (State.next seed) Op.Granted s₁ ops →
        (step seed (ops.foldl (State.next seed) s₁) op).2 ≠ .dangling := by
  have hinv := stateInv_of_reachable hs
  obtain ⟨hinv₁, htracked, htied⟩ := tracked_of_start hinv hstart hleads
  refine ⟨?_, fun ops hops => ?_, fun before sop after hops htouch => ?_, fun ops op hops => ?_⟩
  · exact elements_nodup hinv.store r
  · intro s' pending hleads'
    obtain ⟨hinv', htracked'⟩ := htracked.run hinv₁ hops
    obtain ⟨p, hhit⟩ := htracked'.hit hleads'
    obtain ⟨cursor, -, hnext⟩ := hhit.nextElement hinv'.store
    rw [hnext, hhit.anyMore hinv'.store]
    exact ⟨rfl, rfl⟩
  · obtain ⟨hbefore, hsop, hafter⟩ := ReachableBy.allowedRun_append.mp hops
    obtain ⟨hinv₂, htied₂⟩ := htied.run hinv₁ hbefore
    obtain ⟨hinv', hdead⟩ := Dead.run (step_inv hinv₂ hsop) hafter (htied₂.dead hinv₂ hsop htouch)
    intro s' zName
    have hs' : s' = after.foldl (State.next seed)
        (State.next seed (before.foldl (State.next seed) s₁) (.store sop)) := List.foldl_append ..
    rw [hs']
    exact hdead.refused hinv' zName
  · exact not_dangling (htied.run hinv₁ hops).1 op

/-- What makes an array `a` with one element `x`. -/
def oneElementOps : List Op :=
  [.store (.rebind (fun z => if z = ascii "a" then some 0 else none) fun _ => none),
    .store (.alloc 0), .store (.write 0 (ascii "x") 0 0 1)]

theorem oneElementOps_allowed : AllowedRun (State.next seed) Op.Granted State.init oneElementOps :=
  ⟨trivial, rfl, ⟨fun _ _ _ => rfl, fun _ _ _ ht => nomatch ht⟩, trivial⟩

theorem one_element_enumerated :
    let s := oneElementOps.foldl (State.next ⟨0, 0⟩) State.init
    let s₁ := (startSearch s (.plain (ascii "a"))).1
    (nextElement s₁ (ascii "a") (ascii "s-1-a")).2 = .ok (ascii "x") := by
  intro s s₁
  have hs : ReachableBy (State.next ⟨0, 0⟩) Op.Granted State.init s :=
    ReachableBy.init.foldl oneElementOps_allowed
  have hstart : startSearch s (.plain (ascii "a")) = (s₁, .ok (ascii "s-1-a")) := by
    have hreply : (startSearch s (.plain (ascii "a"))).2 = .ok (ascii "s-1-a") := by
      decide
    exact Prod.ext rfl hreply
  have hleads : s.store.LeadsTo (ascii "a") 0 := by decide
  obtain ⟨-, hrun, -⟩ := search_enumerates_until_touched hs hstart hleads
  have hleads₁ : s₁.store.LeadsTo (ascii "a") 0 := by decide
  have helements : s.store.elements 0 = [ascii "x"] := by decide +kernel
  refine (hrun [] trivial hleads₁).1.trans ?_
  rw [helements]
  rfl

/-- A value written to an element that exists leaves the elements as they are, and still ends
the search. -/
theorem rewritten_element_ends_search :
    let s := oneElementOps.foldl (State.next ⟨0, 0⟩) State.init
    let s₁ := (startSearch s (.plain (ascii "a"))).1
    let s₂ := State.next ⟨0, 0⟩ s₁ (.store (.write 0 (ascii "x") 0 1 2))
    (startSearch s (.plain (ascii "a"))).2 = .ok (ascii "s-1-a") ∧
      s₁.store.elements 0 = [ascii "x"] ∧ s₂.store.elements 0 = [ascii "x"] ∧
      (nextElement s₂ (ascii "a") (ascii "s-1-a")).2 = .error (.noSearch (ascii "s-1-a")) := by
  decide +kernel

end ArraySearch
end Th8
