import Th8.Variables.ArrayEpochs

/-!
# The calls of a search

A search whose generation and epoch are those of an array has been started on this very
table, and nothing has touched the array since.  So its pointer leads to an entry of the
table, and the keys from there on are those it has not yet handed out.
-/

namespace Th8

open Bigint List Option

namespace ArraySearch

variable {seed : HashSeed}

theorem dash_notMem_decimal (n : ℕ) : (0x2d : Byte) ∉ decimal n := by
  have hdigit : ∀ d ∈ List.range 10, digitChar d ≠ 0x2d := by decide
  rw [decimal, if_neg (by omega), Int.natAbs_natCast, decimalDigits]
  split_ifs
  · decide
  · intro hmem
    obtain ⟨d, hd, hchar⟩ := mem_map.mp (mem_reverse.mp hmem)
    exact hdigit d (mem_range.mpr (Nat.digits_lt_base (by decide) hd)) hchar

theorem searchId_eq (counter : ℕ) (zArray : Bytes) :
    ∃ rest, searchId counter zArray = ascii "s-" ++ (decimal counter ++ 0x2d :: rest) := by
  unfold searchId
  simp only
  split_ifs
  · exact ⟨ascii "array", append_assoc ..⟩
  · exact ⟨zArray.takeWhile (· != 0), append_assoc ..⟩

variable {zArray : Bytes}

theorem searchId_injective {counter counter' : ℕ} {zArray' : Bytes}
    (h : searchId counter zArray = searchId counter' zArray') : counter = counter' := by
  have hbefore : ∀ (n : ℕ) rest, (decimal n ++ 0x2d :: rest).takeWhile (· != 0x2d) = decimal n := by
    intro n rest
    rw [takeWhile_append_of_pos]
    · simp
    · intro c hc
      simpa using fun hdash : c = 0x2d => dash_notMem_decimal n (hdash ▸ hc)
  obtain ⟨rest, hrest⟩ := searchId_eq counter zArray
  obtain ⟨rest', hrest'⟩ := searchId_eq counter' zArray'
  rw [hrest, hrest'] at h
  have hdecimal := congrArg (List.takeWhile (· != 0x2d)) (append_cancel_left h)
  rw [hbefore, hbefore] at hdecimal
  exact_mod_cast decimal_injective hdecimal

/-! ## A search and its array -/

/-- The bare name of an array leads to the record `r`. -/
def Store.LeadsTo (s : Store) (zVar : Bytes) (r : VarId) : Prop :=
  (analyzeVarName zVar).zInner = none ∧ s.outerVar zVar = some r

instance (s : Store) (zVar : Bytes) (r : VarId) : Decidable (s.LeadsTo zVar r) :=
  inferInstanceAs (Decidable (_ ∧ _))

theorem bareArrayVar_eq_some {s : Store} {zVar : Bytes} {v : ArrayVar} :
    s.bareArrayVar zVar = some v ↔ ∃ r, s.LeadsTo zVar r ∧ s.vars r = some v ∧ v.pHash.isSome := by
  unfold Store.bareArrayVar Store.arrayVar Store.LeadsTo
  cases (analyzeVarName zVar).zInner <;> cases s.outerVar zVar <;> simp [filter_eq_some_iff]

def Live (s : Store) (p : Search) (r : VarId) (pending : List Bytes) : Prop :=
  ∃ v tid t, s.vars r = some v ∧ v.pHash = some tid ∧ p.pArrayHash = some tid ∧
    p.nGeneration = v.nGeneration ∧ p.nEpoch = v.nEpoch ∧ s.tables tid = some t ∧
    t.Valid p.cursor ∧ t.remaining p.cursor = pending

structure Stale (s : Store) (p : Search) : Prop where
  counter : p.nGeneration ≤ s.iArrayHashGeneration
  passed : ∀ r v, s.vars r = some v → v.pHash.isSome → p.nGeneration = v.nGeneration →
    p.nEpoch < v.nEpoch

/-- An array at the generation of a search is not behind it, and if it is at the epoch of the
search, then the search is live. -/
structure Bound (s : Store) (p : Search) : Prop where
  counter : p.nGeneration ≤ s.iArrayHashGeneration
  passed : ∀ r v, s.vars r = some v → v.pHash.isSome → p.nGeneration = v.nGeneration →
    p.nEpoch < v.nEpoch ∨ p.nEpoch = v.nEpoch ∧ ∃ pending, Live s p r pending

variable {p : Search}

theorem Stale.evolves {s s' : Store} (h : Stale s p) (hs : Evolves s s') : Stale s' p := by
  have hle := hs.counter
  refine ⟨h.counter.trans (by exact_mod_cast hle), fun r v' hv' hhash hgen => ?_⟩
  obtain ⟨v, hv, hhash', hgen', hepoch⟩ | hnew := hs.vars r v' hv' hhash
  · have hpassed := h.passed r v hv hhash' (by rw [hgen, hgen'])
    exact hpassed.trans_le (by exact_mod_cast hepoch)
  · have hcounter := h.counter
    omega

variable {r : VarId} {pending : List Bytes}

theorem Live.same {s s' : Store} (h : Live s p r pending) (hs : SameArray s s' r) :
    Live s' p r pending := by
  obtain ⟨v, tid, t, hv, htid, hhash, hgen, hepoch, ht, hrest⟩ := h
  exact ⟨v, tid, t, hs.1.trans hv, htid, hhash, hgen, hepoch, (hs.2 v tid hv htid).trans ht, hrest⟩

section StoreStep

variable {s : Store} {p : Search} {op : StoreOp}

theorem Bound.storeStep (hs : StoreInv seed s) (hop : op.Granted s) (h : Bound s p) :
    Bound (storeStep seed s op) p := by
  have hevolves := storeStep_evolves hs hop
  have hle := hevolves.counter
  refine ⟨h.counter.trans (by exact_mod_cast hle), fun r v' hv' hhash hgen => ?_⟩
  obtain ⟨v, hv, hhash', hgen', hepoch⟩ | hnew := hevolves.vars r v' hv' hhash
  · obtain ⟨tid, htid⟩ := isSome_iff_exists.mp hhash'
    obtain hpassed | ⟨heq, pending, hlive⟩ := h.passed r v hv hhash' (by rw [hgen, hgen'])
    · exact .inl (hpassed.trans_le (by exact_mod_cast hepoch))
    · by_cases htouch : op.Touches s r
      · have hmoved := storeStep_epoch hs hop hv htid htouch hv'
        exact .inl (heq ▸ by exact_mod_cast hmoved)
      · have hsame := storeStep_same hs hop hv htid htouch
        have hrecord : v' = v := some.inj (hv'.symm.trans (hsame.1.trans hv))
        exact .inr ⟨hrecord ▸ heq, pending, hlive.same hsame⟩
  · have hcounter := h.counter
    omega

theorem Live.storeStep {r : VarId} {pending : List Bytes} (hs : StoreInv seed s)
    (hop : op.Granted s) (h : Live s p r pending) (huntouched : ¬op.Touches s r) :
    Live (storeStep seed s op) p r pending := by
  obtain ⟨v, tid, t, hv, htid, -⟩ := id h
  exact h.same (storeStep_same hs hop hv htid huntouched)

theorem Bound.stale {r : VarId} {v : ArrayVar} (hs : StoreInv seed s) (hop : op.Granted s)
    (h : Bound s p) (hv : s.vars r = some v) (hhash : v.pHash.isSome)
    (hgen : p.nGeneration = v.nGeneration) (htouch : op.Touches s r) :
    Stale (ArraySearch.storeStep seed s op) p := by
  have hevolves := storeStep_evolves hs hop
  have hle := hevolves.counter
  refine ⟨h.counter.trans (by exact_mod_cast hle), fun r' v' hv' hhash' hgen' => ?_⟩
  obtain ⟨w, hw, hwhash, hwgen, hepoch⟩ | hnew := hevolves.vars r' v' hv' hhash'
  · -- there is only one array of this generation
    obtain rfl : r' = r := hs.generation r' r w v hw hv hwhash hhash (by omega)
    obtain ⟨tid, htid⟩ := isSome_iff_exists.mp hwhash
    have hmoved := storeStep_epoch hs hop hw htid htouch hv'
    have hbound : p.nEpoch ≤ w.nEpoch := by
      obtain hpassed | ⟨heq, -⟩ := h.passed r' w hw hwhash (by rw [hgen', hwgen])
      · exact hpassed.le
      · exact heq.le
    exact hbound.trans_lt (by exact_mod_cast hmoved)
  · have hcounter := h.counter
    omega

end StoreStep

theorem Live.unique {s : Store} {p' : Search} {r' : VarId} {pending' : List Bytes}
    (hs : StoreInv seed s) (h : Live s p r pending) (h' : Live s p' r' pending')
    (hgen : p'.nGeneration = p.nGeneration) : r' = r := by
  obtain ⟨v, tid, t, hv, htid, -, hvgen, -⟩ := h
  obtain ⟨v', tid', t', hv', htid', -, hvgen', -⟩ := h'
  exact hs.generation r' r v' v hv' hv (by simp [htid']) (by simp [htid]) (by omega)

theorem Live.bound {s : Store} (hs : StoreInv seed s) (h : Live s p r pending) : Bound s p := by
  obtain ⟨v, tid, t, hv, htid, -, hgen, hepoch, -⟩ := id h
  have hle := hs.generation_le r v hv
  refine ⟨by omega, fun r' v' hv' hhash' hgen' => .inr ?_⟩
  obtain rfl : r' = r := hs.generation r' r v' v hv' hv hhash' (by simp [htid]) (by omega)
  obtain rfl : v' = v := some.inj (hv'.symm.trans hv)
  exact ⟨hepoch, pending, h⟩

theorem Stale.not_live {s : Store} (h : Stale s p) : ¬Live s p r pending := by
  rintro ⟨v, tid, t, hv, htid, -, hgen, hepoch, -⟩
  have hpassed := h.passed r v hv (by simp [htid]) hgen
  omega

/-! ## The calls -/

def State.Issued (s : State) (zSid : Bytes) : Prop :=
  ∃ counter ≤ s.iArraySearchCounter, ∃ zArray, zSid = searchId counter zArray

structure StateInv (seed : HashSeed) (s : State) : Prop where
  store : StoreInv seed s.store
  bound : ∀ zSid p, s.searches zSid = some p → Bound s.store p
  issued : ∀ zSid p, s.searches zSid = some p → s.Issued zSid

structure Hit (s : State) (zArray zSid : Bytes) (p : Search) (r : VarId)
    (pending : List Bytes) : Prop where
  search : s.searches zSid = some p
  name : p.zArray = zArray
  leads : s.store.LeadsTo zArray r
  live : Live s.store p r pending

variable {s : State} {zSid : Bytes}

theorem Hit.searchFind (h : Hit s zArray zSid p r pending) :
    searchFind s zSid zArray = (some p, s) := by
  obtain ⟨v, tid, t, hv, htid, -, hgen, hepoch, -⟩ := h.live
  have hbare : s.store.bareArrayVar p.zArray = some v :=
    bareArrayVar_eq_some.mpr ⟨r, h.name ▸ h.leads, hv, by simp [htid]⟩
  simp [ArraySearch.searchFind, h.search, h.name.symm, Store.getArrayElementHash,
    Store.getArrayGeneration, Store.getArrayEpoch, hbare, htid, hgen, hepoch]

theorem searchFind_cases (hs : StateInv seed s) (zArray zSid : Bytes) :
    (∃ p r pending, Hit s zArray zSid p r pending) ∨ searchFind s zSid zArray = (none, s) ∨
      searchFind s zSid zArray =
        (none, { s with searches := Function.update s.searches zSid none }) := by
  unfold ArraySearch.searchFind
  cases hp : s.searches zSid with
  | none => exact .inr (.inl rfl)
  | some p =>
    simp only
    split_ifs with hname hhash hgen hepoch
    · exact .inr (.inl rfl)
    · exact .inr (.inr rfl)
    · exact .inr (.inr rfl)
    · exact .inr (.inr rfl)
    · obtain ⟨v, hbare⟩ : ∃ v, s.store.bareArrayVar p.zArray = some v := by
        rw [← ne_none_iff_exists']
        intro hnone
        exact hhash (by rw [Store.getArrayElementHash, hnone]; rfl)
      simp only [ne_eq, not_not] at hname hgen hepoch
      simp only [Store.getArrayGeneration, Store.getArrayEpoch, hbare] at hgen hepoch
      obtain ⟨r, hleads, hv, hsome⟩ := bareArrayVar_eq_some.mp hbare
      obtain hpassed | ⟨-, pending, hlive⟩ := (hs.bound zSid p hp).passed r v hv hsome hgen.symm
      · omega
      · exact .inl ⟨p, r, pending, hp, hname, hname ▸ hleads, hlive⟩

theorem Hit.nextElement (hs : StoreInv seed s.store) (h : Hit s zArray zSid p r pending) :
    ∃ cursor, Live s.store { p with cursor := cursor } r pending.tail ∧
      ArraySearch.nextElement s zArray zSid =
        ({ s with searches :=
            Function.update s.searches zSid (some { p with cursor := cursor }) },
          .ok (pending.headD [])) := by
  obtain ⟨v, tid, t, hv, htid, hhash, hgen, hepoch, ht, hvalid, hrest⟩ := h.live
  have hchained := hs.chained tid t ht
  simp only [ArraySearch.nextElement, h.searchFind]
  obtain ⟨zArray', pArrayHash, nEpoch, nGeneration, ⟨iBucket, pCursor⟩⟩ := p
  simp only at hhash hgen hepoch hvalid hrest
  cases pCursor with
  | none =>
    obtain rfl : pending = [] := hrest.symm
    refine ⟨⟨iBucket, none⟩, ⟨v, tid, t, hv, htid, hhash, hgen, hepoch, ht, hvalid, rfl⟩, ?_⟩
    rw [← h.search, Function.update_eq_self]
    rfl
  | some id =>
    obtain ⟨p, rest, hchain, hremaining, hvalid'⟩ := t.advance_spec (hchained.ids iBucket) hvalid
    rw [hrest] at hremaining
    obtain rfl := hremaining
    refine ⟨t.advance iBucket (rest.head?.map (·.id)),
      ⟨v, tid, t, hv, htid, hhash, hgen, hepoch, ht, hvalid', rfl⟩, ?_⟩
    simp [hhash, ht, hchain]

theorem Hit.anyMore (hs : StoreInv seed s.store) (h : Hit s zArray zSid p r pending) :
    ArraySearch.anyMore s zArray zSid = (s, .ok (decimal (if pending = [] then 0 else 1))) := by
  obtain ⟨v, tid, t, hv, htid, hhash, hgen, hepoch, ht, hvalid, hrest⟩ := h.live
  have hmore : p.cursor.pCursor.isSome = true ↔ ¬pending = [] := by
    obtain ⟨zArray', pArrayHash, nEpoch, nGeneration, ⟨iBucket, pCursor⟩⟩ := p
    simp only at hvalid hrest
    cases pCursor with
    | none =>
      obtain rfl : pending = [] := hrest.symm
      simp
    | some id =>
      obtain ⟨p, rest, -, hremaining, -⟩ :=
        t.advance_spec ((hs.chained tid t ht).ids iBucket) hvalid
      rw [hrest] at hremaining
      simp [hremaining]
  simp only [ArraySearch.anyMore, h.searchFind, hmore, ite_not]

theorem Hit.doneSearch (h : Hit s zArray zSid p r pending) :
    ArraySearch.doneSearch s zArray zSid =
      ({ s with searches := Function.update s.searches zSid none }, .ok []) := by
  simp only [ArraySearch.doneSearch, h.searchFind]

theorem live_of_start {s : Store} (hs : StoreInv seed s)
    (hexists : s.existsArrayVar p.zArray = true)
    (hhash : p.pArrayHash = s.getArrayElementHash p.zArray)
    (hepoch : p.nEpoch = s.getArrayEpoch p.zArray)
    (hgen : p.nGeneration = s.getArrayGeneration p.zArray)
    (hcursor : ∀ t, p.pArrayHash.bind s.tables = some t → p.cursor = t.startCursor) :
    Bound s p ∧ ∀ r, s.LeadsTo p.zArray r → Live s p r (s.elements r) := by
  simp only [Store.getArrayElementHash, Store.getArrayEpoch, Store.getArrayGeneration] at *
  cases hbare : s.bareArrayVar p.zArray with
  | none =>
    simp only [hbare] at hgen
    refine ⟨⟨by omega, fun r v hv hsome hgen' => by omega⟩, fun r hr => ?_⟩
    rw [Store.bareArrayVar, if_neg (by simp [hr.1])] at hbare
    simp [Store.existsArrayVar, hbare] at hexists
  | some v =>
    obtain ⟨r, hleads, hv, hsome⟩ := bareArrayVar_eq_some.mp hbare
    obtain ⟨tid, htid⟩ := isSome_iff_exists.mp hsome
    obtain ⟨t, ht⟩ := hs.table r v tid hv htid
    obtain ⟨hkeys, hvalid⟩ := t.startCursor_spec
    simp only [hbare, bind_some, htid] at hhash hepoch hgen
    rw [hhash, bind_some] at hcursor
    rw [← hcursor t ht] at hkeys hvalid
    have hlive : Live s p r (s.elements r) :=
      ⟨v, tid, t, hv, htid, hhash, hgen, hepoch, ht, hvalid, by
        rw [hkeys, elements_eq hv htid ht]⟩
    refine ⟨hlive.bound hs, fun r' hr' => ?_⟩
    obtain rfl : r' = r := some.inj (hr'.2.symm.trans hleads.2)
    exact hlive

theorem startSearch_cases (hs : StoreInv seed s.store) (zArray : TString) :
    (∃ e, startSearch s zArray = (s, .error e)) ∨
      ∃ p : Search,
        startSearch s zArray =
          ({ s with
              searches := Function.update s.searches
                (searchId (s.iArraySearchCounter + 1) zArray.bytes) (some p)
              iArraySearchCounter := s.iArraySearchCounter + 1 },
            .ok (searchId (s.iArraySearchCounter + 1) zArray.bytes)) ∧
        p.zArray = zArray.bytes ∧ Bound s.store p ∧
        ∀ r, s.store.LeadsTo zArray.bytes r → Live s.store p r (s.store.elements r) := by
  unfold ArraySearch.startSearch
  split_ifs with hexists htags
  · exact .inl ⟨_, rfl⟩
  · exact .inl ⟨_, rfl⟩
  · simp only [Bool.not_eq_true', Bool.not_eq_false] at hexists
    exact .inr ⟨_, rfl, rfl, live_of_start hs hexists rfl rfl rfl fun t ht => by simp only [ht]⟩

theorem hit_or_miss (s : State) (zArray zSid : Bytes) :
    (∃ p r pending, Hit s zArray zSid p r pending) ∨
      ∀ p r pending, ¬Hit s zArray zSid p r pending := by
  by_cases h : ∃ p r pending, Hit s zArray zSid p r pending
  · exact .inl h
  · exact .inr fun p r pending hhit => h ⟨p, r, pending, hhit⟩

theorem call_refused (hs : StateInv seed s) (h : ∀ p r pending, ¬Hit s zArray zSid p r pending) :
    ∃ s' : State, (s' = s ∨ s' = { s with searches := Function.update s.searches zSid none }) ∧
      nextElement s zArray zSid = (s', .error (.noSearch zSid)) ∧
      anyMore s zArray zSid = (s', .error (.noSearch zSid)) ∧
      doneSearch s zArray zSid = (s', .error (.noSearch zSid)) := by
  obtain ⟨s', hs', hfind⟩ : ∃ s' : State, (s' = s ∨
      s' = { s with searches := Function.update s.searches zSid none }) ∧
      searchFind s zSid zArray = (none, s') := by
    obtain ⟨p, r, pending, hhit⟩ | hfind | hfind := searchFind_cases hs zArray zSid
    · exact absurd hhit (h p r pending)
    · exact ⟨s, .inl rfl, hfind⟩
    · exact ⟨_, .inr rfl, hfind⟩
  refine ⟨s', hs', ?_, ?_, ?_⟩
  · simp only [nextElement, hfind]
  · simp only [anyMore, hfind]
  · simp only [doneSearch, hfind]

/-! ## One step -/

structure CallStep (s s' : State) : Prop where
  store : s'.store = s.store
  counter : s.iArraySearchCounter ≤ s'.iArraySearchCounter
  search : ∀ zSid p', s'.searches zSid = some p' →
    s.searches zSid = some p' ∨
      (∃ p r pending, s.searches zSid = some p ∧ Live s.store p r pending ∧
        p'.nGeneration = p.nGeneration ∧ Live s.store p' r pending.tail) ∨
      (¬s.Issued zSid ∧ s'.Issued zSid ∧ Bound s.store p')

theorem CallStep.refl (s : State) : CallStep s s := ⟨rfl, le_rfl, fun _ _ h => .inl h⟩

theorem CallStep.remove (s : State) (zSid : Bytes) :
    CallStep s { s with searches := Function.update s.searches zSid none } := by
  refine ⟨rfl, le_rfl, fun zSid' p' hp' => .inl ?_⟩
  by_cases hsid : zSid' = zSid
  · simp [hsid] at hp'
  · simpa [Function.update_of_ne hsid] using hp'

theorem CallStep.refused {s' : State}
    (h : s' = s ∨ s' = { s with searches := Function.update s.searches zSid none }) :
    CallStep s s' := by
  obtain rfl | rfl := h
  · exact .refl s'
  · exact .remove s zSid

theorem not_issued (s : State) (zArray : Bytes) :
    ¬s.Issued (searchId (s.iArraySearchCounter + 1) zArray) := by
  rintro ⟨counter, hcounter, zArray', hsid⟩
  have heq := searchId_injective hsid
  omega

theorem startSearch_step (hs : StateInv seed s) (zArray : TString) :
    CallStep s (startSearch s zArray).1 := by
  obtain ⟨e, herror⟩ | ⟨p, hstart, -, hbound, -⟩ := startSearch_cases hs.store zArray
  · rw [herror]
    exact .refl s
  · rw [hstart]
    refine ⟨rfl, Nat.le_succ _, fun zSid p' hp' => ?_⟩
    obtain ⟨rfl, rfl⟩ | ⟨-, hold⟩ := update_some_cases hp'
    · exact .inr (.inr ⟨not_issued s zArray.bytes, ⟨_, le_rfl, zArray.bytes, rfl⟩, hbound⟩)
    · exact .inl hold

theorem step_callStep (hs : StateInv seed s) {op : Op} (hcall : ∀ sop, op ≠ .store sop) :
    CallStep s (step seed s op).1 := by
  cases op with
  | store sop => exact absurd rfl (hcall sop)
  | startSearch zArray => exact startSearch_step hs zArray
  | nextElement zArray zSid =>
    rw [step]
    obtain ⟨p, r, pending, hhit⟩ | hmiss := hit_or_miss s zArray zSid
    · obtain ⟨cursor, hlive, hnext⟩ := hhit.nextElement hs.store
      rw [hnext]
      refine ⟨rfl, le_rfl, fun zSid' p' hp' => ?_⟩
      obtain ⟨rfl, rfl⟩ | ⟨-, hold⟩ := update_some_cases hp'
      · exact .inr (.inl ⟨p, r, pending, hhit.search, hhit.live, rfl, hlive⟩)
      · exact .inl hold
    · obtain ⟨s', hs', hnext, -⟩ := call_refused hs hmiss
      rw [hnext]
      exact .refused hs'
  | anyMore zArray zSid =>
    rw [step]
    obtain ⟨p, r, pending, hhit⟩ | hmiss := hit_or_miss s zArray zSid
    · rw [hhit.anyMore hs.store]
      exact .refl s
    · obtain ⟨s', hs', -, hmore, -⟩ := call_refused hs hmiss
      rw [hmore]
      exact .refused hs'
  | doneSearch zArray zSid =>
    rw [step]
    obtain ⟨p, r, pending, hhit⟩ | hmiss := hit_or_miss s zArray zSid
    · rw [hhit.doneSearch]
      exact .remove s zSid
    · obtain ⟨s', hs', -, -, hdone⟩ := call_refused hs hmiss
      rw [hdone]
      exact .refused hs'

theorem State.Issued.mono {s' : State} (hcounter : s.iArraySearchCounter ≤ s'.iArraySearchCounter)
    (h : s.Issued zSid) :
    s'.Issued zSid := by
  obtain ⟨counter, hle, zArray, rfl⟩ := h
  exact ⟨counter, hle.trans hcounter, zArray, rfl⟩

theorem op_cases (op : Op) : (∃ sop, op = .store sop) ∨ ∀ sop, op ≠ .store sop := by
  cases op with
  | store sop => exact .inl ⟨sop, rfl⟩
  | _ => exact .inr fun _ h => nomatch h

theorem step_inv (hs : StateInv seed s) {op : Op} (hop : op.Granted s) :
    StateInv seed (step seed s op).1 := by
  obtain ⟨sop, rfl⟩ | hcall := op_cases op
  · exact ⟨storeStep_inv hs.store hop, fun zSid p hp => (hs.bound zSid p hp).storeStep hs.store hop,
      hs.issued⟩
  · have hstep := step_callStep hs hcall
    refine ⟨hstep.store ▸ hs.store, fun zSid p' hp' => ?_, fun zSid p' hp' => ?_⟩
    · rw [hstep.store]
      obtain hold | ⟨p, r, pending, -, -, -, hlive⟩ | ⟨-, -, hbound⟩ := hstep.search zSid p' hp'
      · exact hs.bound zSid p' hold
      · exact hlive.bound hs.store
      · exact hbound
    · obtain hold | ⟨p, r, pending, hp, -⟩ | ⟨-, hissued, -⟩ := hstep.search zSid p' hp'
      · exact (hs.issued zSid p' hold).mono hstep.counter
      · exact (hs.issued zSid p hp).mono hstep.counter
      · exact hissued

end ArraySearch
end Th8
