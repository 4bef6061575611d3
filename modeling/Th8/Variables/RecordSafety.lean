import Th8.Variables.RecordSteps
import Th8.Variables.Accessors

/-!
# No table leads to a released record

Every operation keeps the invariant, and what holds of the records in every reachable
state is read off it.
-/

namespace Th8

open Support List
open VarState (alloc frames unlink)

namespace RecInv

variable {s : RecState} {v : VarState}

/-! ## Creation and writing, continued -/

variable {r : VarId}

section

variable (h : RecInv s)

include h

theorem element {place : VarPlace} {zInner : Bytes} (hr : s.vars.outer place = some r)
    (hscalar : (s.vars.heap r).pHash = none → (s.vars.heap r).zData = none)
    (hnone : ((s.vars.heap r).pHash.getD []).lookup zInner = none) :
    RecInv
      { s with
        vars := s.vars.alloc.1.setHash r
          ((zInner, s.vars.alloc.2) :: (s.vars.heap r).pHash.getD []) } := by
  obtain ⟨hlt, hpos⟩ := h.pos_of_mem (h.outer_mem hr)
  have hne : r ≠ s.vars.nextVar := Nat.ne_of_lt hlt
  have hold : s.vars.alloc.1.heap r = s.vars.heap r := Function.update_of_ne hne _ _
  have hnewKeys : (((zInner, s.vars.alloc.2) :: (s.vars.heap r).pHash.getD []).map
      Prod.fst).Nodup := by
    refine nodup_cons.mpr ⟨fun hmem => ?_, h.arrayKeys r hlt⟩
    obtain ⟨p, hp, hkey⟩ := mem_map.mp hmem
    have hne' := lookup_eq_none_iff.mp hnone p hp
    rw [hkey] at hne'
    simp at hne'
  constructor
  case sound =>
    refine ⟨?_, fun _ _ => rfl, h.alloc_sound.once, h.alloc_sound.known, fun a ha => ?_⟩
    · simp only [RecState.recHeap, setHash_nRef, setHash_elements]
      refine h.alloc_sound.counted.adopt (Nat.lt_succ_of_lt hlt) ?_ hlt fun n => ?_
      · simp only [hold]
        exact hpos
      · simp only [hold]
        rfl
    · exact (h.alloc_sound.dead a ha).trans
        (Eq.congr_left (congrFun (setHash_nRef s.vars.alloc.1 r _) a).symm)
  case keys => exact h.keys
  case arrayKeys =>
    intro a ha
    by_cases har : a = r
    · subst har
      simpa [VarState.setHash] using hnewKeys
    · simp only [setHash_of_ne _ har]
      rcases Nat.lt_succ_iff_lt_or_eq.mp ha with hlt' | rfl
      · simp only [alloc, Function.update_of_ne (Nat.ne_of_lt hlt')]
        exact h.arrayKeys a hlt'
      · simp [alloc, Variable.new]
  case exclusive =>
    intro a ha
    by_cases har : a = r
    · subst har
      simp only [setHash_zData, hold]
      rintro ⟨hdata, -⟩
      cases hhash : (s.vars.heap a).pHash with
      | none =>
        rw [hscalar hhash] at hdata
        cases hdata
      | some t => exact h.exclusive a hlt ⟨hdata, by rw [hhash]; rfl⟩
    · simp only [setHash_of_ne _ har]
      rcases Nat.lt_succ_iff_lt_or_eq.mp ha with hlt' | rfl
      · simp only [alloc, Function.update_of_ne (Nat.ne_of_lt hlt')]
        exact h.exclusive a hlt'
      · simp [alloc, Variable.new]
  case names => exact h.names.creationStep (.element place r zInner hr hscalar hnone)

theorem creation (hcreate : Creation s.vars v) : RecInv { s with vars := v } := by
  induction hcreate with
  | refl => exact h
  | tail _ hstep ih =>
    cases hstep with
    | namespaces path hdepth => exact ih.namespaces hdepth
    | entry place hns hnone => exact ih.entry hns hnone
    | element place r zInner hr hscalar hnone => exact ih.element hr hscalar hnone

theorem sameTables (hsame : SameTables s.vars v) : RecInv { s with vars := v } := by
  have hnRef : (fun a => (v.heap a).nRef) = fun a => (s.vars.heap a).nRef := funext hsame.nRef
  have helements : (fun a => (v.heap a).elements) = fun a => (s.vars.heap a).elements :=
    funext fun a => by rw [Variable.elements, hsame.pHash, Variable.elements]
  have htables : ({ s with vars := v } : RecState).tables = s.tables := by
    simp only [RecState.tables, frames, hsame.procFrames, hsame.globalFrame,
      hsame.namespaces, hsame.nsVars]
  constructor
  case sound =>
    simp only [RecState.entries, htables, hsame.nextVar, helements]
    refine ⟨?_, fun a ha => ?_, h.sound.once, h.sound.known, fun a ha => ?_⟩
    · simp only [RecState.recHeap, hnRef]
      exact h.sound.counted
    · exact (congrFun helements a).symm
    · refine (h.sound.dead a ha).trans ?_
      simp only [RecState.recHeap, hsame.nRef]
  case keys =>
    rw [htables]
    exact h.keys
  case arrayKeys =>
    intro r hr
    simp only [hsame.pHash]
    exact h.arrayKeys r (hsame.nextVar ▸ hr)
  case exclusive =>
    rintro r hr ⟨hdata, harray⟩
    simp only [hsame.pHash] at harray
    rcases hsame.scalar r hdata with hdata | hnone
    · exact h.exclusive r (hsame.nextVar ▸ hr) ⟨hdata, harray⟩
    · rw [hnone] at harray
      cases harray
  case names => exact h.names.congr hsame.namespaces hsame.nsVars

theorem written (hw : Written s.vars v) : RecInv { s with vars := v } := by
  obtain ⟨v₁, hcreate, hsame⟩ := hw
  exact (h.creation hcreate).sameTables (s := { s with vars := v₁ }) hsame

theorem link {zLocal : Bytes} (hlt : r < s.vars.nextVar)
    (hpos : 0 < (s.vars.heap r).nRef) (hnone : (s.vars.frameAt 0).lookup zLocal = none) :
    RecInv
      { s with
        vars :=
          { s.vars.insert r (.frame 0 zLocal) with
            heap := Function.update s.vars.heap r
              { s.vars.heap r with nRef := (s.vars.heap r).nRef + 1 } } } := by
  let m := s.recHeap.setNRef r ((s.vars.heap r).nRef + 1)
  have hns : s.vars.HasNs (.frame 0 zLocal) := trivial
  have hcount := count_entries_insert (s := s) (a := r) hns
  constructor
  case sound =>
    simp only [RecState.recHeap, insert_nextVar]
    refine ⟨?_, fun _ _ => rfl, h.sound.once, h.sound.known, fun a ha => ?_⟩
    · have hshare := (h.sound.counted.share hlt hpos).perm hcount
      refine (congrArg₂ (fun nRef children => Counted s.vars.nextVar nRef children _)
        (setNRef_nRef s.recHeap r ((s.vars.heap r).nRef + 1))
        (funext fun a => setNRef_elements s.recHeap r a ((s.vars.heap r).nRef + 1))).mpr ?_
      exact hshare
    · refine (h.sound.dead a ha).trans ?_
      by_cases har : a = r
      · subst har
        simp only [RecState.recHeap, Function.update_self]
        omega
      · simp only [RecState.recHeap, Function.update_of_ne har]
  case keys =>
    intro t ht
    rcases mem_tables_insert ht with ht | rfl
    · exact h.keys t ht
    · have htable := table_mem_tables hns
      refine nodup_cons.mpr ⟨fun hmem => ?_, h.keys _ htable⟩
      obtain ⟨p, hp, hkey⟩ := mem_map.mp hmem
      have hne := lookup_eq_none_iff.mp hnone p hp
      rw [hkey] at hne
      simp [VarPlace.key] at hne
  case arrayKeys =>
    intro a ha
    have hsame := setNRef_pHash s.recHeap r a ((s.vars.heap r).nRef + 1)
    simp only [insert_nextVar] at ha
    exact hsame ▸ h.arrayKeys a ha
  case exclusive =>
    intro a ha
    have hhash := setNRef_pHash s.recHeap r a ((s.vars.heap r).nRef + 1)
    have hdata := setNRef_zData s.recHeap r a ((s.vars.heap r).nRef + 1)
    simp only [insert_nextVar] at ha
    exact hhash ▸ hdata ▸ h.exclusive a ha
  case names => exact (h.names.insert r hns).congr rfl rfl

end

/-! ## Unset and the end of a frame -/

theorem freeAll_contents (s : RecState) (rs : List VarId) (a : VarId) :
    ((s.freeAll rs).vars.heap a).zData = (s.vars.heap a).zData ∧
      ((s.freeAll rs).vars.heap a).pHash = (s.vars.heap a).pHash :=
  foldl_sameContents (freeVariable_sameContents _) rs s.recHeap a

theorem freeAll_elements (s : RecState) (rs : List VarId) :
    (fun a => ((s.freeAll rs).vars.heap a).elements) = fun a => (s.vars.heap a).elements := by
  funext a
  rw [Variable.elements, (freeAll_contents s rs a).2, Variable.elements]

theorem freeEntries (h : RecInv s) (rs : List VarId) {s' : RecState}
    (hheap : s'.vars.heap = (s.freeAll rs).vars.heap)
    (hreleased : s'.released = (s.freeAll rs).released) (hnext : s'.vars.nextVar = s.vars.nextVar)
    (hnamespaces : s'.vars.namespaces = s.vars.namespaces)
    (hnsVars : s'.vars.nsVars = s.vars.nsVars)
    (hcount : ∀ n, (rs ++ s'.entries).count n = s.entries.count n)
    (htables : ∀ t ∈ s'.tables, ∃ t₀ ∈ s.tables, t.Sublist t₀) : RecInv s' := by
  have hcontents := freeAll_contents s rs
  have helements : (fun a => (s'.vars.heap a).elements) = fun a => (s.vars.heap a).elements := by
    rw [hheap, freeAll_elements]
  have hfree := (h.sound.perm hcount).freeAll fun r _ => Nat.zero_le r
  constructor
  case sound =>
    rw [hnext, helements]
    have hrec : s'.recHeap = rs.foldl (freeVariable s.vars.nextVar) s.recHeap := by
      simp only [RecState.recHeap, hheap, hreleased]
      rfl
    rw [hrec]
    exact hfree
  case keys =>
    intro t ht
    obtain ⟨t₀, ht₀, hsub⟩ := htables t ht
    exact (h.keys t₀ ht₀).sublist (hsub.map Prod.fst)
  case arrayKeys =>
    intro r hr
    rw [hheap, (hcontents r).2]
    exact h.arrayKeys r (hnext ▸ hr)
  case exclusive =>
    intro r hr
    rw [hheap, (hcontents r).1, (hcontents r).2]
    exact h.exclusive r (hnext ▸ hr)
  case names => exact h.names.congr hnamespaces hnsVars

/-- An element goes. -/
theorem unsetElement (h : RecInv s) {a e : VarId} {t : Table} {zInner : Bytes}
    (ha : a ∈ s.entries) (hhash : (s.vars.heap a).pHash = some t)
    (hlookup : t.lookup zInner = some e) :
    RecInv
      { s.freeAll [e] with
        vars := (s.freeAll [e]).vars.setHash a (t.filter fun p => p.1 != zInner) } := by
  obtain ⟨hlt, hpos⟩ := h.pos_of_mem ha
  have helements : (s.vars.heap a).elements = t.map Prod.snd := by
    rw [Variable.elements, hhash, Option.getD_some]
  have hkeys : (t.map Prod.fst).Nodup := by
    have hall := h.arrayKeys a hlt
    rwa [hhash] at hall
  have hdeeper : a < e := by
    refine h.sound.counted.deeper a hlt e ?_
    rw [helements]
    exact mem_map.mpr ⟨_, mem_of_lookup hlookup, rfl⟩
  have hcontents := freeAll_contents s [e]
  let rest := (t.filter fun p => p.1 != zInner).map Prod.snd
  have horphan : Counted s.vars.nextVar (fun b => (s.recHeap.heap b).nRef)
      (Function.update (fun b => (s.vars.heap b).elements) a rest) ([e] ++ s.entries) := by
    refine h.sound.counted.orphan hlt hpos fun n => ?_
    rw [helements]
    exact count_values_filter_key hkeys hlookup n
  have hsound : HeapSound s.vars.nextVar (a + 1) s.recHeap
      (Function.update (fun b => (s.vars.heap b).elements) a rest) ([e] ++ s.entries) [] := by
    refine ⟨horphan, fun b hb => ?_, h.sound.once, h.sound.known, h.sound.dead⟩
    exact Function.update_of_ne (Nat.ne_of_gt hb) _ _
  have hfree := hsound.freeAll fun r hr => by
    rw [mem_singleton.mp hr]
    exact hdeeper
  have hnew : (fun b => (((s.freeAll [e]).vars.setHash a
      (t.filter fun p => p.1 != zInner)).heap b).elements) =
      Function.update (fun b => (s.vars.heap b).elements) a rest := by
    rw [setHash_elements, freeAll_elements]
  constructor
  case sound =>
    refine ⟨?_, fun _ _ => rfl, hfree.once, hfree.known, fun r hr => ?_⟩
    · simp only [RecState.recHeap, hnew, setHash_nRef]
      exact hfree.counted
    · exact (hfree.dead r hr).trans
        (Eq.congr_left (congrFun (setHash_nRef (s.freeAll [e]).vars a _) r).symm)
  case keys => exact h.keys
  case arrayKeys =>
    intro r hr
    by_cases hra : r = a
    · subst hra
      have hsub := (filter_sublist (p := fun p : Bytes × VarId => p.1 != zInner)
        (l := t)).map Prod.fst
      simpa [VarState.setHash] using hkeys.sublist hsub
    · simp only [setHash_of_ne _ hra]
      rw [(hcontents r).2]
      exact h.arrayKeys r hr
  case exclusive =>
    intro r hr
    by_cases hra : r = a
    · subst hra
      simp only [setHash_zData]
      rw [(hcontents r).1]
      rintro ⟨hsome, -⟩
      exact h.exclusive r hr ⟨hsome, by rw [hhash]; rfl⟩
    · simp only [setHash_of_ne _ hra]
      rw [(hcontents r).1, (hcontents r).2]
      exact h.exclusive r hr
  case names => exact h.names.congr rfl rfl

theorem count_unlink (h : RecInv s) {inGlobal : Bool} {zOuter : Bytes}
    (hframe : inGlobal = false → s.vars.procFrames ≠ []) (hlookup : (if inGlobal then
      s.vars.globalFrame else s.vars.frameAt 0).lookup zOuter =
      some r) (n : VarId) :
    ((if 1 < (s.vars.heap r).nRef then sharedEntries s.vars inGlobal r else []) ++ [r]).count n +
        (((s.vars.unlink inGlobal zOuter r).1 ++ [(s.vars.unlink inGlobal zOuter r).2]).flatMap
          (List.map Prod.snd)).count n =
      (s.vars.frames.flatMap (List.map Prod.snd)).count n := by
  have helsewhere : ∀ ts : List Table,
      (if 1 < (s.vars.heap r).nRef then (ts.flatten.map Prod.snd).filter (· == r)
          else []).count n +
        ((ts.map fun t => if 1 < (s.vars.heap r).nRef then t.filter fun p => p.2 != r
          else t).flatMap (List.map Prod.snd)).count n =
      (ts.flatMap (List.map Prod.snd)).count n := by
    intro ts
    split_ifs
    · exact count_values_filter_record ts r n
    · simp
  have hhere : ∀ t ∈ s.tables, t.lookup zOuter = some r →
      [r].count n + ((t.filter fun p => p.1 != zOuter).map Prod.snd).count n =
        (t.map Prod.snd).count n := by
    intro t ht hr
    rw [← count_values_filter_key (h.keys t ht) hr n, ← count_append]
    rfl
  cases inGlobal with
  | true =>
    have hglobal := hhere s.vars.globalFrame (by simp [RecState.tables, frames]) hlookup
    have hothers := helsewhere s.vars.procFrames
    simp only [unlink, frames, sharedEntries, if_true,
      flatMap_append, count_append, flatMap_cons, flatMap_nil, append_nil]
    omega
  | false =>
    obtain ⟨f, callers, hstack⟩ := exists_cons_of_ne_nil (hframe rfl)
    have hf : s.vars.frameAt 0 = f := by simp [VarState.frameAt, hstack]
    have hlocal := hhere f (by simp [RecState.tables, frames, hstack]) (by simpa [hf] using hlookup)
    have hothers := helsewhere (callers ++ [s.vars.globalFrame])
    simp only [map_append, map_cons, map_nil, flatMap_append,
      count_append, flatMap_cons, flatMap_nil, append_nil] at hothers
    simp only [unlink, frames, sharedEntries, hstack,
      take_succ_cons, take_zero, drop_succ_cons, drop_zero,
      map_cons, map_nil, flatMap_append, count_append,
      flatMap_cons, flatMap_nil, append_nil, Bool.false_eq_true, if_false]
    omega

theorem sublist_unlink {inGlobal : Bool} {zOuter : Bytes} {t : Table}
    (ht : t ∈ (s.vars.unlink inGlobal zOuter r).1 ++ [(s.vars.unlink inGlobal zOuter r).2]) :
    ∃ t₀ ∈ s.vars.frames, t.Sublist t₀ := by
  have helsewhere : ∀ t₀ : Table, (if 1 < (s.vars.heap r).nRef then t₀.filter fun p => p.2 != r
      else t₀).Sublist t₀ := by
    intro t₀
    split_ifs
    · exact filter_sublist
    · exact List.Sublist.refl t₀
  have hglobal : s.vars.globalFrame ∈ s.vars.frames := by simp [frames]
  have hframes : ∀ t₀ ∈ s.vars.procFrames, t₀ ∈ s.vars.frames := fun t₀ ht₀ => mem_append_left _ ht₀
  cases inGlobal with
  | true =>
    simp only [unlink, if_true, mem_append, mem_map, mem_singleton] at ht
    rcases ht with ⟨t₀, ht₀, rfl⟩ | rfl
    · exact ⟨t₀, hframes t₀ ht₀, helsewhere t₀⟩
    · exact ⟨_, hglobal, filter_sublist⟩
  | false =>
    simp only [unlink, Bool.false_eq_true, if_false, mem_append, mem_map, mem_singleton] at ht
    rcases ht with (⟨t₀, ht₀, rfl⟩ | ⟨t₀, ht₀, rfl⟩) | rfl
    · exact ⟨t₀, hframes t₀ (mem_of_mem_take ht₀), filter_sublist⟩
    · exact ⟨t₀, hframes t₀ (mem_of_mem_drop ht₀), helsewhere t₀⟩
    · exact ⟨_, hglobal, helsewhere _⟩

section

variable (h : RecInv s)

include h

theorem unsetRec (zVar : Bytes) : RecInv (unsetRec s zVar) := by
  unfold Th8.unsetRec
  dsimp only
  set inGlobal := (analyzeVarName zVar).bGlobal || s.vars.procFrames.isEmpty with hinGlobal
  set t := if inGlobal then s.vars.globalFrame else s.vars.frameAt 0 with ht
  have htable : t ∈ s.tables := by
    rw [ht]
    split_ifs
    · simp [RecState.tables, frames]
    · have hns : s.vars.HasNs (.frame 0 []) := trivial
      exact table_mem_tables hns
  split
  · exact h
  · rename_i r zInner hlookup hinner
    split
    · exact h
    · rename_i pHash hhash
      split
      · exact h
      · rename_i e helem
        exact h.unsetElement (mem_entries htable hlookup) hhash helem
  · rename_i r hlookup hinner
    have hframe : inGlobal = false → s.vars.procFrames ≠ [] := by
      intro hfalse hnil
      rw [hinGlobal, hnil] at hfalse
      simp at hfalse
    refine h.freeEntries _ rfl rfl rfl rfl rfl (fun n => ?_) fun t' ht' => ?_
    · have hcount := h.count_unlink hframe hlookup n
      simp only [RecState.entries, RecState.tables, frames, flatMap_append,
        count_append] at hcount ⊢
      simp only [RecState.freeAll, RecState.withHeap]
      omega
    · simp only [RecState.tables, mem_append] at ht'
      rcases ht' with (ht' | ht') | ht'
      · obtain ⟨t₀, ht₀, hsub⟩ := sublist_unlink (s := s) ht'
        exact ⟨t₀, mem_append_left _ (mem_append_left _ ht₀), hsub⟩
      · exact ⟨t', mem_append_left _ (mem_append_right _ ht'), .refl t'⟩
      · exact ⟨t', mem_append_right _ ht', .refl t'⟩

theorem reframe {procFrames : List Table} {hidden : List (List Table)}
    (hcount : ∀ n, ((procFrames ++ hidden.flatten).flatMap (List.map Prod.snd)).count n =
      ((s.vars.procFrames ++ s.hidden.flatten).flatMap (List.map Prod.snd)).count n)
    (htables : ∀ t ∈ procFrames ++ hidden.flatten,
      t = [] ∨ t ∈ s.vars.procFrames ++ s.hidden.flatten) :
    RecInv
      { s with
        vars := { s.vars with procFrames := procFrames }
        hidden := hidden } := by
  refine h.freeEntries [] rfl rfl rfl rfl rfl (fun n => ?_) fun t ht => ?_
  · have hn := hcount n
    simp only [RecState.entries, RecState.tables, frames, flatMap_append,
      count_append, count_nil] at hn ⊢
    omega
  · simp only [RecState.tables, frames, mem_append] at ht htables ⊢
    rcases ht with ((ht | ht) | ht) | ht
    · rcases htables t (.inl ht) with rfl | ht
      · exact ⟨_, .inl (.inl (.inr (mem_singleton_self _))), nil_sublist _⟩
      · exact ⟨t, by tauto, .refl t⟩
    · exact ⟨t, by tauto, .refl t⟩
    · rcases htables t (.inr ht) with rfl | ht
      · exact ⟨_, .inl (.inl (.inr (mem_singleton_self _))), nil_sublist _⟩
      · exact ⟨t, by tauto, .refl t⟩
    · exact ⟨t, by tauto, .refl t⟩

theorem popRec : RecInv (popRec s) := by
  unfold Th8.popRec
  split
  · exact h
  · rename_i f callers hstack
    refine h.freeEntries _ rfl rfl rfl rfl rfl (fun n => ?_) fun t ht => ?_
    · simp only [RecState.entries, RecState.tables, frames, hstack,
        flatMap_append, count_append, flatMap_cons]
      simp only [RecState.freeAll, RecState.withHeap]
      omega
    · refine ⟨t, ?_, .refl t⟩
      simp only [RecState.tables, frames, hstack, mem_append, mem_cons] at ht ⊢
      tauto

theorem linkVar (zLocal : Bytes) (iFrame : ℤ) (zRemote : Bytes) :
    RecInv { s with vars := (linkVar s.vars zLocal iFrame zRemote).1 } := by
  rcases linkVar_cases s.vars zLocal iFrame zRemote with hsame | ⟨v, r, hcreate, hfind, hv⟩
  · rw [hsame]
    exact h
  · have hcreated := h.creation hcreate
    rcases hv with hv | ⟨hnone, hv⟩
    · rw [hv]
      exact hcreated
    · obtain ⟨hlt, hpos⟩ := hcreated.pos_of_findValueAt hfind
      rw [hv]
      exact hcreated.link hlt hpos hnone

theorem recStep (op : RecOp) : RecInv (recStep s op) := by
  cases op with
  | var op =>
    cases op with
    | secureCreate zVar value => exact h.written (secureVarCreate_written s.vars zVar value)
    | set zVar value => exact h.written (setVar_written s.vars zVar value)
    | append zVar args => exact h.written (appendVar_written s.vars zVar args)
    | link zLocal iFrame zRemote => exact h.linkVar zLocal iFrame zRemote
    | unset zVar => exact h.unsetRec zVar
    | push => exact h.reframe (fun n => by simp) fun t ht => by simpa [or_assoc] using ht
    | pop => exact h.popRec
  | enter n =>
    refine h.reframe (fun r => ?_) fun t ht => .inr ?_
    · conv_rhs => rw [← take_append_drop n s.vars.procFrames]
      simp only [flatten_cons, flatMap_append, count_append]
      omega
    · simp only [flatten_cons, mem_append] at ht ⊢
      rcases ht with ht | ht | ht
      · exact .inl (mem_of_mem_drop ht)
      · exact .inl (mem_of_mem_take ht)
      · exact .inr ht
  | leave =>
    simp only [Th8.recStep]
    split
    · exact h
    · rename_i inner hidden hstack
      refine h.reframe (fun r => ?_) fun t ht => .inr ?_
      · simp only [hstack, flatten_cons, flatMap_append, count_append]
        omega
      · simp only [hstack, flatten_cons, mem_append] at ht ⊢
        tauto

theorem recordsSound : RecordsSound s := by
  have hdead : ∀ r < s.vars.nextVar, r ∈ s.released ↔ (s.vars.heap r).nRef = 0 := h.sound.dead
  have hslots : s.slots = s.entries ++ nested s.vars.nextVar
      (fun r => (s.vars.heap r).nRef) fun r => (s.vars.heap r).elements := by
    refine congrArg _ (flatMap_congr fun r hr => ?_)
    simp only [hdead r (mem_range.mp hr)]
  refine ⟨fun r hr _ => ?_, fun r hr => ?_, hdead, h.sound.once, h.exclusive⟩
  · rw [hslots]
    exact (h.sound.counted.counted r hr).symm
  · rw [hslots] at hr
    obtain ⟨hlt, hpos⟩ := h.sound.counted.pos hr
    exact ⟨hlt, fun hmem => Nat.ne_of_gt hpos ((hdead r hlt).mp hmem)⟩

end

end RecInv

/-- In every run of sets, appends, unsets, links and frames the reference counts are right
and nothing leads to a released record. -/
theorem recordsSound_of_reachable {s : RecState} (hs : Reachable recStep RecState.init s) :
    RecordsSound s :=
  (hs.invariant recInv_init fun _ op h _ => h.recStep op).recordsSound

/-- A procedure links a local name to an element of a global array and makes an array of
it; the global array is unset before the procedure ends. -/
theorem recordsSound_linkedElement :
    RecordsSound
      ([RecOp.var (.set (ascii "a(k)") (TString.plain (ascii "v"))), .var .push,
        .var (.link (ascii "x") 0 (ascii "a(m)")),
        .var (.set (ascii "x(n)") (TString.plain (ascii "w"))), .var (.unset (ascii "::a")),
        .var .pop].foldl recStep RecState.init) :=
  recordsSound_of_reachable (reachable_foldl _ _ _)

end Th8
