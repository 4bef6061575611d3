import Th8.Variables.Store

/-!
# The invariant of secure variables

What it means that the metadata of secure variables and the records agree, that
reading is right wherever they do, and that entries may go and plain records may
be created as long as no name the metadata knows is used for them.
-/

namespace Th8

open List Nat

open Function (update update_of_ne update_self)
open VarState (frameAt frames outer table)

/-- Every name that leads to a scalar record reads the bytes last written to the
record; they are decrypted exactly when the record is one that
`th8SecureVarCreate` made, and then the record itself holds none of them. -/
def ReadsAsWritten (s : VarState) : Prop :=
  ∀ zVar r, findValue s zVar = some r → (s.heap r).pHash = none →
    (∃ res, getVar s zVar = .ok res ∧ res.value.bytes = s.written r ∧ res.decrypted = s.secured r) ∧
    (s.secured r = true → (s.heap r).bytes = [])

namespace VarState

def Entry (s : VarState) (k : Bytes) (r : VarId) : Prop :=
  ∃ f ∈ s.frames, (k, r) ∈ f

def Outside (s : VarState) (r : VarId) : Prop :=
  (∃ k, (k, r) ∈ s.globalFrame) ∨ (∃ p k, (k, r) ∈ s.nsVars p) ∨
    ∃ a t k, (s.heap a).pHash = some t ∧ (k, r) ∈ t

end VarState

structure SecureInv (s : VarState) : Prop where
  name_secure : ∀ {k r}, s.Entry k r → (s.paSecure k).isSome = s.secured r
  value : ∀ {k r}, s.Entry k r → s.secured r = true → s.paSecure k = some (s.written r)
  same_record : ∀ {k r r'}, s.Entry k r → s.Entry k r' → s.secured r = true → r = r'
  same_name : ∀ {k k' r}, s.Entry k r → s.Entry k' r → s.secured r = true → k = k'
  outside_plain : ∀ {r}, s.Outside r → s.secured r = false
  spelled : ∀ {k}, (s.paSecure k).isSome = true → hasGlobalPrefix k = false ∧ chOpenParen ∉ k
  sentinel : ∀ {r}, s.secured r = true →
    (s.heap r).bytes = [] ∧ (s.heap r).zData.isSome = true ∧ (s.heap r).pHash = none ∧
      (s.heap r).bBorrowed = false
  plain : ∀ {r}, s.secured r = false → (s.heap r).bytes = s.written r
  borrowed : ∀ {r}, (s.heap r).bBorrowed = true → (s.heap r).zData.isSome = true
  fresh : ∀ {r}, s.nextVar ≤ r → s.secured r = false ∧ s.written r = [] ∧ (s.heap r).pHash = none
  entry_lt : ∀ {k r}, s.Entry k r → r < s.nextVar
  outside_lt : ∀ {r}, s.Outside r → r < s.nextVar

theorem secureInv_init : SecureInv VarState.init where
  name_secure h := by simp [VarState.Entry, frames, VarState.init] at h
  value h := by simp [VarState.Entry, frames, VarState.init] at h
  same_record h := by simp [VarState.Entry, frames, VarState.init] at h
  same_name h := by simp [VarState.Entry, frames, VarState.init] at h
  outside_plain _ := rfl
  spelled h := by simp [VarState.init] at h
  sentinel h := by simp [VarState.init] at h
  plain _ := rfl
  borrowed h := by simp [VarState.init, Variable.new] at h
  fresh _ := ⟨rfl, rfl, rfl⟩
  entry_lt h := by simp [VarState.Entry, frames, VarState.init] at h
  outside_lt h := by simp [VarState.Outside, VarState.init, Variable.new] at h

/-! ## Names that are resolved -/

theorem mem_of_lookup {t : Table} {k : Bytes} {r : VarId} (h : t.lookup k = some r) :
    (k, r) ∈ t := by
  induction t with
  | nil => cases h
  | cons p t ih =>
    obtain ⟨k', r'⟩ := p
    rw [lookup_cons] at h
    by_cases hk : k == k'
    · simp only [hk] at h
      cases h
      rw [eq_of_beq hk]
      exact mem_cons_self
    · simp only [hk] at h
      exact mem_cons_of_mem _ (ih h)

theorem frameAt_mem (s : VarState) (up : ℕ) : s.frameAt up ∈ s.frames := by
  unfold frameAt frames
  cases h : s.procFrames[up]? with
  | none => simp
  | some f => simpa using .inl (mem_of_getElem? h)

theorem entry_of_global {s : VarState} {k : Bytes} {r : VarId}
    (h : (k, r) ∈ s.globalFrame) : s.Entry k r :=
  ⟨s.globalFrame, by simp [frames], h⟩

theorem splitSubscript_of_notMem {z : Bytes} (h : chOpenParen ∉ z) :
    splitSubscript z = (z, none) := by
  simp [splitSubscript, h]

theorem openParen_mem_of_zInner {zVar zInner : Bytes}
    (h : (analyzeVarName zVar).zInner = some zInner) : chOpenParen ∈ zVar := by
  by_contra hmem
  have hdrop : chOpenParen ∉ zVar.drop 2 := fun h' => hmem (mem_of_mem_drop h')
  have hnone : (analyzeVarName zVar).zInner = none := by
    unfold analyzeVarName
    dsimp only
    split_ifs
    · rw [splitSubscript_of_notMem hdrop]
    · rw [splitSubscript_of_notMem hmem]
  rw [hnone] at h
  cases h

theorem analyzeVarName_local {zVar : Bytes} (hhead : hasGlobalPrefix zVar = false)
    (hparen : chOpenParen ∉ zVar) : analyzeVarName zVar = ⟨false, zVar, none⟩ := by
  simp [analyzeVarName, hhead, splitSubscript_of_notMem hparen]

theorem findValueAt_cases {s : VarState} {up : ℕ} {zVar : Bytes} {r : VarId}
    (h : findValueAt s up zVar = some r) :
    s.Entry zVar r ∨ (s.Outside r ∧ (hasGlobalPrefix zVar = true ∨ chOpenParen ∈ zVar)) := by
  unfold findValueAt at h
  dsimp only at h
  cases houter : s.outer (varPlace up (analyzeVarName zVar)) with
  | none => simp [houter] at h
  | some a =>
    cases hinner : (analyzeVarName zVar).zInner with
    | some zInner =>
      rw [houter, hinner] at h
      cases hhash : (s.heap a).pHash with
      | none => simp [hhash] at h
      | some t =>
        have hlookup : t.lookup zInner = some r := by simpa [hhash] using h
        exact .inr ⟨.inr (.inr ⟨a, t, zInner, hhash, mem_of_lookup hlookup⟩),
          .inr (openParen_mem_of_zInner hinner)⟩
    | none =>
      rw [houter, hinner] at h
      cases h
      by_cases hhead : hasGlobalPrefix zVar = true
      · refine .inr ⟨?_, .inl hhead⟩
        have hglobal : (analyzeVarName zVar).bGlobal = true := hhead
        simp only [varPlace, hglobal, Bool.not_true, Bool.false_eq_true, if_false] at houter
        split at houter
        · exact .inr (.inl ⟨_, _, mem_of_lookup houter⟩)
        · exact .inl ⟨_, mem_of_lookup houter⟩
      · have hsub : splitSubscript zVar = (zVar, none) := by
          have hnone : (splitSubscript zVar).2 = none := by
            simpa [analyzeVarName, hhead] using hinner
          unfold splitSubscript at hnone ⊢
          split_ifs at hnone ⊢
          rfl
        have hname : analyzeVarName zVar = ⟨false, zVar, none⟩ := by
          simp [analyzeVarName, hhead, hsub]
        rw [hname] at houter
        exact .inl ⟨s.frameAt up, frameAt_mem s up, mem_of_lookup houter⟩

theorem SecureInv.isSecureVar_eq {s : VarState} (h : SecureInv s) {zVar : Bytes}
    {r : VarId} (hfind : findValue s zVar = some r) :
    isSecureVar s zVar = s.secured r := by
  rcases findValueAt_cases hfind with hentry | ⟨houtside, hspelled⟩
  · exact h.name_secure hentry
  · rw [h.outside_plain houtside]
    by_contra hsecure
    obtain ⟨hhead, hparen⟩ := h.spelled (Bool.of_not_eq_false hsecure)
    rcases hspelled with hglobal | hmem
    · rw [hhead] at hglobal
      cases hglobal
    · exact hparen hmem

theorem SecureInv.entry_of_secured {s : VarState} (h : SecureInv s) {zVar : Bytes}
    {r : VarId} (hfind : findValue s zVar = some r) (hsecured : s.secured r = true) :
    s.Entry zVar r := by
  rcases findValueAt_cases hfind with hentry | ⟨houtside, -⟩
  · exact hentry
  · rw [h.outside_plain houtside] at hsecured
    cases hsecured

theorem getVar_of_findValue {s : VarState} {zVar : Bytes} {r : VarId}
    (hfind : findValue s zVar = some r) (hscalar : (s.heap r).pHash = none) :
    getVar s zVar = .ok (match s.paSecure zVar with
      | some zPlain => ⟨⟨zPlain, ⟨false, true⟩⟩, true⟩
      | none => ⟨(s.heap r).zData.getD (TString.plain []), false⟩) := by
  unfold getVar
  simp only [hfind, hscalar, Option.isSome_none, Bool.false_eq_true, if_false]
  cases s.paSecure zVar <;> rfl

theorem SecureInv.readsAsWritten {s : VarState} (h : SecureInv s) : ReadsAsWritten s := by
  intro zVar r hfind hscalar
  refine ⟨⟨_, getVar_of_findValue hfind hscalar, ?_⟩, fun hs => (h.sentinel hs).1⟩
  have heq := h.isSecureVar_eq hfind
  cases hsecured : s.secured r with
  | true =>
    have hvalue := h.value (h.entry_of_secured hfind hsecured) hsecured
    simp [hvalue]
  | false =>
    have hnone : s.paSecure zVar = none := by
      simpa [isSecureVar, hsecured] using heq
    have hplain := h.plain hsecured
    simp only [hnone, and_true]
    rw [← hplain, Variable.bytes]
    cases (s.heap r).zData <;> rfl

/-! ## Entries that come and go -/

def Variable.SameData (v' v : Variable) : Prop :=
  v'.zData = v.zData ∧ v'.bBorrowed = v.bBorrowed

theorem Variable.SameData.refl (v : Variable) : v.SameData v := ⟨rfl, rfl⟩

theorem Variable.SameData.bytes_eq {v' v : Variable} (h : v'.SameData v) : v'.bytes = v.bytes := by
  rw [Variable.bytes, Variable.bytes, h.1]

/-- Entries may go, and entries of plain records may be added under names that the
metadata does not know. -/
theorem SecureInv.change {s s' : VarState} (h : SecureInv s)
    (hsecure : s'.paSecure = s.paSecure) (hsecured : s'.secured = s.secured)
    (hwritten : s'.written = s.written) (hnext : s.nextVar = s'.nextVar)
    (hheap : ∀ r, (s'.heap r).SameData (s.heap r))
    (hhash : ∀ r, s.secured r = true ∨ s.nextVar ≤ r → (s.heap r).pHash = none →
      (s'.heap r).pHash = none)
    (hentry : ∀ k r, s'.Entry k r → s.Entry k r ∨
      (s.secured r = false ∧ r < s.nextVar ∧ s.paSecure k = none))
    (houtside : ∀ r, s'.Outside r → s.Outside r ∨
      (s.secured r = false ∧ r < s.nextVar)) : SecureInv s' := by
  have hold : ∀ {k r}, s'.Entry k r → s.secured r = true → s.Entry k r := by
    intro k r hk hs
    rcases hentry k r hk with hk | ⟨hplain, -⟩
    · exact hk
    · rw [hs] at hplain
      cases hplain
  constructor
  case name_secure =>
    intro k r hk
    rw [hsecure, hsecured]
    rcases hentry k r hk with hk | ⟨hplain, -, hnone⟩
    · exact h.name_secure hk
    · rw [hplain, hnone]
      rfl
  case value =>
    intro k r hk hs
    rw [hsecured] at hs
    rw [hsecure, hwritten]
    exact h.value (hold hk hs) hs
  case same_record =>
    intro k r r' hk hk' hs
    rw [hsecured] at hs
    rcases hentry k r' hk' with hk' | ⟨-, -, hnone⟩
    · exact h.same_record (hold hk hs) hk' hs
    · have hsome := h.name_secure (hold hk hs)
      rw [hnone, hs] at hsome
      cases hsome
  case same_name =>
    intro k k' r hk hk' hs
    rw [hsecured] at hs
    exact h.same_name (hold hk hs) (hold hk' hs) hs
  case outside_plain =>
    intro r ho
    rw [hsecured]
    exact (houtside r ho).elim h.outside_plain And.left
  case spelled => exact fun hk => h.spelled (hsecure ▸ hk)
  case sentinel =>
    intro r hs
    rw [hsecured] at hs
    obtain ⟨hbytes, hsome, hnone, hborrowed⟩ := h.sentinel hs
    have hsame := hheap r
    exact ⟨by rw [hsame.bytes_eq, hbytes], by rw [hsame.1, hsome],
      hhash r (.inl hs) hnone, by rw [hsame.2, hborrowed]⟩
  case plain =>
    intro r hs
    rw [(hheap r).bytes_eq, hwritten]
    exact h.plain (hsecured ▸ hs)
  case borrowed =>
    intro r hb
    rw [(hheap r).1]
    exact h.borrowed ((hheap r).2 ▸ hb)
  case fresh =>
    intro r hr
    rw [← hnext] at hr
    obtain ⟨hplain, hempty, hnone⟩ := h.fresh hr
    exact ⟨hsecured ▸ hplain, hwritten ▸ hempty, hhash r (.inr hr) hnone⟩
  case entry_lt =>
    intro k r hk
    rw [← hnext]
    exact (hentry k r hk).elim h.entry_lt fun hnew => hnew.2.1
  case outside_lt =>
    intro r ho
    rw [← hnext]
    exact (houtside r ho).elim h.outside_lt And.right

theorem SecureInv.mono {s s' : VarState} (h : SecureInv s)
    (hsecure : s'.paSecure = s.paSecure) (hsecured : s'.secured = s.secured)
    (hwritten : s'.written = s.written) (hnext : s.nextVar = s'.nextVar)
    (hheap : ∀ r, (s'.heap r).SameData (s.heap r))
    (hhash : ∀ r, (s.heap r).pHash = none → (s'.heap r).pHash = none)
    (hentry : ∀ k r, s'.Entry k r → s.Entry k r)
    (houtside : ∀ r, s'.Outside r → s.Outside r) : SecureInv s' :=
  h.change hsecure hsecured hwritten hnext hheap (fun r _ => hhash r)
    (fun k r hk => .inl (hentry k r hk)) fun r ho => .inl (houtside r ho)

theorem decRef_sameData (heap : VarId → Variable) (a r : VarId) :
    (decRef heap a r).SameData (heap r) ∧ (decRef heap a r).pHash = (heap r).pHash := by
  unfold decRef
  by_cases hr : r = a
  · subst hr
    simp [Variable.SameData]
  · simp [update_of_ne hr, Variable.SameData.refl]

theorem foldl_decRef_sameData (rs : List VarId) (heap : VarId → Variable) (r : VarId) :
    (rs.foldl decRef heap r).SameData (heap r) ∧
      (rs.foldl decRef heap r).pHash = (heap r).pHash := by
  induction rs generalizing heap with
  | nil => exact ⟨Variable.SameData.refl _, rfl⟩
  | cons a rs ih =>
    obtain ⟨⟨hdata, hborrowed⟩, heq⟩ := ih (decRef heap a)
    obtain ⟨⟨hdata', hborrowed'⟩, heq'⟩ := decRef_sameData heap a r
    exact ⟨⟨hdata.trans hdata', hborrowed.trans hborrowed'⟩, heq.trans heq'⟩

theorem VarState.Outside.of_pHash_eq {s s' : VarState} {r : VarId} (h : s'.Outside r)
    (hglobal : ∀ x ∈ s'.globalFrame, x ∈ s.globalFrame) (hns : s'.nsVars = s.nsVars)
    (hhash : ∀ a, (s'.heap a).pHash = (s.heap a).pHash) : s.Outside r := by
  rcases h with ⟨k, hk⟩ | ho | ⟨a, t, k, ht, hk⟩
  · exact .inl ⟨k, hglobal _ hk⟩
  · exact .inr (.inl (hns ▸ ho))
  · exact .inr (.inr ⟨a, t, k, hhash a ▸ ht, hk⟩)

theorem SecureInv.pushFrame {s : VarState} (h : SecureInv s) : SecureInv (pushFrame s) := by
  refine h.mono rfl rfl rfl rfl (fun _ => .refl _) (fun _ hr => hr) ?_ fun _ ho => ho
  rintro k r ⟨f, hf, hk⟩
  simp only [frames, Th8.pushFrame, cons_append, mem_cons] at hf
  rcases hf with rfl | hf
  · cases hk
  · exact ⟨f, hf, hk⟩

theorem SecureInv.popFrame {s : VarState} (h : SecureInv s) : SecureInv (popFrame s) := by
  unfold Th8.popFrame
  cases hframes : s.procFrames with
  | nil => exact h
  | cons f callers =>
    have hheap := foldl_decRef_sameData (f.map Prod.snd) s.heap
    refine h.mono rfl rfl rfl rfl (fun r => (hheap r).1) (fun r hr => (hheap r).2.trans hr) ?_ ?_
    · rintro k r ⟨f', hf', hk⟩
      refine ⟨f', ?_, hk⟩
      simp only [frames, hframes, cons_append, mem_cons] at hf' ⊢
      exact .inr hf'
    · exact fun r ho => ho.of_pHash_eq (fun _ hx => hx) rfl fun a => (hheap a).2

theorem mem_of_mem_filterIf {c : Prop} [Decidable c] {p : Bytes × VarId → Bool}
    {t : Table} {x : Bytes × VarId} (h : x ∈ if c then t.filter p else t) : x ∈ t := by
  split_ifs at h
  · exact mem_of_mem_filter h
  · exact h

theorem mem_unlink (s : VarState) (inGlobal : Bool) (zOuter : Bytes) (a : VarId) :
    (∀ f ∈ (s.unlink inGlobal zOuter a).1, ∃ f' ∈ s.procFrames, ∀ x ∈ f, x ∈ f') ∧
      ∀ x ∈ (s.unlink inGlobal zOuter a).2, x ∈ s.globalFrame := by
  unfold VarState.unlink
  cases inGlobal with
  | true =>
    simp only [if_true, mem_map]
    refine ⟨?_, fun x hx => mem_of_mem_filter hx⟩
    rintro f ⟨f', hf', rfl⟩
    exact ⟨f', hf', fun x hx => mem_of_mem_filterIf hx⟩
  | false =>
    simp only [Bool.false_eq_true, if_false, mem_append, mem_map]
    refine ⟨?_, fun x hx => mem_of_mem_filterIf hx⟩
    rintro f (⟨f', hf', rfl⟩ | ⟨f', hf', rfl⟩)
    · exact ⟨f', mem_of_mem_take hf', fun x hx => mem_of_mem_filter hx⟩
    · exact ⟨f', mem_of_mem_drop hf', fun x hx => mem_of_mem_filterIf hx⟩

theorem SecureInv.setHash {s : VarState} (h : SecureInv s) {a : VarId} {t : Table}
    (hplain : s.secured a = false) (hlt : a < s.nextVar)
    (ht : ∀ k r, (k, r) ∈ t → s.Outside r ∨ (s.secured r = false ∧ r < s.nextVar)) :
    SecureInv (s.setHash a t) := by
  have hne : ∀ {r}, r ≠ a → (s.setHash a t).heap r = s.heap r := fun hr => by
    simp [VarState.setHash, update_of_ne hr]
  refine h.change rfl rfl rfl rfl ?_ ?_ (fun k r hk => .inl hk) ?_
  · intro r
    by_cases hr : r = a
    · subst hr
      simp [VarState.setHash, Variable.SameData]
    · rw [hne hr]
      exact .refl _
  · intro r hr hnone
    have hra : r ≠ a := by
      rintro rfl
      rcases hr with hs | hge
      · rw [hplain] at hs
        cases hs
      · exact Nat.not_lt_of_le hge hlt
    rw [hne hra, hnone]
  · rintro r (ho | ho | ⟨b, t', k, ht', hk⟩)
    · exact .inl (.inl ho)
    · exact .inl (.inr (.inl ho))
    · by_cases hb : b = a
      · subst hb
        simp only [VarState.setHash, update_self, Option.some.injEq] at ht'
        subst ht'
        exact ht k r hk
      · rw [hne hb] at ht'
        exact .inl (.inr (.inr ⟨b, t', k, ht', hk⟩))

theorem SecureInv.decRef {s : VarState} (h : SecureInv s) (a : VarId) :
    SecureInv { s with heap := decRef s.heap a } := by
  have hdec := decRef_sameData s.heap a
  exact h.mono rfl rfl rfl rfl (fun r => (hdec r).1) (fun r hr => (hdec r).2.trans hr)
    (fun _ _ hk => hk) fun r ho => ho.of_pHash_eq (fun _ hx => hx) rfl fun b => (hdec b).2

theorem SecureInv.plain_of_pHash {s : VarState} (h : SecureInv s) {a : VarId} {t : Table}
    (hhash : (s.heap a).pHash = some t) : s.secured a = false ∧ a < s.nextVar := by
  constructor
  · by_contra hs
    have hnone := (h.sentinel (Bool.of_not_eq_false hs)).2.2.1
    rw [hhash] at hnone
    cases hnone
  · by_contra hge
    have hnone := (h.fresh (Nat.le_of_not_lt hge)).2.2
    rw [hhash] at hnone
    cases hnone

theorem SecureInv.unsetVar {s : VarState} (h : SecureInv s) (zVar : Bytes) :
    SecureInv (unsetVar s zVar).1 := by
  unfold Th8.unsetVar
  dsimp only
  split
  · exact h
  · rename_i a zInner _ _
    cases hhash : (s.heap a).pHash with
    | none => exact h
    | some t =>
      dsimp only
      cases helem : t.lookup zInner with
      | none => exact h
      | some e =>
        obtain ⟨hplain, hlt⟩ := h.plain_of_pHash hhash
        refine (h.decRef e).setHash hplain hlt fun k r hk => .inl (.inr (.inr ?_))
        exact ⟨a, t, k, (decRef_sameData s.heap e a).2.trans hhash, mem_of_mem_filter hk⟩
  · rename_i a _ _
    obtain ⟨hproc, hglobal⟩ := mem_unlink s ((analyzeVarName zVar).bGlobal || s.procFrames.isEmpty)
      (analyzeVarName zVar).zOuter a
    -- Apart from the frames only the reference count changes.
    refine h.mono rfl rfl rfl rfl ?_ ?_ ?_ ?_
    · intro r
      by_cases hr : r = a
      · subst hr
        simp [Variable.SameData]
      · simp [update_of_ne hr, Variable.SameData.refl]
    · intro r hnone
      by_cases hr : r = a
      · subst hr
        simpa using hnone
      · simpa [update_of_ne hr] using hnone
    · rintro k r ⟨f, hf, hk⟩
      simp only [frames, mem_append, mem_singleton] at hf
      rcases hf with hf | rfl
      · obtain ⟨f', hf', hsub⟩ := hproc f hf
        exact ⟨f', mem_append_left _ hf', hsub _ hk⟩
      · exact entry_of_global (hglobal _ hk)
    · refine fun r ho => ho.of_pHash_eq hglobal rfl fun b => ?_
      by_cases hb : b = a
      · subst hb
        simp
      · simp [update_of_ne hb]

/-! ## Creation -/

theorem SecureInv.alloc {s : VarState} (h : SecureInv s) : SecureInv s.alloc.1 := by
  have hne : ∀ {r}, r ≠ s.nextVar → s.alloc.1.heap r = s.heap r := fun hr => by
    simp [VarState.alloc, update_of_ne hr]
  have hself : s.alloc.1.heap s.nextVar = Variable.new := by simp [VarState.alloc]
  have houtside : ∀ {r}, s.alloc.1.Outside r → s.Outside r := by
    rintro r (ho | ho | ⟨a, t, k, ht, hk⟩)
    · exact .inl ho
    · exact .inr (.inl ho)
    · by_cases ha : a = s.nextVar
      · rw [ha, hself] at ht
        cases ht
      · exact .inr (.inr ⟨a, t, k, hne ha ▸ ht, hk⟩)
  obtain ⟨hplain, hempty, -⟩ := h.fresh (le_refl s.nextVar)
  exact
    { name_secure := h.name_secure
      value := h.value
      same_record := h.same_record
      same_name := h.same_name
      outside_plain := fun ho => h.outside_plain (houtside ho)
      spelled := h.spelled
      sentinel := by
        intro r hs
        have hr : r ≠ s.nextVar := by
          rintro rfl
          rw [show s.alloc.1.secured s.nextVar = s.secured s.nextVar from rfl, hplain] at hs
          cases hs
        rw [hne hr]
        exact h.sentinel hs
      plain := by
        intro r hs
        by_cases hr : r = s.nextVar
        · subst hr
          rw [hself]
          exact hempty.symm
        · rw [hne hr]
          exact h.plain hs
      borrowed := by
        intro r hb
        by_cases hr : r = s.nextVar
        · rw [hr, hself] at hb
          cases hb
        · rw [hne hr] at hb ⊢
          exact h.borrowed hb
      fresh := by
        intro r hr
        have hlt : s.nextVar < r := hr
        rw [hne (ne_of_gt hlt)]
        exact h.fresh hlt.le
      entry_lt := fun hk => lt_succ_of_lt (h.entry_lt hk)
      outside_lt := fun ho => lt_succ_of_lt (h.outside_lt (houtside ho)) }

def VarPlace.frameKey : VarPlace → Option Bytes
  | .frame _ key | .global key => some key
  | .ns _ _ => none

theorem entry_insert {s : VarState} {a r : VarId} {place : VarPlace} {k : Bytes}
    (h : (s.insert a place).Entry k r) :
    s.Entry k r ∨ (r = a ∧ place.frameKey = some k) := by
  obtain ⟨f, hf, hk⟩ := h
  have hcons : ∀ {t : Table} {key : Bytes}, t ∈ s.frames → (k, r) ∈ (key, a) :: t →
      s.Entry k r ∨ (r = a ∧ some key = some k) := by
    intro t key ht hmem
    rcases mem_cons.mp hmem with heq | hmem
    · cases heq
      exact .inr ⟨rfl, rfl⟩
    · exact .inl ⟨t, ht, hmem⟩
  have hglobal : s.globalFrame ∈ s.frames := by simp [frames]
  cases place with
  | frame up key =>
    unfold VarState.insert at hf
    dsimp only at hf
    split_ifs at hf
    · simp only [frames, mem_append, mem_singleton] at hf
      rcases hf with hf | rfl
      · rcases mem_or_eq_of_mem_set hf with hf | rfl
        · exact .inl ⟨f, mem_append_left _ hf, hk⟩
        · exact hcons (frameAt_mem s up) hk
      · exact .inl ⟨_, hglobal, hk⟩
    · simp only [frames, mem_append, mem_singleton] at hf
      rcases hf with hf | rfl
      · exact .inl ⟨f, mem_append_left _ hf, hk⟩
      · exact hcons hglobal hk
  | global key =>
    simp only [VarState.insert, frames, mem_append, mem_singleton] at hf
    rcases hf with hf | rfl
    · exact .inl ⟨f, mem_append_left _ hf, hk⟩
    · exact hcons hglobal hk
  | ns path key => exact .inl ⟨f, hf, hk⟩

section Insert

variable (s : VarState) (a : VarId) (place : VarPlace)

@[simp] theorem insert_heap : (s.insert a place).heap = s.heap := by
  cases place <;> simp only [VarState.insert]
  split_ifs <;> rfl

@[simp] theorem insert_paSecure : (s.insert a place).paSecure = s.paSecure := by
  cases place <;> simp only [VarState.insert]
  split_ifs <;> rfl

@[simp] theorem insert_secured : (s.insert a place).secured = s.secured := by
  cases place <;> simp only [VarState.insert]
  split_ifs <;> rfl

@[simp] theorem insert_written : (s.insert a place).written = s.written := by
  cases place <;> simp only [VarState.insert]
  split_ifs <;> rfl

@[simp] theorem insert_nextVar : (s.insert a place).nextVar = s.nextVar := by
  cases place <;> simp only [VarState.insert]
  split_ifs <;> rfl

@[simp] theorem outer_insert : (s.insert a place).outer place = some a := by
  cases place with
  | frame up key =>
    simp only [VarState.insert, outer, table, VarPlace.key]
    split_ifs with hup
    · simp [frameAt, hup]
    · simp [frameAt, hup]
  | global key => simp [VarState.insert, outer, table, VarPlace.key]
  | ns path key => simp [VarState.insert, outer, table, VarPlace.key]

end Insert

theorem outside_insert {s : VarState} {a r : VarId} {place : VarPlace}
    (h : (s.insert a place).Outside r) : s.Outside r ∨ r = a := by
  rcases h with ⟨k, hk⟩ | ⟨p, k, hk⟩ | ho
  · cases place with
    | frame up key =>
      simp only [VarState.insert] at hk
      split_ifs at hk
      · exact .inl (.inl ⟨k, hk⟩)
      · rcases mem_cons.mp hk with heq | hk
        · exact .inr (Prod.mk.inj heq).2
        · exact .inl (.inl ⟨k, hk⟩)
    | global key =>
      rcases mem_cons.mp hk with heq | hk
      · exact .inr (Prod.mk.inj heq).2
      · exact .inl (.inl ⟨k, hk⟩)
    | ns path key => exact .inl (.inl ⟨k, hk⟩)
  · cases place with
    | frame up key =>
      simp only [VarState.insert] at hk
      split_ifs at hk <;> exact .inl (.inr (.inl ⟨p, k, hk⟩))
    | global key => exact .inl (.inr (.inl ⟨p, k, hk⟩))
    | ns path key =>
      simp only [VarState.insert, Function.update_apply] at hk
      split_ifs at hk with hp
      · rcases mem_cons.mp hk with heq | hk
        · exact .inr (Prod.mk.inj heq).2
        · exact .inl (.inr (.inl ⟨path, k, hk⟩))
      · exact .inl (.inr (.inl ⟨p, k, hk⟩))
  · exact .inl (.inr (.inr (insert_heap s a place ▸ ho)))

theorem SecureInv.insert {s : VarState} (h : SecureInv s) {a : VarId} {place : VarPlace}
    (hplain : s.secured a = false) (hlt : a < s.nextVar)
    (hkey : ∀ k, place.frameKey = some k → s.paSecure k = none) :
    SecureInv (s.insert a place) := by
  refine h.change (by simp) (by simp) (by simp) (by simp) (fun r => ?_) (fun r _ hr => ?_) ?_ ?_
  · simp [Variable.SameData.refl]
  · simpa using hr
  · intro k r hk
    rcases entry_insert hk with hk | ⟨rfl, hframe⟩
    · exact .inl hk
    · exact .inr ⟨hplain, hlt, hkey k hframe⟩
  · intro r ho
    rcases outside_insert ho with ho | rfl
    · exact .inl ho
    · exact .inr ⟨hplain, hlt⟩

def FreshNamePlain (s : VarState) (up : ℕ) (zVar : Bytes) : Prop :=
  s.outer (varPlace up (analyzeVarName zVar)) = none →
    ∀ k, (varPlace up (analyzeVarName zVar)).frameKey = some k → s.paSecure k = none

theorem ensureNs_eq {s s₁ : VarState} {place : VarPlace}
    (h : s.ensureNs place = some s₁) : ∃ ns, s₁ = { s with namespaces := ns } := by
  cases place with
  | frame up key => exact ⟨s.namespaces, (Option.some.inj h).symm⟩
  | global key => exact ⟨s.namespaces, (Option.some.inj h).symm⟩
  | ns path key =>
    unfold VarState.ensureNs at h
    dsimp only at h
    split_ifs at h <;> cases h <;> exact ⟨_, rfl⟩

theorem createOuter_cases {s s' : VarState} {place : VarPlace} {r : VarId}
    (h : s.createOuter place = some (s', r)) :
    ∃ ns, (s.outer place = some r ∧ s' = { s with namespaces := ns }) ∨
      (s.outer place = none ∧ r = s.nextVar ∧
        s' = ({ s with namespaces := ns }.alloc.1).insert s.nextVar place) := by
  unfold VarState.createOuter at h
  cases hns : s.ensureNs place with
  | none => simp [hns] at h
  | some s₁ =>
    obtain ⟨ns, rfl⟩ := ensureNs_eq hns
    have houter : { s with namespaces := ns }.outer place = s.outer place := by
      cases place <;> rfl
    refine ⟨ns, ?_⟩
    simp only [hns, Option.map_some, Option.some.injEq] at h
    rw [houter] at h
    cases hfound : s.outer place with
    | some a =>
      rw [hfound] at h
      cases h
      exact .inl ⟨rfl, rfl⟩
    | none =>
      rw [hfound] at h
      cases h
      exact .inr ⟨rfl, rfl, rfl⟩

theorem SecureInv.namespaces {s : VarState} (h : SecureInv s) (ns : List NsPath) :
    SecureInv { s with namespaces := ns } :=
  h.mono rfl rfl rfl rfl (fun _ => .refl _) (fun _ hr => hr) (fun _ _ hk => hk) fun _ ho => ho

/-- What creation keeps: the metadata, what was written, the entries, the arrays and
the depth of the stack. -/
structure Extends (s s' : VarState) : Prop where
  paSecure : s'.paSecure = s.paSecure
  secured : s'.secured = s.secured
  written : s'.written = s.written
  entry : ∀ {k r}, s.Entry k r → s'.Entry k r
  array : ∀ {a}, (s.heap a).pHash.isSome = true → (s'.heap a).pHash.isSome = true
  depth : s'.procFrames.length = s.procFrames.length

theorem Extends.trans {s₁ s₂ s₃ : VarState} (h : Extends s₁ s₂) (h' : Extends s₂ s₃) :
    Extends s₁ s₃ where
  paSecure := h'.paSecure.trans h.paSecure
  secured := h'.secured.trans h.secured
  written := h'.written.trans h.written
  entry hk := h'.entry (h.entry hk)
  array ha := h'.array (h.array ha)
  depth := h'.depth.trans h.depth

theorem insert_extends (s : VarState) (a : VarId) (place : VarPlace) :
    Extends s (s.insert a place) where
  paSecure := insert_paSecure s a place
  secured := insert_secured s a place
  written := insert_written s a place
  entry {k r} := by
    rintro ⟨f, hf, hk⟩
    simp only [frames, mem_append, mem_singleton] at hf
    cases place with
    | frame up key =>
      simp only [VarState.insert]
      split_ifs with hup
      · rcases hf with hf | rfl
        · obtain ⟨i, hi⟩ := mem_iff_getElem?.mp hf
          by_cases hiu : i = up
          · subst hiu
            refine ⟨_, mem_append_left _ (mem_set hup _), ?_⟩
            simp [frameAt, hi, hk]
          · refine ⟨f, mem_append_left _ (mem_iff_getElem?.mpr ⟨i, ?_⟩), hk⟩
            rw [getElem?_set_ne (Ne.symm hiu), hi]
        · exact ⟨_, by simp [frames], hk⟩
      · rcases hf with hf | rfl
        · exact ⟨f, mem_append_left _ hf, hk⟩
        · exact entry_of_global (mem_cons_of_mem _ hk)
    | global key =>
      rcases hf with hf | rfl
      · exact ⟨f, mem_append_left _ hf, hk⟩
      · exact entry_of_global (mem_cons_of_mem _ hk)
    | ns path key => exact ⟨f, by simpa [frames, VarState.insert] using hf, hk⟩
  array ha := by rwa [insert_heap]
  depth := by
    cases place <;> simp only [VarState.insert]
    split_ifs <;> simp

theorem SecureInv.alloc_extends {s : VarState} (h : SecureInv s) : Extends s s.alloc.1 where
  paSecure := rfl
  secured := rfl
  written := rfl
  entry hk := hk
  array {a} ha := by
    have hne : a ≠ s.nextVar := by
      rintro rfl
      rw [(h.fresh (le_refl _)).2.2] at ha
      cases ha
    simpa [VarState.alloc, update_of_ne hne] using ha
  depth := rfl

theorem setHash_extends (s : VarState) (a : VarId) (t : Table) : Extends s (s.setHash a t) where
  paSecure := rfl
  secured := rfl
  written := rfl
  entry hk := hk
  array {b} hb := by
    by_cases hba : b = a
    · subst hba
      simp [VarState.setHash]
    · simpa [VarState.setHash, update_of_ne hba] using hb
  depth := rfl

theorem namespaces_extends (s : VarState) (ns : List NsPath) :
    Extends s { s with namespaces := ns } :=
  ⟨rfl, rfl, rfl, fun hk => hk, fun ha => ha, rfl⟩

theorem outer_lt {s : VarState} (h : SecureInv s) {place : VarPlace} {r : VarId}
    (hr : s.outer place = some r) : r < s.nextVar := by
  cases place with
  | frame up key => exact h.entry_lt ⟨_, frameAt_mem s up, mem_of_lookup hr⟩
  | global key => exact h.outside_lt (.inl ⟨_, mem_of_lookup hr⟩)
  | ns path key => exact h.outside_lt (.inr (.inl ⟨_, _, mem_of_lookup hr⟩))

theorem SecureInv.new_plain {s : VarState} (h : SecureInv s) :
    s.written s.nextVar = [] ∧ s.secured s.nextVar = false :=
  ⟨(h.fresh (le_refl _)).2.1, (h.fresh (le_refl _)).1⟩

theorem SecureInv.createOuter {s s' : VarState} (h : SecureInv s) {place : VarPlace}
    {r : VarId}
    (hkey : s.outer place = none → ∀ k, place.frameKey = some k → s.paSecure k = none)
    (hc : s.createOuter place = some (s', r)) :
    SecureInv s' ∧ Extends s s' ∧ s'.outer place = some r ∧
      (s.outer place = some r ∧ s'.heap = s.heap ∨
        s.outer place = none ∧ (s.written r = [] ∧ s.secured r = false) ∧
          (s'.heap r).pHash = none) := by
  obtain ⟨ns, ⟨hfound, rfl⟩ | ⟨hnone, rfl, rfl⟩⟩ := createOuter_cases hc
  · exact ⟨h.namespaces ns, namespaces_extends s ns, by rw [← hfound]; cases place <;> rfl,
      .inl ⟨hfound, rfl⟩⟩
  · have hns := h.namespaces ns
    refine ⟨hns.alloc.insert (h.fresh (le_refl _)).1 (lt_succ_self _) (hkey hnone),
      ((namespaces_extends s ns).trans hns.alloc_extends).trans (insert_extends _ _ _),
      outer_insert _ _ _, .inr ⟨hnone, h.new_plain, ?_⟩⟩
    simp [VarState.alloc, Variable.new]

theorem setHash_outer (s : VarState) (a : VarId) (t : Table) (place : VarPlace) :
    (s.setHash a t).outer place = s.outer place := by
  cases place <;> rfl

theorem alloc_outer (s : VarState) (place : VarPlace) : s.alloc.1.outer place = s.outer place := by
  cases place <;> rfl

theorem SecureInv.createElem {s : VarState} (h : SecureInv s) {a : VarId} {t : Table}
    (zInner : Bytes) (hplain : s.secured a = false) (hlt : a < s.nextVar)
    (ht : ∀ k r, (k, r) ∈ t → s.Outside r) :
    SecureInv (s.createElem a t zInner).1 ∧ Extends s (s.createElem a t zInner).1 ∧
      (∀ place, (s.createElem a t zInner).1.outer place = s.outer place) ∧
      ((s.createElem a t zInner).1.heap a).pHash.bind (·.lookup zInner) =
        some (s.createElem a t zInner).2 ∧
      (t.lookup zInner = some (s.createElem a t zInner).2 ∨
        t.lookup zInner = none ∧ s.written (s.createElem a t zInner).2 = [] ∧
          s.secured (s.createElem a t zInner).2 = false) := by
  unfold VarState.createElem
  cases hfound : t.lookup zInner with
  | some e =>
    refine ⟨h.setHash hplain hlt fun k r hk => .inl (ht k r hk), setHash_extends s a t,
      setHash_outer s a t, ?_, .inl rfl⟩
    simp [VarState.setHash, hfound]
  | none =>
    refine ⟨h.alloc.setHash hplain (lt_succ_of_lt hlt) ?_,
      h.alloc_extends.trans (setHash_extends _ _ _), ?_, ?_, .inr ⟨rfl, h.new_plain⟩⟩
    · intro k r hk
      rcases mem_cons.mp hk with heq | hk
      · cases heq
        exact .inr ⟨(h.fresh (le_refl _)).1, lt_succ_self _⟩
      · left
        rcases ht k r hk with ho | ho | ⟨b, t', k', ht', hk'⟩
        · exact .inl ho
        · exact .inr (.inl ho)
        · refine .inr (.inr ⟨b, t', k', ?_, hk'⟩)
          have hb := (h.plain_of_pHash ht').2
          simpa [VarState.alloc, update_of_ne (Nat.ne_of_lt hb)] using ht'
    · intro place
      rw [setHash_outer, alloc_outer]
    · simp [VarState.setHash]

/-- The name leads to the record that creation returns; it led there before, or the
record is new. -/
theorem SecureInv.createValue {s s' : VarState} (h : SecureInv s) {up : ℕ}
    {zVar : Bytes} {r : VarId} (hfresh : FreshNamePlain s up zVar)
    (hc : createValue s up zVar = .ok (s', r)) :
    SecureInv s' ∧ Extends s s' ∧ findValueAt s' up zVar = some r ∧
      (findValueAt s up zVar = some r ∨
        findValueAt s up zVar = none ∧ s.written r = [] ∧ s.secured r = false) := by
  unfold Th8.createValue at hc
  dsimp only at hc
  cases houter : s.createOuter (varPlace up (analyzeVarName zVar)) with
  | none =>
    rw [houter] at hc
    cases hc
  | some res =>
    obtain ⟨s₁, a⟩ := res
    obtain ⟨h₁, hext, hat, hold⟩ := h.createOuter hfresh houter
    rw [houter] at hc
    dsimp only at hc
    cases hinner : (analyzeVarName zVar).zInner with
    | none =>
      rw [hinner] at hc
      cases hc
      refine ⟨h₁, hext, by simp [findValueAt, hat, hinner], ?_⟩
      rcases hold with ⟨hsome, -⟩ | ⟨hnone, hempty, -⟩
      · exact .inl (by simp [findValueAt, hsome, hinner])
      · exact .inr ⟨by simp [findValueAt, hnone], hempty⟩
    | some zInner =>
      have hlt := outer_lt h₁ hat
      have key : ∀ t : Table, s₁.secured a = false → (∀ k e, (k, e) ∈ t → s₁.Outside e) →
          ((s₁.heap a).pHash = some t ∨ (s₁.heap a).pHash = none ∧ t = []) →
          s₁.createElem a t zInner = (s', r) →
          SecureInv s' ∧ Extends s s' ∧ findValueAt s' up zVar = some r ∧
            (findValueAt s up zVar = some r ∨
              findValueAt s up zVar = none ∧ s.written r = [] ∧ s.secured r = false) := by
        intro t hplain ht hhash heq
        obtain ⟨helem, hext', hout, hlookup, hwas⟩ := h₁.createElem zInner hplain hlt ht
        rw [heq] at helem hext' hout hlookup hwas
        refine ⟨helem, hext.trans hext', ?_, ?_⟩
        · simpa [findValueAt, hout, hat, hinner] using hlookup
        · rcases hold with ⟨hsome, hheap⟩ | ⟨hnone, -, hnew⟩
          · have hfind : findValueAt s up zVar = t.lookup zInner := by
              rcases hhash with hhash | ⟨hhash, rfl⟩ <;>
                simp [findValueAt, hsome, hinner, ← hheap, hhash]
            rw [hfind, ← hext.written, ← hext.secured]
            exact hwas
          · rcases hhash with hhash | ⟨-, rfl⟩
            · rw [hnew] at hhash
              cases hhash
            · rcases hwas with hwas | ⟨-, hempty⟩
              · cases hwas
              · rw [hext.written, hext.secured] at hempty
                exact .inr ⟨by simp [findValueAt, hnone], hempty⟩
      rw [hinner] at hc
      cases hhash : (s₁.heap a).pHash with
      | some t =>
        rw [hhash] at hc
        exact key t (h₁.plain_of_pHash hhash).1
          (fun k e hk => .inr (.inr ⟨a, t, k, hhash, hk⟩)) (.inl hhash) (Except.ok.inj hc)
      | none =>
        rw [hhash] at hc
        split_ifs at hc with hdata
        refine key [] ?_ (fun k e hk => by cases hk) (.inr ⟨hhash, rfl⟩) (Except.ok.inj hc)
        by_contra hs
        exact hdata (h₁.sentinel (Bool.of_not_eq_false hs)).2.1

end Th8
