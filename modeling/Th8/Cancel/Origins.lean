import Th8.Cancel.Custody

/-!
# Where messages come from

A buffer in the slot has been built by one publication, with its text.  What the owner adopts
is a copy of one such buffer, and each is adopted once at most.
-/

namespace Th8

open Support List

namespace Cancel

variable {m m' : Cancel}

/-- A call of `th8CancelReqPublish` without where it is. -/
def Publication.call (p : Publication) : Publication := { p with pc := .done }

def calls (m : Cancel) : List Publication := m.publications.map Publication.call

def BuiltBy (m : Cancel) (i b : ℕ) : Prop := ∃ c, m.calls[i]? = some c ∧ c.pBuf = some b

def Publication.Fits (p : Publication) : Prop :=
  match p.pc with
  | .build => p.pBuf = none
  | .exchange pBuf _ => p.pBuf = some pBuf
  | _ => True

def OwnerPc.copies : OwnerPc → Option ℕ
  | .adoptInstall _ pBuf => some pBuf
  | _ => none

theorem OwnerPc.copies_unread (pc : OwnerPc) : pc.unread.copies = pc.copies := by
  cases pc <;> rfl

theorem afterAdopt_copies (saving : Bool) : (afterAdopt saving).copies = none := by
  cases saving <;> rfl

structure Origins (m : Cancel) : Prop where
  fits : ∀ p ∈ m.publications, p.Fits
  built : ∀ (i b : ℕ) c, m.calls[i]? = some c → c.pBuf = some b → m.texts[b]? = some c.zMsg
  injective : ∀ i j b, m.BuiltBy i b → m.BuiltBy j b → i = j
  attached : ∀ b, m.nCancelReqMsg = some b → ∃ i, m.BuiltBy i b
  copied : ∀ b, m.owner.copies = some b → ∃ i, m.BuiltBy i b
  adoptions : ∀ a ∈ m.adoptions, a.1 ∈ m.released ∧
    ∃ (i : ℕ) (c : Publication), m.calls[i]? = some c ∧ c.pBuf = some a.1 ∧
      m.texts[a.2]? = some c.zMsg
  once : (m.adoptions.map Prod.fst).Nodup

theorem origins_fresh : Origins fresh where
  fits := by simp [fresh]
  built := by simp [fresh, calls]
  injective i j b hi := by
    obtain ⟨c, hc, -⟩ := hi
    simp [fresh, calls] at hc
  attached := by simp [fresh]
  copied b hb := by cases hb
  adoptions := by simp [fresh]
  once := by simp [fresh]

variable {i : ℕ} {p : Publication}

theorem call_of_publication (hp : m.publications[i]? = some p) : m.calls[i]? = some p.call := by
  rw [calls, getElem?_map, hp]
  rfl

theorem calls_setPublication (hp : m.publications[i]? = some p) (pc : PublishPc) :
    (m.setPublication i { p with pc := pc }).calls = m.calls := by
  refine ext_getElem? fun j => ?_
  have hi : i < m.publications.length := (List.getElem?_eq_some_iff.mp hp).1
  simp only [calls, setPublication, getElem?_map, getElem?_set]
  split_ifs with heq
  · rw [← heq, hp]
    rfl
  · rfl

theorem fits_setPublication (h : ∀ p ∈ m.publications, p.Fits) {p' : Publication} (hp' : p'.Fits) :
    ∀ p ∈ (m.setPublication i p').publications, p.Fits := by
  intro p hp
  rcases mem_or_eq_of_mem_set hp with hp | rfl
  · exact h p hp
  · exact hp'

theorem Origins.congr (h : Origins m) (hfits : ∀ p ∈ m'.publications, p.Fits)
    (hcalls : m'.calls = m.calls) (htexts : m'.texts = m.texts)
    (hslot : ∀ b, m'.nCancelReqMsg = some b → ∃ i, m.BuiltBy i b)
    (howner : ∀ b, m'.owner.copies = some b → ∃ i, m.BuiltBy i b)
    (hadoptions : m'.adoptions = m.adoptions) (hreleased : m.released ⊆ m'.released) :
    Origins m' where
  fits := hfits
  built := by
    rw [hcalls, htexts]
    exact h.built
  injective := by
    simp only [BuiltBy, hcalls]
    exact h.injective
  attached := by
    simp only [BuiltBy, hcalls]
    exact hslot
  copied := by
    simp only [BuiltBy, hcalls]
    exact howner
  adoptions a ha := by
    rw [hadoptions] at ha
    rw [hcalls, htexts]
    exact ⟨hreleased (h.adoptions a ha).1, (h.adoptions a ha).2⟩
  once := hadoptions ▸ h.once

theorem Origins.built_lt (h : Origins m) {b : ℕ} (hb : m.BuiltBy i b) : b < m.texts.length := by
  obtain ⟨c, hc, hbuf⟩ := hb
  exact (List.getElem?_eq_some_iff.mp (h.built i b c hc hbuf)).1

theorem Origins.unbuilt (h : Origins m) (hp : m.publications[i]? = some p) (hpc : p.pc = .build) :
    p.pBuf = none := by
  have hfits := h.fits p (mem_of_getElem? hp)
  rwa [Publication.Fits, hpc] at hfits

theorem getElem?_append_text {texts : List Text} {b : ℕ} {text text' : Text}
    (h : texts[b]? = some text) : (texts ++ [text'])[b]? = some text := by
  rw [List.getElem?_append_left (List.getElem?_eq_some_iff.mp h).1, h]

theorem Origins.addText (h : Origins m) (text : Text) (hfits : ∀ p ∈ m'.publications, p.Fits)
    (hcalls : m'.calls = m.calls) (htexts : m'.texts = m.texts ++ [text])
    (hslot : m'.nCancelReqMsg = m.nCancelReqMsg) (howner : m'.owner.copies = none)
    (hadoptions : m'.adoptions = m.adoptions) (hreleased : m.released ⊆ m'.released) :
    Origins m' where
  fits := hfits
  built i b c hc hbuf := by
    rw [hcalls] at hc
    rw [htexts]
    exact getElem?_append_text (h.built i b c hc hbuf)
  injective := by
    simp only [BuiltBy, hcalls]
    exact h.injective
  attached := by
    simp only [BuiltBy, hcalls, hslot]
    exact h.attached
  copied b hb := by
    rw [howner] at hb
    cases hb
  adoptions a ha := by
    rw [hadoptions] at ha
    obtain ⟨hmem, i, c, hc, hbuf, htext⟩ := h.adoptions a ha
    rw [hcalls, htexts]
    exact ⟨hreleased hmem, i, c, hc, hbuf, getElem?_append_text htext⟩
  once := hadoptions ▸ h.once

/-! ## Steps -/

section Building

variable {i : ℕ} {p p' : Publication} (hp : m.publications[i]? = some p)

include hp

theorem calls_set (j : ℕ) : (m.setPublication i p').calls[j]? =
    if i = j then some p'.call else m.calls[j]? := by
  have hi : i < m.publications.length := (List.getElem?_eq_some_iff.mp hp).1
  simp only [calls, setPublication, getElem?_map, getElem?_set]
  split_ifs <;> rfl

theorem builtBy_set (hnone : p.pBuf = none) {n : ℕ} (hn : p'.pBuf = some n) (j b : ℕ) :
    (m.setPublication i p').BuiltBy j b ↔ j = i ∧ b = n ∨ m.BuiltBy j b := by
  have hold : ¬m.BuiltBy i b := by
    rintro ⟨c, hc, hbuf⟩
    rw [call_of_publication hp] at hc
    rw [← Option.some.inj hc] at hbuf
    exact absurd (hnone.symm.trans hbuf) (by simp)
  rw [BuiltBy, calls_set hp]
  by_cases heq : i = j
  · subst heq
    have hcall : p'.call.pBuf = some n := hn
    simp [hold, hcall, eq_comm]
  · simp only [if_neg heq, Ne.symm heq, false_and, false_or]
    rfl

end Building

theorem Origins.build (h : Origins m) (hp : m.publications[i]? = some p) (hpc : p.pc = .build) :
    Origins { m.setPublication i
        { p with pc := .exchange m.texts.length none, pBuf := some m.texts.length } with
      texts := m.texts ++ [p.zMsg] } := by
  have hnone : p.pBuf = none := h.unbuilt hp hpc
  set p' : Publication :=
    { p with pc := .exchange m.texts.length none, pBuf := some m.texts.length } with hp'
  have hbuilt (j b : ℕ) : (m.setPublication i p').BuiltBy j b ↔
      j = i ∧ b = m.texts.length ∨ m.BuiltBy j b := builtBy_set hp hnone rfl j b
  refine ⟨fits_setPublication h.fits rfl, ?_, ?_, ?_, ?_, ?_, h.once⟩
  · intro j b c hc hbuf
    change (m.setPublication i p').calls[j]? = some c at hc
    rw [calls_set hp] at hc
    split_ifs at hc with heq
    · rw [← Option.some.inj hc] at hbuf ⊢
      rw [← Option.some.inj hbuf, getElem?_concat_length]
      rfl
    · exact getElem?_append_text (h.built j b c hc hbuf)
  · intro j k b hj hk
    rcases (hbuilt j b).mp hj with ⟨hji, hbj⟩ | hj'
    · rcases (hbuilt k b).mp hk with ⟨hki, -⟩ | hk'
      · rw [hji, hki]
      · exact absurd (h.built_lt hk') (hbj ▸ Nat.lt_irrefl _)
    · rcases (hbuilt k b).mp hk with ⟨-, hbk⟩ | hk'
      · exact absurd (h.built_lt hj') (hbk ▸ Nat.lt_irrefl _)
      · exact h.injective j k b hj' hk'
  · intro b hb
    obtain ⟨j, hj⟩ := h.attached b hb
    exact ⟨j, (hbuilt j b).mpr (.inr hj)⟩
  · intro b hb
    obtain ⟨j, hj⟩ := h.copied b hb
    exact ⟨j, (hbuilt j b).mpr (.inr hj)⟩
  · intro a ha
    obtain ⟨hmem, j, c, hc, hbuf, htext⟩ := h.adoptions a ha
    refine ⟨hmem, j, c, ?_, hbuf, getElem?_append_text htext⟩
    change (m.setPublication i p').calls[j]? = some c
    rw [calls_set hp, if_neg]
    · exact hc
    · rintro rfl
      rw [call_of_publication hp] at hc
      rw [← Option.some.inj hc] at hbuf
      exact absurd (hnone.symm.trans hbuf) (by simp)

theorem Origins.adoptInstall (h : Origins m) (hcustody : Custody m) {hasMemory saving : Bool}
    {pBuf : ℕ} (howner : m.owner = .adoptInstall saving pBuf) :
    Origins (m.adoptInstall saving pBuf hasMemory) := by
  have hsame : Origins ((m.release [pBuf]).setOwner (afterAdopt saving)) := by
    refine h.congr h.fits rfl rfl h.attached (fun b hb => ?_) rfl (subset_append_left _ _)
    rw [Cancel.setOwner, afterAdopt_copies] at hb
    cases hb
  rw [Cancel.adoptInstall]
  by_cases hcopy : m.own.zCancelMsg = none ∧ hasMemory = true
  · rw [if_pos hcopy]
    obtain ⟨i, c, hc, hbuf⟩ := h.copied pBuf (by rw [howner]; rfl)
    have htext : m.texts[pBuf]? = some c.zMsg := h.built i pBuf c hc hbuf
    have hheld : pBuf ∈ m.held := by
      simp [held, howner, OwnerPc.held]
    have hfresh : pBuf ∉ m.adoptions.map Prod.fst := by
      intro hmem
      obtain ⟨a, ha, rfl⟩ := mem_map.mp hmem
      exact hcustody.notMem_released hheld (h.adoptions a ha).1
    refine ⟨hsame.fits, ?_, hsame.injective, hsame.attached, hsame.copied, ?_, ?_⟩
    · intro j b c' hc' hbuf'
      exact getElem?_append_text (h.built j b c' hc' hbuf')
    · intro a ha
      rcases mem_append.mp ha with ha | ha
      · obtain ⟨hmem, j, c', hc', hbuf', htext'⟩ := h.adoptions a ha
        exact ⟨mem_append_left _ hmem, j, c', hc', hbuf', getElem?_append_text htext'⟩
      · rw [mem_singleton.mp ha]
        refine ⟨mem_append_right _ (mem_singleton_self pBuf), i, c, hc, hbuf, ?_⟩
        change (m.texts ++ [m.texts.getD pBuf []])[m.texts.length]? = some c.zMsg
        rw [getElem?_concat_length, getD_eq_getElem?_getD, htext]
        rfl
    · change ((m.adoptions ++ [(pBuf, m.texts.length)]).map Prod.fst).Nodup
      rw [map_append, map_singleton, ← concat_eq_append]
      exact h.once.concat hfresh
  · rw [if_neg hcopy]
    exact hsame

theorem calls_publish (m : Cancel) (flags : Flags) (zMsg : Text) :
    (m.publish flags zMsg).calls = m.calls ++ [⟨flags, zMsg, .done, none⟩] := by
  simp [calls, Cancel.publish, Publication.call]

theorem call_publish {flags : Flags} {zMsg : Text} {j : ℕ} {c : Publication}
    (hc : (m.publish flags zMsg).calls[j]? = some c) :
    c.pBuf = none ∨ m.calls[j]? = some c := by
  rw [calls_publish, getElem?_append] at hc
  split_ifs at hc
  · exact .inr hc
  · rw [mem_singleton.mp (mem_of_getElem? hc)]
    exact .inl rfl

theorem builtBy_publish (m : Cancel) (flags : Flags) (zMsg : Text) (j b : ℕ) :
    (m.publish flags zMsg).BuiltBy j b ↔ m.BuiltBy j b := by
  constructor
  · rintro ⟨c, hc, hbuf⟩
    rcases call_publish hc with hnone | hc
    · exact absurd (hnone.symm.trans hbuf) (by simp)
    · exact ⟨c, hc, hbuf⟩
  · rintro ⟨c, hc, hbuf⟩
    refine ⟨c, ?_, hbuf⟩
    rw [calls_publish, List.getElem?_append_left (List.getElem?_eq_some_iff.mp hc).1]
    exact hc

theorem Origins.publish (h : Origins m) (flags : Flags) (zMsg : Text) :
    Origins (m.publish flags zMsg) := by
  have hkept (j : ℕ) (c : Publication) (hc : m.calls[j]? = some c) :
      (m.publish flags zMsg).calls[j]? = some c := by
    rw [calls_publish, List.getElem?_append_left (List.getElem?_eq_some_iff.mp hc).1]
    exact hc
  have hbuilt := builtBy_publish m flags zMsg
  have hmono (b : ℕ) (hb : ∃ i, m.BuiltBy i b) : ∃ i, (m.publish flags zMsg).BuiltBy i b := by
    obtain ⟨j, hj⟩ := hb
    exact ⟨j, (hbuilt j b).mpr hj⟩
  refine ⟨fun p hp => ?_, fun j b c hc hbuf => ?_, fun i j b hi hj => ?_,
    fun b hb => hmono b (h.attached b hb), fun b hb => hmono b (h.copied b hb), fun a ha => ?_,
    h.once⟩
  · rcases mem_append.mp hp with hp | hp
    · exact h.fits p hp
    · rw [mem_singleton.mp hp, Publication.Fits]
      split_ifs
      · trivial
      · rfl
  · rcases call_publish hc with hnone | hc
    · exact absurd (hnone.symm.trans hbuf) (by simp)
    · exact h.built j b c hc hbuf
  · exact h.injective i j b ((hbuilt i b).mp hi) ((hbuilt j b).mp hj)
  · obtain ⟨hmem, j, c, hc, hrest⟩ := h.adoptions a ha
    exact ⟨hmem, j, c, hkept j c hc, hrest⟩

theorem afterAttach_fits (p : Publication) (old : Option ℕ) :
    ({ p with pc := afterAttach old } : Publication).Fits := by
  cases old <;> trivial

theorem Origins.step (h : Origins m) (hcustody : Custody m) {i : Move}
    (hstep : Step m i m') : Origins m' := by
  have hnone {pc : OwnerPc} (hpc : pc.copies = none) (b : ℕ) (hb : pc.copies = some b) :
      ∃ i, m.BuiltBy i b := by
    rw [hpc] at hb
    cases hb
  have hsetOwner {pc : OwnerPc} (hpc : pc.copies = none) : Origins (m.setOwner pc) :=
    h.congr h.fits rfl rfl h.attached (hnone hpc) rfl (List.Subset.refl _)
  cases hstep with
  | publish flags zMsg => exact h.publish flags zMsg
  | @publisherReads i _ p pc hp hpc =>
    refine h.congr (fits_setPublication h.fits ?_) (calls_setPublication hp pc) rfl h.attached
      h.copied rfl (List.Subset.refl _)
    have hfits := h.fits p (mem_of_getElem? hp)
    rw [Publication.Fits] at hfits ⊢
    cases hold : p.pc <;> cases hnew : pc <;> simp_all [PublishPc.unread]
  | build hp hpc => exact h.build hp hpc
  | @buildFails i p hp hpc =>
    exact h.congr (fits_setPublication h.fits (by trivial)) (calls_setPublication hp _) rfl
      h.attached h.copied rfl (List.Subset.refl _)
  | @attach i _ p pBuf hp hpc =>
    refine h.congr (fits_setPublication h.fits (afterAttach_fits p _))
      (calls_setPublication hp _) rfl (fun b hb => ?_) h.copied rfl (List.Subset.refl _)
    have hfits := h.fits p (mem_of_getElem? hp)
    rw [Publication.Fits, hpc] at hfits
    exact ⟨i, p.call, call_of_publication hp, hfits.trans hb⟩
  | @freeOld i _ p pOld hp hpc =>
    exact h.congr (fits_setPublication h.fits (by trivial)) (calls_setPublication hp _) rfl
      h.attached h.copied rfl (subset_append_left _ _)
  | @orReq i _ p hp hpc =>
    exact h.congr (fits_setPublication h.fits (by trivial)) (calls_setPublication hp _) rfl
      h.attached h.copied rfl (List.Subset.refl _)
  | @ownerReads _ pc hpc =>
    refine h.congr h.fits rfl rfl h.attached (fun b hb => h.copied b ?_) rfl (List.Subset.refl _)
    rw [← OwnerPc.copies_unread, ← hpc, OwnerPc.copies_unread]
    exact hb
  | cancelOr hpc =>
    exact h.congr h.fits rfl rfl h.attached (hnone rfl) rfl (List.Subset.refl _)
  | adoptRead hpc =>
    exact h.congr h.fits rfl rfl h.attached (hnone rfl) rfl (List.Subset.refl _)
  | @adoptNothing _ saving hpc =>
    exact hsetOwner (afterAdopt_copies saving)
  | @adoptExchange _ saving hpc =>
    refine h.congr h.fits rfl rfl (fun b hb => by cases hb) (fun b hb => h.attached b ?_) rfl
      (List.Subset.refl _)
    change (afterTake _ _ m.nCancelReqMsg).copies = some b at hb
    cases hslot : m.nCancelReqMsg with
    | none =>
      rw [hslot, afterTake, afterAdopt_copies] at hb
      cases hb
    | some pBuf =>
      rw [hslot] at hb
      exact hb
  | adoptInstall hpc => exact h.adoptInstall hcustody hpc
  | clearRead hpc =>
    exact h.congr h.fits rfl rfl h.attached (hnone rfl) rfl (subset_append_left _ _)
  | clearNothing hpc => exact hsetOwner rfl
  | clearZero hpc =>
    exact h.congr h.fits rfl rfl h.attached (hnone rfl) rfl (List.Subset.refl _)
  | clearExchange hpc =>
    refine h.congr h.fits rfl rfl (fun b hb => by cases hb) (hnone ?_) rfl (List.Subset.refl _)
    cases m.nCancelReqMsg <;> rfl
  | clearFree hpc =>
    exact h.congr h.fits rfl rfl h.attached (hnone rfl) rfl (subset_append_left _ _)
  | saveRead hpc =>
    exact h.congr h.fits rfl rfl h.attached (hnone rfl) rfl (List.Subset.refl _)
  | saveZero hpc =>
    exact h.congr h.fits rfl rfl h.attached (hnone rfl) rfl (List.Subset.refl _)
  | saveKeeps hpc => exact hsetOwner rfl
  | restoreDiscards hpc =>
    exact h.congr h.fits rfl rfl h.attached (hnone rfl) rfl (subset_append_left _ _)
  | restoreReads hpc => exact hsetOwner rfl
  | restoreOr hpc =>
    exact h.congr h.fits rfl rfl h.attached (hnone rfl) rfl (List.Subset.refl _)
  | @cancelEval unwind hasMemory zMsg hpc =>
    cases zMsg with
    | none =>
      exact h.congr h.fits rfl rfl h.attached (hnone rfl) rfl (List.Subset.refl _)
    | some text =>
      cases hasMemory with
      | true =>
        exact h.addText text h.fits rfl rfl rfl rfl rfl (subset_append_left _ _)
      | false =>
        exact h.congr h.fits rfl rfl h.attached (hnone rfl) rfl (subset_append_left _ _)
  | adopts hpc => exact hsetOwner rfl
  | clears hpc => exact hsetOwner rfl
  | saves hpc => exact hsetOwner rfl
  | restores hpc => exact hsetOwner rfl
  | discardSave hpc =>
    exact h.congr h.fits rfl rfl h.attached h.copied rfl (List.Subset.refl _)

end Cancel

end Th8
