import Th8.Secure.Padding

/-!
# Reading what was stored

Whatever the platform refuses, no two secure variables share a slot and every slot of one
is marked.  A key is therefore overwritten by an operation on its own variable only, so that
what was stored last is found again, up to its padding.
-/

namespace Th8

open Support
open Function (update update_apply update_of_ne update_self)

namespace Secure

/-- What is relied on of the cipher: decryption with the same key, nonce and name is the
inverse of encryption, and a ciphertext is as long as its plaintext. -/
structure Gcm.Inverse (gcm : Gcm) : Prop where
  length : ∀ key nonce name z, (gcm.encrypt key nonce name z).1.length = z.length
  decrypt_encrypt : ∀ key nonce name z,
    gcm.decrypt key nonce name (gcm.encrypt key nonce name z).1
      (gcm.encrypt key nonce name z).2 = some z

variable {gcm : Gcm} {s s' : State} {zVar zVal n : Bytes} {d : SecureVarData} {i : ℕ}

abbrev State.Registered (s : State) (zVar : Bytes) (d : SecureVarData) : Prop :=
  (s.entry zVar).join = some d

/-- Registered variables have marked slots of their own, and the canary is in its place. -/
structure State.Slots (s : State) : Prop where
  canary : secureCheckCanary s.page = true
  marked : ∀ {n d}, s.Registered n d →
    firstVar ≤ d.iSlot ∧ d.iSlot < maxSlots ∧ s.aBitmap d.iSlot = true
  distinct : ∀ {n d n' d'}, s.Registered n d → s.Registered n' d' → d.iSlot = d'.iSlot → n = n'

/-- Everything that belongs to other names than `zVar` is as it was. -/
structure Frame (zVar : Bytes) (s s' : State) : Prop where
  entry : ∀ n, n ≠ zVar → s'.entry n = s.entry n
  vars : ∀ n, n ≠ zVar → s'.vars n = s.vars n
  page : ∀ n d, n ≠ zVar → s.Registered n d → s'.page d.iSlot = s.page d.iSlot

theorem Frame.refl (zVar : Bytes) (s : State) : Frame zVar s s :=
  ⟨fun _ _ => rfl, fun _ _ => rfl, fun _ _ _ _ => rfl⟩

theorem Frame.trans {s₁ : State} (h : Frame zVar s s₁) (h' : Frame zVar s₁ s') :
    Frame zVar s s' := by
  refine ⟨fun n hn => (h'.entry n hn).trans (h.entry n hn),
    fun n hn => (h'.vars n hn).trans (h.vars n hn), ?_⟩
  intro n d hn hd
  have hd₁ : s₁.Registered n d := by
    rw [State.Registered, h.entry n hn]
    exact hd
  rw [h'.page n d hn hd₁, h.page n d hn hd]

def State.Spare (s : State) (i : ℕ) : Prop :=
  firstVar ≤ i ∧ i < maxSlots ∧ ∀ n d, s.Registered n d → d.iSlot ≠ i

theorem secureCheckCanary_update {page : ℕ → Bytes} {key : Bytes} (hi : firstVar ≤ i) :
    secureCheckCanary (update page i key) = secureCheckCanary page := by
  have h0 : (0 : ℕ) ≠ i := by
    unfold firstVar at hi
    omega
  rw [secureCheckCanary, update_of_ne h0, secureCheckCanary]

theorem findSlot_spec (h : s.Slots) (hfind : findSlot s.aBitmap = some i) : s.Spare i := by
  have hmem := List.mem_of_find?_eq_some hfind
  have hfree := List.find?_some hfind
  rw [List.mem_range'_1] at hmem
  refine ⟨hmem.1, by unfold firstVar maxSlots at *; omega, ?_⟩
  rintro n d hd rfl
  rw [(h.marked hd).2.2] at hfree
  cases hfree

/-! ## What the steps of an operation change -/

variable (gcm zVar)

section

variable (h : s.Slots)

include h

theorem setKey_spare (hi : s.Spare i) (key : Bytes) :
    (s.setKey i key).Slots ∧ Frame zVar s (s.setKey i key) := by
  refine ⟨⟨?_, h.marked, h.distinct⟩, fun _ _ => rfl, fun _ _ => rfl, ?_⟩
  · exact (secureCheckCanary_update hi.1).trans h.canary
  · intro n d _ hd
    exact update_of_ne (hi.2.2 n d hd) _ _

theorem takeSlot_spare (i : ℕ) : (s.takeSlot i).Slots ∧ Frame zVar s (s.takeSlot i) := by
  refine ⟨⟨h.canary, ?_, h.distinct⟩, fun _ _ => rfl, fun _ _ => rfl, fun _ _ _ _ => rfl⟩
  intro n d hd
  obtain ⟨hlow, hhigh, hbit⟩ := h.marked hd
  refine ⟨hlow, hhigh, ?_⟩
  by_cases hi : d.iSlot = i
  · rw [hi]
    exact update_self _ _ _
  · exact (update_of_ne hi _ _).trans hbit

theorem freeSlot_spare (hi : s.Spare i) : (s.freeSlot i).Slots ∧ Frame zVar s (s.freeSlot i) := by
  refine ⟨⟨?_, ?_, h.distinct⟩, fun _ _ => rfl, fun _ _ => rfl, ?_⟩
  · exact (secureCheckCanary_update hi.1).trans h.canary
  · intro n d hd
    obtain ⟨hlow, hhigh, hbit⟩ := h.marked hd
    refine ⟨hlow, hhigh, ?_⟩
    exact (update_of_ne (hi.2.2 n d hd) _ _).trans hbit
  · intro n d _ hd
    exact update_of_ne (hi.2.2 n d hd) _ _

theorem setVars_slots (v : Scalar) : (s.setVars zVar v).Slots ∧ Frame zVar s (s.setVars zVar v) :=
  ⟨⟨h.canary, h.marked, h.distinct⟩, fun _ _ => rfl, fun _ hn => update_of_ne hn _ _,
    fun _ _ _ _ => rfl⟩

theorem setEntry_slots (hhash : s.paSecureVar.isSome = true)
    (hslot : firstVar ≤ d.iSlot ∧ d.iSlot < maxSlots ∧ s.aBitmap d.iSlot = true)
    (hother : ∀ n d', n ≠ zVar → s.Registered n d' → d'.iSlot ≠ d.iSlot) :
    (s.setEntry zVar (some (some d))).Slots ∧ Frame zVar s (s.setEntry zVar (some (some d))) := by
  have hentry := s.entry_setEntry zVar hhash (some (some d))
  have hreg : ∀ {n d'}, (s.setEntry zVar (some (some d))).Registered n d' →
      n = zVar ∧ d' = d ∨ n ≠ zVar ∧ s.Registered n d' := by
    intro n d' hd
    rw [State.Registered, hentry] at hd
    split at hd
    · next hn => exact .inl ⟨hn, (Option.some.inj hd).symm⟩
    · next hn => exact .inr ⟨hn, hd⟩
  refine ⟨⟨h.canary, ?_, ?_⟩, ?_, fun _ _ => rfl, fun _ _ _ _ => rfl⟩
  · intro n d' hd
    rcases hreg hd with ⟨-, rfl⟩ | ⟨-, hd⟩
    · exact hslot
    · exact h.marked hd
  · intro n d₁ n' d₂ hd₁ hd₂ heq
    rcases hreg hd₁ with ⟨hn, rfl⟩ | ⟨hn, hold⟩
    · rcases hreg hd₂ with ⟨hn', -⟩ | ⟨hn', hold'⟩
      · rw [hn, hn']
      · exact absurd heq.symm (hother n' d₂ hn' hold')
    · rcases hreg hd₂ with ⟨-, rfl⟩ | ⟨-, hold'⟩
      · exact absurd heq (hother n d₁ hn hold)
      · exact h.distinct hold hold' heq
  · intro n hn
    rw [hentry, if_neg hn]

end

def Sealed (gcm : Gcm) (page : ℕ → Bytes) (d : SecureVarData) (zVar zVal : Bytes) : Prop :=
  gcm.encrypt (page d.iSlot) (secureDeriveNonce d.nNonce) zVar (padText zVal) = (d.zCipher, d.aTag)

theorem secureEncrypt_spec (gcm : Gcm) (ans : EncryptAnswer) (page : ℕ → Bytes)
    (d : SecureVarData) (zVar zVal : Bytes) :
    (secureEncrypt gcm ans page d zVar zVal).2.iSlot = d.iSlot ∧
      ((secureEncrypt gcm ans page d zVar zVal).1 = .ok () →
        Sealed gcm page (secureEncrypt gcm ans page d zVar zVal).2 zVar zVal) := by
  unfold secureEncrypt
  split_ifs
  · exact ⟨rfl, by simp⟩
  · exact ⟨rfl, by simp⟩
  · exact ⟨rfl, by simp⟩
  · exact ⟨rfl, fun _ => rfl⟩

theorem secureSetVar_slots (h : s.Slots) (ans : SetAnswer) (zVal : Bytes) :
    (secureSetVar gcm ans s zVar zVal).2.Slots ∧
      Frame zVar s (secureSetVar gcm ans s zVar zVal).2 := by
  unfold secureSetVar
  split
  · exact ⟨h, Frame.refl _ _⟩
  · next d hd =>
    obtain ⟨hlow, hhigh, hbit⟩ := h.marked hd
    have hkey : (s.setKey d.iSlot ans.aKey).Slots ∧ Frame zVar s (s.setKey d.iSlot ans.aKey) := by
      refine ⟨⟨(secureCheckCanary_update hlow).trans h.canary, h.marked, h.distinct⟩,
        fun _ _ => rfl, fun _ _ => rfl, ?_⟩
      intro n d' hn hd'
      exact update_of_ne (fun heq => hn (h.distinct hd' hd heq)) _ _
    rw [if_neg (not_le.mpr hhigh)]
    split
    · exact hkey
    · have hslot := (secureEncrypt_spec gcm ans.encrypt (s.setKey d.iSlot ans.aKey).page d zVar
        zVal).1
      obtain ⟨hs, hframe⟩ := setEntry_slots zVar hkey.1
        (show (s.setKey d.iSlot ans.aKey).paSecureVar.isSome = true from State.isSome_of_join hd)
        (d := (secureEncrypt gcm ans.encrypt (s.setKey d.iSlot ans.aKey).page d zVar zVal).2)
        (by rw [hslot]; exact ⟨hlow, hhigh, hbit⟩) (fun n d' hn hd' => by
          rw [hslot]
          exact fun heq => hn (h.distinct hd' hd heq))
      exact ⟨hs, hkey.2.trans hframe⟩

theorem setVar_slots (h : s.Slots) (ans : SetAnswer) (zVal : Bytes) :
    (setVar gcm ans s zVar zVal).2.Slots ∧ Frame zVar s (setVar gcm ans s zVar zVal).2 := by
  unfold setVar
  dsimp only
  have hvars := fun v => setVars_slots zVar h v
  split_ifs
  · exact ⟨h, Frame.refl _ _⟩
  · exact hvars .bare
  · obtain ⟨hs, hframe⟩ := secureSetVar_slots gcm zVar (hvars .assigned).1 ans zVal
    obtain ⟨hs', hframe'⟩ := setVars_slots zVar hs .bare
    exact ⟨hs', ((hvars .assigned).2.trans hframe).trans hframe'⟩
  · obtain ⟨hs, hframe⟩ := secureSetVar_slots gcm zVar (hvars .assigned).1 ans zVal
    exact ⟨hs, (hvars .assigned).2.trans hframe⟩
  · exact hvars .assigned

theorem secureSetVar_registered (ans : SetAnswer) (zVal : Bytes)
    (hd : (secureSetVar gcm ans s zVar zVal).2.Registered n d) :
    ∃ d', s.Registered n d' ∧ d'.iSlot = d.iSlot := by
  unfold secureSetVar at hd
  rcases hd₀ : (s.entry zVar).join with _ | d₀
  · rw [hd₀] at hd
    exact ⟨d, hd, rfl⟩
  · rw [hd₀] at hd
    dsimp only at hd
    split_ifs at hd
    · exact ⟨d, hd, rfl⟩
    · exact ⟨d, hd, rfl⟩
    · have hhash : (s.setKey d₀.iSlot ans.aKey).paSecureVar.isSome = true :=
        State.isSome_of_join hd₀
      simp only [State.Registered, State.entry_setEntry _ _ hhash] at hd
      split at hd
      · next hn =>
        cases hd
        exact ⟨d₀, hn ▸ hd₀, (secureEncrypt_spec _ _ _ _ _ _).1.symm⟩
      · exact ⟨d, hd, rfl⟩

theorem setVar_registered (ans : SetAnswer) (zVal : Bytes)
    (hd : (setVar gcm ans s zVar zVal).2.Registered n d) :
    ∃ d', s.Registered n d' ∧ d'.iSlot = d.iSlot := by
  unfold setVar at hd
  dsimp only at hd
  split_ifs at hd
  · exact ⟨d, hd, rfl⟩
  · exact ⟨d, hd, rfl⟩
  · exact secureSetVar_registered gcm zVar (s := s.setVars zVar .assigned) ans zVal hd
  · exact secureSetVar_registered gcm zVar (s := s.setVars zVar .assigned) ans zVal hd
  · exact ⟨d, hd, rfl⟩

theorem State.Spare.setVar (hi : s.Spare i) (ans : SetAnswer) (zVal : Bytes) :
    (setVar gcm ans s zVar zVal).2.Spare i := by
  refine ⟨hi.1, hi.2.1, ?_⟩
  intro n d hd
  obtain ⟨d', hd', hslot⟩ := setVar_registered gcm zVar ans zVal hd
  rw [← hslot]
  exact hi.2.2 n d' hd'

theorem registerVar_slots (h : s.Slots) (ans : CreateAnswer) (hi : s.Spare d.iSlot)
    (hbit : s.aBitmap d.iSlot = true) :
    (registerVar ans s zVar d).2.Slots ∧ Frame zVar s (registerVar ans s zVar d).2 := by
  unfold registerVar
  split
  · exact freeSlot_spare zVar h hi
  · have hslots : State.Slots { s with
        paSecureVar := some (s.paSecureVar.getD fun _ => none) } := by
      refine ⟨h.canary, ?_, ?_⟩
      · intro n d hd
        rw [State.Registered, State.entry_withTable] at hd
        exact h.marked hd
      · intro n d n' d' hd hd'
        rw [State.Registered, State.entry_withTable] at hd hd'
        exact h.distinct hd hd'
    have hframe : Frame zVar s { s with
        paSecureVar := some (s.paSecureVar.getD fun _ => none) } :=
      ⟨fun n _ => s.entry_withTable n, fun _ _ => rfl, fun _ _ _ _ => rfl⟩
    dsimp only
    split
    · obtain ⟨hs, hframe'⟩ := setEntry_slots zVar (d := d) hslots rfl
        ⟨hi.1, hi.2.1, hbit⟩ (fun n d' _ hd' => by
          rw [State.Registered, State.entry_withTable] at hd'
          exact hi.2.2 n d' hd')
      exact ⟨hs, hframe.trans hframe'⟩
    · exact ⟨hslots, hframe⟩

theorem secureSetVar_aBitmap (ans : SetAnswer) (zVal : Bytes) :
    (secureSetVar gcm ans s zVar zVal).2.aBitmap = s.aBitmap := by
  unfold secureSetVar
  rcases (s.entry zVar).join with _ | d
  · rfl
  · dsimp only
    split_ifs
    · rfl
    · rfl
    · rfl

theorem setVar_aBitmap (ans : SetAnswer) (zVal : Bytes) :
    (setVar gcm ans s zVar zVal).2.aBitmap = s.aBitmap := by
  have hsecure := secureSetVar_aBitmap gcm zVar (s := s.setVars zVar .assigned) ans zVal
  unfold setVar
  dsimp only
  split_ifs
  · rfl
  · rfl
  · exact hsecure
  · exact hsecure
  · rfl

theorem createInSlot_slots (h : s.Slots) (hi : s.Spare i) (ans : CreateAnswer) (zVal : Bytes) :
    (createInSlot gcm ans s zVar zVal i).2.Slots ∧
      Frame zVar s (createInSlot gcm ans s zVar zVal i).2 := by
  obtain ⟨hkey, hframe₁⟩ := setKey_spare zVar h hi ans.aKey
  obtain ⟨htake, hframe₂⟩ := takeSlot_spare zVar hkey i
  have hspare : ((s.setKey i ans.aKey).takeSlot i).Spare i := hi
  have hframe := hframe₁.trans hframe₂
  obtain ⟨hfree, hframe₃⟩ := freeSlot_spare zVar htake hspare
  have hslot := (secureEncrypt_spec gcm ans.encrypt ((s.setKey i ans.aKey).takeSlot i).page
    (newData i) zVar zVal).1
  have hset := setVar_slots gcm zVar htake ans.setVar []
  have hspare' := hspare.setVar gcm zVar ans.setVar []
  have hbits := setVar_aBitmap gcm zVar (s := (s.setKey i ans.aKey).takeSlot i) ans.setVar []
  unfold createInSlot
  dsimp only
  generalize secureEncrypt gcm ans.encrypt ((s.setKey i ans.aKey).takeSlot i).page
    (newData i) zVar zVal = sealed at hslot ⊢
  generalize setVar gcm ans.setVar ((s.setKey i ans.aKey).takeSlot i) zVar [] = written at *
  split
  · exact ⟨hkey, hframe₁⟩
  · split
    · exact ⟨hfree, hframe.trans hframe₃⟩
    · rcases sealed with ⟨_ | _, d⟩
      · exact ⟨hfree, hframe.trans hframe₃⟩
      · obtain rfl : d.iSlot = i := hslot
        rcases written with ⟨_ | _, s'⟩
        · obtain ⟨hfree', hframe'⟩ := freeSlot_spare zVar hset.1 hspare'
          exact ⟨hfree', (hframe.trans hset.2).trans hframe'⟩
        · have hbit : s'.aBitmap d.iSlot = true := by
            rw [show s'.aBitmap = _ from hbits]
            exact update_self _ _ _
          obtain ⟨hreg, hframe'⟩ := registerVar_slots zVar hset.1 ans hspare' hbit
          exact ⟨hreg, (hframe.trans hset.2).trans hframe'⟩

theorem secureVarCreate_cases (s : State) (ans : CreateAnswer) (zVal : Bytes) :
    (∃ e, secureVarCreate gcm ans s zVar zVal = (.error e, s)) ∨
      ∃ i, s.existsVar zVar = false ∧ findSlot s.aBitmap = some i ∧
        secureVarCreate gcm ans s zVar zVal = createInSlot gcm ans s zVar zVal i := by
  unfold secureVarCreate
  split
  · exact .inl ⟨_, rfl⟩
  · next hexists =>
    split
    · exact .inl ⟨_, rfl⟩
    · split
      · exact .inl ⟨_, rfl⟩
      · split
        · exact .inl ⟨_, rfl⟩
        · next i hfind => exact .inr ⟨i, by simpa using hexists, hfind, rfl⟩

theorem secureVarCreate_slots (h : s.Slots) (ans : CreateAnswer) (zVal : Bytes) :
    (secureVarCreate gcm ans s zVar zVal).2.Slots ∧
      Frame zVar s (secureVarCreate gcm ans s zVar zVal).2 := by
  rcases secureVarCreate_cases gcm zVar s ans zVal with ⟨e, heq⟩ | ⟨i, -, hfind, heq⟩
  · rw [heq]
    exact ⟨h, Frame.refl _ _⟩
  · rw [heq]
    exact createInSlot_slots gcm zVar h (findSlot_spec h hfind) ans zVal

theorem removeEntry_slots (h : s.Slots) (hd : s.Registered zVar d) :
    (s.setEntry zVar none).Slots ∧ Frame zVar s (s.setEntry zVar none) ∧
      (s.setEntry zVar none).Spare d.iSlot := by
  have hentry := s.entry_setEntry zVar (State.isSome_of_join hd) none
  have hreg : ∀ {n d'}, (s.setEntry zVar none).Registered n d' → n ≠ zVar ∧ s.Registered n d' := by
    intro n d' hd'
    rw [State.Registered, hentry] at hd'
    split at hd'
    · cases hd'
    · next hn => exact ⟨hn, hd'⟩
  refine ⟨⟨h.canary, fun hd' => h.marked (hreg hd').2, fun h₁ h₂ => h.distinct (hreg h₁).2
    (hreg h₂).2⟩, ⟨?_, fun _ _ => rfl, fun _ _ _ _ => rfl⟩, (h.marked hd).1, (h.marked hd).2.1, ?_⟩
  · intro n hn
    rw [hentry, if_neg hn]
  · intro n d' hd' heq
    obtain ⟨hn, hold⟩ := hreg hd'
    exact hn (h.distinct hold hd heq)

theorem unsetVar_slots (h : s.Slots) :
    (unsetVar s zVar).2.Slots ∧ Frame zVar s (unsetVar s zVar).2 := by
  unfold unsetVar
  split
  · exact ⟨h, Frame.refl _ _⟩
  · exact setVars_slots zVar h _

theorem secureVarDelete_slots (h : s.Slots) :
    (secureVarDelete s zVar).2.Slots ∧ Frame zVar s (secureVarDelete s zVar).2 := by
  unfold secureVarDelete
  split
  · exact ⟨h, Frame.refl _ _⟩
  · next d hd =>
    obtain ⟨hgone, hframe₁, hspare⟩ := removeEntry_slots zVar h hd
    obtain ⟨hfree, hframe₂⟩ := freeSlot_spare zVar hgone hspare
    have hcommute : (s.freeSlot d.iSlot).setEntry zVar none =
        (s.setEntry zVar none).freeSlot d.iSlot := rfl
    dsimp only
    rw [if_pos (h.marked hd).2.1, hcommute]
    obtain ⟨hs, hframe₃⟩ := unsetVar_slots zVar hfree
    exact ⟨hs, (hframe₁.trans hframe₂).trans hframe₃⟩

/-! ## What is stored -/

variable {gcm zVar} in
theorem Sealed.frame {page page' : ℕ → Bytes} (h : Sealed gcm page d zVar zVal)
    (hpage : page' d.iSlot = page d.iSlot) : Sealed gcm page' d zVar zVal := by
  rw [Sealed, hpage]
  exact h

theorem secureSetVar_vars (ans : SetAnswer) (zVal : Bytes) :
    (secureSetVar gcm ans s zVar zVal).2.vars = s.vars := by
  unfold secureSetVar
  rcases (s.entry zVar).join with _ | d
  · rfl
  · dsimp only
    split_ifs
    · rfl
    · rfl
    · rfl

theorem secureSetVar_page (ans : SetAnswer) (zVal : Bytes) (hi : s.Spare i) :
    (secureSetVar gcm ans s zVar zVal).2.page i = s.page i := by
  unfold secureSetVar
  rcases hd : (s.entry zVar).join with _ | d
  · rfl
  · have hother : i ≠ d.iSlot := (hi.2.2 zVar d hd).symm
    dsimp only
    split_ifs
    · rfl
    · exact update_of_ne hother _ _
    · exact update_of_ne hother _ _

theorem secureSetVar_sealed (ans : SetAnswer) (hd : s.Registered zVar d)
    (hok : (secureSetVar gcm ans s zVar zVal).1 = .ok ()) :
    ∃ d', (secureSetVar gcm ans s zVar zVal).2.Registered zVar d' ∧
      Sealed gcm (secureSetVar gcm ans s zVar zVal).2.page d' zVar zVal := by
  unfold secureSetVar at hok ⊢
  rw [show (s.entry zVar).join = some d from hd] at hok ⊢
  dsimp only at hok ⊢
  split_ifs at hok ⊢
  obtain ⟨hslot, hsealed⟩ := secureEncrypt_spec gcm ans.encrypt (s.setKey d.iSlot ans.aKey).page d
    zVar zVal
  refine ⟨_, ?_, hsealed hok⟩
  have hhash : (s.setKey d.iSlot ans.aKey).paSecureVar.isSome = true := State.isSome_of_join hd
  simp only [State.Registered, State.entry_setEntry _ _ hhash, if_true, Option.join_some]

theorem setVar_vars (ans : SetAnswer) (hok : (setVar gcm ans s zVar zVal).1 = .ok ()) :
    (setVar gcm ans s zVar zVal).2.vars zVar = .assigned := by
  unfold setVar at hok ⊢
  dsimp only at hok ⊢
  split_ifs at hok ⊢
  · rw [secureSetVar_vars]
    exact update_self _ _ _
  · exact update_self _ _ _

theorem setVar_page (ans : SetAnswer) (zVal : Bytes) (hi : s.Spare i) :
    (setVar gcm ans s zVar zVal).2.page i = s.page i := by
  have hsecure := secureSetVar_page gcm zVar (s := s.setVars zVar .assigned) ans zVal hi
  unfold setVar
  dsimp only
  split_ifs
  · rfl
  · rfl
  · exact hsecure
  · exact hsecure
  · rfl

theorem setVar_sealed (ans : SetAnswer) (hsecure : s.isSecureVar zVar = true)
    (hok : (setVar gcm ans s zVar zVal).1 = .ok ()) :
    ∃ d, (setVar gcm ans s zVar zVal).2.Registered zVar d ∧
      Sealed gcm (setVar gcm ans s zVar zVal).2.page d zVar zVal := by
  obtain ⟨d, hd⟩ := Option.isSome_iff_exists.mp hsecure
  unfold setVar at hok ⊢
  dsimp only at hok ⊢
  split_ifs at hok ⊢
  · exact secureSetVar_sealed gcm zVar (s := s.setVars zVar .assigned) ans hd hok
  · exact absurd hsecure ‹_›

theorem registerVar_ok (ans : CreateAnswer) (hok : (registerVar ans s zVar d).1 = .ok ())
    (hsecure : (registerVar ans s zVar d).2.isSecureVar zVar = true) :
    (registerVar ans s zVar d).2.Registered zVar d ∧
      (registerVar ans s zVar d).2.page = s.page ∧ (registerVar ans s zVar d).2.vars = s.vars := by
  unfold registerVar at hok hsecure ⊢
  dsimp only at hok hsecure ⊢
  split_ifs at hok hsecure ⊢ with _ hentry
  · refine ⟨?_, rfl, rfl⟩
    rw [State.Registered, State.entry_setEntry _ _ rfl, if_pos rfl]
    rfl
  · rw [Bool.or_eq_true, not_or] at hentry
    rw [State.isSecureVar] at hsecure
    rcases hnone : State.entry { s with
      paSecureVar := some (s.paSecureVar.getD fun _ => none) } zVar with _ | e
    · rw [hnone] at hsecure
      cases hsecure
    · rw [hnone] at hentry
      exact absurd rfl hentry.1

theorem createInSlot_sealed (hi : s.Spare i) (ans : CreateAnswer)
    (hok : (createInSlot gcm ans s zVar zVal i).1 = .ok ())
    (hsecure : (createInSlot gcm ans s zVar zVal i).2.isSecureVar zVar = true) :
    (createInSlot gcm ans s zVar zVal i).2.vars zVar = .assigned ∧
      ∃ d, (createInSlot gcm ans s zVar zVal i).2.Registered zVar d ∧
        Sealed gcm (createInSlot gcm ans s zVar zVal i).2.page d zVar zVal := by
  obtain ⟨hslot, hsealed⟩ := secureEncrypt_spec gcm ans.encrypt
    ((s.setKey i ans.aKey).takeSlot i).page (newData i) zVar zVal
  have hspare : ((s.setKey i ans.aKey).takeSlot i).Spare i := hi
  have hvars : (setVar gcm ans.setVar ((s.setKey i ans.aKey).takeSlot i) zVar []).1 = .ok () →
      (setVar gcm ans.setVar ((s.setKey i ans.aKey).takeSlot i) zVar []).2.vars zVar =
        .assigned := setVar_vars gcm zVar ans.setVar
  have hpage := setVar_page gcm zVar ans.setVar [] hspare
  unfold createInSlot at hok hsecure ⊢
  dsimp only at hok hsecure ⊢
  generalize secureEncrypt gcm ans.encrypt ((s.setKey i ans.aKey).takeSlot i).page
    (newData i) zVar zVal = sealed at *
  generalize setVar gcm ans.setVar ((s.setKey i ans.aKey).takeSlot i) zVar [] = written at *
  split_ifs at hok hsecure ⊢
  rcases sealed with ⟨_ | _, d⟩
  · cases hok
  · rcases written with ⟨_ | _, s'⟩
    · cases hok
    · obtain ⟨hreg, hpage', hvars'⟩ := registerVar_ok zVar ans hok hsecure
      refine ⟨?_, d, hreg, (hsealed rfl).frame ?_⟩
      · rw [hvars']
        exact hvars rfl
      · obtain rfl : d.iSlot = i := hslot
        rw [hpage']
        exact hpage

theorem created_held (h : s.Slots) (ans : CreateAnswer)
    (hok : (secureVarCreate gcm ans s zVar zVal).1 = .ok ())
    (hsecure : (secureVarCreate gcm ans s zVar zVal).2.isSecureVar zVar = true) :
    (secureVarCreate gcm ans s zVar zVal).2.vars zVar ≠ .absent ∧
      ∃ d, (secureVarCreate gcm ans s zVar zVal).2.Registered zVar d ∧
        Sealed gcm (secureVarCreate gcm ans s zVar zVal).2.page d zVar zVal := by
  rcases secureVarCreate_cases gcm zVar s ans zVal with ⟨e, heq⟩ | ⟨i, -, hfind, heq⟩
  · rw [heq] at hok
    cases hok
  · rw [heq] at hok hsecure ⊢
    obtain ⟨hvars, hsealed⟩ := createInSlot_sealed gcm zVar (findSlot_spec h hfind) ans hok hsecure
    exact ⟨by simp [hvars], hsealed⟩

/-! ## Runs -/

variable {gcm zVar}

def Op.varName : Op → Bytes
  | .create _ z _ => z
  | .set _ z _ => z
  | .delete z => z
  | .unset z => z

theorem step_slots (h : s.Slots) (op : Op) :
    (step gcm s op).Slots ∧ Frame op.varName s (step gcm s op) := by
  cases op with
  | create ans zVar zVal => exact secureVarCreate_slots gcm zVar h ans zVal
  | set ans zVar zVal => exact setVar_slots gcm zVar h ans zVal
  | delete zVar => exact secureVarDelete_slots zVar h
  | unset zVar => exact unsetVar_slots zVar h

theorem secureInit_slots (vars : Bytes → Scalar) : (secureInit vars).Slots := by
  refine ⟨?_, ?_, ?_⟩
  · simp only [secureCheckCanary, secureInit, update_self]
    decide
  · intro n d hd
    cases hd
  · intro n d n' d' hd
    cases hd

/-- The value that was stored last under each name: by a creation that registers the
variable or a write that succeeds.  A write that goes wrong, a deletion or the loss of the
ordinary variable leave nothing that would have to be found again. -/
def storedAfter (gcm : Gcm) (s : State) (stored : Bytes → Option Bytes) (op : Op) :
    Bytes → Option Bytes :=
  match op with
  | .create _ zVar zVal =>
    if s.existsVar zVar then stored
    else update stored zVar
      (if (run gcm s op).1 = .ok () ∧ (step gcm s op).isSecureVar zVar then some zVal else none)
  | .set _ zVar zVal =>
    if s.isSecureVar zVar then
      update stored zVar (if (run gcm s op).1 = .ok () then some zVal else none)
    else stored
  | .delete zVar => update stored zVar none
  | .unset zVar => update stored zVar none

def storingStep (gcm : Gcm) (p : State × (Bytes → Option Bytes)) (op : Op) :
    State × (Bytes → Option Bytes) :=
  (step gcm p.1 op, storedAfter gcm p.1 p.2 op)

def Held (gcm : Gcm) (s : State) (stored : Bytes → Option Bytes) : Prop :=
  ∀ zVar zVal, stored zVar = some zVal →
    s.vars zVar ≠ .absent ∧ ∃ d, s.Registered zVar d ∧ Sealed gcm s.page d zVar zVal

variable {stored : Bytes → Option Bytes}

theorem Held.of_frame (h : Held gcm s stored) (hframe : Frame zVar s s') (hn : n ≠ zVar)
    (hstored : stored n = some zVal) :
    s'.vars n ≠ .absent ∧ ∃ d, s'.Registered n d ∧ Sealed gcm s'.page d n zVal := by
  obtain ⟨hvars, d, hd, hsealed⟩ := h n zVal hstored
  refine ⟨by rwa [hframe.vars n hn], d, ?_, hsealed.frame (hframe.page n d hn hd)⟩
  rw [State.Registered, hframe.entry n hn]
  exact hd

theorem step_held (h : s.Slots) (hheld : Held gcm s stored) (op : Op) :
    Held gcm (step gcm s op) (storedAfter gcm s stored op) := by
  have hframe : Frame op.varName s (step gcm s op) := (step_slots h op).2
  intro n v hv
  cases op with
  | create ans zVar zVal =>
    rw [storedAfter] at hv
    by_cases hexists : s.existsVar zVar = true
    · have hrefused : step gcm s (.create ans zVar zVal) = s := by
        simp [step, run, secureVarCreate, hexists]
      rw [if_pos hexists] at hv
      rw [hrefused]
      exact hheld n v hv
    · rw [if_neg hexists, update_apply] at hv
      split at hv
      · next hn =>
        subst hn
        split at hv
        · next hok =>
          cases hv
          exact created_held gcm n h ans hok.1 hok.2
        · cases hv
      · next hn => exact hheld.of_frame hframe hn hv
  | set ans zVar zVal =>
    rw [storedAfter] at hv
    split at hv
    · next hsecure =>
      rw [update_apply] at hv
      split at hv
      · next hn =>
        subst hn
        split at hv
        · next hok =>
          cases hv
          have hvars := setVar_vars gcm n ans hok
          exact ⟨by rw [step, run, hvars]; decide, setVar_sealed gcm n ans hsecure hok⟩
        · cases hv
      · next hn => exact hheld.of_frame hframe hn hv
    · next hplain =>
      have hn : n ≠ zVar := by
        rintro rfl
        obtain ⟨-, d, hd, -⟩ := hheld n v hv
        exact hplain (Option.isSome_iff_exists.mpr ⟨d, hd⟩)
      exact hheld.of_frame hframe hn hv
  | delete zVar =>
    rw [storedAfter, update_apply] at hv
    split at hv
    · cases hv
    · next hn => exact hheld.of_frame hframe hn hv
  | unset zVar =>
    rw [storedAfter, update_apply] at hv
    split at hv
    · cases hv
    · next hn => exact hheld.of_frame hframe hn hv

def Keeps (gcm : Gcm) (p : State × (Bytes → Option Bytes)) : Prop :=
  p.1.Slots ∧ Held gcm p.1 p.2

theorem keeps_of_reachable {vars : Bytes → Scalar} {p : State × (Bytes → Option Bytes)}
    (h : Reachable (storingStep gcm) (secureInit vars, fun _ => none) p) : Keeps gcm p := by
  have hinit : Keeps gcm (secureInit vars, fun _ => none) := by
    refine ⟨secureInit_slots vars, ?_⟩
    intro zVar zVal hv
    cases hv
  apply h.invariant hinit
  rintro ⟨s, stored⟩ op ⟨hslots, hheld⟩ -
  exact ⟨(step_slots hslots op).1, step_held hslots hheld op⟩

theorem getVar_of_held (hgcm : gcm.Inverse) {nUsable : ℕ} (hslots : s.Slots)
    (hheld : Held gcm s stored) (hstored : stored zVar = some zVal)
    (hfits : securePadSize zVal.length + 1 ≤ nUsable) :
    getVar gcm nUsable .granted s zVar = .ok (stripPadding (padText zVal)) := by
  obtain ⟨hvars, d, hd, hsealed⟩ := hheld zVar zVal hstored
  have hlength := hgcm.length (s.page d.iSlot) (secureDeriveNonce d.nNonce) zVar (padText zVal)
  have hdecrypt := hgcm.decrypt_encrypt (s.page d.iSlot) (secureDeriveNonce d.nNonce) zVar
    (padText zVal)
  rw [Sealed] at hsealed
  rw [hsealed] at hlength hdecrypt
  have hsize : (padText zVal).length = securePadSize zVal.length := by
    rw [padText_length, securePadSize_eq]
  have hne : d.zCipher ≠ [] := List.ne_nil_of_length_pos (hlength ▸ padText_length_pos zVal)
  have hroom : ¬ nUsable < d.zCipher.length + 1 := by
    rw [hlength, hsize]
    omega
  have hnofail : evpFailure none zVar = none := by simp [evpFailure]
  simp only [getVar, if_neg hvars, secureGetVar, show (s.entry zVar).join = some d from hd,
    DecryptAnswer.granted, secureDecrypt, hslots.canary, hne, hroom, hnofail, hdecrypt,
    Bool.not_true, if_false, Bool.false_eq_true]

/-- Reading a secure variable gives the value that was stored last exactly when its length is
less than 192 modulo 256. -/
theorem getVar_eq_stored_iff (hgcm : gcm.Inverse) {vars : Bytes → Scalar}
    {p : State × (Bytes → Option Bytes)} {nUsable : ℕ}
    (h : Reachable (storingStep gcm) (secureInit vars, fun _ => none) p)
    (hstored : p.2 zVar = some zVal) (hfits : securePadSize zVal.length + 1 ≤ nUsable) :
    getVar gcm nUsable .granted p.1 zVar = .ok zVal ↔ zVal.length % 256 < 192 := by
  obtain ⟨hslots, hheld⟩ := keeps_of_reachable h
  rw [getVar_of_held hgcm hslots hheld hstored hfits, Except.ok.injEq]
  exact stripPadding_padText_iff zVal

def plainGcm : Gcm where
  encrypt _ _ _ z := (z, List.replicate 16 0)
  decrypt _ _ _ z _ := some z

theorem plainGcm_inverse : plainGcm.Inverse := ⟨fun _ _ _ _ => rfl, fun _ _ _ _ => rfl⟩

def sampleCreate (nVal : ℕ) : Op :=
  .create (.granted (List.replicate keySize 7)) (ascii "v") (List.replicate nVal 0x61)

theorem getVar_eq_stored_sample :
    getVar plainGcm 4088 .granted
        (storingStep plainGcm (secureInit fun _ => .absent, fun _ => none) (sampleCreate 3)).1
        (ascii "v") = .ok (ascii "aaa") ↔ (ascii "aaa").length % 256 < 192 :=
  getVar_eq_stored_iff plainGcm_inverse (.step (sampleCreate 3) .init trivial)
    (by decide +kernel) (by decide +kernel)

/-- One of 192 characters is read with its padding. -/
theorem getVar_padding :
    ¬ ∀ (gcm : Gcm), gcm.Inverse → ∀ (vars : Bytes → Scalar)
      (p : State × (Bytes → Option Bytes)) (nUsable : ℕ) (zVar zVal : Bytes),
      Reachable (storingStep gcm) (secureInit vars, fun _ => none) p → p.2 zVar = some zVal →
        securePadSize zVal.length + 1 ≤ nUsable →
          getVar gcm nUsable .granted p.1 zVar = .ok zVal := by
  intro h
  have hread := h plainGcm plainGcm_inverse (fun _ => .absent) _ 4088 (ascii "v")
    (List.replicate 192 0x61) (.step (sampleCreate 192) .init trivial) (by decide +kernel)
    (by decide +kernel)
  exact absurd hread (by decide +kernel)

end Secure

end Th8
