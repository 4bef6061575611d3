import Th8.Secure.Reading

/-!
# The registry of secure variables

As long as the hash and its entries get their memory, no write of a secure variable goes
wrong after it has begun and no secure variable is unset as an ordinary one, the marked
slots are those of the registered variables and an operation that fails changes nothing.
-/

namespace Th8

open Support List

namespace Secure

variable {gcm : Gcm} {s s' : State} {zVar zVal n : Bytes} {d : SecureVarData} {i : ℕ}

/-- The marked slots are those of the registered variables and are counted, every entry of the
hash has metadata, and every registered variable has a value. -/
structure State.Sound (s : State) : Prop where
  slots : s.Slots
  metadata : ∀ n, s.entry n ≠ some none
  used : ∀ i, firstVar ≤ i → i < maxSlots →
    (s.aBitmap i = true ↔ ∃ n d, s.Registered n d ∧ d.iSlot = i)
  counted : ∃ names : List Bytes, names.Nodup ∧
    (∀ n, n ∈ names ↔ s.isSecureVar n = true) ∧ s.nUsed = names.length
  visible : ∀ n, s.isSecureVar n = true → s.existsVar n = true

structure Undisturbed (s s' : State) : Prop where
  entry : ∀ n, s'.entry n = s.entry n
  aBitmap : s'.aBitmap = s.aBitmap
  nUsed : s'.nUsed = s.nUsed
  existsVar : ∀ n, s'.existsVar n = s.existsVar n

/-- A creation registers its variable or leaves nothing behind, and a write of a secure
variable that fails leaves what can be read of it. -/
def Behaves (gcm : Gcm) (s : State) (op : Op) : Prop :=
  match op with
  | .create _ z _ =>
    (run gcm s op).1 = .ok () ∧ (step gcm s op).isSecureVar z = true ∧
        (step gcm s op).existsVar z = true ∨
      (run gcm s op).1 ≠ .ok () ∧ Undisturbed s (step gcm s op)
  | .set _ z _ => (run gcm s op).1 ≠ .ok () → s.isSecureVar z = true →
    ∀ nUsable ans, getVar gcm nUsable ans (step gcm s op) z = getVar gcm nUsable ans s z
  | .delete _ => True
  | .unset _ => True

def Permitted (s : State) : Op → Prop
  | .create ans _ _ => (s.paSecureVar.isNone = true → ans.hashNew = true) ∧ ans.hashEntry = true
  | .set ans z _ => s.isSecureVar z = true → ans.found = true →
    ans.value = true ∧ ans.random = true ∧ ans.encrypt.buffers = true ∧
      evpFailure ans.encrypt.fails z = none ∧ ans.sentinel = true
  | .delete _ => True
  | .unset z => s.isSecureVar z = false

/-! ## Changes that keep a state sound -/

theorem State.isSecureVar_iff : s.isSecureVar n = true ↔ ∃ d, s.Registered n d :=
  Option.isSome_iff_exists

theorem Undisturbed.refl (s : State) : Undisturbed s s := ⟨fun _ => rfl, rfl, rfl, fun _ => rfl⟩

theorem Undisturbed.sound (h : Undisturbed s s') (hs : s.Sound) (hslots : s'.Slots) : s'.Sound := by
  have hsecure : ∀ n, s'.isSecureVar n = s.isSecureVar n := by
    intro n
    rw [State.isSecureVar, h.entry, State.isSecureVar]
  refine ⟨hslots, ?_, ?_, ?_, ?_⟩
  · intro n
    rw [h.entry]
    exact hs.metadata n
  · intro i hlow hhigh
    rw [h.aBitmap, hs.used i hlow hhigh]
    simp only [State.Registered, h.entry]
  · obtain ⟨names, hnodup, hnames, hcount⟩ := hs.counted
    refine ⟨names, hnodup, ?_, by rw [h.nUsed, hcount]⟩
    intro n
    rw [hsecure, hnames]
  · intro n hn
    rw [hsecure] at hn
    rw [h.existsVar, hs.visible n hn]

theorem State.Sound.setVars (hs : s.Sound) (hplain : s.isSecureVar zVar = false) (v : Scalar) :
    (s.setVars zVar v).Sound := by
  refine ⟨(setVars_slots zVar hs.slots v).1, hs.metadata, hs.used, hs.counted, ?_⟩
  intro n hn
  have hne : n ≠ zVar := by
    rintro rfl
    rw [show s.isSecureVar n = true from hn] at hplain
    cases hplain
  have hvisible := hs.visible n hn
  rw [State.existsVar] at hvisible ⊢
  rwa [State.vars_setVars, if_neg hne]

variable (gcm) in
theorem setVar_plain (hplain : s.isSecureVar zVar = false) (ans : SetAnswer) (zVal : Bytes) :
    (setVar gcm ans s zVar zVal).1 ≠ .ok () ∧ (setVar gcm ans s zVar zVal).2 = s ∨
      ∃ v, (setVar gcm ans s zVar zVal).2 = s.setVars zVar v ∧
        ((setVar gcm ans s zVar zVal).1 = .ok () ↔ v = .assigned) := by
  have hafter : (s.setVars zVar .assigned).isSecureVar zVar = false := hplain
  unfold setVar
  dsimp only
  rw [hafter]
  split
  · exact .inl ⟨by simp, rfl⟩
  · split
    · exact .inr ⟨.bare, rfl, by simp⟩
    · exact .inr ⟨.assigned, rfl, by simp⟩

theorem State.Sound.replace {d' : SecureVarData} (hs : s.Sound) (hd : s.Registered zVar d)
    (hslots : s'.Slots) (hslot : d'.iSlot = d.iSlot)
    (hentry : ∀ n, s'.entry n = if n = zVar then some (some d') else s.entry n)
    (hbits : s'.aBitmap = s.aBitmap) (hcount : s'.nUsed = s.nUsed)
    (hvars : ∀ n, s.existsVar n = true → s'.existsVar n = true) : s'.Sound := by
  have hsecure : ∀ n, s'.isSecureVar n = s.isSecureVar n := by
    intro n
    rw [State.isSecureVar, hentry]
    split
    · next hn =>
      rw [hn, State.isSecureVar_iff.mpr ⟨d, hd⟩]
      rfl
    · rfl
  refine ⟨hslots, ?_, ?_, ?_, ?_⟩
  · intro n
    rw [hentry]
    split
    · simp
    · exact hs.metadata n
  · intro i hlow hhigh
    rw [hbits, hs.used i hlow hhigh]
    constructor
    · rintro ⟨n, e, he, rfl⟩
      by_cases hn : n = zVar
      · subst hn
        obtain rfl : e = d := Option.some.inj (he.symm.trans hd)
        exact ⟨n, d', by simp [State.Registered, hentry], hslot⟩
      · exact ⟨n, e, by simpa [State.Registered, hentry, hn] using he, rfl⟩
    · rintro ⟨n, e, he, rfl⟩
      rw [State.Registered, hentry] at he
      split at he
      · cases he
        exact ⟨zVar, d, hd, hslot.symm⟩
      · exact ⟨n, e, he, rfl⟩
  · obtain ⟨names, hnodup, hnames, hlen⟩ := hs.counted
    refine ⟨names, hnodup, ?_, hcount.trans hlen⟩
    intro n
    rw [hsecure, hnames]
  · intro n hn
    rw [hsecure] at hn
    exact hvars n (hs.visible n hn)

theorem State.Sound.deregister (hs : s.Sound) (hd : s.Registered zVar d) (hslots : s'.Slots)
    (hentry : ∀ n, s'.entry n = if n = zVar then none else s.entry n)
    (hbits : ∀ j, s'.aBitmap j = if j = d.iSlot then false else s.aBitmap j)
    (hcount : s'.nUsed = s.nUsed - 1)
    (hvars : ∀ n, n ≠ zVar → s'.existsVar n = s.existsVar n) : s'.Sound := by
  have hsecure : ∀ n, s'.isSecureVar n = true ↔ n ≠ zVar ∧ s.isSecureVar n = true := by
    intro n
    rw [State.isSecureVar, hentry]
    split
    · next hn => simp [hn]
    · next hn => simp [hn, State.isSecureVar]
  refine ⟨hslots, ?_, ?_, ?_, ?_⟩
  · intro n
    rw [hentry]
    split
    · simp
    · exact hs.metadata n
  · intro j hlow hhigh
    rw [hbits]
    constructor
    · intro hj
      split at hj
      · cases hj
      · next hne =>
        obtain ⟨n, e, he, rfl⟩ := (hs.used j hlow hhigh).mp hj
        have hn : n ≠ zVar := by
          rintro rfl
          exact hne (congrArg SecureVarData.iSlot (Option.some.inj (he.symm.trans hd)))
        exact ⟨n, e, by simpa [State.Registered, hentry, hn] using he, rfl⟩
    · rintro ⟨n, e, he, rfl⟩
      rw [State.Registered, hentry] at he
      split at he
      · cases he
      · next hn =>
        rw [if_neg fun heq => hn (hs.slots.distinct he hd heq)]
        exact (hs.slots.marked he).2.2
  · obtain ⟨names, hnodup, hnames, hlen⟩ := hs.counted
    have hmem : zVar ∈ names := (hnames zVar).mpr (State.isSecureVar_iff.mpr ⟨d, hd⟩)
    refine ⟨names.erase zVar, hnodup.erase zVar, ?_, ?_⟩
    · intro n
      rw [hnodup.mem_erase_iff, hnames, hsecure]
    · have hpos := length_pos_of_mem hmem
      rw [hcount, hlen, length_erase_of_mem hmem]
      omega
  · intro n hn
    obtain ⟨hz, hold⟩ := (hsecure n).mp hn
    rw [hvars n hz]
    exact hs.visible n hold

/-! ## Creation -/

theorem Undisturbed.giveBack (hbit : s.aBitmap i = false) (key : Bytes) :
    Undisturbed s (((s.setKey i key).takeSlot i).freeSlot i) := by
  refine ⟨fun _ => rfl, ?_, ?_, fun _ => rfl⟩
  · funext j
    rw [State.aBitmap_freeSlot, State.aBitmap_takeSlot]
    split
    · next hj => rw [hj, hbit]
    · rfl
  · exact Int.add_sub_cancel s.nUsed 1

theorem State.Sound.register (hs : s.Sound) (hplain : s.isSecureVar zVar = false)
    (hslots : s'.Slots) (hslot : d.iSlot = i)
    (hentry : ∀ n, s'.entry n = if n = zVar then some (some d) else s.entry n)
    (hbits : ∀ j, s'.aBitmap j = if j = i then true else s.aBitmap j)
    (hcount : s'.nUsed = s.nUsed + 1) (hexists : s'.existsVar zVar = true)
    (hvars : ∀ n, n ≠ zVar → s'.existsVar n = s.existsVar n) : s'.Sound := by
  have hsecure : ∀ n, s'.isSecureVar n = true ↔ n = zVar ∨ s.isSecureVar n = true := by
    intro n
    rw [State.isSecureVar, hentry]
    split
    · next hn => simp [hn]
    · next hn => simp [hn, State.isSecureVar]
  refine ⟨hslots, ?_, ?_, ?_, ?_⟩
  · intro n
    rw [hentry]
    split
    · simp
    · exact hs.metadata n
  · intro j hlow hhigh
    rw [hbits]
    constructor
    · intro hj
      split at hj
      · next heq =>
        refine ⟨zVar, d, ?_, hslot.trans heq.symm⟩
        rw [State.Registered, hentry, if_pos rfl]
        rfl
      · obtain ⟨n, d', hd', hj'⟩ := (hs.used j hlow hhigh).mp hj
        have hn : n ≠ zVar := by
          rintro rfl
          rw [State.isSecureVar_iff.mpr ⟨d', hd'⟩] at hplain
          cases hplain
        refine ⟨n, d', ?_, hj'⟩
        rw [State.Registered, hentry, if_neg hn]
        exact hd'
    · rintro ⟨n, d', hd', rfl⟩
      rw [State.Registered, hentry] at hd'
      split at hd'
      · cases hd'
        rw [if_pos hslot]
      · split
        · rfl
        · exact (hs.used _ hlow hhigh).mpr ⟨n, d', hd', rfl⟩
  · obtain ⟨names, hnodup, hnames, hlen⟩ := hs.counted
    refine ⟨zVar :: names, ?_, ?_, ?_⟩
    · apply nodup_cons.mpr ⟨?_, hnodup⟩
      rw [hnames, hplain]
      simp
    · intro n
      rw [mem_cons, hnames, hsecure]
    · rw [hcount, hlen, length_cons]
      rfl
  · intro n hn
    by_cases hz : n = zVar
    · rw [hz, hexists]
    · rw [hvars n hz]
      exact hs.visible n (((hsecure n).mp hn).resolve_left hz)

variable (zVar) in
theorem registerVar_granted (ans : CreateAnswer)
    (hnew : s.paSecureVar.isNone = true → ans.hashNew = true) (hentry : ans.hashEntry = true) :
    (registerVar ans s zVar d).1 = .ok () ∧
      (∀ n, (registerVar ans s zVar d).2.entry n =
        if n = zVar then some (some d) else s.entry n) ∧
      (registerVar ans s zVar d).2.aBitmap = s.aBitmap ∧
        (registerVar ans s zVar d).2.nUsed = s.nUsed ∧
          (registerVar ans s zVar d).2.vars = s.vars := by
  have hgo : (s.paSecureVar.isNone && !ans.hashNew) = false := by
    rcases h : s.paSecureVar.isNone
    · rfl
    · rw [hnew h]
      rfl
  unfold registerVar
  dsimp only
  rw [hgo, hentry, Bool.or_true, if_neg (by simp), if_pos rfl]
  refine ⟨rfl, ?_, rfl, rfl, rfl⟩
  intro n
  rw [State.entry_setEntry _ _ rfl, State.entry_withTable]

variable (gcm) in
theorem createInSlot_sound (hs : s.Sound) (hi : s.Spare i) (hbit : s.aBitmap i = false)
    (hexists : s.existsVar zVar = false) (ans : CreateAnswer) (zVal : Bytes)
    (hnew : s.paSecureVar.isNone = true → ans.hashNew = true) (hentry : ans.hashEntry = true) :
    (createInSlot gcm ans s zVar zVal i).1 = .ok () ∧
        (createInSlot gcm ans s zVar zVal i).2.isSecureVar zVar = true ∧
          (createInSlot gcm ans s zVar zVal i).2.Sound ∨
      (createInSlot gcm ans s zVar zVal i).1 ≠ .ok () ∧
        Undisturbed s (createInSlot gcm ans s zVar zVal i).2 := by
  have hslots := (createInSlot_slots gcm zVar hs.slots hi ans zVal).1
  have hplain : s.isSecureVar zVar = false := by
    by_contra hne
    rw [hs.visible zVar (by simpa using hne)] at hexists
    cases hexists
  have hback := Undisturbed.giveBack hbit ans.aKey
  have hslot := (secureEncrypt_spec gcm ans.encrypt ((s.setKey i ans.aKey).takeSlot i).page
    (newData i) zVar zVal).1
  have hset := setVar_plain gcm (s := (s.setKey i ans.aKey).takeSlot i) hplain ans.setVar []
  revert hslots
  unfold createInSlot
  dsimp only
  generalize secureEncrypt gcm ans.encrypt ((s.setKey i ans.aKey).takeSlot i).page
    (newData i) zVar zVal = sealed at *
  generalize setVar gcm ans.setVar ((s.setKey i ans.aKey).takeSlot i) zVar [] = written at *
  split
  · intro hslots
    exact .inr ⟨by simp, fun _ => rfl, rfl, rfl, fun _ => rfl⟩
  · split
    · intro hslots
      exact .inr ⟨by simp, hback⟩
    · rcases sealed with ⟨_ | _, d⟩
      · intro hslots
        exact .inr ⟨by simp, hback⟩
      · intro hslots
        rcases written with ⟨_ | _, s'⟩
        · -- The ordinary variable is not there, with or without a record.
          refine .inr ⟨by simp, ?_⟩
          rcases hset with ⟨-, rfl⟩ | ⟨v, rfl, hv⟩
          · exact hback
          · refine ⟨hback.entry, hback.aBitmap, hback.nUsed, ?_⟩
            intro n
            by_cases hn : n = zVar
            · have hne : v ≠ .assigned := fun h => by simpa using hv.mpr h
              rw [hn, hexists, State.existsVar]
              simpa [State.freeSlot, State.vars_setVars] using hne
            · simp [State.existsVar, State.freeSlot, State.vars_setVars, hn, State.takeSlot,
                State.setKey]
        · rcases hset with ⟨hne, -⟩ | ⟨v, rfl, hv⟩
          · exact absurd rfl hne
          · obtain rfl := hv.mp rfl
            obtain ⟨hok, hentries, hbits, hcount, hvars⟩ := registerVar_granted
              (s := ((s.setKey i ans.aKey).takeSlot i).setVars zVar .assigned) zVar
              (d := d) ans hnew hentry
            have hassigned : State.existsVar (registerVar ans
                (((s.setKey i ans.aKey).takeSlot i).setVars zVar .assigned) zVar d).2 zVar =
                  true := by
              rw [State.existsVar, hvars, State.vars_setVars, if_pos rfl]
              rfl
            refine .inl ⟨hok, ?_, hs.register hplain hslots hslot hentries ?_ hcount hassigned ?_⟩
            · rw [State.isSecureVar, hentries, if_pos rfl]
              rfl
            · intro j
              rw [hbits]
              exact State.aBitmap_takeSlot _ _ _
            · intro n hn
              rw [State.existsVar, hvars, State.vars_setVars, if_neg hn]
              rfl

theorem findSlot_free {aBitmap : ℕ → Bool} (h : findSlot aBitmap = some i) : aBitmap i = false := by
  simpa using find?_some h

theorem create_sound (hs : s.Sound) (ans : CreateAnswer) (zVar zVal : Bytes)
    (hperm : Permitted s (.create ans zVar zVal)) :
    (step gcm s (.create ans zVar zVal)).Sound ∧ Behaves gcm s (.create ans zVar zVal) := by
  have hslots : (secureVarCreate gcm ans s zVar zVal).2.Slots :=
    (secureVarCreate_slots gcm zVar hs.slots ans zVal).1
  rcases secureVarCreate_cases gcm zVar s ans zVal with ⟨e, heq⟩ | ⟨i, hexists, hfind, heq⟩
  · have hstep : step gcm s (.create ans zVar zVal) = s := congrArg Prod.snd heq
    refine ⟨by rwa [hstep], .inr ⟨?_, by rw [hstep]; exact Undisturbed.refl s⟩⟩
    rw [run, heq]
    simp
  · rw [heq] at hslots
    have hstep : step gcm s (.create ans zVar zVal) = (createInSlot gcm ans s zVar zVal i).2 :=
      congrArg Prod.snd heq
    rcases createInSlot_sound gcm hs (findSlot_spec hs.slots hfind) (findSlot_free hfind)
      hexists ans zVal hperm.1 hperm.2 with ⟨hok, hsecure, hsound⟩ | ⟨herr, hsame⟩
    · refine ⟨hstep ▸ hsound, .inl ⟨?_, hstep ▸ hsecure, hstep ▸ hsound.visible zVar hsecure⟩⟩
      rw [run, heq]
      exact hok
    · refine ⟨hstep ▸ hsame.sound hs hslots, .inr ⟨?_, hstep ▸ hsame⟩⟩
      rw [run, heq]
      exact herr

/-! ## Writing -/

theorem secureSetVar_found (hd : s.Registered zVar d) (hslot : d.iSlot < maxSlots)
    (ans : SetAnswer) (hrandom : ans.random = true) :
    secureSetVar gcm ans s zVar zVal =
      ((secureEncrypt gcm ans.encrypt (s.setKey d.iSlot ans.aKey).page d zVar zVal).1,
        (s.setKey d.iSlot ans.aKey).setEntry zVar (some (some
          (secureEncrypt gcm ans.encrypt (s.setKey d.iSlot ans.aKey).page d zVar zVal).2))) := by
  unfold secureSetVar
  rw [show (s.entry zVar).join = some d from hd]
  dsimp only
  rw [if_neg (not_le.mpr hslot), hrandom]
  rfl

variable (gcm) in
theorem set_found_sound (hs : s.Sound) (ans : SetAnswer) (zVar zVal : Bytes)
    (hsecure : s.isSecureVar zVar = true) (hvalue : ans.value = true)
    (hrandom : ans.random = true) (hbuffers : ans.encrypt.buffers = true)
    (hevp : evpFailure ans.encrypt.fails zVar = none) (hsentinel : ans.sentinel = true)
    (hfound : ans.found = true) :
    (setVar gcm ans s zVar zVal).1 = .ok () ∧ (setVar gcm ans s zVar zVal).2.Sound := by
  obtain ⟨d, hd⟩ := State.isSecureVar_iff.mp hsecure
  have hslots := (setVar_slots gcm zVar hs.slots ans zVal).1
  obtain ⟨hlow, hhigh, hbit⟩ := hs.slots.marked hd
  have hset : setVar gcm ans s zVar zVal =
      secureSetVar gcm ans (s.setVars zVar .assigned) zVar zVal := by
    unfold setVar
    dsimp only
    rw [hfound, hvalue, show (s.setVars zVar .assigned).isSecureVar zVar = true from hsecure,
      hsentinel]
    rfl
  rw [hset] at hslots ⊢
  rw [secureSetVar_found (s := s.setVars zVar .assigned) hd hhigh ans hrandom] at hslots ⊢
  have hcanary : secureCheckCanary ((s.setVars zVar .assigned).setKey d.iSlot ans.aKey).page =
      true := (secureCheckCanary_update hlow).trans hs.slots.canary
  have hslot := (secureEncrypt_spec gcm ans.encrypt
    ((s.setVars zVar .assigned).setKey d.iSlot ans.aKey).page d zVar zVal).1
  have hhash : ((s.setVars zVar .assigned).setKey d.iSlot ans.aKey).paSecureVar.isSome = true :=
    State.isSome_of_join (s := s) hd
  refine ⟨?_, hs.replace hd hslots hslot ?_ rfl rfl ?_⟩
  · unfold secureEncrypt
    rw [hcanary, hbuffers, hevp]
    rfl
  · exact State.entry_setEntry _ zVar hhash _
  · intro n hn
    have hvars := State.vars_setVars s zVar .assigned n
    by_cases hz : n = zVar
    · rw [if_pos hz] at hvars
      exact decide_eq_true hvars
    · rw [if_neg hz] at hvars
      exact (congrArg (fun v => decide (v = Scalar.assigned)) hvars).trans hn

theorem set_sound (hs : s.Sound) (ans : SetAnswer) (zVar zVal : Bytes)
    (hperm : Permitted s (.set ans zVar zVal)) :
    (step gcm s (.set ans zVar zVal)).Sound ∧ Behaves gcm s (.set ans zVar zVal) := by
  rcases hsecure : s.isSecureVar zVar with _ | _
  · refine ⟨?_, fun _ h => absurd h (by simp [hsecure])⟩
    rcases setVar_plain gcm hsecure ans zVal with ⟨-, heq⟩ | ⟨v, heq, -⟩
    · rwa [step, run, heq]
    · rw [step, run, heq]
      exact hs.setVars hsecure v
  · rcases hfound : ans.found with _ | _
    · have hsame : step gcm s (.set ans zVar zVal) = s := by
        simp [step, run, setVar, hfound]
      refine ⟨by rwa [hsame], fun _ _ nUsable ans => by rw [hsame]⟩
    · obtain ⟨hvalue, hrandom, hbuffers, hevp, hsentinel⟩ := hperm hsecure hfound
      obtain ⟨hok, hsound⟩ := set_found_sound gcm hs ans zVar zVal hsecure hvalue hrandom hbuffers
        hevp hsentinel hfound
      exact ⟨hsound, fun herr => absurd hok herr⟩

theorem delete_sound (hs : s.Sound) (zVar : Bytes) : (step gcm s (.delete zVar)).Sound := by
  have hslots : (secureVarDelete s zVar).2.Slots := (secureVarDelete_slots zVar hs.slots).1
  rcases hd : (s.entry zVar).join with _ | d
  · have hsame : step gcm s (.delete zVar) = s := by simp [step, run, secureVarDelete, hd]
    rwa [hsame]
  · have hdelete : secureVarDelete s zVar =
        (.ok (), (unsetVar ((s.freeSlot d.iSlot).setEntry zVar none) zVar).2) := by
      simp only [secureVarDelete, hd, if_pos (hs.slots.marked hd).2.1]
    have hhash : (s.freeSlot d.iSlot).paSecureVar.isSome = true := State.isSome_of_join (s := s) hd
    have hentry := State.entry_setEntry (s.freeSlot d.iSlot) zVar hhash none
    have hbits := State.aBitmap_freeSlot s d.iSlot
    rw [hdelete] at hslots
    rw [step, run, hdelete]
    unfold unsetVar at hslots ⊢
    split at hslots
    · next habsent =>
      rw [if_pos habsent]
      exact hs.deregister hd hslots hentry hbits rfl fun _ _ => rfl
    · next hthere =>
      rw [if_neg hthere]
      refine hs.deregister hd hslots hentry hbits rfl ?_
      intro n hn
      rw [State.existsVar, State.vars_setVars, if_neg hn]
      rfl

theorem unset_sound (hs : s.Sound) (zVar : Bytes) (hplain : s.isSecureVar zVar = false) :
    (step gcm s (.unset zVar)).Sound := by
  rw [step, run, unsetVar]
  split
  · exact hs
  · exact hs.setVars hplain _

/-- The clean-up that was meant for variables that are unset would leave an entry without
metadata. -/
theorem secureVarCleanup_not_sound (hs : s.Sound) (hd : s.Registered zVar d) :
    ¬ (secureVarCleanup s zVar).Sound := by
  have hhash : (s.freeSlot d.iSlot).paSecureVar.isSome = true := State.isSome_of_join (s := s) hd
  have hcleanup : secureVarCleanup s zVar = (s.freeSlot d.iSlot).setEntry zVar (some none) := by
    simp only [secureVarCleanup, show (s.entry zVar).join = some d from hd,
      if_pos (hs.slots.marked hd).2.1]
  intro hsound
  apply hsound.metadata zVar
  rw [hcleanup, State.entry_setEntry _ _ hhash, if_pos rfl]

theorem step_sound (hs : s.Sound) (op : Op) (hperm : Permitted s op) :
    (step gcm s op).Sound ∧ Behaves gcm s op := by
  cases op with
  | create ans zVar zVal => exact create_sound hs ans zVar zVal hperm
  | set ans zVar zVal => exact set_sound hs ans zVar zVal hperm
  | delete zVar => exact ⟨delete_sound hs zVar, trivial⟩
  | unset zVar => exact ⟨unset_sound hs zVar hperm, trivial⟩

theorem secureInit_sound (vars : Bytes → Scalar) : (secureInit vars).Sound := by
  refine ⟨secureInit_slots vars, ?_, ?_, ⟨[], nodup_nil, ?_, rfl⟩, ?_⟩
  · intro n
    simp [State.entry, secureInit]
  · intro i hlow hhigh
    have hi : i ≠ 0 := by
      unfold firstVar at hlow
      omega
    simp [secureInit, State.entry, hi]
  · intro n
    simp [State.isSecureVar, State.entry, secureInit]
  · intro n hn
    cases hn

def sampleOps : List Op :=
  [.create (.granted (List.replicate keySize 7)) (ascii "v") (ascii "a"),
    .create (.granted (List.replicate keySize 8)) (ascii "w") (ascii "b"),
    .set { SetAnswer.granted [] with found := false } (ascii "v") (ascii "c"),
    .delete (ascii "w")]

end Secure

end Th8
