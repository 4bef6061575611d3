import Th8.Flags.Reachable
import Mathlib.Data.List.Induction

/-!
# The text of a flag map

The text that is made of a map is read back as a map with the same flags.  The digits of a
key are followed by a colon, or there are sixteen of them; the colon behind a sixteenth
digit is read as one between flags.
-/

namespace Th8.Flags

open List Nat

/-! ## The digits of a key -/

theorem hexDigit_getD (u : UInt64) :
    hexDigit ((ascii "0123456789ABCDEF").getD (u &&& 0xf).toNat 0) = some (u.toNat % 16) := by
  have hall : ∀ d < 16, hexDigit ((ascii "0123456789ABCDEF").getD d 0) = some d := by
    decide
  have hlow : (u &&& 0xf).toNat = u.toNat % 16 := by
    rw [UInt64.toNat_and]
    exact and_two_pow_sub_one_eq_mod u.toNat 4
  rw [hlow]
  exact hall _ (mod_lt _ (by decide))

theorem shift_or_digit (u : UInt64) : ((u >>> 4) <<< 4) ||| UInt64.ofNat (u.toNat % 16) = u := by
  apply UInt64.toNat_inj.mp
  have hlt := u.toNat_lt
  have hhigh : ((u >>> 4) <<< 4).toNat = 2 ^ 4 * (u.toNat / 16) := by
    simp [shiftRight_eq_div_pow, shiftLeft_eq]
    omega
  have hdigit : (UInt64.ofNat (u.toNat % 16)).toNat = u.toNat % 16 := by
    rw [UInt64.toNat_ofNat']
    omega
  rw [UInt64.toNat_or, hhigh, hdigit, ← two_pow_add_eq_or_of_lt (by omega)]
  omega

def readDigits (z : Bytes) : Option UInt64 :=
  z.foldrM (fun c val => (hexDigit c).map fun d => (val <<< 4) ||| UInt64.ofNat d) 0

theorem afParseHexKey_reverse (z : Bytes) : afParseHexKey z.reverse = readDigits z := by
  rw [afParseHexKey, foldlM_reverse]
  rfl

theorem readDigits_cons (c : Byte) (z : Bytes) :
    readDigits (c :: z) = (readDigits z).bind fun val =>
      (hexDigit c).map fun d => (val <<< 4) ||| UInt64.ofNat d := by
  simp [readDigits]

theorem readDigits_replicate (k : ℕ) : readDigits (List.replicate k 0x30) = some 0 := by
  induction k with
  | zero => rfl
  | succ k ih =>
    rw [replicate_succ, readDigits_cons, ih]
    decide

theorem readDigits_append_replicate (z : Bytes) (k : ℕ) :
    readDigits (z ++ List.replicate k 0x30) = readDigits z := by
  induction z with
  | nil => exact readDigits_replicate k
  | cons c z ih => rw [cons_append, readDigits_cons, readDigits_cons, ih]

variable {u : UInt64}

theorem readDigits_hexLoop {room : ℕ} (h : u.toNat < 16 ^ room) :
    readDigits (hexLoop room u) = some u := by
  induction room generalizing u with
  | zero =>
    have hu : u = 0 := UInt64.toNat_inj.mp (by simpa using h)
    rw [hu]
    rfl
  | succ room ih =>
    have hrest : readDigits (if u >>> 4 > 0 then hexLoop room (u >>> 4) else []) =
        some (u >>> 4) := by
      split
      · apply ih
        rw [UInt64.toNat_shiftRight]
        rw [pow_succ] at h
        have : u.toNat / 16 < 16 ^ room := Nat.div_lt_of_lt_mul (by rwa [Nat.mul_comm])
        simpa [shiftRight_eq_div_pow] using this
      · next hzero =>
        have hu : u >>> 4 = 0 := by simpa using hzero
        rw [hu]
        rfl
    rw [hexLoop, readDigits_cons, hrest, hexDigit_getD]
    exact congrArg some (shift_or_digit u)

theorem afParseHexKey_afFormatHex (u : UInt64) (bPad : Bool) :
    afParseHexKey (afFormatHex u bPad) = some u := by
  have hdigits : readDigits (hexLoop maxNameLen u) = some u := readDigits_hexLoop u.toNat_lt
  cases bPad
  · rw [afFormatHex, if_neg (by simp), afParseHexKey_reverse, hdigits]
  · rw [afFormatHex, if_pos rfl, afParseHexKey_reverse, readDigits_append_replicate, hdigits]

theorem hexLoop_length_le (room : ℕ) (u : UInt64) : (hexLoop room u).length ≤ room := by
  induction room generalizing u with
  | zero => exact le_rfl
  | succ room ih =>
    rw [hexLoop]
    split
    · exact succ_le_succ (ih _)
    · simp

theorem hexLoop_isHexDigit {room : ℕ} : ∀ c ∈ hexLoop room u, afIsHexDigit c = true := by
  have hall : ∀ d < 16, afIsHexDigit ((ascii "0123456789ABCDEF").getD d 0) = true := by
    decide
  induction room generalizing u with
  | zero => simp [hexLoop]
  | succ room ih =>
    intro c hc
    rw [hexLoop] at hc
    rcases mem_cons.mp hc with rfl | hc
    · apply hall
      rw [UInt64.toNat_and]
      exact lt_of_le_of_lt and_le_right (by decide)
    · split at hc
      · exact ih c hc
      · cases hc

theorem afFormatHex_isHexDigit {bPad : Bool} : ∀ c ∈ afFormatHex u bPad, afIsHexDigit c = true := by
  intro c hc
  rw [afFormatHex, mem_reverse] at hc
  split at hc
  · rcases mem_append.mp hc with hc | hc
    · exact hexLoop_isHexDigit c hc
    · rw [eq_of_mem_replicate hc]
      decide
  · exact hexLoop_isHexDigit c hc

theorem afFormatHex_length (u : UInt64) (bPad : Bool) :
    0 < (afFormatHex u bPad).length ∧ (afFormatHex u bPad).length ≤ maxNameLen ∧
      (bPad = true → (afFormatHex u bPad).length = maxNameLen) := by
  have hle := hexLoop_length_le maxNameLen u
  have hpos : 0 < (hexLoop maxNameLen u).length := by
    rw [maxNameLen, hexLoop]
    exact succ_pos _
  have hmax : maxNameLen = 16 := rfl
  cases bPad <;> simp [afFormatHex] <;> omega

namespace ParseState

variable {s s' s₁ : ParseState} {bSpace : Bool} {c : Byte} {z z₁ z₂ : Bytes}

def Runs (bSpace : Bool) (s : ParseState) (z : Bytes) (s' : ParseState) : Prop :=
  z.foldlM (step true bSpace) s = .ok s'

theorem Runs.nil : Runs bSpace s [] s := rfl

theorem Runs.single (h : s.step true bSpace c = .ok s') : Runs bSpace s [c] s' := by
  simp [Runs, h]

theorem Runs.append (h₁ : Runs bSpace s z₁ s₁) (h₂ : Runs bSpace s₁ z₂ s') :
    Runs bSpace s (z₁ ++ z₂) s' := by
  rw [Runs, foldlM_append, h₁]
  exact h₂

theorem Runs.cons (h₁ : s.step true bSpace c = .ok s₁) (h₂ : Runs bSpace s₁ z s') :
    Runs bSpace s (c :: z) s' :=
  (Runs.single h₁).append h₂

theorem Runs.loop_eq (h : Runs bSpace s z s') (hopen : s'.bOpen = false) :
    s.loop true bSpace z = (.ok (), s'.map) := by
  induction z generalizing s with
  | nil =>
    obtain rfl : s = s' := by simpa [Runs] using h
    simp [loop, hopen]
  | cons c z ih =>
    rw [Runs, foldlM_cons] at h
    rcases hstep : s.step true bSpace c with e | s₁
    · rw [hstep] at h
      cases h
    · rw [hstep] at h
      rw [loop, hstep]
      exact ih h

/-! ## Flags -/

end ParseState

theorem ne_of_afIsIdentChar {c : Byte} (h : afIsIdentChar c = true) :
    c ≠ chOpenBrace ∧ c ≠ chCloseBrace ∧ c ≠ nameSep ∧ afIsSpace c = false := by
  have hall : ∀ c : Fin 256, afIsIdentChar (UInt8.ofFin c) = true →
      UInt8.ofFin c ≠ chOpenBrace ∧ UInt8.ofFin c ≠ chCloseBrace ∧ UInt8.ofFin c ≠ nameSep ∧
        afIsSpace (UInt8.ofFin c) = false := by
    decide +kernel
  exact hall c.toFin h

theorem afIsIdentChar_of_hexDigit {c : Byte} (h : afIsHexDigit c = true) :
    afIsIdentChar c = true := by
  have hall : ∀ c : Fin 256, afIsHexDigit (UInt8.ofFin c) = true →
      afIsIdentChar (UInt8.ofFin c) = true := by
    decide +kernel
  exact hall c.toFin h

structure Grown (m m' : AfMap) (key : UInt64) (cs : Bytes) : Prop where
  ok : m'.Ok
  keys : ∀ k ∈ m'.keys, k ∈ m.keys ∨ k = key
  has : ∀ k c, m'.has k c = true ↔ m.has k c = true ∨ k = key ∧ c ∈ cs

def AfMap.Room (m : AfMap) (key : UInt64) : Prop :=
  key ∈ m.keys ∨ m.keys.length < afMaxKeys

theorem Grown.refl {m : AfMap} (h : m.Ok) (key : UInt64) : Grown m m key [] :=
  ⟨h, fun _ => .inl, by simp⟩

theorem Grown.trans {m m₁ m₂ : AfMap} {key : UInt64} {cs ds : Bytes} (h : Grown m m₁ key cs)
    (h' : Grown m₁ m₂ key ds) : Grown m m₂ key (cs ++ ds) := by
  refine ⟨h'.ok, ?_, ?_⟩
  · intro k hk
    rcases h'.keys k hk with hk | hk
    · exact h.keys k hk
    · exact .inr hk
  · intro k c
    rw [h'.has, h.has, mem_append]
    tauto

namespace ParseState

variable (bSpace : Bool) {s s' s₁ : ParseState} {c : Byte} {z z₁ z₂ : Bytes}

def useKey (s : ParseState) : UInt64 := if s.bOpen then s.key else 0

section

variable (hvalue : (s.bOpen && !s.bHaveName) = false)

include hvalue

theorem step_eq_flag (hc : afIsIdentChar c = true) : s.step true bSpace c = s.flag c := by
  obtain ⟨hopen, hclose, hsep, hspace⟩ := ne_of_afIsIdentChar hc
  simp [step, value, hopen, hclose, hsep, hspace, hvalue, hc]

theorem runs_flag (hm : s.map.Ok) (hc : afIsIdentChar c = true) (hroom : s.map.Room s.useKey) :
    ∃ m, Runs bSpace s [c] { s with map := m } ∧ Grown s.map m s.useKey [c] ∧
      s.useKey ∈ m.keys := by
  obtain ⟨i, p, hget⟩ := AfMap.get_of_room hroom
  have hmod := AfMap.flags_modify hget fun fs => fs.add c
  have hkeys := AfMap.keys_modify hget fun fs => fs.add c
  have hmem : s.useKey ∈ (p.modify i fun fs => fs.add c).keys := by
    rw [hkeys]
    split
    · assumption
    · simp
  refine ⟨p.modify i fun fs => fs.add c, ?_, ⟨?_, ?_, ?_⟩, hmem⟩
  · apply Runs.single
    rw [step_eq_flag bSpace hvalue hc, flag,
      show s.map.get (if s.bOpen then s.key else 0) true = some (i, p) from hget]
  · exact hm.modify hget (fun fs => fs.add c) ((hm.flags _).add hc)
  · intro k hk
    rw [hkeys] at hk
    split at hk
    · exact .inl hk
    · simpa using hk
  · intro k d
    rw [AfMap.has, AfMap.has, hmod]
    split
    · next hk =>
      subst hk
      have hok := hm.flags s.useKey
      rw [(hok.add hc).has_eq, hok.has_eq, FlagSet.present_add (lt_of_afIsIdentChar hc)]
      simp
    · next hk => simp [hk]

theorem runs_flags {cs : Bytes} (hm : s.map.Ok)
    (hcs : ∀ c ∈ cs, afIsIdentChar c = true) (hroom : s.map.Room s.useKey) :
    ∃ m, Runs bSpace s cs { s with map := m } ∧ Grown s.map m s.useKey cs := by
  induction cs generalizing s with
  | nil => exact ⟨s.map, Runs.nil, Grown.refl hm _⟩
  | cons c cs ih =>
    obtain ⟨m₁, hrun, hgrown, hmem⟩ := runs_flag bSpace hvalue hm (hcs c mem_cons_self) hroom
    obtain ⟨m₂, hrun', hgrown'⟩ := ih (s := { s with map := m₁ }) hvalue hgrown.ok
      (fun d hd => hcs d (mem_cons_of_mem _ hd)) (.inl hmem)
    exact ⟨m₂, hrun.append hrun', hgrown.trans hgrown'⟩

end

/-! ## Keys -/

structure Naming (s : ParseState) : Prop where
  bOpen : s.bOpen = true
  bHaveName : s.bHaveName = false
  bNameSepOk : s.bNameSepOk = true

theorem runs_digits (ds : Bytes) (hs : s.Naming) (hds : ∀ c ∈ ds, afIsHexDigit c = true)
    (hlen : s.zName.length + ds.length < maxNameLen) :
    Runs bSpace s ds { s with zName := s.zName ++ ds } := by
  induction ds generalizing s with
  | nil =>
    rw [append_nil]
    exact Runs.nil
  | cons d ds ih =>
    have hd := hds d mem_cons_self
    obtain ⟨hopen, hclose, hsep, hspace⟩ := ne_of_afIsIdentChar (afIsIdentChar_of_hexDigit hd)
    rw [length_cons] at hlen
    have hroom : ¬ maxNameLen ≤ s.zName.length := by omega
    have hmore : s.zName.length + 1 ≠ maxNameLen := by omega
    have hstep : s.step true bSpace d = .ok { s with zName := s.zName ++ [d] } := by
      simp [step, name, hopen, hclose, hsep, hspace, hs.bOpen, hs.bHaveName, hd, hroom, hmore]
    have hrest := ih (s := { s with zName := s.zName ++ [d] }) ⟨hs.bOpen, hs.bHaveName,
      hs.bNameSepOk⟩ (fun c hc => hds c (mem_cons_of_mem _ hc)) (by simp; omega)
    simpa using Runs.cons hstep hrest

theorem step_lastDigit {key : UInt64} (hs : s.Naming) (hc : afIsHexDigit c = true)
    (hlen : s.zName.length + 1 = maxNameLen) (hkey : afParseHexKey (s.zName ++ [c]) = some key) :
    s.step true bSpace c =
      .ok { s with zName := s.zName ++ [c], key := key, bHaveName := true } := by
  obtain ⟨hopen, hclose, hsep, hspace⟩ := ne_of_afIsIdentChar (afIsIdentChar_of_hexDigit hc)
  have hroom : ¬ maxNameLen ≤ s.zName.length := by omega
  simp [step, name, hopen, hclose, hsep, hspace, hs.bOpen, hs.bHaveName, hs.bNameSepOk, hc,
    hroom, hlen, hkey]

def keyText (key : UInt64) (bLegacy : Bool) : Bytes :=
  afFormatHex key bLegacy ++ if bLegacy then [] else [chColon]

theorem runs_key (hs : s.Naming) (hname : s.zName = []) (key : UInt64) (bLegacy : Bool) :
    ∃ s', Runs bSpace s (keyText key bLegacy) s' ∧ s'.bOpen = true ∧ s'.bHaveName = true ∧
      s'.key = key ∧ s'.zName ≠ [] ∧ s'.map = s.map := by
  obtain ⟨hpos, hle, hpad⟩ := afFormatHex_length key bLegacy
  have hparse := afParseHexKey_afFormatHex key bLegacy
  have hdigits : ∀ c ∈ afFormatHex key bLegacy, afIsHexDigit c = true := afFormatHex_isHexDigit
  have hcolon : chColon ≠ chOpenBrace ∧ chColon ≠ chCloseBrace ∧ afIsSpace chColon = false := by
    decide
  rw [keyText]
  generalize afFormatHex key bLegacy = ds at *
  by_cases hlen : ds.length = maxNameLen
  · -- All sixteen digits: the key is complete before a colon.
    rcases eq_nil_or_concat ds with rfl | ⟨ds, d, rfl⟩
    · cases hpos
    rw [concat_eq_append] at *
    rw [length_append, length_singleton] at hlen
    have hrun : Runs bSpace s (ds ++ [d])
        { s with zName := ds ++ [d], key := key, bHaveName := true } := by
      have hfirst := runs_digits bSpace ds hs
        (fun c hc => hdigits c (mem_append_left _ hc)) (by rw [hname, length_nil]; omega)
      have hlast := step_lastDigit bSpace (s := { s with zName := s.zName ++ ds })
        ⟨hs.bOpen, hs.bHaveName, hs.bNameSepOk⟩
        (hdigits d (mem_append_right _ mem_cons_self)) (by simpa [hname] using hlen)
        (by simpa [hname] using hparse)
      simpa [hname] using hfirst.append (Runs.single hlast)
    cases bLegacy
    · have hsep : step true bSpace { s with zName := ds ++ [d], key := key, bHaveName := true }
          chColon = .ok { s with
            zName := ds ++ [d], key := key, bHaveName := true, bNameSepOk := false } := by
        simp [step, value, hs.bNameSepOk, hcolon]
      exact ⟨_, hrun.append (Runs.single hsep), hs.bOpen, rfl, rfl, by simp, rfl⟩
    · refine ⟨{ s with zName := ds ++ [d], key := key, bHaveName := true }, ?_, hs.bOpen, rfl, rfl,
        by simp, rfl⟩
      simpa using hrun
  · -- Fewer digits, which only the colon ends.
    obtain rfl : bLegacy = false := by
      cases bLegacy
      · rfl
      · exact absurd (hpad rfl) hlen
    have hdigitsRun := runs_digits bSpace ds hs hdigits (by rw [hname, length_nil]; omega)
    rw [hname, nil_append] at hdigitsRun
    refine ⟨{ s with zName := ds, key := key, bHaveName := true, bNameSepOk := false },
      hdigitsRun.append (Runs.single ?_), hs.bOpen, rfl, rfl, ne_nil_of_length_pos hpos, rfl⟩
    simp [step, name, hs.bOpen, hs.bHaveName, hcolon, ne_nil_of_length_pos hpos, hparse]

def entryText (bLegacy bSort : Bool) (e : AfKeyEntry) : Bytes :=
  if e.key ≠ 0 then
    [chOpenBrace] ++ keyText e.key bLegacy ++ e.flags.listed bSort ++ [chCloseBrace]
  else e.flags.listed bSort

theorem runs_entry (bLegacy bSort : Bool) {e : AfKeyEntry} (he : e.flags.Ok)
    (hopen : s.bOpen = false) (hm : s.map.Ok) (hroom : s.map.Room e.key) :
    ∃ s', Runs bSpace s (entryText bLegacy bSort e) s' ∧ s'.bOpen = false ∧
      Grown s.map s'.map e.key (e.flags.listed bSort) := by
  have hident : ∀ c ∈ e.flags.listed bSort, afIsIdentChar c = true :=
    fun c hc => he.ident_of_mem_listed hc
  rw [entryText]
  split
  · have hbrace : s.step true bSpace chOpenBrace = .ok
        { s with bOpen := true, zName := [], bHaveName := false, bNameSepOk := true } := by
      simp [step, hopen]
    obtain ⟨s₁, hrun, hopen₁, hname₁, hkey₁, hne₁, hmap₁⟩ := runs_key bSpace
      (s := { s with bOpen := true, zName := [], bHaveName := false, bNameSepOk := true })
      ⟨rfl, rfl, rfl⟩ rfl e.key bLegacy
    have huse : s₁.useKey = e.key := by rw [useKey, if_pos hopen₁, hkey₁]
    have hmap : s₁.map = s.map := hmap₁
    obtain ⟨m, hflags, hgrown⟩ := runs_flags bSpace (s := s₁) (by simp [hname₁])
      (hmap ▸ hm) hident (by rwa [huse, hmap])
    rw [huse, hmap] at hgrown
    refine ⟨{ s₁ with map := m, bOpen := false, bHaveName := false, bNameSepOk := true },
      (((Runs.single hbrace).append hrun).append hflags).append (Runs.single ?_), rfl, hgrown⟩
    have hclose : chCloseBrace ≠ chOpenBrace := by decide
    simp [step, hopen₁, hname₁, hne₁, hclose]
  · next hkey =>
    have huse : s.useKey = e.key := by
      rw [useKey, hopen]
      exact (not_not.mp hkey).symm
    obtain ⟨m, hflags, hgrown⟩ := runs_flags bSpace (s := s) (by simp [hopen]) hm
      hident (by rwa [huse])
    rw [huse] at hgrown
    exact ⟨{ s with map := m }, hflags, hopen, hgrown⟩

def formatText (bLegacy bSpace bSort : Bool) (es : List AfKeyEntry) : Bytes :=
  es.foldl (fun z e => z ++ ((if bSpace && 0 < z.length then [chSpace] else []) ++
    entryText bLegacy bSort e)) []

theorem runs_separator (hopen : s.bOpen = false) (b : Bool) :
    Runs bSpace s (if bSpace && b then [chSpace] else []) s := by
  split
  · next h =>
    apply Runs.single
    have hspace : bSpace = true := (Bool.and_eq_true_iff.mp h).1
    have hchar : chSpace ≠ chOpenBrace ∧ chSpace ≠ chCloseBrace := by decide
    simp [step, value, hopen, hspace, afIsSpace, hchar]
  · exact Runs.nil

theorem runs_formatText (bLegacy bSort : Bool) {es : List AfKeyEntry}
    (hnodup : (es.map (·.key)).Nodup) (hlen : es.length ≤ afMaxKeys) (hes : ∀ e ∈ es, e.flags.Ok) :
    ∃ s, Runs bSpace init (formatText bLegacy bSpace bSort es) s ∧ s.bOpen = false ∧ s.map.Ok ∧
      (∀ k ∈ s.map.keys, k ∈ es.map (·.key)) ∧
      ∀ k c, s.map.has k c = true ↔ ∃ e ∈ es, e.key = k ∧ e.flags.present c = true := by
  induction es using List.reverseRecOn with
  | nil =>
    refine ⟨init, Runs.nil, rfl, AfMap.ok_init, by simp [init, AfMap.init, AfMap.keys], ?_⟩
    intro k c
    simp [init, AfMap.init, AfMap.has, AfMap.flags, FlagSet.init, FlagSet.has]
  | append_singleton es e ih =>
    rw [map_append, nodup_append] at hnodup
    rw [length_append, length_singleton] at hlen
    obtain ⟨s, hrun, hopen, hok, hkeys, hhas⟩ := ih hnodup.1 (by omega)
      fun d hd => hes d (mem_append_left _ hd)
    have hfew : s.map.keys.length ≤ es.length := by
      rw [← length_map (f := fun e : AfKeyEntry => e.key)]
      exact hok.nodup.length_le_of_subset fun k hk => hkeys k hk
    have heok : e.flags.Ok := hes e (mem_append_right _ mem_cons_self)
    obtain ⟨s', hrun', hopen', hgrown⟩ := runs_entry bSpace bLegacy bSort heok hopen
      hok (.inr (by omega))
    refine ⟨s', ?_, hopen', hgrown.ok, ?_, ?_⟩
    · rw [formatText, foldl_append]
      exact hrun.append ((runs_separator bSpace hopen _).append hrun')
    · intro k hk
      rw [map_append, mem_append]
      rcases hgrown.keys k hk with hk | rfl
      · exact .inl (hkeys k hk)
      · exact .inr mem_cons_self
    · intro k c
      rw [hgrown.has, hhas, heok.mem_listed]
      constructor
      · rintro (⟨d, hd, hdk⟩ | ⟨rfl, hc⟩)
        · exact ⟨d, mem_append_left _ hd, hdk⟩
        · exact ⟨e, mem_append_right _ mem_cons_self, rfl, hc⟩
      · rintro ⟨d, hd, hdk, hc⟩
        rcases mem_append.mp hd with hd | hd
        · exact .inl ⟨d, hd, hdk, hc⟩
        · obtain rfl := mem_singleton.mp hd
          exact .inr ⟨hdk.symm, hc⟩

end ParseState

section Format

variable {granted : ℕ → Bool} {zOut zOut' : Option Bytes} {zApp : Bytes}

theorem strAppend_eq_ok (h : strAppend granted zOut zApp = .ok zOut') :
    zOut'.getD [] = zOut.getD [] ++ zApp := by
  rw [strAppend] at h
  split at h
  · cases h
    rfl
  · cases h

variable {bSort : Bool}

theorem appendFlags_eq_ok {pFs : FlagSet} (h : appendFlags granted bSort pFs zOut = .ok zOut') :
    zOut'.getD [] = zOut.getD [] ++ pFs.listed bSort := by
  rw [appendFlags] at h
  generalize pFs.listed bSort = cs at h ⊢
  induction cs generalizing zOut with
  | nil =>
    obtain rfl : zOut = zOut' := by simpa using h
    simp
  | cons c cs ih =>
    rw [foldlM_cons] at h
    obtain ⟨z₁, h₁, h₂⟩ := Support.bind_eq_ok.mp h
    rw [ih h₂, strAppend_eq_ok h₁, append_assoc]
    rfl

theorem appendEntry_eq_ok {bLegacy bSpace : Bool} {e : AfKeyEntry}
    (h : appendEntry granted bLegacy bSpace bSort zOut e = .ok zOut') :
    zOut'.getD [] = zOut.getD [] ++
      ((if bSpace && 0 < (zOut.getD []).length then [chSpace] else []) ++
        ParseState.entryText bLegacy bSort e) := by
  rw [appendEntry] at h
  obtain ⟨z₁, hsep, h⟩ := Support.bind_eq_ok.mp h
  have hz₁ : z₁.getD [] = zOut.getD [] ++
      (if bSpace && 0 < (zOut.getD []).length then [chSpace] else []) := by
    rw [appendSpace] at hsep
    split at hsep
    · rw [strAppend_eq_ok hsep, if_pos ‹_›]
    · cases hsep
      rw [if_neg ‹_›, append_nil]
  rw [ParseState.entryText, ← append_assoc, ← hz₁]
  split at h
  · next hkey =>
    obtain ⟨z₂, hbrace, h⟩ := Support.bind_eq_ok.mp h
    obtain ⟨z₃, hname, h⟩ := Support.bind_eq_ok.mp h
    obtain ⟨z₄, hflags, h⟩ := Support.bind_eq_ok.mp h
    rw [strAppend_eq_ok h, appendFlags_eq_ok hflags, strAppend_eq_ok hname,
      strAppend_eq_ok hbrace, if_pos hkey, ParseState.keyText]
    cases bLegacy <;> simp
  · next hkey => rw [appendFlags_eq_ok h, if_neg hkey]

theorem attrFlagsFormat_eq_ok {pMap : AfMap} {bLegacy bCompact bSpace : Bool}
    (h : attrFlagsFormat granted pMap bLegacy bCompact bSpace bSort = .ok zOut) :
    zOut.getD [] = ParseState.formatText bLegacy bSpace bSort pMap.a := by
  rw [attrFlagsFormat] at h
  generalize pMap.a = es at h ⊢
  induction es using List.reverseRecOn generalizing zOut with
  | nil =>
    obtain rfl : none = zOut := by simpa using h
    rfl
  | append_singleton es e ih =>
    rw [foldlM_append] at h
    obtain ⟨z₁, h₁, h₂⟩ := Support.bind_eq_ok.mp h
    rw [foldlM_cons] at h₂
    obtain ⟨z₂, hlast, h₂⟩ := Support.bind_eq_ok.mp h₂
    cases h₂
    rw [appendEntry_eq_ok hlast, ih h₁, ParseState.formatText, ParseState.formatText, foldl_append]
    rfl

end Format

theorem attrFlagsParse_eq_loop (zText : Option Bytes) (bComplex bSpace : Bool) :
    attrFlagsParse zText bComplex bSpace =
      ParseState.init.loop bComplex bSpace (zText.getD []) := by
  cases zText <;> rfl

theorem AfMap.flags_of_mem {p : AfMap} (h : p.keys.Nodup) {e : AfKeyEntry} (he : e ∈ p.a) :
    p.flags e.key = e.flags := by
  obtain ⟨l₁, l₂, hp⟩ := append_of_mem he
  have hfresh : e.key ∉ l₁.map (·.key) := by
    rw [keys, hp, map_append, map_cons] at h
    intro hmem
    exact (nodup_append.mp h).2.2 _ hmem _ mem_cons_self rfl
  have hmap : p = ⟨l₁ ++ ⟨e.key, e.flags⟩ :: l₂⟩ := by rw [← hp]
  rw [hmap, flags_of_append hfresh, if_pos rfl]

theorem AfMap.Ok.has_iff {p : AfMap} (h : p.Ok) (k : UInt64) (c : Byte) :
    p.has k c = true ↔ ∃ e ∈ p.a, e.key = k ∧ e.flags.present c = true := by
  rw [AfMap.has, (h.flags k).has_eq]
  constructor
  · intro hp
    by_cases hk : k ∈ p.keys
    · obtain ⟨e, he, rfl⟩ := mem_map.mp hk
      rw [AfMap.flags_of_mem h.nodup he] at hp
      exact ⟨e, he, rfl, hp⟩
    · have hnone : p.a.find? (·.key == k) = none := by
        rw [find?_eq_none]
        intro e he heq
        exact hk (mem_map.mpr ⟨e, he, by simpa using heq⟩)
      simp [AfMap.flags, hnone, FlagSet.init] at hp
  · rintro ⟨e, he, rfl, hp⟩
    rwa [AfMap.flags_of_mem h.nodup he]

/-- The text of a reachable map is read back as a map with the same flags for every key. -/
theorem parse_format {pMap : AfMap} (hreach : Reachable pMap) {granted : ℕ → Bool}
    {bLegacy bCompact bSpace bSort : Bool} {zOut : Option Bytes}
    (hout : attrFlagsFormat granted pMap bLegacy bCompact bSpace bSort = .ok zOut) :
    (attrFlagsParse zOut true bSpace).1 = .ok () ∧
      ∀ key c, (attrFlagsParse zOut true bSpace).2.has key c = pMap.has key c := by
  have hok := hreach.ok
  have hflags : ∀ e ∈ pMap.a, e.flags.Ok := by
    intro e he
    rw [← AfMap.flags_of_mem hok.nodup he]
    exact hok.flags e.key
  have hlen : pMap.a.length ≤ afMaxKeys := by
    rw [← length_map (f := fun e : AfKeyEntry => e.key)]
    exact hok.length_le
  obtain ⟨s, hrun, hopen, -, -, hhas⟩ := ParseState.runs_formatText bSpace bLegacy bSort
    hok.nodup hlen hflags
  rw [attrFlagsParse_eq_loop, attrFlagsFormat_eq_ok hout, hrun.loop_eq hopen]
  refine ⟨rfl, ?_⟩
  intro key c
  rw [Bool.eq_iff_iff, hhas, hok.has_iff]

/-- Two flags for the default key, two for a key whose sixteen digits leave no room for a
colon, and none for a third. -/
def sampleMap : AfMap :=
  (attrFlagsChange (attrFlagsParse (some (ascii "b\x7bFEDCBA9876543210:z1\x7da")) true false).2
    (some (ascii "+#-#")) 0xab).2

theorem parse_format_sampleMap :
    (attrFlagsParse (some (ascii "ab \x7bFEDCBA9876543210:1z\x7d \x7bAB:\x7d")) true true).1 =
        .ok () ∧
      ∀ key c, (attrFlagsParse (some (ascii "ab \x7bFEDCBA9876543210:1z\x7d \x7bAB:\x7d")) true
        true).2.has key c = sampleMap.has key c := by
  have hreach : Reachable sampleMap := .change _ _ (.parse _ _ _)
  have hout : attrFlagsFormat (fun _ => true) sampleMap false false true true =
      .ok (some (ascii "ab \x7bFEDCBA9876543210:1z\x7d \x7bAB:\x7d")) := by
    decide
  exact parse_format hreach hout

end Th8.Flags
