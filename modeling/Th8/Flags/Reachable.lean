import Th8.Flags.AttrFlags
import Mathlib.Data.List.Nodup

/-!
# Reachable flag maps

In every map that parsing and any number of changes leave behind, whether they succeed or
fail, no key has two entries, and the order of insertion lists the flags that are present,
each once, all of them letters, digits or underscores.
-/

namespace Th8.Flags

open List

/-! ## Flag sets -/

theorem lt_of_afIsIdentChar {c : Byte} (h : afIsIdentChar c = true) : c < 128 := by
  have hall : ∀ c : Fin 256, afIsIdentChar (UInt8.ofFin c) = true → UInt8.ofFin c < 128 := by
    decide +kernel
  exact hall c.toFin h

namespace FlagSet

variable {p : FlagSet} {c d : Byte}

structure Ok (p : FlagSet) : Prop where
  nodup : p.order.Nodup
  mem : ∀ c, c ∈ p.order ↔ p.present c = true
  ident : ∀ c ∈ p.order, afIsIdentChar c = true

theorem ok_init : init.Ok :=
  ⟨nodup_nil, by simp [init], by simp [init]⟩

theorem Ok.length_lt (h : p.Ok) (hc : c < 128) (hnew : c ∉ p.order) : p.order.length < 128 := by
  have hnodup : (c :: p.order).Nodup := nodup_cons.mpr ⟨hnew, h.nodup⟩
  have hsub : ((c :: p.order).map UInt8.toNat) ⊆ List.range 128 := by
    intro n hn
    obtain ⟨d, hd, rfl⟩ := mem_map.mp hn
    have hlt : d < 128 := by
      rcases mem_cons.mp hd with rfl | hd
      · exact hc
      · exact lt_of_afIsIdentChar (h.ident d hd)
    exact mem_range.mpr hlt
  have hmap : ((c :: p.order).map UInt8.toNat).Nodup :=
    hnodup.map fun _ _ heq => UInt8.toNat_inj.mp heq
  have hlen := hmap.length_le_of_subset hsub
  rw [length_map, length_range, length_cons] at hlen
  omega

theorem Ok.add (h : p.Ok) (hc : afIsIdentChar c = true) : (p.add c).Ok := by
  have hlt := lt_of_afIsIdentChar hc
  by_cases hp : p.present c = true
  · have hadd : p.add c = p := by simp [FlagSet.add, hp]
    rwa [hadd]
  · have hnew : c ∉ p.order := fun hmem => hp ((h.mem c).mp hmem)
    have hadd : p.add c = ⟨Function.update p.present c true, p.order ++ [c]⟩ := by
      simp [FlagSet.add, hp, hlt, h.length_lt hlt hnew]
    rw [hadd]
    constructor
    · apply List.Nodup.append h.nodup (nodup_singleton c)
      exact disjoint_singleton.mpr hnew
    · intro d
      by_cases hd : d = c
      · simp [hd]
      · simp [hd, h.mem d]
    · intro d hd
      rcases mem_append.mp hd with hd | hd
      · exact h.ident d hd
      · rwa [mem_singleton.mp hd]

theorem present_add (hc : c < 128) : (p.add c).present d = true ↔ p.present d = true ∨ d = c := by
  by_cases hp : p.present c = true
  · have hadd : p.add c = p := by simp [add, hp]
    rw [hadd]
    constructor
    · exact .inl
    · rintro (hd | rfl)
      · exact hd
      · exact hp
  · simp only [add, hc, hp, decide_true, Bool.not_false, Bool.and_self, if_true]
    by_cases hd : d = c
    · simp [hd]
    · simp [hd]

theorem Ok.remove (h : p.Ok) : (p.remove c).Ok := by
  unfold FlagSet.remove
  split
  · constructor
    · exact h.nodup.filter _
    · intro d
      by_cases hd : d = c
      · simp [hd]
      · simp [hd, h.mem d]
    · intro d hd
      exact h.ident d (mem_of_mem_filter hd)
  · exact h

theorem Ok.mem_listed (h : p.Ok) {bSort : Bool} : c ∈ p.listed bSort ↔ p.present c = true := by
  cases bSort
  · exact h.mem c
  · rw [listed, if_pos rfl, mem_filter]
    constructor
    · exact And.right
    · intro hp
      refine ⟨?_, hp⟩
      have hlt := lt_of_afIsIdentChar (h.ident c ((h.mem c).mpr hp))
      exact mem_map.mpr ⟨c.toNat, mem_range.mpr hlt, UInt8.ofNat_toNat⟩

theorem Ok.ident_of_mem_listed (h : p.Ok) {bSort : Bool} (hc : c ∈ p.listed bSort) :
    afIsIdentChar c = true :=
  h.ident c ((h.mem c).mpr (h.mem_listed.mp hc))

theorem Ok.has_eq (h : p.Ok) : p.has c = p.present c := by
  unfold has
  split
  · rfl
  · by_contra hne
    have hp : p.present c = true := by simpa using Ne.symm hne
    exact absurd (lt_of_afIsIdentChar (h.ident c ((h.mem c).mpr hp))) ‹_›

theorem Ok.foldl {xOp : FlagSet → Byte → FlagSet} {cs : Bytes}
    (hop : ∀ {p c}, c ∈ cs → Ok p → Ok (xOp p c)) (h : p.Ok) : (cs.foldl xOp p).Ok := by
  induction cs generalizing p with
  | nil => exact h
  | cons c cs ih =>
    apply ih
    · exact fun hc => hop (mem_cons_of_mem _ hc)
    · exact hop mem_cons_self h

end FlagSet

theorem ident_of_mem_wildcardChars (wc : Byte) :
    ∀ c ∈ wildcardChars wc, afIsIdentChar c = true := by
  unfold wildcardChars
  split_ifs <;> decide +kernel

theorem changeLoop_ok {mode : Byte} {pFs : FlagSet} {zChange : Bytes} (h : pFs.Ok) :
    (changeLoop mode pFs zChange).2.Ok := by
  induction zChange generalizing mode pFs with
  | nil => exact h
  | cons c zChange ih =>
    unfold changeLoop
    split
    · apply ih
      split
      · exact FlagSet.ok_init
      · exact h
    · split
      · apply ih
        apply FlagSet.Ok.foldl _ h
        intro p d hd hp
        split
        · exact hp.remove
        · exact hp.add (ident_of_mem_wildcardChars c d hd)
      · split
        · exact h
        · apply ih
          split
          · exact h.add (by simpa using ‹¬(!afIsIdentChar c) = true›)
          · exact h.remove

/-! ## Maps -/

namespace AfMap

variable {p p' : AfMap} {key : UInt64} {i : ℕ}

def keys (p : AfMap) : List UInt64 := p.a.map (·.key)

def flags (p : AfMap) (key : UInt64) : FlagSet :=
  ((p.a.find? (·.key == key)).map (·.flags)).getD FlagSet.init

def has (p : AfMap) (key : UInt64) (c : Byte) : Bool := (p.flags key).has c

structure Ok (p : AfMap) : Prop where
  nodup : p.keys.Nodup
  length_le : p.keys.length ≤ afMaxKeys
  flags : ∀ key, (p.flags key).Ok

theorem ok_init : init.Ok :=
  ⟨nodup_nil, Nat.zero_le _, fun _ => FlagSet.ok_init⟩

theorem flags_of_append {l₁ l₂ : List AfKeyEntry} {fs : FlagSet} (hl : key ∉ l₁.map (·.key))
    (k : UInt64) : flags ⟨l₁ ++ ⟨key, fs⟩ :: l₂⟩ k =
      if k = key then fs else flags ⟨l₁ ++ l₂⟩ k := by
  have hnone : l₁.find? (·.key == key) = none := by
    rw [find?_eq_none]
    intro e he heq
    exact hl (mem_map.mpr ⟨e, he, by simpa using heq⟩)
  by_cases hk : k = key
  · subst hk
    simp [flags, hnone]
  · simp [flags, hk, Ne.symm hk, find?_append]

theorem modify_append (l₁ l₂ : List AfKeyEntry) (fs : FlagSet) (f : FlagSet → FlagSet) :
    modify ⟨l₁ ++ ⟨key, fs⟩ :: l₂⟩ l₁.length f = ⟨l₁ ++ ⟨key, f fs⟩ :: l₂⟩ := by
  rw [modify, modify_eq_take_cons_drop (by simp)]
  simp

theorem get_eq_some (h : p.get key true = some (i, p')) :
    ∃ l₁ fs l₂, p'.a = l₁ ++ ⟨key, fs⟩ :: l₂ ∧ i = l₁.length ∧ key ∉ l₁.map (·.key) ∧
      (p = p' ∨ p.a = l₁ ∧ fs = FlagSet.init ∧ l₂ = [] ∧ l₁.length < afMaxKeys) := by
  unfold get at h
  split at h
  · next j hj =>
    obtain ⟨rfl, rfl⟩ : j = i ∧ p = p' := by simpa using h
    obtain ⟨hlt, hkey, hbefore⟩ := findIdx?_eq_some_iff_getElem.mp hj
    refine ⟨p.a.take j, (p.a[j]).flags, p.a.drop (j + 1), ?_, ?_, ?_, .inl rfl⟩
    · have hentry : (⟨key, (p.a[j]).flags⟩ : AfKeyEntry) = p.a[j] := by
        rw [← beq_iff_eq.mp hkey]
      rw [hentry, getElem_cons_drop, take_append_drop]
    · rw [length_take, Nat.min_eq_left hlt.le]
    · intro hmem
      obtain ⟨e, he, rfl⟩ := mem_map.mp hmem
      obtain ⟨k, hk, rfl⟩ := mem_take_iff_getElem.mp he
      exact hbefore k (by omega) (by simp)
  · next hnone =>
    split at h
    · next hroom =>
      obtain ⟨rfl, rfl⟩ : p.a.length = i ∧ ⟨p.a ++ [⟨key, FlagSet.init⟩]⟩ = p' := by
        simpa using h
      refine ⟨p.a, FlagSet.init, [], rfl, rfl, ?_, .inr ⟨rfl, rfl, rfl, by simpa using hroom⟩⟩
      intro hmem
      obtain ⟨e, he, rfl⟩ := mem_map.mp hmem
      have := findIdx?_eq_none_iff.mp hnone e he
      simp at this
    · cases h

theorem get_of_room (h : key ∈ p.keys ∨ p.keys.length < afMaxKeys) :
    ∃ i p', p.get key true = some (i, p') := by
  unfold get
  split
  · exact ⟨_, _, rfl⟩
  · next hnone =>
    rcases h with hmem | hlt
    · obtain ⟨e, he, rfl⟩ := mem_map.mp hmem
      have := findIdx?_eq_none_iff.mp hnone e he
      simp at this
    · rw [keys, length_map] at hlt
      exact ⟨p.a.length, ⟨p.a ++ [⟨key, FlagSet.init⟩]⟩, by simp [hlt]⟩

section Modify

variable (h : p.get key true = some (i, p')) (f : FlagSet → FlagSet)
include h

theorem flags_modify (k : UInt64) :
    (p'.modify i f).flags k = if k = key then f (p.flags key) else p.flags k := by
  obtain ⟨l₁, fs, l₂, hp', rfl, hl, hcase⟩ := get_eq_some h
  have hmod : p'.modify l₁.length f = ⟨l₁ ++ ⟨key, f fs⟩ :: l₂⟩ := by
    rw [← modify_append, ← hp']
  have hp : ∀ k, p.flags k = if k = key then fs else flags ⟨l₁ ++ l₂⟩ k := by
    intro k
    rcases hcase with rfl | ⟨rfl, rfl, rfl, -⟩
    · rw [← flags_of_append hl, ← hp']
    · rw [append_nil]
      split
      · next hk =>
        subst hk
        have hnone : p.a.find? (·.key == k) = none := by
          rw [find?_eq_none]
          intro e he heq
          exact hl (mem_map.mpr ⟨e, he, by simpa using heq⟩)
        simp [flags, hnone]
      · rfl
  rw [hmod, flags_of_append hl, hp key, if_pos rfl, hp k]
  split <;> rfl

theorem keys_modify : (p'.modify i f).keys = if key ∈ p.keys then p.keys else p.keys ++ [key] := by
  obtain ⟨l₁, fs, l₂, hp', rfl, hl, hcase⟩ := get_eq_some h
  have hmod : (p'.modify l₁.length f).keys = l₁.map (·.key) ++ key :: l₂.map (·.key) := by
    rw [show p' = ⟨l₁ ++ ⟨key, fs⟩ :: l₂⟩ by rw [← hp'], modify_append]
    simp [keys]
  rw [hmod]
  rcases hcase with rfl | ⟨rfl, -, rfl, -⟩
  · have hk : p.keys = l₁.map (·.key) ++ key :: l₂.map (·.key) := by simp [keys, hp']
    rw [hk, if_pos (by simp)]
  · rw [if_neg (show key ∉ p.keys from hl)]
    rfl

theorem room_of_get : key ∈ p.keys ∨ p.keys.length < afMaxKeys := by
  obtain ⟨l₁, fs, l₂, hp', rfl, hl, hcase⟩ := get_eq_some h
  rcases hcase with rfl | ⟨rfl, -, -, hlt⟩
  · exact .inl (by simp [keys, hp'])
  · exact .inr (by simpa [keys] using hlt)

theorem Ok.modify (hp : p.Ok) (hf : (f (p.flags key)).Ok) : (p'.modify i f).Ok := by
  constructor
  · rw [keys_modify h]
    split
    · exact hp.nodup
    · next hnew =>
      exact hp.nodup.append (nodup_singleton key) (disjoint_singleton.mpr hnew)
  · rw [keys_modify h]
    split
    · exact hp.length_le
    · next hnew =>
      have hlt := (room_of_get h).resolve_left hnew
      rw [length_append]
      exact hlt
  · intro k
    rw [flags_modify h]
    split
    · exact hf
    · exact hp.flags k

end Modify

theorem flags_of_get (h : p.get key true = some (i, p')) :
    ((p'.a[i]?).map (·.flags)).getD FlagSet.init = p.flags key := by
  have hmod := flags_modify h id key
  obtain ⟨l₁, fs, l₂, hp', rfl, hl, -⟩ := get_eq_some h
  have hid : p'.modify l₁.length id = ⟨l₁ ++ ⟨key, fs⟩ :: l₂⟩ := by
    rw [show p' = ⟨l₁ ++ ⟨key, fs⟩ :: l₂⟩ by rw [← hp'], modify_append]
    rfl
  rw [hid, flags_of_append hl, if_pos rfl, if_pos rfl] at hmod
  simp [hp', hmod]

end AfMap

/-! ## Parsing and changing -/

namespace ParseState

variable {s s' : ParseState} {bComplex bSpace : Bool} {c : Byte}

theorem flag_ok (h : s.flag c = .ok s') (hc : afIsIdentChar c = true) (hs : s.map.Ok) :
    s'.map.Ok := by
  unfold flag at h
  rcases hget : s.map.get (if s.bOpen then s.key else 0) true with _ | ⟨i, p'⟩
  · simp [hget] at h
  · obtain rfl : { s with map := p'.modify i fun fs => fs.add c } = s' := by
      simpa [hget] using h
    exact hs.modify hget (fun fs => fs.add c) ((hs.flags _).add hc)

theorem name_map (h : s.name bSpace c = .ok s') : s'.map = s.map := by
  unfold name at h
  dsimp only at h
  split_ifs at h
  · cases h
    rfl
  · rcases hkey : afParseHexKey s.zName with _ | key
    · simp [hkey] at h
    · simp only [hkey, Except.ok.injEq] at h
      rw [← h]
  · rcases hkey : afParseHexKey (s.zName ++ [c]) with _ | key
    · simp [hkey] at h
    · simp only [hkey, Except.ok.injEq] at h
      rw [← h]
  · cases h
    rfl

theorem step_map (h : s.step bComplex bSpace c = .ok s') :
    s'.map = s.map ∨ afIsIdentChar c = true ∧ s.flag c = .ok s' := by
  unfold step value at h
  split_ifs at h
  · cases h
    exact .inl rfl
  · cases h
    exact .inl rfl
  · exact .inl (name_map h)
  · cases h
    exact .inl rfl
  · cases h
    exact .inl rfl
  · exact .inr ⟨by simpa using ‹¬(!afIsIdentChar c) = true›, h⟩

theorem step_ok (h : s.step bComplex bSpace c = .ok s') (hs : s.map.Ok) : s'.map.Ok := by
  rcases step_map h with heq | ⟨hc, hflag⟩
  · rwa [heq]
  · exact flag_ok hflag hc hs

end ParseState

theorem ParseState.loop_ok {s : ParseState} {bComplex bSpace : Bool} {zText : Bytes}
    (hs : s.map.Ok) : (s.loop bComplex bSpace zText).2.Ok := by
  induction zText generalizing s with
  | nil => exact hs
  | cons c zText ih =>
    unfold loop
    split
    · exact hs
    · next s' hstep => exact ih (step_ok hstep hs)

theorem attrFlagsParse_ok (zText : Option Bytes) (bComplex bSpace : Bool) :
    (attrFlagsParse zText bComplex bSpace).2.Ok := by
  cases zText with
  | none => exact AfMap.ok_init
  | some zText => exact ParseState.loop_ok AfMap.ok_init

theorem attrFlagsChange_ok {pMap : AfMap} (h : pMap.Ok) (zChange : Option Bytes)
    (key : UInt64) : (attrFlagsChange pMap zChange key).2.Ok := by
  cases zChange with
  | none => exact h
  | some zChange =>
    rcases hget : pMap.get key true with _ | ⟨i, p'⟩
    · simpa [attrFlagsChange, hget] using h
    · have hchange : ((changeLoop addChar (pMap.flags key) zChange).2).Ok :=
        changeLoop_ok (h.flags key)
      simpa [attrFlagsChange, hget, AfMap.flags_of_get hget] using
        h.modify hget (fun _ => (changeLoop addChar (pMap.flags key) zChange).2) hchange

/-- The maps that parsing a text and changes after it, whether they succeed or fail, can
leave. -/
inductive Reachable : AfMap → Prop where
  | parse (zText : Option Bytes) (bComplex bSpace : Bool) :
    Reachable (attrFlagsParse zText bComplex bSpace).2
  | change {pMap : AfMap} (zChange : Option Bytes) (key : UInt64) (h : Reachable pMap) :
    Reachable (attrFlagsChange pMap zChange key).2

theorem Reachable.ok {pMap : AfMap} (h : Reachable pMap) : pMap.Ok := by
  induction h with
  | parse zText bComplex bSpace => exact attrFlagsParse_ok zText bComplex bSpace
  | change zChange key _ ih => exact attrFlagsChange_ok ih zChange key

end Th8.Flags
