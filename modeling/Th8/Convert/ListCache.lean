import Mathlib.Algebra.BigOperators.Group.List.Basic
import Th8.Memory.SafeAlloc
import Th8.Support.Transition

/-!
# Splitting a list through the cache

`Th8_SplitList` keeps the elements of a text it has split, keyed by the bytes of the
text, and serves them to a later call.  The parser of the Spilornis library is a
parameter: a function of the text.  Requests for the caller's own block are granted
when they stay below the allocation ceiling; the requests that the cache makes for
itself may fail at any call.
-/

namespace Th8

open Support List Option
open Function (update update_of_ne update_self)

def cacheHashBytes (z : Bytes) : UInt64 :=
  z.foldl (fun h c => (h ^^^ c.toUInt64) * 1099511628211) 14695981039346656037

/-- `Th8_CacheEntry` of type `TH8_CACHE_LIST`: the text it was made for and, when
`iValid` is set, the elements stored with it. -/
structure ListEntry where
  zOriginal : Bytes
  splitlist : Option (List Bytes)
deriving DecidableEq

/-- The entries of type `TH8_CACHE_LIST`, by the hash code in their key. -/
abbrev ListCache := UInt64 → Option ListEntry

def ListCache.empty : ListCache := fun _ => none

/-- What becomes of the memory that a cache lookup asks for: it is obtained, the table
or its slot is not, or the entry itself is not. -/
inductive CacheMemory where
  | granted
  | noSlot
  | noEntry
deriving DecidableEq

/-- `Th8_FindInCache`: the entry of a text.  An entry of another text with the same
hash code is evicted. -/
def findInCache (mem : CacheMemory) (cache : ListCache) (z : Bytes) :
    ListCache × Option ListEntry :=
  if mem = .noSlot then (cache, none)
  else
    match cache (cacheHashBytes z) with
    | some pCache =>
      if pCache.zOriginal = z then (cache, some pCache)
      else if mem = .noEntry then
        (update cache (cacheHashBytes z) none, none)
      else
        (update cache (cacheHashBytes z) (some ⟨z, none⟩), some ⟨z, none⟩)
    | none =>
      if mem = .noEntry then (cache, none)
      else
        (update cache (cacheHashBytes z) (some ⟨z, none⟩), some ⟨z, none⟩)

def lenMask : ℕ := 0x0fffffff

def maxListElements : ℕ := 1000000

/-- The parameters of a call: the text, the tags of its length word, which of the
output parameters are not null, and `TH8_LIST_NO_CACHE`. -/
structure SplitCall where
  zList : Bytes
  nListTag : Tags
  pazElem : Bool
  panElem : Bool
  pnCount : Bool
  noCache : Bool
  nList_le : zList.length ≤ lenMask
deriving DecidableEq

/-- What a call returns.  `status` is the failure, if there is one.  An output
parameter that is not written is `none`; of the two array parameters, the null pointer
is `some none`. -/
structure SplitReply where
  status : Option Failure
  pnCount : Option ℕ
  pazElem : Option (Option (List Bytes))
  panElem : Option (Option (List (ℕ × Tags)))
deriving DecidableEq

def SplitReply.fail (e : Failure) (pnCount : Option ℕ) : SplitReply :=
  ⟨some e, pnCount, none, none⟩

def writeOut {α : Type} (given : Bool) (v : α) : Option α :=
  if given then some v else none

def taggedLengths (t : Tags) (azElem : List Bytes) : List (ℕ × Tags) :=
  azElem.map fun e => (e.length, t)

def stringSpace (azElem : List Bytes) : ℕ := (azElem.map fun e => e.length + 1).sum

def checkedSpace : List Bytes → ℕ → Option ℕ
  | [], n => some n
  | e :: rest, n => (safeAddSize n (e.length + 1)).bind (checkedSpace rest)

def blockSize (nElem nStrTotal : ℕ) : Option ℕ :=
  (safeMulSize 8 nElem).bind fun t1 =>
    (safeMulSize 8 nElem).bind fun t2 =>
      (safeAddSize t1 t2).bind fun nAlloc => safeAddSize nAlloc nStrTotal

/-- The reply that hands out the elements `azElem`. -/
def SplitCall.handOut (c : SplitCall) (azElem : List Bytes) : SplitReply where
  status := none
  pnCount := writeOut c.pnCount azElem.length
  pazElem := writeOut c.pazElem (some azElem)
  panElem := writeOut c.panElem (some (taggedLengths c.nListTag azElem))

def SplitCall.countOnly (c : SplitCall) (nElem : ℕ) : SplitReply where
  status := none
  pnCount := writeOut c.pnCount nElem
  pazElem := writeOut c.pazElem none
  panElem := writeOut c.panElem none

/-! ## `Th8_SplitList` -/

/-- `Eagle_SplitList`: the elements of a text, or its error text if it has one. -/
abbrev ListParser := Bytes → Except (Option String) (List Bytes)

section SplitList

variable (eagleSplitList : ListParser)

/-- The part of `Th8_SplitList` that answers from a valid cache entry. -/
def serveCached (c : SplitCall) (azC : List Bytes) : SplitReply :=
  if maxListElements < azC.length then .fail .silent none
  else if c.pazElem then
    match (checkedSpace azC 0).bind (blockSize azC.length) with
    | none => .fail .silent none
    | some nAlloc =>
      if safeAlloc true nAlloc then c.handOut azC else .fail .silent none
  else c.countOnly azC.length

/-- The part of `Th8_SplitList` that parses the text. -/
def parseElements (c : SplitCall) : SplitReply :=
  match eagleSplitList c.zList with
  | .error (some zError) => .fail (.static zError) none
  | .error none => .fail (.message "Expected list, got: \"" c.zList) none
  | .ok azElements =>
    let nCount := writeOut c.pnCount azElements.length
    if maxListElements < azElements.length then
      .fail (.static "list too many elements") nCount
    else if c.pazElem ∧ azElements ≠ [] then
      -- An element is never longer than the text.
      let azNew := azElements.map (·.take c.zList.length)
      match blockSize azNew.length (stringSpace azNew % 2 ^ 64) with
      | none => .fail (.static "list too large") nCount
      | some nAlloc =>
        if safeAlloc true nAlloc then c.handOut azNew
        else .fail (.static "out of memory") nCount
    else c.countOnly azElements.length

/-- The elements that the end of `Th8_SplitList` enters in the cache after the reply
`r`.  It reads their number from `pnCount` and takes it for zero when that parameter is
null. -/
def storedElements (c : SplitCall) (r : SplitReply) (storeGranted : Bool) : Option (List Bytes) :=
  match r.pazElem with
  | some (some azSrc) =>
    let nE := r.pnCount.getD 0
    if 0 < nE ∧ c.panElem then
      match blockSize nE (stringSpace (azSrc.take nE) % 2 ^ 64) with
      | none => none
      | some nAlloc =>
        if safeAlloc storeGranted nAlloc then some (azSrc.take nE) else none
    else if nE = 0 then some []
    else none
  | _ => none

def storeInCache (cache : ListCache) (z : Bytes) (azElem : List Bytes) : ListCache :=
  update cache (cacheHashBytes z) (some ⟨z, some azElem⟩)

/-- The requests for memory that the cache makes during a call: the lookup, the lookup
before the store and the store. -/
structure CallMemory where
  lookup : CacheMemory
  again : CacheMemory
  store : Bool
deriving DecidableEq

/-- The store at the end of `Th8_SplitList`. -/
def storeSplit (mem : CallMemory) (cache : ListCache) (c : SplitCall)
    (r : SplitReply) : ListCache :=
  match findInCache mem.again cache c.zList with
  | (cache₁, some pCached) =>
    if pCached.splitlist.isSome then cache₁
    else
      match storedElements c r mem.store with
      | some azElem => storeInCache cache₁ c.zList azElem
      | none => cache₁
  | (cache₁, none) => cache₁

/-- The path of `Th8_SplitList` that finds nothing in the cache. -/
def splitMissed (mem : CallMemory) (cache : ListCache) (c : SplitCall) : ListCache × SplitReply :=
  let r := parseElements eagleSplitList c
  if c.noCache then (cache, r)
  else
    match r.pazElem with
    | some (some _) => (storeSplit mem cache c r, r)
    | _ => (cache, r)

def splitList (mem : CallMemory) (cache : ListCache) (c : SplitCall) : ListCache × SplitReply :=
  if c.zList = [] then (cache, c.countOnly 0)
  else if c.noCache then splitMissed eagleSplitList mem cache c
  else
    match findInCache mem.lookup cache c.zList with
    | (cache₁, some pCached) =>
      match pCached.splitlist with
      | some azC => (cache₁, serveCached c azC)
      | none => splitMissed eagleSplitList mem cache₁ c
    | (cache₁, none) => splitMissed eagleSplitList mem cache₁ c

def uncachedSplit (c : SplitCall) : SplitReply :=
  (splitList eagleSplitList ⟨.granted, .granted, true⟩ .empty
    { c with noCache := true }).2

def splitStep (cache : ListCache) (call : CallMemory × SplitCall) : ListCache :=
  (splitList eagleSplitList call.1 cache call.2).1

/-- The elements of `z` are in the cache. -/
def ListCache.Holds (cache : ListCache) (z : Bytes) : Prop :=
  ∃ azElem, cache (cacheHashBytes z) = some ⟨z, some azElem⟩

/-- The call does not ask for the elements of a nonempty list, to be entered in the
cache, without asking for their number. -/
def KeepsCache (cache : ListCache) (call : CallMemory × SplitCall) : Prop :=
  call.2.noCache = false → call.2.pazElem = true → call.2.pnCount = false →
    (∀ e rest, eagleSplitList call.2.zList ≠ .ok (e :: rest)) ∨ cache.Holds call.2.zList

theorem stringSpace_cons (e : Bytes) (azElem : List Bytes) :
    stringSpace (e :: azElem) = e.length + 1 + stringSpace azElem := by
  simp [stringSpace]

theorem checkedSpace_eq (azElem : List Bytes) (n : ℕ) (hfits : n + stringSpace azElem ≤ sizeMax) :
    checkedSpace azElem n = some (n + stringSpace azElem) := by
  induction azElem generalizing n with
  | nil => simp [checkedSpace, stringSpace]
  | cons e rest ih =>
    rw [stringSpace_cons] at hfits ⊢
    have hadd : safeAddSize n (e.length + 1) = some (n + (e.length + 1)) := by
      rw [safeAddSize_eq_some]
      exact ⟨by omega, rfl⟩
    rw [checkedSpace, hadd, bind_some, ih _ (by omega)]
    congr 1
    omega

theorem stringSpace_le (azElem : List Bytes) (nMax : ℕ) (hmax : ∀ e ∈ azElem, e.length ≤ nMax) :
    stringSpace azElem ≤ azElem.length * (nMax + 1) := by
  induction azElem with
  | nil => simp [stringSpace]
  | cons e rest ih =>
    have he : e.length ≤ nMax := hmax e (by simp)
    have hrest := ih fun e' he' => hmax e' (by simp [he'])
    rw [stringSpace_cons, length_cons, Nat.add_mul]
    omega

theorem stringSpace_cut_le (c : SplitCall) {azElements : List Bytes}
    (hcount : azElements.length ≤ maxListElements) :
    stringSpace (azElements.map (·.take c.zList.length)) ≤ sizeMax := by
  have hle : stringSpace (azElements.map (·.take c.zList.length)) ≤
      (azElements.map (·.take c.zList.length)).length * (lenMask + 1) := by
    apply stringSpace_le
    intro e he
    obtain ⟨e', -, rfl⟩ := mem_map.mp he
    have hlen := c.nList_le
    rw [length_take]
    omega
  rw [length_map] at hle
  calc
    _ ≤ azElements.length * (lenMask + 1) := hle
    _ ≤ maxListElements * (lenMask + 1) := Nat.mul_le_mul_right _ hcount
    _ ≤ sizeMax := by decide

/-- The elements `azElem` are what parsing the text `z` hands out. -/
structure Parsed (z : Bytes) (azElem : List Bytes) : Prop where
  nonempty : z ≠ []
  parsed : ∃ e rest, eagleSplitList z = .ok (e :: rest) ∧ azElem = (e :: rest).map (·.take z.length)
  count : azElem.length ≤ maxListElements
  granted : ∃ nAlloc, blockSize azElem.length (stringSpace azElem % 2 ^ 64) =
    some nAlloc ∧ safeAlloc true nAlloc = true

def ListCache.Sound (cache : ListCache) : Prop :=
  ∀ h pCache azElem, cache h = some pCache → pCache.splitlist = some azElem →
    Parsed eagleSplitList pCache.zOriginal azElem

variable {eagleSplitList}

theorem parsed_of_handsOut {c : SplitCall} {azElem : List Bytes} (hne : c.zList ≠ [])
    (hout : (parseElements eagleSplitList c).pazElem = some (some azElem)) :
    Parsed eagleSplitList c.zList azElem ∧ c.pazElem = true ∧
      parseElements eagleSplitList c = c.handOut azElem := by
  rcases hparse : eagleSplitList c.zList with zError | azElements
  · rcases zError with _ | zError
    · simp [parseElements, hparse, SplitReply.fail] at hout
    · simp [parseElements, hparse, SplitReply.fail] at hout
  · simp only [parseElements, hparse] at hout ⊢
    by_cases hmany : maxListElements < azElements.length
    · simp [hmany, SplitReply.fail] at hout
    · rw [if_neg hmany] at hout ⊢
      by_cases hask : c.pazElem = true ∧ azElements ≠ []
      · rw [if_pos hask] at hout ⊢
        rcases hsize : blockSize (azElements.map (·.take c.zList.length)).length
            (stringSpace (azElements.map (·.take c.zList.length)) % 2 ^ 64) with _ | nAlloc
        · simp only [hsize] at hout
          simp [SplitReply.fail] at hout
        · simp only [hsize] at hout ⊢
          by_cases hgrant : safeAlloc true nAlloc = true
          · rw [if_pos hgrant] at hout ⊢
            simp only [SplitCall.handOut, writeOut, hask.1, if_true, some.injEq] at hout
            subst hout
            obtain ⟨e, rest, rfl⟩ := exists_cons_of_ne_nil hask.2
            refine ⟨⟨hne, ⟨e, rest, hparse, rfl⟩, ?_, ⟨nAlloc, hsize, hgrant⟩⟩, hask.1, rfl⟩
            rw [length_map]
            omega
          · simp [hgrant, SplitReply.fail] at hout
      · simp only [hask, if_false, SplitCall.countOnly, writeOut] at hout
        split at hout
        · simp at hout
        · simp at hout

theorem serveCached_eq_parseElements {c : SplitCall} {azElem : List Bytes}
    (h : Parsed eagleSplitList c.zList azElem) :
    serveCached c azElem = parseElements eagleSplitList c := by
  obtain ⟨e, rest, hparse, hcut⟩ := h.parsed
  obtain ⟨nAlloc, hsize, hgrant⟩ := h.granted
  have hlen : azElem.length = (e :: rest).length := by rw [hcut, length_map]
  have hcount : (e :: rest).length ≤ maxListElements := hlen ▸ h.count
  have hfits : stringSpace azElem ≤ sizeMax := hcut ▸ stringSpace_cut_le c hcount
  have hmod : stringSpace azElem % 2 ^ 64 = stringSpace azElem := by
    apply Nat.mod_eq_of_lt
    have hmax : sizeMax = 2 ^ 64 - 1 := rfl
    omega
  have hmany : ¬maxListElements < azElem.length := by have := h.count; omega
  have hmany' : ¬maxListElements < (e :: rest).length := by omega
  rw [serveCached, parseElements]
  simp only [hparse, hmany, hmany', if_false, ← hcut, hsize, hgrant, if_true]
  rw [checkedSpace_eq azElem 0 (by omega), bind_some, Nat.zero_add, ← hmod, hsize]
  by_cases hask : c.pazElem = true
  · simp [hask, hgrant]
  · simp [hask, hlen]

theorem uncachedSplit_eq (c : SplitCall) :
    uncachedSplit eagleSplitList c =
      if c.zList = [] then c.countOnly 0 else parseElements eagleSplitList c := by
  by_cases hne : c.zList = []
  · simp only [uncachedSplit, splitList, hne, if_true]
    rfl
  · simp only [uncachedSplit, splitList, hne, if_false, if_true, splitMissed]
    rfl

theorem splitMissed_reply (mem : CallMemory) (cache : ListCache) (c : SplitCall) :
    (splitMissed eagleSplitList mem cache c).2 = parseElements eagleSplitList c := by
  unfold splitMissed
  simp only
  split_ifs
  · rfl
  · split
    · rfl
    · rfl

/-! ## Lookups and stores keep the cache sound -/

theorem findInCache_cases (mem : CacheMemory) (cache : ListCache) (z : Bytes) :
    findInCache mem cache z = (cache, none) ∨
      (∃ sl, cache (cacheHashBytes z) = some ⟨z, sl⟩ ∧
        findInCache mem cache z = (cache, some ⟨z, sl⟩)) ∨
      (¬cache.Holds z ∧ (findInCache mem cache z = (update cache (cacheHashBytes z) none, none) ∨
        findInCache mem cache z =
          (update cache (cacheHashBytes z) (some ⟨z, none⟩), some ⟨z, none⟩))) := by
  by_cases hslot : mem = .noSlot
  · simp [findInCache, hslot]
  · rcases hold : cache (cacheHashBytes z) with _ | ⟨zOriginal, sl⟩
    · have hno : ¬cache.Holds z := by simp [ListCache.Holds, hold]
      by_cases hentry : mem = .noEntry
      · simp [findInCache, hold, hentry]
      · simp [findInCache, hslot, hold, hentry, hno]
    · by_cases hz : zOriginal = z
      · subst hz
        simp [findInCache, hslot, hold]
      · have hno : ¬cache.Holds z := by simp [ListCache.Holds, hold, hz]
        by_cases hentry : mem = .noEntry
        · simp [findInCache, hold, hentry, hz, hno]
        · simp [findInCache, hslot, hold, hentry, hz, hno]

theorem ListCache.Sound.update_none {cache : ListCache}
    (hs : cache.Sound eagleSplitList) (h : UInt64) :
    ListCache.Sound eagleSplitList (update cache h none) := by
  intro h' pCache azElem hget hvalid
  by_cases hh : h' = h
  · simp [hh] at hget
  · rw [update_of_ne hh] at hget
    exact hs h' pCache azElem hget hvalid

theorem ListCache.Sound.update_some {cache : ListCache}
    (hs : cache.Sound eagleSplitList) (h : UInt64) {pCache : ListEntry}
    (hnew : ∀ azElem, pCache.splitlist = some azElem →
      Parsed eagleSplitList pCache.zOriginal azElem) :
    ListCache.Sound eagleSplitList (update cache h (some pCache)) := by
  intro h' pCache' azElem hget hvalid
  by_cases hh : h' = h
  · subst hh
    rw [update_self, some.injEq] at hget
    subst hget
    exact hnew azElem hvalid
  · rw [update_of_ne hh] at hget
    exact hs h' pCache' azElem hget hvalid

theorem findInCache_sound {cache : ListCache} (hs : cache.Sound eagleSplitList)
    (mem : CacheMemory) (z : Bytes) :
    ListCache.Sound eagleSplitList (findInCache mem cache z).1 := by
  obtain hfind | ⟨sl, -, hfind⟩ | ⟨-, hfind | hfind⟩ := findInCache_cases mem cache z
  · rw [hfind]
    exact hs
  · rw [hfind]
    exact hs
  · rw [hfind]
    exact hs.update_none _
  · rw [hfind]
    exact hs.update_some _ (by simp)

theorem parsed_of_storedElements {c : SplitCall} {storeGranted : Bool}
    {azElem azOut : List Bytes} (hcount : c.pnCount = true)
    (hout : Parsed eagleSplitList c.zList azOut)
    (hstore : storedElements c (c.handOut azOut) storeGranted = some azElem) :
    azElem = azOut := by
  have hpos : 0 < azOut.length := by
    obtain ⟨e, rest, -, hcut⟩ := hout.parsed
    simp [hcut]
  have hne : azOut.length ≠ 0 := by omega
  unfold storedElements at hstore
  simp only [SplitCall.handOut, writeOut, hcount, if_true, getD_some] at hstore
  split at hstore
  · rename_i azSrc hsrc
    have hsrc' : azSrc = azOut := by
      split at hsrc
      · simpa using hsrc.symm
      · simp at hsrc
    subst hsrc'
    rw [take_length] at hstore
    by_cases hlens : 0 < azSrc.length ∧ c.panElem = true
    · rw [if_pos hlens] at hstore
      split at hstore
      · simp at hstore
      · split at hstore
        · simpa using hstore.symm
        · simp at hstore
    · rw [if_neg hlens, if_neg hne] at hstore
      simp at hstore
  · simp at hstore

theorem KeepsCache.pnCount {cache : ListCache} {mem : CallMemory} {c : SplitCall}
    {azOut : List Bytes} (hkeep : KeepsCache eagleSplitList cache (mem, c))
    (hcache : c.noCache = false) (hask : c.pazElem = true)
    (hout : Parsed eagleSplitList c.zList azOut) (hno : ¬cache.Holds c.zList) :
    c.pnCount = true := by
  by_contra hcount
  obtain ⟨e, rest, hparse, -⟩ := hout.parsed
  rcases hkeep hcache hask (by simpa using hcount) with hnone | hholds
  · exact hnone e rest hparse
  · exact hno hholds

theorem storeSplit_sound {cache : ListCache} {mem : CallMemory} {c : SplitCall}
    {azOut : List Bytes} (hs : cache.Sound eagleSplitList)
    (hout : Parsed eagleSplitList c.zList azOut)
    (hcount : ¬cache.Holds c.zList → c.pnCount = true) :
    ListCache.Sound eagleSplitList (storeSplit mem cache c (c.handOut azOut)) := by
  have hstored : ∀ cache₁ : ListCache, cache₁.Sound eagleSplitList →
      ¬cache.Holds c.zList → ListCache.Sound eagleSplitList
        (match storedElements c (c.handOut azOut) mem.store with
          | some azElem => storeInCache cache₁ c.zList azElem
          | none => cache₁) := by
    intro cache₁ hs₁ hno
    split
    · rename_i azElem hstore
      apply hs₁.update_some
      intro azElem' hvalid
      have hsame : azElem' = azElem := by simpa using hvalid.symm
      rw [hsame, parsed_of_storedElements (hcount hno) hout hstore]
      exact hout
    · exact hs₁
  have hfound := findInCache_sound hs mem.again c.zList
  obtain hfind | ⟨sl, hold, hfind⟩ | ⟨hno, hfind | hfind⟩ :=
    findInCache_cases mem.again cache c.zList
  · simpa only [storeSplit, hfind] using hs
  · rcases sl with _ | azC
    · have hno : ¬cache.Holds c.zList := by simp [ListCache.Holds, hold]
      simpa only [storeSplit, hfind, isSome_none, Bool.false_eq_true, if_false]
        using hstored cache hs hno
    · simpa only [storeSplit, hfind, isSome_some, if_true] using hs
  · rw [hfind] at hfound
    simpa only [storeSplit, hfind] using hfound
  · rw [hfind] at hfound
    simpa only [storeSplit, hfind, isSome_none, Bool.false_eq_true, if_false]
      using hstored _ hfound hno

theorem splitMissed_sound {cache : ListCache} {mem : CallMemory} {c : SplitCall}
    (hs : cache.Sound eagleSplitList) (hne : c.zList ≠ [])
    (hkeep : KeepsCache eagleSplitList cache (mem, c)) :
    ListCache.Sound eagleSplitList (splitMissed eagleSplitList mem cache c).1 := by
  unfold splitMissed
  by_cases hcache : c.noCache = true
  · simpa [hcache] using hs
  · simp only [hcache, Bool.false_eq_true, if_false]
    split
    · rename_i azOut hpaz
      obtain ⟨hparsed, hask, hreply⟩ := parsed_of_handsOut hne hpaz
      rw [hreply]
      exact storeSplit_sound hs hparsed (hkeep.pnCount (by simpa using hcache) hask hparsed)
    · exact hs

/-! ## The cache is not observable -/

theorem KeepsCache.after_lookup {cache cache₁ : ListCache} {mem : CallMemory}
    {c : SplitCall} {found : Option ListEntry}
    (hkeep : KeepsCache eagleSplitList cache (mem, c))
    (hfind : findInCache mem.lookup cache c.zList = (cache₁, found)) :
    KeepsCache eagleSplitList cache₁ (mem, c) := by
  intro hcache hask hcount
  rcases hkeep hcache hask hcount with hnone | hholds
  · exact .inl hnone
  · right
    obtain ⟨azElem, hold⟩ := hholds
    obtain hf | ⟨sl, hsl, hf⟩ | ⟨hno, -⟩ := findInCache_cases mem.lookup cache c.zList
    · rw [hf, Prod.mk.injEq] at hfind
      exact ⟨azElem, hfind.1 ▸ hold⟩
    · rw [hf, Prod.mk.injEq] at hfind
      exact ⟨azElem, hfind.1 ▸ hold⟩
    · exact absurd ⟨azElem, hold⟩ hno

theorem splitList_spec {cache : ListCache} (hs : cache.Sound eagleSplitList)
    (mem : CallMemory) (c : SplitCall) :
    (splitList eagleSplitList mem cache c).2 = uncachedSplit eagleSplitList c ∧
      (KeepsCache eagleSplitList cache (mem, c) →
        ListCache.Sound eagleSplitList (splitList eagleSplitList mem cache c).1) := by
  rw [uncachedSplit_eq, splitList]
  by_cases hne : c.zList = []
  · rw [if_pos hne, if_pos hne]
    exact ⟨rfl, fun _ => hs⟩
  · rw [if_neg hne, if_neg hne]
    by_cases hcache : c.noCache = true
    · simp only [hcache, if_true]
      exact ⟨splitMissed_reply mem cache c, splitMissed_sound hs hne⟩
    · simp only [hcache, Bool.false_eq_true, if_false]
      have hfound := findInCache_sound hs mem.lookup c.zList
      split
      · rename_i cache₁ pCached hfind
        rw [hfind] at hfound
        split
        · rename_i azC hvalid
          refine ⟨serveCached_eq_parseElements ?_, fun _ => hfound⟩
          obtain hf | ⟨sl, hsl, hf⟩ | ⟨-, hf | hf⟩ := findInCache_cases mem.lookup cache c.zList
          · simp [hf] at hfind
          · rw [hf, Prod.mk.injEq, some.injEq] at hfind
            rw [← hfind.2] at hvalid
            exact hs _ _ azC hsl hvalid
          · simp [hf] at hfind
          · rw [hf, Prod.mk.injEq, some.injEq] at hfind
            rw [← hfind.2] at hvalid
            simp at hvalid
        · exact ⟨splitMissed_reply mem cache₁ c, fun hkeep =>
            splitMissed_sound hfound hne (hkeep.after_lookup hfind)⟩
      · rename_i cache₁ hfind
        rw [hfind] at hfound
        exact ⟨splitMissed_reply mem cache₁ c, fun hkeep =>
          splitMissed_sound hfound hne (hkeep.after_lookup hfind)⟩

theorem sound_empty : ListCache.Sound eagleSplitList .empty := by
  intro h pCache azElem hget
  simp [ListCache.empty] at hget

/-- After any history of calls that keep the cache, a call replies as the uncached
split of its text does: the same status, count, elements and tags. -/
theorem splitList_eq_uncachedSplit {cache : ListCache}
    (hreach : ReachableBy (splitStep eagleSplitList) (KeepsCache eagleSplitList)
      .empty cache) (mem : CallMemory) (c : SplitCall) :
    (splitList eagleSplitList mem cache c).2 = uncachedSplit eagleSplitList c := by
  have hstep : ∀ cache call, ListCache.Sound eagleSplitList cache →
      KeepsCache eagleSplitList cache call →
        ListCache.Sound eagleSplitList (splitStep eagleSplitList cache call) :=
    fun cache call hs hkeep => (splitList_spec hs call.1 call.2).2 hkeep
  have hs : cache.Sound eagleSplitList := hreach.invariant sound_empty hstep
  exact (splitList_spec hs mem c).1

end SplitList

def wordParser : ListParser := fun z =>
  .ok ((z.splitOnP isSpace).filter (· ≠ []))

/-- A call for the text `a b` with the given output parameters. -/
def callForWords (pazElem panElem pnCount : Bool) : SplitCall where
  zList := ascii "a b"
  nListTag := ⟨true, false⟩
  pazElem := pazElem
  panElem := panElem
  pnCount := pnCount
  noCache := false
  nList_le := by decide

theorem splitList_eq_uncachedSplit_words :
    (splitList wordParser ⟨.granted, .granted, true⟩
        (splitStep wordParser .empty (⟨.granted, .granted, true⟩, callForWords true true true))
        (callForWords true true false)).2 =
      uncachedSplit wordParser (callForWords true true false) :=
  splitList_eq_uncachedSplit
    (.step (⟨.granted, .granted, true⟩, callForWords true true true) .init
      (fun _ _ hcount => absurd hcount (by decide))) _ _

/-- Elements asked for without their number leave an empty list in the cache: the
count of the next call is zero. -/
theorem splitList_ne_uncachedSplit :
    ¬∀ cache, Reachable (splitStep wordParser) .empty cache → ∀ mem c,
      (splitList wordParser mem cache c).2 = uncachedSplit wordParser c := by
  intro hall
  have hcall := hall _ (.step (⟨.granted, .granted, true⟩, callForWords true true false)
    .init trivial) ⟨.granted, .granted, true⟩ (callForWords false false true)
  revert hcall
  decide

end Th8
