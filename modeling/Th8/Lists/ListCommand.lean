import Th8.Lists.RoundTrip

/-!
# The command `list`

`list_command` looks its elements up in the cache of joined strings, and builds and stores
the string when it is not there.  It does not look at what `Th8_ListAppend` returns.  An
allocation that fails there makes the call an error all the same, but the string that has
been built so far is stored.
-/

namespace Th8

open Support

namespace Joining

/-- What becomes of a string that grows: it does, there is no memory, or the result limit is
in the way. -/
inductive Growth where
  | granted
  | noMemory
  | tooLong
deriving DecidableEq

/-- The list that is being built, and `bResultBuildFailed`. -/
structure Building where
  list : TString
  failed : Bool
deriving DecidableEq

/-- `Th8_StringAppend`, and what comes after it unless it fails. -/
def stringAppendThen (g : Growth) (app : Bytes) (next : Building → Building) (b : Building) :
    Building :=
  match g with
  | .granted => next { b with list := ⟨b.list.bytes ++ app, b.list.tags⟩ }
  | .noMemory => { b with failed := true }
  | .tooLong => b

/-- What a call of `Th8_ListAppend` gets: room for the separator, the block of
`Eagle_JoinList`, room for the joined text, or for the element and the braces around it. -/
structure AppendMemory where
  separator : Growth
  join : Bool
  text : Growth
  openBrace : Growth
  element : Growth
  closeBrace : Growth
deriving DecidableEq

/-- `Th8_ListAppend`. -/
def appendElement (mem : AppendMemory) (elem : TString) (b : Building) : Building :=
  let tag (b : Building) : Building := { b with list := b.list.addTags elem.tags }
  let write : Building → Building :=
    if mem.join then stringAppendThen mem.text (quoteElement elem.bytes) tag
    else
      stringAppendThen mem.openBrace [chOpenBrace] <|
        stringAppendThen mem.element elem.bytes <|
          stringAppendThen mem.closeBrace [chCloseBrace] tag
  if b.list.bytes ≠ [] ∨ b.list.tags ≠ Tags.clean then
    stringAppendThen mem.separator [chSpace] write b
  else write b

/-- `Th8_CacheEntry` of type `TH8_CACHE_STRING`: the elements it was made for, none if it was
made for a text, and the string stored with it. -/
structure JoinEntry where
  azListElem : List Bytes
  zData : Option Bytes
deriving DecidableEq

/-- The entries of type `TH8_CACHE_STRING`, by the hash code in their key. -/
abbrev JoinCache := UInt64 → Option JoinEntry

def cacheHashList (azElem : List Bytes) : UInt64 :=
  azElem.foldl (fun h e => (h <<< 5 ||| h >>> 59) ^^^ cacheHashBytes e)
    (UInt64.ofNat (azElem.length % 2 ^ 32))

/-- `th8FindListInCache` of some elements. -/
def findListInCache (mem : CacheMemory) (cache : JoinCache) (azElem : List Bytes) :
    JoinCache × Option JoinEntry :=
  let key := cacheHashList azElem
  if mem = .noSlot then (cache, none)
  else if (cache key).map JoinEntry.azListElem = some azElem then (cache, cache key)
  else if mem = .noEntry then (Function.update cache key none, none)
  else (Function.update cache key (some ⟨azElem, none⟩), some ⟨azElem, none⟩)

/-- `th8SetCacheString` of the entry that has been found for the elements. -/
def setCacheString (copyGranted : Bool) (cache : JoinCache) (azElem : List Bytes) (z : Bytes) :
    JoinCache :=
  match cache (cacheHashList azElem) with
  | some ⟨azElem', none⟩ =>
    if copyGranted then Function.update cache (cacheHashList azElem) (some ⟨azElem', some z⟩)
    else cache
  | _ => cache

/-- A call of `list`: its arguments with what is granted for each, the memory of the two
lookups, and whether the copy for the cache and the result get theirs. -/
structure ListCall where
  args : List (TString × AppendMemory)
  lookup : CacheMemory
  store : CacheMemory
  copyGranted : Bool
  resultGranted : Bool
deriving DecidableEq

namespace ListCall

def azElem (c : ListCall) : List Bytes := c.args.map fun a => a.1.bytes

def build (c : ListCall) : Building :=
  c.args.foldl (fun b a => appendElement a.2 a.1 b) ⟨.plain [], false⟩

/-- `Th8_ListAppend` gets what it needs for each argument. -/
def Granted (c : ListCall) : Prop :=
  ∀ a ∈ c.args, a.2.separator = .granted ∧ a.2.join = true ∧ a.2.text = .granted

instance (c : ListCall) : Decidable c.Granted := inferInstanceAs (Decidable (∀ a ∈ c.args, _))

end ListCall

/-- `list_command`, with the error that the dispatcher makes of `bResultBuildFailed`. -/
def listCommand (cache : JoinCache) (c : ListCall) : JoinCache × Except Failure TString :=
  let nTag := unionTags (c.args.map Prod.fst)
  let (cache, pCached) :=
    if c.azElem = [] then (cache, none) else findListInCache c.lookup cache c.azElem
  let setResult (r : TString) (failed : Bool) : Except Failure TString :=
    if failed ∨ (r.bytes ≠ [] ∧ !c.resultGranted) then .error (.static "out of memory")
    else .ok (r.addTags nTag)
  match pCached.bind JoinEntry.zData with
  | some z => (cache, setResult (.plain z) false)
  | none =>
    if c.azElem = [] ∨ c.build.list.bytes = [] then (cache, setResult c.build.list c.build.failed)
    else
      let (cache, pCached) := findListInCache c.store cache c.azElem
      (if pCached.isSome then setCacheString c.copyGranted cache c.azElem c.build.list.bytes
        else cache,
        setResult c.build.list c.build.failed)

/-- What happens to the cache: a call of `list`, an eviction, and an entry made for a text. -/
inductive JoinOp where
  | list (c : ListCall)
  | evict (key : UInt64)
  | text (key : UInt64) (zData : Option Bytes)

def JoinCache.step (cache : JoinCache) : JoinOp → JoinCache
  | .list c => (listCommand cache c).1
  | .evict key => Function.update cache key none
  | .text key zData => Function.update cache key (some ⟨[], zData⟩)

/-- In a call of `list` nothing fails in `Th8_ListAppend`. -/
def AppendsGranted : JoinOp → Prop
  | .list c => c.Granted
  | _ => True

def JoinEntry.Sound (e : JoinEntry) : Prop :=
  e.azListElem ≠ [] → ∀ z, e.zData = some z → z = joinElements e.azListElem

def JoinCache.Sound (cache : JoinCache) : Prop := ∀ key e, cache key = some e → e.Sound

/-! ## What a call returns -/

variable {cache : JoinCache} {c : ListCall}

theorem appendElement_granted {mem : AppendMemory} {elem : TString} {elems : List Bytes}
    {b : Building} (hmem : mem.separator = .granted ∧ mem.join = true ∧ mem.text = .granted)
    (hlist : b.list.bytes = joinElements elems) (hclean : elems = [] → b.list.tags = Tags.clean) :
    (appendElement mem elem b).list.bytes = joinElements (elems ++ [elem.bytes]) := by
  obtain ⟨hseparator, hjoin, htext⟩ := hmem
  rw [joinElements_append]
  by_cases hnil : elems = []
  · subst hnil
    simp [appendElement, stringAppendThen, hjoin, htext, hlist, hclean, joinElements,
      TString.addTags]
  · have hne : b.list.bytes ≠ [] := by
      rw [hlist, Ne, joinElements_eq_nil]
      exact hnil
    simp [appendElement, stringAppendThen, hseparator, hjoin, htext, hne, hnil, TString.addTags]
    simp [hlist]

theorem build_granted (hc : c.Granted) : c.build.list.bytes = joinElements c.azElem := by
  have hloop (args : List (TString × AppendMemory)) (elems : List Bytes) (b : Building)
      (hargs : ∀ a ∈ args, a.2.separator = .granted ∧ a.2.join = true ∧ a.2.text = .granted)
      (hlist : b.list.bytes = joinElements elems) (hclean : elems = [] → b.list.tags = Tags.clean) :
      (args.foldl (fun b a => appendElement a.2 a.1 b) b).list.bytes =
        joinElements (elems ++ args.map fun a => a.1.bytes) := by
    induction args generalizing elems b with
    | nil => simpa using hlist
    | cons a args ih =>
      obtain ⟨ha, hargs⟩ := List.forall_mem_cons.mp hargs
      have hrest := ih (elems ++ [a.1.bytes]) _ hargs (appendElement_granted ha hlist hclean)
        (by simp)
      rwa [List.append_assoc] at hrest
  exact hloop c.args [] ⟨.plain [], false⟩ hc rfl fun _ => rfl

section

variable (h : cache.Sound)

include h

theorem JoinCache.Sound.update {key : UInt64} {pEntry : Option JoinEntry}
    (hentry : ∀ e, pEntry = some e → e.Sound) :
    JoinCache.Sound (Function.update cache key pEntry) := by
  intro k e he
  by_cases hk : k = key
  · rw [hk, Function.update_self] at he
    exact hentry e he
  · rw [Function.update_of_ne hk] at he
    exact h k e he

theorem findListInCache_spec (mem : CacheMemory) (azElem : List Bytes) :
    (findListInCache mem cache azElem).1.Sound ∧
      ∀ e, (findListInCache mem cache azElem).2 = some e → e.azListElem = azElem ∧ e.Sound ∧
        (findListInCache mem cache azElem).1 (cacheHashList azElem) = some e := by
  unfold findListInCache
  simp only
  split_ifs with hslot hfound hentry
  · exact ⟨h, nofun⟩
  · refine ⟨h, fun e he => ⟨?_, h _ e he, he⟩⟩
    rw [show cache (cacheHashList azElem) = some e from he] at hfound
    exact Option.some.inj hfound
  · exact ⟨h.update nofun, nofun⟩
  · have hnew : JoinEntry.Sound ⟨azElem, none⟩ := fun _ _ => nofun
    refine ⟨h.update fun e he => Option.some.inj he ▸ hnew, fun e he => ?_⟩
    cases he
    exact ⟨rfl, hnew, Function.update_self ..⟩

theorem setCacheString_sound (copyGranted : Bool) {azElem : List Bytes}
    {e : JoinEntry} (he : cache (cacheHashList azElem) = some e) (helem : e.azListElem = azElem) :
    (setCacheString copyGranted cache azElem (joinElements azElem)).Sound := by
  obtain ⟨azElem', zData⟩ := e
  obtain rfl : azElem' = azElem := helem
  cases zData with
  | some z => simpa [setCacheString, he] using h
  | none =>
    cases copyGranted with
    | false => simpa [setCacheString, he] using h
    | true =>
      simp only [setCacheString, he, if_true]
      refine h.update fun e he => ?_
      cases he
      exact fun _ z hz => (Option.some.inj hz).symm

theorem listCommand_spec (hc : c.Granted) :
    (listCommand cache c).1.Sound ∧
      ∀ r, (listCommand cache c).2 = .ok r → r.bytes = joinElements c.azElem := by
  have hbytes := build_granted hc
  have hreturn (z : Bytes) (failed : Bool) (r : TString) (t u : Tags)
      (hr : (if failed ∨ (z ≠ [] ∧ !c.resultGranted) then
        .error (.static "out of memory") else .ok (TString.addTags ⟨z, t⟩ u) :
          Except Failure TString) = .ok r) : r.bytes = z := by
    split_ifs at hr
    rw [← Except.ok.inj hr]
    rfl
  unfold listCommand
  simp only
  by_cases hnil : c.azElem = []
  · rw [if_pos hnil, if_pos (.inl hnil)]
    exact ⟨h, fun r hr => (hreturn _ _ _ _ _ hr).trans hbytes⟩
  obtain ⟨hsound, hfound⟩ := findListInCache_spec h c.lookup c.azElem
  simp only [hnil, if_false, false_or]
  rcases hdata : (findListInCache c.lookup cache c.azElem).2.bind JoinEntry.zData with _ | z
  · have hne : c.build.list.bytes ≠ [] := by
      rw [hbytes, Ne, joinElements_eq_nil]
      exact hnil
    simp only [hne, if_false]
    obtain ⟨hsound', hfound'⟩ := findListInCache_spec hsound c.store c.azElem
    refine ⟨?_, fun r hr => (hreturn _ _ _ _ _ hr).trans hbytes⟩
    rcases hentry : (findListInCache c.store (findListInCache c.lookup cache c.azElem).1
        c.azElem).2 with _ | e
    · exact hsound'
    · obtain ⟨helem, -, hcache⟩ := hfound' e hentry
      rw [hbytes]
      exact setCacheString_sound hsound' c.copyGranted hcache helem
  · obtain ⟨e, he, hz⟩ := Option.bind_eq_some_iff.mp hdata
    obtain ⟨helem, hentry, -⟩ := hfound e he
    refine ⟨hsound, fun r hr => (hreturn _ _ _ _ _ hr).trans ?_⟩
    rw [hentry (helem ▸ hnil) z hz, helem]
    rfl

theorem step_sound {op : JoinOp} (hop : AppendsGranted op) : (cache.step op).Sound := by
  cases op with
  | list c => exact (listCommand_spec h hop).1
  | evict key => exact h.update nofun
  | text key zData =>
    refine h.update fun e he hne => ?_
    cases he
    exact absurd rfl hne

end

theorem sound_empty : JoinCache.Sound fun _ => none := by
  intro key e he
  cases he

/-- In a run in which nothing fails in `Th8_ListAppend`, whatever else fails, a call returns
the list of its arguments or an error, and so does every cached string. -/
theorem listCommand_run (hrun : ReachableBy JoinCache.step (fun _ op => AppendsGranted op)
      (fun _ => none) cache) (c : ListCall) (hc : c.Granted) :
    cache.Sound ∧ ∀ r, (listCommand cache c).2 = .ok r →
      r.bytes = joinElements c.azElem ∧ ∀ es, eagleSplitList r.bytes = .ok es → es = c.azElem := by
  have hsound : cache.Sound :=
    ReachableBy.invariant sound_empty (fun _ _ h hop => step_sound h hop) hrun
  refine ⟨hsound, fun r hr => ?_⟩
  have hbytes := (listCommand_spec hsound hc).2 r hr
  refine ⟨hbytes, fun es hes => ?_⟩
  rw [hbytes] at hes
  exact eq_of_eagleSplitList_joinElements hes

def appendGranted : AppendMemory := ⟨.granted, true, .granted, .granted, .granted, .granted⟩

/-- `list a b` with memory for everything. -/
def twoLetters : ListCall :=
  ⟨[(.plain (ascii "a"), appendGranted), (.plain (ascii "b"), appendGranted)], .granted,
    .granted, true, true⟩

theorem listCommand_run_twoLetters :
    (listCommand (JoinCache.step (fun _ => none) (.list twoLetters)) twoLetters).2 =
        .ok (.plain (ascii "a b")) ∧
      ascii "a b" = joinElements twoLetters.azElem := by
  have hgranted : twoLetters.Granted := by decide
  have hrun := listCommand_run
    (.step (.list twoLetters) .init (show AppendsGranted (.list twoLetters) from hgranted))
    twoLetters hgranted
  have hr : (listCommand (JoinCache.step (fun _ => none) (.list twoLetters)) twoLetters).2 =
      .ok (.plain (ascii "a b")) := by decide +kernel
  exact ⟨hr, (hrun.2 _ hr).1⟩

/-- `list a b` without memory for the `b`. -/
def secondRefused : ListCall :=
  ⟨[(.plain (ascii "a"), appendGranted),
    (.plain (ascii "b"), { appendGranted with text := .noMemory })], .granted, .granted, true, true⟩

/-- The call that fails leaves a list of one element for the next call. -/
theorem listCommand_serves_part :
    (listCommand (fun _ => none) secondRefused).2 = .error (.static "out of memory") ∧
      (listCommand (JoinCache.step (fun _ => none) (.list secondRefused)) twoLetters).2 =
        .ok (.plain (ascii "a ")) ∧
      eagleSplitList (ascii "a ") = .ok [ascii "a"] := by
  refine ⟨by decide +kernel, by decide +kernel, ?_⟩
  decide +kernel

end Joining

end Th8
