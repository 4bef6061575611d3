import Th8.Lists.Spilornis
import Th8.Support.Outcome

/-!
# Building a list text

`Th8_StringAppend` and `Th8_ListAppend`.  The buffer and its length word are a tagged
string.  The blocks the functions ask for are granted below the allocation ceiling;
the panic hook that is told of a string past `TH8_MX_STRLEN` returns.
-/

namespace Th8

open Support List Nat

/-- `th8CheckResultSize`, where a limit of zero selects `TH8_MX_STRLEN`. -/
def checkResultSize (nResultLimit n : ℕ) : Except Failure Unit :=
  if (if nResultLimit = 0 then mxStrlen else nResultLimit) < n then
    .error (.static "result size limit exceeded")
  else .ok ()

def stringAppend (nResultLimit : ℕ) (str app : TString) : Except Failure TString := do
  let nNew := str.bytes.length + app.bytes.length
  checkResultSize nResultLimit nNew
  if safeAlloc true (nNew + 1) then .ok ⟨str.bytes ++ app.bytes, str.tags ||| app.tags⟩
  else .error (.static "out of memory")

/-- `Th8_ListAppend`.  The separator is written when the length word is not zero; a
join that fails leaves the element to be wrapped in braces as it is. -/
def listAppend (nResultLimit : ℕ) (list elem : TString) : Except Failure TString := do
  let list ←
    if list.bytes ≠ [] ∨ list.tags ≠ Tags.clean then
      stringAppend nResultLimit list (.plain [chSpace])
    else .ok list
  let list ←
    match eagleJoinList elem.bytes with
    | some zJoined => stringAppend nResultLimit list (.plain zJoined)
    | none => do
      let list ← stringAppend nResultLimit list (.plain [chOpenBrace])
      let list ← stringAppend nResultLimit list (.plain elem.bytes)
      stringAppend nResultLimit list (.plain [chCloseBrace])
  return list.addTags elem.tags

def listText (nResultLimit : ℕ) (elems : List TString) : Except Failure TString :=
  elems.foldlM (listAppend nResultLimit) (.plain [])

def quoteElement (e : Bytes) : Bytes :=
  eagleConvertCountedElement e (eagleScanCountedElement e)

def QuotingGranted (e : Bytes) : Prop := elementRoom e + 1 ≤ mxAlloc

instance (e : Bytes) : Decidable (QuotingGranted e) := Nat.decLe _ _

def joinElements : List Bytes → Bytes
  | [] => []
  | [e] => quoteElement e
  | e :: e' :: rest => quoteElement e ++ chSpace :: joinElements (e' :: rest)

def unionTags (elems : List TString) : Tags :=
  (elems.map TString.tags).foldl (· ||| ·) Tags.clean

/-! ## What a call appends -/

/-- A string of `n` bytes is within the result limit and its buffer is granted. -/
def ResultFits (nResultLimit n : ℕ) : Prop :=
  n ≤ (if nResultLimit = 0 then mxStrlen else nResultLimit) ∧ n < mxAlloc

variable {nResultLimit : ℕ}

theorem ResultFits.mono {m n : ℕ} (h : ResultFits nResultLimit n) (hle : m ≤ n) :
    ResultFits nResultLimit m :=
  ⟨hle.trans h.1, lt_of_le_of_lt hle h.2⟩

theorem stringAppend_eq_ok {str app r : TString} :
    stringAppend nResultLimit str app = .ok r ↔
      ResultFits nResultLimit (str.bytes.length + app.bytes.length) ∧
        ⟨str.bytes ++ app.bytes, str.tags ||| app.tags⟩ = r := by
  unfold stringAppend checkResultSize ResultFits
  by_cases hlimit : (if nResultLimit = 0 then mxStrlen else nResultLimit) <
      str.bytes.length + app.bytes.length
  · have hno : ¬str.bytes.length + app.bytes.length ≤
        (if nResultLimit = 0 then mxStrlen else nResultLimit) := not_le.mpr hlimit
    simp [hlimit, hno, bind, Except.bind]
  · have hfits : str.bytes.length + app.bytes.length ≤
        (if nResultLimit = 0 then mxStrlen else nResultLimit) := not_lt.mp hlimit
    simp only [hlimit, if_false, bind, Except.bind, hfits, true_and]
    by_cases hgrant : str.bytes.length + app.bytes.length < mxAlloc
    · have hsafe : safeAlloc true (str.bytes.length + app.bytes.length + 1) = true := by
        have hno : ¬(str.bytes.length + app.bytes.length + 1 = 0 ∨
          mxAlloc < str.bytes.length + app.bytes.length + 1) := by omega
        rw [safeAlloc, if_neg hno]
      simp [hsafe, hgrant]
    · have hsafe : safeAlloc true (str.bytes.length + app.bytes.length + 1) = false := by
        have hbig : str.bytes.length + app.bytes.length + 1 = 0 ∨
          mxAlloc < str.bytes.length + app.bytes.length + 1 := by omega
        rw [safeAlloc, if_pos hbig]
      simp [hsafe, hgrant]

theorem eagleJoinList_eq {e : Bytes} (h : QuotingGranted e) :
    eagleJoinList e = some (quoteElement e) := by
  have hgrant : safeAllocMul true (elementRoom e + 1) 1 = true :=
    safeAllocMul_of_le (Nat.succ_pos _) Nat.one_pos (by rw [Nat.mul_one]; exact h)
  rw [eagleJoinList, if_pos hgrant, quoteElement]

theorem quoteElement_ne_nil (e : Bytes) : quoteElement e ≠ [] := by
  unfold quoteElement eagleConvertCountedElement
  rcases e with _ | ⟨c, rest⟩
  · simp
  · have hchar : ∀ flags, convertChar flags c ≠ [] := by
      intro flags
      unfold convertChar
      split_ifs <;> simp
    simp only
    split_ifs <;> simp [hchar]

theorem joinElements_eq_nil {elems : List Bytes} : joinElements elems = [] ↔ elems = [] := by
  fun_cases joinElements elems <;> simp [quoteElement_ne_nil]

theorem joinElements_append (elems : List Bytes) (e : Bytes) :
    joinElements (elems ++ [e]) =
      if elems = [] then quoteElement e
      else joinElements elems ++ chSpace :: quoteElement e := by
  fun_induction joinElements elems with
  | case1 => simp [joinElements]
  | case2 e₀ => simp [joinElements]
  | case3 e₀ e₁ rest ih => simpa [joinElements] using ih

theorem unionTags_append (elems : List TString) (x : TString) :
    unionTags (elems ++ [x]) = unionTags elems ||| x.tags := by
  simp [unionTags]

def joinedText (elems : List TString) : TString :=
  ⟨joinElements (elems.map TString.bytes), unionTags elems⟩

theorem listAppend_joinedText (elems : List TString) {x r : TString}
    (hquote : QuotingGranted x.bytes) :
    listAppend nResultLimit (joinedText elems) x = .ok r ↔
      ResultFits nResultLimit (joinedText (elems ++ [x])).bytes.length ∧
        joinedText (elems ++ [x]) = r := by
  have hjoined : joinedText (elems ++ [x]) =
      ⟨if elems = [] then quoteElement x.bytes
        else (joinedText elems).bytes ++ chSpace :: quoteElement x.bytes,
        unionTags elems ||| x.tags⟩ := by
    simp [joinedText, joinElements_append, unionTags_append]
  unfold listAppend
  rw [eagleJoinList_eq hquote, hjoined]
  by_cases hnil : elems = []
  · subst hnil
    have hstart : ¬((joinedText []).bytes ≠ [] ∨ (joinedText []).tags ≠ Tags.clean) := by
      simp [joinedText, joinElements, unionTags]
    simp only [hstart, if_false, if_true, ok_bind, bind_eq_ok, stringAppend_eq_ok,
      pure_eq_ok, Except.ok.injEq]
    constructor
    · rintro ⟨list, ⟨hfits, rfl⟩, rfl⟩
      simpa [joinedText, joinElements, unionTags, TString.addTags, TString.plain] using hfits
    · rintro ⟨hfits, rfl⟩
      refine ⟨_, ⟨?_, rfl⟩, ?_⟩
      · simpa [joinedText, joinElements, TString.plain] using hfits
      · simp [joinedText, joinElements, unionTags, TString.addTags, TString.plain]
  · have hmore : (joinedText elems).bytes ≠ [] ∨ (joinedText elems).tags ≠ Tags.clean := by
      left
      simpa [joinedText, joinElements_eq_nil] using hnil
    simp only [hmore, if_true, hnil, if_false, bind_eq_ok, stringAppend_eq_ok, pure_eq_ok,
      Except.ok.injEq]
    constructor
    · rintro ⟨list, ⟨-, rfl⟩, list', ⟨hfits, rfl⟩, rfl⟩
      refine ⟨?_, ?_⟩
      · simpa [TString.plain, add_assoc, add_comm 1] using hfits
      · simp [joinedText, TString.addTags, TString.plain]
    · rintro ⟨hfits, rfl⟩
      have hlen : ((joinedText elems).bytes ++ chSpace :: quoteElement x.bytes).length =
          (joinedText elems).bytes.length + 1 + (quoteElement x.bytes).length := by
        simp [add_assoc, add_comm 1]
      rw [hlen] at hfits
      refine ⟨_, ⟨hfits.mono (le_add_right _ _), rfl⟩, _, ⟨?_, rfl⟩, ?_⟩
      · simpa [TString.plain] using hfits
      · simp [joinedText, TString.addTags, TString.plain]

theorem joinElements_length_le (elems rest : List Bytes) :
    (joinElements elems).length ≤ (joinElements (elems ++ rest)).length := by
  induction rest generalizing elems with
  | nil => simp
  | cons e rest ih =>
    have hone : (joinElements elems).length ≤ (joinElements (elems ++ [e])).length := by
      rw [joinElements_append]
      split_ifs with hnil
      · simp [hnil, joinElements]
      · simp
    have hrest := ih (elems ++ [e])
    rw [append_assoc, singleton_append] at hrest
    exact hone.trans hrest

theorem listText_eq_ok {elems : List TString} {zList : TString} (hne : elems ≠ [])
    (hquote : ∀ x ∈ elems, QuotingGranted x.bytes) :
    listText nResultLimit elems = .ok zList ↔
      ResultFits nResultLimit (joinedText elems).bytes.length ∧ joinedText elems = zList := by
  have hfold : ∀ rest done : List TString, rest ≠ [] → (∀ x ∈ rest, QuotingGranted x.bytes) →
      (rest.foldlM (listAppend nResultLimit) (joinedText done) = .ok zList ↔
        ResultFits nResultLimit (joinedText (done ++ rest)).bytes.length ∧
          joinedText (done ++ rest) = zList) := by
    intro rest
    induction rest with
    | nil => intro done hnil; exact absurd rfl hnil
    | cons x rest ih =>
      intro done _ hall
      have hx := hall x mem_cons_self
      rw [foldlM_cons, bind_eq_ok]
      by_cases hrest : rest = []
      · subst hrest
        simp only [foldlM_nil, pure_eq_ok, Except.ok.injEq,
          listAppend_joinedText done hx, exists_eq_right]
      · have hmore := ih (done ++ [x]) hrest fun y hy => hall y (mem_cons_of_mem _ hy)
        rw [append_assoc, singleton_append] at hmore
        constructor
        · rintro ⟨r, hr, hfold⟩
          rw [listAppend_joinedText done hx] at hr
          rw [← hr.2] at hfold
          exact hmore.mp hfold
        · intro h
          refine ⟨_, (listAppend_joinedText done hx).mpr ⟨h.1.mono ?_, rfl⟩, hmore.mpr h⟩
          have hle := joinElements_length_le ((done ++ [x]).map TString.bytes)
            (rest.map TString.bytes)
          simpa [joinedText] using hle
  have hstart : joinedText [] = .plain [] := rfl
  have h := hfold elems [] hne hquote
  rwa [nil_append, hstart] at h

end Th8
