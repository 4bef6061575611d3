import Th8.Lists.Concat
import Th8.Lists.ListCommand

/-!
# The command `lappend`

`lappend_command` does not split the value of its variable.  It counts the braces and the
brackets that stand neither in quotes nor behind a backslash, wherever they are in a word, and
appends to a value in which they match.
-/

namespace Th8

open Support Joining List

namespace Appending

/-- `braceDepth`, `bracketDepth` and `inQuote`. -/
structure WalkState where
  braceDepth : ℤ
  bracketDepth : ℤ
  inQuote : Bool
deriving DecidableEq

def WalkState.count (st : WalkState) (c : Byte) : WalkState :=
  if c = chOpenBrace then { st with braceDepth := st.braceDepth + 1 }
  else if c = chCloseBrace then { st with braceDepth := st.braceDepth - 1 }
  else if c = chOpenBracket then { st with bracketDepth := st.bracketDepth + 1 }
  else if c = chCloseBracket then { st with bracketDepth := st.bracketDepth - 1 }
  else if c = chQuote then { st with inQuote := true }
  else st

def walkFrom : Bool → WalkState → Bytes → WalkState
  | _, st, [] => st
  | true, st, _ :: z => walkFrom false st z
  | false, st, c :: z =>
    if c = chBackslash ∧ z ≠ [] then walkFrom true st z
    else if st.inQuote then walkFrom false { st with inQuote := c != chQuote } z
    else if (st.count c).braceDepth < 0 ∨ (st.count c).bracketDepth < 0 then st.count c
    else walkFrom false (st.count c) z

/-- The error that `lappend_command` reports for a value. -/
def structureError (zCur : Bytes) : Option String :=
  let st := walkFrom false ⟨0, 0, false⟩ zCur
  if st.braceDepth ≠ 0 ∨ st.bracketDepth ≠ 0 ∨ st.inQuote then
    some <|
      if 0 < st.braceDepth then "unmatched open brace in list"
      else if st.braceDepth < 0 then "unmatched close brace in list"
      else if 0 < st.bracketDepth then "unmatched open bracket in list"
      else if st.bracketDepth < 0 then "unmatched close bracket in list"
      else "unmatched quote in list"
  else none

/-- A call of `lappend`: whether its variable is a system variable, the values with what
is granted for each, the copy of the old value, and whether `Th8_SetVar` succeeds. -/
structure LappendCall where
  varName : Bytes
  systemVar : Bool
  values : List (TString × AppendMemory)
  copy : Growth
  stored : Bool

namespace LappendCall

def elems (c : LappendCall) : List Bytes := c.values.map fun v => v.1.bytes

def extend (c : LappendCall) (cur : Option TString) (zList : TString) :
    Option TString × Except Failure TString :=
  let b := c.values.foldl (fun b v => appendElement v.2 v.1 b) ⟨zList, false⟩
  (if c.stored then some b.list else cur,
    if b.failed then .error (.static "out of memory") else .ok b.list)

def Granted (c : LappendCall) : Prop :=
  (c.values ≠ [] → c.systemVar = false) ∧ c.copy = .granted ∧ c.stored = true ∧
    ∀ v ∈ c.values, v.2.separator = .granted ∧ v.2.join = true ∧ v.2.text = .granted

end LappendCall

/-- `lappend_command` on the value of a variable, if it has one. -/
def lappendCommand (c : LappendCall) (cur : Option TString) :
    Option TString × Except Failure TString :=
  if c.values ≠ [] ∧ c.systemVar then
    (cur, .error (.message "can't modify system variable \"" c.varName))
  else
    match cur with
    | none => c.extend cur (.plain [])
    | some zCur =>
      match structureError zCur.bytes with
      | some zErr => (cur, .error (.static zErr))
      | none =>
        match c.copy with
        | .granted => c.extend cur zCur
        | .noMemory => (cur, .error (.static "out of memory"))
        | .tooLong => (cur, .error (.static "result size limit exceeded"))

namespace LappendCall

def list (c : LappendCall) (zCur : TString) : TString :=
  (c.values.foldl (fun b v => appendElement v.2 v.1 b) ⟨zCur, false⟩).list

end LappendCall

/-! ## Values the walk accepts -/

/-- The bytes outside of quotes that no backslash stands before, and whether a quote is left
open. -/
def bareFrom : Bool → Bool → Bytes → Bytes × Bool
  | _, inQuote, [] => ([], inQuote)
  | true, inQuote, _ :: z => bareFrom false inQuote z
  | false, inQuote, c :: z =>
    if c = chBackslash ∧ z ≠ [] then bareFrom true inQuote z
    else if inQuote then bareFrom false (c != chQuote) z
    else (c :: (bareFrom false (c == chQuote) z).1, (bareFrom false (c == chQuote) z).2)

/-- From the depth `n` on nothing is closed that is not open, and at the end all is closed. -/
structure Closes (o c : Byte) (n : ℤ) (m : Bytes) : Prop where
  start : ∀ p, p <+: m → (p.count c : ℤ) ≤ n + p.count o
  whole : n + m.count o = m.count c

structure Balanced (z : Bytes) : Prop where
  quote : (bareFrom false false z).2 = false
  braces : Closes chOpenBrace chCloseBrace 0 (bareFrom false false z).1
  brackets : Closes chOpenBracket chCloseBracket 0 (bareFrom false false z).1

theorem closes_cons {o c d : Byte} {n : ℤ} {m : Bytes} (hn : 0 ≤ n) :
    Closes o c n (d :: m) ↔
      Closes o c (n + (if d = o then 1 else 0) - if d = c then 1 else 0) m := by
  have hcount (x : Byte) (p : Bytes) :
      ((d :: p).count x : ℤ) = p.count x + if d = x then 1 else 0 := by
    rw [count_cons]
    split_ifs <;> simp_all
  constructor
  · rintro ⟨hstart, hwhole⟩
    refine ⟨fun p hp => ?_, ?_⟩
    · have h := hstart (d :: p) ((prefix_cons_inj d).mpr hp)
      rw [hcount, hcount] at h
      omega
    · rw [hcount, hcount] at hwhole
      omega
  · rintro ⟨hstart, hwhole⟩
    refine ⟨fun p hp => ?_, ?_⟩
    · rcases prefix_cons_iff.mp hp with rfl | ⟨p, rfl, hprest⟩
      · simpa using hn
      · have h := hstart p hprest
        rw [hcount, hcount]
        omega
    · rw [hcount, hcount]
      omega

theorem WalkState.count_eq {st : WalkState} (h : st.inQuote = false) (c : Byte) : st.count c =
    ⟨st.braceDepth + (if c = chOpenBrace then 1 else 0) - (if c = chCloseBrace then 1 else 0),
      st.bracketDepth + (if c = chOpenBracket then 1 else 0) -
        (if c = chCloseBracket then 1 else 0), c == chQuote⟩ := by
  have hdiffer : chOpenBrace ≠ chCloseBrace ∧ chOpenBrace ≠ chOpenBracket ∧
      chOpenBrace ≠ chCloseBracket ∧ chOpenBrace ≠ chQuote ∧ chCloseBrace ≠ chOpenBracket ∧
      chCloseBrace ≠ chCloseBracket ∧ chCloseBrace ≠ chQuote ∧ chOpenBracket ≠ chCloseBracket ∧
      chOpenBracket ≠ chQuote ∧ chCloseBracket ≠ chQuote := by decide
  obtain ⟨b, k, q⟩ := st
  obtain rfl : q = false := h
  unfold count
  split_ifs with h1 h2 h3 h4 h5 <;> simp_all

theorem walkFrom_iff (skip : Bool) (st : WalkState) (z : Bytes) (hbrace : 0 ≤ st.braceDepth)
    (hbracket : 0 ≤ st.bracketDepth) :
    walkFrom skip st z = ⟨0, 0, false⟩ ↔ (bareFrom skip st.inQuote z).2 = false ∧
      Closes chOpenBrace chCloseBrace st.braceDepth (bareFrom skip st.inQuote z).1 ∧
      Closes chOpenBracket chCloseBracket st.bracketDepth (bareFrom skip st.inQuote z).1 := by
  have hnil {o c : Byte} {n : ℤ} : Closes o c n [] ↔ n = 0 := by
    constructor
    · exact fun h => by simpa using h.whole
    · rintro rfl
      exact ⟨fun p hp => by simp [prefix_nil.mp hp], by simp⟩
  have hneg {o c : Byte} {n : ℤ} {m : Bytes} (h : Closes o c n m) : 0 ≤ n := by
    simpa using h.start [] nil_prefix
  fun_induction walkFrom skip st z with
  | case1 skip st =>
    obtain ⟨b, k, q⟩ := st
    simp only [bareFrom, hnil, WalkState.mk.injEq]
    tauto
  | case2 st c z ih => exact ih hbrace hbracket
  | case3 st c z hesc ih =>
    rw [bareFrom, if_pos hesc]
    exact ih hbrace hbracket
  | case4 st c z hesc hquote ih =>
    rw [bareFrom, if_neg hesc, if_pos hquote]
    exact ih hbrace hbracket
  | case5 st c z hesc hquote hless =>
    rw [bareFrom, if_neg hesc, if_neg hquote, closes_cons hbrace, closes_cons hbracket]
    rw [Bool.not_eq_true] at hquote
    rw [WalkState.count_eq hquote] at hless ⊢
    constructor
    · intro h
      rw [h] at hless
      simp at hless
    · rintro ⟨-, hbraces, hbrackets⟩
      exact absurd hless (not_or.mpr ⟨Int.not_lt.mpr (hneg hbraces),
        Int.not_lt.mpr (hneg hbrackets)⟩)
  | case6 st c z hesc hquote hless ih =>
    rw [bareFrom, if_neg hesc, if_neg hquote, closes_cons hbrace, closes_cons hbracket]
    rw [Bool.not_eq_true] at hquote
    rw [WalkState.count_eq hquote] at hless ih ⊢
    exact ih (Int.not_lt.mp (not_or.mp hless).1) (Int.not_lt.mp (not_or.mp hless).2)

theorem structureError_eq_none {z : Bytes} : structureError z = none ↔ Balanced z := by
  have hwalk := walkFrom_iff false ⟨0, 0, false⟩ z (Int.le_refl 0) (Int.le_refl 0)
  have hiff : Balanced z ↔ walkFrom false ⟨0, 0, false⟩ z = ⟨0, 0, false⟩ := by
    rw [hwalk]
    exact ⟨fun h => ⟨h.quote, h.braces, h.brackets⟩, fun h => ⟨h.1, h.2.1, h.2.2⟩⟩
  rw [hiff, structureError]
  rcases walkFrom false ⟨0, 0, false⟩ z with ⟨b, k, q⟩
  simp only [WalkState.mk.injEq]
  split_ifs with h
  · simp only [false_iff]
    rintro ⟨rfl, rfl, rfl⟩
    simp at h
  · simpa [not_or] using h

/-! ## The new value -/

theorem appendElement_eq {mem : AppendMemory} (elem : TString) (b : Building)
    (hmem : mem.separator = .granted ∧ mem.join = true ∧ mem.text = .granted) :
    (appendElement mem elem b).failed = b.failed ∧ (appendElement mem elem b).list.bytes =
      (if b.list.bytes ≠ [] ∨ b.list.tags ≠ Tags.clean then b.list.bytes ++ [chSpace]
        else b.list.bytes) ++ quoteElement elem.bytes := by
  obtain ⟨hseparator, hjoin, htext⟩ := hmem
  by_cases hmore : b.list.bytes ≠ [] ∨ b.list.tags ≠ Tags.clean
  · simp [appendElement, stringAppendThen, hseparator, hjoin, htext, hmore, TString.addTags]
  · simp [appendElement, stringAppendThen, hjoin, htext, hmore, TString.addTags]

theorem foldl_appendElement {values : List (TString × AppendMemory)} (b : Building)
    (hmem : ∀ v ∈ values, v.2.separator = .granted ∧ v.2.join = true ∧ v.2.text = .granted) :
    (values.foldl (fun b v => appendElement v.2 v.1 b) b).failed = b.failed ∧
      (values.foldl (fun b v => appendElement v.2 v.1 b) b).list.bytes =
        if values = [] then b.list.bytes
        else (if b.list.bytes ≠ [] ∨ b.list.tags ≠ Tags.clean then b.list.bytes ++ [chSpace]
          else b.list.bytes) ++ joinElements (values.map fun v => v.1.bytes) := by
  induction values generalizing b with
  | nil => exact ⟨rfl, rfl⟩
  | cons v values ih =>
    obtain ⟨hv, hvalues⟩ := forall_mem_cons.mp hmem
    obtain ⟨hfailed, hbytes⟩ := appendElement_eq v.1 b hv
    obtain ⟨hfailed', hbytes'⟩ := ih (appendElement v.2 v.1 b) hvalues
    have hne : (appendElement v.2 v.1 b).list.bytes ≠ [] := by
      rw [hbytes]
      exact fun h => quoteElement_ne_nil _ (append_eq_nil_iff.mp h).2
    rw [foldl_cons, hfailed', hbytes', if_neg (cons_ne_nil v values), map_cons, joinElements_cons]
    refine ⟨hfailed, ?_⟩
    rcases values with _ | ⟨v', values⟩
    · simp [hbytes]
    · rw [if_neg (cons_ne_nil v' values), if_pos (Or.inl hne), hbytes]
      simp

variable {c : LappendCall} {zCur : TString}

theorem LappendCall.list_bytes (hc : c.Granted) : (c.list zCur).bytes =
    if c.values = [] then zCur.bytes
    else (if zCur.bytes ≠ [] ∨ zCur.tags ≠ Tags.clean then zCur.bytes ++ [chSpace]
      else zCur.bytes) ++ joinElements c.elems :=
  (foldl_appendElement ⟨zCur, false⟩ hc.2.2.2).2

theorem lappendCommand_eq (hc : c.Granted) : lappendCommand c (some zCur) =
    match structureError zCur.bytes with
    | some zErr => (some zCur, .error (.static zErr))
    | none => (some (c.list zCur), .ok (c.list zCur)) := by
  obtain ⟨hsystem, hcopy, hstored, hmem⟩ := id hc
  have hno : ¬(c.values ≠ [] ∧ c.systemVar = true) := by
    rintro ⟨hne, htrue⟩
    rw [hsystem hne] at htrue
    cases htrue
  have hfailed := (foldl_appendElement ⟨zCur, false⟩ hmem).1
  rw [lappendCommand, if_neg hno]
  cases structureError zCur.bytes with
  | some zErr => rfl
  | none => simp [hcopy, LappendCall.extend, LappendCall.list, hstored, hfailed]

theorem splits_list_iff (hc : c.Granted) {L : List Bytes} (hL : Splits zCur.bytes L) :
    Splits (c.list zCur).bytes (L ++ c.elems) ↔
      (c.values ≠ [] → endsOpen true 0 zCur.bytes = false) := by
  rw [LappendCall.list_bytes hc]
  by_cases hvalues : c.values = []
  · simpa [hvalues, LappendCall.elems] using hL
  rw [if_neg hvalues]
  have hne : c.elems ≠ [] := by simpa [LappendCall.elems] using hvalues
  have hnew : Splits (chSpace :: joinElements c.elems) c.elems :=
    (splits_spaces_append (u := [chSpace]) rfl).mpr (splits_joinElements c.elems)
  by_cases hopen : endsOpen true 0 zCur.bytes = true
  · obtain ⟨v, w, hz, hw, -, hv⟩ := exists_of_endsOpen hopen
    have hmore : zCur.bytes ≠ [] ∨ zCur.tags ≠ Tags.clean := .inl (by simp [hz])
    obtain ⟨e, rest, helems⟩ := exists_cons_of_ne_nil hne
    obtain ⟨d, y, hy, hd⟩ := joinElements_head e rest
    rw [if_pos hmore, hopen, helems, hz, hy, append_assoc, append_assoc,
      cons_append, singleton_append]
    rw [hz] at hL
    refine iff_of_false (fun hsplit => ?_) fun h => Bool.noConfusion (h hvalues)
    refine hL.not_prefix hsplit hv (spaces_of_openSequence hw) (fun f g hf hg heq => ?_)
      (prefix_append _ _)
    obtain ⟨x, hx, -⟩ := value_of_spaces (spaces_of_openSequence hw) hf
    have hlen := value_of_openSequence hw hd hg
    rw [← heq, hx] at hlen
    exact absurd hlen (Nat.not_succ_le_self 1)
  · rw [Bool.not_eq_true] at hopen
    refine iff_of_true ?_ fun _ => hopen
    rw [← append_nil zCur.bytes] at hL
    split_ifs with hmore
    · rw [append_assoc, singleton_append]
      exact (hL.append rfl hopen rfl).mpr ⟨_, hnew, rfl⟩
    · have hnil : zCur.bytes = [] := not_not.mp (not_or.mp hmore).1
      rw [hnil] at hL ⊢
      obtain rfl := (splits_of_spaces rfl).mp hL
      exact splits_joinElements _

theorem lappendCommand_iff (c : LappendCall) (zCur : TString) (hc : c.Granted)
    (hmem : SplitGranted (c.list zCur).bytes) :
    ((∀ L, SplitsInto zCur.bytes L → ∃ r, lappendCommand c (some zCur) = (some r, .ok r) ∧
        SplitsInto r.bytes (L ++ c.elems)) ∧
      ((∀ L, ¬SplitsInto zCur.bytes L) →
        ∃ e, lappendCommand c (some zCur) = (some zCur, .error e))) ↔
    ((∀ L, SplitsInto zCur.bytes L → Balanced zCur.bytes ∧
        (c.values ≠ [] → endsOpen true 0 zCur.bytes = false) ∧
        (L ++ c.elems).length ≤ maxListElements) ∧
      ((∀ L, ¬SplitsInto zCur.bytes L) → ¬Balanced zCur.bytes)) := by
  rw [lappendCommand_eq hc, ← structureError_eq_none]
  refine and_congr (forall_congr' fun L => imp_congr_right fun hL => ?_)
    (imp_congr_right fun _ => ?_)
  · have hsplit := splits_list_iff hc (eagleSplitList_eq_ok.mp hL.1).2
    cases structureError zCur.bytes with
    | some zErr => simp
    | none =>
      simp only [Prod.mk.injEq, Option.some.injEq, Except.ok.injEq, and_self, true_and]
      rw [← hsplit]
      simp [SplitsInto, eagleSplitList_eq_ok, hmem]
  · cases structureError zCur.bytes with
    | some zErr => simp
    | none => simp

def grantedCall (values : List Bytes) : LappendCall :=
  ⟨ascii "v", false, values.map fun z => (.plain z, appendGranted), .granted, true⟩

theorem grantedCall_granted (values : List Bytes) : (grantedCall values).Granted := by
  refine ⟨fun _ => rfl, rfl, rfl, fun v hv => ?_⟩
  obtain ⟨z, -, rfl⟩ := mem_map.mp hv
  exact ⟨rfl, rfl, rfl⟩

theorem lappendCommand_iff_twoLetters :
    ∃ r, lappendCommand (grantedCall [ascii "b c"]) (some (.plain (ascii "a"))) =
        (some r, .ok r) ∧ SplitsInto r.bytes [ascii "a", ascii "b c"] := by
  have hsplit : eagleSplitList (ascii "a") = .ok [ascii "a"] := by decide
  refine ((lappendCommand_iff _ (.plain (ascii "a")) (grantedCall_granted [ascii "b c"])
    ⟨by decide, by decide⟩).mpr ⟨fun L hL => ?_, fun hno => ?_⟩).1 [ascii "a"]
      (splitsInto_of_eval hsplit (by decide))
  · obtain rfl := Except.ok.inj (hL.1.symm.trans hsplit)
    exact ⟨structureError_eq_none.mp (by decide), fun _ => by decide,
      by decide⟩
  · exact absurd (splitsInto_of_eval hsplit (by decide)) (hno _)

/-- The element `a"b` is refused, and `{a}b`, which is no list, is extended. -/
theorem lappendCommand_misjudges :
    SplitsInto (ascii "a\"b") [ascii "a\"b"] ∧
      lappendCommand (grantedCall [ascii "c"]) (some (.plain (ascii "a\"b"))) =
        (some (.plain (ascii "a\"b")), .error (.static "unmatched quote in list")) ∧
      (∀ L, ¬SplitsInto (ascii "{a}b") L) ∧
      lappendCommand (grantedCall [ascii "c"]) (some (.plain (ascii "{a}b"))) =
        (some (.plain (ascii "{a}b c")), .ok (.plain (ascii "{a}b c"))) := by
  refine ⟨splitsInto_of_eval (by decide) (by decide), by decide, fun L hL => ?_,
    by decide⟩
  have herror : ∃ e, eagleSplitList (ascii "{a}b") = .error e := ⟨_, rfl⟩
  obtain ⟨e, he⟩ := herror
  rw [SplitsInto, he] at hL
  cases hL.1

end Appending

end Th8
