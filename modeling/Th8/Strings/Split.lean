import Th8.Lists.Append
import Th8.Strings.Characters

/-!
# `split`

With no split characters `split_command` walks along the string with `Th8_Utf8Decode`.  With
split characters it looks at the string byte by byte, and ends a piece at every byte that is
among the bytes of the split characters.
-/

namespace Th8

open Support List

namespace Strings

/-- `Th8_ListAppend` of a piece, any failure of which is reported as a lack of memory. -/
def appendPiece (nResultLimit : ℕ) (zList : TString) (z : Bytes) : Except Stop TString :=
  (listAppend nResultLimit zList (.plain z)).mapError fun _ =>
    .failure (.static "out of memory")

def splitCharacters (nResultLimit : ℕ) (z : Bytes) (n : ℕ) : ℕ → ℕ → TString → Run TString
  | 0, _, zList => return zList
  | fuel + 1, i, zList =>
    if i < n then do
      ready
      let (_, nByte) ← Traced.lift (utf8Decode z i (n - i))
      let piece ← Traced.lift (readBytes z i nByte)
      let zList ← Traced.lift (appendPiece nResultLimit zList piece)
      splitCharacters nResultLimit z n fuel (i + nByte) zList
    else return zList

def splitBytes (nResultLimit : ℕ) (zChars piece : Bytes) : Bytes → TString → Run TString
  | [], zList => Traced.lift (appendPiece nResultLimit zList piece)
  | c :: rest, zList => do
    ready
    if c ∈ zChars then do
      let zList ← Traced.lift (appendPiece nResultLimit zList piece)
      splitBytes nResultLimit zChars [] rest zList
    else splitBytes nResultLimit zChars (piece ++ [c]) rest zList

/-- `split_command` of a string at split characters, and the list it makes the result. -/
def splitCommand (nResultLimit : ℕ) (zStr zChars : Bytes) : Run TString :=
  if zChars = [] then splitCharacters nResultLimit zStr zStr.length zStr.length 0 (.plain [])
  else if zStr = [] then return .plain []
  else splitBytes nResultLimit zChars [] zStr (.plain [])

def bytePieces (zStr zChars : Bytes) : List Bytes :=
  if zStr = [] then [] else zStr.splitOnP (· ∈ zChars)

def charPieces (cs : List Char) (c : Char) : List Bytes :=
  if cs = [] then [] else (cs.splitOn c).map utf8

variable {nResultLimit : ℕ} {zChars : Bytes} {cs : List Char} {c : Char} {zList r : TString}

theorem foldlM_appendPiece {pieces : List Bytes} :
    pieces.foldlM (appendPiece nResultLimit) zList = .ok r ↔
      (pieces.map TString.plain).foldlM (listAppend nResultLimit) zList = .ok r := by
  induction pieces generalizing zList with
  | nil => exact ⟨fun h => Except.ok.inj h ▸ rfl, fun h => Except.ok.inj h ▸ rfl⟩
  | cons z pieces ih =>
    rw [foldlM_cons, map_cons, foldlM_cons, appendPiece]
    cases listAppend nResultLimit zList (.plain z) with
    | error e => exact ⟨nofun, nofun⟩
    | ok zList => exact ih

theorem splitBytes_result (piece rest : Bytes) :
    (splitBytes nResultLimit zChars piece rest zList).result =
      (rest.splitOnPPrepend (· ∈ zChars) piece.reverse).foldlM (appendPiece nResultLimit)
        zList := by
  induction rest generalizing piece zList with
  | nil =>
    rw [splitOnPPrepend_nil, reverse_reverse, foldlM_cons]
    exact (bind_pure _).symm
  | cons b rest ih =>
    rw [splitBytes]
    by_cases hb : b ∈ zChars
    · rw [splitOnPPrepend_cons_pos (by simpa using hb), reverse_reverse, foldlM_cons]
      simp [hb, ready, ih]
    · rw [splitOnPPrepend_cons_neg (by simpa using hb)]
      simp [hb, ready, ih]

/-! ## Characters as pieces -/

theorem utf8Decode_word {w : Bytes} (hw : Word w) (x y : Bytes) :
    ∃ v, utf8Decode (x ++ w ++ y) x.length (w.length + y.length) = .ok (v, w.length) := by
  have hread (k : ℕ) (hk : k < w.length) : readByte (x ++ w ++ y) (x.length + k) = .ok w[k] := by
    rw [readByte, append_assoc, getElem?_append_right (by omega),
      Nat.add_sub_cancel_left, getElem?_append_left hk, getElem?_eq_getElem hk]
  have hfirst (hk : 0 < w.length) : readByte (x ++ w ++ y) x.length = .ok w[0] := hread 0 hk
  rw [utf8Decode]
  cases hw with
  | one a ha =>
    rw [hfirst (by simp)]
    exact ⟨_, if_pos ha⟩
  | two a b ha hb =>
    simp only [hfirst (by simp), ok_bind, hread 1 (by simp)]
    simp [(lead_cases a).1 ha, ha]
  | three a b c ha hb hc =>
    obtain ⟨h1, h2⟩ := (lead_cases a).2.1 ha
    simp only [hfirst (by simp), ok_bind, hread 1 (by simp), hread 2 (by simp)]
    simp [h1, h2, ha]
  | four a b c d ha hb hc hd =>
    obtain ⟨h1, h2, h3⟩ := (lead_cases a).2.2 ha
    simp only [hfirst (by simp), ok_bind, hread 1 (by simp), hread 2 (by simp), hread 3 (by simp)]
    simp [h1, h2, h3, ha]

theorem utf8EncodeChar_injective : Function.Injective String.utf8EncodeChar := by
  intro c d h
  have hc := ByteArray.utf8DecodeChar?_utf8EncodeChar_append (b := .empty) (c := c)
  rw [h, ByteArray.utf8DecodeChar?_utf8EncodeChar_append] at hc
  exact (Option.some.inj hc).symm

theorem splitCharacters_result {x : Bytes} {fuel : ℕ} (hfuel : (utf8 cs).length ≤ fuel) :
    (splitCharacters nResultLimit (x ++ utf8 cs) (x ++ utf8 cs).length fuel x.length zList).result =
      (cs.map String.utf8EncodeChar).foldlM (appendPiece nResultLimit) zList := by
  induction cs generalizing x fuel zList with
  | nil => cases fuel <;> simp [splitCharacters]
  | cons c cs ih =>
    have hpos := length_pos_iff.mpr (String.utf8EncodeChar_ne_nil (c := c))
    have hutf8 : utf8 (c :: cs) = String.utf8EncodeChar c ++ utf8 cs := rfl
    rw [hutf8, length_append] at hfuel
    obtain ⟨fuel, rfl⟩ := Nat.exists_eq_succ_of_ne_zero (by omega : fuel ≠ 0)
    obtain ⟨v, hdecode⟩ := utf8Decode_word (word_utf8EncodeChar c) x (utf8 cs)
    rw [hutf8, ← append_assoc, splitCharacters,
      if_pos (by rw [length_append, length_append]; omega)]
    have hleft : (x ++ String.utf8EncodeChar c ++ utf8 cs).length - x.length =
        (String.utf8EncodeChar c).length + (utf8 cs).length := by
      rw [length_append, length_append]
      omega
    have hpiece : readBytes (x ++ String.utf8EncodeChar c ++ utf8 cs) x.length
        (String.utf8EncodeChar c).length = .ok (String.utf8EncodeChar c) := by
      rw [readBytes, if_pos (by rw [length_append, length_append]; omega)]
      simp [append_assoc]
    have hrec (zList : TString) := @ih zList (x ++ String.utf8EncodeChar c) fuel (by omega)
    rw [hleft, hdecode, map_cons, foldlM_cons]
    simp only [ready, Traced.bind_result, Traced.request_result, Traced.lift_result, ok_bind,
      hpiece, ← hrec, length_append]

theorem splitOnP_append {p : Byte → Bool} {x : Bytes} (hx : ∀ b ∈ x, p b = false) (y : Bytes) :
    (x ++ y).splitOnP p = (y.splitOnP p).modifyHead (x ++ ·) := by
  induction x with
  | nil => exact (congrFun modifyHead_id _).symm
  | cons b x ih =>
    obtain ⟨hb, hx⟩ := forall_mem_cons.mp hx
    rw [cons_append, splitOnP_cons_eq_if_modifyHead, hb, ih hx]
    simp [Function.comp_def]

theorem length_splitOnP {α : Type} (p : α → Bool) (z : List α) :
    (z.splitOnP p).length = z.countP p + 1 := by
  induction z with
  | nil => rfl
  | cons b z ih =>
    rw [splitOnP_cons_eq_if_modifyHead, countP_cons]
    by_cases hb : p b <;> simp [hb, ih]

theorem Word.eq_singleton {w : Bytes} (hw : Word w) {b : Byte} (hb : b ∈ w) (hlt : b < 0x80) :
    w = [b] := by
  have hcont (a : Byte) (ha : a &&& 0xc0 = 0x80) : ¬a < 0x80 := by
    have hall : ∀ m < 256, UInt8.ofNat m &&& 0xc0 = 0x80 → ¬UInt8.ofNat m < 0x80 := by
      decide +kernel
    simpa only [UInt8.ofNat_toNat] using fun h => hall a.toNat a.toNat_lt (by simpa using ha) h
  cases hw with
  | one a ha => rw [mem_singleton.mp hb]
  | two a b ha hb' =>
    simp only [mem_cons, not_mem_nil, or_false] at hb
    rcases hb with rfl | rfl
    · exact absurd hlt ((lead_cases _).1 ha)
    · exact absurd hlt (hcont _ hb')
  | three a b c ha hb' hc =>
    simp only [mem_cons, not_mem_nil, or_false] at hb
    rcases hb with rfl | rfl | rfl
    · exact absurd hlt ((lead_cases _).2.1 ha).1
    · exact absurd hlt (hcont _ hb')
    · exact absurd hlt (hcont _ hc)
  | four a b c d ha hb' hc hd =>
    simp only [mem_cons, not_mem_nil, or_false] at hb
    rcases hb with rfl | rfl | rfl | rfl
    · exact absurd hlt ((lead_cases _).2.2 ha).1
    · exact absurd hlt (hcont _ hb')
    · exact absurd hlt (hcont _ hc)
    · exact absurd hlt (hcont _ hd)

theorem splitOnP_utf8 {b : Byte} (hc : String.utf8EncodeChar c = [b]) :
    (utf8 cs).splitOnP (· ∈ String.utf8EncodeChar c) = (cs.splitOn c).map utf8 := by
  have hlt : b < 0x80 := by
    have hw := word_utf8EncodeChar c
    rw [hc] at hw
    cases hw with
    | one a ha => exact ha
  rw [hc]
  induction cs with
  | nil => rfl
  | cons d cs ih =>
    rw [splitOn_eq_splitOnP, splitOnP_cons_eq_if_modifyHead, ← splitOn_eq_splitOnP,
      show utf8 (d :: cs) = String.utf8EncodeChar d ++ utf8 cs from rfl]
    by_cases hd : d = c
    · rw [hd, hc, singleton_append, splitOnP_cons_eq_if_modifyHead]
      simpa using ih
    · have hnot : ∀ b' ∈ String.utf8EncodeChar d, decide (b' ∈ [b]) = false := by
        intro b' hb'
        refine decide_eq_false fun h => hd (utf8EncodeChar_injective ?_)
        rw [hc, ← mem_singleton.mp h]
        exact (word_utf8EncodeChar d).eq_singleton hb' (mem_singleton.mp h ▸ hlt)
      rw [splitOnP_append hnot, ih]
      obtain ⟨p, ps, hps⟩ := exists_cons_of_ne_nil (splitOnP_ne_nil (· == c) cs)
      simp [hd, splitOn_eq_splitOnP, hps]

theorem two_mul_count_le (hc : 2 ≤ (String.utf8EncodeChar c).length) :
    2 * cs.count c ≤ (utf8 cs).countP (· ∈ String.utf8EncodeChar c) := by
  induction cs with
  | nil => simp
  | cons d cs ih =>
    rw [count_cons, show utf8 (d :: cs) = String.utf8EncodeChar d ++ utf8 cs from rfl,
      countP_append]
    by_cases hd : d = c
    · have hall : (String.utf8EncodeChar c).countP (· ∈ String.utf8EncodeChar c) =
          (String.utf8EncodeChar c).length :=
        countP_eq_length.mpr fun b hb => decide_eq_true hb
      rw [hd, hall]
      simp only [beq_self_eq_true, if_true]
      omega
    · simp only [beq_iff_eq, hd, if_false]
      omega

theorem intercalate_charPieces : (utf8 [c]).intercalate (charPieces cs c) = utf8 cs := by
  have hmap (parts : List (List Char)) :
      (utf8 [c]).intercalate (parts.map utf8) = utf8 ([c].intercalate parts) := by
    induction parts with
    | nil => rfl
    | cons p parts ih =>
      cases parts with
      | nil => simp [List.intercalate]
      | cons q parts =>
        simp only [List.intercalate, map_cons, intersperse_cons_cons, flatten_cons,
          utf8, flatMap_append] at ih ⊢
        rw [ih]
  rw [charPieces]
  split_ifs with hnil
  · rw [hnil]
    rfl
  · rw [hmap, intercalate_splitOn]

theorem bytePieces_eq_charPieces_iff :
    bytePieces (utf8 cs) (String.utf8EncodeChar c) = charPieces cs c ↔
      (String.utf8EncodeChar c).length = 1 ∨ ∀ b ∈ String.utf8EncodeChar c, b ∉ utf8 cs := by
  have hnil : utf8 cs = [] ↔ cs = [] := by
    cases cs with
    | nil => simp
    | cons d cs => simp [String.utf8EncodeChar_ne_nil]
  have hpos := length_pos_iff.mpr (String.utf8EncodeChar_ne_nil (c := c))
  rw [bytePieces, charPieces]
  simp only [hnil]
  split_ifs with hcs
  · simp [hcs]
  by_cases hone : (String.utf8EncodeChar c).length = 1
  · obtain ⟨b, hb⟩ := length_eq_one_iff.mp hone
    exact iff_of_true (splitOnP_utf8 hb) (.inl hone)
  simp only [hone, false_or]
  constructor
  · intro h
    have hlen := congrArg List.length h
    rw [length_splitOnP, length_map, splitOn_eq_splitOnP, length_splitOnP,
      Nat.succ_inj, ← List.count] at hlen
    have hcount : 2 * cs.count c ≤ _ := two_mul_count_le (by omega)
    have hzero : (utf8 cs).countP (· ∈ String.utf8EncodeChar c) = 0 := by omega
    intro b hb hmem
    exact of_decide_eq_false (by simpa using countP_eq_zero.mp hzero b hmem) hb
  · intro h
    have hc : c ∉ cs := fun hmem =>
      h _ (head_mem String.utf8EncodeChar_ne_nil) (mem_flatMap.mpr ⟨c, hmem, head_mem _⟩)
    rw [splitOnP_eq_singleton fun b hb => decide_eq_false fun hbc => h b hbc hb,
      splitOn_eq_splitOnP, splitOnP_eq_singleton fun d hd => by
        simpa using fun heq : d = c => hc (heq ▸ hd)]
    rfl

/-- `split` at one character, and into characters: the list it builds, and when its pieces
are those between the occurrences of the character. -/
theorem splitCommand_pieces (nResultLimit : ℕ) (cs : List Char) (c : Char) :
    (∀ r, (splitCommand nResultLimit (utf8 cs) (String.utf8EncodeChar c)).result = .ok r ↔
      listText nResultLimit
        ((bytePieces (utf8 cs) (String.utf8EncodeChar c)).map TString.plain) = .ok r) ∧
    (bytePieces (utf8 cs) (String.utf8EncodeChar c) = charPieces cs c ↔
      (String.utf8EncodeChar c).length = 1 ∨ ∀ b ∈ String.utf8EncodeChar c, b ∉ utf8 cs) ∧
    (utf8 [c]).intercalate (charPieces cs c) = utf8 cs ∧
    (∀ r, (splitCommand nResultLimit (utf8 cs) []).result = .ok r ↔
      listText nResultLimit ((cs.map String.utf8EncodeChar).map TString.plain) = .ok r) ∧
    (cs.map String.utf8EncodeChar).flatten = utf8 cs := by
  refine ⟨fun r => ?_, bytePieces_eq_charPieces_iff, intercalate_charPieces, fun r => ?_, rfl⟩
  · rw [splitCommand, if_neg String.utf8EncodeChar_ne_nil, bytePieces, listText]
    split_ifs with hnil
    · simp
    · rw [splitBytes_result, ← foldlM_appendPiece]
      rfl
  · rw [splitCommand, if_pos rfl, listText, ← foldlM_appendPiece,
      ← splitCharacters_result (x := []) le_rfl]
    rfl

/-- `split aèb é` cuts the `è` in two. -/
theorem splitCommand_cuts_character :
    (splitCommand 0 (utf8 ['a', 'è', 'b']) (String.utf8EncodeChar 'é')).result =
        .ok (.plain [0x61, 0x20, 0xa8, 0x62]) ∧
      charPieces ['a', 'è', 'b'] 'é' = [utf8 ['a', 'è', 'b']] := by
  refine ⟨by decide +kernel, ?_⟩
  rw [charPieces, if_neg (by simp), splitOn_eq_splitOnP,
    splitOnP_eq_singleton (by simp), map_singleton]

end Strings

end Th8
