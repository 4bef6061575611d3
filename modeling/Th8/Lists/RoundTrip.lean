import Th8.Lists.Append
import Th8.Lists.Elements

/-!
# Lists read back

An element is written in one of two ways: inside braces as it is, or with a backslash
before every character that means something to a list.  Either way the splitter reads
exactly the bytes that the quoter wrote, whatever follows them, as long as that is
nothing or starts with white space.  So the list built from any elements splits into
these elements.
-/

namespace Th8

open Support List Nat

/-! ## Where a backslash sequence ends -/

def isBlank (c : Byte) : Bool := c == chSpace || c == chTab

def openSequence (blank : Bool) : Bytes → Bool
  | [] => true
  | c :: z => blank && c == chNewline && z.all isBlank

section Backslash

theorem takeWhile_append_stop {p : Byte → Bool} {c : Byte} (hc : p c = false)
    (z rest : Bytes) : (z ++ c :: rest).takeWhile p = z.takeWhile p := by
  induction z with
  | nil => simp [hc]
  | cons d z ih => simp [takeWhile_cons, ih]

theorem takeWhile_take_append_stop {p : Byte → Bool} {c : Byte} (hc : p c = false)
    (n : ℕ) (z rest : Bytes) :
    ((z ++ c :: rest).take n).takeWhile p = (z.take n).takeWhile p := by
  induction n generalizing z with
  | zero => simp
  | succ n ih =>
    rcases z with _ | ⟨d, z⟩
    · simp [hc]
    · simp [takeWhile_cons, ih]

theorem not_digit_of_not_hexDig {c : Byte} (h : isHexDig c = false) :
    eagleIsBinDigit c = false ∧ isOctDig c = false ∧ eagleIsDecDigit c = false := by
  have hall : ∀ m < 256, isHexDig (UInt8.ofNat m) = false →
      eagleIsBinDigit (UInt8.ofNat m) = false ∧ isOctDig (UInt8.ofNat m) = false ∧
        eagleIsDecDigit (UInt8.ofNat m) = false := by
    decide +kernel
  simpa using hall c.toNat c.toNat_lt (by simpa using h)

theorem eagleParseBackslash_append {d : Byte} (hd : isHexDig d = false) {e : Byte} {z : Bytes}
    (hopen : openSequence (isBlank d) (e :: z) = false) (c : Byte) (rest : Bytes) :
    eagleParseBackslash (c :: e :: (z ++ d :: rest)) = eagleParseBackslash (c :: e :: z) := by
  obtain ⟨hd₁, hd₂, hd₃⟩ := not_digit_of_not_hexDig hd
  have hhex := takeWhile_append_stop hd z rest
  have hbin := takeWhile_append_stop hd₁ z rest
  have hoct := takeWhile_append_stop hd₂ z rest
  have hdec := takeWhile_append_stop hd₃ z rest
  have hhex' := fun n => takeWhile_take_append_stop hd n z rest
  have hoct' := fun n => takeWhile_take_append_stop hd₂ n z rest
  have hblank : e = chNewline → (z ++ d :: rest).takeWhile isBlank = z.takeWhile isBlank := by
    rintro rfl
    rw [openSequence, beq_self_eq_true, Bool.and_true, Bool.and_eq_false_iff] at hopen
    rcases hopen with hstop | hall
    · exact takeWhile_append_stop hstop z rest
    · rw [takeWhile_append, if_neg]
      intro hlen
      have hwhole := ( takeWhile_prefix isBlank).eq_of_length hlen
      rw [all_eq_false] at hall
      obtain ⟨x, hx, hno⟩ := hall
      exact hno (takeWhile_eq_self_iff.mp hwhole x hx)
  by_cases he : e = chNewline
  · have hrun := hblank he
    unfold isBlank at hrun
    simp only [eagleParseBackslash, eagleParseBin, eagleParseOct, eagleParseDec,
      eagleParseHex, octalSequence, hhex, hbin, hoct, hdec, hrun, hhex', hoct']
  · simp only [eagleParseBackslash, eagleParseBin, eagleParseOct, eagleParseDec,
      eagleParseHex, octalSequence, hhex, hbin, hoct, hdec, he, if_false, hhex', hoct']

/-- A sequence read from `n` characters takes at least one of them. -/
def ReadsWithin (n : ℕ) (r : ℕ × Bytes) : Prop := 0 < r.1 ∧ r.1 ≤ n

theorem ReadsWithin.ite {p : Prop} [Decidable p] {n : ℕ} {a b : ℕ × Bytes}
    (ha : ReadsWithin n a) (hb : ReadsWithin n b) : ReadsWithin n (if p then a else b) := by
  by_cases hp : p
  · rwa [if_pos hp]
  · rwa [if_neg hp]

theorem readsWithin_digitsOr {letter : Byte} {parsed : ℕ × UInt64}
    {keep : UInt64 → UInt64} {n : ℕ} (h : parsed.1 ≤ n) :
    ReadsWithin (2 + n) (digitsOr letter parsed keep) :=
  .ite ⟨Nat.two_pos, Nat.le_add_right 2 n⟩ ⟨Nat.add_pos_left Nat.two_pos _, Nat.add_le_add_left h 2⟩

theorem eagleParseBackslash_readsWithin (c : Byte) (z : Bytes) :
    ReadsWithin (c :: z).length (eagleParseBackslash (c :: z)) := by
  rcases z with _ | ⟨d, z⟩
  · exact ⟨Nat.one_pos, Nat.le_refl 1⟩
  · have hrun : ∀ p : Byte → Bool, (z.takeWhile p).length ≤ z.length :=
      fun p => ( takeWhile_prefix p).length_le
    have hrun' : ∀ (p : Byte → Bool) (n : ℕ), ((z.take n).takeWhile p).length ≤ z.length :=
      fun p n => ( takeWhile_prefix p).length_le.trans (length_take_le' _ _)
    have hlen : (c :: d :: z).length = 2 + z.length := by
      simp only [length_cons]
      omega
    have htwo : ∀ w, ReadsWithin (2 + z.length) (2, w) :=
      fun w => ⟨Nat.two_pos, Nat.le_add_right 2 _⟩
    rw [hlen]
    refine .ite ⟨Nat.one_pos, by omega⟩ ?_
    iterate 8 refine .ite (htwo _) ?_
    iterate 5 refine .ite (readsWithin_digitsOr (hrun _)) ?_
    iterate 2 refine .ite (readsWithin_digitsOr (hrun' _ _)) ?_
    refine .ite ⟨Nat.add_pos_left Nat.two_pos _, Nat.add_le_add_left (hrun _) 2⟩ ?_
    exact .ite ⟨Nat.add_pos_left Nat.two_pos _, Nat.add_le_add_left (hrun' _ _) 2⟩ (htwo _)

end Backslash

theorem scanElementFrom_flags {P : ElementFlags → Prop} {skip : ℕ} {flags : ElementFlags}
    {n : ℤ} {z : Bytes} (huse : ∀ f, P f → P f.orUseBraces) (hor : ∀ f, P f → P f.orRefusal)
    (hrefusal : P .refusal) (h : P flags) : P (scanElementFrom skip flags n z).1 := by
  fun_induction scanElementFrom skip flags n z with
  | case1 => exact h
  | case2 skip flags n c rest ih => exact ih h
  | case3 flags n rest ih => exact ih h
  | case4 flags n rest _ ih =>
    apply ih
    split_ifs
    · exact hor flags h
    · exact h
  | case5 flags n c rest hopen hclose hwant ih => exact ih (huse flags h)
  | case6 flags n rest _ _ _ hend ih => exact ih hrefusal
  | case7 flags n rest _ _ _ hend ih => exact ih (huse flags h)
  | case8 flags n c rest hopen hclose hwant hback ih => exact ih h

theorem scanElementFrom_dontUseBraces {skip : ℕ} {flags : ElementFlags} {n : ℤ}
    {z : Bytes} (h : flags.dontUseBraces = true) :
    (scanElementFrom skip flags n z).1.dontUseBraces = true :=
  scanElementFrom_flags (P := fun f => f.dontUseBraces = true) (fun _ h => h) (fun _ _ => rfl) rfl h

/-- An element that the scan leaves balanced is read up to the closing brace behind
it. -/
theorem findElementFrom_braced {skip : ℕ} {flags : ElementFlags} {m : ℕ} {z : Bytes}
    (rest : Bytes) (hskip : skip ≤ z.length)
    (hflags : (scanElementFrom skip flags m z).1.dontUseBraces = false)
    (hlevel : (scanElementFrom skip flags m z).2 = 0) (hend : atElementEnd rest = true) :
    findElementFrom skip (m + 1) false (z ++ chCloseBrace :: rest) = .ok ⟨z, rest, true⟩ := by
  induction z generalizing skip flags m with
  | nil =>
    obtain rfl : skip = 0 := le_zero.mp hskip
    obtain rfl : m = 0 := by simpa [scanElementFrom] using hlevel
    rw [nil_append, findElementFrom, if_neg (by decide), if_pos rfl,
      if_neg (lt_irrefl 1), if_pos rfl, if_pos hend]
  | cons c z ih =>
    have hread : ∀ (skip' m' : ℕ) (flags' : ElementFlags), skip' ≤ z.length →
        scanElementFrom skip flags m (c :: z) = scanElementFrom skip' flags' m' z →
          (findElementFrom skip' (m' + 1) false (z ++ chCloseBrace :: rest)).map (·.cons c) =
            .ok ⟨c :: z, rest, true⟩ := by
      intro skip' m' flags' hskip' hscan
      rw [hscan] at hflags hlevel
      rw [ih hskip' hflags hlevel]
      rfl
    rcases skip with _ | skip
    · rw [cons_append, findElementFrom]
      by_cases hopen : c = chOpenBrace
      · rw [if_pos hopen, if_pos (succ_ne_zero m)]
        refine hread 0 (m + 1) flags (zero_le _) ?_
        rw [scanElementFrom, if_pos hopen, cast_succ]
      · rw [if_neg hopen]
        by_cases hclose : c = chCloseBrace
        · rw [if_pos hclose]
          rcases m with _ | m
          · -- Below level zero the scan refuses braces.
            have hno : (scanElementFrom 0 flags.orRefusal (0 - 1) z).1.dontUseBraces = true :=
              scanElementFrom_dontUseBraces rfl
            rw [scanElementFrom, if_neg hopen, if_pos hclose, cast_zero,
              if_pos (by decide), hno] at hflags
            cases hflags
          · rw [if_pos (succ_lt_succ (succ_pos m))]
            refine hread 0 m flags (zero_le _) ?_
            rw [scanElementFrom, if_neg hopen, if_pos hclose, cast_succ,
              add_sub_cancel_right, if_neg (by omega)]
        · rw [if_neg hclose]
          by_cases hback : c = chBackslash
          · rw [if_pos hback]
            have hwant : wantsBraces c = false := by rw [hback]; rfl
            have hscan : scanElementFrom 0 flags m (c :: z) =
                if z = [] ∨ z.head? = some chNewline then
                  scanElementFrom 0 .refusal m z
                else scanElementFrom ((eagleParseBackslash (c :: z)).1 - 1)
                  flags.orUseBraces m z := by
              rw [scanElementFrom, if_neg hopen, if_neg hclose, hwant,
                if_neg Bool.false_ne_true, if_pos hback]
            by_cases hlast : z = [] ∨ z.head? = some chNewline
            · rw [hscan, if_pos hlast, scanElementFrom_dontUseBraces rfl] at hflags
              cases hflags
            · rw [if_neg hlast] at hscan
              obtain ⟨d, z, rfl⟩ := exists_cons_of_ne_nil (not_or.mp hlast).1
              have hbounds := eagleParseBackslash_readsWithin c (d :: z)
              rw [cons_append, eagleParseBackslash_append rfl rfl]
              exact hread _ m _ (sub_le_of_le_add hbounds.2) hscan
          · have hscan : ∃ flags', scanElementFrom 0 flags m (c :: z) =
                scanElementFrom 0 flags' m z := by
              rw [scanElementFrom, if_neg hopen, if_neg hclose, if_neg hback]
              by_cases hwant : wantsBraces c = true
              · exact ⟨_, if_pos hwant⟩
              · exact ⟨_, if_neg hwant⟩
            obtain ⟨flags', hscan⟩ := hscan
            have hnext := hread 0 m flags' (zero_le _) hscan
            rw [if_neg hback]
            simp only [hnext, succ_ne_zero, false_and, if_false, ite_self, Bool.false_eq_true]
    · rw [cons_append, findElementFrom]
      exact hread skip m flags (le_of_succ_le_succ hskip) rfl

/-- The byte `x` behind a backslash stands for `c`. -/
def Escapes (x c : Byte) : Prop :=
  ∀ z, eagleParseBackslash (chBackslash :: x :: z) = (2, [c])

theorem convertChar_cases (flags : ElementFlags) (c : Byte) :
    (convertChar flags c = [c] ∧ c ≠ chBackslash ∧ isSpace c = false ∧ c ≠ chQuote) ∨
      ∃ x, convertChar flags c = [chBackslash, x] ∧ Escapes x c := by
  unfold convertChar
  split_ifs with hspecial hbrace hunmatched hff hnl hcr htab hvt
  · right
    refine ⟨c, rfl, ?_⟩
    rcases hspecial with rfl | rfl | rfl | rfl | rfl | rfl | rfl <;> exact fun z => rfl
  · right
    refine ⟨c, rfl, ?_⟩
    rcases hbrace with rfl | rfl <;> exact fun z => rfl
  · left
    rcases hbrace with rfl | rfl <;> decide
  · exact .inr ⟨0x66, rfl, fun z => by rw [hff]; rfl⟩
  · exact .inr ⟨0x6e, rfl, fun z => by rw [hnl]; rfl⟩
  · exact .inr ⟨0x72, rfl, fun z => by rw [hcr]; rfl⟩
  · exact .inr ⟨0x74, rfl, fun z => by rw [htab]; rfl⟩
  · exact .inr ⟨0x76, rfl, fun z => by rw [hvt]; rfl⟩
  · left
    simp only [not_or] at hspecial
    refine ⟨rfl, hspecial.2.2.2.2.2.1, ?_, hspecial.2.2.2.2.2.2⟩
    unfold isSpace
    grind

theorem findElementFrom_escape {x c : Byte} (hescape : Escapes x c) (p : Bytes) :
    findElementFrom 0 0 false (chBackslash :: x :: p) =
      ((findElementFrom 0 0 false p).map (·.cons x)).map (·.cons chBackslash) := by
  have hskip : (eagleParseBackslash (chBackslash :: x :: p)).1 - 1 = 0 + 1 := by
    rw [hescape]
    rfl
  rw [findElementFrom, if_neg (by decide), if_neg (by decide), if_pos rfl, hskip, findElementFrom]

theorem copyAndCollapseFrom_escape {x c : Byte} (hescape : Escapes x c) (p : Bytes) :
    copyAndCollapseFrom 0 (chBackslash :: x :: p) = c :: copyAndCollapseFrom 0 p := by
  have hskip : (eagleParseBackslash (chBackslash :: x :: p)).1 - 1 = 0 + 1 := by
    rw [hescape]
    rfl
  rw [copyAndCollapseFrom, if_pos rfl, hskip, copyAndCollapseFrom, hescape, singleton_append]

theorem findElementFrom_escaped (flags : ElementFlags) (z rest : Bytes)
    (hend : atElementEnd rest = true) :
    findElementFrom 0 0 false (z.flatMap (convertChar flags) ++ rest) =
      .ok ⟨z.flatMap (convertChar flags), rest, false⟩ := by
  induction z with
  | nil =>
    rcases rest with _ | ⟨c, p⟩
    · rfl
    · have hspace : isSpace c = true := hend
      have hne : ∀ d, isSpace d = false → c ≠ d := by
        rintro d hd rfl
        rw [hspace] at hd
        cases hd
      rw [flatMap_nil, nil_append, findElementFrom, if_neg (hne _ rfl),
        if_neg (hne _ rfl), if_neg (hne _ rfl), if_pos hspace, if_pos ⟨rfl, rfl⟩]
  | cons c z ih =>
    rw [flatMap_cons, append_assoc]
    obtain ⟨hchar, hback, hspace, hquote⟩ | ⟨x, hchar, hescape⟩ := convertChar_cases flags c
    · rw [hchar, singleton_append, findElementFrom]
      simp only [hback, hspace, hquote, ih, ne_eq, not_true_eq_false, if_false,
        Nat.not_lt_zero, Nat.zero_ne_one, ite_self, Bool.false_eq_true]
      rfl
    · rw [hchar, cons_append, singleton_append, findElementFrom_escape hescape, ih]
      rfl

theorem copyAndCollapseFrom_escaped (flags : ElementFlags) (z : Bytes) :
    copyAndCollapseFrom 0 (z.flatMap (convertChar flags)) = z := by
  induction z with
  | nil => rfl
  | cons c z ih =>
    rw [flatMap_cons]
    obtain ⟨hchar, hback, -, -⟩ | ⟨x, hchar, hescape⟩ := convertChar_cases flags c
    · rw [hchar, singleton_append, copyAndCollapseFrom, if_neg hback, ih]
    · rw [hchar, cons_append, singleton_append, copyAndCollapseFrom_escape hescape, ih]

/-! ## A quoted element -/

/-- An element is quoted with braces, which its own braces respect, or without; then a
character that would open braces or quotes is escaped. -/
inductive Quoted : Bytes → Bytes → Prop
  | braced {e : Bytes} (flags : ElementFlags)
      (hflags : (scanElementFrom 0 flags 0 e).1.dontUseBraces = false)
      (hlevel : (scanElementFrom 0 flags 0 e).2 = 0) : Quoted e (chOpenBrace :: e ++ [chCloseBrace])
  | escapedHead {c : Byte} (rest : Bytes) (flags : ElementFlags) (hescape : Escapes c c) :
      Quoted (c :: rest) ([chBackslash, c] ++ rest.flatMap (convertChar flags))
  | escaped {c : Byte} (rest : Bytes) (flags : ElementFlags) (hopen : c ≠ chOpenBrace)
      (hhash : c ≠ chHash) : Quoted (c :: rest) ((c :: rest).flatMap (convertChar flags))

theorem balanced_of_eagleScanCountedElement {e : Bytes}
    (h : (eagleScanCountedElement e).dontUseBraces = false) :
    (scanElementFrom 0 (openingFlags e) 0 e).1.dontUseBraces = false ∧
      (scanElementFrom 0 (openingFlags e) 0 e).2 = 0 := by
  by_cases hlevel : (scanElementFrom 0 (openingFlags e) 0 e).2 = 0
  · refine ⟨?_, hlevel⟩
    simpa [eagleScanCountedElement, hlevel] using h
  · simp [eagleScanCountedElement, hlevel, ElementFlags.refusal] at h

theorem balanced_of_braces {c : Byte} {rest : Bytes}
    (h : (if c = chHash then (eagleScanCountedElement (c :: rest)).orUseBraces
      else eagleScanCountedElement (c :: rest)).braces = true) :
    (scanElementFrom 0 (openingFlags (c :: rest)) 0 (c :: rest)).1.dontUseBraces = false ∧
      (scanElementFrom 0 (openingFlags (c :: rest)) 0 (c :: rest)).2 = 0 := by
  have hdont : (eagleScanCountedElement (c :: rest)).dontUseBraces = false := by
    revert h
    split_ifs <;> simp [ElementFlags.braces, ElementFlags.orUseBraces]
  exact balanced_of_eagleScanCountedElement hdont

theorem quoted_quoteElement (e : Bytes) : Quoted e (quoteElement e) := by
  rcases e with _ | ⟨c, rest⟩
  · exact .braced .zero rfl rfl
  · unfold quoteElement eagleConvertCountedElement
    simp only
    by_cases hbraces : (if c = chHash then (eagleScanCountedElement (c :: rest)).orUseBraces
        else eagleScanCountedElement (c :: rest)).braces = true
    · rw [if_pos hbraces]
      obtain ⟨hflags, hlevel⟩ := balanced_of_braces hbraces
      exact .braced _ hflags hlevel
    · rw [if_neg hbraces]
      by_cases hopen : c = chOpenBrace
      · rw [if_pos hopen]
        exact .escapedHead rest _ (by rw [hopen]; exact fun z => rfl)
      · rw [if_neg hopen]
        by_cases hhash : c = chHash
        · rw [if_pos hhash]
          exact .escapedHead rest _ (by rw [hhash]; exact fun z => rfl)
        · rw [if_neg hhash]
          exact .escaped rest _ hopen hhash

theorem Quoted.head {e q : Bytes} (h : Quoted e q) : ∃ c p, q = c :: p ∧ isSpace c = false := by
  rcases h with ⟨flags, hflags, hlevel⟩ | ⟨rest, flags, hescape⟩ | ⟨rest, flags, hopen, hhash⟩
  · exact ⟨_, _, rfl, rfl⟩
  · exact ⟨_, _, rfl, rfl⟩
  · rename_i c
    obtain ⟨hchar, -, hspace, -⟩ | ⟨x, hchar, -⟩ := convertChar_cases flags c
    · exact ⟨c, rest.flatMap (convertChar flags), by rw [flatMap_cons, hchar]; rfl, hspace⟩
    · exact ⟨chBackslash, x :: rest.flatMap (convertChar flags),
        by rw [flatMap_cons, hchar]; rfl, rfl⟩

theorem Quoted.find {e q : Bytes} (h : Quoted e q) (rest : Bytes)
    (hend : atElementEnd rest = true) :
    ∃ f, eagleFindElement (q ++ rest) = .ok (some f) ∧ f.value = e ∧
      f.after = rest.dropWhile isSpace := by
  obtain ⟨c, p, rfl, hspace⟩ := h.head
  suffices hfound : ∃ f,
      (if c = chOpenBrace then findElementFrom 0 1 false (p ++ rest)
        else if c = chQuote then findElementFrom 0 0 true (p ++ rest)
        else findElementFrom 0 0 false (c :: (p ++ rest))) = .ok f ∧
      f.value = e ∧ f.after = rest by
    obtain ⟨f, hf, hvalue, hafter⟩ := hfound
    have hdrop : (c :: p ++ rest).dropWhile isSpace = c :: (p ++ rest) := by
      rw [cons_append, dropWhile_cons, hspace, if_neg Bool.false_ne_true]
    refine ⟨{ f with after := f.after.dropWhile isSpace }, ?_, hvalue, ?_⟩
    · rw [eagleFindElement, hdrop]
      simp only [hf]
      rfl
    · simp only [hafter]
  generalize hq : c :: p = q at h
  rcases h with ⟨flags, hflags, hlevel⟩ | @⟨d, z, flags, hescape⟩ | @⟨d, z, flags, hopen, hhash⟩
  · rw [cons_append, List.cons.injEq] at hq
    rw [if_pos hq.1, hq.2, append_assoc]
    exact ⟨_, findElementFrom_braced rest (zero_le _) hflags hlevel hend, rfl, rfl⟩
  · have hbare : findElementFrom 0 0 false (c :: (p ++ rest)) =
        .ok ⟨chBackslash :: d :: z.flatMap (convertChar flags), rest, false⟩ := by
      rw [← cons_append, hq, append_assoc, cons_append, cons_append,
        findElementFrom_escape hescape, nil_append, findElementFrom_escaped flags z rest hend]
      rfl
    have hhead : c = chBackslash := by simpa using (List.cons.inj hq).1
    rw [hhead] at hbare ⊢
    rw [if_neg (by decide), if_neg (by decide)]
    refine ⟨_, hbare, ?_, rfl⟩
    change copyAndCollapseFrom 0 (chBackslash :: d :: z.flatMap (convertChar flags)) = d :: z
    rw [copyAndCollapseFrom_escape hescape, copyAndCollapseFrom_escaped]
  · have hbare : findElementFrom 0 0 false (c :: (p ++ rest)) =
        .ok ⟨(d :: z).flatMap (convertChar flags), rest, false⟩ := by
      rw [← cons_append, hq, findElementFrom_escaped flags (d :: z) rest hend]
    -- The first byte is that of an escape, or it is no opening brace or quote.
    have hhead : c ≠ chOpenBrace ∧ c ≠ chQuote := by
      rw [flatMap_cons] at hq
      obtain ⟨hchar, -, -, hquote⟩ | ⟨x, hchar, -⟩ := convertChar_cases flags d
      · rw [hchar] at hq
        rw [(List.cons.inj hq).1]
        exact ⟨hopen, hquote⟩
      · rw [hchar] at hq
        rw [(List.cons.inj hq).1]
        decide
    rw [if_neg hhead.1, if_neg hhead.2]
    exact ⟨_, hbare, copyAndCollapseFrom_escaped flags (d :: z), rfl⟩

theorem joinElements_cons (e : Bytes) (rest : List Bytes) :
    joinElements (e :: rest) =
      quoteElement e ++ if rest = [] then [] else chSpace :: joinElements rest := by
  rcases rest with _ | ⟨e', rest⟩
  · simp [joinElements]
  · simp [joinElements]

theorem joinElements_head (e : Bytes) (rest : List Bytes) :
    ∃ c p, joinElements (e :: rest) = c :: p ∧ isSpace c = false := by
  obtain ⟨c, p, hq, hspace⟩ := (quoted_quoteElement e).head
  rw [joinElements_cons, hq]
  exact ⟨c, _, rfl, hspace⟩

theorem dropWhile_joinElements (elems : List Bytes) :
    (joinElements elems).dropWhile isSpace = joinElements elems := by
  rcases elems with _ | ⟨e, rest⟩
  · rfl
  · obtain ⟨c, p, hjoin, hspace⟩ := joinElements_head e rest
    rw [hjoin, dropWhile_cons, hspace, if_neg Bool.false_ne_true]

theorem splits_joinElements (elems : List Bytes) : Splits (joinElements elems) elems := by
  induction elems with
  | nil => rfl
  | cons e rest ih =>
    have hend : atElementEnd (if rest = [] then [] else chSpace :: joinElements rest) = true := by
      split_ifs <;> rfl
    obtain ⟨f, hfind, hvalue, hafter⟩ := (quoted_quoteElement e).find _ hend
    refine ⟨f, by rw [joinElements_cons, hfind], hvalue, ?_⟩
    rw [hafter, splits_dropWhile]
    split_ifs with hnil
    · rw [hnil]
      rfl
    · exact (splits_spaces_append (u := [chSpace]) rfl).mpr ih

theorem eagleSplitList_joinElements {elems : List Bytes}
    (hgranted : SplitGranted (joinElements elems)) :
    eagleSplitList (joinElements elems) = .ok elems :=
  eagleSplitList_eq_ok.mpr ⟨hgranted, splits_joinElements elems⟩

theorem eq_of_eagleSplitList_joinElements {elems es : List Bytes}
    (h : eagleSplitList (joinElements elems) = .ok es) : es = elems :=
  (eagleSplitList_eq_ok.mp h).2.unique (splits_joinElements elems)

def isPlain (c : Byte) : Bool :=
  !isSpace c && !([chOpenBrace, chCloseBrace, chOpenBracket, chCloseBracket, chDollar,
    chSemicolon, chBackslash, chQuote, chHash].contains c)

theorem isPlain_iff {c : Byte} :
    isPlain c = true ↔ isSpace c = false ∧ c ≠ chOpenBrace ∧ c ≠ chCloseBrace ∧
      c ≠ chOpenBracket ∧ c ≠ chCloseBracket ∧ c ≠ chDollar ∧ c ≠ chSemicolon ∧
      c ≠ chBackslash ∧ c ≠ chQuote ∧ c ≠ chHash := by
  simp [isPlain]

theorem scanElementFrom_plain_word {flags : ElementFlags} {n : ℤ} {z : Bytes}
    (h : ∀ c ∈ z, isPlain c = true) : scanElementFrom 0 flags n z = (flags, n) := by
  induction z with
  | nil => rfl
  | cons c z ih =>
    obtain ⟨hspace, hopen, hclose, hbracket, -, hdollar, hsemi, hback, -, -⟩ :=
      isPlain_iff.mp (h c mem_cons_self)
    have hwants : ¬wantsBraces c = true := by
      simp [wantsBraces, hbracket, hdollar, hsemi, hspace]
    rw [scanElementFrom, if_neg hopen, if_neg hclose, if_neg hwants, if_neg hback]
    exact ih fun d hd => h d (mem_cons_of_mem _ hd)

theorem convertChar_plain (flags : ElementFlags) {c : Byte} (h : isPlain c = true) :
    convertChar flags c = [c] := by
  obtain ⟨hspace, hopen, hclose, hbracket, hclose', hdollar, hsemi, hback, hquote, -⟩ :=
    isPlain_iff.mp h
  have hblank : ∀ d : Byte, isSpace d = true → c ≠ d := by
    rintro d hd rfl
    exact absurd hd (by simp [hspace])
  unfold convertChar
  rw [if_neg (by simp [hclose', hbracket, hdollar, hsemi, hback, hquote, hblank chSpace rfl]),
    if_neg (by simp [hopen, hclose]), if_neg (hblank _ rfl), if_neg (hblank _ rfl),
    if_neg (hblank _ rfl), if_neg (hblank _ rfl), if_neg (hblank _ rfl)]

theorem quoteElement_plain {z : Bytes} (hne : z ≠ []) (h : ∀ c ∈ z, isPlain c = true) :
    quoteElement z = z := by
  obtain ⟨c, rest, rfl⟩ := exists_cons_of_ne_nil hne
  obtain ⟨-, hopen, -, -, -, -, -, -, hquote, hhash⟩ := isPlain_iff.mp (h c mem_cons_self)
  have hflags : eagleScanCountedElement (c :: rest) = .zero := by
    have hopening : openingFlags (c :: rest) = .zero := by simp [openingFlags, hopen, hquote]
    simp [eagleScanCountedElement, hopening, scanElementFrom_plain_word h]
  have hchars : (c :: rest).flatMap (convertChar .zero) = c :: rest := by
    conv_rhs => rw [← flatMap_singleton' (c :: rest)]
    exact flatMap_congr fun d hd => convertChar_plain .zero (h d hd)
  rw [quoteElement, hflags, eagleConvertCountedElement]
  simp only [if_neg hhash, if_neg hopen]
  exact hchars

/-! ## The list through `Th8_SplitList` -/

/-- A call that asks for the elements of a text, their lengths and their number. -/
structure AsksElements (c : SplitCall) (zList : TString) : Prop where
  text : c.zList = zList.bytes
  tags : c.nListTag = zList.tags
  pazElem : c.pazElem = true
  panElem : c.panElem = true
  pnCount : c.pnCount = true

/-- The reply hands out these elements, whose length words carry the tags `t`.  There
is no array of no elements. -/
structure SplitReply.Returns (r : SplitReply) (elems : List Bytes) (t : Tags) : Prop where
  status : r.status = none
  pnCount : r.pnCount = some elems.length
  pazElem : r.pazElem = some (if elems = [] then none else some elems)
  panElem : r.panElem = some (if elems = [] then none else some (taggedLengths t elems))

/-- The blocks that quoting the elements, splitting their list and handing them out
ask for are granted. -/
structure BlocksGranted (elems : List Bytes) : Prop where
  quoting : ∀ e ∈ elems, QuotingGranted e
  splitting : SplitGranted (joinElements elems)
  handing : 16 * elems.length + stringSpace elems ≤ mxAlloc

theorem Quoted.length_le {e q : Bytes} (h : Quoted e q) : e.length ≤ q.length := by
  have hescaped : ∀ (flags : ElementFlags) (z : Bytes),
      z.length ≤ (z.flatMap (convertChar flags)).length := by
    intro flags z
    induction z with
    | nil => exact Nat.le_refl _
    | cons c z ih =>
      rw [flatMap_cons, length_append, length_cons]
      obtain ⟨hchar, -⟩ | ⟨x, hchar, -⟩ := convertChar_cases flags c
      · rw [hchar, length_singleton]
        omega
      · rw [hchar]
        simp only [length_cons, length_nil]
        omega
  rcases h with ⟨flags, hflags, hlevel⟩ | ⟨z, flags, hescape⟩ | ⟨z, flags, hopen, hhash⟩
  · simp only [cons_append, length_cons, length_append, length_nil]
    omega
  · have := hescaped flags z
    simp only [length_cons, length_append, length_nil]
    omega
  · exact hescaped flags _

theorem length_le_joinElements {e : Bytes} {elems : List Bytes} (h : e ∈ elems) :
    e.length ≤ (joinElements elems).length := by
  induction elems with
  | nil => cases h
  | cons e' rest ih =>
    rw [joinElements_cons, length_append]
    rcases mem_cons.mp h with rfl | hrest
    · exact (quoted_quoteElement e).length_le.trans (Nat.le_add_right _ _)
    · have hne : rest ≠ [] := ne_nil_of_mem hrest
      have hle := ih hrest
      rw [if_neg hne, length_cons]
      omega

theorem blockSize_of_le {nElem nStrTotal : ℕ} (hpos : 0 < nElem)
    (hle : 16 * nElem + nStrTotal ≤ mxAlloc) :
    blockSize nElem (nStrTotal % 2 ^ 64) = some (16 * nElem + nStrTotal) := by
  have hmax : mxAlloc = 268435456 := rfl
  have hsize : sizeMax = 18446744073709551615 := rfl
  have hmul : safeMulSize 8 nElem = some (8 * nElem) :=
    (safeMulSize_eq_some hpos).mpr ⟨by rw [le_div_iff_mul_le hpos]; omega, rfl⟩
  have hadd : safeAddSize (8 * nElem) (8 * nElem) = some (16 * nElem) :=
    safeAddSize_eq_some.mpr ⟨by omega, by omega⟩
  have hsum : safeAddSize (16 * nElem) nStrTotal = some (16 * nElem + nStrTotal) :=
    safeAddSize_eq_some.mpr ⟨by omega, rfl⟩
  rw [mod_eq_of_lt (by omega), blockSize, hmul, Option.bind_some, Option.bind_some,
    hadd, Option.bind_some, hsum]

theorem parseElements_joinElements {c : SplitCall} {elems : List Bytes} {zList : TString}
    (hc : AsksElements c zList) (htext : zList.bytes = joinElements elems)
    (hne : elems ≠ []) (hgranted : BlocksGranted elems) :
    parseElements eagleSplitList c =
      if maxListElements < elems.length then
        .fail (.static "list too many elements") (some elems.length)
      else c.handOut elems := by
  have hparse : eagleSplitList c.zList = .ok elems := by
    rw [hc.text, htext]
    exact eagleSplitList_joinElements hgranted.splitting
  have hcut : elems.map (·.take c.zList.length) = elems := by
    conv_rhs => rw [← map_id elems]
    apply map_congr_left
    intro e he
    apply take_of_length_le
    rw [hc.text, htext]
    exact length_le_joinElements he
  have hpos : 0 < elems.length := length_pos_of_ne_nil hne
  have hblock := blockSize_of_le hpos hgranted.handing
  have hsafe : safeAlloc true (16 * elems.length + stringSpace elems) = true := by
    have hno : ¬(16 * elems.length + stringSpace elems = 0 ∨
        mxAlloc < 16 * elems.length + stringSpace elems) := by
      have := hgranted.handing
      omega
    rw [safeAlloc, if_neg hno]
  rw [parseElements]
  simp only [hparse, hcut, hc.pazElem, hc.pnCount, writeOut, if_true, hne, ne_eq,
    not_false_eq_true, and_self, hblock, hsafe]

theorem returns_countOnly {c : SplitCall} {zList : TString} (hc : AsksElements c zList) :
    (c.countOnly 0).Returns [] zList.tags := by
  constructor <;> simp [SplitCall.countOnly, writeOut, hc.pazElem, hc.panElem, hc.pnCount]

theorem returns_handOut {c : SplitCall} {zList : TString} (hc : AsksElements c zList)
    {elems : List Bytes} (hne : elems ≠ []) :
    (c.handOut elems).Returns elems zList.tags := by
  constructor <;>
    simp [SplitCall.handOut, writeOut, hc.pazElem, hc.panElem, hc.pnCount, hc.tags, hne]

/-- A list that has been built carries the tags of all its elements, and after any
history of splits that keep the cache it splits into its elements, as long as there
are no more of them than a list may have. -/
theorem listText_roundTrip {nResultLimit : ℕ} {elems : List TString} {zList : TString}
    (hbuilt : listText nResultLimit elems = .ok zList)
    (hgranted : BlocksGranted (elems.map TString.bytes)) {cache : ListCache}
    (hcache : ReachableBy (splitStep eagleSplitList) (KeepsCache eagleSplitList) .empty cache)
    (mem : CallMemory) {c : SplitCall} (hc : AsksElements c zList) :
    zList.tags = unionTags elems ∧
      (elems.length ≤ maxListElements →
        (splitList eagleSplitList mem cache c).2.Returns (elems.map TString.bytes) zList.tags) ∧
      (maxListElements < elems.length →
        (splitList eagleSplitList mem cache c).2 =
          .fail (.static "list too many elements") (some elems.length)) := by
  rw [splitList_eq_uncachedSplit hcache, uncachedSplit_eq, hc.text]
  rcases elems with _ | ⟨x, rest⟩
  · obtain rfl : TString.plain [] = zList := Except.ok.inj hbuilt
    refine ⟨rfl, fun _ => ?_, fun h => absurd h (Nat.not_lt_zero _)⟩
    exact returns_countOnly hc
  · have hquote : ∀ y ∈ x :: rest, QuotingGranted y.bytes := fun y hy =>
      hgranted.quoting _ (mem_map_of_mem hy)
    obtain ⟨-, rfl⟩ := (listText_eq_ok (cons_ne_nil _ _) hquote).mp hbuilt
    have hne : (x :: rest).map TString.bytes ≠ [] := cons_ne_nil _ _
    have htext : (joinedText (x :: rest)).bytes ≠ [] := by
      simp [joinedText, joinElements_eq_nil]
    have hparse := parseElements_joinElements hc rfl hne hgranted
    rw [if_neg htext, hparse, length_map]
    refine ⟨rfl, fun hcount => ?_, fun hcount => if_pos hcount⟩
    rw [if_neg (not_lt.mpr hcount)]
    exact returns_handOut hc hne

def callForElements (zList : TString) (h : zList.bytes.length ≤ lenMask) : SplitCall where
  zList := zList.bytes
  nListTag := zList.tags
  pazElem := true
  panElem := true
  pnCount := true
  noCache := false
  nList_le := h

/-- Elements of each kind: a tainted one with a space, a hash sign, an open brace, an
empty one and a trailing backslash. -/
def mixedElements : List TString :=
  [⟨ascii "a b", ⟨true, false⟩⟩, .plain (ascii "#x"), .plain [chOpenBrace], .plain [],
    .plain (ascii "c\\")]

theorem listText_roundTrip_mixed :
    (joinedText mixedElements).tags = ⟨true, false⟩ ∧
      (splitList eagleSplitList ⟨.granted, .granted, true⟩ .empty
        (callForElements (joinedText mixedElements) (by decide))).2.Returns
          (mixedElements.map TString.bytes) ⟨true, false⟩ := by
  have hbuilt : listText 0 mixedElements = .ok (joinedText mixedElements) := by
    decide
  have hgranted : BlocksGranted (mixedElements.map TString.bytes) :=
    ⟨by decide, ⟨by decide, by decide⟩, by decide⟩
  have h := listText_roundTrip hbuilt hgranted .init ⟨.granted, .granted, true⟩
    (c := callForElements (joinedText mixedElements) (by decide)) ⟨rfl, rfl, rfl, rfl, rfl⟩
  exact ⟨h.1, h.2.1 (by decide)⟩

/-- A list of `n` elements of one letter. -/
def letterElements (n : ℕ) : List TString := List.replicate n (.plain (ascii "a"))

theorem joinElements_letters_length (n : ℕ) :
    (joinElements ((letterElements n).map TString.bytes)).length ≤ 2 * n := by
  induction n with
  | zero => exact Nat.le_refl _
  | succ n ih =>
    have hone : (quoteElement (ascii "a")).length = 1 := by decide
    rw [letterElements, replicate_succ, map_cons, joinElements_cons, length_append]
    change (quoteElement (ascii "a")).length + _ ≤ _
    rw [hone]
    split_ifs
    · simp only [length_nil]
      omega
    · rw [length_cons]
      change 1 + ((joinElements ((letterElements n).map TString.bytes)).length + 1) ≤ _
      omega

theorem spaceRuns_le_length (inRun : Bool) (z : Bytes) : spaceRuns inRun z ≤ z.length := by
  fun_induction spaceRuns inRun z with
  | case1 => exact Nat.le_refl _
  | case2 c l hc ih => exact succ_le_succ ih
  | case3 c l hc ih => exact le_succ_of_le ih
  | case4 c l ih => exact le_succ_of_le ih

theorem stringSpace_letters (n : ℕ) :
    stringSpace ((letterElements n).map TString.bytes) = 2 * n := by
  induction n with
  | zero => rfl
  | succ n ih =>
    rw [letterElements, replicate_succ, map_cons, stringSpace_cons]
    change 1 + 1 + stringSpace ((letterElements n).map TString.bytes) = _
    rw [ih]
    omega

/-- A list of one element more than a list may have is built and does not split. -/
theorem listText_not_roundTrip_million :
    ¬∀ (nResultLimit : ℕ) (elems : List TString) (zList : TString),
      listText nResultLimit elems = .ok zList → BlocksGranted (elems.map TString.bytes) →
      ∀ c, AsksElements c zList → zList.tags = unionTags elems ∧
        (splitList eagleSplitList ⟨.granted, .granted, true⟩ .empty c).2.Returns
          (elems.map TString.bytes) zList.tags := by
  intro hall
  obtain ⟨elems, hcount, hlen, hspace, hquoting⟩ : ∃ elems : List TString,
      elems.length = 1000001 ∧ (joinElements (elems.map TString.bytes)).length ≤ 2000002 ∧
      stringSpace (elems.map TString.bytes) = 2000002 ∧ ∀ x ∈ elems, QuotingGranted x.bytes := by
    refine ⟨letterElements 1000001, length_replicate,
      joinElements_letters_length _, stringSpace_letters _, fun x hx => ?_⟩
    rw [eq_of_mem_replicate hx]
    decide
  have hruns := spaceRuns_le_length false (joinElements (elems.map TString.bytes))
  have hmax : mxAlloc = 268435456 := rfl
  have hgranted : BlocksGranted (elems.map TString.bytes) := by
    refine ⟨?_, ⟨?_, ?_⟩, ?_⟩
    · intro e he
      obtain ⟨x, hx, rfl⟩ := mem_map.mp he
      exact hquoting x hx
    · unfold listSize
      omega
    · unfold listSize
      omega
    · rw [length_map, hcount, hspace]
      omega
  have hne : elems ≠ [] := ne_nil_of_length_pos (by omega)
  have hfits : ResultFits 0 (joinedText elems).bytes.length := by
    refine ⟨?_, ?_⟩
    · rw [if_pos rfl]
      exact hlen.trans (by decide)
    · exact lt_of_le_of_lt hlen (by decide)
  have hbuilt := (listText_eq_ok hne hquoting).mpr ⟨hfits, rfl⟩
  have hmask : (joinedText elems).bytes.length ≤ lenMask := hlen.trans (by decide)
  have hc : AsksElements (callForElements _ hmask) (joinedText elems) := ⟨rfl, rfl, rfl, rfl, rfl⟩
  have hreturns := (hall 0 _ _ hbuilt hgranted _ hc).2.status
  have htoo := parseElements_joinElements hc rfl (by simpa using hne) hgranted
  have htext : (joinedText elems).bytes ≠ [] := by
    simpa [joinedText, joinElements_eq_nil] using hne
  have hmany : maxListElements < (elems.map TString.bytes).length := by
    rw [length_map, hcount]
    decide
  rw [splitList_eq_uncachedSplit .init, uncachedSplit_eq, hc.text, if_neg htext, htoo,
    if_pos hmany] at hreturns
  cases hreturns

end Th8
