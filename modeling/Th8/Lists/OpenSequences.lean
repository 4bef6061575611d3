import Th8.Lists.RoundTrip

/-!
# What stands behind a list

The splitter reads a text in the same way whatever stands behind it, unless a backslash
sequence is still open at its end: a lone backslash takes the next byte, and a backslash and a
newline take the blanks behind them.  So a list with white space behind it goes on with the
elements of what follows, and behind an open sequence its last element goes on.
-/

namespace Th8

open Support List Nat

/-- The text ends inside a backslash sequence, if a blank follows or another byte that is not
a digit.  The second argument counts the characters left of a sequence. -/
def endsOpen (blank : Bool) : ℕ → Bytes → Bool
  | _, [] => false
  | skip + 1, _ :: u => endsOpen blank skip u
  | 0, c :: u =>
    if c = chBackslash then
      openSequence blank u || endsOpen blank ((eagleParseBackslash (c :: u)).1 - 1) u
    else endsOpen blank 0 u

def Follows (blank : Bool) (z : Bytes) : Prop :=
  ∀ d ∈ z.head?, isHexDig d = false ∧ (isBlank d = true → blank = true)

variable {blank inQuotes : Bool} {skip openBraces : ℕ} {c : Byte} {u z : Bytes}

theorem not_hexDig_of_isSpace {c : Byte} (h : isSpace c = true) : isHexDig c = false := by
  have hall : ∀ m < 256, isSpace (UInt8.ofNat m) = true → isHexDig (UInt8.ofNat m) = false := by
    decide +kernel
  simpa using hall c.toNat c.toNat_lt (by simpa using h)

theorem follows_of_atElementEnd (h : atElementEnd z = true) : Follows true z := by
  intro d hd
  rcases z with _ | ⟨c, z⟩
  · cases hd
  · cases hd
    exact ⟨not_hexDig_of_isSpace h, fun _ => rfl⟩

theorem follows_backslash (z : Bytes) : Follows false (chBackslash :: z) := by
  intro d hd
  cases hd
  exact ⟨rfl, nofun⟩

theorem openSequence_mono {blank' : Bool} (h : openSequence blank u = false)
    (hb : blank' = true → blank = true) : openSequence blank' u = false := by
  rcases u with _ | ⟨d, u⟩
  · cases h
  · cases blank'
    · rfl
    · rw [hb rfl] at h
      exact h

theorem eagleParseBackslash_follows (hopen : openSequence blank u = false)
    (hz : Follows blank z) (c : Byte) :
    eagleParseBackslash (c :: (u ++ z)) = eagleParseBackslash (c :: u) := by
  rcases u with _ | ⟨e, u⟩
  · cases hopen
  · rcases z with _ | ⟨d, z⟩
    · rw [append_nil]
    · obtain ⟨hd, hblank⟩ := hz d rfl
      exact eagleParseBackslash_append hd (openSequence_mono hopen hblank) c z

theorem endsOpen_backslash :
    endsOpen blank 0 (chBackslash :: u) = false ↔ openSequence blank u = false ∧
      endsOpen blank ((eagleParseBackslash (chBackslash :: u)).1 - 1) u = false := by
  rw [endsOpen, if_pos rfl, Bool.or_eq_false_iff]

theorem endsOpen_cons (h : c ≠ chBackslash) : endsOpen blank 0 (c :: u) = endsOpen blank 0 u := by
  rw [endsOpen, if_neg h]

theorem skip_le_length (c : Byte) (u : Bytes) : (eagleParseBackslash (c :: u)).1 - 1 ≤ u.length :=
  sub_le_of_le_add (eagleParseBackslash_readsWithin c u).2

theorem backslash_ne_of_isSpace (h : isSpace c = true) : c ≠ chBackslash := by
  rintro rfl
  cases h

theorem endsOpen_dropWhile (u : Bytes) :
    endsOpen blank 0 (u.dropWhile isSpace) = endsOpen blank 0 u := by
  induction u with
  | nil => rfl
  | cons c u ih =>
    by_cases hc : isSpace c = true
    · rw [dropWhile_cons_of_pos hc, ih, endsOpen_cons (backslash_ne_of_isSpace hc)]
    · rw [dropWhile_cons_of_neg hc]

/-! ## Reading an element -/

theorem toOption_map_cons (x : Except String FoundElement) (c : Byte) :
    (x.map (·.cons c)).toOption = x.toOption.map (·.cons c) := by
  cases x <;> rfl

/-- The loop of `EagleFindElement` ends an element inside the text, or it gets to what is
behind. -/
theorem findElementFrom_append (openBraces : ℕ) (inQuotes : Bool) (hskip : skip ≤ u.length)
    (hopen : endsOpen blank skip u = false) :
    (∃ e r b, endsOpen blank 0 r = false ∧ ∀ z, Follows blank z →
      (findElementFrom skip openBraces inQuotes (u ++ z)).toOption =
        if atElementEnd (r ++ z) then some ⟨e, r ++ z, b⟩ else none) ∨
    ∃ left, ∀ z, Follows blank z →
      (findElementFrom skip openBraces inQuotes (u ++ z)).toOption =
        (findElementFrom 0 left inQuotes z).toOption.map
          fun f => { f with element := u ++ f.element } := by
  induction u generalizing skip openBraces with
  | nil =>
    obtain rfl : skip = 0 := le_zero.mp hskip
    refine .inr ⟨openBraces, fun z _ => ?_⟩
    simp
  | cons c u ih =>
    have hread (skip' openBraces' : ℕ) (hskip' : skip' ≤ u.length)
        (hopen' : endsOpen blank skip' u = false)
        (hstep : ∀ z, Follows blank z →
          findElementFrom skip openBraces inQuotes (c :: (u ++ z)) =
            (findElementFrom skip' openBraces' inQuotes (u ++ z)).map (·.cons c)) :
        (∃ e r b, endsOpen blank 0 r = false ∧ ∀ z, Follows blank z →
          (findElementFrom skip openBraces inQuotes (c :: (u ++ z))).toOption =
            if atElementEnd (r ++ z) then some ⟨e, r ++ z, b⟩ else none) ∨
        ∃ left, ∀ z, Follows blank z →
          (findElementFrom skip openBraces inQuotes (c :: (u ++ z))).toOption =
            (findElementFrom 0 left inQuotes z).toOption.map
              fun f => { f with element := c :: u ++ f.element } := by
      rcases ih openBraces' hskip' hopen' with ⟨e, r, b, hr, h⟩ | ⟨left, h⟩
      · refine .inl ⟨c :: e, r, b, hr, fun z hz => ?_⟩
        rw [hstep z hz, toOption_map_cons, h z hz]
        split_ifs <;> rfl
      · refine .inr ⟨left, fun z hz => ?_⟩
        rw [hstep z hz, toOption_map_cons, h z hz, Option.map_map]
        rfl
    rcases skip with _ | skip
    · by_cases hback : c = chBackslash
      · subst hback
        obtain ⟨hseq, hrest⟩ := endsOpen_backslash.mp hopen
        refine hread _ openBraces (skip_le_length _ u) hrest fun z hz => ?_
        rw [findElementFrom, if_neg (by decide), if_neg (by decide), if_pos rfl,
          eagleParseBackslash_follows hseq hz]
      · rw [endsOpen_cons hback] at hopen
        have hnext (openBraces' : ℕ) := hread 0 openBraces' (zero_le _) hopen
        simp only [cons_append]
        by_cases hbrace : c = chOpenBrace
        · exact hnext (if openBraces ≠ 0 then openBraces + 1 else openBraces)
            fun z _ => by rw [findElementFrom, if_pos hbrace]
        by_cases hclose : c = chCloseBrace
        · have hstep (z : Bytes) : findElementFrom 0 openBraces inQuotes (c :: (u ++ z)) =
              if 1 < openBraces then
                (findElementFrom 0 (openBraces - 1) inQuotes (u ++ z)).map (·.cons c)
              else if openBraces = 1 then
                if atElementEnd (u ++ z) then .ok ⟨[], u ++ z, true⟩
                else .error (followedBy "list element in braces followed by " (u ++ z))
              else (findElementFrom 0 openBraces inQuotes (u ++ z)).map (·.cons c) := by
            rw [findElementFrom, if_neg hbrace, if_pos hclose]
          by_cases hone : openBraces = 1
          · refine .inl ⟨[], u, true, hopen, fun z _ => ?_⟩
            rw [hstep, hone, if_neg (lt_irrefl 1), if_pos rfl]
            cases atElementEnd (u ++ z) <;> rfl
          · refine hnext (if 1 < openBraces then openBraces - 1 else openBraces) fun z _ => ?_
            rw [hstep, if_neg hone]
            split_ifs <;> rfl
        by_cases hspace : isSpace c = true
        · by_cases hbare : openBraces = 0 ∧ inQuotes = false
          · refine .inl ⟨[], c :: u, false, (endsOpen_cons hback).trans hopen, fun z _ => ?_⟩
            have hend : atElementEnd (c :: u ++ z) = true := hspace
            rw [findElementFrom, if_neg hbrace, if_neg hclose, if_neg hback, if_pos hspace,
              if_pos hbare, if_pos hend]
            rfl
          · refine hnext openBraces fun z _ => ?_
            rw [findElementFrom, if_neg hbrace, if_neg hclose, if_neg hback, if_pos hspace,
              if_neg hbare]
        have hstep (z : Bytes) : findElementFrom 0 openBraces inQuotes (c :: (u ++ z)) =
            if c = chQuote then
              if inQuotes then
                if atElementEnd (u ++ z) then .ok ⟨[], u ++ z, openBraces ≠ 0⟩
                else .error (followedBy "list element in quotes followed by " (u ++ z))
              else (findElementFrom 0 openBraces inQuotes (u ++ z)).map (·.cons c)
            else (findElementFrom 0 openBraces inQuotes (u ++ z)).map (·.cons c) := by
          rw [findElementFrom, if_neg hbrace, if_neg hclose, if_neg hback, if_neg hspace]
        by_cases hquote : c = chQuote ∧ inQuotes = true
        · refine .inl ⟨[], u, openBraces ≠ 0, hopen, fun z _ => ?_⟩
          rw [hstep, if_pos hquote.1, if_pos hquote.2]
          cases atElementEnd (u ++ z) <;> rfl
        · refine hnext openBraces fun z _ => ?_
          by_cases hc : c = chQuote
          · rw [hstep, if_pos hc, if_neg fun hin => hquote ⟨hc, hin⟩]
          · rw [hstep, if_neg hc]
    · exact hread skip openBraces (le_of_succ_le_succ hskip) hopen fun z _ => rfl

/-- How the splits of `text z` begin for all `z` that may follow: the first element ends in
front of `r`, or it begins with `w` and takes something of `z`. -/
def FirstElement (blank : Bool) (text : Bytes → Bytes) : Prop :=
  (∃ e r, endsOpen blank 0 r = false ∧ ∀ z, Follows blank z → ∀ es, Splits (text z) es ↔
    atElementEnd (r ++ z) = true ∧ ∃ es', es = e :: es' ∧ Splits (r ++ z) es') ∨
  ∃ w left inQuotes, endsOpen blank 0 w = false ∧ ∀ z, Follows blank z → ∀ es,
    Splits (text z) es ↔ ∃ f, findElementFrom 0 left inQuotes z = .ok f ∧
      ∃ es', es = FoundElement.value { f with element := w ++ f.element } :: es' ∧
        Splits f.after es'

variable {w : Bytes}

theorem firstElement_of_find (openBraces : ℕ) (inQuotes : Bool) {text : Bytes → Bytes}
    (hopen : endsOpen blank 0 w = false) (hfind : ∀ z, eagleFindElement (text z) = (findElementFrom
      0 openBraces inQuotes (w ++ z)).map fun f => some { f with after := f.after.dropWhile isSpace
      }) :
    FirstElement blank text := by
  have hsplits (z : Bytes) (es : List Bytes) : Splits (text z) es ↔
      ∃ f, (findElementFrom 0 openBraces inQuotes (w ++ z)).toOption = some f ∧
        ∃ es', es = f.value :: es' ∧ Splits f.after es' := by
    rw [splits_iff_of_find (hfind z)]
    cases findElementFrom 0 openBraces inQuotes (w ++ z) <;> simp [Except.toOption]
  rcases findElementFrom_append openBraces inQuotes (zero_le _) hopen with
    ⟨e, r, b, hr, h⟩ | ⟨left, h⟩
  · refine .inl ⟨FoundElement.value ⟨e, r, b⟩, r, hr, fun z hz es => ?_⟩
    rw [hsplits, h z hz]
    by_cases hend : atElementEnd (r ++ z) = true
    · rw [if_pos hend]
      simp only [Option.some.injEq, exists_eq_left', hend, true_and]
      rfl
    · rw [if_neg hend]
      simp [hend]
  · refine .inr ⟨w, left, inQuotes, hopen, fun z hz es => ?_⟩
    rw [hsplits, h z hz]
    cases findElementFrom 0 left inQuotes z with
    | error e => simp [Except.toOption]
    | ok f => simp [Except.toOption]

theorem firstElement_append (hne : u.dropWhile isSpace ≠ [])
    (hopen : endsOpen blank 0 u = false) : FirstElement blank (u ++ ·) := by
  obtain ⟨c, p, hp⟩ := exists_cons_of_ne_nil hne
  have hdrop (z : Bytes) : (u ++ z).dropWhile isSpace = c :: (p ++ z) := by
    rw [dropWhile_append, hp]
    rfl
  rw [← endsOpen_dropWhile, hp] at hopen
  have hbehind (h : c ≠ chBackslash) : endsOpen blank 0 p = false :=
    (endsOpen_cons h).symm.trans hopen
  by_cases hbrace : c = chOpenBrace
  · refine firstElement_of_find 1 false (hbehind (hbrace ▸ by decide)) fun z => ?_
    simp only [eagleFindElement, hdrop, if_pos hbrace]
  · by_cases hquote : c = chQuote
    · refine firstElement_of_find 0 true (hbehind (hquote ▸ by decide)) fun z => ?_
      simp only [eagleFindElement, hdrop, if_neg hbrace, if_pos hquote]
    · refine firstElement_of_find 0 false hopen fun z => ?_
      simp only [eagleFindElement, hdrop, if_neg hbrace, if_neg hquote, cons_append]

theorem findElementFrom_of_atElementEnd (h : atElementEnd z = true) :
    findElementFrom 0 0 false z = .ok ⟨[], z, false⟩ := by
  rcases z with _ | ⟨c, z⟩
  · rfl
  · have hc : isSpace c = true := h
    have hne (d : Byte) (hd : isSpace d = false) : c ≠ d := by
      rintro rfl
      rw [hc] at hd
      cases hd
    rw [findElementFrom, if_neg (hne _ rfl), if_neg (hne _ rfl), if_neg (hne _ rfl), if_pos hc,
      if_pos ⟨rfl, rfl⟩]

variable {f : FoundElement}

theorem findElementFrom_unclosed (hbrace : chCloseBrace ∉ z) (hquote : chQuote ∉ z)
    (h : findElementFrom skip openBraces inQuotes z = .ok f) :
    openBraces = 0 ∧ inQuotes = false := by
  fun_induction findElementFrom skip openBraces inQuotes z generalizing f with
  | case1 | case2 | case8 | case14 => cases h
  | case3 _ _ _ hzero hno => exact ⟨not_not.mp hzero, by simpa using hno⟩
  | case6 | case7 | case9 => exact absurd mem_cons_self hbrace
  | case13 | case15 => exact absurd mem_cons_self hquote
  | case11 _ _ _ _ _ _ _ _ hbare => exact hbare
  | case5 _ _ _ ih =>
    obtain ⟨g, hg, -⟩ := exists_of_map_cons h
    obtain ⟨hopen, hin⟩ := ih (not_mem_of_not_mem_cons hbrace) (not_mem_of_not_mem_cons hquote) hg
    refine ⟨?_, hin⟩
    split_ifs at hopen with hzero
    exact not_not.mp hzero
  | case4 | case10 | case12 | case16 =>
    rename_i ih
    obtain ⟨g, hg, -⟩ := exists_of_map_cons h
    exact ih (not_mem_of_not_mem_cons hbrace) (not_mem_of_not_mem_cons hquote) hg

theorem not_mem_of_spaces {ws : Bytes} (h : ws.dropWhile isSpace = [])
    (hc : isSpace c = false) : c ∉ ws := by
  intro hmem
  have hspace := dropWhile_eq_nil_iff.mp h c hmem
  rw [hc] at hspace
  cases hspace

theorem Splits.append {ws : Bytes} {es es' : List Bytes} (h : Splits (u ++ ws) es)
    (hws : ws.dropWhile isSpace = []) (hopen : endsOpen true 0 u = false)
    (hz : atElementEnd z = true) :
    Splits (u ++ z) es' ↔ ∃ es₂, Splits z es₂ ∧ es' = es ++ es₂ := by
  have hwsEnd : atElementEnd ws = true := by
    rcases ws with _ | ⟨c, ws⟩
    · rfl
    · exact dropWhile_eq_nil_iff.mp hws c mem_cons_self
  induction es generalizing u es' with
  | nil =>
    have hu : u.dropWhile isSpace = [] := by
      have hall := dropWhile_eq_nil_iff.mp (eagleFindElement_eq_none.mp h)
      exact dropWhile_eq_nil_iff.mpr fun x hx => hall x (mem_append_left _ hx)
    simp [splits_spaces_append hu]
  | cons e es ih =>
    have hne : u.dropWhile isSpace ≠ [] := by
      intro hu
      rw [splits_spaces_append hu, splits_of_spaces hws] at h
      cases h
    rcases firstElement_append hne hopen with ⟨e₀, r, hr, hfirst⟩ | ⟨w, left, iq, -, hfirst⟩
    · obtain ⟨hend, _, heq, hrest⟩ := (hfirst ws (follows_of_atElementEnd hwsEnd) _).mp h
      cases heq
      have hend' : atElementEnd (r ++ z) = true := by
        rcases r with _ | ⟨c, r⟩
        · exact hz
        · exact hend
      rw [hfirst z (follows_of_atElementEnd hz)]
      simp only [hend', true_and, ih hrest hr]
      constructor
      · rintro ⟨_, rfl, es₂, h₂, rfl⟩
        exact ⟨es₂, h₂, rfl⟩
      · rintro ⟨es₂, h₂, rfl⟩
        exact ⟨_, rfl, es₂, h₂, rfl⟩
    · obtain ⟨f, hf, _, heq, hrest⟩ := (hfirst ws (follows_of_atElementEnd hwsEnd) _).mp h
      have hclosed := findElementFrom_unclosed (not_mem_of_spaces hws rfl)
        (not_mem_of_spaces hws rfl) hf
      obtain ⟨rfl, rfl⟩ := hclosed
      rw [findElementFrom_of_atElementEnd hwsEnd] at hf
      cases hf
      cases heq
      obtain rfl := (splits_of_spaces hws).mp hrest
      rw [hfirst z (follows_of_atElementEnd hz)]
      simp only [findElementFrom_of_atElementEnd hz, Except.ok.injEq, exists_eq_left']
      constructor
      · rintro ⟨es₂, rfl, h₂⟩
        exact ⟨es₂, h₂, rfl⟩
      · rintro ⟨es₂, h₂, rfl⟩
        exact ⟨es₂, rfl, h₂⟩

/-! ## Text behind an open sequence -/

theorem copyAndCollapseFrom_append {e : Bytes} (hskip : skip ≤ u.length)
    (hopen : endsOpen blank skip u = false) (he : Follows blank e) :
    copyAndCollapseFrom skip (u ++ e) = copyAndCollapseFrom skip u ++ copyAndCollapseFrom 0 e := by
  induction u generalizing skip with
  | nil =>
    obtain rfl : skip = 0 := le_zero.mp hskip
    cases e <;> simp [copyAndCollapseFrom]
  | cons c u ih =>
    rcases skip with _ | skip
    · by_cases hback : c = chBackslash
      · subst hback
        obtain ⟨hseq, hrest⟩ := endsOpen_backslash.mp hopen
        rw [cons_append, copyAndCollapseFrom, if_pos rfl, copyAndCollapseFrom, if_pos rfl,
          eagleParseBackslash_follows hseq he, ih (skip_le_length _ u) hrest, append_assoc]
      · rw [endsOpen_cons hback] at hopen
        rw [cons_append, copyAndCollapseFrom, if_neg hback, copyAndCollapseFrom,
          if_neg hback, ih (zero_le _) hopen]
        rfl
    · rw [cons_append, copyAndCollapseFrom, copyAndCollapseFrom]
      exact ih (le_of_succ_le_succ hskip) hopen

theorem spaces_of_openSequence (h : openSequence true w = true) : w.dropWhile isSpace = [] := by
  rcases w with _ | ⟨c, b⟩
  · rfl
  rw [openSequence, Bool.true_and, Bool.and_eq_true, beq_iff_eq, all_eq_true] at h
  refine dropWhile_eq_nil_iff.mpr fun x hx => ?_
  rcases mem_cons.mp hx with rfl | hx
  · rw [h.1]
    rfl
  · have hblank := h.2 x hx
    rw [isBlank, Bool.or_eq_true, beq_iff_eq, beq_iff_eq] at hblank
    rcases hblank with rfl | rfl <;> rfl

theorem exists_of_endsOpen (h : endsOpen true skip u = true) :
    ∃ v w, u = v ++ chBackslash :: w ∧ openSequence true w = true ∧ skip ≤ v.length ∧
      endsOpen false skip v = false := by
  induction u generalizing skip with
  | nil => cases h
  | cons c u ih =>
    rcases skip with _ | skip
    · by_cases hback : c = chBackslash
      · subst hback
        by_cases hseq : openSequence true u = true
        · exact ⟨[], u, rfl, hseq, le_refl _, rfl⟩
        · rw [Bool.not_eq_true] at hseq
          rw [endsOpen, if_pos rfl, hseq, Bool.false_or] at h
          obtain ⟨v, w, rfl, hw, hskip, hv⟩ := ih h
          refine ⟨chBackslash :: v, w, rfl, hw, zero_le _, ?_⟩
          have hne : v ≠ [] := by
            rintro rfl
            cases hskip
          have hclosed : openSequence false v = false := by
            obtain ⟨d, v, rfl⟩ := exists_cons_of_ne_nil hne
            rfl
          rw [endsOpen_backslash]
          rw [eagleParseBackslash_follows hclosed (follows_backslash w)] at hv
          exact ⟨hclosed, hv⟩
      · rw [endsOpen_cons hback] at h
        obtain ⟨v, w, rfl, hw, hskip, hv⟩ := ih h
        exact ⟨c :: v, w, rfl, hw, zero_le _, (endsOpen_cons hback).trans hv⟩
    · obtain ⟨v, w, rfl, hw, hskip, hv⟩ := ih h
      exact ⟨c :: v, w, rfl, hw, succ_le_succ hskip, hv⟩

theorem findElementFrom_bare (h : findElementFrom skip openBraces inQuotes z = .ok f)
    (hzero : openBraces = 0) :
    f.brace = false := by
  fun_induction findElementFrom skip openBraces inQuotes z generalizing f with
  | case1 | case2 | case8 | case14 => cases h
  | case3 | case11 =>
    cases h
    rfl
  | case7 => cases hzero
  | case13 =>
    cases h
    simp [hzero]
  | case6 _ _ _ hone =>
    rw [hzero] at hone
    cases hone
  | case5 | case4 | case9 | case10 | case12 | case15 | case16 =>
    rename_i ih
    obtain ⟨g, hg, rfl⟩ := exists_of_map_cons h
    have hrest := ih hg (by simp [hzero])
    exact hrest

theorem value_append (hw : endsOpen false 0 w = false)
    (h : findElementFrom 0 0 false (chBackslash :: z) = .ok f) :
    FoundElement.value { f with element := w ++ f.element } =
      eagleCopyAndCollapse w ++ f.value := by
  have hbare := findElementFrom_bare h rfl
  rw [findElementFrom, if_neg (by decide), if_neg (by decide), if_pos rfl] at h
  obtain ⟨g, -, rfl⟩ := exists_of_map_cons h
  simp only [FoundElement.value, hbare, Bool.false_eq_true, if_false]
  exact copyAndCollapseFrom_append (zero_le _) hw (follows_backslash _)

variable {a : Bytes}

theorem Splits.not_prefix {b : Bytes} {es es' : List Bytes} (ha : Splits (u ++ chBackslash :: a) es)
    (hb : Splits (u ++ chBackslash :: b) es') (hopen : endsOpen false 0 u = false)
    (hspaces : a.dropWhile isSpace = []) (hdiff : ∀ f g, findElementFrom 0 0 false (chBackslash ::
      a) = .ok f → findElementFrom 0 0 false (chBackslash :: b) = .ok g → f.value ≠ g.value) :
    ¬es <+: es' := by
  induction es generalizing u es' with
  | nil =>
    have hall := dropWhile_eq_nil_iff.mp (eagleFindElement_eq_none.mp ha)
    cases hall chBackslash (mem_append_right _ mem_cons_self)
  | cons e es ih =>
    have hgoes (w : Bytes) (hw : endsOpen false 0 w = false) (f g : FoundElement) (x y : List Bytes)
        (hf : findElementFrom 0 0 false (chBackslash :: a) = .ok f)
        (hg : findElementFrom 0 0 false (chBackslash :: b) = .ok g)
        (hes : e :: es = FoundElement.value { f with element := w ++ f.element } :: x)
        (hes' : es' = FoundElement.value { g with element := w ++ g.element } :: y) :
        ¬e :: es <+: es' := by
      rw [hes, hes', value_append hw hf, value_append hw hg]
      intro hprefix
      exact hdiff f g hf hg (append_cancel_left (cons_prefix_cons.mp hprefix).1)
    by_cases hu : u.dropWhile isSpace = []
    · have hback (z : Bytes) : eagleFindElement (chBackslash :: z) =
          (findElementFrom 0 0 false (chBackslash :: z)).map
            fun f => some { f with after := f.after.dropWhile isSpace } := rfl
      rw [splits_spaces_append hu, splits_iff_of_find (hback _)] at ha hb
      obtain ⟨f, hf, x, hes, -⟩ := ha
      obtain ⟨g, hg, y, hes', -⟩ := hb
      exact hgoes [] rfl f g x y hf hg hes hes'
    · rcases firstElement_append hu hopen with ⟨v, r, hr, hfirst⟩ | ⟨w, left, iq, hw, hfirst⟩
      · obtain ⟨-, x, hes, hrest⟩ := (hfirst _ (follows_backslash a) _).mp ha
        obtain ⟨-, y, rfl, hrest'⟩ := (hfirst _ (follows_backslash b) _).mp hb
        cases hes
        rw [prefix_cons_inj]
        exact ih hrest hrest' hr
      · obtain ⟨f, hf, x, hes, -⟩ := (hfirst _ (follows_backslash a) _).mp ha
        obtain ⟨g, hg, y, hes', -⟩ := (hfirst _ (follows_backslash b) _).mp hb
        have hno (c : Byte) (hc : isSpace c = false) (hne : c ≠ chBackslash) :
            c ∉ chBackslash :: a :=
          fun hmem => (mem_cons.mp hmem).elim hne (not_mem_of_spaces hspaces hc)
        obtain ⟨rfl, rfl⟩ := findElementFrom_unclosed (hno chCloseBrace rfl (by decide))
          (hno chQuote rfl (by decide)) hf
        exact hgoes w hw f g x y hf hg hes hes'

/-! ## What an open sequence takes -/

theorem findElementFrom_skip (a : Bytes) :
    findElementFrom a.length openBraces inQuotes (a ++ z) =
      (findElementFrom 0 openBraces inQuotes z).map
        fun f => { f with element := a ++ f.element } := by
  induction a with
  | nil => cases h : findElementFrom 0 openBraces inQuotes z <;> simp [h, Except.map]
  | cons c a ih =>
    rw [length_cons, cons_append, findElementFrom, ih]
    cases findElementFrom 0 openBraces inQuotes z <;> rfl

theorem copyAndCollapseFrom_skip (a : Bytes) :
    copyAndCollapseFrom a.length (a ++ z) = copyAndCollapseFrom 0 z := by
  induction a with
  | nil => rfl
  | cons c a ih => rw [length_cons, cons_append, copyAndCollapseFrom, ih]

theorem value_of_sequence {x : Byte}
    (hseq : ∀ e, e <+: z → eagleParseBackslash (chBackslash :: (a ++ e)) = (a.length + 1, [x]))
    (h : findElementFrom 0 0 false (chBackslash :: (a ++ z)) = .ok f) :
    ∃ g, findElementFrom 0 0 false z = .ok g ∧ f.value = x :: g.value := by
  rw [findElementFrom, if_neg (by decide), if_neg (by decide), if_pos rfl,
    hseq z prefix_rfl, Nat.add_sub_cancel, findElementFrom_skip] at h
  rcases hg : findElementFrom 0 0 false z with zError | g
  · rw [hg] at h
    cases h
  · rw [hg] at h
    cases h
    obtain ⟨e, rfl, helem, -⟩ := findElementFrom_ends hg
    refine ⟨g, rfl, ?_⟩
    have hparse := hseq g.element (helem.trans (prefix_append e _))
    simp only [FoundElement.value, FoundElement.cons, findElementFrom_bare hg rfl,
      Bool.false_eq_true, if_false]
    rw [eagleCopyAndCollapse, copyAndCollapseFrom, if_pos rfl, hparse, Nat.add_sub_cancel,
      copyAndCollapseFrom_skip]
    rfl

theorem eagleParseBackslash_space {s : Byte} (hs : isSpace s = true) (hne : s ≠ chNewline)
    (z : Bytes) : eagleParseBackslash (chBackslash :: s :: z) = (2, [s]) := by
  have hall : ∀ m < 256, isSpace (UInt8.ofNat m) = true → UInt8.ofNat m ≠ chNewline →
      UInt8.ofNat m = 0x09 ∨ UInt8.ofNat m = 0x0b ∨ UInt8.ofNat m = 0x0c ∨
        UInt8.ofNat m = 0x0d ∨ UInt8.ofNat m = 0x20 := by
    decide +kernel
  have hcases := hall s.toNat s.toNat_lt (by simpa using hs) (by simpa using hne)
  rw [UInt8.ofNat_toNat] at hcases
  rcases hcases with rfl | rfl | rfl | rfl | rfl <;> rfl

theorem eagleParseBackslash_newline {b : Bytes} (hb : b.all isBlank = true)
    (hz : ∀ d ∈ z.head?, isBlank d = false) :
    eagleParseBackslash (chBackslash :: (chNewline :: b ++ z)) =
      ((chNewline :: b).length + 1, [chSpace]) := by
  have hrun : (b ++ z).takeWhile isBlank = b := by
    rw [takeWhile_append_of_pos (all_eq_true.mp hb)]
    rcases z with _ | ⟨d, z⟩
    · simp
    · rw [takeWhile_cons_of_neg (by simp [hz d rfl]), append_nil]
  change (2 + ((b ++ z).takeWhile isBlank).length, [chSpace]) = _
  rw [hrun, length_cons, add_comm]

theorem value_of_spaces (hspaces : a.dropWhile isSpace = [])
    (h : findElementFrom 0 0 false (chBackslash :: a) = .ok f) :
    ∃ x, f.value = [x] ∧ (a ≠ [] → isSpace x = true) ∧ (a = [] → x = chBackslash) := by
  have hall := dropWhile_eq_nil_iff.mp hspaces
  have hvalue {z : Bytes} {g : FoundElement} (hz : ∀ d ∈ z, isSpace d = true)
      (hg : findElementFrom 0 0 false z = .ok g) : g.value = [] := by
    have hend : atElementEnd z = true := by
      rcases z with _ | ⟨d, z⟩
      · rfl
      · exact hz d mem_cons_self
    rw [findElementFrom_of_atElementEnd hend] at hg
    cases hg
    rfl
  rcases a with _ | ⟨s, a⟩
  · cases h
    exact ⟨chBackslash, rfl, absurd rfl, fun _ => rfl⟩
  have hs := hall s mem_cons_self
  by_cases hnl : s = chNewline
  · subst hnl
    have ha : a.takeWhile isBlank ++ a.dropWhile isBlank = a := takeWhile_append_dropWhile
    have hstop {e : Bytes} {d : Byte} (he : e <+: a.dropWhile isBlank) (hd : d ∈ e.head?) :
        isBlank d = false := by
      obtain ⟨e, rfl⟩ := head?_eq_some_iff.mp hd
      obtain ⟨z, hz⟩ := he
      have hnot := head?_dropWhile_not isBlank a
      rw [← hz] at hnot
      exact hnot
    rw [← ha, ← cons_append] at h
    obtain ⟨g, hg, hf⟩ := value_of_sequence (fun e he => eagleParseBackslash_newline (by simp)
      fun d hd => hstop he hd) h
    have hnil := hvalue (fun d hd => hall d (mem_cons_of_mem _ ((dropWhile_sublist _).mem hd))) hg
    exact ⟨chSpace, by rw [hf, hnil], fun _ => rfl, nofun⟩
  · obtain ⟨g, hg, hf⟩ := value_of_sequence (a := [s])
      (fun e _ => eagleParseBackslash_space hs hnl e) h
    have hnil := hvalue (fun d hd => hall d (mem_cons_of_mem _ hd)) hg
    exact ⟨s, by rw [hf, hnil], fun _ => hs, nofun⟩

theorem copyAndCollapse_ne_nil (c : Byte) (z : Bytes) : eagleCopyAndCollapse (c :: z) ≠ [] := by
  have hwrite (n : UInt64) : writeResult n ≠ [] := by
    unfold writeResult
    split_ifs <;> simp
  have hdigits (letter : Byte) (parsed : ℕ × UInt64) (keep : UInt64 → UInt64) :
      (digitsOr letter parsed keep).2 ≠ [] := by
    unfold digitsOr
    split_ifs <;> exact hwrite _
  have hite {p : Prop} [Decidable p] {a b : ℕ × Bytes} (ha : a.2 ≠ []) (hb : b.2 ≠ []) :
      (if p then a else b).2 ≠ [] := by
    split_ifs <;> assumption
  have hparse : (eagleParseBackslash (c :: z)).2 ≠ [] := by
    rcases z with _ | ⟨d, z⟩
    · exact cons_ne_nil _ _
    · iterate 9 refine hite (cons_ne_nil _ _) ?_
      iterate 7 refine hite (hdigits _ _ _) ?_
      exact hite (cons_ne_nil _ _) (hite (hwrite _) (hwrite _))
  rw [eagleCopyAndCollapse, copyAndCollapseFrom]
  split_ifs
  · exact fun h => hparse (append_eq_nil_iff.mp h).1
  · exact cons_ne_nil _ _

theorem value_of_openSequence {y : Bytes} {d : Byte} (hw : openSequence true w = true)
    (hd : isSpace d = false)
    (h : findElementFrom 0 0 false (chBackslash :: (w ++ chSpace :: d :: y)) = .ok f) :
    2 ≤ f.value.length := by
  have hmore {g : FoundElement} {x : Byte} (hg : findElementFrom 0 0 false (d :: y) = .ok g)
      (hf : f.value = x :: g.value) : 2 ≤ f.value.length := by
    obtain ⟨e, he⟩ : ∃ e, g.element = d :: e := by
      have hstep := hg
      unfold findElementFrom at hstep
      simp only [ne_eq, not_true_eq_false, if_false, Nat.not_lt_zero, Nat.zero_ne_one, hd,
        Bool.false_eq_true, ite_self] at hstep
      split_ifs at hstep <;>
        · obtain ⟨g', -, rfl⟩ := exists_of_map_cons hstep
          exact ⟨_, rfl⟩
    have hne := length_pos_of_ne_nil (copyAndCollapse_ne_nil d e)
    rw [hf, FoundElement.value, findElementFrom_bare hg rfl, if_neg Bool.false_ne_true, he,
      length_cons]
    exact succ_le_succ hne
  rcases w with _ | ⟨c, b⟩
  · obtain ⟨g, hg, hf⟩ := value_of_sequence (a := [chSpace])
      (fun e _ => eagleParseBackslash_space rfl (by decide) e) h
    exact hmore hg hf
  · rw [openSequence, Bool.true_and, Bool.and_eq_true, beq_iff_eq] at hw
    obtain ⟨rfl, hb⟩ := hw
    have hblanks : (b ++ [chSpace]).all isBlank = true := by
      rw [all_append, hb]
      rfl
    have hstop {e : Bytes} (he : e <+: d :: y) : ∀ d' ∈ e.head?, isBlank d' = false := by
      intro d' hd'
      obtain ⟨e, rfl⟩ := head?_eq_some_iff.mp hd'
      obtain rfl := (cons_prefix_cons.mp he).1
      rw [← Bool.not_eq_true, isBlank, Bool.or_eq_true, beq_iff_eq, beq_iff_eq]
      rintro (rfl | rfl) <;> cases hd
    rw [show chNewline :: b ++ chSpace :: d :: y = chNewline :: (b ++ [chSpace]) ++ d :: y by
      simp] at h
    obtain ⟨g, hg, hf⟩ := value_of_sequence
      (fun e he => eagleParseBackslash_newline hblanks (hstop he)) h
    exact hmore hg hf

end Th8
