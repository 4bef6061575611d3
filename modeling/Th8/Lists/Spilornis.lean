import Th8.Convert.ListCache
import Th8.Support.Scanner

/-!
# The Spilornis list library

The quoter that turns a string into a list element (`EagleScanCountedElement`,
`EagleConvertCountedElement`) and the splitter that takes a list apart
(`EagleFindElement`, `EagleCopyAndCollapse`, `Eagle_SplitList`).  A pointer and the
limit it may not reach are a list of bytes; where the source moves its pointer over
a backslash sequence, a scanning loop here counts the bytes that it still skips.

A `WCHAR` is a byte and a `UCSCHAR` is 64 bits wide, as TH8 builds the library.
-/

namespace Th8

open Support

/-! ## Backslash sequences -/

def eagleIsBinDigit (c : Byte) : Bool := 0x30 ≤ c && c ≤ 0x31

def eagleIsDecDigit (c : Byte) : Bool := 0x30 ≤ c && c ≤ 0x39

def hexDigitValue (digit : Byte) : UInt64 :=
  if 0x61 ≤ digit then 10 + (digit - 0x61).toUInt64
  else if 0x41 ≤ digit then 10 + (digit - 0x41).toUInt64
  else (digit - 0x30).toUInt64

/-- `EagleParseBin`: how many digits `src` starts with, and their value. -/
def eagleParseBin (src : Bytes) : ℕ × UInt64 :=
  let digits := src.takeWhile eagleIsBinDigit
  (digits.length, digits.foldl (fun r d => (r <<< 1) ||| (d - 0x30).toUInt64) 0)

def eagleParseOct (src : Bytes) : ℕ × UInt64 :=
  let digits := src.takeWhile isOctDig
  (digits.length, digits.foldl (fun r d => (r <<< 3) ||| (d - 0x30).toUInt64) 0)

def eagleParseDec (src : Bytes) : ℕ × UInt64 :=
  let digits := src.takeWhile eagleIsDecDigit
  (digits.length, digits.foldl (fun r d => r * 10 + (d - 0x30).toUInt64) 0)

def eagleParseHex (src : Bytes) : ℕ × UInt64 :=
  let digits := src.takeWhile isHexDig
  (digits.length, digits.foldl (fun r d => (r <<< 4) ||| hexDigitValue d) 0)

/-- The characters that the end of `EagleParseBackslash` writes: a result beyond
`USHRT_MAX` makes two of them. -/
def writeResult (result : UInt64) : Bytes :=
  if result &&& ~~~0xffff ≠ 0 then [result.toUInt8, (result >>> 8).toUInt8]
  else [result.toUInt8]

/-- A plain `char` taken as a `UCSCHAR`: it is signed. -/
def signedChar (c : Byte) : UInt64 :=
  if c < 0x80 then c.toUInt64 else c.toUInt64 ||| 0xffffffffffffff00

/-- A case of `EagleParseBackslash` with digits behind its letter: without any the
sequence is the letter itself. -/
def digitsOr (letter : Byte) (parsed : ℕ × UInt64) (keep : UInt64 → UInt64) : ℕ × Bytes :=
  if parsed.1 = 0 then (2, writeResult letter.toUInt64)
  else (2 + parsed.1, writeResult (keep parsed.2))

def keepByte (result : UInt64) : UInt64 := result &&& 0xff

/-- Up to three octal digits, the first of which is `c`; the result is cut to a
`WCHAR` after each. -/
def octalSequence (c : Byte) (rest : Bytes) : ℕ × Bytes :=
  let digits := (rest.take 2).takeWhile isOctDig
  (2 + digits.length,
    writeResult (digits.foldl (fun r d => keepByte ((r <<< 3) + (d - 0x30).toUInt64))
      (c - 0x30).toUInt64))

/-- `EagleParseBackslash`: the number of characters read and those written for the
backslash sequence that `src` starts with. -/
def eagleParseBackslash (src : Bytes) : ℕ × Bytes :=
  match src with
  | [] => (0, [])
  | [_] => (1, [chBackslash])
  | _ :: c :: rest =>
    if c = 0 then (1, [chBackslash])
    else if c = 0x61 then (2, [0x07])
    else if c = 0x62 then (2, [0x08])
    else if c = 0x66 then (2, [0x0c])
    else if c = 0x6e then (2, [0x0a])
    else if c = 0x72 then (2, [0x0d])
    else if c = 0x74 then (2, [0x09])
    else if c = 0x76 then (2, [0x0b])
    else if c = chBackslash then (2, [chBackslash])
    else if c = 0x42 then digitsOr c (eagleParseBin rest) keepByte
    else if c = 0x6f then digitsOr c (eagleParseOct rest) keepByte
    else if c = 0x64 then digitsOr c (eagleParseDec rest) keepByte
    else if c = 0x78 then digitsOr c (eagleParseHex rest) keepByte
    else if c = 0x58 then digitsOr c (eagleParseHex rest) id
    else if c = 0x75 then digitsOr c (eagleParseHex (rest.take 4)) id
    else if c = 0x55 then digitsOr c (eagleParseHex (rest.take 8)) id
    else if c = chNewline then
      (2 + (rest.takeWhile fun d => d == chSpace || d == chTab).length, [chSpace])
    else if isOctDig c then octalSequence c rest
    else (2, writeResult (signedChar c))

/-- `EagleCopyAndCollapse`.  The first argument counts the characters that are left
of a backslash sequence already written. -/
def copyAndCollapseFrom : ℕ → Bytes → Bytes
  | _, [] => []
  | skip + 1, _ :: src => copyAndCollapseFrom skip src
  | 0, c :: src =>
    if c = chBackslash then
      (eagleParseBackslash (c :: src)).2 ++
        copyAndCollapseFrom ((eagleParseBackslash (c :: src)).1 - 1) src
    else c :: copyAndCollapseFrom 0 src

def eagleCopyAndCollapse (src : Bytes) : Bytes := copyAndCollapseFrom 0 src

structure ElementFlags where
  dontUseBraces : Bool
  useBraces : Bool
  bracesUnmatched : Bool
deriving DecidableEq

namespace ElementFlags

def zero : ElementFlags := ⟨false, false, false⟩

/-- `EAGLE_DONT_USE_BRACES | EAGLE_BRACES_UNMATCHED`. -/
def refusal : ElementFlags := ⟨true, false, true⟩

def orUseBraces (flags : ElementFlags) : ElementFlags := { flags with useBraces := true }

def orRefusal (flags : ElementFlags) : ElementFlags :=
  { flags with dontUseBraces := true, bracesUnmatched := true }

def braces (flags : ElementFlags) : Bool := flags.useBraces && !flags.dontUseBraces

end ElementFlags

def wantsBraces (c : Byte) : Bool :=
  c == chOpenBracket || c == chDollar || c == chSemicolon || isSpace c

/-- The loop of `EagleScanCountedElement`: the flags and the nesting level at the end
of the element.  The first argument counts the characters left of a backslash
sequence. -/
def scanElementFrom : ℕ → ElementFlags → ℤ → Bytes → ElementFlags × ℤ
  | _, flags, nestingLevel, [] => (flags, nestingLevel)
  | skip + 1, flags, nestingLevel, _ :: rest =>
    scanElementFrom skip flags nestingLevel rest
  | 0, flags, nestingLevel, c :: rest =>
    if c = chOpenBrace then scanElementFrom 0 flags (nestingLevel + 1) rest
    else if c = chCloseBrace then
      scanElementFrom 0 (if nestingLevel - 1 < 0 then flags.orRefusal else flags)
        (nestingLevel - 1) rest
    else if wantsBraces c then scanElementFrom 0 flags.orUseBraces nestingLevel rest
    else if c = chBackslash then
      if rest = [] ∨ rest.head? = some chNewline then
        scanElementFrom 0 .refusal nestingLevel rest
      else
        scanElementFrom ((eagleParseBackslash (c :: rest)).1 - 1) flags.orUseBraces
          nestingLevel rest
    else scanElementFrom 0 flags nestingLevel rest

/-- The flags with which `EagleScanCountedElement` enters its loop. -/
def openingFlags (string : Bytes) : ElementFlags :=
  if string = [] ∨ string.head? = some chOpenBrace ∨ string.head? = some chQuote then
    ElementFlags.zero.orUseBraces
  else .zero

/-- `EagleScanCountedElement`: the flags of an element. -/
def eagleScanCountedElement (string : Bytes) : ElementFlags :=
  let scan := scanElementFrom 0 (openingFlags string) 0 string
  if scan.2 ≠ 0 then .refusal else scan.1

/-- The room that `EagleScanCountedElement` asks for. -/
def elementRoom (string : Bytes) : ℕ := 2 * string.length + 2

def convertChar (flags : ElementFlags) (c : Byte) : Bytes :=
  if c = chCloseBracket ∨ c = chOpenBracket ∨ c = chDollar ∨ c = chSemicolon ∨
      c = chSpace ∨ c = chBackslash ∨ c = chQuote then [chBackslash, c]
  else if c = chOpenBrace ∨ c = chCloseBrace then
    if flags.bracesUnmatched then [chBackslash, c] else [c]
  else if c = 0x0c then [chBackslash, 0x66]
  else if c = 0x0a then [chBackslash, 0x6e]
  else if c = 0x0d then [chBackslash, 0x72]
  else if c = 0x09 then [chBackslash, 0x74]
  else if c = 0x0b then [chBackslash, 0x76]
  else [c]

/-- `EagleConvertCountedElement` for the first element of a list, whose leading hash
sign is quoted. -/
def eagleConvertCountedElement (src : Bytes) (flags : ElementFlags) : Bytes :=
  match src with
  | [] => [chOpenBrace, chCloseBrace]
  | c :: rest =>
    let flags := if c = chHash then flags.orUseBraces else flags
    if flags.braces then chOpenBrace :: src ++ [chCloseBrace]
    else if c = chOpenBrace then
      [chBackslash, c] ++ rest.flatMap (convertChar { flags with bracesUnmatched := true })
    else if c = chHash then [chBackslash, c] ++ rest.flatMap (convertChar flags)
    else src.flatMap (convertChar flags)

/-- `Eagle_JoinList` of a single element, unless its block is refused. -/
def eagleJoinList (zElem : Bytes) : Option Bytes :=
  if safeAllocMul true (elementRoom zElem + 1) 1 then
    some (eagleConvertCountedElement zElem (eagleScanCountedElement zElem))
  else none

/-! ## The splitter -/

def atElementEnd (z : Bytes) : Bool :=
  match z with
  | [] => true
  | c :: _ => isSpace c

def errorText (z : Bytes) : String := String.ofList (z.map fun c => Char.ofNat c.toNat)

def followedBy (zPre : String) (p : Bytes) : String :=
  let shown := ((p.take 20).takeWhile fun c => !isSpace c).takeWhile (· ≠ 0)
  zPre ++ "\"" ++ errorText shown ++ "\" instead of space"

/-- What the loop of `EagleFindElement` finds: the bytes of the element, those from
the position where it stops, and whether a brace is still open there. -/
structure FoundElement where
  element : Bytes
  after : Bytes
  brace : Bool
deriving DecidableEq

def FoundElement.cons (c : Byte) (f : FoundElement) : FoundElement :=
  { f with element := c :: f.element }

/-- The loop of `EagleFindElement`.  The first argument counts the characters left of
a backslash sequence. -/
def findElementFrom : ℕ → ℕ → Bool → Bytes → Except String FoundElement
  | _, openBraces, inQuotes, [] =>
    if openBraces ≠ 0 then .error "unmatched open brace in list"
    else if inQuotes then .error "unmatched open quote in list"
    else .ok ⟨[], [], false⟩
  | skip + 1, openBraces, inQuotes, c :: p =>
    (findElementFrom skip openBraces inQuotes p).map (·.cons c)
  | 0, openBraces, inQuotes, c :: p =>
    if c = chOpenBrace then
      (findElementFrom 0 (if openBraces ≠ 0 then openBraces + 1 else openBraces)
        inQuotes p).map (·.cons c)
    else if c = chCloseBrace then
      if 1 < openBraces then (findElementFrom 0 (openBraces - 1) inQuotes p).map (·.cons c)
      else if openBraces = 1 then
        if atElementEnd p then .ok ⟨[], p, true⟩
        else .error (followedBy "list element in braces followed by " p)
      else (findElementFrom 0 openBraces inQuotes p).map (·.cons c)
    else if c = chBackslash then
      (findElementFrom ((eagleParseBackslash (c :: p)).1 - 1) openBraces inQuotes p).map (·.cons c)
    else if isSpace c then
      if openBraces = 0 ∧ inQuotes = false then .ok ⟨[], c :: p, false⟩
      else (findElementFrom 0 openBraces inQuotes p).map (·.cons c)
    else if c = chQuote then
      if inQuotes then
        if atElementEnd p then .ok ⟨[], p, openBraces ≠ 0⟩
        else .error (followedBy "list element in quotes followed by " p)
      else (findElementFrom 0 openBraces inQuotes p).map (·.cons c)
    else (findElementFrom 0 openBraces inQuotes p).map (·.cons c)

/-- `EagleFindElement`, unless there is only white space left: the first element and
the text behind the white space that follows it. -/
def eagleFindElement (list : Bytes) : Except String (Option FoundElement) :=
  match list.dropWhile isSpace with
  | [] => .ok none
  | c :: p =>
    let found :=
      if c = chOpenBrace then findElementFrom 0 1 false p
      else if c = chQuote then findElementFrom 0 0 true p
      else findElementFrom 0 0 false (c :: p)
    found.map fun f => some { f with after := f.after.dropWhile isSpace }

def spaceRuns : Bool → Bytes → ℕ
  | _, [] => 0
  | false, c :: l => if isSpace c then spaceRuns true l + 1 else spaceRuns false l
  | true, c :: l => spaceRuns (isSpace c) l

def listSize (pText : Bytes) : ℕ := 2 + spaceRuns false pText

def FoundElement.value (f : FoundElement) : Bytes :=
  if f.brace then f.element else eagleCopyAndCollapse f.element

theorem FoundElement.cons_after (c : Byte) (f : FoundElement) :
    (f.cons c).after = f.after := rfl

variable {f : FoundElement}

theorem after_le_of_map_cons {x : Except String FoundElement} {c : Byte} {n : ℕ}
    (hx : x.map (·.cons c) = .ok f) (hle : ∀ g, x = .ok g → g.after.length ≤ n) :
    f.after.length ≤ n := by
  rcases x with e | g
  · cases hx
  · obtain rfl : g.cons c = f := by simpa [Except.map] using hx
    rw [FoundElement.cons_after]
    exact hle g rfl

theorem findElementFrom_after_le {skip openBraces : ℕ} {inQuotes : Bool} {p : Bytes}
    (h : findElementFrom skip openBraces inQuotes p = .ok f) :
    f.after.length ≤ p.length := by
  fun_induction findElementFrom skip openBraces inQuotes p generalizing f <;> first
      | (cases h; done)
      | (cases h; simp)
      | (rename_i ih
         exact after_le_of_map_cons h fun g hg => Nat.le_succ_of_le (ih hg))

theorem findElementFrom_bare_after_le {c : Byte} {p : Bytes} (hc : isSpace c = false)
    (h : findElementFrom 0 0 false (c :: p) = .ok f) :
    f.after.length ≤ p.length := by
  have hread : ∀ {skip : ℕ},
      (findElementFrom skip 0 false p).map (·.cons c) = .ok f → f.after.length ≤ p.length :=
    fun hx => after_le_of_map_cons hx fun g hg => findElementFrom_after_le hg
  unfold findElementFrom at h
  simp only [ne_eq, not_true_eq_false, if_false, Nat.not_lt_zero, Nat.zero_ne_one, hc,
    Bool.false_eq_true] at h
  split_ifs at h
  · exact hread h
  · exact hread h
  · exact hread h
  · exact hread h
  · exact hread h

theorem eagleFindElement_after_lt {list : Bytes} (h : eagleFindElement list = .ok (some f)) :
    f.after.length < list.length := by
  have hskip : (list.dropWhile isSpace).length ≤ list.length := (List.dropWhile_suffix _).length_le
  unfold eagleFindElement at h
  rcases hlist : list.dropWhile isSpace with _ | ⟨c, p⟩
  · simp [hlist] at h
  · have hc : isSpace c = false := by
      have hne : list.dropWhile isSpace ≠ [] := by simp [hlist]
      simpa [hlist] using List.head_dropWhile_not isSpace hne
    simp only [hlist] at h
    rw [hlist, List.length_cons] at hskip
    have hfound : ∀ {x : Except String FoundElement},
        (x.map fun f => some { f with after := f.after.dropWhile isSpace }) = .ok (some f) →
          (∀ g, x = .ok g → g.after.length ≤ p.length) → f.after.length ≤ p.length := by
      intro x hx hle
      rcases x with e | g
      · cases hx
      · simp only [Except.map, Except.ok.injEq, Option.some.injEq] at hx
        rw [← hx]
        exact (List.dropWhile_suffix _).length_le.trans (hle g rfl)
    have hle : f.after.length ≤ p.length := by
      refine hfound h fun g hg => ?_
      split_ifs at hg
      · exact findElementFrom_after_le hg
      · exact findElementFrom_after_le hg
      · exact findElementFrom_bare_after_le hc hg
    omega

/-- The rounds of `Eagle_SplitList`: the number of elements found and the text that is
left.  The estimate of the list's size bounds the number of elements. -/
def splitScanner (size : ℕ) : Scanner (ℕ × Bytes) Bytes (Option String) where
  step a :=
    if a.2 = [] then ([], .inr none)
    else
      match eagleFindElement a.2 with
      | .error zError => ([], .inr (some zError))
      | .ok none => ([], .inr none)
      | .ok (some f) =>
        if size ≤ a.1 then ([], .inr (some "wrong estimated list size"))
        else ([f.value], .inl (a.1 + 1, f.after))
  measure a := a.2.length
  decreases := by
    intro a out a' h
    by_cases hnil : a.2 = []
    · simp [hnil] at h
    · simp only [hnil, if_false] at h
      split at h
      · simp at h
      · simp at h
      · rename_i f hfind
        by_cases hsize : size ≤ a.1
        · simp [hsize] at h
        · simp only [hsize, if_false, Prod.mk.injEq, Sum.inl.injEq] at h
          rw [← h.2]
          exact eagleFindElement_after_lt hfind

/-- `LIBRARY_MAXIMUM_SIZE_T`. -/
def libraryMaximumSize : ℕ := 0x7fffffff

def sizeError (zPre : String) (n : ℕ) : String := zPre ++ " (" ++ toString n ++ ")"

/-- `Eagle_SplitList`.  Its two blocks hold a length and a pointer for each element
that is estimated, and behind the pointers the bytes of the elements. -/
def eagleSplitList : ListParser := fun pText =>
  let size := listSize pText
  let pointers := size * 8 + (pText.length + 1)
  if libraryMaximumSize / 8 < size then
    .error (some (sizeError "list too large for element lengths" size))
  else if !safeAllocMul true (size * 8) 1 then
    .error (some (sizeError "out of memory for list element lengths" (size * 8)))
  else if libraryMaximumSize / 8 < size ∨ libraryMaximumSize - size * 8 < pText.length + 1 then
    .error (some (sizeError "list too large for element data" size))
  else if !safeAllocMul true pointers 1 then
    .error (some (sizeError "out of memory for list element pointers" pointers))
  else
    match (splitScanner size).run (0, pText) with
    | (_, some zError) => .error (some zError)
    | (elements, none) => .ok elements

end Th8
