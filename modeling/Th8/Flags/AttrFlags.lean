import Th8.Convert.Integer

/-!
# Attribute flags

A map from 64-bit keys to sets of flags, its text form and the changes that can be made to
it.  The key zero is the default one, whose flags stand outside the braces.

A pointer to a flag set within a map is the index of its entry.
-/

namespace Th8.Flags

/-- `AF_NAME_SEP`. -/
abbrev nameSep : Byte := chColon

/-- `AF_MAX_NAME_LEN`. -/
def maxNameLen : ℕ := 16

/-- `AF_ADD_CHAR`. -/
def addChar : Byte := 0x2b

/-- `AF_REMOVE_CHAR`. -/
def removeChar : Byte := 0x2d

/-- `AF_SET_CHAR`. -/
def setChar : Byte := 0x3d

def afIsHexDigit (c : Byte) : Bool :=
  (0x30 ≤ c && c ≤ 0x39) || (0x61 ≤ c && c ≤ 0x66) || (0x41 ≤ c && c ≤ 0x46)

def afIsIdentChar (c : Byte) : Bool :=
  (0x30 ≤ c && c ≤ 0x39) || (0x61 ≤ c && c ≤ 0x7a) || (0x41 ≤ c && c ≤ 0x5a) || c == chUnderscore

def afIsSpace (c : Byte) : Bool := c == chSpace || c == chTab || c == 0x0d || c == chNewline

/-- The `do` loop of `th8AfFormatHex`, which fills a buffer of `room` digits from the last
digit on. -/
def hexLoop : ℕ → UInt64 → Bytes
  | 0, _ => []
  | room + 1, u =>
    (ascii "0123456789ABCDEF").getD (u &&& 0xf).toNat 0 ::
      if u >>> 4 > 0 then hexLoop room (u >>> 4) else []

def afFormatHex (u : UInt64) (bPad : Bool) : Bytes :=
  let tmp := hexLoop maxNameLen u
  let tmp := if bPad then tmp ++ List.replicate (16 - tmp.length) 0x30 else tmp
  tmp.reverse

def afParseHexKey (z : Bytes) : Option UInt64 :=
  z.foldlM (fun val c => (hexDigit c).map fun d => (val <<< 4) ||| UInt64.ofNat d) 0

structure FlagSet where
  present : Byte → Bool
  order : Bytes

namespace FlagSet

/-- `th8AfFlagSetInit`. -/
def init : FlagSet := ⟨fun _ => false, []⟩

/-- `th8AfFlagSetAdd`. -/
def add (p : FlagSet) (c : Byte) : FlagSet :=
  if c < 128 && !p.present c then
    ⟨Function.update p.present c true,
      if p.order.length < 128 then p.order ++ [c] else p.order⟩
  else p

/-- `th8AfFlagSetRemove`. -/
def remove (p : FlagSet) (c : Byte) : FlagSet :=
  if c < 128 && p.present c then
    ⟨Function.update p.present c false, p.order.filter (· ≠ c)⟩
  else p

/-- `th8AfFlagSetHas`. -/
def has (p : FlagSet) (c : Byte) : Bool := if c < 128 then p.present c else false

end FlagSet

structure AfKeyEntry where
  key : UInt64
  flags : FlagSet

def afMaxKeys : ℕ := 16

structure AfMap where
  a : List AfKeyEntry

namespace AfMap

/-- `th8AfMapInit`. -/
def init : AfMap := ⟨[]⟩

/-- `th8AfMapGet`: the index of the key's entry, which is made if there is none. -/
def get (p : AfMap) (key : UInt64) (bCreate : Bool) : Option (ℕ × AfMap) :=
  match p.a.findIdx? (·.key == key) with
  | some i => some (i, p)
  | none =>
    if bCreate && p.a.length < afMaxKeys then
      some (p.a.length, ⟨p.a ++ [⟨key, FlagSet.init⟩]⟩)
    else none

def modify (p : AfMap) (i : ℕ) (f : FlagSet → FlagSet) : AfMap :=
  ⟨p.a.modify i fun e => { e with flags := f e.flags }⟩

end AfMap

/-! ## Parsing -/

/-- The variables of `Th8_AttrFlagsParse`; `zName` has `nName` characters. -/
structure ParseState where
  zName : Bytes
  bOpen : Bool
  bHaveName : Bool
  bNameSepOk : Bool
  key : UInt64
  map : AfMap

namespace ParseState

def init : ParseState := ⟨[], false, false, true, 0, AfMap.init⟩

def flag (s : ParseState) (c : Byte) : Except String ParseState :=
  let useKey := if s.bOpen then s.key else 0
  match s.map.get useKey true with
  | none => .error "flags: too many keys"
  | some (pFs, map) => .ok { s with map := map.modify pFs fun fs => fs.add c }

/-- The branch that collects a key name. -/
def name (s : ParseState) (bSpace : Bool) (c : Byte) : Except String ParseState :=
  if bSpace && afIsSpace c then .ok s
  else if c = nameSep then
    if s.zName.length = 0 then .error "flags: ':' without key name"
    else
      match afParseHexKey s.zName with
      | none => .error "flags: invalid hex key"
      | some key => .ok { s with key := key, bHaveName := true, bNameSepOk := false }
  else if !afIsHexDigit c then .error "flags: invalid key character"
  else if maxNameLen ≤ s.zName.length then .error "flags: key too long"
  else
    let s := { s with zName := s.zName ++ [c] }
    -- The legacy format has sixteen digits and no colon.
    if s.zName.length = maxNameLen && s.bNameSepOk then
      match afParseHexKey s.zName with
      | none => .error "flags: invalid hex key"
      | some key => .ok { s with key := key, bHaveName := true }
    else .ok s

def value (s : ParseState) (bComplex bSpace : Bool) (c : Byte) : Except String ParseState :=
  if bSpace && afIsSpace c then .ok s
  else if c = nameSep && bComplex then
    if !s.bNameSepOk then .error "flags: unexpected ':'"
    else .ok { s with bNameSepOk := false }
  else if !afIsIdentChar c then .error "flags: invalid flag character"
  else s.flag c

def step (bComplex bSpace : Bool) (s : ParseState) (c : Byte) : Except String ParseState :=
  if c = chOpenBrace then
    if !bComplex then .error "flags: unexpected '\x7b' in simple mode"
    else if s.bOpen then .error "flags: nested '\x7b'"
    else .ok { s with bOpen := true, zName := [], bHaveName := false, bNameSepOk := true }
  else if c = chCloseBrace then
    if !bComplex || !s.bOpen then .error "flags: unexpected '\x7d'"
    else if !s.bHaveName then .error "flags: '\x7d' without complete key"
    else if s.zName.length = 0 then .error "flags: '\x7d' without complete key"
    else .ok { s with bOpen := false, bHaveName := false, bNameSepOk := true }
  else if s.bOpen && !s.bHaveName then s.name bSpace c
  else s.value bComplex bSpace c

def loop (bComplex bSpace : Bool) : ParseState → Bytes → Except String Unit × AfMap
  | s, [] => (if s.bOpen then .error "flags: missing '\x7d'" else .ok (), s.map)
  | s, c :: zText =>
    match s.step bComplex bSpace c with
    | .error z => (.error z, s.map)
    | .ok s => loop bComplex bSpace s zText

end ParseState

/-- `Th8_AttrFlagsParse`; a null text is no text. -/
def attrFlagsParse (zText : Option Bytes) (bComplex bSpace : Bool) : Except String Unit × AfMap :=
  match zText with
  | none => (.ok (), AfMap.init)
  | some zText => ParseState.init.loop bComplex bSpace zText

/-- `Th8_StringAppend`, which may find no room for the grown string.  Every string here is
longer than the one before, so that its length says which append it is. -/
def strAppend (granted : ℕ → Bool) (zOut : Option Bytes) (zApp : Bytes) :
    Except Failure (Option Bytes) :=
  let zNew := zOut.getD [] ++ zApp
  if granted zNew.length then .ok (some zNew) else .error (.static "out of memory")

def FlagSet.listed (p : FlagSet) (bSort : Bool) : Bytes :=
  if bSort then ((List.range 128).map UInt8.ofNat).filter p.present else p.order

def appendFlags (granted : ℕ → Bool) (bSort : Bool) (pFs : FlagSet) (zOut : Option Bytes) :
    Except Failure (Option Bytes) :=
  (pFs.listed bSort).foldlM (fun zOut ch => strAppend granted zOut [ch]) zOut

def appendSpace (granted : ℕ → Bool) (bSpace : Bool) (zOut : Option Bytes) :
    Except Failure (Option Bytes) :=
  if bSpace && 0 < (zOut.getD []).length then strAppend granted zOut [chSpace] else .ok zOut

def appendEntry (granted : ℕ → Bool) (bLegacy bSpace bSort : Bool) (zOut : Option Bytes)
    (e : AfKeyEntry) : Except Failure (Option Bytes) := do
  let zOut ← appendSpace granted bSpace zOut
  if e.key ≠ 0 then
    let zOut ← strAppend granted zOut [chOpenBrace]
    let zBuf := afFormatHex e.key bLegacy
    let zBuf := if !bLegacy then zBuf ++ [chColon] else zBuf
    let zOut ← strAppend granted zOut zBuf
    let zOut ← appendFlags granted bSort e.flags zOut
    strAppend granted zOut [chCloseBrace]
  else appendFlags granted bSort e.flags zOut

/-- `Th8_AttrFlagsFormat`; the option `bCompact` is reserved. -/
def attrFlagsFormat (granted : ℕ → Bool) (pMap : AfMap) (bLegacy _bCompact bSpace bSort : Bool) :
    Except Failure (Option Bytes) :=
  pMap.a.foldlM (appendEntry granted bLegacy bSpace bSort) none

def afIsWildcard (c : Byte) : Bool :=
  c == chStar || c == chHash || c == 0x21 || c == chDollar || c == 0x40

/-- The characters from `lo` to `hi`. -/
def charRange (lo hi : ℕ) : Bytes := (List.range' lo (hi + 1 - lo)).map UInt8.ofNat

/-- The loops of `th8AfExpandWildcard`, one after the other. -/
def wildcardChars (wc : Byte) : Bytes :=
  if wc = chStar then charRange 0x30 0x39 ++ charRange 0x41 0x5a ++ charRange 0x61 0x7a
  else if wc = chHash then charRange 0x30 0x39
  else if wc = 0x21 then charRange 0x41 0x5a ++ charRange 0x61 0x7a
  else if wc = chDollar then charRange 0x41 0x5a
  else if wc = 0x40 then charRange 0x61 0x7a
  else []

def afExpandWildcard (wc : Byte) (pFs : FlagSet) (xOp : FlagSet → Byte → FlagSet) : FlagSet :=
  (wildcardChars wc).foldl xOp pFs

/-- The loop of `Th8_AttrFlagsChange`, which leaves what it has done where it fails. -/
def changeLoop : Byte → FlagSet → Bytes → Except String Unit × FlagSet
  | _, pFs, [] => (.ok (), pFs)
  | mode, pFs, c :: zChange =>
    if c = addChar ∨ c = removeChar ∨ c = setChar then
      changeLoop c (if c = setChar then FlagSet.init else pFs) zChange
    else if afIsWildcard c then
      changeLoop mode
        (afExpandWildcard c pFs (if mode = removeChar then FlagSet.remove else FlagSet.add)) zChange
    else if !afIsIdentChar c then (.error "flags change: invalid character", pFs)
    else
      changeLoop mode (if mode = addChar ∨ mode = setChar then pFs.add c else pFs.remove c) zChange

def attrFlagsChange (pMap : AfMap) (zChange : Option Bytes) (key : UInt64) :
    Except String Unit × AfMap :=
  match zChange with
  | none => (.ok (), pMap)
  | some zChange =>
    match pMap.get key true with
    | none => (.error "flags change: too many keys", pMap)
    | some (i, pMap) =>
      let pFs := ((pMap.a[i]?).map (·.flags)).getD FlagSet.init
      let r := changeLoop addChar pFs zChange
      (r.1, pMap.modify i fun _ => r.2)

end Th8.Flags
