import Th8.Memory.SafeAlloc

/-!
# Base64

The encoder and the decoder that the `base64` command and the signature loader share.
-/

namespace Th8.Base64

/-- The classes of bytes in `th8B64Dec`. -/
inductive Symbol where
  | sextet (v : ℕ)
  | padding
  | whitespace
  | invalid
deriving DecidableEq

/-- `th8B64Dec`. -/
def symbol (c : Byte) : Symbol :=
  if 0x41 ≤ c ∧ c ≤ 0x5a then .sextet (c.toNat - 0x41)
  else if 0x61 ≤ c ∧ c ≤ 0x7a then .sextet (c.toNat - 0x61 + 26)
  else if 0x30 ≤ c ∧ c ≤ 0x39 then .sextet (c.toNat - 0x30 + 52)
  else if c = 0x2b then .sextet 62
  else if c = 0x2f then .sextet 63
  else if c = 0x3d then .padding
  else if isSpace c then .whitespace
  else .invalid

/-- The bytes of a full group of four sextets, of which `padCount` are padding. -/
def groupBytes (buf : List ℕ) (padCount : ℕ) : Bytes :=
  let triple := buf.foldl (fun n v => n * 64 + v) 0
  (triple / 65536).toUInt8 ::
    ((if padCount < 2 then [(triple / 256).toUInt8] else []) ++
      (if padCount < 1 then [triple.toUInt8] else []))

/-- The loop of `th8Base64Decode`: `buf` holds the sextets of the current group.  A
group that is not full at the end is dropped. -/
def decodeLoop (buf : List ℕ) (padCount : ℕ) (zOut : Bytes) : Bytes → Option Bytes
  | [] => some zOut
  | c :: rest =>
    let add (v padCount : ℕ) : Option Bytes :=
      if buf.length = 3 then
        decodeLoop [] 0 (zOut ++ groupBytes (buf ++ [v]) padCount) rest
      else decodeLoop (buf ++ [v]) padCount zOut rest
    match symbol c with
    | .whitespace => decodeLoop buf padCount zOut rest
    | .invalid => none
    | .padding => add 0 (padCount + 1)
    | .sextet v => add v padCount

def maxInput : ℕ := (2 ^ 64 - 1 - 3) / 3 * 4 % 2 ^ 64

/-- `th8Base64Decode`. -/
def decode (zIn : Bytes) : Option Bytes :=
  if maxInput < zIn.length then none else decodeLoop [] 0 [] zIn

example : decode (ascii "VEg4 IQ==") = some (ascii "TH8!") := by
  decide

/-- The bound on the output, `nOutMax`. -/
def outMax (nIn : ℕ) : ℕ := nIn / 4 * 3 + 3

/-- `th8Base64Decode` with its output buffer: whether the platform grants the buffer is
`granted`. -/
def decodeAlloc (granted : Bool) (zIn : Bytes) : Option Bytes :=
  if maxInput < zIn.length then none
  else if safeAllocStr granted (outMax zIn.length) then decodeLoop [] 0 [] zIn
  else none

/-- The bytes the loop of `th8Base64Decode` has written when it stops, be it at the end
of the text or at an invalid character. -/
def decodeWritten (buf : List ℕ) (padCount : ℕ) (zOut : Bytes) : Bytes → Bytes
  | [] => zOut
  | c :: rest =>
    let add (v padCount : ℕ) : Bytes :=
      if buf.length = 3 then
        decodeWritten [] 0 (zOut ++ groupBytes (buf ++ [v]) padCount) rest
      else decodeWritten (buf ++ [v]) padCount zOut rest
    match symbol c with
    | .whitespace => decodeWritten buf padCount zOut rest
    | .invalid => zOut
    | .padding => add 0 (padCount + 1)
    | .sextet v => add v padCount

/-- `th8B64Enc`. -/
def alphabet : Bytes :=
  ascii "ABCDEFGHIJKLMNOPQRSTUVWXYZabcdefghijklmnopqrstuvwxyz0123456789+/"

def encChar (v : ℕ) : Byte := alphabet.getD (v % 64) 0

/-- The four characters of a chunk of `nChunk` bytes. -/
def encodeGroup (a b c : Byte) (nChunk : ℕ) : Bytes :=
  let triple := a.toNat * 65536 + b.toNat * 256 + c.toNat
  [encChar (triple / 2 ^ 18), encChar (triple / 2 ^ 12),
    if 2 ≤ nChunk then encChar (triple / 2 ^ 6) else 0x3d,
    if 3 ≤ nChunk then encChar triple else 0x3d]

/-- The loop of `th8Base64Encode`: the text of the bytes that are left, from column
`linePos` on. -/
def encodeLoop (linePos : ℕ) : Bytes → Bytes
  | [] => []
  | [a] => encodeGroup a 0 0 1
  | [a, b] => encodeGroup a b 0 2
  | a :: b :: c :: rest =>
    encodeGroup a b c 3 ++
      if 76 ≤ linePos + 4 ∧ rest ≠ [] then 0x0d :: 0x0a :: encodeLoop 0 rest
      else encodeLoop (linePos + 4) rest

/-- The number of bytes `th8Base64Encode` makes room for, unless that overflows. -/
def encodedSize (nIn : ℕ) : Option ℕ := do
  let nTmp ← safeAddSize nIn 2
  let nRaw ← safeMulSize (nTmp / 3) 4
  let nLines := if 0 < nRaw then (nRaw - 1) / 76 else 0
  let nTmp ← safeMulSize nLines 2
  safeAddSize nRaw nTmp

/-- What a successful `th8Base64Encode` has done: the room it made, the text it wrote
there, and the interpreter result, which is left empty with a flag when the copy of the
text could not be allocated. -/
structure Encoded where
  nOut : ℕ
  zOut : Bytes
  result : TString
  bResultBuildFailed : Bool
deriving DecidableEq

/-- `TH8_LEN` and `TH8_TAGS` of a length word. -/
def lengthWord (n : ℕ) : ℕ × Tags :=
  (n % 2 ^ 28, ⟨n / 2 ^ 28 % 2 = 1, n / 2 ^ 29 % 2 = 1⟩)

/-- `Th8_SetResult` of the first `n` bytes of a text: the result and the flag. -/
def setResult (granted : Bool) (z : Bytes) (n : ℕ) : TString × Bool :=
  let (nRaw, nTag) := lengthWord n
  if safeAllocStr granted nRaw then (⟨z.take nRaw, nTag⟩, false)
  else (.plain [], true)

/-- `th8Base64Encode`: `bufGranted` and `resultGranted` say whether the platform grants
the output buffer and the copy of it that becomes the result. -/
def encode (bufGranted resultGranted : Bool) (zIn : Bytes) : Option Encoded := do
  let nOut ← encodedSize zIn.length
  if safeAllocStr bufGranted nOut then
    let zOut := encodeLoop 0 zIn
    let (result, failed) := setResult resultGranted zOut zOut.length
    return ⟨nOut, zOut, result, failed⟩
  else none

example : (encode true true (ascii "TH8!")).map (·.result) =
    some (.plain (ascii "VEg4IQ==")) := by
  decide

end Th8.Base64
