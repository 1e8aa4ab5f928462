import BlindSig.Lib.Bytes
import Mathlib.Data.List.GetD

/-! The tweakable hash and the keyed XOF over BLAKE3. The upstream hasher is a parameter; the
compression function is the one of this repository, and `Blake3` says what the upstream
hasher is documented to do with it on a message of one chunk. Null buffers are not modelled. -/
namespace BlindSig.Kkw

/-- The two upstream modes in use, as functions of the concatenated updates. -/
structure Hasher where
  /-- Derive-key mode under the context `blind-mss tweakable hash v2`. -/
  deriveKey : List Byte → (outLen : Nat) → Vector Byte outLen
  /-- Keyed mode with extended output. -/
  keyed : Vector Byte 32 → List Byte → (outLen : Nat) → Vector Byte outLen

section Compress

def b3Iv : Vector Word 8 :=
  #v[0x6A09E667, 0xBB67AE85, 0x3C6EF372, 0xA54FF53A,
    0x510E527F, 0x9B05688C, 0x1F83D9AB, 0x5BE0CD19]

def messagePermutation : Vector (Fin 16) 16 :=
  #v[2, 6, 3, 10, 7, 0, 4, 13, 1, 11, 12, 5, 9, 14, 15, 8]

def g (v : Vector Word 16) (a b c d : Fin 16) (x y : Word) : Vector Word 16 :=
  let v := v.set a (v[a] + v[b] + x)
  let v := v.set d (rightRotate (v[d] ^^^ v[a]) 16)
  let v := v.set c (v[c] + v[d])
  let v := v.set b (rightRotate (v[b] ^^^ v[c]) 12)
  let v := v.set a (v[a] + v[b] + y)
  let v := v.set d (rightRotate (v[d] ^^^ v[a]) 8)
  let v := v.set c (v[c] + v[d])
  v.set b (rightRotate (v[b] ^^^ v[c]) 7)

/-- The arguments of one call of `g`: four state words and two schedule positions. -/
structure GCall where
  (a b c d x y : Fin 16)

/-- The eight calls of a round, columns first. -/
def roundCalls : List GCall :=
  [⟨0, 4, 8, 12, 0, 1⟩, ⟨1, 5, 9, 13, 2, 3⟩, ⟨2, 6, 10, 14, 4, 5⟩, ⟨3, 7, 11, 15, 6, 7⟩,
    ⟨0, 5, 10, 15, 8, 9⟩, ⟨1, 6, 11, 12, 10, 11⟩, ⟨2, 7, 8, 13, 12, 13⟩, ⟨3, 4, 9, 14, 14, 15⟩]

/-- The message schedule `s` at the start of round `r`. -/
def roundSchedule : Nat → Vector (Fin 16) 16
  | 0 => Vector.finRange 16
  | r + 1 =>
    let s := roundSchedule r
    messagePermutation.map fun i => s[i]

def blake3Rounds (blockWords : Vector Word 16) (v : Vector Word 16) : Vector Word 16 :=
  (List.range 7).foldl (fun v r => roundCalls.foldl (fun v call =>
    g v call.a call.b call.c call.d blockWords[(roundSchedule r)[call.x]]
      blockWords[(roundSchedule r)[call.y]]) v) v

/-- The second half of the state that a compression starts from. -/
def startTail (counterLow counterHigh blockLen flags : Word) : Vector Word 8 :=
  #v[b3Iv[0], b3Iv[1], b3Iv[2], b3Iv[3], counterLow, counterHigh, blockLen, flags]

def lowHalf (i : Fin 8) : Fin 16 := ⟨i, by omega⟩

def highHalf (i : Fin 8) : Fin 16 := ⟨i + 8, by omega⟩

def blake3Compress (cv : Vector Word 8) (blockWords : Vector Word 16) (counter : BitVec 64)
    (blockLen flags : Word) : Vector Word 8 :=
  let start : Vector Word 16 := cv ++
    startTail (counter.setWidth 32) ((counter >>> 32).setWidth 32) blockLen flags
  let v := blake3Rounds blockWords start
  Vector.ofFn fun i : Fin 8 => v[lowHalf i] ^^^ v[highHalf i]

end Compress

section Chunk

def blake3ChunkStart : Word := 1 <<< 0
def blake3ChunkEnd : Word := 1 <<< 1
def blake3Root : Word := 1 <<< 3
def blake3DeriveKeyMaterial : Word := 1 <<< 6
abbrev blake3BlockLen : Nat := 64
abbrev blake3ChunkLen : Nat := 1024
abbrev blake3OutLen : Nat := 32

/-- The context key of `blind-mss tweakable hash v2`. -/
def blake3ThContextKey : Vector Word 8 :=
  #v[0x92BC442A, 0x717EB9D9, 0xE6E35884, 0x65D1A3F5,
    0xBE746F4F, 0x3B5F70D6, 0xAF7DE478, 0xECB68DB9]

def nblocks (len : Nat) : Nat := (len + blake3BlockLen - 1) / blake3BlockLen

def blockLen (len b : Nat) : Nat := min blake3BlockLen (len - b * blake3BlockLen)

def blockFlags (len b : Nat) : Word :=
  blake3DeriveKeyMaterial ||| (if b = 0 then blake3ChunkStart else 0) |||
    (if b + 1 = nblocks len then blake3ChunkEnd ||| blake3Root else 0)

/-- Block `b` of a message, padded with zeros. -/
def blockWords (message : List Byte) (b : Nat) : Vector Word 16 :=
  Vector.ofFn fun w : Fin 16 => le32 fun i => message.getD (b * blake3BlockLen + w * 4 + i) 0

/-- The root chaining value of a message of one chunk in derive-key mode. -/
def chunkOutput (message : List Byte) : Vector Word 8 :=
  (List.range (nblocks message.length)).foldl (fun cv b =>
    blake3Compress cv (blockWords message b) 0 (BitVec.ofNat 32 (blockLen message.length b))
      (blockFlags message.length b)) blake3ThContextKey

/-- The first `outLen` bytes of eight words. -/
def outputBytes (words : Vector Word 8) (outLen : Nat) : Vector Byte outLen :=
  Vector.ofFn fun i : Fin outLen => byteAt (words[i.val / 4]?.getD 0) (i.val % 4)

/-- A hasher that agrees with the BLAKE3 specification on single-chunk messages. -/
structure Blake3 extends Hasher where
  single_chunk : ∀ (message : List Byte) (outLen : Nat), message ≠ [] →
    message.length ≤ blake3ChunkLen → outLen ≤ blake3OutLen →
    deriveKey message outLen = outputBytes (chunkOutput message) outLen

end Chunk

section Th

abbrev blake3ThMaxDomain : Nat := 28
abbrev blake3ThFrameLen : Nat := 4

structure Blake3ThCtx where
  hasher : List Byte
  poisoned : Bool

/-- `LE32(domain_len)`. -/
def frame (domainLen : Nat) : Vector Byte 4 :=
  Vector.ofFn fun i : Fin 4 => byteAt (BitVec.ofNat 32 domainLen) i

def blake3ThInit (domain : List Byte) : Blake3ThCtx :=
  if domain.length > blake3ThMaxDomain then ⟨[], true⟩
  else ⟨(frame domain.length).toList ++ domain, false⟩

def blake3ThUpdate (ctx : Blake3ThCtx) (data : List Byte) : Blake3ThCtx :=
  if ctx.poisoned then ctx else { ctx with hasher := ctx.hasher ++ data }

def blake3ThFinal (H : Hasher) (ctx : Blake3ThCtx) (outLen : Nat) : Option (Vector Byte outLen) :=
  if ctx.poisoned ∨ outLen > blake3OutLen then none else some (H.deriveKey ctx.hasher outLen)

def blake3Th (H : Hasher) (domain data : List Byte) (outLen : Nat) :
    Option (Vector Byte outLen) :=
  blake3ThFinal H (blake3ThUpdate (blake3ThInit domain) data) outLen

theorem blake3Th_eq (H : Hasher) (domain data : List Byte) (outLen : Nat)
    (short : domain.length ≤ blake3ThMaxDomain) (fits : outLen ≤ blake3OutLen) :
    blake3Th H domain data outLen =
      some (H.deriveKey ((frame domain.length).toList ++ domain ++ data) outLen) := by
  have init : blake3ThInit domain = ⟨(frame domain.length).toList ++ domain, false⟩ :=
    if_neg (Nat.not_lt.mpr short)
  simp [blake3Th, init, blake3ThUpdate, blake3ThFinal, fits]

/-- Callers ignore the status: the output they go on with. -/
def th (H : Hasher) (domain data : List Byte) (outLen : Nat) : Vector Byte outLen :=
  (blake3Th H domain data outLen).getD (Vector.replicate outLen 0)

theorem th_eq (H : Hasher) (domain data : List Byte) (outLen : Nat)
    (short : domain.length ≤ blake3ThMaxDomain) (fits : outLen ≤ blake3OutLen) :
    th H domain data outLen =
      H.deriveKey ((frame domain.length).toList ++ domain ++ data) outLen := by
  rw [th, blake3Th_eq H domain data outLen short fits, Option.getD_some]

def charByte (c : Char) : Byte := BitVec.ofNat 8 c.toNat

/-- The bytes of a C string literal without its terminator. -/
def chars (s : List Char) : List Byte := s.map charByte

/-- `KKW_TH(dom, data, len, out32)`. -/
def kkwTh (H : Hasher) (dom : List Char) (data : List Byte) : Vector Byte 32 :=
  th H (chars dom) data 32

theorem foldl_blake3ThUpdate (parts : List (List Byte)) (ctx : Blake3ThCtx) :
    parts.foldl blake3ThUpdate ctx = blake3ThUpdate ctx parts.flatten := by
  induction parts generalizing ctx with
  | nil => cases ctx; simp [blake3ThUpdate]
  | cons part parts ih =>
    rw [List.foldl_cons, ih]
    by_cases poisoned : ctx.poisoned <;> simp [blake3ThUpdate, poisoned]

end Th

section Xof

/-- `blind-mss BLAKE3 keyed XOF v1` with its terminator. -/
def xofFraming : List Byte :=
  chars ['b', 'l', 'i', 'n', 'd', '-', 'm', 's', 's', ' ', 'B', 'L', 'A', 'K', 'E', '3', ' ',
    'k', 'e', 'y', 'e', 'd', ' ', 'X', 'O', 'F', ' ', 'v', '1'] ++ [0]

def blake3KeyedXof (H : Hasher) (key : Vector Byte 32) (domain : List Char) (input : List Byte)
    (outLen : Nat) : Vector Byte outLen :=
  H.keyed key (xofFraming ++
    (List.range 8).map (fun i => byteAt (BitVec.ofNat 64 (chars domain).length) i) ++
    chars domain ++ input) outLen

end Xof

section Reference

/-! A hasher to compute with: BLAKE3 on messages of one chunk. -/

def blake3KeyedHash : Word := 1 <<< 4

/-- All sixteen output words of a compression. -/
def extendedOutput (cv : Vector Word 8) (block : Vector Word 16) (counter : BitVec 64)
    (blockLen flags : Word) : Vector Word 16 :=
  let start : Vector Word 16 := cv ++
    startTail (counter.setWidth 32) ((counter >>> 32).setWidth 32) blockLen flags
  let v := blake3Rounds block start
  Vector.ofFn fun i : Fin 16 => v[i] ^^^ (v ++ cv)[i.val + 8]

/-- Block `counter` of the extended output in keyed mode. -/
def keyedOutput (key : Vector Byte 32) (message : List Byte) (counter : Nat) : Vector Word 16 :=
  let flags (b : Nat) : Word := blake3KeyedHash ||| if b = 0 then blake3ChunkStart else 0
  let keyWords : Vector Word 8 := Vector.ofFn fun w : Fin 8 => loadWord key (4 * w) (word_of_digest w)
  let last := nblocks message.length - 1
  let cv := (List.range last).foldl (fun cv b =>
    blake3Compress cv (blockWords message b) 0 64 (flags b)) keyWords
  extendedOutput cv (blockWords message last) (BitVec.ofNat 64 counter)
    (BitVec.ofNat 32 (blockLen message.length last))
    (flags last ||| blake3ChunkEnd ||| blake3Root)

def singleChunkBlake3 : Blake3 where
  deriveKey message outLen := outputBytes (chunkOutput message) outLen
  keyed key message outLen := Vector.ofFn fun i : Fin outLen =>
    byteAt ((keyedOutput key message (i / 64)).get ⟨i % 64 / 4, by omega⟩) (i % 4)
  single_chunk _ _ _ _ _ := rfl

end Reference

end BlindSig.Kkw
