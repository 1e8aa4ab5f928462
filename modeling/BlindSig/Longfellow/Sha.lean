import BlindSig.Lib.Codec
import Mathlib.Data.Fin.VecNotation

/-! The hashes of longfellow: SHA-256 under a public seed and a tweak, integers least significant
byte first. Internal nodes keep the first half of a digest, and the first block of a tree node is
compressed once for all of them. The compression function and HMAC come from libraries. -/
namespace BlindSig.Longfellow

abbrev kHashBytes : Nat := 32
abbrev kNodeBytes : Nat := 16
abbrev kPkSeedBytes : Nat := 16
abbrev kNonceLength : Nat := 24
abbrev kTreePrefixBytes : Nat := 64
abbrev kLen : Nat := 42

abbrev Hash := Vector Byte kHashBytes
abbrev Node := Vector Byte kNodeBytes
abbrev PkSeed := Vector Byte kPkSeedBytes
abbrev Nonce := Vector Byte kNonceLength
abbrev Midstate := Vector Word 8

def kChainTweak : Byte := 0x00
def kTreeTweak : Byte := 0x01
def kMessageTweak : Byte := 0x02
def kNodeTweak : Byte := 0x03

/-- The compression function of SHA-256, and HMAC over it. -/
structure Sha256 where
  compress : Midstate → Vector Word 16 → Midstate
  hmac : List Byte → List Byte → Hash

section Digest

/-- `kIV`. -/
def kIV : Midstate :=
  .ofFn ![0x6a09e667, 0xbb67ae85, 0x3c6ef372, 0xa54ff53a,
    0x510e527f, 0x9b05688c, 0x1f83d9ab, 0x5be0cd19]

/-- The blocks of a message with its padding. -/
def shaBlocks (len : Nat) : Nat := (len + 9 + 63) / 64

/-- The length in bits, most significant byte first. -/
def bitLength (len : Nat) : List Byte := (leBytes (BitVec.ofNat 64 (8 * len)) 8).toList.reverse

def padded (msg : List Byte) : List Byte :=
  msg ++ 0x80 :: List.replicate (64 * shaBlocks msg.length - (msg.length + 9)) 0 ++
    bitLength msg.length

/-- Block `b` as big-endian words. -/
def blockWords (bytes : List Byte) (b : Nat) : Vector Word 16 :=
  Vector.ofFn fun w : Fin 16 => be32 fun i => bytes.getD (64 * b + 4 * w + i) 0

/-- The words of a state as bytes, most significant first. -/
def digestBytes (h : Midstate) : Hash :=
  Vector.ofFn fun i : Fin kHashBytes => byteAt (h[i.val / 4]?.getD 0) (3 - i.val % 4)

variable (S : Sha256)

def sha256 (msg : List Byte) : Hash :=
  digestBytes ((List.range (shaBlocks msg.length)).foldl (fun h b =>
    S.compress h (blockWords (padded msg) b)) kIV)

/-- The first half of a digest. -/
def firstHalf (d : Hash) : Node := slice d 0 kNodeBytes (by decide)

def sha256Node (msg : List Byte) : Node := firstHalf (sha256 S msg)

end Digest

section Formats

/-- `push_le`. -/
def pushLe (v : BitVec w) (width : Nat) : List Byte := (leBytes v width).toList

def buildWotsDomainParam (pkSeed : PkSeed) : PkSeed := pkSeed

def buildMessageHash (param : PkSeed) (epoch : Word) (nonce : Nonce) (message : List Byte) :
    List Byte :=
  param.toList ++ [kMessageTweak] ++ pushLe epoch 4 ++ nonce.toList ++ message

/-- The chain index and the position are cut to a byte. -/
def buildChainHash (param : PkSeed) (epoch : Word) (hash : Node) (chainIdx position : Byte) :
    List Byte :=
  param.toList ++ [kChainTweak] ++ pushLe epoch 4 ++ hash.toList ++ [chainIdx, position]

def buildTreePrefix (param : PkSeed) : List Byte :=
  param.toList ++ kNodeTweak :: List.replicate (kTreePrefixBytes - (kPkSeedBytes + 1)) 0

def buildTreeHash (param : PkSeed) (left right : Node) (level index : Word) : List Byte :=
  buildTreePrefix param ++ pushLe level 1 ++ pushLe index 4 ++ left.toList ++ right.toList

def buildPublicKeyHash (param : PkSeed) (epoch : Word) (pkHashes : Vector Node kLen) : List Byte :=
  param.toList ++ [kTreeTweak] ++ pushLe epoch 4 ++ pkHashes.toList.flatMap Vector.toList

variable (S : Sha256)

def hashMessage (param : PkSeed) (epoch : Word) (nonce : Nonce) (message : List Byte) : Hash :=
  sha256 S (buildMessageHash param epoch nonce message)

def hashChain (param : PkSeed) (epoch : Word) (hash : Node) (chainIdx position : Byte) : Node :=
  sha256Node S (buildChainHash param epoch hash chainIdx position)

def hashTreeNode (param : PkSeed) (left right : Node) (level index : Word) : Node :=
  sha256Node S (buildTreeHash param left right level index)

def hashPublicKey (param : PkSeed) (epoch : Word) (pkHashes : Vector Node kLen) : Node :=
  sha256Node S (buildPublicKeyHash param epoch pkHashes)

end Formats

end BlindSig.Longfellow
