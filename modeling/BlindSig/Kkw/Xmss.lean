import BlindSig.Kkw.Blake3

/-! Target-sum WOTS+ and the XMSS verifier. The same file is compiled over BLAKE3 and over SHAKE256,
so the hash builders are a parameter. Allocation does not fail in the model. -/
namespace BlindSig.Kkw

abbrev Node := Vector Byte 16
abbrev PkSeed := Vector Byte 16
abbrev Nonce := Vector Byte 24

abbrev xmssH : Nat := 32
abbrev xmssWotsLen : Nat := 42
abbrev xmssWotsMaxSteps : Nat := 7
abbrev xmssTargetSum : Nat := 195
abbrev xmssCoordResBits : Nat := 3
abbrev xmssDigitsPerWord : Nat := xmssWotsLen / 2

def xmssTweakChain : Byte := 0x00
def xmssTweakTree : Byte := 0x01
def xmssTweakMessage : Byte := 0x02
def xmssTweakLeaf : Byte := 0x03

/-- Word `w` of a node. -/
def xmssNodeLoadWord (node : Node) (w : Fin 4) : Word := loadWord node (4 * w) (word_of_node w)

/-- A node from its four words. -/
def xmssNodeStoreWords (words : Vector Word 4) : Node := storeWords words

def xmssCoordBitPos (i : Fin xmssWotsLen) : Nat :=
  if i < xmssDigitsPerWord then xmssCoordResBits * i
  else 64 + xmssCoordResBits * (i - xmssDigitsPerWord)

/-- The digest position of bit `k` of coordinate `i`. -/
def coordBit (i : Fin xmssWotsLen) (k : Fin xmssCoordResBits) : Fin 256 :=
  ⟨xmssCoordBitPos i + k, by
    unfold xmssCoordBitPos xmssDigitsPerWord xmssCoordResBits xmssWotsLen
    split <;> omega⟩

structure XmssSig where
  leafIndex : Word
  nonce : Nonce
  sigHashes : Vector Node xmssWotsLen
  authPath : Vector Node xmssH
  deriving DecidableEq

section Wots

/-- The byte of a hash that bit `j` is in. -/
def hashByte (j : Fin 256) : Fin 32 := ⟨j / 8, by omega⟩

/-- `(hash[j / 8] >> (j % 8)) & 1`. -/
def hashBit (hash : Vector Byte 32) (j : Fin 256) : Bool := hash[hashByte j].getLsbD (j.val % 8)

/-- The coordinates, and whether both unused top bits are clear. -/
def xmssExtractCoords (hash : Vector Byte 32) : Vector Byte xmssWotsLen × Bool :=
  (Vector.ofFn fun i : Fin xmssWotsLen =>
    (List.finRange xmssCoordResBits).foldl (fun c k =>
      c ||| (BitVec.ofBool (hashBit hash (coordBit i k))).setWidth 8 <<< k.val) 0,
    (hash[7] >>> 7 ||| hash[15] >>> 7) == 0)

def coordSum (coords : Vector Byte xmssWotsLen) : Nat :=
  ((List.finRange xmssWotsLen).map fun i => coords[i].toNat).sum

end Wots

/-! The chain functions over any type of chain values. -/
namespace Chains

variable {α : Type} (step : PkSeed → Word → α → Byte → Byte → α)

def hashChainMulti (pkSeed : PkSeed) (epoch : Word) (start : α) (chainIdx startPos steps : Byte) : α :=
  (List.range steps.toNat).foldl (fun cur i =>
    step pkSeed epoch cur chainIdx (startPos + BitVec.ofNat 8 i + 1)) start

def wotsPkFromSk (pkSeed : PkSeed) (epoch : Word) (sk : Vector α xmssWotsLen) :
    Vector α xmssWotsLen :=
  Vector.ofFn fun i : Fin xmssWotsLen =>
    hashChainMulti step pkSeed epoch sk[i] (BitVec.ofNat 8 i) 0 (BitVec.ofNat 8 xmssWotsMaxSteps)

def wotsSign (pkSeed : PkSeed) (epoch : Word) (sk : Vector α xmssWotsLen)
    (coords : Vector Byte xmssWotsLen) : Vector α xmssWotsLen :=
  Vector.ofFn fun i : Fin xmssWotsLen =>
    if coords[i] = 0 then sk[i]
    else hashChainMulti step pkSeed epoch sk[i] (BitVec.ofNat 8 i) 0 coords[i]

def wotsPkFromSig (pkSeed : PkSeed) (epoch : Word) (sig : Vector α xmssWotsLen)
    (coords : Vector Byte xmssWotsLen) : Vector α xmssWotsLen :=
  Vector.ofFn fun i : Fin xmssWotsLen =>
    let remaining := BitVec.ofNat 8 xmssWotsMaxSteps - coords[i]
    if remaining = 0 then sig[i]
    else hashChainMulti step pkSeed epoch sig[i] (BitVec.ofNat 8 i) coords[i] remaining

end Chains

/-- The hash builders and the two key derivations. -/
structure XmssHashes where
  hashMessage : PkSeed → Word → Nonce → List Byte → Vector Byte 32
  hashChainStep : PkSeed → Word → Node → Byte → Byte → Node
  hashTreeNode : PkSeed → Node → Node → Word → Word → Node
  hashPublicKey : PkSeed → Word → Vector Node xmssWotsLen → Node
  wotsGenSk : Vector Byte 32 → Word → Vector Node xmssWotsLen
  deriveUpperSiblings : Vector Byte 32 → (levels : Nat) → Vector Node levels

namespace XmssHashes

variable (X : XmssHashes)

def hashChainMulti := Chains.hashChainMulti X.hashChainStep

def wotsPkFromSk := Chains.wotsPkFromSk X.hashChainStep

def wotsSign := Chains.wotsSign X.hashChainStep

def wotsPkFromSig := Chains.wotsPkFromSig X.hashChainStep

/-- Draws nonces until one has an encodable digest of the target sum. -/
def grindNonce (pkSeed : PkSeed) (epoch : Word) (message : List Byte) :
    List Nonce → Option (Nonce × Vector Byte xmssWotsLen)
  | [] => none
  | nonce :: rest =>
    let (coords, ok) := xmssExtractCoords (X.hashMessage pkSeed epoch nonce message)
    if !ok then grindNonce pkSeed epoch message rest
    else if coordSum coords = xmssTargetSum then some (nonce, coords)
    else grindNonce pkSeed epoch message rest

def walkAuthPath (pkSeed : PkSeed) (leaf : Node) (leafIndex : Word)
    (authPath : Vector Node xmssH) : Node :=
  ((List.finRange xmssH).foldl (fun (node, idx) h =>
    (if idx &&& 1 = 0 then
      X.hashTreeNode pkSeed node authPath[h] (BitVec.ofNat 32 h) (idx >>> 1)
    else X.hashTreeNode pkSeed authPath[h] node (BitVec.ofNat 32 h) (idx >>> 1),
    idx >>> 1)) (leaf, leafIndex)).1

def verify (pkSeed : PkSeed) (root : Node) (message : List Byte) (sig : XmssSig) : Bool :=
  let mh := X.hashMessage pkSeed sig.leafIndex sig.nonce message
  let (coords, ok) := xmssExtractCoords mh
  if !ok then false
  else if coordSum coords ≠ xmssTargetSum then false
  else
    let pkHashes := X.wotsPkFromSig pkSeed sig.leafIndex sig.sigHashes coords
    let leaf := X.hashPublicKey pkSeed sig.leafIndex pkHashes
    X.walkAuthPath pkSeed leaf sig.leafIndex sig.authPath == root

end XmssHashes

section Blake3

def putEpochBe (epoch : Word) : Vector Byte 4 :=
  Vector.ofFn fun k : Fin 4 => byteAt epoch (3 - k)

def xmssHashMessage (H : Hasher) (pkSeed : PkSeed) (epoch : Word) (nonce : Nonce)
    (message : List Byte) : Vector Byte 32 :=
  th H ((pkSeed ++ #v[xmssTweakMessage] ++ putEpochBe epoch).toList)
    (nonce.toList ++ message) 32

def xmssHashChainStep (H : Hasher) (pkSeed : PkSeed) (epoch : Word) (input : Node)
    (chainIdx pos : Byte) : Node :=
  th H (input ++ #v[xmssTweakChain]).toList
    (pkSeed ++ putEpochBe epoch ++ #v[chainIdx, pos]).toList 16

def xmssHashTreeNode (H : Hasher) (pkSeed : PkSeed) (left right : Node) (level index : Word) :
    Node :=
  th H (pkSeed ++ #v[xmssTweakTree, byteAt level 0] ++
    Vector.ofFn fun k : Fin 4 => byteAt index k).toList (left ++ right).toList 16

def xmssHashPublicKey (H : Hasher) (pkSeed : PkSeed) (epoch : Word)
    (pkHashes : Vector Node xmssWotsLen) : Node :=
  th H (pkSeed ++ #v[xmssTweakLeaf] ++ putEpochBe epoch).toList (join pkHashes).toList 16

def blake3XofDomXmssWotsSk : List Char :=
  ['b', 'l', 'i', 'n', 'd', '-', 'm', 's', 's', ' ', 'X', 'M', 'S', 'S', ' ', 'W', 'O', 'T', 'S',
    ' ', 's', 'e', 'c', 'r', 'e', 't', '-', 'k', 'e', 'y', ' ', 'e', 'x', 'p', 'a', 'n', 's', 'i',
    'o', 'n', ' ', 'v', '1']

def blake3XofDomXmssUpper : List Char :=
  ['b', 'l', 'i', 'n', 'd', '-', 'm', 's', 's', ' ', 'X', 'M', 'S', 'S', ' ', 'u', 'p', 'p', 'e',
    'r', '-', 's', 'i', 'b', 'l', 'i', 'n', 'g', ' ', 'e', 'x', 'p', 'a', 'n', 's', 'i', 'o', 'n',
    ' ', 'v', '1']

def xmssWotsGenSk (H : Hasher) (skSeed : Vector Byte 32) (leafIndex : Word) :
    Vector Node xmssWotsLen :=
  rows (blake3KeyedXof H skSeed blake3XofDomXmssWotsSk (putEpochBe leafIndex).toList
    (xmssWotsLen * 16))

def xmssDeriveUpperSiblings (H : Hasher) (skSeed : Vector Byte 32) (levels : Nat) :
    Vector Node levels :=
  rows (blake3KeyedXof H skSeed blake3XofDomXmssUpper [] (levels * 16))

def xmssHashes (H : Hasher) : XmssHashes where
  hashMessage := xmssHashMessage H
  hashChainStep := xmssHashChainStep H
  hashTreeNode := xmssHashTreeNode H
  hashPublicKey := xmssHashPublicKey H
  wotsGenSk := xmssWotsGenSk H
  deriveUpperSiblings := xmssDeriveUpperSiblings H

def xmssHashChainMulti (H : Hasher) := (xmssHashes H).hashChainMulti

def xmssVerify (H : Hasher) := (xmssHashes H).verify

end Blake3

end BlindSig.Kkw
