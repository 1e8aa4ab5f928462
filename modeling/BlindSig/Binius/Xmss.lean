import BlindSig.Lib.Codec
import BlindSig.Lib.MerkleTraversal

/-! The stateful XMSS of the binius64 program: seed-derived keys of any height up to 32 with a
lazily cached bottom subtree, signing, the wire form and its expansion. The hash functions of
the proof system's crates and BLAKE3 are parameters; levels of Merkle nodes count from 1. The
debug assertion after signing is compiled out of the release build. -/
namespace BlindSig.Binius

abbrev Digest := Vector Byte 16
abbrev PublicParam := Vector Byte 16
abbrev Randomness := Vector Byte 24
abbrev Message := Vector Byte 32

/-- `LEN`. -/
abbrev wotsLen : Nat := 42
abbrev maxSteps : Nat := 7
abbrev logLifetime : Nat := 32
abbrev skSeedBytes : Nat := 32

abbrev SkSeed := Vector Byte skSeedBytes
abbrev Encoding := Vector Byte wotsLen

/-- The functions of the hash crates. The search for a randomness takes the generator; it may
run for ever. -/
structure Upstream (Rng : Type) where
  merkleNode : PublicParam → (level : Nat) → (index : Word) → Digest → Digest → Digest
  iterateHash : Digest → (steps : Nat) → PublicParam → (epoch : Word) → (chain start : Nat) → Digest
  recoverPublicKey : Vector Digest wotsLen → Encoding → Word → PublicParam → Vector Digest wotsLen
  wotsPublicKeyHash : PublicParam → Word → Vector Digest wotsLen → Digest
  wotsEncode : Message → Word → PublicParam → Randomness → Option Encoding
  findRandomness : Message → Word → PublicParam → Rng → Option (Randomness × Encoding)
  /-- Keyed BLAKE3 on the concatenated updates, as far as it is read. -/
  keyedXof : SkSeed → List Byte → (n : Nat) → Vector Byte n

/-- What the program relies on: chain walks compose, the recovered end of a chain is the walk of
the remaining steps, digits are below `CHAIN_LENGTH`, and the search returns a randomness with
its encoding. -/
structure Upstream.Consistent {Rng : Type} (U : Upstream Rng) : Prop where
  iterateHash_add : ∀ x a b param epoch i,
    U.iterateHash (U.iterateHash x a param epoch i 0) b param epoch i a =
      U.iterateHash x (a + b) param epoch i 0
  recoverPublicKey_eq : ∀ tips (encoding : Encoding) epoch param (i : Fin wotsLen),
    encoding[i].toNat ≤ maxSteps →
      (U.recoverPublicKey tips encoding epoch param)[i] =
        U.iterateHash tips[i] (maxSteps - encoding[i].toNat) param epoch i encoding[i].toNat
  wotsEncode_le : ∀ {message epoch param randomness encoding},
    U.wotsEncode message epoch param randomness = some encoding →
      ∀ i : Fin wotsLen, encoding[i].toNat ≤ maxSteps
  findRandomness_encodes : ∀ {message epoch param rng randomness encoding},
    U.findRandomness message epoch param rng = some (randomness, encoding) →
      U.wotsEncode message epoch param randomness = some encoding

variable {Rng : Type} (U : Upstream Rng)

section Wots

def wotsSkDomain : List Char :=
  ['b', 'l', 'i', 'n', 'd', '-', 'x', 'm', 's', 's', '-', 'b', 'i', 'n', 'i', 'u', 's', '6', '4',
    '/', 'w', 'o', 't', 's', '-', 's', 'k']

def upperSiblingDomain : List Char :=
  ['b', 'l', 'i', 'n', 'd', '-', 'x', 'm', 's', 's', '-', 'b', 'i', 'n', 'i', 'u', 's', '6', '4',
    '/', 'u', 'p', 'p', 'e', 'r', '-', 's', 'i', 'b', 'l', 'i', 'n', 'g', 's']

def asciiBytes (s : List Char) : List Byte := s.map fun c => BitVec.ofNat 8 c.toNat

/-- `to_be_bytes`. -/
def beBytes (v : Word) : List Byte := (List.range 4).map fun k => byteAt v (3 - k)

def buildWotsDomainParam (pkSeed : PublicParam) : PublicParam := pkSeed

def deriveWotsSecretKey (skSeed : SkSeed) (epoch : Word) : Vector Digest wotsLen :=
  rows (U.keyedXof skSeed (asciiBytes wotsSkDomain ++ beBytes epoch) (wotsLen * 16))

def computeWotsPublicKey (param : PublicParam) (epoch : Word) (sk : Vector Digest wotsLen) :
    Vector Digest wotsLen :=
  Vector.ofFn fun i : Fin wotsLen => U.iterateHash sk[i] maxSteps param epoch i 0

def computeWotsSignature (param : PublicParam) (epoch : Word) (sk : Vector Digest wotsLen)
    (encoding : Encoding) : Vector Digest wotsLen :=
  Vector.ofFn fun i : Fin wotsLen => U.iterateHash sk[i] encoding[i].toNat param epoch i 0

def computeWotsChainEnds (param : PublicParam) (epoch : Word) (chainTips : Vector Digest wotsLen)
    (encoding : Encoding) : Vector Digest wotsLen :=
  U.recoverPublicKey chainTips encoding epoch param

def wotsLeaf (param : PublicParam) (epoch : Word) (chainEnds : Vector Digest wotsLen) : Digest :=
  U.wotsPublicKeyHash param epoch chainEnds

/-- The signature of a secret key walks on to its public key. -/
theorem computeWotsChainEnds_signature (h : U.Consistent) (param : PublicParam) (epoch : Word)
    (sk : Vector Digest wotsLen) {encoding : Encoding}
    (small : ∀ i : Fin wotsLen, encoding[i].toNat ≤ maxSteps) :
    computeWotsChainEnds U param epoch (computeWotsSignature U param epoch sk encoding) encoding =
      computeWotsPublicKey U param epoch sk := by
  apply Vector.ext
  intro i hi
  have rest := h.recoverPublicKey_eq (computeWotsSignature U param epoch sk encoding) encoding
    epoch param ⟨i, hi⟩ (small ⟨i, hi⟩)
  have tip : (computeWotsSignature U param epoch sk encoding)[(⟨i, hi⟩ : Fin wotsLen)] =
      U.iterateHash sk[i] encoding[i].toNat param epoch i 0 := by simp [computeWotsSignature]
  have total : encoding[i].toNat + (maxSteps - encoding[i].toNat) = maxSteps :=
    Nat.add_sub_cancel' (small ⟨i, hi⟩)
  rw [tip] at rest
  simp only [getElem_fin] at rest
  rw [computeWotsChainEnds, rest, h.iterateHash_add, total]
  simp [computeWotsPublicKey]

end Wots

section Tree

/-- The leaf of an epoch. -/
def leafAt (skSeed : SkSeed) (param : PublicParam) (epoch : Word) : Digest :=
  let sk := deriveWotsSecretKey U skSeed epoch
  let publicKey := computeWotsPublicKey U param epoch sk
  wotsLeaf U param epoch publicKey

def buildSubtree (skSeed : SkSeed) (param : PublicParam) (s subtreeH : Nat) :
    Option (List (List Digest)) :=
  let width := 1 <<< subtreeH
  let baseEpoch := s <<< subtreeH
  let leaves := (List.range width).map fun j => leafAt U skSeed param (BitVec.ofNat 32 (baseEpoch + j))
  buildLevels subtreeH (fun h j =>
    let baseIndex := s <<< (subtreeH - h)
    U.merkleNode param h (BitVec.ofNat 32 (baseIndex + j))) leaves subtreeH

def buildTop (param : PublicParam) (subtreeRoots : List Digest) (subtreeH topH : Nat) :
    Option (List (List Digest)) :=
  buildLevels topH (fun r i => U.merkleNode param (subtreeH + r) (BitVec.ofNat 32 i))
    subtreeRoots topH

def climb (param : PublicParam) (leaf : Digest) (epoch : Word)
    (merklePath : Vector Digest logLifetime) : Digest :=
  (List.finRange logLifetime).foldl (fun current (level : Fin logLifetime) =>
    let parentIndex : Word := (epoch.setWidth 64 >>> (level.val + 1)).setWidth 32
    if epoch >>> level.val &&& 1 = 0 then
      U.merkleNode param (level + 1) parentIndex current merklePath[level]
    else U.merkleNode param (level + 1) parentIndex merklePath[level] current) leaf

def climbUpper (param : PublicParam) (subtreeRoot : Digest) (upper : List Digest) (height : Nat) :
    Digest :=
  upper.zipIdx.foldl (fun current (sibling, i) =>
    U.merkleNode param (height + i + 1) 0 current sibling) subtreeRoot

def deriveUpperSiblings (skSeed : SkSeed) (levels : Nat) : List Digest :=
  (rows (U.keyedXof skSeed (asciiBytes upperSiblingDomain) (levels * 16)) :
    Vector Digest levels).toList

/-- All levels of the tree over the whole key. -/
def materializedTree (skSeed : SkSeed) (param : PublicParam) (height : Nat) :
    Option (List (List Digest)) :=
  buildLevels height (fun h i => U.merkleNode param h (BitVec.ofNat 32 i))
    ((List.range (1 <<< height)).map fun epoch => leafAt U skSeed param (BitVec.ofNat 32 epoch))
    height

/-- The tree of a key; the nodes over level `h` are hashed as level `h + 1`. -/
def tree (skSeed : SkSeed) (param : PublicParam) : TreeHash Digest where
  leaf := leafAt U skSeed param
  node h := U.merkleNode param (h + 1)

variable (skSeed : SkSeed) (param : PublicParam)

theorem buildSubtree_tree (s subtreeH : Nat) :
    buildSubtree U skSeed param s subtreeH = some (bottomLevels (tree U skSeed param) subtreeH s) := by
  rw [← buildSubtree_eq, buildSubtree, TreeHash.buildSubtree]
  apply buildLevels_congr
  intro h j
  rfl

theorem buildTop_tree (height subtreeH : Nat) :
    buildTop U param ((List.range (2 ^ (height - subtreeH))).map
      ((tree U skSeed param).value subtreeH)) subtreeH (height - subtreeH) =
      some (topLevels (tree U skSeed param) height subtreeH) := by
  rw [← buildTop_eq, buildTop, TreeHash.buildTop]
  apply buildLevels_congr
  intro h j
  rfl

theorem materializedTree_eq (height : Nat) :
    materializedTree U skSeed param height =
      some (filled height (tree U skSeed param).value height) := by
  rw [materializedTree, Nat.one_shiftLeft]
  exact buildLevels_eq (tree U skSeed param).value (fun h _ i _ => rfl) height (Nat.le_refl _)

/-- The walk of a verifier is a climb in the tree of any seed. -/
theorem climb_tree (leaf : Digest) (epoch : Word) (merklePath : Vector Digest logLifetime)
    (path : Nat → Digest) (same : ∀ h : Fin logLifetime, merklePath[h] = path h) :
    climb U param leaf epoch merklePath =
      (tree U skSeed param).climb path epoch.toNat leaf logLifetime := by
  have walk := foldl_finRange (n := logLifetime) (f := fun current (level : Fin logLifetime) =>
      let parentIndex : Word := (epoch.setWidth 64 >>> (level.val + 1)).setWidth 32
      if epoch >>> level.val &&& 1 = 0 then
        U.merkleNode param (level + 1) parentIndex current merklePath[level]
      else U.merkleNode param (level + 1) parentIndex merklePath[level] current)
    ((tree U skSeed param).climb path epoch.toNat leaf) fun level => by
      have parent : (epoch.setWidth 64 >>> (level.val + 1)).setWidth 32 =
          BitVec.ofNat 32 (epoch.toNat >>> (level.val + 1)) := by
        apply BitVec.eq_of_toNat_eq
        have small := epoch.isLt
        simp only [BitVec.toNat_setWidth, BitVec.toNat_ushiftRight, BitVec.toNat_ofNat]
        rw [Nat.mod_eq_of_lt (by omega : epoch.toNat < 2 ^ 64)]
      have bit : epoch >>> level.val &&& 1 = 0 ↔ (epoch.toNat >>> level.val) % 2 = 0 := by
        rw [← BitVec.toNat_inj]
        simp [Nat.and_one_is_mod]
      simp only [TreeHash.climb, tree, bit, same, ← parent]
  exact walk

theorem climbUpper_tree (subtreeRoot : Digest) (upper : List Digest) (height : Nat)
    (path : Nat → Digest) (same : ∀ i < upper.length, upper[i]? = some (path (height + i))) :
    climbUpper U param subtreeRoot upper height =
      (tree U skSeed param).climbLeft path height subtreeRoot upper.length := by
  have walk (n : Nat) (inside : n ≤ upper.length) :
      (upper.zipIdx.take n).foldl (fun current (x : Digest × Nat) =>
        U.merkleNode param (height + x.2 + 1) 0 current x.1) subtreeRoot =
        (tree U skSeed param).climbLeft path height subtreeRoot n := by
    induction n with
    | zero => rfl
    | succ n ih =>
      have next : upper.zipIdx[n]? = some (path (height + n), n) := by
        rw [List.getElem?_zipIdx, same n inside]
        simp
      rw [List.take_add_one, List.foldl_append, ih (Nat.le_of_succ_le inside), next]
      rfl
  have whole := walk upper.length (Nat.le_refl _)
  rwa [List.take_of_length_le (by simp)] at whole

end Tree

section KeyPair

structure KeyExhaustedError where
  capacity : Nat
  deriving DecidableEq

structure XmssSignature where
  epoch : Word
  publicParam : PublicParam
  randomness : Randomness
  chainTips : Vector Digest wotsLen
  merklePath : Vector Digest logLifetime
  root : Digest
  deriving DecidableEq

structure XmssKeyPair where
  pkSeed : PublicParam
  root : Digest
  skSeed : SkSeed
  height : Nat
  subtreeH : Nat
  top : List (List Digest)
  /-- The cached subtree, once there is one. -/
  bottom : Option (Nat × List (List Digest))
  upper : List Digest
  nextLeaf : BitVec 64

def xmssExpand (pkSeed : PublicParam) (epoch : Word) (randomness : Randomness)
    (chainTips : Vector Digest wotsLen) (merklePath : Vector Digest logLifetime)
    (message : Message) : Option XmssSignature := do
  let param := buildWotsDomainParam pkSeed
  let encoding ← U.wotsEncode message epoch param randomness
  let chainEnds := computeWotsChainEnds U param epoch chainTips encoding
  let leaf := wotsLeaf U param epoch chainEnds
  let root := climb U param leaf epoch merklePath
  return { epoch, publicParam := param, randomness, chainTips, merklePath, root }

namespace XmssKeyPair

def generateFromSeedWithSubtreeH (skSeed : SkSeed) (pkSeed : PublicParam)
    (height subtreeH : Nat) : Checked String XmssKeyPair := do
  check (1 ≤ height ∧ height ≤ logLifetime) "XMSS height must be in 1..=32"
  check (1 ≤ subtreeH ∧ subtreeH ≤ height) "subtree height must be in 1..=height"
  let param := buildWotsDomainParam pkSeed
  let topH := height - subtreeH
  let subtreeRoots ← fetch ((List.range (1 <<< topH)).mapM fun s => do
    let levels ← buildSubtree U skSeed param s subtreeH
    readNode levels subtreeH 0)
  let top ← fetch (buildTop U param subtreeRoots subtreeH topH)
  let upper := deriveUpperSiblings U skSeed (logLifetime - height)
  let realRoot ← fetch (readNode top topH 0)
  let root := climbUpper U param realRoot upper height
  return { pkSeed, root, skSeed, height, subtreeH, top, bottom := none, upper, nextLeaf := 0 }

def capacity (kp : XmssKeyPair) : Nat := 1 <<< kp.height

def setNextLeaf (kp : XmssKeyPair) (nextLeaf : BitVec 64) : XmssKeyPair := { kp with nextLeaf }

/-- The bottom subtree `s`, from the cache or built into it. -/
def cached (kp : XmssKeyPair) (s : Nat) : Option (List (List Digest) × XmssKeyPair) :=
  match kp.bottom with
  | some (held, levels) => if held = s then some (levels, kp) else build
  | none => build
where
  build : Option (List (List Digest) × XmssKeyPair) := do
    let param := buildWotsDomainParam kp.pkSeed
    let built ← buildSubtree U kp.skSeed param s kp.subtreeH
    return (built, { kp with bottom := some (s, built) })

/-- The path of an epoch and the key pair with the subtree it went through. -/
def merklePath (kp : XmssKeyPair) (epoch : Word) :
    Option (Vector Digest logLifetime × XmssKeyPair) := do
  let s := epoch.toNat >>> kp.subtreeH
  let (bottom, kp) ← kp.cached U s
  let real ← siblings kp.height kp.subtreeH bottom kp.top s epoch.toNat
  let path ← asVector logLifetime (real ++ kp.upper)
  return (path, kp)

/-- The signature and the key pair after the call. `none`: the search for a randomness does not
end. -/
def sign (kp : XmssKeyPair) (rng : Rng) (message : Message) :
    Option (Checked KeyExhaustedError (XmssSignature × XmssKeyPair)) :=
  if kp.capacity ≤ kp.nextLeaf.toNat then some (.error (.check ⟨kp.capacity⟩))
  else
    let epoch : Word := kp.nextLeaf.setWidth 32
    let kp := { kp with nextLeaf := kp.nextLeaf + 1 }
    let param := buildWotsDomainParam kp.pkSeed
    (U.findRandomness message epoch param rng).map fun (randomness, encoding) => do
      let sk := deriveWotsSecretKey U kp.skSeed epoch
      let chainTips := computeWotsSignature U param epoch sk encoding
      let (merklePath, kp) ← fetch (kp.merklePath U epoch)
      return ({ epoch, publicParam := param, randomness, chainTips, merklePath, root := kp.root },
        kp)

/-- A call on the key pair. -/
inductive Call (Rng : Type) where
  | setNextLeaf (nextLeaf : BitVec 64)
  | sign (rng : Rng) (message : Message)

/-- The key pair after a call that returns; a refusal leaves it as it is. -/
def call (kp : XmssKeyPair) : Call Rng → Option XmssKeyPair
  | .setNextLeaf nextLeaf => some (kp.setNextLeaf nextLeaf)
  | .sign rng message => do
    match ← kp.sign U rng message with
    | .ok (_, kp) => some kp
    | .error (.check _) => some kp
    | .error .outOfBounds => none

def calls (kp : XmssKeyPair) (l : List (Call Rng)) : Option XmssKeyPair := l.foldlM (call U) kp

end XmssKeyPair

end KeyPair

section Wire

abbrev xmssSigBytes : Nat := 4 + 24 + wotsLen * 16 + logLifetime * 16

/-- The fields on the wire: epoch, randomness, chain tips and path. -/
def xmssSigCodec :
    Codec (Word × Randomness × Vector Digest wotsLen × Vector Digest logLifetime) :=
  Codec.u32.seq ((Codec.array 24).seq
    (((Codec.array 16).loop wotsLen).seq ((Codec.array 16).loop logLifetime)))

def writeXmssSig (sig : XmssSignature) : List Byte :=
  (le32Bytes sig.epoch).toList ++ (sig.randomness.toList ++
    (sig.chainTips.toList.flatMap Vector.toList ++ sig.merklePath.toList.flatMap Vector.toList))

def readXmssSig (buf : List Byte) (pkSeed : PublicParam) (message : Message) :
    Option XmssSignature := do
  if buf.length ≠ xmssSigBytes then none
  else
    let ((epoch, randomness, chainTips, merklePath), _) ← xmssSigCodec.read buf
    xmssExpand U pkSeed epoch randomness chainTips merklePath message

/-- `chunks_exact`. -/
def chunksExact (size : Nat) (l : List Byte) : List (List Byte) :=
  (List.range (l.length / size)).map fun i => (l.drop (i * size)).take size

def writeXmssSigs (sigs : List XmssSignature) : List Byte := sigs.flatMap writeXmssSig

def readXmssSigs (buf : List Byte) (pkSeed : PublicParam) (message : Message) :
    Option (List XmssSignature) :=
  if buf = [] ∨ buf.length % xmssSigBytes ≠ 0 then none
  else (chunksExact xmssSigBytes buf).mapM fun c => readXmssSig U c pkSeed message

theorem writeXmssSig_eq (sig : XmssSignature) : writeXmssSig sig =
    xmssSigCodec.write (sig.epoch, sig.randomness, sig.chainTips, sig.merklePath) := rfl

theorem length_writeXmssSig (sig : XmssSignature) : (writeXmssSig sig).length = xmssSigBytes := by
  rw [writeXmssSig_eq, Codec.length_write]
  rfl

/-- A reader of a written signature expands its fields again. -/
theorem readXmssSig_write (sig : XmssSignature) (pkSeed : PublicParam) (message : Message) :
    readXmssSig U (writeXmssSig sig) pkSeed message =
      xmssExpand U pkSeed sig.epoch sig.randomness sig.chainTips sig.merklePath message := by
  have size := length_writeXmssSig sig
  have back := xmssSigCodec.read_eq_some.mpr ((writeXmssSig_eq sig).trans (List.append_nil _).symm)
  rw [readXmssSig, if_neg (not_not.mpr size), back]
  rfl

theorem chunksExact_append {size : Nat} {block : List Byte} (positive : 0 < size)
    (whole : block.length = size) (l : List Byte) :
    chunksExact size (block ++ l) = block :: chunksExact size l := by
  have count : (size + l.length) / size = l.length / size + 1 := Nat.add_div_left _ positive
  rw [chunksExact, chunksExact, List.length_append, whole, count, List.range_succ_eq_map,
    List.map_cons, List.map_map, Nat.zero_mul, List.drop_zero, List.take_left' whole]
  congr 1
  apply List.map_congr_left
  intro i _
  have skip : (i + 1) * size = block.length + i * size := by
    rw [whole, Nat.succ_mul, Nat.add_comm]
  simp only [Function.comp_apply, Nat.succ_eq_add_one, skip, List.drop_length_add_append]

/-- A reader of written signatures expands each. -/
theorem readXmssSigs_write {sigs : List XmssSignature} (some : sigs ≠ []) (pkSeed : PublicParam)
    (message : Message) : readXmssSigs U (writeXmssSigs sigs) pkSeed message =
      sigs.mapM fun sig =>
        xmssExpand U pkSeed sig.epoch sig.randomness sig.chainTips sig.merklePath message := by
  have size : (writeXmssSigs sigs).length = sigs.length * xmssSigBytes := by
    simp [writeXmssSigs, List.length_flatMap, length_writeXmssSig]
  have chunks : chunksExact xmssSigBytes (writeXmssSigs sigs) = sigs.map writeXmssSig := by
    clear some size
    induction sigs with
    | nil => rfl
    | cons sig sigs ih =>
      rw [writeXmssSigs, List.flatMap_cons,
        chunksExact_append (by decide) (length_writeXmssSig sig), List.map_cons, ← ih]
      rfl
  have written : ¬ (writeXmssSigs sigs = [] ∨ (writeXmssSigs sigs).length % xmssSigBytes ≠ 0) := by
    have positive := Nat.mul_pos (List.length_pos_iff.mpr some) (show 0 < xmssSigBytes by decide)
    rw [← List.length_eq_zero_iff, size, Nat.mul_mod_left]
    omega
  rw [readXmssSigs, if_neg written, chunks, List.mapM_map]
  simp only [Function.comp_def, readXmssSig_write]

/-- A signature that is read carries the parameter it is read under. -/
theorem readXmssSig_param {buf : List Byte} {pkSeed : PublicParam} {message : Message}
    {sig : XmssSignature} (read : readXmssSig U buf pkSeed message = some sig) :
    sig.publicParam = pkSeed := by
  simp only [readXmssSig, Option.ite_none_left_eq_some, Option.bind_eq_bind, Option.bind_eq_some_iff,
    xmssExpand, Option.pure_def, Option.some.injEq] at read
  obtain ⟨_, _, _, _, _, rfl⟩ := read
  rfl

theorem exists_of_mem_mapM {α β : Type} {f : α → Option β} {l : List α} {r : List β}
    (mapped : l.mapM f = some r) : ∀ b ∈ r, ∃ a ∈ l, f a = some b := by
  induction l generalizing r with
  | nil =>
    cases mapped
    simp
  | cons a l ih =>
    simp only [List.mapM_cons, Option.bind_eq_bind, Option.bind_eq_some_iff, Option.pure_def,
      Option.some.injEq] at mapped
    obtain ⟨b, here, rest, there, rfl⟩ := mapped
    intro c member
    rcases List.mem_cons.mp member with rfl | later
    · exact ⟨a, List.mem_cons_self, here⟩
    · obtain ⟨a', inside, found⟩ := ih there c later
      exact ⟨a', List.mem_cons_of_mem a inside, found⟩

theorem readXmssSigs_param {buf : List Byte} {pkSeed : PublicParam} {message : Message}
    {sigs : List XmssSignature} (read : readXmssSigs U buf pkSeed message = some sigs) :
    ∀ sig ∈ sigs, sig.publicParam = pkSeed := by
  rw [readXmssSigs, Option.ite_none_left_eq_some] at read
  intro sig member
  obtain ⟨c, _, each⟩ := exists_of_mem_mapM read.2 sig member
  exact readXmssSig_param U each

end Wire

section Run

namespace XmssKeyPair

/-- The tree of the key. -/
abbrev keyTree (kp : XmssKeyPair) : TreeHash Digest := tree U kp.skSeed kp.pkSeed

/-- The invariant: what is stored are parts of the tree of the key. -/
structure Valid (kp : XmssKeyPair) : Prop where
  height_le : kp.height ≤ logLifetime
  subtreeH_le : kp.subtreeH ≤ kp.height
  top : kp.top = topLevels (kp.keyTree U) kp.height kp.subtreeH
  bottom : ∀ s levels, kp.bottom = some (s, levels) →
    levels = bottomLevels (kp.keyTree U) kp.subtreeH s
  upper : kp.upper = deriveUpperSiblings U kp.skSeed (logLifetime - kp.height)
  root : kp.root = climbUpper U kp.pkSeed ((kp.keyTree U).value kp.height 0) kp.upper kp.height

/-- What no call changes. -/
structure SameKey (kp kp' : XmssKeyPair) : Prop where
  pkSeed : kp'.pkSeed = kp.pkSeed
  root : kp'.root = kp.root
  skSeed : kp'.skSeed = kp.skSeed
  height : kp'.height = kp.height

theorem SameKey.refl (kp : XmssKeyPair) : SameKey kp kp := ⟨rfl, rfl, rfl, rfl⟩

theorem SameKey.trans {kp kp' kp'' : XmssKeyPair} (first : SameKey kp kp')
    (second : SameKey kp' kp'') : SameKey kp kp'' where
  pkSeed := second.pkSeed.trans first.pkSeed
  root := second.root.trans first.root
  skSeed := second.skSeed.trans first.skSeed
  height := second.height.trans first.height

/-- The sibling at level `h` on the path of an epoch. -/
def sibling (kp : XmssKeyPair) (epoch : Word) (h : Nat) : Digest :=
  if h < kp.height then (kp.keyTree U).value h ((epoch.toNat >>> h) ^^^ 1)
  else kp.upper[h - kp.height]?.getD (.replicate _ 0)

variable {U} {kp : XmssKeyPair}

theorem generate_valid (skSeed : SkSeed) (pkSeed : PublicParam) {height subtreeH : Nat}
    (inside : 1 ≤ height ∧ height ≤ logLifetime) (split : 1 ≤ subtreeH ∧ subtreeH ≤ height) :
    ∃ kp, generateFromSeedWithSubtreeH U skSeed pkSeed height subtreeH = .ok kp ∧ kp.Valid U ∧
      kp.pkSeed = pkSeed ∧ kp.skSeed = skSeed ∧ kp.height = height := by
  have roots : (List.range (1 <<< (height - subtreeH))).mapM (fun s => do
      let levels ← buildSubtree U skSeed pkSeed s subtreeH
      readNode levels subtreeH 0) =
      some ((List.range (2 ^ (height - subtreeH))).map ((tree U skSeed pkSeed).value subtreeH)) := by
    rw [Nat.one_shiftLeft]
    apply mapM_range
    intro s _
    have root := readNode_filled (w := subtreeH)
      (fun h j => (tree U skSeed pkSeed).value h (s * 2 ^ (subtreeH - h) + j)) (Nat.le_refl _)
      (Nat.two_pow_pos (subtreeH - subtreeH))
    simp only [buildSubtree_tree, bottomLevels]
    simpa using root
  have realRoot : readNode (topLevels (tree U skSeed pkSeed) height subtreeH) (height - subtreeH) 0 =
      some ((tree U skSeed pkSeed).value height 0) := by
    rw [topLevels, readNode_filled _ (Nat.le_refl _) (Nat.two_pow_pos _),
      Nat.add_sub_cancel' split.2]
  let kp : XmssKeyPair :=
    { pkSeed, skSeed, height, subtreeH, bottom := none, nextLeaf := 0
      root := climbUpper U pkSeed ((tree U skSeed pkSeed).value height 0)
        (deriveUpperSiblings U skSeed (logLifetime - height)) height
      top := topLevels (tree U skSeed pkSeed) height subtreeH
      upper := deriveUpperSiblings U skSeed (logLifetime - height) }
  have made : generateFromSeedWithSubtreeH U skSeed pkSeed height subtreeH = .ok kp := by
    rw [generateFromSeedWithSubtreeH, check_true inside, check_true split]
    simp only [bind, Except.bind] at roots ⊢
    simp only [buildWotsDomainParam, roots, fetch_some, buildTop_tree, realRoot]
    rfl
  exact ⟨kp, made, ⟨inside.2, split.2, rfl, by simp [kp], rfl, rfl⟩, rfl, rfl, rfl⟩

theorem Valid.length_upper (valid : kp.Valid U) : kp.upper.length = logLifetime - kp.height := by
  simp [valid.upper, deriveUpperSiblings]

/-- Cached or built, the subtree is the one of the tree. -/
theorem Valid.cached_eq (valid : kp.Valid U) (s : Nat) :
    ∃ bottom, kp.cached U s =
        some (bottomLevels (kp.keyTree U) kp.subtreeH s, { kp with bottom }) ∧
      Valid U { kp with bottom } := by
  have built : cached.build U kp s = some (bottomLevels (kp.keyTree U) kp.subtreeH s,
      { kp with bottom := some (s, bottomLevels (kp.keyTree U) kp.subtreeH s) }) := by
    simp [cached.build, buildSubtree_tree, buildWotsDomainParam]
  have fresh : Valid U { kp with bottom := some (s, bottomLevels (kp.keyTree U) kp.subtreeH s) } := by
    constructor
    · exact valid.height_le
    · exact valid.subtreeH_le
    · exact valid.top
    · intro s' levels held
      obtain ⟨rfl, rfl⟩ := Prod.mk.inj (Option.some.inj held)
      rfl
    · exact valid.upper
    · exact valid.root
  cases held : kp.bottom with
  | none => exact ⟨_, by rw [cached, held]; exact built, fresh⟩
  | some pair =>
    obtain ⟨s', levels⟩ := pair
    by_cases same : s' = s
    · subst same
      have levelsEq := valid.bottom _ _ held
      subst levelsEq
      have hit : kp.cached U s' = some (bottomLevels (kp.keyTree U) kp.subtreeH s', kp) := by
        simp [cached, held]
      exact ⟨kp.bottom, hit, valid⟩
    · exact ⟨_, by simp only [cached, held, if_neg same]; exact built, fresh⟩

theorem Valid.merklePath_eq (valid : kp.Valid U) {epoch : Word} (inside : epoch.toNat < 2 ^ kp.height) :
    ∃ bottom, kp.merklePath U epoch = some (Vector.ofFn fun h : Fin logLifetime =>
        kp.sibling U epoch h, { kp with bottom }) ∧ Valid U { kp with bottom } := by
  obtain ⟨bottom, subtree, validNext⟩ := valid.cached_eq (epoch.toNat >>> kp.subtreeH)
  have real := siblings_eq (kp.keyTree U) valid.subtreeH_le inside epoch.isLt
  have total : kp.height + (logLifetime - kp.height) = logLifetime :=
    Nat.add_sub_cancel' valid.height_le
  have whole : asVector logLifetime ((List.range kp.height).map (fun h =>
      (kp.keyTree U).value h ((epoch.toNat >>> h) ^^^ 1)) ++ kp.upper) =
      some (Vector.ofFn fun h : Fin logLifetime => kp.sibling U epoch h) := by
    apply asVector_eq
    apply List.ext_getElem
    · simp [valid.length_upper, total]
    intro h _ below
    have hh : h < logLifetime := by simpa using below
    simp only [Vector.getElem_toList, Vector.getElem_ofFn, sibling]
    by_cases low : h < kp.height
    · rw [List.getElem_append_left (by simpa using low), if_pos low]
      simp
    · have above : h - kp.height < kp.upper.length := by
        rw [valid.length_upper]
        omega
      rw [List.getElem_append_right (by simpa using low), if_neg low]
      simp [above]
  refine ⟨bottom, ?_, validNext⟩
  simp [merklePath, subtree, valid.top, real, whole]

/-- The siblings of an epoch lead to the root. -/
theorem Valid.climb_sibling (valid : kp.Valid U) {epoch : Word} (inside : epoch.toNat < 2 ^ kp.height) :
    climb U kp.pkSeed (leafAt U kp.skSeed kp.pkSeed epoch) epoch
      (Vector.ofFn fun h : Fin logLifetime => kp.sibling U epoch h) = kp.root := by
  have real : ∀ h < kp.height, kp.sibling U epoch h =
      (kp.keyTree U).value h ((epoch.toNat >>> h) ^^^ 1) := fun h below => if_pos below
  have above : ∀ i < kp.upper.length, kp.upper[i]? = some (kp.sibling U epoch (kp.height + i)) := by
    intro i hi
    simp [sibling, hi]
  have leaf : leafAt U kp.skSeed kp.pkSeed epoch = (kp.keyTree U).value 0 epoch.toNat := by
    simp [TreeHash.value, tree]
  have total : kp.height + kp.upper.length = logLifetime := by
    rw [valid.length_upper]
    exact Nat.add_sub_cancel' valid.height_le
  rw [climb_tree U kp.skSeed kp.pkSeed _ _ _ (kp.sibling U epoch) (by simp), leaf, ← total,
    TreeHash.climb_root _ _ inside real, valid.root,
    climbUpper_tree U kp.skSeed kp.pkSeed _ _ _ _ above]

variable (U) in
/-- A response of a key pair: the next epoch, the path of the materialized tree with the derived
siblings above it, and what the wire form is read back to. -/
structure Signed (kp kp' : XmssKeyPair) (message : Message) (sig : XmssSignature) : Prop where
  room : kp.nextLeaf.toNat < 2 ^ kp.height
  epoch : sig.epoch.toNat = kp.nextLeaf.toNat
  nextLeaf : kp'.nextLeaf.toNat = kp.nextLeaf.toNat + 1
  read_write : readXmssSig U (writeXmssSig sig) kp.pkSeed message = some sig
  root : sig.root = kp.root
  climb : climb U kp.pkSeed (leafAt U kp.skSeed kp.pkSeed sig.epoch) sig.epoch sig.merklePath = kp.root
  path : ∃ levels, materializedTree U kp.skSeed kp.pkSeed kp.height = some levels ∧
    ∀ h : Fin logLifetime, h.val < kp.height →
      readNode levels h ((sig.epoch.toNat >>> h.val) ^^^ 1) = some sig.merklePath[h]
  above : ∀ h : Fin logLifetime, kp.height ≤ h.val →
    (deriveUpperSiblings U kp.skSeed (logLifetime - kp.height))[h - kp.height]? =
      some sig.merklePath[h]

theorem sibling_materialized {epoch : Word} {h : Nat} (low : h < kp.height)
    (inside : epoch.toNat < 2 ^ kp.height) :
    readNode (filled kp.height (kp.keyTree U).value kp.height) h ((epoch.toNat >>> h) ^^^ 1) =
      some (kp.sibling U epoch h) := by
  obtain ⟨e, depth⟩ : ∃ e, kp.height = h + (e + 1) := ⟨kp.height - h - 1, by omega⟩
  have block := xor_one_div (epoch.toNat >>> h) e
  rw [Nat.shiftRight_eq_div_pow, Nat.div_div_eq_div_mul, ← Nat.pow_add, ← depth,
    Nat.div_eq_of_lt inside] at block
  have below : (epoch.toNat >>> h) ^^^ 1 < 2 ^ (kp.height - h) := by
    rw [Nat.shiftRight_eq_div_pow, show kp.height - h = e + 1 by omega]
    exact (Nat.div_eq_zero_iff_lt (Nat.two_pow_pos _)).mp block
  rw [readNode_filled _ (Nat.le_of_lt low) below, sibling, if_pos low]

/-- The expansion of what was signed is the signature. -/
theorem Valid.expand_signed (valid : kp.Valid U) (consistent : U.Consistent) {epoch : Word}
    (inside : epoch.toNat < 2 ^ kp.height) {message : Message} {randomness : Randomness}
    {encoding : Encoding}
    (encodes : U.wotsEncode message epoch kp.pkSeed randomness = some encoding) :
    let chainTips := computeWotsSignature U kp.pkSeed epoch (deriveWotsSecretKey U kp.skSeed epoch)
      encoding
    let merklePath := Vector.ofFn fun h : Fin logLifetime => kp.sibling U epoch h
    xmssExpand U kp.pkSeed epoch randomness chainTips merklePath message =
      some { epoch, publicParam := kp.pkSeed, randomness, chainTips, merklePath, root := kp.root } := by
  have ends := computeWotsChainEnds_signature U consistent kp.pkSeed epoch
    (deriveWotsSecretKey U kp.skSeed epoch) (consistent.wotsEncode_le encodes)
  have root := valid.climb_sibling inside
  intro chainTips merklePath
  simp only [xmssExpand, buildWotsDomainParam, encodes, Option.bind_eq_bind, Option.bind_some]
  rw [ends]
  exact congrArg (fun root => some (XmssSignature.mk epoch kp.pkSeed randomness chainTips
    merklePath root)) root

/-- A call of `sign`: refused exactly when the leaves are used up; a signature is the one of
epoch `next_leaf`, whatever was cached. -/
theorem Valid.sign_cases (valid : kp.Valid U) (consistent : U.Consistent) (rng : Rng)
    (message : Message) :
    match kp.sign U rng message with
    | none => kp.nextLeaf.toNat < 2 ^ kp.height ∧
        U.findRandomness message (kp.nextLeaf.setWidth 32) kp.pkSeed rng = none
    | some (.error e) => 2 ^ kp.height ≤ kp.nextLeaf.toNat ∧ e = .check ⟨2 ^ kp.height⟩
    | some (.ok (sig, kp')) => Signed U kp kp' message sig ∧ kp'.Valid U ∧ SameKey kp kp' := by
  have capacity : kp.capacity = 2 ^ kp.height := Nat.one_shiftLeft _
  by_cases used : 2 ^ kp.height ≤ kp.nextLeaf.toNat
  · simp [sign, capacity, used]
  have room : kp.nextLeaf.toNat < 2 ^ kp.height := Nat.lt_of_not_le used
  have small : 2 ^ kp.height ≤ 2 ^ 32 := Nat.pow_le_pow_right (by decide) valid.height_le
  have epoch : (kp.nextLeaf.setWidth 32).toNat = kp.nextLeaf.toNat := by
    rw [BitVec.toNat_setWidth]
    exact Nat.mod_eq_of_lt (by omega)
  cases found : U.findRandomness message (kp.nextLeaf.setWidth 32) kp.pkSeed rng with
  | none => simp [sign, capacity, used, buildWotsDomainParam, found, room]
  | some drawn =>
    obtain ⟨randomness, encoding⟩ := drawn
    have encodes := consistent.findRandomness_encodes found
    have inside : (kp.nextLeaf.setWidth 32).toNat < 2 ^ kp.height := by rw [epoch]; exact room
    let next : XmssKeyPair := { kp with nextLeaf := kp.nextLeaf + 1 }
    have validNext : next.Valid U := ⟨valid.height_le, valid.subtreeH_le, valid.top, valid.bottom,
      valid.upper, valid.root⟩
    obtain ⟨bottom, path, validAfter⟩ := validNext.merklePath_eq inside
    have signed : kp.sign U rng message = some (.ok
        ({ epoch := kp.nextLeaf.setWidth 32, publicParam := kp.pkSeed, randomness, root := kp.root,
           chainTips := computeWotsSignature U kp.pkSeed (kp.nextLeaf.setWidth 32)
             (deriveWotsSecretKey U kp.skSeed (kp.nextLeaf.setWidth 32)) encoding
           merklePath := Vector.ofFn fun h : Fin logLifetime =>
             kp.sibling U (kp.nextLeaf.setWidth 32) h },
          { next with bottom })) := by
      rw [sign, capacity, if_neg used]
      simp only [buildWotsDomainParam, found, Option.map_some]
      rw [show merklePath U { kp with nextLeaf := kp.nextLeaf + 1 } (kp.nextLeaf.setWidth 32) = _
        from path]
      rfl
    simp only [signed]
    constructor
    · constructor
      · exact room
      · exact epoch
      · have one : (1 : BitVec 64).toNat = 1 := rfl
        change (kp.nextLeaf + 1).toNat = _
        rw [BitVec.toNat_add, one]
        exact Nat.mod_eq_of_lt (by omega)
      · rw [readXmssSig_write]
        exact valid.expand_signed consistent inside encodes
      · rfl
      · exact valid.climb_sibling inside
      · refine ⟨_, materializedTree_eq U kp.skSeed kp.pkSeed kp.height, fun h low => ?_⟩
        simp only [getElem_fin, Vector.getElem_ofFn]
        exact sibling_materialized low inside
      · intro h high
        have here : h.val - kp.height < kp.upper.length := by
          have := h.isLt
          rw [valid.length_upper]
          omega
        simp [sibling, ← valid.upper, Nat.not_lt.mpr high, here]
    · exact ⟨validAfter, rfl, rfl, rfl, rfl⟩

theorem Valid.call_valid (valid : kp.Valid U) (consistent : U.Consistent) {c : Call Rng}
    {kp' : XmssKeyPair} (ran : kp.call U c = some kp') : kp'.Valid U ∧ SameKey kp kp' := by
  cases c with
  | setNextLeaf nextLeaf =>
    obtain rfl := Option.some.inj ran
    exact ⟨⟨valid.height_le, valid.subtreeH_le, valid.top, valid.bottom, valid.upper, valid.root⟩,
      rfl, rfl, rfl, rfl⟩
  | sign rng message =>
    have cases := valid.sign_cases consistent rng message
    simp only [call] at ran
    cases outcome : kp.sign U rng message with
    | none => simp [outcome] at ran
    | some result =>
      rw [outcome] at cases ran
      obtain e | ⟨sig, next⟩ := result
      · obtain ⟨_, rfl⟩ := cases
        obtain rfl := Option.some.inj ran
        exact ⟨valid, .refl kp⟩
      · obtain rfl := Option.some.inj ran
        exact cases.2

theorem Valid.calls_valid (l : List (Call Rng)) (valid : kp.Valid U) (consistent : U.Consistent)
    {kp' : XmssKeyPair} (ran : kp.calls U l = some kp') : kp'.Valid U ∧ SameKey kp kp' := by
  induction l generalizing kp with
  | nil =>
    obtain rfl := Option.some.inj ran
    exact ⟨valid, .refl kp⟩
  | cons c l ih =>
    simp only [calls, List.foldlM_cons, Option.bind_eq_bind, Option.bind_eq_some_iff] at ran
    obtain ⟨next, first, rest⟩ := ran
    obtain ⟨validNext, same⟩ := valid.call_valid consistent first
    obtain ⟨validLast, same'⟩ := ih validNext rest
    exact ⟨validLast, same.trans same'⟩

end XmssKeyPair

open XmssKeyPair in
/-- A key of any height and split, after any calls: `sign` refuses exactly when the leaves are used
up, and otherwise signs with epoch `next_leaf` and advances it; the wire form of the signature is
read back to it with every derived field, its root is the key's and its path the one of the
materialized tree. -/
theorem sign_wire_expand (consistent : U.Consistent) (skSeed : SkSeed) (pkSeed : PublicParam)
    (height subtreeH : Nat) (inside : 1 ≤ height ∧ height ≤ logLifetime)
    (split : 1 ≤ subtreeH ∧ subtreeH ≤ height) :
    ∃ kp₀, generateFromSeedWithSubtreeH U skSeed pkSeed height subtreeH = .ok kp₀ ∧
      ∀ (l : List (Call Rng)) (kp : XmssKeyPair), kp₀.calls U l = some kp →
        kp.pkSeed = pkSeed ∧ kp.skSeed = skSeed ∧ kp.height = height ∧ kp.root = kp₀.root ∧
        ∀ (rng : Rng) (message : Message),
          match kp.sign U rng message with
          | none => kp.nextLeaf.toNat < 2 ^ height ∧
              U.findRandomness message (kp.nextLeaf.setWidth 32) pkSeed rng = none
          | some (.error e) => 2 ^ height ≤ kp.nextLeaf.toNat ∧ e = .check ⟨2 ^ height⟩
          | some (.ok (sig, kp')) => Signed U kp kp' message sig := by
  obtain ⟨kp₀, made, valid₀, rfl, rfl, rfl⟩ := generate_valid (U := U) skSeed pkSeed inside split
  refine ⟨kp₀, made, fun l kp ran => ?_⟩
  obtain ⟨valid, same⟩ := valid₀.calls_valid l consistent ran
  refine ⟨same.pkSeed, same.skSeed, same.height, same.root, fun rng message => ?_⟩
  have cases := valid.sign_cases consistent rng message
  rw [same.height, same.pkSeed] at cases
  split at cases
  · exact cases
  · exact cases
  · exact cases.1

/-- Crates to compute with: a walk adds its length, and every message has one encoding of sum 195. -/
def additive : Upstream Unit where
  merkleNode param level index left right := param ^^^ left ^^^ right.map (· + byteAt index 0 +
    BitVec.ofNat 8 level)
  iterateHash x steps _ _ _ _ := x.map (· + BitVec.ofNat 8 steps)
  recoverPublicKey tips encoding _ _ := Vector.ofFn fun i : Fin wotsLen =>
    tips[i].map (· + BitVec.ofNat 8 (maxSteps - encoding[i].toNat))
  wotsPublicKeyHash _ _ ends := ends.foldl (· ^^^ ·) (.replicate _ 0)
  wotsEncode _ _ _ _ := some (Vector.ofFn fun i : Fin wotsLen => if i.val < 27 then 5 else 4)
  findRandomness _ _ _ _ := some (.replicate _ 0,
    Vector.ofFn fun i : Fin wotsLen => if i.val < 27 then 5 else 4)
  keyedXof key _ n := Vector.ofFn fun i : Fin n => key[Fin.ofNat 32 i.val] + BitVec.ofNat 8 i

theorem additive_consistent : additive.Consistent where
  iterateHash_add x a b _ _ _ := by simp [additive, BitVec.add_assoc, BitVec.ofNat_add]
  recoverPublicKey_eq _ _ _ _ _ _ := by simp [additive]
  wotsEncode_le encodes i := by
    rw [← Option.some.inj encodes]
    simp only [getElem_fin, Vector.getElem_ofFn]
    split <;> decide
  findRandomness_encodes found := by
    obtain ⟨_, rfl⟩ := Prod.mk.inj (Option.some.inj found)
    rfl

open XmssKeyPair in
/-- Leaf 3 is the last of its subtree; leaf 4 needs the next one. -/
theorem sign_wire_expand_subtrees : ∃ kp₀ kp₁ kp₂ sig₁ sig₂,
    generateFromSeedWithSubtreeH additive (.replicate _ 7) (.replicate _ 1) 3 2 = .ok kp₀ ∧
      (kp₀.setNextLeaf 3).sign additive () (.replicate _ 0) = some (.ok (sig₁, kp₁)) ∧
      kp₁.sign additive () (.replicate _ 9) = some (.ok (sig₂, kp₂)) ∧
      (sig₁.epoch.toNat = 3 ∧ Signed additive (kp₀.setNextLeaf 3) kp₁ (.replicate _ 0) sig₁) ∧
      sig₂.epoch.toNat = 4 ∧ Signed additive kp₁ kp₂ (.replicate _ 9) sig₂ := by
  obtain ⟨kp₀, made, after⟩ := sign_wire_expand additive additive_consistent (.replicate _ 7)
    (.replicate _ 1) 3 2 ⟨by decide, by decide⟩ ⟨by decide, by decide⟩
  have signs (l : List (Call Unit)) (kp : XmssKeyPair) (ran : kp₀.calls additive l = some kp)
      (room : kp.nextLeaf.toNat < 8) (message : Message) :
      ∃ sig kp', kp.sign additive () message = some (.ok (sig, kp')) ∧
        Signed additive kp kp' message sig := by
    obtain ⟨_, _, _, _, outcome⟩ := after l kp ran
    have signed := outcome () message
    split at signed
    · cases signed.2
    · exact absurd signed.1 (Nat.not_le.mpr room)
    · next sig kp' returned => exact ⟨sig, kp', returned, signed⟩
  obtain ⟨sig₁, kp₁, returned₁, signed₁⟩ := signs [.setNextLeaf 3] (kp₀.setNextLeaf 3) rfl
    (show (3 : BitVec 64).toNat < 8 by decide) (.replicate _ 0)
  have ran : kp₀.calls additive [.setNextLeaf 3, .sign () (.replicate _ 0)] = some kp₁ := by
    have called : (kp₀.setNextLeaf 3).call additive (.sign () (.replicate _ 0)) = some kp₁ := by
      rw [call, returned₁]
      rfl
    change (kp₀.setNextLeaf 3).calls additive [.sign () (.replicate _ 0)] = some kp₁
    rw [calls, List.foldlM_cons, called]
    rfl
  have next : kp₁.nextLeaf.toNat = 4 := signed₁.nextLeaf
  obtain ⟨sig₂, kp₂, returned₂, signed₂⟩ := signs _ kp₁ ran (by omega) (.replicate _ 9)
  exact ⟨kp₀, kp₁, kp₂, sig₁, sig₂, made, returned₁, returned₂, ⟨signed₁.epoch, signed₁⟩,
    signed₂.epoch.trans next, signed₂⟩

end Run

end BlindSig.Binius
