import BlindSig.Kkw.XmssKeyPair
import BlindSig.Longfellow.Sha

/-! Target-sum WOTS+ and the stateful XMSS of longfellow. Its key pair is the two-level traversal of
the C sources over SHA-256; on top of that a signature holds what the prover expands from it: the
ends of the chains, the codeword and the calls along the path. -/
namespace BlindSig.Longfellow

open Kkw (XmssHashes XmssKeypair)

abbrev kXmssH : Nat := 32
abbrev kSubtreeH : Nat := 16
abbrev kSkSeedBytes : Nat := 32
abbrev kTargetSum : Nat := 195

abbrev SkSeed := Vector Byte kSkSeedBytes
abbrev Coords := Vector Byte kLen
abbrev AuthPath := Vector Node kXmssH

variable (S : Sha256)

section Keys

def kWotsPrfLabel : List Byte :=
  Kkw.chars ['b', 'l', 'i', 'n', 'd', '-', 'x', 'm', 's', 's', '-', 'l', 'o', 'n', 'g', 'f', 'e',
    'l', 'l', 'o', 'w', '/', 'w', 'o', 't', 's', '/', 'v', '1']

def kUpperSiblingLabel : List Byte :=
  Kkw.chars ['b', 'l', 'i', 'n', 'd', '-', 'x', 'm', 's', 's', '-', 'l', 'o', 'n', 'g', 'f', 'e',
    'l', 'l', 'o', 'w', '/', 'u', 'p', 'p', 'e', 'r', '-', 's', 'i', 'b', 'l', 'i', 'n', 'g', 's',
    '/', 'v', '1']

def deriveWotsPrfKey (skSeed : SkSeed) : Hash := S.hmac skSeed.toList kWotsPrfLabel

def deriveWotsSecret (wotsPrfKey : Hash) (pkSeed : PkSeed) (leaf chain : Word) : Node :=
  firstHalf (S.hmac wotsPrfKey.toList (pkSeed.toList ++ pushLe leaf 4 ++ pushLe chain 4))

def wotsSecretKey (pkSeed : PkSeed) (skSeed : SkSeed) (leafIndex : Word) : Vector Node kLen :=
  Vector.ofFn fun chain : Fin kLen =>
    deriveWotsSecret S (deriveWotsPrfKey S skSeed) pkSeed leafIndex (BitVec.ofNat 32 chain)

def deriveUpperSiblings (skSeed : SkSeed) (levels : Nat) : Vector Node levels :=
  let key := S.hmac skSeed.toList kUpperSiblingLabel
  Vector.ofFn fun i : Fin levels => firstHalf (S.hmac key.toList (pushLe (BitVec.ofNat 32 i) 4))

/-- The hash builders of a key pair; the secrets of its leaves depend on the public seed. -/
def xmssHashes (pkSeed : PkSeed) : XmssHashes where
  hashMessage := hashMessage S
  hashChainStep := hashChain S
  hashTreeNode := hashTreeNode S
  hashPublicKey := hashPublicKey S
  wotsGenSk := wotsSecretKey S pkSeed
  deriveUpperSiblings := deriveUpperSiblings S

end Keys

section Wots

def extractCoords (hash : Hash) : Coords × Bool := Kkw.xmssExtractCoords hash

structure GrindResult where
  tweakedMessage : List Byte
  coords : Coords
  nonce : Nonce

/-- The loop over the nonces of the generator, as far as they are listed. -/
def grindNonce (param : PkSeed) (epoch : Word) (message : List Byte) (nonces : List Nonce) :
    Option GrindResult :=
  ((xmssHashes S param).grindNonce param epoch message nonces).map fun (nonce, coords) =>
    { tweakedMessage := buildMessageHash param epoch nonce message, coords, nonce }

def computeWotsPkHashes (param : PkSeed) (epoch : Word) (sigHashes : Vector Node kLen)
    (coords : Coords) : Vector Node kLen :=
  (xmssHashes S param).wotsPkFromSig param epoch sigHashes coords

def computeWotsSignature (param : PkSeed) (epoch : Word) (sk : Vector Node kLen)
    (coords : Coords) : Vector Node kLen :=
  (xmssHashes S param).wotsSign param epoch sk coords

structure WotsSigningData where
  domainParam : PkSeed
  epoch : Word
  nonce : Nonce
  coords : Coords
  sigHashes : Vector Node kLen
  pkHashes : Vector Node kLen
  tweakedMessage : List Byte
  messageHash : Hash
  deriving DecidableEq

end Wots

section Verify

structure TreeHashCall where
  left : Node
  right : Node
  output : Node
  nodeIsLeft : Bool
  height : Word
  nodeIndex : Word
  deriving DecidableEq

structure XmssSignature where
  wots : WotsSigningData
  leaf : Node
  authPath : AuthPath
  xmssCalls : List TreeHashCall
  root : Node
  leafIndex : Word
  deriving DecidableEq

/-- The call at level `h` on the way up. -/
def authCall (param : PkSeed) (authPath : AuthPath) (node : Node) (idx : Word) (h : Fin kXmssH) :
    TreeHashCall :=
  let sibling := authPath[h]
  let nodeIsLeft := idx &&& 1 == 0
  let left := if nodeIsLeft then node else sibling
  let right := if nodeIsLeft then sibling else node
  let nodeIndex := idx >>> 1
  let height := BitVec.ofNat 32 h
  { left, right, output := hashTreeNode S param left right height nodeIndex, nodeIsLeft, height,
    nodeIndex }

def authStep (param : PkSeed) (authPath : AuthPath) (x : Node × List TreeHashCall × Word)
    (h : Fin kXmssH) : Node × List TreeHashCall × Word :=
  let call := authCall S param authPath x.1 x.2.2 h
  (call.output, x.2.1 ++ [call], x.2.2 >>> 1)

def xmssAuthPath (param : PkSeed) (leaf : Node) (leafIndex : Word) (authPath : AuthPath) :
    Node × List TreeHashCall :=
  let walked := (List.finRange kXmssH).foldl (authStep S param authPath) (leaf, [], leafIndex)
  (walked.1, walked.2.1)

def xmssExpand (pkSeed : PkSeed) (leafIndex : Word) (nonce : Nonce)
    (sigHashes : Vector Node kLen) (authPath : AuthPath) (message : List Byte) :
    Option XmssSignature :=
  let param := buildWotsDomainParam pkSeed
  let mh := hashMessage S param leafIndex nonce message
  let (coords, leftoverOk) := extractCoords mh
  if !leftoverOk then none
  else if Kkw.coordSum coords ≠ kTargetSum then none
  else
    let pkHashes := computeWotsPkHashes S param leafIndex sigHashes coords
    let leaf := hashPublicKey S param leafIndex pkHashes
    let (root, calls) := xmssAuthPath S param leaf leafIndex authPath
    some {
      wots := {
        domainParam := param
        epoch := leafIndex
        nonce
        coords
        sigHashes
        pkHashes
        tweakedMessage := buildMessageHash param leafIndex nonce message
        messageHash := mh }
      leaf
      authPath
      xmssCalls := calls
      root
      leafIndex }

end Verify

/-- The key pair of the C sources with the next leaf. -/
structure XmssKeyPair extends XmssKeypair where
  nextLeaf : BitVec 64

namespace XmssKeyPair

def generateFromSeedSplit (skSeed : SkSeed) (pkSeed : PkSeed) (height subtreeH : Nat) :
    Checked String XmssKeyPair := do
  check (1 ≤ height ∧ height ≤ kXmssH) "XMSS height out of range"
  check (1 ≤ subtreeH ∧ subtreeH ≤ height) "XMSS subtree height out of range"
  let kp ← fetch ((xmssHashes S pkSeed).keypairNewSplit skSeed pkSeed height subtreeH).toOption
  return { kp with nextLeaf := 0 }

def generateFromSeed (skSeed : SkSeed) (pkSeed : PkSeed) (height : Nat) :
    Checked String XmssKeyPair :=
  generateFromSeedSplit S skSeed pkSeed height (min height kSubtreeH)

def setNextLeaf (kp : XmssKeyPair) (leaf : BitVec 64) : XmssKeyPair := { kp with nextLeaf := leaf }

/-- The siblings of a leaf, and the key pair with the subtree they went through. -/
def extractAuthPath (kp : XmssKeypair) (leafIndex : Word) : Option (AuthPath × XmssKeypair) := do
  let s := leafIndex.toNat >>> kp.subtreeH
  let kp ← ((xmssHashes S kp.pkSeed).loadSubtree kp s).toOption
  let real ← siblings kp.height kp.subtreeH kp.bottom kp.top s leafIndex.toNat
  let upper ← (List.range (kXmssH - kp.height)).mapM (kp.upper[·]?)
  let path ← asVector kXmssH (real ++ upper)
  return (path, kp)

/-- `none`: the nonces are used up and the loop goes on. An exhausted key gives no signature. -/
def sign (kp : XmssKeyPair) (nonces : List Nonce) (message : List Byte) :
    Option (Checked String (Option XmssSignature × XmssKeyPair)) :=
  if kp.capacity ≤ kp.nextLeaf.toNat then some (.ok (none, kp))
  else
    let leafIndex : Word := kp.nextLeaf.setWidth 32
    let nextLeaf := kp.nextLeaf + 1
    let param := buildWotsDomainParam kp.pkSeed
    (grindNonce S param leafIndex message nonces).map fun grind => do
      let sigHashes := computeWotsSignature S param leafIndex
        (wotsSecretKey S kp.pkSeed kp.skSeed leafIndex) grind.coords
      let pkHashes := computeWotsPkHashes S param leafIndex sigHashes grind.coords
      let leaf := hashPublicKey S param leafIndex pkHashes
      let (authPath, kp) ← fetch (extractAuthPath S kp.toXmssKeypair leafIndex)
      let (root, calls) := xmssAuthPath S param leaf leafIndex authPath
      check (root = kp.root) "XMSS root mismatch during signing"
      return (some {
        wots := {
          domainParam := param
          epoch := leafIndex
          nonce := grind.nonce
          coords := grind.coords
          sigHashes
          pkHashes
          tweakedMessage := grind.tweakedMessage
          messageHash := hashMessage S param leafIndex grind.nonce message }
        leaf
        authPath
        xmssCalls := calls
        root
        leafIndex }, { kp with nextLeaf })

end XmssKeyPair

section Honest

variable (skSeed : SkSeed) (pkSeed : PkSeed) (height : Nat)

/-- The root that the calls lead to is the one of the plain walk. -/
theorem xmssAuthPath_root (param : PkSeed) (leaf : Node) (leafIndex : Word) (authPath : AuthPath) :
    (xmssAuthPath S param leaf leafIndex authPath).1 =
      (xmssHashes S param).walkAuthPath param leaf leafIndex authPath := by
  have step (x : Node × List TreeHashCall × Word) (h : Fin kXmssH) :
      (if x.2.2 &&& 1 = 0 then
          hashTreeNode S param x.1 authPath[h] (BitVec.ofNat 32 h) (x.2.2 >>> 1)
        else hashTreeNode S param authPath[h] x.1 (BitVec.ofNat 32 h) (x.2.2 >>> 1)) =
      (authStep S param authPath x h).1 := by
    simp only [authStep, authCall]
    by_cases even : x.2.2 &&& 1 = 0
    · simp only [even, beq_self_eq_true, if_true]
    · simp only [even, beq_eq_false_iff_ne.mpr even, if_false, Bool.false_eq_true]
  let plain (x : Node × Word) (h : Fin kXmssH) : Node × Word :=
    (if x.2 &&& 1 = 0 then hashTreeNode S param x.1 authPath[h] (BitVec.ofNat 32 h) (x.2 >>> 1)
      else hashTreeNode S param authPath[h] x.1 (BitVec.ofNat 32 h) (x.2 >>> 1), x.2 >>> 1)
  have walk := @List.foldl_hom _ _ _ (fun x : Node × List TreeHashCall × Word => (x.1, x.2.2))
    (authStep S param authPath) plain (List.finRange kXmssH) (leaf, [], leafIndex)
    fun x h => Prod.ext (step x h) rfl
  exact (congrArg Prod.fst walk).symm

namespace XmssKeyPair

/-- The stored parts are those of the tree of the key. -/
def Valid (kp : XmssKeypair) : Prop := (xmssHashes S kp.pkSeed).Valid kp

theorem generateFromSeed_ok (skSeed : SkSeed) (pkSeed : PkSeed) {height : Nat}
    (inside : 1 ≤ height ∧ height ≤ kXmssH) :
    ∃ kp : XmssKeyPair, generateFromSeed S skSeed pkSeed height = .ok kp ∧
      Valid S kp.toXmssKeypair ∧ kp.skSeed = skSeed ∧ kp.pkSeed = pkSeed ∧ kp.height = height ∧
      kp.nextLeaf = 0 := by
  have split : 1 ≤ min height kSubtreeH ∧ min height kSubtreeH ≤ height :=
    ⟨Nat.le_min.mpr ⟨inside.1, by decide⟩, Nat.min_le_left _ _⟩
  obtain ⟨kp, built, valid, rfl, rfl, rfl⟩ :=
    (xmssHashes S pkSeed).keypairNewSplit_valid skSeed pkSeed inside split
  refine ⟨{ kp with nextLeaf := 0 }, ?_, valid, rfl, rfl, rfl, rfl⟩
  rw [generateFromSeed, generateFromSeedSplit, check_true inside, check_true split, built]
  rfl

/-- The path of a leaf: the real siblings, then the derived ones. -/
def pathOf (kp : XmssKeypair) (leafIndex : Word) : AuthPath :=
  Vector.ofFn fun h : Fin kXmssH =>
    (xmssHashes S kp.pkSeed).sibling kp.skSeed kp.pkSeed kp.height leafIndex h

/-- The key pair with the subtree of a leaf in its cache. -/
def visited (kp : XmssKeypair) (leafIndex : Word) : XmssKeypair :=
  { kp with
    bottom := bottomLevels ((xmssHashes S kp.pkSeed).tree kp.skSeed kp.pkSeed) kp.subtreeH
      (leafIndex.toNat >>> kp.subtreeH)
    cachedSubtree := leafIndex.toNat >>> kp.subtreeH }

variable {S}

theorem extractAuthPath_eq {kp : XmssKeypair} (valid : Valid S kp) {leafIndex : Word}
    (inside : leafIndex.toNat < 2 ^ kp.height) :
    extractAuthPath S kp leafIndex = some (pathOf S kp leafIndex, visited S kp leafIndex) := by
  have short : leafIndex.toNat >>> kp.subtreeH < 2 ^ 32 :=
    Nat.lt_of_le_of_lt (Nat.shiftRight_le _ _) leafIndex.isLt
  have real := siblings_eq ((xmssHashes S kp.pkSeed).tree kp.skSeed kp.pkSeed) valid.subtreeH_le
    inside leafIndex.isLt
  rw [← valid.top] at real
  have upper : (List.range (kXmssH - kp.height)).mapM (kp.upper[·]?) = some kp.upper := by
    have length : kp.upper.length = kXmssH - kp.height := by simp [valid.upper]
    rw [← length]
    exact mapM_getElem kp.upper
  rw [extractAuthPath, XmssHashes.loadSubtree_eq _ valid short]
  simp only [Except.toOption, Option.bind_eq_bind, Option.bind_some, real, upper,
    XmssHashes.authPath_eq _ valid leafIndex]
  rfl

/-- The signature of a leaf under the codeword of a nonce. -/
def signed (S : Sha256) (kp : XmssKeypair) (leafIndex : Word) (message : List Byte)
    (grind : GrindResult) : XmssSignature :=
  let sigHashes := computeWotsSignature S kp.pkSeed leafIndex
    (wotsSecretKey S kp.pkSeed kp.skSeed leafIndex) grind.coords
  let pkHashes := computeWotsPkHashes S kp.pkSeed leafIndex sigHashes grind.coords
  let leaf := hashPublicKey S kp.pkSeed leafIndex pkHashes
  { wots := {
      domainParam := kp.pkSeed
      epoch := leafIndex
      nonce := grind.nonce
      coords := grind.coords
      sigHashes
      pkHashes
      tweakedMessage := grind.tweakedMessage
      messageHash := hashMessage S kp.pkSeed leafIndex grind.nonce message }
    leaf
    authPath := pathOf S kp leafIndex
    xmssCalls := (xmssAuthPath S kp.pkSeed leaf leafIndex (pathOf S kp leafIndex)).2
    root := kp.root
    leafIndex }

theorem grindNonce_eq_some {param : PkSeed} {epoch : Word} {message : List Byte}
    {nonces : List Nonce} {grind : GrindResult}
    (found : grindNonce S param epoch message nonces = some grind) :
    extractCoords (hashMessage S param epoch grind.nonce message) = (grind.coords, true) ∧
      Kkw.coordSum grind.coords = kTargetSum ∧
      grind.tweakedMessage = buildMessageHash param epoch grind.nonce message := by
  obtain ⟨⟨nonce, coords⟩, drawn, rfl⟩ := Option.map_eq_some_iff.mp found
  obtain ⟨extracted, sum⟩ := XmssHashes.grindNonce_eq_some _ drawn
  exact ⟨extracted, sum, rfl⟩

/-- The path of a leaf below the capacity leads to the root of the key. -/
theorem signed_root {kp : XmssKeypair} (valid : Valid S kp) {leafIndex : Word}
    (inside : leafIndex.toNat < 2 ^ kp.height) {message : List Byte} {nonces : List Nonce}
    {grind : GrindResult}
    (found : grindNonce S kp.pkSeed leafIndex message nonces = some grind) :
    (xmssAuthPath S kp.pkSeed (signed S kp leafIndex message grind).leaf leafIndex
      (pathOf S kp leafIndex)).1 = kp.root := by
  obtain ⟨extracted, -, -⟩ := grindNonce_eq_some found
  have small : ∀ i : Fin kLen, grind.coords[i].toNat ≤ Kkw.xmssWotsMaxSteps := fun i => by
    have bound := Kkw.coord_le (hashMessage S kp.pkSeed leafIndex grind.nonce message) i
    rw [show Kkw.xmssExtractCoords _ = (grind.coords, true) from extracted] at bound
    exact bound
  have leaf : (signed S kp leafIndex message grind).leaf =
      ((xmssHashes S kp.pkSeed).tree kp.skSeed kp.pkSeed).value 0 leafIndex.toNat := by
    rw [XmssHashes.leaf_eq]
    simp only [signed, computeWotsPkHashes, computeWotsSignature]
    have ends := XmssHashes.wotsPkFromSig_sign (xmssHashes S kp.pkSeed) kp.pkSeed leafIndex
      (wotsSecretKey S kp.pkSeed kp.skSeed leafIndex) grind.coords small
    rw [ends]
    rfl
  rw [xmssAuthPath_root, leaf, valid.root]
  exact XmssHashes.walk_signature _ kp.skSeed kp.pkSeed valid.height_le inside

/-- One call: the checks of an honest signature pass, whatever was cached before. -/
theorem sign_eq {kp : XmssKeyPair} (valid : Valid S kp.toXmssKeypair) (nonces : List Nonce)
    (message : List Byte) :
    sign S kp nonces message =
      if 2 ^ kp.height ≤ kp.nextLeaf.toNat then some (.ok (none, kp))
      else (grindNonce S kp.pkSeed (kp.nextLeaf.setWidth 32) message nonces).map fun grind =>
        .ok (some (signed S kp.toXmssKeypair (kp.nextLeaf.setWidth 32) message grind),
          { visited S kp.toXmssKeypair (kp.nextLeaf.setWidth 32) with
            nextLeaf := kp.nextLeaf + 1 }) := by
  have capacity : kp.capacity = 2 ^ kp.height := Nat.one_shiftLeft _
  rw [sign, capacity]
  split
  · rfl
  · next room =>
    have inside : (kp.nextLeaf.setWidth 32).toNat < 2 ^ kp.height := by
      rw [BitVec.toNat_setWidth]
      exact Nat.lt_of_le_of_lt (Nat.mod_le _ _) (Nat.lt_of_not_le room)
    simp only [buildWotsDomainParam]
    cases found : grindNonce S kp.pkSeed (kp.nextLeaf.setWidth 32) message nonces with
    | none => rfl
    | some grind =>
      have root := signed_root valid inside found
      simp only [signed] at root
      simp only [Option.map_some, extractAuthPath_eq valid inside, fetch_some, bind, Except.bind]
      erw [check_true root]
      simp only [root]
      rfl

end XmssKeyPair

/-- What a signature keeps on the wire expands to the whole of it. -/
theorem xmssExpand_signed {kp : XmssKeypair} (valid : XmssKeyPair.Valid S kp) {leafIndex : Word}
    (inside : leafIndex.toNat < 2 ^ kp.height) {message : List Byte} {nonces : List Nonce}
    {grind : GrindResult}
    (found : grindNonce S kp.pkSeed leafIndex message nonces = some grind) :
    xmssExpand S kp.pkSeed leafIndex (XmssKeyPair.signed S kp leafIndex message grind).wots.nonce
      (XmssKeyPair.signed S kp leafIndex message grind).wots.sigHashes
      (XmssKeyPair.signed S kp leafIndex message grind).authPath message =
        some (XmssKeyPair.signed S kp leafIndex message grind) := by
  obtain ⟨extracted, sum, tweaked⟩ := XmssKeyPair.grindNonce_eq_some found
  have root := XmssKeyPair.signed_root valid inside found
  simp only [XmssKeyPair.signed] at root ⊢
  simp only [xmssExpand, buildWotsDomainParam, extracted, Bool.not_true, Bool.false_eq_true,
    if_false, sum, ne_eq, not_true_eq_false, root, tweaked]

end Honest

end BlindSig.Longfellow
