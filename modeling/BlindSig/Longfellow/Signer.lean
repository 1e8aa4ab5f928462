import BlindSig.Longfellow.Protocol
import BlindSig.Longfellow.Xmss
import BlindSig.Records

/-! The longfellow signer: its key, the key and signature files, and one signature under nonces that
are derived from the key, the leaf and the commitment. -/
namespace BlindSig.Longfellow

variable (S : Sha256)

section Commitment

def hmComDigestPreimage (com : HmCommitment) : List Byte := pushCommitment com

def hmComDigest (com : HmCommitment) : Hash := sha256 S (hmComDigestPreimage com)

def writeCommitment (com : HmCommitment) : List Byte := pushCommitment com

def readCommitment (buf : List Byte) : Checked String HmCommitment := do
  check (buf.length = commitmentBytes) "read_commitment: expected 256 bytes"
  let (com, _) ← fetch (parseCommitment buf)
  return com

theorem readCommitment_write (com : HmCommitment) :
    readCommitment (writeCommitment com) = .ok com := by
  have size : (writeCommitment com).length = commitmentBytes := commitmentCodec.length_write com
  have parsed : parseCommitment (writeCommitment com) = some (com, []) := by
    rw [parseCommitment_eq]
    exact commitmentCodec.read_write_all com
  rw [readCommitment, check_true size, parsed]
  rfl

end Commitment

section Files

def writeSignerKey (key : SignerKey) : List Byte := signerKeyCodec.write key

def readSignerKey (buf : List Byte) : Checked String SignerKey := do
  check (buf.length = kSkSeedBytes + kPkSeedBytes + 1 + 8) "read_signer_key: wrong size"
  let (key, _) ← fetch (signerKeyCodec.read buf)
  check key.heightInRange "read_signer_key: height out of range"
  return key

def writeSignerPub (xmssRoot : Node) (pkSeed : PkSeed) : List Byte :=
  signerPubCodec.write (xmssRoot, pkSeed)

def readSignerPub (buf : List Byte) : Checked String (Node × PkSeed) := do
  check (buf.length = kNodeBytes + kPkSeedBytes) "read_signer_pub: wrong size"
  let (pub, _) ← fetch (signerPubCodec.read buf)
  return pub

abbrev kXmssSigBytes : Nat := 4 + kNonceLength + kLen * kNodeBytes + kXmssH * kNodeBytes

def writeXmssSig (sig : XmssSignature) : List Byte :=
  xmssSigCodec.write (sig.leafIndex, sig.wots.nonce, sig.wots.sigHashes, sig.authPath)

def readXmssSig (buf : List Byte) (pkSeed : PkSeed) (message : List Byte) : Option XmssSignature :=
  if buf.length ≠ kXmssSigBytes then none
  else do
    let ((leafIndex, nonce, sigHashes, authPath), _) ← xmssSigCodec.read buf
    xmssExpand S pkSeed leafIndex nonce sigHashes authPath message

theorem readSignerKey_write (key : SignerKey) :
    readSignerKey (writeSignerKey key) =
      if key.heightInRange then .ok key
      else .error (.check "read_signer_key: height out of range") := by
  have size : (writeSignerKey key).length = kSkSeedBytes + kPkSeedBytes + 1 + 8 :=
    signerKeyCodec.length_write key
  rw [readSignerKey, check_true size, writeSignerKey, Codec.read_write_all]
  simp only [fetch_some, bind, Except.bind]
  by_cases allowed : key.heightInRange
  · rw [check_true allowed, if_pos allowed]
    rfl
  · rw [check_false allowed, if_neg allowed]

theorem readSignerPub_write (xmssRoot : Node) (pkSeed : PkSeed) :
    readSignerPub (writeSignerPub xmssRoot pkSeed) = .ok (xmssRoot, pkSeed) := by
  have size : (writeSignerPub xmssRoot pkSeed).length = kNodeBytes + kPkSeedBytes :=
    signerPubCodec.length_write _
  rw [readSignerPub, check_true size, writeSignerPub, Codec.read_write_all]
  rfl

theorem readXmssSig_write (sig : XmssSignature) (pkSeed : PkSeed) (message : List Byte) :
    readXmssSig S (writeXmssSig sig) pkSeed message =
      xmssExpand S pkSeed sig.leafIndex sig.wots.nonce sig.wots.sigHashes sig.authPath message := by
  have size : (writeXmssSig sig).length = kXmssSigBytes := xmssSigCodec.length_write _
  rw [readXmssSig, if_neg (not_not.mpr size), writeXmssSig, Codec.read_write_all]
  rfl

end Files

section Sign

def kNoncePrfLabel : List Byte :=
  Kkw.chars ['b', 'l', 'i', 'n', 'd', '-', 'x', 'm', 's', 's', '-', 'l', 'o', 'n', 'g', 'f', 'e',
    'l', 'l', 'o', 'w', '/', 'n', 'o', 'n', 'c', 'e', '/', 'v', '1']

/-- The nonce of an attempt of `NonceAttemptRng`; the attempts are counted in 32 bits. -/
def nonceAttempt (key : SignerKey) (commitmentDigest : Hash) (attempt : Nat) : Nonce :=
  let prfKey := S.hmac key.skSeed.toList kNoncePrfLabel
  let context := key.pkSeed.toList ++ pushU32le (key.nextLeaf.setWidth 32) ++ commitmentDigest.toList
  slice (S.hmac prfKey.toList (context ++ pushU32le (BitVec.ofNat 32 attempt))) 0 kNonceLength
    (by decide)

/-- The signature and the key after the call. `none`: no nonce of the first `attempts` ends the
search. -/
def signerSign (key : SignerKey) (com : HmCommitment) (attempts : Nat) :
    Option (Checked String (Option XmssSignature × SignerKey)) :=
  let d := hmComDigest S com
  match XmssKeyPair.generateFromSeed S key.skSeed key.pkSeed key.height.toNat with
  | .error e => some (.error e)
  | .ok kp =>
    let kp := kp.setNextLeaf key.nextLeaf
    let nonces := (List.range attempts).map (nonceAttempt S key d)
    (kp.sign S nonces d.toList).map fun outcome => do
      let (sig, kp) ← outcome
      return (sig, if sig.isSome then { key with nextLeaf := kp.nextLeaf } else key)

variable {S}

theorem signerSign_ok {key key' : SignerKey} {com : HmCommitment} {attempts : Nat}
    {sig : XmssSignature} (made : signerSign S key com attempts = some (.ok (some sig, key'))) :
    key.Room ∧ sig.leafIndex = key.nextLeaf.setWidth 32 ∧ key' = key.used := by
  by_cases inside : key.heightInRange
  · obtain ⟨kp, built, valid, -, -, height, -⟩ :=
      XmssKeyPair.generateFromSeed_ok S key.skSeed key.pkSeed inside
    have sound : XmssKeyPair.Valid S (kp.setNextLeaf key.nextLeaf).toXmssKeypair := valid
    simp only [signerSign, built, XmssKeyPair.sign_eq sound] at made
    split at made
    · cases made
    · next room =>
      obtain ⟨outcome, signed, made⟩ := Option.map_eq_some_iff.mp made
      obtain ⟨grind, -, rfl⟩ := Option.map_eq_some_iff.mp signed
      obtain ⟨sent, rfl⟩ := Prod.mk.inj (Except.ok.inj made)
      obtain rfl := Option.some.inj sent
      rw [show (kp.setNextLeaf key.nextLeaf).height = key.height.toNat from height] at room
      exact ⟨⟨inside, Nat.lt_of_not_le room⟩, rfl, rfl⟩
  · have refused : XmssKeyPair.generateFromSeed S key.skSeed key.pkSeed key.height.toNat =
        .error (.check "XMSS height out of range") := by
      rw [XmssKeyPair.generateFromSeed, XmssKeyPair.generateFromSeedSplit]
      erw [check_false inside]
      rfl
    rw [signerSign, refused] at made
    cases made

/-- What is sent expands to the signature that was made, up to the root of the key. -/
theorem signerSign_expands {key key' : SignerKey} {com : HmCommitment} {attempts : Nat}
    {sig : XmssSignature} (made : signerSign S key com attempts = some (.ok (some sig, key'))) :
    readXmssSig S (writeXmssSig sig) key.pkSeed (hmComDigest S com).toList = some sig ∧
      sig.root = (xmssHashes S key.pkSeed).treeRoot key.skSeed key.pkSeed key.height.toNat := by
  obtain ⟨⟨inside, left⟩, -, -⟩ := signerSign_ok made
  obtain ⟨kp, built, valid, skSeed, pkSeed, height, -⟩ :=
    XmssKeyPair.generateFromSeed_ok S key.skSeed key.pkSeed inside
  have sound : XmssKeyPair.Valid S (kp.setNextLeaf key.nextLeaf).toXmssKeypair := valid
  have same : (kp.setNextLeaf key.nextLeaf).height = key.height.toNat := height
  have leaf : (kp.setNextLeaf key.nextLeaf).nextLeaf = key.nextLeaf := rfl
  have seed : (kp.setNextLeaf key.nextLeaf).pkSeed = key.pkSeed := pkSeed
  simp only [signerSign, built, XmssKeyPair.sign_eq sound, same, leaf, if_neg (Nat.not_le.mpr left)]
    at made
  obtain ⟨outcome, signed, made⟩ := Option.map_eq_some_iff.mp made
  obtain ⟨grind, found, rfl⟩ := Option.map_eq_some_iff.mp signed
  obtain ⟨sent, -⟩ := Prod.mk.inj (Except.ok.inj made)
  obtain rfl := Option.some.inj sent
  have room : (key.nextLeaf.setWidth 32).toNat < 2 ^ (kp.setNextLeaf key.nextLeaf).height := by
    rw [same, (leaf_exact inside.2 left).1]
    exact left
  constructor
  · rw [readXmssSig_write, ← seed]
    exact xmssExpand_signed S sound room found
  · have root := valid.root
    rw [pkSeed, skSeed, height] at root
    exact root

theorem signerSign_found {key : SignerKey} (room : key.Room) {com : HmCommitment} {attempts : Nat}
    {grind : GrindResult} (found : grindNonce S key.pkSeed (key.nextLeaf.setWidth 32)
      (hmComDigest S com).toList ((List.range attempts).map (nonceAttempt S key
        (hmComDigest S com))) = some grind) :
    ∃ sig key', signerSign S key com attempts = some (.ok (some sig, key')) := by
  obtain ⟨inside, left⟩ := room
  obtain ⟨kp, built, valid, skSeed, pkSeed, height, -⟩ :=
    XmssKeyPair.generateFromSeed_ok S key.skSeed key.pkSeed inside
  have sound : XmssKeyPair.Valid S (kp.setNextLeaf key.nextLeaf).toXmssKeypair := valid
  have same : (kp.setNextLeaf key.nextLeaf).height = key.height.toNat := height
  have seed : (kp.setNextLeaf key.nextLeaf).pkSeed = key.pkSeed := pkSeed
  have leaf : (kp.setNextLeaf key.nextLeaf).nextLeaf = key.nextLeaf := rfl
  simp only [signerSign, built, XmssKeyPair.sign_eq sound, same, if_neg (Nat.not_le.mpr left), seed,
    leaf, found]
  exact ⟨_, _, rfl⟩

/-- The checks of `prove` before a proof is made. -/
def proveAccepts (S : Sha256) (pubFile : List Byte) (com : HmCommitment) (sigFile : List Byte) :
    Bool :=
  match readSignerPub pubFile with
  | .ok (xmssRoot, pkSeed) =>
    match readXmssSig S sigFile pkSeed (hmComDigest S com).toList with
    | some sig => sig.root == xmssRoot
    | none => false
  | .error _ => false

/-- The key and the root of `keygen`; the height is cast to a byte. -/
def keygen (S : Sha256) (skSeed : SkSeed) (pkSeed : PkSeed) (height : Nat) :
    Checked String (SignerKey × Node) := do
  let kp ← XmssKeyPair.generateFromSeed S skSeed pkSeed height
  return ({ skSeed, pkSeed, height := BitVec.ofNat 8 height, nextLeaf := 0 }, kp.root)

theorem keygen_ok (skSeed : SkSeed) (pkSeed : PkSeed) {height : Nat}
    (inside : 1 ≤ height ∧ height ≤ kXmssH) : keygen S skSeed pkSeed height =
      .ok ({ skSeed, pkSeed, height := BitVec.ofNat 8 height, nextLeaf := 0 },
        (xmssHashes S pkSeed).treeRoot skSeed pkSeed height) := by
  obtain ⟨kp, built, valid, rfl, rfl, rfl, -⟩ := XmssKeyPair.generateFromSeed_ok S skSeed pkSeed inside
  simp only [keygen, built, bind, Except.bind, valid.root]
  rfl

end Sign

end BlindSig.Longfellow
