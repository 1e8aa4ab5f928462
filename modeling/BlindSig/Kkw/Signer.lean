import BlindSig.Kkw.Gf128
import BlindSig.Kkw.XmssKeyPair
import BlindSig.Records

/-! The kkw signer: its key, the key and signature files and one signature. The key pair is built
when the first signature is made, and `randombytes_fill` fails when the list of nonces ends. -/
namespace BlindSig.Kkw

abbrev blindSkSeedBytes : Nat := 32
abbrev blindSignerKeyBytes : Nat := blindSkSeedBytes + 16 + 1 + 8
abbrev blindSignerPubBytes : Nat := 16 + 16
abbrev xmssSigBytes : Nat := 4 + 24 + xmssWotsLen * 16 + xmssH * 16

/-- The key in memory. -/
structure BlindSignerKey extends SignerKey where
  tree : Option XmssKeypair

section Files

/-- The height is cast to a byte. -/
def blindWriteSignerKey (key : BlindSignerKey) : List Byte := signerKeyCodec.write key.toSignerKey

def blindReadSignerKey (buf : List Byte) : Checked Unit BlindSignerKey := do
  check (buf.length = blindSignerKeyBytes) ()
  let (key, _) ← fetch (signerKeyCodec.read buf)
  check key.heightInRange ()
  return { key with tree := none }

def blindWriteSignerPub (root : Node) (pkSeed : PkSeed) : List Byte :=
  signerPubCodec.write (root, pkSeed)

def blindReadSignerPub (buf : List Byte) : Checked Unit (Node × PkSeed) := do
  check (buf.length = blindSignerPubBytes) ()
  let (pub, _) ← fetch (signerPubCodec.read buf)
  return pub

def xmssWriteSig (sig : XmssSig) : List Byte :=
  xmssSigCodec.write (sig.leafIndex, sig.nonce, sig.sigHashes, sig.authPath)

def xmssReadSig (buf : List Byte) : Checked Unit XmssSig := do
  check (buf.length = xmssSigBytes) ()
  let ((leafIndex, nonce, sigHashes, authPath), _) ← fetch (xmssSigCodec.read buf)
  return { leafIndex, nonce, sigHashes, authPath }

theorem blindReadSignerPub_write (root : Node) (pkSeed : PkSeed) :
    blindReadSignerPub (blindWriteSignerPub root pkSeed) = .ok (root, pkSeed) := by
  have size : (blindWriteSignerPub root pkSeed).length = blindSignerPubBytes :=
    signerPubCodec.length_write _
  rw [blindReadSignerPub, check_true size, blindWriteSignerPub, Codec.read_write_all]
  rfl

theorem xmssReadSig_write (sig : XmssSig) : xmssReadSig (xmssWriteSig sig) = .ok sig := by
  have size : (xmssWriteSig sig).length = xmssSigBytes := xmssSigCodec.length_write _
  rw [xmssReadSig, check_true size, xmssWriteSig, Codec.read_write_all]
  rfl

theorem blindReadSignerKey_write (key : BlindSignerKey) :
    blindReadSignerKey (blindWriteSignerKey key) =
      if key.heightInRange then .ok { key with tree := none } else .error (.check ()) := by
  have size : (blindWriteSignerKey key).length = blindSignerKeyBytes :=
    signerKeyCodec.length_write key.toSignerKey
  rw [blindReadSignerKey, check_true size, blindWriteSignerKey, Codec.read_write_all]
  simp only [fetch_some, bind, Except.bind]
  by_cases allowed : key.heightInRange
  · rw [check_true allowed, if_pos allowed]
    rfl
  · rw [check_false allowed, if_neg allowed]

end Files

section Sign

variable (H : Hasher)

/-- `xmss_keypair_new`. -/
def xmssKeypairNew (skSeed : Vector Byte 32) (pkSeed : PkSeed) (height : Nat) :
    Checked Unit XmssKeypair :=
  (xmssHashes H).keypairNewSplit skSeed pkSeed height (min height xmssSubtreeH)

def blindKeygen (skSeed : Vector Byte 32) (pkSeed : PkSeed) (height : Nat) :
    Checked Unit (BlindSignerKey × Node) := do
  check (1 ≤ height ∧ height ≤ xmssH) ()
  let tree ← xmssKeypairNew H skSeed pkSeed height
  return ({ skSeed, pkSeed, height := BitVec.ofNat 8 height, nextLeaf := 0, tree := some tree },
    tree.root)

/-- The signature and the key after it. -/
def blindSignerSign (key : BlindSignerKey) (com : Vector Byte hmComBytes) (nonces : List Nonce) :
    Checked Unit (XmssSig × BlindSignerKey) := do
  check (key.nextLeaf.toNat < 1 <<< key.height.toNat) ()
  let d := hmDigest H com
  let tree ← match key.tree with
    | some tree => pure tree
    | none => xmssKeypairNew H key.skSeed key.pkSeed key.height.toNat
  let (sig, tree) ← (xmssHashes H).keypairSign tree (key.nextLeaf.setWidth 32) d.toList nonces
  return (sig, { key with nextLeaf := key.nextLeaf + 1, tree := some tree })

variable {H}

/-- A key that comes from a file signs with its next leaf. -/
theorem blindSignerSign_ok {key key' : BlindSignerKey} {com : Vector Byte hmComBytes}
    {nonces : List Nonce} {sig : XmssSig} (cold : key.tree = none)
    (signed : blindSignerSign H key com nonces = .ok (sig, key')) :
    key.Room ∧ sig.leafIndex = key.nextLeaf.setWidth 32 ∧ key'.toSignerKey = key.used := by
  simp only [blindSignerSign, cold] at signed
  obtain ⟨_, room, signed⟩ := bind_eq_ok.mp signed
  obtain ⟨tree, built, signed⟩ := bind_eq_ok.mp signed
  obtain ⟨⟨sig', tree'⟩, made, signed⟩ := bind_eq_ok.mp signed
  obtain ⟨rfl, rfl⟩ := Prod.mk.inj (Except.ok.inj signed)
  obtain ⟨_, height, -⟩ := bind_eq_ok.mp built
  rw [check_eq_ok, Nat.one_shiftLeft] at room
  exact ⟨⟨check_eq_ok.mp height, room⟩, XmssHashes.keypairSign_leafIndex _ made, rfl⟩

/-- Its signature verifies under the root of the key. -/
theorem blindSignerSign_verifies {key key' : BlindSignerKey} {com : Vector Byte hmComBytes}
    {nonces : List Nonce} {sig : XmssSig} (cold : key.tree = none)
    (signed : blindSignerSign H key com nonces = .ok (sig, key')) :
    xmssVerify H key.pkSeed ((xmssHashes H).treeRoot key.skSeed key.pkSeed key.height.toNat)
      (hmDigest H com).toList sig = true := by
  have inside := (blindSignerSign_ok cold signed).1.1
  have split : 1 ≤ min key.height.toNat xmssSubtreeH ∧
      min key.height.toNat xmssSubtreeH ≤ key.height.toNat :=
    ⟨Nat.le_min.mpr ⟨inside.1, by decide⟩, Nat.min_le_left _ _⟩
  obtain ⟨kp, built, valid, skSeed, pkSeed, height⟩ :=
    (xmssHashes H).keypairNewSplit_valid key.skSeed key.pkSeed inside split
  simp only [blindSignerSign, cold] at signed
  obtain ⟨_, _, signed⟩ := bind_eq_ok.mp signed
  obtain ⟨tree, drawn, signed⟩ := bind_eq_ok.mp signed
  obtain rfl := Except.ok.inj (built.symm.trans drawn)
  obtain ⟨⟨sig', kp'⟩, made, signed⟩ := bind_eq_ok.mp signed
  obtain ⟨rfl, rfl⟩ := Prod.mk.inj (Except.ok.inj signed)
  have verified := ((xmssHashes H).keypairSign_ok valid made).2.2.1
  rw [valid.root, skSeed, pkSeed, height] at verified
  rw [xmssVerify]
  exact verified

/-- A key with a leaf left signs as soon as a nonce is found. -/
theorem blindSignerSign_found {key : BlindSignerKey} (cold : key.tree = none) (room : key.Room)
    {com : Vector Byte hmComBytes} {nonces : List Nonce} {found : Nonce × Vector Byte xmssWotsLen}
    (grind : (xmssHashes H).grindNonce key.pkSeed (key.nextLeaf.setWidth 32)
      (hmDigest H com).toList nonces = some found) :
    ∃ sig key', blindSignerSign H key com nonces = .ok (sig, key') := by
  obtain ⟨inside, left⟩ := room
  have split : 1 ≤ min key.height.toNat xmssSubtreeH ∧
      min key.height.toNat xmssSubtreeH ≤ key.height.toNat :=
    ⟨Nat.le_min.mpr ⟨inside.1, by decide⟩, Nat.min_le_left _ _⟩
  obtain ⟨kp, built, valid, skSeed, pkSeed, height⟩ :=
    (xmssHashes H).keypairNewSplit_valid key.skSeed key.pkSeed inside split
  have short := (leaf_exact inside.2 left).1
  rw [blindSignerSign, Nat.one_shiftLeft, check_true left, cold]
  simp only [xmssKeypairNew, built, bind, Except.bind, (xmssHashes H).keypairSign_eq valid, pkSeed,
    height, short, if_pos left, grind]
  exact ⟨_, _, rfl⟩

/-- The checks of `prove` before a proof is made. -/
def proveAccepts (H : Hasher) (pubFile : List Byte) (com : Vector Byte hmComBytes)
    (sigFile : List Byte) : Bool :=
  match blindReadSignerPub pubFile, xmssReadSig sigFile with
  | .ok (root, pkSeed), .ok sig => xmssVerify H pkSeed root (hmDigest H com).toList sig
  | _, _ => false

theorem blindKeygen_ok (skSeed : Vector Byte 32) (pkSeed : PkSeed) {height : Nat}
    (inside : 1 ≤ height ∧ height ≤ xmssH) :
    ∃ tree, blindKeygen H skSeed pkSeed height =
      .ok ({ skSeed, pkSeed, height := BitVec.ofNat 8 height, nextLeaf := 0, tree := some tree },
        (xmssHashes H).treeRoot skSeed pkSeed height) := by
  have split : 1 ≤ min height xmssSubtreeH ∧ min height xmssSubtreeH ≤ height :=
    ⟨Nat.le_min.mpr ⟨inside.1, by decide⟩, Nat.min_le_left _ _⟩
  obtain ⟨kp, built, valid, rfl, rfl, rfl⟩ :=
    (xmssHashes H).keypairNewSplit_valid skSeed pkSeed inside split
  refine ⟨kp, ?_⟩
  rw [blindKeygen, check_true inside]
  simp only [xmssKeypairNew, built, bind, Except.bind, valid.root]
  rfl

end Sign

end BlindSig.Kkw
