import BlindSig.Binius.Serialize
import BlindSig.Binius.Xmss
import Mathlib.Logic.Function.Basic

/-! The gadgets of the statement circuit, written against the interface of the circuit builder:
the commitment with its opening, and one or several XMSS verifications. -/
namespace BlindSig.Binius

/-- A 64-bit word of the constraint system. -/
abbrev Word64 := BitVec 64

/-- What the gadgets use of the builder crate. `K` is the number of witness wires of an XMSS
signature. -/
structure CircuitBuilder (m : Type → Type) (Wire : Type) (K : Nat) where
  addInout : m Wire
  addWitness : m Wire
  addConstant64 : Word64 → m Wire
  band : Wire → Wire → m Wire
  bor : Wire → Wire → m Wire
  bxor : Wire → Wire → m Wire
  shr : Wire → Nat → m Wire
  shl : Wire → Nat → m Wire
  /-- The GHASH product of two elements, low word first. -/
  bmul : Wire → Wire → Wire → Wire → m (Wire × Wire)
  assertEq : Wire → Wire → m PUnit
  /-- BLAKE3 of the first `len` bytes of a row of 32-bit words. -/
  blake3Fixed : List Wire → (len : Nat) → m (Vector Wire 8)
  circuitXmssVerify : (domainParam merkleRoot : Vector Wire nFeWords) →
    (signedMsg : Vector Wire nDigestWords) → (epoch : Wire) → (signature : Vector Wire K) → m PUnit

section Words

/-- `bytes32_to_words`. -/
def bytes32ToWords (b : Vector Byte 32) : Vector Word64 nDigestWords :=
  Vector.ofFn fun i : Fin 4 => leValue 64 (slice b (8 * i) 8 (by omega))

/-- `bytes16_to_words`. -/
def bytes16ToWords (b : Vector Byte 16) : Vector Word64 nFeWords :=
  Vector.ofFn fun i : Fin 2 => leValue 64 (slice b (8 * i) 8 (by omega))

end Words

section Gadgets

variable {m : Type → Type} {Wire : Type} {K : Nat} [Monad m] (b : CircuitBuilder m Wire K)

abbrev GhashWires (Wire : Type) := Vector Wire nFeWords

/-- `std::array::from_fn(|_| b.add_witness())`. -/
def addWitnesses (n : Nat) : m (Vector Wire n) := Vector.ofFnM fun _ : Fin n => b.addWitness

def addInouts (n : Nat) : m (Vector Wire n) := Vector.ofFnM fun _ : Fin n => b.addInout

def splitLoHi (w : Wire) : m (List Wire) := do
  let mask ← b.addConstant64 0xFFFFFFFF
  let lo ← b.band w mask
  let hi ← b.shr w 32
  return [lo, hi]

/-- The 32-bit halves of a row of words. -/
def splitWords (words : List Wire) : m (List Wire) :=
  words.foldlM (fun out w => do
    let halves ← splitLoHi b w
    return out ++ halves) []

def combineBlake3Digest (out : Vector Wire 8) : m (Vector Wire 4) :=
  Vector.ofFnM fun k : Fin 4 => do
    let high ← b.shl out[2 * k.val + 1] 32
    b.bor out[2 * k.val] high

def hmAffineCheck (a r : Vector (GhashWires Wire) nNonce) (bTerm mHat : GhashWires Wire) :
    m PUnit := do
  let acc ← (List.finRange nNonce).foldlM (fun (acc : Wire × Wire) (i : Fin nNonce) => do
    let (productLo, productHi) ← b.bmul a[i][0] a[i][1] r[i][0] r[i][1]
    let lo ← b.bxor acc.1 productLo
    let hi ← b.bxor acc.2 productHi
    return (lo, hi)) (bTerm[0], bTerm[1])
  b.assertEq acc.1 mHat[0]
  b.assertEq acc.2 mHat[1]

structure Blake3RevealR (Wire : Type) where
  r : Vector (GhashWires Wire) nNonce
  yHat : Vector Wire 8

def Blake3RevealR.new : m (Blake3RevealR Wire) := do
  let r : Vector (GhashWires Wire) nNonce ← Vector.ofFnM fun _ => addWitnesses b nFeWords
  let r32 ← splitWords b (r.toList.flatMap Vector.toList)
  let yHat ← b.blake3Fixed r32 (nNonce * nFe)
  return { r, yHat }

structure BlindCommitGadget (Wire : Type) where
  mHat : Vector Wire nDigestWords
  comA : Vector (Vector (GhashWires Wire) nNonce) nLines
  comB : Vector (GhashWires Wire) nLines
  domainParam : Vector Wire nFeWords
  revealR : Blake3RevealR Wire
  comD : Vector Wire 4

namespace BlindCommitGadget

def new : m (BlindCommitGadget Wire) := do
  let mHat ← addInouts b nDigestWords
  let domainParam ← addInouts b nFeWords
  let comA : Vector (Vector (GhashWires Wire) nNonce) nLines ←
    Vector.ofFnM fun _ => Vector.ofFnM fun _ => addWitnesses b nFeWords
  let comB : Vector (GhashWires Wire) nLines ← Vector.ofFnM fun _ => addWitnesses b nFeWords
  let revealR ← Blake3RevealR.new b
  (List.finRange nLines).forM fun (k : Fin 2) =>
    hmAffineCheck b comA[k] revealR.r comB[k] (slice mHat (2 * k) 2 (by
      simp only [nDigestWords]
      omega))
  let aHalves ← splitWords b (comA.toList.flatMap fun line => line.toList.flatMap Vector.toList)
  let bHalves ← splitWords b (comB.toList.flatMap Vector.toList)
  let dMsg := aHalves ++ bHalves ++ revealR.yHat.toList
  let dDigest ← b.blake3Fixed dMsg commitmentBytes
  let comD ← combineBlake3Digest b dDigest
  return { mHat, comA, comB, domainParam, revealR, comD }

def inoutWires (g : BlindCommitGadget Wire) : List Wire := g.mHat.toList ++ g.domainParam.toList

end BlindCommitGadget

structure XmssVerifyGadget (Wire : Type) (K : Nat) where
  epoch : Wire
  signature : Vector Wire K

def XmssVerifyGadget.new (domainParam : Vector Wire nFeWords) (signedMsg : Vector Wire nDigestWords)
    (merkleRoot : Vector Wire nFeWords) : m (XmssVerifyGadget Wire K) := do
  let epoch ← b.addWitness
  let signature ← addWitnesses b K
  b.circuitXmssVerify domainParam merkleRoot signedMsg epoch signature
  return { epoch, signature }

structure XmssMultisigVerifyGadget (Wire : Type) (K n : Nat) where
  perSigner : Vector (Vector Wire K) n
  epoch : Wire

def XmssMultisigVerifyGadget.new (domainParam : Vector Wire nFeWords)
    (signedMsg : Vector Wire nDigestWords) (epochWire : Wire) (roots : Vector (Vector Wire nFeWords) n) :
    m (XmssMultisigVerifyGadget Wire K n) := do
  let perSigner ← Vector.ofFnM fun i : Fin n => do
    let signature ← addWitnesses b K
    b.circuitXmssVerify domainParam roots[i] signedMsg epochWire signature
    return signature
  return { perSigner, epoch := epochWire }

/-- The wires of the single-signer circuit, the public ones in `inoutWires`. -/
structure CircuitFields (Wire : Type) (K : Nat) where
  commit : BlindCommitGadget Wire
  xmssVerify : XmssVerifyGadget Wire K
  inoutWires : List Wire

def buildCircuit : m (CircuitFields Wire K) := do
  let commit ← BlindCommitGadget.new b
  let xmssRootWires ← addInouts b nFeWords
  let xmssVerify ← XmssVerifyGadget.new b commit.domainParam commit.comD xmssRootWires
  return { commit, xmssVerify, inoutWires := commit.inoutWires ++ xmssRootWires.toList }

structure CircuitFieldsMulti (Wire : Type) (K n : Nat) where
  commit : BlindCommitGadget Wire
  xmssMulti : XmssMultisigVerifyGadget Wire K n
  inoutWires : List Wire

def buildCircuitMulti (n : Nat) : m (CircuitFieldsMulti Wire K n) := do
  let commit ← BlindCommitGadget.new b
  let epochWire ← b.addWitness
  let roots ← Vector.ofFnM fun _ : Fin n => addInouts b nFeWords
  let xmssMulti ← XmssMultisigVerifyGadget.new b commit.domainParam commit.comD epochWire roots
  return { commit, xmssMulti,
           inoutWires := commit.inoutWires ++ roots.toList.flatMap Vector.toList }

end Gadgets

section PublicInputs

variable (C : Crates)

def buildBlindCommitPublicWords (msg : List Byte) (pkSeed : PublicParam) : List Word64 :=
  (bytes32ToWords (blake3256 C msg)).toList ++
    (bytes16ToWords (buildWotsDomainParam pkSeed)).toList

/-- `Verifier::build_public_inputs`. -/
def buildPublicInputs (msg : List Byte) (pkSeed : PublicParam) (xmssRoot : Digest) :
    List Word64 :=
  buildBlindCommitPublicWords C msg pkSeed ++ (bytes16ToWords xmssRoot).toList

/-- `MultiVerifier::build_public_inputs`. -/
def buildPublicInputsMulti (msg : List Byte) (pkSeed : PublicParam) (roots : List Digest) :
    List Word64 :=
  buildBlindCommitPublicWords C msg pkSeed ++ roots.flatMap fun root => (bytes16ToWords root).toList

end PublicInputs

end BlindSig.Binius
