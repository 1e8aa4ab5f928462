import BlindSig.Lib.Codec

/-! The records that several of the programs share. The Halevi–Micali commitment as longfellow and
binius64 hold it: two lines of six coefficients, two right-hand sides and the hash of the nonces, on
the wire `a || b || y`. What the signer of the C and C++ programs keeps and sends: the seeds, the
height and the next leaf in the key file, the root and the public seed in the public one, and the
signature as leaf index, nonce, chain tips and path. -/
namespace BlindSig

section Commitment

abbrev nFe : Nat := 16
abbrev nNonce : Nat := 6
abbrev nLines : Nat := 2
abbrev nY : Nat := 32

abbrev FeBytes := Vector Byte nFe
abbrev Nonces := Vector FeBytes nNonce

structure HmCommitment where
  a : Vector Nonces nLines
  b : Vector FeBytes nLines
  y : Vector Byte nY
  deriving DecidableEq

structure CommitmentOpening where
  msg : List Byte
  r : Nonces
  deriving DecidableEq

abbrev commitmentBytes : Nat := nLines * nNonce * nFe + nLines * nFe + nY

/-- A nonce vector is its six elements in order. -/
def noncesCodec : Codec Nonces := (Codec.array nFe).loop nNonce

def HmCommitment.fields : (Vector Nonces nLines × Vector FeBytes nLines × Vector Byte nY) ≃
    HmCommitment where
  toFun x := ⟨x.1, x.2.1, x.2.2⟩
  invFun c := (c.a, c.b, c.y)
  left_inv _ := rfl
  right_inv _ := rfl

def commitmentCodec : Codec HmCommitment :=
  ((noncesCodec.loop nLines).seq (((Codec.array nFe).loop nLines).seq (Codec.array nY))).xmap
    HmCommitment.fields

@[simp] theorem noncesCodec_width : noncesCodec.width = 96 := rfl
@[simp] theorem commitmentCodec_width : commitmentCodec.width = 256 := rfl

/-- The commitment read field by field. -/
theorem commitmentCodec_read (p : List Byte) :
    commitmentCodec.read p = (do
      let (a, p) ← readLoop (readLoop (readArray nFe) nNonce) nLines p
      let (b, p) ← readLoop (readArray nFe) nLines p
      let (y, p) ← readArray nY p
      return (⟨a, b, y⟩, p)) := by
  simp only [commitmentCodec, Codec.xmap, Codec.seq, Codec.loop, Codec.array, noncesCodec,
    HmCommitment.fields]
  cases readLoop (readLoop (readArray nFe) nNonce) nLines p with
  | none => rfl
  | some first =>
    cases h : readLoop (readArray nFe) nLines first.2 with
    | none => simp [h]
    | some second => cases h' : readArray nY second.2 <;> simp [h, h']

end Commitment

section SignerKey

structure SignerKey where
  skSeed : Vector Byte 32
  pkSeed : Vector Byte 16
  height : Byte
  nextLeaf : BitVec 64
  deriving DecidableEq

/-- The heights that a reader lets pass. -/
def SignerKey.heightInRange (key : SignerKey) : Prop := 1 ≤ key.height.toNat ∧ key.height.toNat ≤ 32

instance (key : SignerKey) : Decidable key.heightInRange := by
  unfold SignerKey.heightInRange
  infer_instance

/-- Is there a leaf left? -/
def SignerKey.Room (key : SignerKey) : Prop :=
  key.heightInRange ∧ key.nextLeaf.toNat < 2 ^ key.height.toNat

def SignerKey.used (key : SignerKey) : SignerKey := { key with nextLeaf := key.nextLeaf + 1 }

/-- The key after `n` signatures. -/
def SignerKey.counted (key : SignerKey) (n : Nat) : SignerKey :=
  { key with nextLeaf := BitVec.ofNat 64 n }

theorem SignerKey.counted_toNat {key : SignerKey} (inside : key.heightInRange) {n : Nat}
    (left : n ≤ 2 ^ key.height.toNat) : (key.counted n).nextLeaf.toNat = n := by
  have short : 2 ^ key.height.toNat ≤ 2 ^ 32 := Nat.pow_le_pow_right (by decide) inside.2
  exact (BitVec.toNat_ofNat n 64).trans (Nat.mod_eq_of_lt (by omega))

theorem SignerKey.counted_leaf (key : SignerKey) (n : Nat) :
    (key.counted n).nextLeaf.setWidth 32 = BitVec.ofNat 32 n := by
  simp [counted, BitVec.setWidth_ofNat_of_le]

theorem SignerKey.counted_used (key : SignerKey) (n : Nat) :
    (key.counted n).used = key.counted (n + 1) := by
  simp only [counted, used, BitVec.ofNat_add]
  rfl

/-- A leaf below `2 ^ height` for a height up to 32 is exact in 32 bits and has a successor. -/
theorem leaf_exact {leaf : BitVec 64} {height : Nat} (le : height ≤ 32)
    (room : leaf.toNat < 2 ^ height) :
    (leaf.setWidth 32).toNat = leaf.toNat ∧ (leaf + 1).toNat = leaf.toNat + 1 := by
  have short : leaf.toNat < 2 ^ 32 := room.trans_le (Nat.pow_le_pow_right (by decide) le)
  refine ⟨?_, ?_⟩
  · rw [BitVec.toNat_setWidth, Nat.mod_eq_of_lt short]
  · have one : (1 : BitVec 64).toNat = 1 := rfl
    rw [BitVec.toNat_add, one, Nat.mod_eq_of_lt (by omega)]

def SignerKey.fields : (Vector Byte 32 × Vector Byte 16 × Byte × BitVec 64) ≃ SignerKey where
  toFun x := ⟨x.1, x.2.1, x.2.2.1, x.2.2.2⟩
  invFun key := (key.skSeed, key.pkSeed, key.height, key.nextLeaf)
  left_inv _ := rfl
  right_inv _ := rfl

def signerKeyCodec : Codec SignerKey :=
  ((Codec.array 32).seq ((Codec.array 16).seq ((Codec.little 8 1 rfl).seq
    (Codec.little 64 8 rfl)))).xmap SignerKey.fields

def signerPubCodec : Codec (Vector Byte 16 × Vector Byte 16) :=
  (Codec.array 16).seq (Codec.array 16)

def xmssSigCodec :
    Codec (Word × Vector Byte 24 × Vector (Vector Byte 16) 42 × Vector (Vector Byte 16) 32) :=
  Codec.u32.seq ((Codec.array 24).seq (((Codec.array 16).loop 42).seq ((Codec.array 16).loop 32)))

@[simp] theorem signerKeyCodec_width : signerKeyCodec.width = 57 := rfl
@[simp] theorem signerPubCodec_width : signerPubCodec.width = 32 := rfl
@[simp] theorem xmssSigCodec_width : xmssSigCodec.width = 1212 := rfl

end SignerKey

end BlindSig
