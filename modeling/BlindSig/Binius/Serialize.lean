import BlindSig.Records

/-! The binius64 user state on the wire: `msg_len || msg || a || b || y || r`, with the length
cast to `u32` and read back to a `usize`. A slice past the end panics. The commitment in it is over
the GHASH field of the proof system: BLAKE3 and the product of the field are parameters, the sum of
the field is exclusive or. -/
namespace BlindSig.Binius

structure UserState where
  opening : CommitmentOpening
  com : HmCommitment
  deriving DecidableEq

/-- `HmCommitment::to_bytes`. -/
def toBytes (com : HmCommitment) : List Byte :=
  com.a.toList.flatMap (fun line => line.toList.flatMap Vector.toList) ++
    (com.b.toList.flatMap Vector.toList ++ com.y.toList)

/-- `HmCommitment::from_bytes`, with `take` the cursor. -/
def fromBytes (buf : List Byte) : Option HmCommitment := do
  let (a, p) ← readLoop (readLoop (readArray nFe) nNonce) nLines buf
  let (b, p) ← readLoop (readArray nFe) nLines p
  let (y, _) ← readArray nY p
  return ⟨a, b, y⟩

def stateNonceBytes : Nat := nNonce * nFe

def writeUserState (state : UserState) : List Byte :=
  (le32Bytes (BitVec.ofNat 32 state.opening.msg.length)).toList ++ state.opening.msg ++
    toBytes state.com ++ state.opening.r.toList.flatMap Vector.toList

def readUserState (buf : List Byte) : Checked Unit UserState := do
  check (4 + commitmentBytes + stateNonceBytes ≤ buf.length) ()
  let (field, _) ← fetch (readArray 4 buf)
  let msgLen := (le32Word field).toNat
  check (buf.length = 4 + msgLen + commitmentBytes + stateNonceBytes) ()
  let (msg, _) ← fetch (readSpan msgLen (buf.drop 4))
  let (comBytes, _) ← fetch (readSpan commitmentBytes (buf.drop (4 + msgLen)))
  let (r, _) ← fetch (readLoop (readArray nFe) nNonce (buf.drop (4 + msgLen + commitmentBytes)))
  let com ← fetch (fromBytes comBytes)
  return { opening := { msg, r }, com }

theorem fromBytes_toBytes (com : HmCommitment) : fromBytes (toBytes com) = some com := by
  have back : commitmentCodec.read (toBytes com) = some (com, []) :=
    commitmentCodec.read_eq_some.mpr (List.append_nil _).symm
  have first : fromBytes (toBytes com) = (commitmentCodec.read (toBytes com)).map Prod.fst := by
    rw [commitmentCodec_read, fromBytes]
    simp [Option.map_bind]
  rw [first, back]
  rfl

theorem length_toBytes (com : HmCommitment) : (toBytes com).length = commitmentBytes :=
  commitmentCodec.length_write com

/-- The four parts of a written state, where the reader's offsets find them. -/
theorem readUserState_write (state : UserState) :
    readUserState (writeUserState state) =
      if state.opening.msg.length < 2 ^ 32 then .ok state else .error (.check ()) := by
  obtain ⟨⟨msg, r⟩, com⟩ := state
  have comLen := length_toBytes com
  have rLen : (noncesCodec.write r).length = stateNonceBytes := noncesCodec.length_write r
  have split : writeUserState ⟨⟨msg, r⟩, com⟩ = (le32Bytes (BitVec.ofNat 32 msg.length)).toList ++
      (msg ++ (toBytes com ++ noncesCodec.write r)) := by
    simp only [writeUserState, List.append_assoc]
    rfl
  have field : readArray 4 (writeUserState ⟨⟨msg, r⟩, com⟩) =
      some (le32Bytes (BitVec.ofNat 32 msg.length), msg ++ (toBytes com ++ noncesCodec.write r)) :=
    readArray_eq_some.mpr split
  have total : (writeUserState ⟨⟨msg, r⟩, com⟩).length =
      4 + msg.length + commitmentBytes + stateNonceBytes := by
    simp only [split, List.length_append, comLen, rLen, Vector.length_toList]
    omega
  have afterField : (writeUserState ⟨⟨msg, r⟩, com⟩).drop 4 =
      msg ++ (toBytes com ++ noncesCodec.write r) := by
    rw [split]
    exact List.drop_left' (by simp)
  have afterMsg : (writeUserState ⟨⟨msg, r⟩, com⟩).drop (4 + msg.length) =
      toBytes com ++ noncesCodec.write r := by
    rw [← List.drop_drop, afterField]
    exact List.drop_left' rfl
  have afterCom : (writeUserState ⟨⟨msg, r⟩, com⟩).drop (4 + msg.length + commitmentBytes) =
      noncesCodec.write r := by
    rw [← List.drop_drop, afterMsg]
    exact List.drop_left' comLen
  have nonces : readLoop (readArray nFe) nNonce (noncesCodec.write r) = some (r, []) :=
    noncesCodec.read_eq_some.mpr (List.append_nil _).symm
  rw [readUserState, check_true (by omega), field]
  simp only [fetch_some, bind, Except.bind, le32Word_le32Bytes, BitVec.toNat_ofNat, total]
  by_cases fits : msg.length < 2 ^ 32
  · rw [Nat.mod_eq_of_lt fits, check_true rfl, afterField, afterMsg, afterCom, if_pos fits,
      readSpan_eq_some.mpr ⟨rfl, rfl⟩, readSpan_eq_some.mpr ⟨rfl, comLen⟩]
    simp [nonces, fromBytes_toBytes, pure, Except.pure]
  · have shorter : msg.length % 2 ^ 32 < 2 ^ 32 := Nat.mod_lt _ (by decide)
    rw [check_false (by omega), if_neg fits]

section Commitment

/-- The hash and the field of the crates. -/
structure Crates where
  /-- `blake3::hash`. -/
  blake3 : List Byte → Vector Byte 32
  /-- The product of `Ghash128b` on its `u128` representation. -/
  ghashMul : BitVec 128 → BitVec 128 → BitVec 128

abbrev nDigestWords : Nat := 4
abbrev nFeWords : Nat := 2

variable (C : Crates)

def blake3256 (msg : List Byte) : Vector Byte 32 := C.blake3 msg

/-- `u128::from_le_bytes`. -/
def fieldFromBytes (value : FeBytes) : BitVec 128 := leValue 128 value

def comDigest (com : HmCommitment) : Vector Byte nY := blake3256 C (toBytes com)

def hashR (r : Nonces) : Vector Byte nY := blake3256 C (r.toList.flatMap Vector.toList)

def encodeDigest (mHat : Vector Byte nY) : Vector FeBytes nLines :=
  Vector.ofFn fun k : Fin nLines => slice mHat (k * nFe) nFe (by
    have := k.isLt
    simp only [nFe, nY, nLines] at *
    omega)

def encodeMessage (msg : List Byte) : Vector FeBytes nLines := encodeDigest (blake3256 C msg)

/-- `b + Σ aᵢ rᵢ`. -/
def affineSum (b : FeBytes) (a r : Nonces) : BitVec 128 :=
  (List.finRange nNonce).foldl (fun lhs (i : Fin nNonce) =>
    lhs ^^^ C.ghashMul (fieldFromBytes a[i]) (fieldFromBytes r[i])) (fieldFromBytes b)

def verifyHmOpening (com : HmCommitment) (msg : List Byte) (r : Nonces) : Bool :=
  hashR C r == com.y &&
    (List.finRange nLines).all fun k =>
      affineSum C com.b[k] com.a[k] r == fieldFromBytes (encodeMessage C msg)[k]

theorem verifyHmOpening_iff {com : HmCommitment} {msg : List Byte} {r : Nonces} :
    verifyHmOpening C com msg r = true ↔ hashR C r = com.y ∧
      ∀ k : Fin nLines, affineSum C com.b[k] com.a[k] r = fieldFromBytes (encodeMessage C msg)[k] := by
  simp [verifyHmOpening]

end Commitment

end BlindSig.Binius
