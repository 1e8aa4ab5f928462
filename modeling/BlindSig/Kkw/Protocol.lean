import BlindSig.Kkw.Gf128Field
import BlindSig.Kkw.NativeRelation
import BlindSig.Kkw.Proof
import BlindSig.Kkw.Signer
import BlindSig.UserState

/-! The kkw scheme from its keys to the check of a blind signature. -/
namespace BlindSig.Kkw

section Witness

/-- `memcpy` of the user's state and the signature; the schedule bytes hold what was there. -/
def proveInput (st : BlindUserState) (sig : XmssSig) (stale : Vector Byte wScheduleLen) : Witness :=
  st.r ++ (slice st.com 0 hmABytes (by decide) ++ (putEpochBe sig.leafIndex ++ (sig.nonce ++
    (join sig.sigHashes ++ (join sig.authPath ++ stale)))))

variable (st : BlindUserState) (sig : XmssSig) (stale : Vector Byte wScheduleLen)

theorem proveInput_r : witnessR (proveInput st sig stale) = st.r :=
  (slice_append_front _ _ 0 hmRBytes (by decide)).trans (slice_whole _)

theorem proveInput_a : witnessA (proveInput st sig stale) = slice st.com 0 hmABytes (by decide) :=
  (slice_append_back st.r _ 0 hmABytes (by decide)).trans
    ((slice_append_front _ _ 0 hmABytes (by decide)).trans (slice_whole _))

theorem proveInput_epoch : witnessEpoch (proveInput st sig stale) = putEpochBe sig.leafIndex :=
  (slice_append_back st.r _ (hmABytes + 0) 4 (by decide)).trans
    ((slice_append_back _ _ 0 4 (by decide)).trans
      ((slice_append_front _ _ 0 4 (by decide)).trans (slice_whole _)))

theorem proveInput_nonce : witnessNonce (proveInput st sig stale) = sig.nonce :=
  (slice_append_back st.r _ (hmABytes + (4 + 0)) 24 (by decide)).trans
    ((slice_append_back _ _ (4 + 0) 24 (by decide)).trans
      ((slice_append_back _ _ 0 24 (by decide)).trans
        ((slice_append_front _ _ 0 24 (by decide)).trans (slice_whole _))))

theorem proveInput_tail :
    slice (proveInput st sig stale) wSigOff (xmssWotsLen * 16 + (xmssH * 16 + wScheduleLen)) (by decide) =
      join sig.sigHashes ++ (join sig.authPath ++ stale) :=
  (slice_append_back st.r _ (hmABytes + (4 + (24 + 0))) _ (by decide)).trans
    ((slice_append_back _ _ (4 + (24 + 0)) _ (by decide)).trans
      ((slice_append_back _ _ (24 + 0) _ (by decide)).trans
        ((slice_append_back _ _ 0 _ (by decide)).trans (slice_whole _))))

theorem proveInput_tips : slice (proveInput st sig stale) wSigOff (xmssWotsLen * 16) (by decide) =
    join sig.sigHashes := by
  have front := slice_slice (proveInput st sig stale) wSigOff
    (xmssWotsLen * 16 + (xmssH * 16 + wScheduleLen)) 0 (xmssWotsLen * 16) (by decide) (by decide)
  rw [proveInput_tail, slice_append_front _ _ _ _ (by decide), slice_whole] at front
  exact front.symm

theorem proveInput_path : slice (proveInput st sig stale) wPathOff (xmssH * 16) (by decide) =
    join sig.authPath := by
  have behind := slice_slice (proveInput st sig stale) wSigOff
    (xmssWotsLen * 16 + (xmssH * 16 + wScheduleLen)) (xmssWotsLen * 16 + 0) (xmssH * 16) (by decide)
    (by decide)
  rw [proveInput_tail, slice_append_back _ _ _ _ (by decide), slice_append_front _ _ _ _ (by decide),
    slice_whole] at behind
  exact behind.symm

theorem proveInput_leafIndex : epochOf (proveInput st sig stale) = sig.leafIndex :=
  putEpochBe_injective ((putEpochBe_epochOf _).trans (proveInput_epoch st sig stale))

/-- The signature stands in the witness. -/
theorem proveInput_sig : witnessSig (proveInput st sig stale) = sig := by
  have tips : (Vector.ofFn fun ci : Fin xmssWotsLen => chainTip (proveInput st sig stale) ci) =
      sig.sigHashes := by
    apply Vector.ext
    intro ci inside
    rw [Vector.getElem_ofFn]
    have place := slice_slice (proveInput st sig stale) wSigOff (xmssWotsLen * 16) (ci * 16) 16
      (by decide) (by unfold xmssWotsLen at *; omega)
    rw [proveInput_tips] at place
    exact place.symm.trans (slice_join _ inside _)
  have path : witnessPath (proveInput st sig stale) = sig.authPath := by
    apply Vector.ext
    intro level inside
    rw [witnessPath, Vector.getElem_ofFn]
    have place := slice_slice (proveInput st sig stale) wPathOff (xmssH * 16) (level * 16) 16
      (by decide) (by unfold xmssH at *; omega)
    rw [proveInput_path] at place
    exact place.symm.trans (slice_join _ inside _)
  rw [witnessSig, proveInput_leafIndex, proveInput_nonce, tips, path]

end Witness

section Protocol

variable (H : Hasher)

/-- The commitment of the user, under fresh nonces and coefficients. -/
def blindUserCommit (msg random : List Byte) : Checked Unit BlindUserState := do
  let (r, random) ← fetch ((Codec.array hmRBytes).read random)
  let (a, _) ← fetch ((Codec.array hmABytes).read random)
  let (com, _) := hmCommit H (blindMsgDigest H msg) r a
  return { msg, com, r }

/-- Signatures one after the other, and the key after them. -/
def blindSignerSigns (key : BlindSignerKey) (calls : List (Vector Byte hmComBytes × List Nonce)) :
    Checked Unit BlindSignerKey :=
  calls.foldlM (fun key call => do
    let (_, key) ← blindSignerSign H key call.1 call.2
    return key) key

variable (P : Params)

def blindUserProve (fuel : Nat) (st : BlindUserState) (pkSeed : PkSeed) (root : Node) (sig : XmssSig)
    (stale : Vector Byte wScheduleLen) (random : List Byte) : Checked ProveText (List Byte) := do
  let mHat := blindMsgDigest H st.msg
  let (input, built) := kkwBuildSchedule H (proveInput st sig stale) mHat pkSeed
  check (built = true) .schedule
  kkwProve H P mHat pkSeed fuel input (buildPubout root) random

def blindVerifySig (fuel : Nat) (proof msg : List Byte) (pkSeed : PkSeed) (root : Node) :
    Checked VerifyText Unit :=
  kkwVerify H P (blindMsgDigest H msg) pkSeed fuel proof (buildPubout root)

end Protocol

section Honest

variable {H : Hasher} {pkSeed : PkSeed} {root : Node}

/-- The tree of the key is the one of the public key. -/
structure Ready (H : Hasher) (pkSeed : PkSeed) (root : Node) (key : BlindSignerKey) : Prop where
  tree : ∃ tree, key.tree = some tree ∧ (xmssHashes H).Valid tree ∧ tree.pkSeed = pkSeed ∧
    tree.root = root ∧ tree.height = key.height.toNat

theorem ready_keygen {skSeed : Vector Byte 32} {height : Nat} {key : BlindSignerKey}
    (made : blindKeygen H skSeed pkSeed height = .ok (key, root)) : Ready H pkSeed root key := by
  obtain ⟨_, inside, made⟩ := bind_eq_ok.mp made
  obtain ⟨tree, built, made⟩ := bind_eq_ok.mp made
  obtain ⟨rfl, rfl⟩ := Prod.mk.inj (Except.ok.inj made)
  have inside := check_eq_ok.mp inside
  have split : 1 ≤ min height xmssSubtreeH ∧ min height xmssSubtreeH ≤ height :=
    ⟨Nat.le_min.mpr ⟨inside.1, by decide⟩, Nat.min_le_left _ _⟩
  obtain ⟨kp, made, valid, -, seed, levels⟩ :=
    (xmssHashes H).keypairNewSplit_valid skSeed pkSeed inside split
  obtain rfl := Except.ok.inj (made.symm.trans built)
  have small : height < 2 ^ 8 := Nat.lt_of_le_of_lt inside.2 (by decide)
  refine ⟨kp, rfl, valid, seed, rfl, levels.trans ?_⟩
  exact (Nat.mod_eq_of_lt small).symm

theorem ready_sign {key key' : BlindSignerKey} (ready : Ready H pkSeed root key)
    {com : Vector Byte hmComBytes} {nonces : List Nonce} {sig : XmssSig}
    (signed : blindSignerSign H key com nonces = .ok (sig, key')) :
    Ready H pkSeed root key' ∧ xmssVerify H pkSeed root (hmDigest H com).toList sig = true := by
  obtain ⟨tree, warm, valid, seed, top, levels⟩ := ready.tree
  simp only [blindSignerSign, warm] at signed
  obtain ⟨_, _, signed⟩ := bind_eq_ok.mp signed
  obtain ⟨_, same, signed⟩ := bind_eq_ok.mp signed
  obtain rfl := Except.ok.inj same
  obtain ⟨⟨sig', tree'⟩, made, signed⟩ := bind_eq_ok.mp signed
  obtain ⟨rfl, rfl⟩ := Prod.mk.inj (Except.ok.inj signed)
  obtain ⟨valid', kept, verified, -⟩ := (xmssHashes H).keypairSign_ok valid made
  rw [seed, top] at verified
  exact ⟨⟨tree', rfl, valid', kept.pkSeed.trans seed, kept.root.trans top,
    kept.height.trans levels⟩, verified⟩

/-- A leaf below the capacity is signed as soon as a nonce is found. -/
theorem ready_found {key : BlindSignerKey} (ready : Ready H pkSeed root key)
    (room : key.nextLeaf.toNat < 2 ^ key.height.toNat) {com : Vector Byte hmComBytes}
    {nonces : List Nonce} {found : Nonce × Vector Byte xmssWotsLen}
    (grind : (xmssHashes H).grindNonce pkSeed (key.nextLeaf.setWidth 32) (hmDigest H com).toList
      nonces = some found) : ∃ sig key', blindSignerSign H key com nonces = .ok (sig, key') ∧
        key'.nextLeaf = key.nextLeaf + 1 ∧ key'.height = key.height := by
  obtain ⟨tree, warm, valid, seed, -, levels⟩ := ready.tree
  have short : (key.nextLeaf.setWidth 32).toNat < 2 ^ tree.height := by
    rw [levels, BitVec.toNat_setWidth]
    exact Nat.lt_of_le_of_lt (Nat.mod_le _ _) room
  obtain ⟨⟨sig, tree'⟩, made⟩ := ((xmssHashes H).keypairSign_isOk valid).mpr ⟨short, found, seed ▸ grind⟩
  refine ⟨sig, { key with nextLeaf := key.nextLeaf + 1, tree := some tree' },
    bind_eq_ok.mpr ⟨(), check_true (by rwa [Nat.one_shiftLeft]) _, ?_⟩, rfl, rfl⟩
  rw [warm]
  exact bind_eq_ok.mpr ⟨tree, rfl, bind_eq_ok.mpr ⟨(sig, tree'), made, rfl⟩⟩

theorem ready_signs {key key' : BlindSignerKey} (ready : Ready H pkSeed root key)
    {calls : List (Vector Byte hmComBytes × List Nonce)}
    (signed : blindSignerSigns H key calls = .ok key') : Ready H pkSeed root key' := by
  induction calls generalizing key with
  | nil =>
    obtain rfl := Except.ok.inj signed
    exact ready
  | cons call calls ih =>
    rw [blindSignerSigns, List.foldlM_cons] at signed
    obtain ⟨key₁, step, signed⟩ := bind_eq_ok.mp signed
    obtain ⟨⟨sig, key₂⟩, made, step⟩ := bind_eq_ok.mp step
    obtain rfl := Except.ok.inj step
    exact ih (ready_sign ready made).1 signed

/-- The digest that the signer signs is the one that the witness opens. -/
theorem committed_digest {H : Blake3} {msg random : List Byte} {st : BlindUserState}
    (committed : blindUserCommit H.toHasher msg random = .ok st) (sig : XmssSig)
    (stale : Vector Byte wScheduleLen) : st.msg = msg ∧
      witnessDigest H (blindMsgDigest H.toHasher st.msg) (proveInput st sig stale) =
        hmDigest H.toHasher st.com := by
  obtain ⟨⟨r, random₁⟩, _, committed⟩ := bind_eq_ok.mp committed
  obtain ⟨⟨a, random₂⟩, _, committed⟩ := bind_eq_ok.mp committed
  obtain rfl := Except.ok.inj committed
  refine ⟨rfl, ?_⟩
  rw [witnessDigest, proveInput_r, proveInput_a]
  have coefficients (b : Vector Byte hmBBytes) (y : Vector Byte hmYBytes) :
      slice (hmCommitment a b y) 0 hmABytes (by decide) = a :=
    (slice_append_front _ _ 0 hmABytes (by decide)).trans
      ((slice_append_front _ _ 0 hmABytes (by decide)).trans (slice_whole _))
  simp only [hmCommit]
  rw [coefficients]

end Honest

section Completeness

variable (H : Blake3) (P : Params) {pkSeed : PkSeed} {root : Node} {msg : List Byte}
  {st : BlindUserState} {sig : XmssSig}

/-- The witness that the prover is given. -/
def scheduledInput (H : Hasher) (st : BlindUserState) (pkSeed : PkSeed) (sig : XmssSig)
    (stale : Vector Byte wScheduleLen) : Witness :=
  (kkwBuildSchedule H (proveInput st sig stale) (blindMsgDigest H st.msg) pkSeed).1

/-- A valid signature gets its schedule, and the circuit the public output. -/
theorem scheduledInput_output {drawn : List Byte}
    (committed : blindUserCommit H.toHasher msg drawn = .ok st)
    (verified : xmssVerify H.toHasher pkSeed root (hmDigest H.toHasher st.com).toList sig = true)
    (stale : Vector Byte wScheduleLen) :
    (kkwBuildSchedule H.toHasher (proveInput st sig stale) (blindMsgDigest H.toHasher st.msg)
      pkSeed).2 = true ∧
    plainOutput (blindMsgDigest H.toHasher st.msg) pkSeed
      (scheduledInput H.toHasher st pkSeed sig stale) = buildPubout root := by
  have digest := (committed_digest committed sig stale).2
  have hashed : witnessHash H (blindMsgDigest H.toHasher st.msg) pkSeed (proveInput st sig stale) =
      xmssHashMessage H.toHasher pkSeed sig.leafIndex sig.nonce
        (hmDigest H.toHasher st.com).toList := by
    rw [witnessHash, digest, proveInput_leafIndex, proveInput_nonce]
  have checks := verified
  rw [xmssVerify, XmssHashes.verify_iff] at checks
  obtain ⟨leftover, sum, -⟩ := checks
  have accepted := (kkwBuildSchedule_accepts H (blindMsgDigest H.toHasher st.msg) pkSeed
    (proveInput st sig stale)).mpr (by
      rw [hashed]
      exact ⟨leftover, sum⟩)
  obtain ⟨kept, scheduled⟩ := kkwBuildSchedule_scheduled H _ pkSeed _ accepted
  refine ⟨accepted, (plainOutput_eq_buildPubout H _ pkSeed root _).mpr ⟨?_, scheduled⟩⟩
  rw [scheduledInput, witnessDigest_kept kept, witnessSig_kept kept, digest, proveInput_sig]
  exact verified

/-- The randomness of one proof, in the order it is drawn. -/
def proverCoins (seedStars : Vector Seed P.mKkw) (rAll : Vector (Vector Byte 32) P.mKkw)
    (nonce : Vector Byte 32) (rest : List Byte) : List Byte :=
  ((Codec.array 32).loop P.mKkw).write seedStars ++
    (((Codec.array 32).loop P.mKkw).write rAll ++ ((Codec.array 32).write nonce ++ rest))

/-- The prefix of the challenge that is derived from pass 1. -/
def provedPrefix (H : Hasher) (P : Params) (st : BlindUserState) (pkSeed : PkSeed) (root : Node)
    (input : Witness) (seedStars : Vector Seed P.mKkw) (rAll : Vector (Vector Byte 32) P.mKkw)
    (nonce : Vector Byte 32) : Vector Byte 32 :=
  kkwFsPrefix H (blindMsgDigest H st.msg) (buildPubout root) pkSeed nonce
    (proverHStar H (passOne H P (blindMsgDigest H st.msg) pkSeed input seedStars) rAll)

/-- An honest signature is proved as soon as there is enough randomness and the search for a
challenge ends, and every proof that is written is accepted. Whatever the challenge, the verifier
reads the body of the proof to its last byte and recomputes `h_star`. -/
theorem blind_signature_complete {skSeed : Vector Byte 32} {height : Nat} {key key' key'' : BlindSignerKey}
    {earlier : List (Vector Byte hmComBytes × List Nonce)} {drawn : List Byte} {nonces : List Nonce}
    (made : blindKeygen H.toHasher skSeed pkSeed height = .ok (key, root))
    (before : blindSignerSigns H.toHasher key earlier = .ok key')
    (committed : blindUserCommit H.toHasher msg drawn = .ok st)
    (signed : blindSignerSign H.toHasher key' st.com nonces = .ok (sig, key''))
    (stale : Vector Byte wScheduleLen) :
    (∀ (fuel : Nat) (seedStars : Vector Seed P.mKkw) (rAll : Vector (Vector Byte 32) P.mKkw)
        (nonce : Vector Byte 32) (rest : List Byte),
      (∃ bytes, blindUserProve H.toHasher P fuel st pkSeed root sig stale
        (proverCoins P seedStars rAll nonce rest) = .ok bytes) ↔
      ∃ ctr seedFS c, grind H.toHasher P (provedPrefix H.toHasher P st pkSeed root
          (scheduledInput H.toHasher st pkSeed sig stale) seedStars rAll nonce) fuel 0 =
        some (ctr, seedFS) ∧ kkwFsExpand H.toHasher P fuel seedFS = some c) ∧
    (∀ (fuel fuel' : Nat) (random bytes : List Byte), fuel ≤ fuel' →
      blindUserProve H.toHasher P fuel st pkSeed root sig stale random = .ok bytes →
      blindVerifySig H.toHasher P fuel' bytes msg pkSeed root = .ok ()) ∧
    ∀ (seedStars : Vector Seed P.mKkw) (rAll : Vector (Vector Byte 32) P.mKkw)
        (nonce : Vector Byte 32) (ctr : Word) (c : Challenge P),
      let input := scheduledInput H.toHasher st pkSeed sig stale
      let mHat := blindMsgDigest H.toHasher msg
      let written := proofData H.toHasher (passOne H.toHasher P mHat pkSeed input seedStars) seedStars
        rAll nonce ctr c
      let d := asRead written
      readBody c (writeBody c written.closed written.rounds) = .ok ((d.closed, d.rounds), []) ∧
        hStarCheck H.toHasher mHat pkSeed d = written.hStar ∧
        checkProof H.toHasher mHat pkSeed (buildPubout root) d = .ok () := by
  have verified := (ready_sign (ready_signs (ready_keygen made) before) signed).2
  obtain ⟨built, output⟩ := scheduledInput_output H committed verified stale
  obtain rfl := (committed_digest committed sig stale).1
  have prove (fuel : Nat) (random : List Byte) :
      blindUserProve H.toHasher P fuel st pkSeed root sig stale random =
        kkwProve H.toHasher P (blindMsgDigest H.toHasher st.msg) pkSeed fuel
          (scheduledInput H.toHasher st pkSeed sig stale) (buildPubout root) random := by
    rw [blindUserProve]
    dsimp only
    rw [check_true built]
    rfl
  refine ⟨fun fuel seedStars rAll nonce rest => ?_, fun fuel fuel' random bytes longer proved => ?_,
    fun seedStars rAll nonce ctr c => ?_⟩
  · rw [prove, proverCoins, kkwProve_eq output]
    constructor
    · rintro ⟨bytes, proved⟩
      obtain ⟨⟨ctr, seedFS⟩, found, proved⟩ := bind_eq_ok.mp proved
      obtain ⟨c, expanded, -⟩ := bind_eq_ok.mp proved
      exact ⟨ctr, seedFS, c, drawOr_eq_ok.mp found, drawOr_eq_ok.mp expanded⟩
    · rintro ⟨ctr, seedFS, c, found, expanded⟩
      exact ⟨_, bind_eq_ok.mpr ⟨(ctr, seedFS), drawOr_eq_ok.mpr found,
        bind_eq_ok.mpr ⟨c, drawOr_eq_ok.mpr expanded, rfl⟩⟩⟩
  · rw [prove] at proved
    exact kkwVerify_kkwProve longer proved
  · intro input mHat written d
    have body : writeBody c written.closed written.rounds = writeBody c d.closed d.rounds :=
      (writeBody_asRead written).symm
    rw [body]
    refine ⟨readBody_eq_ok.mpr ⟨(List.append_nil _).symm, ?_⟩, ?_, ?_⟩
    · exact honest_asRead input seedStars rAll nonce ctr c H.toHasher mHat pkSeed
    · exact hStarCheck_honest input seedStars rAll nonce ctr c
    · exact checkProof_honest input seedStars rAll nonce ctr c fun j => (passOne_output j).trans output

end Completeness

section Sample

open XorGroup

/-! A session with real hashes: the second signature of a key of eight leaves, on a commitment with
vanishing coefficients. -/

def sessionNonces : Vector Byte hmRBytes := Vector.replicate _ 3

def sessionMsg : List Byte := [1, 2, 3]

def sessionCommitment : Vector Byte hmComBytes :=
  hmCommitment (Vector.replicate _ 0) (blindMsgDigest singleChunkBlake3.toHasher sessionMsg)
    (hmY singleChunkBlake3.toHasher sessionNonces)

/-- Four parties and four instances, one of which is opened: every draw is accepted. -/
def fourInstances : Params :=
  { defaultParams with
    mKkw := 4
    numRounds := 1
    grindW := 0
    rounds_lt := by decide
    grindW_lt := by decide }

def sessionDigest : Vector Byte 32 := hmDigest singleChunkBlake3.toHasher sessionCommitment

set_option maxRecDepth 10000 in
theorem sessionDigest_eq : sessionDigest =
    #v[0xdf, 0x31, 0x03, 0x5f, 0x9d, 0x4b, 0xdf, 0x05, 0x3b, 0x79, 0xc4, 0x6b, 0x98, 0x34, 0x9b, 0xb4,
      0x49, 0x6b, 0xcb, 0x57, 0xd7, 0x90, 0xd3, 0xe6, 0x60, 0x17, 0x5a, 0x0d, 0xa1, 0x4b, 0x1c, 0x91] := by
  decide +kernel

theorem gf128Mul_zeros (x : Vector Byte 16) : gf128Mul zeros x = zeros := by
  have double := gf128Mul_xor x zeros zeros
  rw [xor_self', xor_self'] at double
  rw [gf128Mul_comm, double]

theorem hmLines_zeros (mHat : Vector Byte 32) (r : Vector Byte hmRBytes) :
    hmLines mHat (Vector.replicate _ 0) r = mHat := by
  have coefficient (k : Fin 2) (i : Fin 6) :
      hmCoefficient (Vector.replicate hmABytes (0 : Byte)) k i = zeros := by
    apply Vector.ext
    intro j hj
    simp [hmCoefficient]
  have line (k : Fin 2) : (List.finRange 6).foldl (fun acc i =>
      acc ^^^ gf128Mul (hmCoefficient (Vector.replicate hmABytes (0 : Byte)) k i) (hmNonce r i))
      (hmMessage mHat k) = hmMessage mHat k := by
    simp only [coefficient, gf128Mul_zeros, xor_zeros', List.foldl_fixed]
  rw [hmLines]
  simp only [line]
  have parts : (Vector.ofFn fun k : Fin 2 => hmMessage mHat k) = rows (k := 2) (m := 16) mHat := rfl
  rw [parts]
  exact join_rows (k := 2) (m := 16) mHat

/-- Fresh bytes for the nonces and the coefficients. -/
def sessionDrawn : List Byte := sessionNonces.toList ++ ((Vector.replicate hmABytes (0 : Byte)).toList ++ [])

theorem session_committed : blindUserCommit singleChunkBlake3.toHasher sessionMsg sessionDrawn =
    .ok { msg := sessionMsg, com := sessionCommitment, r := sessionNonces } := by
  have nonces := (Codec.array hmRBytes).read_write sessionNonces
    ((Vector.replicate hmABytes (0 : Byte)).toList ++ [])
  have coefficients := (Codec.array hmABytes).read_write (Vector.replicate hmABytes (0 : Byte)) []
  refine bind_eq_ok.mpr ⟨_, fetch_eq_ok.mpr nonces, bind_eq_ok.mpr ⟨_, fetch_eq_ok.mpr coefficients, ?_⟩⟩
  dsimp only [hmCommit]
  rw [hmLines_zeros, sessionCommitment]
  rfl

theorem grind_four (H : Hasher) (hPre : Vector Byte 32) :
    grind H fourInstances hPre 1 0 = some (0, (kkwFsSeed H fourInstances hPre 0).1) := by
  rw [grind]
  exact if_pos (List.all_nil)

theorem expand_four (H : Hasher) (seedFS : Vector Byte 32) :
    ∃ c, kkwFsExpand H fourInstances 1 seedFS = some c := by
  have below (p : PrgCtx) : ∃ out, prgBelow H 4 1 p = some out := by
    refine ⟨((prgU32 H p).1.toNat % 4, (prgU32 H p).2), ?_⟩
    rw [prgBelow]
    exact if_neg (Nat.not_le.mpr (prgU32 H p).1.isLt)
  have party (p : PrgCtx) : ∃ out, prgParty H 3 1 p = some out := by
    refine ⟨(Fin.ofNat 4 (prgByte H p).1.toNat, (prgByte H p).2), ?_⟩
    rw [prgParty]
    exact if_neg (Nat.not_le.mpr (prgByte H p).1.isLt)
  obtain ⟨⟨r, p⟩, drawn⟩ := below (prgInit H seedFS)
  obtain ⟨⟨e, q⟩, hidden⟩ := party p
  have shuffled : shuffle H fourInstances 1 (prgInit H seedFS) =
      some ((Vector.finRange 4).swapIfInBounds 0 (0 + r), p) :=
    Option.bind_eq_some_iff.mpr ⟨_, Option.bind_eq_some_iff.mpr ⟨(r, p), drawn, rfl⟩, rfl⟩
  let arr : Vector (Fin 4) 4 := (Vector.finRange 4).swapIfInBounds 0 (0 + r)
  let c : Challenge fourInstances :=
    ⟨sortInts (Vector.ofFn fun k : Fin 1 => arr.get ⟨k, by omega⟩), #v[e]⟩
  refine ⟨c, Option.bind_eq_some_iff.mpr ⟨(arr, p), shuffled, ?_⟩⟩
  refine Option.bind_eq_some_iff.mpr ⟨(#v[e], q), ?_, rfl⟩
  exact Option.bind_eq_some_iff.mpr ⟨(#v[e], q),
    Option.bind_eq_some_iff.mpr ⟨(e, q), hidden, rfl⟩, rfl⟩

theorem blind_signature_complete_second :
    ∃ root key key' sig key'' st bytes,
      blindKeygen singleChunkBlake3.toHasher (.replicate _ 1) (.replicate _ 2) 3 = .ok (key, root) ∧
      blindSignerSigns singleChunkBlake3.toHasher key [(sessionCommitment, [sampleNonce 346])] =
        .ok key' ∧
      blindUserCommit singleChunkBlake3.toHasher sessionMsg sessionDrawn = .ok st ∧
      blindSignerSign singleChunkBlake3.toHasher key' st.com [sampleNonce 32975] = .ok (sig, key'') ∧
      blindUserProve singleChunkBlake3.toHasher fourInstances 1 st (.replicate _ 2) root sig
        (.replicate _ 9) (proverCoins fourInstances (Vector.ofFn fun j => .replicate _ (BitVec.ofNat 8 j))
          (.replicate _ (.replicate _ 4)) (.replicate _ 5) []) = .ok bytes ∧
      blindVerifySig singleChunkBlake3.toHasher fourInstances 1 bytes sessionMsg (.replicate _ 2) root =
        .ok () := by
  obtain ⟨tree, made⟩ := blindKeygen_ok (H := singleChunkBlake3.toHasher) (.replicate _ 1)
    (.replicate _ 2) (show 1 ≤ 3 ∧ 3 ≤ xmssH by decide)
  have ready := ready_keygen made
  have first : ((xmssHashes singleChunkBlake3.toHasher).grindNonce (.replicate _ 2) 0
      (hmDigest singleChunkBlake3.toHasher sessionCommitment).toList [sampleNonce 346]).isSome := by
    change (XmssHashes.grindNonce _ _ _ sessionDigest.toList _).isSome
    rw [sessionDigest_eq]
    decide +kernel
  have second : ((xmssHashes singleChunkBlake3.toHasher).grindNonce (.replicate _ 2) 1
      (hmDigest singleChunkBlake3.toHasher sessionCommitment).toList [sampleNonce 32975]).isSome := by
    change (XmssHashes.grindNonce _ _ _ sessionDigest.toList _).isSome
    rw [sessionDigest_eq]
    decide +kernel
  obtain ⟨found₁, grind₁⟩ := Option.isSome_iff_exists.mp first
  obtain ⟨found₂, grind₂⟩ := Option.isSome_iff_exists.mp second
  obtain ⟨sig₁, key₁, signed₁, leaf, levels⟩ := ready_found (ready_keygen made)
    (show (0 : BitVec 64).toNat < 2 ^ (BitVec.ofNat 8 3).toNat by decide) grind₁
  have before : blindSignerSigns singleChunkBlake3.toHasher _ [(sessionCommitment, [sampleNonce 346])] =
      .ok key₁ := bind_eq_ok.mpr ⟨key₁, bind_eq_ok.mpr ⟨(sig₁, key₁), signed₁, rfl⟩, rfl⟩
  obtain ⟨sig, key₂, signed₂, -, -⟩ := ready_found (ready_sign (ready_keygen made) signed₁).1
    (by
      rw [leaf, levels]
      exact (show (0 + 1 : BitVec 64).toNat < 2 ^ (BitVec.ofNat 8 3).toNat by decide))
    (by
      rw [leaf]
      exact grind₂)
  obtain ⟨proves, verifies, -⟩ := blind_signature_complete singleChunkBlake3 fourInstances made before
    session_committed signed₂ (.replicate _ 9)
  obtain ⟨c, expanded⟩ := expand_four singleChunkBlake3.toHasher _
  obtain ⟨bytes, proved⟩ := (proves 1 _ _ _ _).mpr ⟨0, _, c, grind_four _ _, expanded⟩
  exact ⟨_, _, key₁, sig, key₂, _, bytes, made, before, session_committed, signed₂, proved,
    verifies 1 1 _ bytes (Nat.le_refl 1) proved⟩

end Sample

end BlindSig.Kkw
