import BlindSig.LeafSafety

/-! Whole sessions of a signer: the key file that `keygen` writes, and calls of `sign` one after
another that nothing interrupts. A signature is good when the checks pass that `prove` makes of
`signer_pub.bin`, the commitment and `xmss_sig.bin`. -/
namespace BlindSig

section Kkw

variable (H : Kkw.Hasher)

def kkwGood (root : Kkw.Node) (pkSeed : Kkw.PkSeed) (com : Vector Byte Kkw.hmComBytes) (n : Nat)
    (sigFile : List Byte) : Prop :=
  (∃ sig, Kkw.xmssReadSig sigFile = .ok sig ∧ sig.leafIndex.toNat = n) ∧
    Kkw.proveAccepts H (Kkw.blindWriteSignerPub root pkSeed) com sigFile = true

def kkwEndless (pkSeed : Kkw.PkSeed) (com : Vector Byte Kkw.hmComBytes) (n : Nat)
    (nonces : List Kkw.Nonce) : Prop :=
  (Kkw.xmssHashes H).grindNonce pkSeed (BitVec.ofNat 32 n) (Kkw.hmDigest H com).toList nonces = none

variable {H}

variable {key : SignerKey} {n : Nat} {com : Vector Byte Kkw.hmComBytes} {nonces : List Kkw.Nonce}

theorem kkwSign_signs (inside : key.heightInRange) (left : n ≤ 2 ^ key.height.toNat) {sig : Kkw.XmssSig} {key' : SignerKey}
    (made : (kkwSign H).sign (key.counted n) com nonces = some (sig, key')) :
    n < 2 ^ key.height.toNat ∧ key' = key.counted (n + 1) ∧
      kkwGood H ((Kkw.xmssHashes H).treeRoot key.skSeed key.pkSeed key.height.toNat) key.pkSeed com n
        (Kkw.xmssWriteSig sig) := by
  have next := key.counted_toNat inside left
  obtain ⟨⟨sig', key''⟩, signed, same⟩ := Option.map_eq_some_iff.mp made
  obtain ⟨rfl, rfl⟩ := Prod.mk.inj same
  rw [toOption_eq_some] at signed
  obtain ⟨room, index, after⟩ := Kkw.blindSignerSign_ok (by rfl) signed
  have verified := Kkw.blindSignerSign_verifies (by rfl) signed
  refine ⟨next.symm.trans_lt room.2, after.trans (key.counted_used n), ⟨sig', ?_, ?_⟩, ?_⟩
  · exact Kkw.xmssReadSig_write sig'
  · rw [index, (leaf_exact room.1.2 room.2).1]
    exact next
  · simp only [Kkw.proveAccepts, Kkw.blindReadSignerPub_write, Kkw.xmssReadSig_write]
    exact verified

theorem kkwSign_refuses (inside : key.heightInRange) (left : n ≤ 2 ^ key.height.toNat)
    (refused : (kkwSign H).sign (key.counted n) com nonces = none) :
    n = 2 ^ key.height.toNat ∨ kkwEndless H key.pkSeed com n nonces := by
  by_contra fails
  obtain ⟨some, ends⟩ := not_or.mp fails
  have room : (key.counted n).Room :=
    ⟨inside, (key.counted_toNat inside left).trans_lt (Nat.lt_of_le_of_ne left some)⟩
  obtain ⟨found, grind⟩ := Option.ne_none_iff_exists'.mp ends
  rw [← key.counted_leaf n] at grind
  obtain ⟨sig, key', signed⟩ := @Kkw.blindSignerSign_found H { key.counted n with tree := none } rfl
    room _ _ _ grind
  simp only [kkwSign, signed] at refused
  cases refused

/-- The key file of `keygen` serves a commitment with every leaf, in order and each once, and a
signature that is sent verifies under the published root. -/
theorem kkw_session (skSeed : Vector Byte 32) (pkSeed : Kkw.PkSeed) {height : Nat}
    (inside : 1 ≤ height ∧ height ≤ Kkw.xmssH) :
    ∃ key root, Kkw.blindKeygen H skSeed pkSeed height = .ok (key, root) ∧
      ∀ calls keyFile answers,
        (kkwSign H).session (Kkw.blindWriteSignerKey key) calls = (keyFile, answers) →
          keyFile = Kkw.blindWriteSignerKey
            { key with nextLeaf := BitVec.ofNat 64 (answers.countP Option.isSome) } ∧
          (kkwSign H).AllAnswered height (kkwGood H root pkSeed) (kkwEndless H pkSeed) 0 calls
            answers ∧
          (kkwSign H).StepsMake 1212 (Kkw.blindWriteSignerKey key) calls keyFile answers := by
  obtain ⟨tree, made⟩ := Kkw.blindKeygen_ok (H := H) skSeed pkSeed inside
  refine ⟨_, _, made, fun calls keyFile answers ran => ?_⟩
  let key : SignerKey := { skSeed, pkSeed, height := BitVec.ofNat 8 height, nextLeaf := 0 }
  have same : key.height.toNat = height := by
    exact (BitVec.toNat_ofNat height 8).trans (Nat.mod_eq_of_lt (Nat.lt_of_le_of_lt inside.2 (by decide)))
  have allowed : key.heightInRange := by
    rw [SignerKey.heightInRange, same]
    exact inside
  have serves : (kkwSign H).Serves (fun n => signerKeyCodec.write (key.counted n)) height
      (kkwGood H ((Kkw.xmssHashes H).treeRoot skSeed pkSeed height) pkSeed) (kkwEndless H pkSeed) := by
    refine SignProgram.Serves.of_sign key.counted ?_ (fun _ _ => rfl) ?_ ?_
    · intro n left
      have read : Kkw.blindReadSignerKey (signerKeyCodec.write (key.counted n)) =
          .ok { key.counted n with tree := none } :=
        (Kkw.blindReadSignerKey_write { key.counted n with tree := none }).trans (if_pos allowed)
      simp only [kkwSign, read]
      rfl
    · intro n left com nonces sig key' made
      rw [← same] at left ⊢
      exact kkwSign_signs allowed left made
    · intro n left com nonces refused
      rw [← same] at left ⊢
      exact kkwSign_refuses allowed left refused
  have answered := serves.session calls (Nat.zero_le _)
  have start : (kkwSign H).session (signerKeyCodec.write (key.counted 0)) calls =
    (keyFile, answers) := ran
  rw [start, Nat.zero_add] at answered
  exact ⟨answered.1, answered.2, SignProgram.stepsMake_session (SignCommand.kkwSign_lawful H)
    (SignCommand.kkwSign_fits H) trivial calls ran⟩

/-- Two leaves for three commitments. -/
theorem kkw_session_smallest : ∃ key root,
    Kkw.blindKeygen SignCommand.sampleHasher (.replicate _ 0) (.replicate _ 0) 1 = .ok (key, root) ∧
      ∀ com, (kkwSign SignCommand.sampleHasher).AllAnswered 1
        (kkwGood SignCommand.sampleHasher root (.replicate _ 0))
        (kkwEndless SignCommand.sampleHasher (.replicate _ 0)) 0
        (List.replicate 3 (com, [.replicate _ 0]))
        ((kkwSign SignCommand.sampleHasher).session (Kkw.blindWriteSignerKey key)
          (List.replicate 3 (com, [.replicate _ 0]))).2 := by
  obtain ⟨key, root, made, answers⟩ := kkw_session (H := SignCommand.sampleHasher)
    (.replicate _ 0) (.replicate _ 0) (show 1 ≤ 1 ∧ 1 ≤ Kkw.xmssH by decide)
  exact ⟨key, root, made, fun com => (answers _ _ _ rfl).2.1⟩

end Kkw

section Longfellow

variable (S : Longfellow.Sha256)

def longfellowGood (root : Longfellow.Node) (pkSeed : Longfellow.PkSeed) (com : HmCommitment) (n : Nat)
    (sigFile : List Byte) : Prop :=
  (∃ sig, Longfellow.readXmssSig S sigFile pkSeed (Longfellow.hmComDigest S com).toList = some sig ∧
    sig.leafIndex.toNat = n) ∧
      Longfellow.proveAccepts S (Longfellow.writeSignerPub root pkSeed) com sigFile = true

def longfellowEndless (key : SignerKey) (com : HmCommitment) (n attempts : Nat) : Prop :=
  Longfellow.grindNonce S key.pkSeed (BitVec.ofNat 32 n) (Longfellow.hmComDigest S com).toList
    ((List.range attempts).map (Longfellow.nonceAttempt S (key.counted n)
      (Longfellow.hmComDigest S com))) = none

variable {S} {key : SignerKey} {n : Nat} {com : HmCommitment} {attempts : Nat}

theorem longfellowSign_signs (inside : key.heightInRange) (left : n ≤ 2 ^ key.height.toNat)
    {sig : Longfellow.XmssSignature} {key' : SignerKey}
    (made : (longfellowSign S).sign (key.counted n) com attempts = some (sig, key')) :
    n < 2 ^ key.height.toNat ∧ key' = key.counted (n + 1) ∧
      longfellowGood S ((Longfellow.xmssHashes S key.pkSeed).treeRoot key.skSeed key.pkSeed
        key.height.toNat) key.pkSeed com n (Longfellow.writeXmssSig sig) := by
  have next := key.counted_toNat inside left
  simp only [longfellowSign, Option.bind_eq_bind, Option.bind_eq_some_iff, toOption_eq_some,
    Option.pure_def, Option.some.injEq] at made
  obtain ⟨outcome, signed, ⟨sent, key''⟩, rfl, sig', rfl, same⟩ := made
  obtain ⟨rfl, rfl⟩ := Prod.mk.inj same
  obtain ⟨room, index, rfl⟩ := Longfellow.signerSign_ok signed
  obtain ⟨expands, root⟩ := Longfellow.signerSign_expands signed
  refine ⟨next.symm.trans_lt room.2, key.counted_used n, ⟨sig', expands, ?_⟩, ?_⟩
  · rw [index, (leaf_exact room.1.2 room.2).1]
    exact next
  · have expands : Longfellow.readXmssSig S (Longfellow.writeXmssSig sig') key.pkSeed
      (Longfellow.hmComDigest S com).toList = some sig' := expands
    simp only [Longfellow.proveAccepts, Longfellow.readSignerPub_write, expands]
    exact beq_iff_eq.mpr root

theorem longfellowSign_refuses (inside : key.heightInRange) (left : n ≤ 2 ^ key.height.toNat)
    (refused : (longfellowSign S).sign (key.counted n) com attempts = none) :
    n = 2 ^ key.height.toNat ∨ longfellowEndless S key com n attempts := by
  by_contra fails
  obtain ⟨some, ends⟩ := not_or.mp fails
  have room : (key.counted n).Room :=
    ⟨inside, (key.counted_toNat inside left).trans_lt (Nat.lt_of_le_of_ne left some)⟩
  obtain ⟨found, grind⟩ := Option.ne_none_iff_exists'.mp ends
  rw [← key.counted_leaf n] at grind
  obtain ⟨sig, key', signed⟩ := Longfellow.signerSign_found room grind
  simp only [longfellowSign, signed] at refused
  cases refused

/-- The same of longfellow, where the signature that is read is the one that was made, whole. -/
theorem longfellow_session (skSeed : Longfellow.SkSeed) (pkSeed : Longfellow.PkSeed) {height : Nat}
    (inside : 1 ≤ height ∧ height ≤ Longfellow.kXmssH) :
    ∃ key root, Longfellow.keygen S skSeed pkSeed height = .ok (key, root) ∧
      ∀ calls keyFile answers,
        (longfellowSign S).session (Longfellow.writeSignerKey key) calls = (keyFile, answers) →
          keyFile = Longfellow.writeSignerKey (key.counted (answers.countP Option.isSome)) ∧
          (longfellowSign S).AllAnswered height (longfellowGood S root pkSeed)
            (longfellowEndless S key) 0 calls answers ∧
          (longfellowSign S).StepsMake 1212 (Longfellow.writeSignerKey key) calls keyFile answers := by
  let key : SignerKey := { skSeed, pkSeed, height := BitVec.ofNat 8 height, nextLeaf := 0 }
  have same : key.height.toNat = height :=
    (BitVec.toNat_ofNat height 8).trans (Nat.mod_eq_of_lt (Nat.lt_of_le_of_lt inside.2 (by decide)))
  have allowed : key.heightInRange := by
    rw [SignerKey.heightInRange, same]
    exact inside
  refine ⟨key, _, Longfellow.keygen_ok skSeed pkSeed inside, fun calls keyFile answers ran => ?_⟩
  have serves : (longfellowSign S).Serves (fun n => signerKeyCodec.write (key.counted n)) height
      (longfellowGood S ((Longfellow.xmssHashes S pkSeed).treeRoot skSeed pkSeed height) pkSeed)
      (longfellowEndless S key) := by
    refine SignProgram.Serves.of_sign key.counted ?_ (fun _ _ => rfl) ?_ ?_
    · intro n left
      have read : Longfellow.readSignerKey (signerKeyCodec.write (key.counted n)) =
          .ok (key.counted n) := (Longfellow.readSignerKey_write _).trans (if_pos allowed)
      simp only [longfellowSign, read]
      rfl
    · intro n left com nonces sig key' made
      rw [← same] at left ⊢
      exact longfellowSign_signs allowed left made
    · intro n left com nonces refused
      rw [← same] at left ⊢
      exact longfellowSign_refuses allowed left refused
  have answered := serves.session calls (Nat.zero_le _)
  have start : (longfellowSign S).session (signerKeyCodec.write (key.counted 0)) calls =
    (keyFile, answers) := ran
  rw [start, Nat.zero_add] at answered
  exact ⟨answered.1, answered.2, SignProgram.stepsMake_session (SignCommand.longfellowSign_lawful S)
    (SignCommand.longfellowSign_fits S) trivial calls ran⟩

theorem longfellow_session_smallest : ∃ key root,
    Longfellow.keygen SignCommand.sampleSha (.replicate _ 0) (.replicate _ 0) 1 = .ok (key, root) ∧
      ∀ com, (longfellowSign SignCommand.sampleSha).AllAnswered 1
        (longfellowGood SignCommand.sampleSha root (.replicate _ 0))
        (longfellowEndless SignCommand.sampleSha key) 0 (List.replicate 3 (com, 1))
        ((longfellowSign SignCommand.sampleSha).session (Longfellow.writeSignerKey key)
          (List.replicate 3 (com, 1))).2 := by
  obtain ⟨key, root, made, answers⟩ := longfellow_session (S := SignCommand.sampleSha)
    (.replicate _ 0) (.replicate _ 0) (show 1 ≤ 1 ∧ 1 ≤ Longfellow.kXmssH by decide)
  exact ⟨key, root, made, fun com => (answers _ _ _ rfl).2.1⟩

end Longfellow

section Binius

variable {Rng : Type} (C : Binius.SignerCrates Rng)

/-- The keys of all signers after `n` signatures. -/
def countedKeys (skSeeds : List Binius.SkSeed) (n : Nat) : List Binius.SignerKey :=
  skSeeds.map fun skSeed => { skSeed, nextLeaf := BitVec.ofNat 64 n }

def biniusGood (roots : List Binius.Root) (pkSeed : Binius.PkSeed) (com : HmCommitment) (n : Nat)
    (sigFile : List Byte) : Prop :=
  (∃ sigs, Binius.readXmssSigs C.upstream sigFile pkSeed (Binius.comDigest C.hash com) = some sigs ∧
    sigs.map Binius.XmssSignature.root = roots ∧ ∀ sig ∈ sigs, sig.epoch.toNat = n) ∧
      Binius.proveAccepts C (Binius.writeSignerPub roots pkSeed) com sigFile = true

/-- The search of one of the signers, with the generator of its seed, does not end. -/
def biniusEndless (skSeeds : List Binius.SkSeed) (pkSeed : Binius.PkSeed) (com : HmCommitment)
    (n : Nat) (_ : Unit) : Prop :=
  ∃ skSeed ∈ skSeeds, C.upstream.findRandomness (Binius.comDigest C.hash com) (BitVec.ofNat 32 n) pkSeed
    (Binius.nonceRng C skSeed) = none

variable {C} {skSeeds : List Binius.SkSeed} {pkSeed : Binius.PkSeed} {height n : Nat}
  {com : HmCommitment} {coin : Unit}

theorem countedKeys_toNat (inside : height ≤ 32) (left : n ≤ 2 ^ height) :
    (BitVec.ofNat 64 n).toNat = n := by
  have short : 2 ^ height ≤ 2 ^ 32 := Nat.pow_le_pow_right (by decide) inside
  exact (BitVec.toNat_ofNat n 64).trans (Nat.mod_eq_of_lt (by omega))

theorem biniusSign_signs (consistent : C.upstream.Consistent)
    (inside : 1 ≤ height ∧ height ≤ Binius.logLifetime) (left : n ≤ 2 ^ height)
    {sigs : List Binius.XmssSignature} {key' : List Binius.SignerKey × Binius.PkSeed × Nat}
    (made : (biniusSign C).sign (countedKeys skSeeds n, pkSeed, height) com coin =
      some (sigs, key')) :
    n < 2 ^ height ∧ key' = (countedKeys skSeeds (n + 1), pkSeed, height) ∧
      biniusGood C (skSeeds.map (Binius.rootOf C pkSeed height)) pkSeed com n
        (Binius.writeXmssSigs sigs) := by
  obtain ⟨keys', pkSeed', height'⟩ := key'
  obtain ⟨signed, rfl, rfl⟩ := SignCommand.biniusSign_cases made
  obtain ⟨some, -, rfl, epoch, room, same, each⟩ := Binius.signAll_eq_some signed
  obtain ⟨read, roots⟩ := Binius.signAll_reads consistent signed
  have present : skSeeds ≠ [] := fun empty => some (by rw [empty]; rfl)
  obtain ⟨skSeed, rest, rfl⟩ := List.exists_cons_of_ne_nil present
  obtain rfl : BitVec.ofNat 64 n = epoch := same _ (List.mem_map_of_mem List.mem_cons_self)
  have next := countedKeys_toNat inside.2 left
  have roots : sigs.map Binius.XmssSignature.root =
      (skSeed :: rest).map (Binius.rootOf C pkSeed' height') := by
    rw [roots, countedKeys, List.map_map]
    rfl
  refine ⟨next.symm.trans_lt room, ?_, ⟨sigs, read, roots, fun sig member => ?_⟩, ?_⟩
  · simp only [countedKeys, List.map_map, BitVec.ofNat_add]
    rfl
  · rw [each sig member, (leaf_exact inside.2 room).1]
    exact next
  · exact Binius.proveAccepts_sent (by simp) read roots

theorem biniusSign_refuses (consistent : C.upstream.Consistent) (some : skSeeds ≠ [])
    (inside : 1 ≤ height ∧ height ≤ Binius.logLifetime) (left : n ≤ 2 ^ height)
    (refused : (biniusSign C).sign (countedKeys skSeeds n, pkSeed, height) com coin = none) :
    n = 2 ^ height ∨ biniusEndless C skSeeds pkSeed com n coin := by
  by_contra fails
  obtain ⟨room, ends⟩ := not_or.mp fails
  have next := countedKeys_toNat inside.2 left
  have leaf : (BitVec.ofNat 64 n).setWidth 32 = BitVec.ofNat 32 n := by
    simp [BitVec.setWidth_ofNat_of_le]
  obtain ⟨sigs, keys', signed, -⟩ := @Binius.signAll_found _ C pkSeed height com consistent
    (countedKeys skSeeds n) (BitVec.ofNat 64 n) (mt List.map_eq_nil_iff.mp some) inside
    (next.trans_lt (Nat.lt_of_le_of_ne left room))
    (fun k known => by
      obtain ⟨_, -, rfl⟩ := List.mem_map.mp known
      rfl)
    (fun k known endless => by
      obtain ⟨skSeed, member, rfl⟩ := List.mem_map.mp known
      exact ends ⟨skSeed, member, by rwa [leaf] at endless⟩)
  simp only [biniusSign, signed] at refused
  cases refused

/-- All signers of a key file move together: every call that answers has one signature of each of
them, at the same epoch, and they verify under the published roots in order. -/
theorem binius_session (consistent : C.upstream.Consistent) (some : skSeeds ≠ [])
    (pkSeed : Binius.PkSeed) (inside : 1 ≤ height ∧ height ≤ Binius.logLifetime) :
    ∃ keys roots file, Binius.keygen C skSeeds pkSeed height = .ok (keys, roots) ∧
      Binius.writeSignerKeys keys pkSeed height = .ok file ∧
      ∀ calls keyFile answers, (biniusSign C).session file calls = (keyFile, answers) →
        Binius.writeSignerKeys (countedKeys skSeeds (answers.countP Option.isSome)) pkSeed height =
          .ok keyFile ∧
        (biniusSign C).AllAnswered height (biniusGood C roots pkSeed)
          (biniusEndless C skSeeds pkSeed) 0 calls answers ∧
        (biniusSign C).StepsMake (skSeeds.length * 1212 + 17) file calls keyFile answers := by
  have byte : (BitVec.ofNat 8 height).toNat = height :=
    (BitVec.toNat_ofNat height 8).trans (Nat.mod_eq_of_lt (Nat.lt_of_le_of_lt inside.2 (by decide)))
  have written (n : Nat) : Binius.writeSignerKeys (countedKeys skSeeds n) pkSeed height =
      .ok (Binius.signerKeysFile (countedKeys skSeeds n) pkSeed (BitVec.ofNat 8 height)) :=
    (Binius.writeSignerKeys_eq_ok _ pkSeed).mpr ⟨_, byte, rfl⟩
  refine ⟨countedKeys skSeeds 0, _, _, Binius.keygen_ok skSeeds pkSeed inside, written 0,
    fun calls keyFile answers ran => ?_⟩
  have serves_read (n : Nat) (_ : n ≤ 2 ^ height) : (Binius.readSignerKeys (Binius.signerKeysFile
      (countedKeys skSeeds n) pkSeed (BitVec.ofNat 8 height))).toOption =
        .some (countedKeys skSeeds n, pkSeed, height) :=
    toOption_eq_some.mpr ((Binius.readSignerKeys_eq_ok _ pkSeed).mpr
      ⟨mt List.map_eq_nil_iff.mp some, inside, written n⟩)
  have serves : (biniusSign C).Serves
      (fun n => Binius.signerKeysFile (countedKeys skSeeds n) pkSeed (BitVec.ofNat 8 height)) height
      (biniusGood C (skSeeds.map (Binius.rootOf C pkSeed height)) pkSeed)
      (biniusEndless C skSeeds pkSeed) := by
    refine SignProgram.Serves.of_sign (fun n => (countedKeys skSeeds n, pkSeed, height)) serves_read
      ?_ ?_ ?_
    · intro n _
      exact toOption_eq_some.mpr (written n)
    · intro n left com nonces sigs key' made
      exact biniusSign_signs consistent inside left made
    · intro n left com nonces refused
      exact biniusSign_refuses consistent some inside left refused
  have answered := serves.session calls (Nat.zero_le _)
  simp only [ran, Nat.zero_add] at answered
  have held : SignCommand.HoldsKeys skSeeds.length
      (Binius.signerKeysFile (countedKeys skSeeds 0) pkSeed (BitVec.ofNat 8 height)) := by
    intro key read
    obtain rfl := Option.some.inj ((serves_read 0 (Nat.zero_le _)).symm.trans read)
    exact List.length_map _
  rw [written]
  exact ⟨congrArg Except.ok answered.1.symm, answered.2, SignProgram.stepsMake_session
    (SignCommand.biniusSign_lawful C) (SignCommand.biniusSign_fits C _) held calls ran⟩

theorem binius_session_two : ∃ keys roots file,
    Binius.keygen SignCommand.sampleCrates [.replicate _ 0, .replicate _ 1] (.replicate _ 0) 1 =
      .ok (keys, roots) ∧
    Binius.writeSignerKeys keys (.replicate _ 0) 1 = .ok file ∧
      ∀ com, (biniusSign SignCommand.sampleCrates).AllAnswered 1
        (biniusGood SignCommand.sampleCrates roots (.replicate _ 0))
        (biniusEndless SignCommand.sampleCrates [.replicate _ 0, .replicate _ 1] (.replicate _ 0)) 0
        (List.replicate 3 (com, ()))
        ((biniusSign SignCommand.sampleCrates).session file (List.replicate 3 (com, ()))).2 := by
  obtain ⟨keys, roots, file, made, written, answers⟩ := binius_session (C := SignCommand.sampleCrates)
    Binius.additive_consistent (List.cons_ne_nil (.replicate _ 0) [.replicate _ 1]) (.replicate _ 0)
    (show 1 ≤ 1 ∧ 1 ≤ Binius.logLifetime by decide)
  exact ⟨keys, roots, file, made, written, fun com => (answers _ _ _ rfl).2.1⟩

end Binius

end BlindSig
