import BlindSig.Binius.Signer
import BlindSig.Kkw.Signer
import BlindSig.Longfellow.Signer
import BlindSig.Session

/-! The `sign` commands of the three programs that keep the signer in files, and their leaves. -/
namespace BlindSig

section Programs

/-- A key of these programs is named by its seeds. -/
def SignerKey.ident (key : SignerKey) : Vector Byte 32 × Vector Byte 16 := (key.skSeed, key.pkSeed)

/-- `cmd_sign` of the C program; `fwrite` and `fclose` are checked. -/
def kkwSign (H : Kkw.Hasher) : SignProgram SignerKey (Vector Byte Kkw.hmComBytes) Kkw.XmssSig
    (List Kkw.Nonce) (Vector Byte 32 × Vector Byte 16) where
  readKey buf := (Kkw.blindReadSignerKey buf).toOption.map Kkw.BlindSignerKey.toSignerKey
  readCommitment := asVector Kkw.hmComBytes
  sign key com nonces := (Kkw.blindSignerSign H { key with tree := none } com nonces).toOption.map
    fun (sig, key') => (sig, key'.toSignerKey)
  writeKey key := some (Kkw.blindWriteSignerKey { key with tree := none })
  writeSig := Kkw.xmssWriteSig
  reportsWrites := true
  leaves key := [(key.ident, key.nextLeaf.toNat)]
  used key sig := [(key.ident, sig.leafIndex.toNat)]

/-- `cmd_sign` of the C++ program. A stream writes its buffer when it is closed, unreported. -/
def longfellowSign (S : Longfellow.Sha256) : SignProgram SignerKey HmCommitment
    Longfellow.XmssSignature Nat (Vector Byte 32 × Vector Byte 16) where
  readKey buf := (Longfellow.readSignerKey buf).toOption
  readCommitment buf := (Longfellow.readCommitment buf).toOption
  sign key com attempts := do
    let outcome ← Longfellow.signerSign S key com attempts
    let (sig, key') ← outcome.toOption
    return (← sig, key')
  writeKey key := some (Longfellow.writeSignerKey key)
  writeSig := Longfellow.writeXmssSig
  reportsWrites := false
  leaves key := [(key.ident, key.nextLeaf.toNat)]
  used key sig := [(key.ident, sig.leafIndex.toNat)]

/-- `cmd_sign` of the Rust program, with all signers of the file. -/
def biniusSign {Rng : Type} (C : Binius.SignerCrates Rng) :
    SignProgram (List Binius.SignerKey × Binius.PkSeed × Nat) HmCommitment
      (List Binius.XmssSignature) Unit (Vector Byte 32 × Vector Byte 16) where
  readKey buf := (Binius.readSignerKeys buf).toOption
  readCommitment := Binius.readCommitment
  sign := fun (keys, pkSeed, height) com _ => do
    let (sigs, keys') ← Binius.signAll C keys pkSeed height com
    return (sigs, keys', pkSeed, height)
  writeKey := fun (keys, pkSeed, height) => (Binius.writeSignerKeys keys pkSeed height).toOption
  writeSig := Binius.writeXmssSigs
  reportsWrites := true
  leaves := fun (keys, pkSeed, _) => keys.map fun k => ((k.skSeed, pkSeed), k.nextLeaf.toNat)
  used := fun (keys, pkSeed, _) sigs =>
    (keys.zip sigs).map fun (k, sig) => ((k.skSeed, pkSeed), sig.epoch.toNat)

end Programs

namespace SignCommand

section Lawful

/-- A program with one key that counts its leaves. -/
theorem Lawful.of_counter {Com Sig Coin : Type}
    {P : SignProgram SignerKey Com Sig Coin (Vector Byte 32 × Vector Byte 16)} (leaf : Sig → Word)
    (leaves : ∀ key, P.leaves key = [(key.ident, key.nextLeaf.toNat)])
    (used : ∀ key sig, P.used key sig = [(key.ident, (leaf sig).toNat)])
    (sign : ∀ {key com coin sig key'}, P.sign key com coin = some (sig, key') →
      key.Room ∧ leaf sig = key.nextLeaf.setWidth 32 ∧ key' = key.used)
    (writes : ∀ key, ∃ file, P.writeKey key = some file ∧
      ∀ key', P.readKey file = some key' → key' = key) : Lawful P where
  uses {key com coin sig key'} signed := by
    obtain ⟨room, next, -⟩ := sign signed
    rw [used, leaves, next, (leaf_exact room.1.2 room.2).1]
    exact fun u member => member
  level {key _ _ _ _} _ u first v second := by
    rw [leaves, List.mem_singleton] at first second
    rw [first, second]
  advances {key com coin sig key'} signed v member := by
    obtain ⟨room, -, rfl⟩ := sign signed
    rw [leaves, List.mem_singleton] at member
    subst member
    refine ⟨(key.ident, key.nextLeaf.toNat), by rw [leaves]; exact List.mem_singleton_self _, rfl, ?_⟩
    exact (Nat.lt_succ_self _).trans_eq (leaf_exact room.1.2 room.2).2.symm
  writes {_ _ _ _ key'} _ := by
    obtain ⟨file, written, back⟩ := writes key'
    exact ⟨file, written, fun key'' read => by rw [back key'' read]⟩

theorem kkwSign_lawful (H : Kkw.Hasher) : Lawful (kkwSign H) := by
  refine Lawful.of_counter Kkw.XmssSig.leafIndex (fun _ => rfl) (fun _ _ => rfl) ?_ ?_
  · intro key com coin sig key' signed
    obtain ⟨⟨sig', made⟩, result, same⟩ := Option.map_eq_some_iff.mp signed
    obtain ⟨rfl, rfl⟩ := Prod.mk.inj same
    exact Kkw.blindSignerSign_ok (by rfl) (toOption_eq_some.mp result)
  · intro key
    refine ⟨_, rfl, fun key' read => ?_⟩
    obtain ⟨loaded, result, rfl⟩ := Option.map_eq_some_iff.mp read
    rw [toOption_eq_some, Kkw.blindReadSignerKey_write] at result
    split at result
    · cases result
      rfl
    · cases result

theorem longfellowSign_lawful (S : Longfellow.Sha256) : Lawful (longfellowSign S) := by
  refine Lawful.of_counter Longfellow.XmssSignature.leafIndex (fun _ => rfl)
    (fun _ _ => rfl) ?_ ?_
  · intro key com attempts sig key' signed
    simp only [longfellowSign, Option.bind_eq_bind, Option.bind_eq_some_iff, toOption_eq_some,
      Option.pure_def, Option.some.injEq] at signed
    obtain ⟨outcome, made, ⟨sent, key'⟩, rfl, sig', rfl, same⟩ := signed
    obtain ⟨rfl, rfl⟩ := Prod.mk.inj same
    exact Longfellow.signerSign_ok made
  · intro key
    refine ⟨_, rfl, fun key' read => ?_⟩
    have read : Longfellow.readSignerKey (Longfellow.writeSignerKey key) = .ok key' :=
      toOption_eq_some.mp read
    rw [Longfellow.readSignerKey_write] at read
    split at read
    · cases read
      rfl
    · cases read

theorem biniusSign_cases {Rng : Type} {C : Binius.SignerCrates Rng} {keys keys' : List Binius.SignerKey}
    {pkSeed pkSeed' : Binius.PkSeed} {height height' : Nat} {com : HmCommitment} {coin : Unit}
    {sigs : List Binius.XmssSignature}
    (signed : (biniusSign C).sign (keys, pkSeed, height) com coin =
      some (sigs, keys', pkSeed', height')) :
    Binius.signAll C keys pkSeed height com = some (sigs, keys') ∧ pkSeed' = pkSeed ∧
      height' = height := by
  simp only [biniusSign, Option.bind_eq_bind, Option.bind_eq_some_iff, Option.pure_def,
    Option.some.injEq, Prod.mk.injEq] at signed
  obtain ⟨⟨_, _⟩, made, rfl, rfl, rfl, rfl⟩ := signed
  exact ⟨made, rfl, rfl⟩

theorem biniusSign_lawful {Rng : Type} (C : Binius.SignerCrates Rng) : Lawful (biniusSign C) where
  uses {key com coin sigs key'} signed := by
    obtain ⟨keys, pkSeed, height⟩ := key
    obtain ⟨keys', pkSeed', height'⟩ := key'
    obtain ⟨made, -, -⟩ := biniusSign_cases signed
    obtain ⟨-, inside, -, epoch, room, same, each⟩ := Binius.signAll_eq_some made
    intro u member
    obtain ⟨⟨k, sig⟩, pair, rfl⟩ := List.mem_map.mp member
    obtain ⟨known, sent⟩ := List.of_mem_zip pair
    refine List.mem_map.mpr ⟨k, known, ?_⟩
    simp only
    rw [each sig sent, same k known, (leaf_exact inside.2 room).1]
  level {key com coin sigs key'} signed u first v second := by
    obtain ⟨keys, pkSeed, height⟩ := key
    obtain ⟨keys', pkSeed', height'⟩ := key'
    obtain ⟨made, -, -⟩ := biniusSign_cases signed
    obtain ⟨-, -, -, epoch, -, same, -⟩ := Binius.signAll_eq_some made
    obtain ⟨k, known, rfl⟩ := List.mem_map.mp first
    obtain ⟨k', known', rfl⟩ := List.mem_map.mp second
    rw [same k known, same k' known']
  advances {key com coin sigs key'} signed v member := by
    obtain ⟨keys, pkSeed, height⟩ := key
    obtain ⟨keys', pkSeed', height'⟩ := key'
    obtain ⟨made, rfl, rfl⟩ := biniusSign_cases signed
    obtain ⟨-, inside, rfl, epoch, room, same, -⟩ := Binius.signAll_eq_some made
    simp only [biniusSign, List.map_map, List.mem_map] at member
    obtain ⟨k, known, rfl⟩ := member
    refine ⟨_, List.mem_map_of_mem known, rfl, ?_⟩
    have next := (leaf_exact inside.2 room).2
    simp only [Function.comp_apply, same k known, next]
    exact Nat.lt_succ_self _
  writes {key com coin sigs key'} signed := by
    obtain ⟨keys, pkSeed, height⟩ := key
    obtain ⟨keys', pkSeed', height'⟩ := key'
    obtain ⟨made, rfl, rfl⟩ := biniusSign_cases signed
    obtain ⟨some, inside, rfl, -⟩ := Binius.signAll_eq_some made
    have short : height' < 2 ^ 8 := Nat.lt_of_le_of_lt inside.2 (by decide)
    have byte : (BitVec.ofNat 8 height').toNat = height' := by
      rw [BitVec.toNat_ofNat, Nat.mod_eq_of_lt short]
    have written := (Binius.writeSignerKeys_eq_ok (keys.map fun k =>
      { k with nextLeaf := k.nextLeaf + 1 }) pkSeed').mpr ⟨BitVec.ofNat 8 height', byte, rfl⟩
    refine ⟨_, toOption_eq_some.mpr written, fun key'' read => ?_⟩
    have back := (Binius.readSignerKeys_eq_ok _ pkSeed').mpr
      ⟨mt List.map_eq_nil_iff.mp some, inside, written⟩
    have same := back.symm.trans (toOption_eq_some.mp read)
    cases same
    rfl

end Lawful

section Fits

/-- The key files of these programs are 57 bytes long and their signature files 1212. -/
theorem Fits.of_sizes {Com Sig Coin : Type}
    {P : SignProgram SignerKey Com Sig Coin (Vector Byte 32 × Vector Byte 16)}
    (sig : ∀ sig, (P.writeSig sig).length = xmssSigCodec.width)
    (key : ∀ key, ∃ file, P.writeKey key = some file ∧ file.length = signerKeyCodec.width) :
    P.Fits xmssSigCodec.width fun _ => True := by
  intro _ _ _ _ made key' _ _ _
  obtain ⟨file, written, size⟩ := key key'
  have some : 0 < (P.writeSig made).length := by
    rw [sig]
    decide
  refine ⟨⟨List.length_pos_iff.mp some, (sig made).le⟩, file, written, ⟨?_, ?_⟩, trivial⟩
  · refine List.length_pos_iff.mp ?_
    rw [size]
    decide
  · rw [size]
    decide

theorem kkwSign_fits (H : Kkw.Hasher) : (kkwSign H).Fits xmssSigCodec.width fun _ => True :=
  Fits.of_sizes (fun _ => xmssSigCodec.length_write _) fun _ =>
    ⟨_, rfl, signerKeyCodec.length_write _⟩

theorem longfellowSign_fits (S : Longfellow.Sha256) :
    (longfellowSign S).Fits xmssSigCodec.width fun _ => True :=
  Fits.of_sizes (fun _ => xmssSigCodec.length_write _) fun _ =>
    ⟨_, rfl, signerKeyCodec.length_write _⟩

/-- A file holds the keys of `n` signers. -/
def HoldsKeys (n : Nat) (file : List Byte) : Prop :=
  ∀ key, (Binius.readSignerKeys file).toOption = some key → key.1.length = n

theorem biniusSign_fits {Rng : Type} (C : Binius.SignerCrates Rng) (n : Nat) :
    (biniusSign C).Fits (n * 1212 + 17) (HoldsKeys n) := by
  intro keyFile key com coin sigs key' held read signed
  obtain ⟨keys, pkSeed, height⟩ := key
  obtain ⟨keys', pkSeed', height'⟩ := key'
  obtain rfl : keys.length = n := held _ read
  obtain ⟨made, rfl, rfl⟩ := biniusSign_cases signed
  obtain ⟨some, inside, rfl, -⟩ := Binius.signAll_eq_some made
  have count := Binius.signAll_length made
  have positive : 0 < keys.length := List.length_pos_iff.mpr some
  have sent : (Binius.writeXmssSigs sigs).length = keys.length * 1212 := by
    simp only [Binius.writeXmssSigs, List.length_flatMap, Binius.length_writeXmssSig, List.map_const',
      List.sum_replicate, smul_eq_mul, count]
    rfl
  obtain ⟨file, written, -⟩ := (biniusSign_lawful C).writes signed
  obtain ⟨height, same, layout⟩ :=
    (Binius.writeSignerKeys_eq_ok _ pkSeed').mp (toOption_eq_some.mp written)
  have size : file.length = keys.length * 40 + 16 + 1 := by
    rw [layout, Binius.length_signerKeysFile, List.length_map]
  refine ⟨⟨List.length_pos_iff.mp (by rw [biniusSign, sent]; omega), by rw [biniusSign, sent]; omega⟩,
    file, written, ⟨List.length_pos_iff.mp (by omega), by omega⟩, ?_⟩
  rintro ⟨keys'', pkSeed'', height''⟩ again
  obtain ⟨some', -, written'⟩ := (Binius.readSignerKeys_eq_ok _ _).mp (toOption_eq_some.mp again)
  obtain ⟨height', -, layout'⟩ := (Binius.writeSignerKeys_eq_ok _ _).mp written'
  have size' : keys.length * 40 + 16 + 1 = keys''.length * 40 + 16 + 1 := by
    rw [← size, layout', Binius.length_signerKeysFile]
  change keys''.length = keys.length
  omega

end Fits

section Rule

/-- Where a process reads the key file only when no other is under way, and none ends between its
signature and its key, no leaf signs two commitments. -/
theorem file_signers_leaf_safe (H : Kkw.Hasher) (S : Longfellow.Sha256) {Rng : Type}
    (C : Binius.SignerCrates Rng) (signerKey commitment xmssSig : List Byte) :
    (∀ actions, OrderlyRun (kkwSign H) (initial signerKey commitment xmssSig) actions →
      LeafSafe (kkwSign H)
        (execute (kkwSign H) (initial signerKey commitment xmssSig) actions)) ∧
    (∀ actions, OrderlyRun (longfellowSign S) (initial signerKey commitment xmssSig) actions →
      LeafSafe (longfellowSign S)
        (execute (longfellowSign S) (initial signerKey commitment xmssSig) actions)) ∧
    (∀ actions, OrderlyRun (biniusSign C) (initial signerKey commitment xmssSig) actions →
      LeafSafe (biniusSign C)
        (execute (biniusSign C) (initial signerKey commitment xmssSig) actions)) :=
  ⟨leafSafe_of_orderly (kkwSign_lawful H) _ _ _, leafSafe_of_orderly (longfellowSign_lawful S) _ _ _,
    leafSafe_of_orderly (biniusSign_lawful C) _ _ _⟩

section Samples

def sampleHasher : Kkw.Hasher where
  deriveKey _ n := Vector.ofFn fun i : Fin n => Kkw.sampleDigest[i.val]?.getD 0
  keyed _ _ _ := .replicate _ 0

def sampleSha : Longfellow.Sha256 where
  compress _ _ := #v[0xffffffff, 0xffffff7f, 0xffff1b00, 0, 0, 0, 0, 0]
  hmac _ _ := .replicate _ 0

def sampleCrates : Binius.SignerCrates Unit where
  upstream := Binius.additive
  hash := { blake3 := fun _ => .replicate _ 0, ghashMul := fun _ _ => 0 }
  fromSeed _ := ()

def sampleKey : SignerKey where
  skSeed := .replicate _ 0
  pkSeed := .replicate _ 0
  height := 1
  nextLeaf := 0

def sampleSigner : Binius.SignerKey where
  skSeed := .replicate _ 0
  nextLeaf := 0

def sampleCom (b : Byte) : HmCommitment where
  a := .replicate _ (.replicate _ (.replicate _ b))
  b := .replicate _ (.replicate _ b)
  y := .replicate _ b

theorem replicate_ne {n : Nat} {a b : Byte} (some : 0 < n) (different : a ≠ b) :
    Vector.replicate n a ≠ Vector.replicate n b := by
  intro same
  have first := congrArg (fun v : Vector Byte n => v.toList.head?) same
  simp only [Vector.toList_replicate, List.head?_replicate, Nat.ne_of_gt some, if_false,
    Option.some.injEq] at first
  exact different first

theorem sampleCom_ne : sampleCom 0 ≠ sampleCom 1 := fun same =>
  replicate_ne (by decide) (by decide) (congrArg HmCommitment.y same)

theorem sampleKey_room {n : Nat} (left : n < 2) : (sampleKey.counted n).Room := by
  have inside : sampleKey.heightInRange := by decide
  refine ⟨inside, ?_⟩
  rw [SignerKey.counted_toNat inside (Nat.le_of_lt left)]
  exact left

theorem kkwSign_sample {n : Nat} (left : n < 2) (b : Byte)
    (grind : ∃ found, (Kkw.xmssHashes sampleHasher).grindNonce sampleKey.pkSeed
      ((sampleKey.counted n).nextLeaf.setWidth 32)
      (Kkw.hmDigest sampleHasher (.replicate _ b)).toList [.replicate _ 0] = some found) :
    ∃ sig, (kkwSign sampleHasher).sign (sampleKey.counted n) (.replicate _ b) [.replicate _ 0] =
      some (sig, sampleKey.counted (n + 1)) ∧ sig.leafIndex = BitVec.ofNat 32 n := by
  obtain ⟨found, grind⟩ := grind
  obtain ⟨sig, key', signed⟩ := @Kkw.blindSignerSign_found sampleHasher
    { sampleKey.counted n with tree := none } rfl (sampleKey_room left) _ _ _ grind
  obtain ⟨-, leaf, after⟩ := Kkw.blindSignerSign_ok (by rfl) signed
  refine ⟨sig, ?_, leaf.trans (sampleKey.counted_leaf n)⟩
  simp only [kkwSign, signed]
  rw [← sampleKey.counted_used n]
  exact congrArg (fun key => some (sig, key)) after

theorem longfellowSign_sample {n : Nat} (left : n < 2) (b : Byte)
    (grind : ∃ found, Longfellow.grindNonce sampleSha sampleKey.pkSeed
      ((sampleKey.counted n).nextLeaf.setWidth 32)
      (Longfellow.hmComDigest sampleSha (sampleCom b)).toList ((List.range 1).map
        (Longfellow.nonceAttempt sampleSha (sampleKey.counted n)
          (Longfellow.hmComDigest sampleSha (sampleCom b)))) = some found) :
    ∃ sig, (longfellowSign sampleSha).sign (sampleKey.counted n) (sampleCom b) 1 =
      some (sig, sampleKey.counted (n + 1)) ∧ sig.leafIndex = BitVec.ofNat 32 n := by
  obtain ⟨found, grind⟩ := grind
  obtain ⟨sig, key', signed⟩ := Longfellow.signerSign_found (sampleKey_room left) grind
  obtain ⟨-, leaf, after⟩ := Longfellow.signerSign_ok signed
  refine ⟨sig, ?_, leaf.trans (sampleKey.counted_leaf n)⟩
  simp only [longfellowSign, signed, after, sampleKey.counted_used n]
  rfl

/-- The one signer of the sample after `n` signatures. -/
def sampleSigners (n : Nat) : List Binius.SignerKey :=
  [{ sampleSigner with nextLeaf := BitVec.ofNat 64 n }]

theorem biniusSign_sample {n : Nat} (left : n < 2) (b : Byte) :
    ∃ sigs, (biniusSign sampleCrates).sign (sampleSigners n, .replicate _ 0, 1) (sampleCom b) () =
      some (sigs, sampleSigners (n + 1), .replicate _ 0, 1) ∧ sigs.length = 1 ∧
        ∀ sig ∈ sigs, sig.epoch = BitVec.ofNat 32 n := by
  have room : (BitVec.ofNat 64 n).toNat < 2 ^ 1 := by
    rw [BitVec.toNat_ofNat]
    omega
  obtain ⟨sigs, keys', signed, length⟩ := @Binius.signAll_found _ sampleCrates
    (.replicate _ 0) 1 (sampleCom b) Binius.additive_consistent (sampleSigners n) (BitVec.ofNat 64 n)
    (List.cons_ne_nil _ _) (by decide) room
    (fun k known => by rw [List.mem_singleton.mp known]) nofun
  obtain ⟨-, -, rfl, epoch, -, same, each⟩ := Binius.signAll_eq_some signed
  obtain rfl : BitVec.ofNat 64 n = epoch := same _ (List.mem_singleton_self _)
  refine ⟨sigs, ?_, length, fun sig sent => ?_⟩
  · have next : (sampleSigners n).map (fun k => { k with nextLeaf := k.nextLeaf + 1 }) =
        sampleSigners (n + 1) := by
      simp only [sampleSigners, List.map_cons, List.map_nil, BitVec.ofNat_add]
      rfl
    rw [next] at signed
    simp only [biniusSign, signed]
    rfl
  · rw [each sig sent]
    simp [BitVec.setWidth_ofNat_of_le]

theorem sampleSigners_written (n : Nat) : (biniusSign sampleCrates).writeKey
    (sampleSigners n, .replicate _ 0, 1) =
      some (Binius.signerKeysFile (sampleSigners n) (.replicate _ 0) 1) :=
  toOption_eq_some.mpr ((Binius.writeSignerKeys_eq_ok _ _).mpr ⟨1, rfl, rfl⟩)

theorem sampleSigners_held (n : Nat) :
    HoldsKeys 1 (Binius.signerKeysFile (sampleSigners n) (.replicate _ 0) 1) := by
  intro key read
  have some : sampleSigners n ≠ [] := List.cons_ne_nil _ _
  rw [Binius.readSignerKeys_file _ _ _ some] at read
  cases read
  rfl

theorem kkwSign_reads {n : Nat} (b : Byte) :
    (kkwSign sampleHasher).readKey (signerKeyCodec.write (sampleKey.counted n)) =
        some (sampleKey.counted n) ∧
      (kkwSign sampleHasher).readCommitment (Vector.replicate Kkw.hmComBytes b).toList =
        some (Vector.replicate Kkw.hmComBytes b) := by
  constructor
  · have read : Kkw.blindReadSignerKey (signerKeyCodec.write (sampleKey.counted n)) =
        .ok { sampleKey.counted n with tree := none } :=
      (Kkw.blindReadSignerKey_write { sampleKey.counted n with tree := none }).trans rfl
    simp only [kkwSign, read]
    rfl
  · simp only [kkwSign]
    exact asVector_eq rfl

theorem longfellowSign_reads {n : Nat} (b : Byte) :
    (longfellowSign sampleSha).readKey (signerKeyCodec.write (sampleKey.counted n)) =
        some (sampleKey.counted n) ∧
      (longfellowSign sampleSha).readCommitment (Longfellow.writeCommitment (sampleCom b)) =
        some (sampleCom b) := by
  constructor
  · have read : Longfellow.readSignerKey (signerKeyCodec.write (sampleKey.counted n)) =
        .ok (sampleKey.counted n) := (Longfellow.readSignerKey_write _).trans rfl
    simp only [longfellowSign, read]
    rfl
  · simp only [longfellowSign, Longfellow.readCommitment_write]
    rfl

theorem biniusSign_reads {n : Nat} (b : Byte) :
    (biniusSign sampleCrates).readKey (Binius.signerKeysFile (sampleSigners n) (.replicate _ 0) 1) =
        some (sampleSigners n, .replicate _ 0, 1) ∧
      (biniusSign sampleCrates).readCommitment (Binius.toBytes (sampleCom b)) =
        some (sampleCom b) := by
  constructor
  · simp only [biniusSign, Binius.readSignerKeys_file _ _ _ (List.cons_ne_nil _ _), sampleSigners]
    rfl
  · simp only [biniusSign, Binius.readCommitment, Binius.length_toBytes, if_true,
      Binius.fromBytes_toBytes]

/-- Two processes of each program sign two commitments one after the other. -/
theorem file_signers_leaf_safe_serial :
    (∃ s, execute (kkwSign sampleHasher) (initial (Kkw.blindWriteSignerKey { sampleKey with tree := none })
        [] []) (SignProgram.serial 1212 0 [((Vector.replicate Kkw.hmComBytes 0).toList, [.replicate _ 0]),
          ((Vector.replicate Kkw.hmComBytes 1).toList, [.replicate _ 0])]) = s ∧
      SignProgram.TwoSigned s ∧ LeafSafe (kkwSign sampleHasher) s) ∧
    (∃ s, execute (longfellowSign sampleSha) (initial (Longfellow.writeSignerKey sampleKey) [] [])
        (SignProgram.serial 1212 0 [(Longfellow.writeCommitment (sampleCom 0), 1),
          (Longfellow.writeCommitment (sampleCom 1), 1)]) = s ∧
      SignProgram.TwoSigned s ∧ LeafSafe (longfellowSign sampleSha) s) ∧
    ∃ s, execute (biniusSign sampleCrates) (initial
        (Binius.signerKeysFile [sampleSigner] (.replicate _ 0) 1) [] [])
        (SignProgram.serial 1229 0 [(Binius.toBytes (sampleCom 0), ()),
          (Binius.toBytes (sampleCom 1), ())]) = s ∧
      SignProgram.TwoSigned s ∧ LeafSafe (biniusSign sampleCrates) s := by
  refine ⟨⟨_, rfl, ?_, ?_⟩, ⟨_, rfl, ?_, ?_⟩, ⟨_, rfl, ?_, ?_⟩⟩
  · obtain ⟨sig, signed, -⟩ := kkwSign_sample (n := 0) (by decide) 0 ⟨_, rfl⟩
    obtain ⟨sig', signed', -⟩ := kkwSign_sample (n := 1) (by decide) 1 ⟨_, rfl⟩
    obtain ⟨key, com⟩ := kkwSign_reads (n := 0) 0
    obtain ⟨key', com'⟩ := kkwSign_reads (n := 1) 1
    refine SignProgram.serial_two (kkwSign_fits sampleHasher) trivial
      (SignProgram.invoke_eq key com signed rfl) (SignProgram.invoke_eq key' com' signed' rfl) com com'
      (replicate_ne (by decide) (by decide))
  · exact (file_signers_leaf_safe sampleHasher sampleSha sampleCrates _ _ _).1 _
      (SignProgram.serial_orderly (kkwSign_fits sampleHasher) _ nofun (fun _ _ => rfl) trivial)
  · obtain ⟨sig, signed, -⟩ := longfellowSign_sample (n := 0) (by decide) 0 ⟨_, rfl⟩
    obtain ⟨sig', signed', -⟩ := longfellowSign_sample (n := 1) (by decide) 1 ⟨_, rfl⟩
    obtain ⟨key, com⟩ := longfellowSign_reads (n := 0) 0
    obtain ⟨key', com'⟩ := longfellowSign_reads (n := 1) 1
    exact SignProgram.serial_two (longfellowSign_fits sampleSha) trivial
      (SignProgram.invoke_eq key com signed rfl) (SignProgram.invoke_eq key' com' signed' rfl) com com'
      sampleCom_ne
  · exact (file_signers_leaf_safe sampleHasher sampleSha sampleCrates _ _ _).2.1 _
      (SignProgram.serial_orderly (longfellowSign_fits sampleSha) _ nofun (fun _ _ => rfl) trivial)
  · obtain ⟨sigs, signed, -⟩ := biniusSign_sample (n := 0) (by decide) 0
    obtain ⟨sigs', signed', -⟩ := biniusSign_sample (n := 1) (by decide) 1
    obtain ⟨key, com⟩ := biniusSign_reads (n := 0) 0
    obtain ⟨key', com'⟩ := biniusSign_reads (n := 1) 1
    exact SignProgram.serial_two (biniusSign_fits sampleCrates 1) (sampleSigners_held 0)
      (SignProgram.invoke_eq key com signed (sampleSigners_written 1))
      (SignProgram.invoke_eq key' com' signed' (sampleSigners_written 2)) com com' sampleCom_ne
  · exact (file_signers_leaf_safe sampleHasher sampleSha sampleCrates _ _ _).2.2 _
      (SignProgram.serial_orderly (biniusSign_fits sampleCrates 1) _ nofun (fun _ _ => rfl)
        (sampleSigners_held 0))

/-- Both of these signatures are on leaf 0. -/
theorem file_signers_reuse_leaf :
    ¬ LeafSafe (kkwSign sampleHasher) (execute (kkwSign sampleHasher)
      (initial (Kkw.blindWriteSignerKey { sampleKey with tree := none })
        (Vector.replicate Kkw.hmComBytes 0).toList [])
      (crash (Vector.replicate Kkw.hmComBytes 1).toList [.replicate _ 0] 1212)) ∧
    ¬ LeafSafe (longfellowSign sampleSha) (execute (longfellowSign sampleSha)
      (initial (Longfellow.writeSignerKey sampleKey) (Longfellow.writeCommitment (sampleCom 0)) [])
      (crash (Longfellow.writeCommitment (sampleCom 1)) 1 1212)) ∧
    ¬ LeafSafe (biniusSign sampleCrates) (execute (biniusSign sampleCrates)
      (initial (Binius.signerKeysFile [sampleSigner] (.replicate _ 0) 1)
        (Binius.toBytes (sampleCom 0)) [])
      (crash (Binius.toBytes (sampleCom 1)) () 1212)) := by
  refine ⟨?_, ?_, ?_⟩
  · obtain ⟨sig, signed, leaf⟩ := kkwSign_sample (n := 0) (by decide) 0 ⟨_, rfl⟩
    obtain ⟨sig', signed', leaf'⟩ := kkwSign_sample (n := 0) (by decide) 1 ⟨_, rfl⟩
    have length (sig : Kkw.XmssSig) : (Kkw.xmssWriteSig sig).length = 1212 :=
      xmssSigCodec.length_write _
    obtain ⟨key, com⟩ := kkwSign_reads (n := 0) 0
    obtain ⟨-, com'⟩ := kkwSign_reads (n := 0) 1
    exact crash_reuses key com com' signed signed'
      ⟨List.ne_nil_of_length_eq_add_one (length sig), List.ne_nil_of_length_eq_add_one (length sig')⟩
      ⟨(length sig).le, (length sig').le⟩ (u := (sampleKey.ident, 0))
      (by simp [kkwSign, leaf]; rfl) (by simp [kkwSign, leaf']; rfl) (replicate_ne (by decide) (by decide))
  · obtain ⟨sig, signed, leaf⟩ := longfellowSign_sample (n := 0) (by decide) 0 ⟨_, rfl⟩
    obtain ⟨sig', signed', leaf'⟩ := longfellowSign_sample (n := 0) (by decide) 1 ⟨_, rfl⟩
    have length (sig : Longfellow.XmssSignature) : (Longfellow.writeXmssSig sig).length = 1212 :=
      xmssSigCodec.length_write _
    obtain ⟨key, com⟩ := longfellowSign_reads (n := 0) 0
    obtain ⟨-, com'⟩ := longfellowSign_reads (n := 0) 1
    exact crash_reuses key com com' signed signed'
      ⟨List.ne_nil_of_length_eq_add_one (length sig), List.ne_nil_of_length_eq_add_one (length sig')⟩
      ⟨(length sig).le, (length sig').le⟩ (u := (sampleKey.ident, 0))
      (by simp [longfellowSign, leaf]; rfl) (by simp [longfellowSign, leaf']; rfl) sampleCom_ne
  · obtain ⟨sigs, signed, one, leaf⟩ := biniusSign_sample (n := 0) (by decide) 0
    obtain ⟨sigs', signed', one', leaf'⟩ := biniusSign_sample (n := 0) (by decide) 1
    obtain ⟨key, com⟩ := biniusSign_reads (n := 0) 0
    obtain ⟨-, com'⟩ := biniusSign_reads (n := 0) 1
    have file {sigs : List Binius.XmssSignature} (one : sigs.length = 1) (leaf : ∀ sig ∈ sigs, sig.epoch = 0) :
        (Binius.writeXmssSigs sigs).length = 1212 ∧
        ((sampleSigner.skSeed, Vector.replicate 16 0), 0) ∈ (biniusSign sampleCrates).used
          (sampleSigners 0, .replicate _ 0, 1) sigs := by
      obtain ⟨sig, rfl⟩ := List.length_eq_one_iff.mp one
      have epoch := leaf sig (List.mem_singleton_self _)
      refine ⟨?_, by simp [biniusSign, sampleSigners, epoch]⟩
      rw [Binius.writeXmssSigs, List.flatMap_singleton, Binius.length_writeXmssSig]
      rfl
    obtain ⟨length, used⟩ := file one leaf
    obtain ⟨length', used'⟩ := file one' leaf'
    exact crash_reuses key com com' signed signed'
      ⟨List.ne_nil_of_length_eq_add_one length, List.ne_nil_of_length_eq_add_one length'⟩
      ⟨length.le, length'.le⟩ used used' sampleCom_ne

end Samples

end Rule

end SignCommand

end BlindSig
