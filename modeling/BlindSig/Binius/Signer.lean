import BlindSig.Binius.Serialize
import BlindSig.Binius.SignerKeys

/-! The signer of the binius64 program and the signatures of all signers of a key file, which move in
lockstep. The generator of the standard library is a parameter. -/
namespace BlindSig.Binius

abbrev subtreeHeight : Nat := 16

def nonceRngDomain : List Char :=
  ['b', 'l', 'i', 'n', 'd', '-', 'x', 'm', 's', 's', '-', 'b', 'i', 'n', 'i', 'u', 's', '6', '4',
    '/', 'n', 'o', 'n', 'c', 'e', '-', 'r', 'n', 'g']

/-- The hashes of the crates and `StdRng::from_seed`. -/
structure SignerCrates (Rng : Type) where
  upstream : Upstream Rng
  hash : Crates
  fromSeed : Vector Byte 32 → Rng

variable {Rng : Type} (C : SignerCrates Rng)

structure Signer (Rng : Type) where
  rng : Rng
  kp : XmssKeyPair
  skSeed : SkSeed

namespace Signer

def fromKey (skSeed : SkSeed) (pkSeed : PkSeed) (nextLeaf : BitVec 64) (height : Nat) :
    Checked String (Signer Rng) := do
  let kp ← XmssKeyPair.generateFromSeedWithSubtreeH C.upstream skSeed pkSeed height
    (min height subtreeHeight)
  return {
    rng := C.fromSeed (C.upstream.keyedXof skSeed (asciiBytes nonceRngDomain) 32)
    kp := kp.setNextLeaf nextLeaf
    skSeed }

/-- `none`: the search for a randomness does not end. -/
def sign (signer : Signer Rng) (com : HmCommitment) :
    Option (Checked KeyExhaustedError (XmssSignature × XmssKeyPair)) :=
  signer.kp.sign C.upstream signer.rng (comDigest C.hash com)

end Signer

/-- The signature of one key of the file; `none` for a panic, an error or an endless search. -/
def signWith (pkSeed : PkSeed) (height : Nat) (com : HmCommitment) (key : SignerKey) :
    Option XmssSignature := do
  let signer ← (Signer.fromKey C key.skSeed pkSeed key.nextLeaf height).toOption
  let outcome ← signer.sign C com
  let (sig, _) ← outcome.toOption
  return sig

/-- The signing part of `cmd_sign`: signers out of lockstep and an exhausted key are refused. -/
def signAll (keys : List SignerKey) (pkSeed : PkSeed) (height : Nat) (com : HmCommitment) :
    Option (List XmssSignature × List SignerKey) := do
  let first ← keys.head?
  let epoch := first.nextLeaf
  if keys.all (fun k => k.nextLeaf == epoch) && decide (epoch.toNat < 1 <<< height) then
    let sigs ← keys.mapM (signWith C pkSeed height com)
    return (sigs, keys.map fun k => { k with nextLeaf := k.nextLeaf + 1 })
  else none

def readCommitment (buf : List Byte) : Option HmCommitment :=
  if buf.length = commitmentBytes then fromBytes buf else none

/-- The generator of a signer's nonces. -/
def nonceRng (skSeed : SkSeed) : Rng :=
  C.fromSeed (C.upstream.keyedXof skSeed (asciiBytes nonceRngDomain) 32)

/-- The root of a key pair that can be generated. -/
def rootOf (pkSeed : PkSeed) (height : Nat) (skSeed : SkSeed) : Root :=
  match XmssKeyPair.generateFromSeedWithSubtreeH C.upstream skSeed pkSeed height
    (min height subtreeHeight) with
  | .ok kp => kp.root
  | .error _ => .replicate _ 0

variable {C} {pkSeed : PkSeed} {height : Nat} {com : HmCommitment}

theorem signWith_eq_some {key : SignerKey} {sig : XmssSignature}
    (made : signWith C pkSeed height com key = some sig) :
    (1 ≤ height ∧ height ≤ logLifetime) ∧ sig.epoch = key.nextLeaf.setWidth 32 := by
  simp only [signWith, Option.bind_eq_bind, Option.bind_eq_some_iff, Option.pure_def,
    Option.some.injEq] at made
  obtain ⟨signer, opened, outcome, signed, ⟨sig', kp'⟩, kept, rfl⟩ := made
  have allowed : 1 ≤ height ∧ height ≤ logLifetime := by
    by_contra outside
    rw [Signer.fromKey, XmssKeyPair.generateFromSeedWithSubtreeH, check_false outside] at opened
    cases opened
  rw [toOption_eq_some] at opened kept
  obtain ⟨kp, -, built⟩ := bind_eq_ok.mp opened
  cases built
  refine ⟨allowed, ?_⟩
  rw [Signer.sign, XmssKeyPair.sign] at signed
  split at signed
  · cases signed
    cases kept
  · obtain ⟨⟨randomness, encoding⟩, -, rfl⟩ := Option.map_eq_some_iff.mp signed
    obtain ⟨path, -, made⟩ := bind_eq_ok.mp kept
    cases made
    rfl

/-- A key with a leaf left signs when the search ends. -/
theorem signWith_found (consistent : C.upstream.Consistent) {key : SignerKey}
    (inside : 1 ≤ height ∧ height ≤ logLifetime) (room : key.nextLeaf.toNat < 2 ^ height)
    (ends : C.upstream.findRandomness (comDigest C.hash com) (key.nextLeaf.setWidth 32) pkSeed
      (nonceRng C key.skSeed) ≠ none) : ∃ sig, signWith C pkSeed height com key = some sig := by
  have split : 1 ≤ min height subtreeHeight ∧ min height subtreeHeight ≤ height :=
    ⟨Nat.le_min.mpr ⟨inside.1, by decide⟩, Nat.min_le_left _ _⟩
  obtain ⟨kp, built, valid, rfl, -, rfl⟩ :=
    XmssKeyPair.generate_valid (U := C.upstream) key.skSeed pkSeed inside split
  have moved : (kp.setNextLeaf key.nextLeaf).Valid C.upstream :=
    ⟨valid.height_le, valid.subtreeH_le, valid.top, valid.bottom, valid.upper, valid.root⟩
  have cases := moved.sign_cases consistent (C.fromSeed (C.upstream.keyedXof key.skSeed
    (asciiBytes nonceRngDomain) 32)) (comDigest C.hash com)
  simp only [signWith, Signer.fromKey, built, bind, Except.bind, pure, Except.pure, Except.toOption,
    Option.bind, Signer.sign]
  split at cases
  · exact absurd cases.2 ends
  · exact absurd cases.1 (Nat.not_le.mpr room)
  · next outcome =>
    simp only [outcome]
    exact ⟨_, rfl⟩

theorem exists_mapM {α β : Type} {f : α → Option β} {l : List α}
    (each : ∀ a ∈ l, ∃ b, f a = some b) : ∃ r, l.mapM f = some r ∧ r.length = l.length := by
  induction l with
  | nil => exact ⟨[], rfl, rfl⟩
  | cons a l ih =>
    obtain ⟨b, here⟩ := each a List.mem_cons_self
    obtain ⟨r, rest, length⟩ := ih fun a member => each a (List.mem_cons_of_mem _ member)
    refine ⟨b :: r, ?_, congrArg Nat.succ length⟩
    rw [List.mapM_cons, here, rest]
    rfl

theorem signAll_found (consistent : C.upstream.Consistent) {keys : List SignerKey} {epoch : BitVec 64}
    (some : keys ≠ []) (inside : 1 ≤ height ∧ height ≤ logLifetime)
    (room : epoch.toNat < 2 ^ height) (same : ∀ k ∈ keys, k.nextLeaf = epoch)
    (ends : ∀ k ∈ keys, C.upstream.findRandomness (comDigest C.hash com) (epoch.setWidth 32) pkSeed
      (nonceRng C k.skSeed) ≠ none) : ∃ sigs keys', signAll C keys pkSeed height com = .some (sigs, keys') ∧
        sigs.length = keys.length := by
  obtain ⟨first, rest, rfl⟩ := List.exists_cons_of_ne_nil some
  have lockstep : ((first :: rest).all (fun k => k.nextLeaf == first.nextLeaf) &&
      decide (first.nextLeaf.toNat < 1 <<< height)) = true := by
    simp only [Bool.and_eq_true, List.all_eq_true, beq_iff_eq, decide_eq_true_eq, Nat.one_shiftLeft]
    rw [same first List.mem_cons_self]
    exact ⟨same, room⟩
  obtain ⟨sigs, signed, length⟩ := exists_mapM (f := signWith C pkSeed height com) fun k known =>
    signWith_found consistent inside (by rwa [same k known])
      (by rw [same k known]; exact ends k known)
  refine ⟨sigs, (first :: rest).map fun k => { k with nextLeaf := k.nextLeaf + 1 }, ?_, length⟩
  simp only [signAll, List.head?_cons, Option.bind_eq_bind, Option.bind_some, lockstep, if_true,
    signed]
  rfl

/-- The key pair of a signer, at its leaf. -/
theorem Signer.fromKey_ok (skSeed : SkSeed) (pkSeed : PkSeed) (nextLeaf : BitVec 64)
    (inside : 1 ≤ height ∧ height ≤ logLifetime) :
    ∃ kp : XmssKeyPair, kp.Valid C.upstream ∧ kp.pkSeed = pkSeed ∧ kp.height = height ∧
      kp.nextLeaf = nextLeaf ∧ kp.root = rootOf C pkSeed height skSeed ∧
      Signer.fromKey C skSeed pkSeed nextLeaf height = .ok {
        rng := nonceRng C skSeed
        kp
        skSeed } := by
  have split : 1 ≤ min height subtreeHeight ∧ min height subtreeHeight ≤ height :=
    ⟨Nat.le_min.mpr ⟨inside.1, by decide⟩, Nat.min_le_left _ _⟩
  obtain ⟨kp, built, valid, rfl, rfl, rfl⟩ :=
    XmssKeyPair.generate_valid (U := C.upstream) skSeed pkSeed inside split
  refine ⟨kp.setNextLeaf nextLeaf, ⟨valid.height_le, valid.subtreeH_le, valid.top, valid.bottom,
    valid.upper, valid.root⟩, rfl, rfl, rfl, ?_, ?_⟩
  · simp only [rootOf, built]
    rfl
  · simp only [Signer.fromKey, built, bind, Except.bind]
    rfl

/-- What a signer sends reads back, up to its root. -/
theorem signWith_reads (consistent : C.upstream.Consistent) {key : SignerKey} {sig : XmssSignature}
    (made : signWith C pkSeed height com key = some sig) :
    xmssExpand C.upstream pkSeed sig.epoch sig.randomness sig.chainTips sig.merklePath
      (comDigest C.hash com) = some sig ∧ sig.root = rootOf C pkSeed height key.skSeed := by
  obtain ⟨inside, -⟩ := signWith_eq_some made
  obtain ⟨kp, valid, rfl, rfl, -, root, opened⟩ :=
    Signer.fromKey_ok (C := C) key.skSeed pkSeed key.nextLeaf inside
  simp only [signWith, opened, Except.toOption, Signer.sign, Option.bind_eq_bind, Option.bind_some,
    Option.bind_eq_some_iff] at made
  obtain ⟨outcome, signed, ⟨sig', kp'⟩, kept, same⟩ := made
  obtain rfl := Option.some.inj same
  cases outcome with
  | error e => cases kept
  | ok result =>
    obtain rfl := Option.some.inj kept
    have cases := valid.sign_cases consistent (nonceRng C key.skSeed) (comDigest C.hash com)
    rw [signed] at cases
    rw [← readXmssSig_write]
    exact ⟨cases.1.read_write, cases.1.root.trans root⟩

/-- The signers of a file sign at one leaf, which is left. -/
theorem signAll_eq_some {keys keys' : List SignerKey} {sigs : List XmssSignature}
    (made : signAll C keys pkSeed height com = some (sigs, keys')) :
    keys ≠ [] ∧ (1 ≤ height ∧ height ≤ logLifetime) ∧
      keys' = keys.map (fun k => { k with nextLeaf := k.nextLeaf + 1 }) ∧
      ∃ epoch : BitVec 64, epoch.toNat < 2 ^ height ∧ (∀ k ∈ keys, k.nextLeaf = epoch) ∧
        ∀ sig ∈ sigs, sig.epoch = epoch.setWidth 32 := by
  simp only [signAll, Option.bind_eq_bind, Option.bind_eq_some_iff] at made
  obtain ⟨first, head, made⟩ := made
  split at made
  · next lockstep =>
    simp only [Bool.and_eq_true, List.all_eq_true, beq_iff_eq, decide_eq_true_eq,
      Nat.one_shiftLeft] at lockstep
    obtain ⟨same, room⟩ := lockstep
    simp only [Option.bind_eq_some_iff, Option.pure_def, Option.some.injEq] at made
    obtain ⟨sigs', each, same'⟩ := made
    obtain ⟨rfl, rfl⟩ := Prod.mk.inj same'
    have member := List.mem_of_head? head
    have started : ∃ sig, signWith C pkSeed height com first = some sig := by
      obtain ⟨rest, rfl⟩ := List.head?_eq_some_iff.mp head
      simp only [List.mapM_cons, Option.bind_eq_bind, Option.bind_eq_some_iff] at each
      obtain ⟨sig, made, -⟩ := each
      exact ⟨sig, made⟩
    obtain ⟨_, made⟩ := started
    have allowed := (signWith_eq_some made).1
    refine ⟨List.ne_nil_of_mem member, allowed, rfl, first.nextLeaf, room, same, ?_⟩
    intro sig sent
    obtain ⟨key, known, made⟩ := exists_of_mem_mapM each sig sent
    rw [(signWith_eq_some made).2, same key known]
  · cases made

theorem map_of_mapM {α β γ : Type} {f : α → Option β} {g : β → γ} {h : α → γ} {l : List α}
    {r : List β} (mapped : l.mapM f = some r) (each : ∀ a ∈ l, ∀ b, f a = some b → g b = h a) :
    r.map g = l.map h := by
  induction l generalizing r with
  | nil =>
    cases mapped
    rfl
  | cons a l ih =>
    simp only [List.mapM_cons, Option.bind_eq_bind, Option.bind_eq_some_iff, Option.pure_def,
      Option.some.injEq] at mapped
    obtain ⟨b, here, rest, there, rfl⟩ := mapped
    rw [List.map_cons, List.map_cons, each a List.mem_cons_self b here,
      ih there fun a member => each a (List.mem_cons_of_mem _ member)]

theorem signAll_length {keys keys' : List SignerKey} {sigs : List XmssSignature}
    (made : signAll C keys pkSeed height com = some (sigs, keys')) : sigs.length = keys.length := by
  simp only [signAll, Option.bind_eq_bind, Option.bind_eq_some_iff] at made
  obtain ⟨first, -, made⟩ := made
  split at made
  · simp only [Option.bind_eq_some_iff, Option.pure_def, Option.some.injEq] at made
    obtain ⟨sigs', each, same⟩ := made
    obtain ⟨rfl, -⟩ := Prod.mk.inj same
    have units := map_of_mapM (g := fun _ => ()) (h := fun _ => ()) each fun _ _ _ _ => rfl
    simpa using congrArg List.length units
  · cases made

theorem mapM_self {α : Type} {f : α → Option α} {l : List α} (each : ∀ a ∈ l, f a = some a) :
    l.mapM f = some l := by
  induction l with
  | nil => rfl
  | cons a l ih =>
    rw [List.mapM_cons, each a List.mem_cons_self,
      ih fun a member => each a (List.mem_cons_of_mem _ member)]
    rfl

/-- All signatures of a call read back, and their roots are those of the signers, in order. -/
theorem signAll_reads (consistent : C.upstream.Consistent) {keys keys' : List SignerKey}
    {sigs : List XmssSignature} (made : signAll C keys pkSeed height com = some (sigs, keys')) :
    readXmssSigs C.upstream (writeXmssSigs sigs) pkSeed (comDigest C.hash com) = some sigs ∧
      sigs.map XmssSignature.root = keys.map fun k => rootOf C pkSeed height k.skSeed := by
  obtain ⟨some, -⟩ := signAll_eq_some made
  simp only [signAll, Option.bind_eq_bind, Option.bind_eq_some_iff] at made
  obtain ⟨first, head, made⟩ := made
  split at made
  · simp only [Option.bind_eq_some_iff, Option.pure_def, Option.some.injEq] at made
    obtain ⟨sigs', each, same⟩ := made
    obtain ⟨rfl, -⟩ := Prod.mk.inj same
    have roots := map_of_mapM (g := XmssSignature.root)
      (h := fun k : SignerKey => rootOf C pkSeed height k.skSeed) each
      fun k _ sig signed => (signWith_reads consistent signed).2
    have sent : sigs' ≠ [] := by
      rintro rfl
      exact some (List.map_eq_nil_iff.mp roots.symm)
    refine ⟨?_, roots⟩
    rw [readXmssSigs_write _ sent]
    refine mapM_self fun sig member => ?_
    obtain ⟨k, -, signed⟩ := exists_of_mem_mapM each sig member
    exact (signWith_reads consistent signed).1
  · cases made

section Commands

variable (C)

/-- The keys and the roots of `keygen`. -/
def keygen (skSeeds : List SkSeed) (pkSeed : PkSeed) (height : Nat) :
    Checked String (List SignerKey × List Root) := do
  let signers ← skSeeds.mapM fun skSeed => Signer.fromKey C skSeed pkSeed 0 height
  return (skSeeds.map fun skSeed => { skSeed, nextLeaf := 0 }, signers.map fun s => s.kp.root)

/-- The checks of `prove` before a proof is made. -/
def proveAccepts (pubFile : List Byte) (com : HmCommitment) (sigFile : List Byte) : Bool :=
  match readSignerPub pubFile with
  | .ok (roots, pkSeed) =>
    match readXmssSigs C.upstream sigFile pkSeed (comDigest C.hash com) with
    | some sigs => sigs.length == roots.length && (sigs.zip roots).all fun (sig, root) =>
        sig.root == root
    | none => false
  | .error _ => false

variable {C}

theorem keygen_ok (skSeeds : List SkSeed) (pkSeed : PkSeed)
    (inside : 1 ≤ height ∧ height ≤ logLifetime) : keygen C skSeeds pkSeed height =
      .ok (skSeeds.map fun skSeed => { skSeed, nextLeaf := 0 },
        skSeeds.map (rootOf C pkSeed height)) := by
  have opens (skSeed : SkSeed) : ∃ signer, Signer.fromKey C skSeed pkSeed 0 height = .ok signer ∧
      signer.kp.root = rootOf C pkSeed height skSeed := by
    obtain ⟨kp, -, -, -, -, root, opened⟩ := Signer.fromKey_ok (C := C) skSeed pkSeed 0 inside
    exact ⟨_, opened, root⟩
  choose signer opened root using opens
  simp only [keygen, mapM_ok (fun skSeed _ => opened skSeed), bind, Except.bind, List.map_map]
  exact congrArg (fun roots => Except.ok (_, roots)) (List.map_congr_left fun skSeed _ => root skSeed)

theorem proveAccepts_sent {roots : List Root} {sigs : List XmssSignature} (any : roots ≠ [])
    (read : readXmssSigs C.upstream (writeXmssSigs sigs) pkSeed (comDigest C.hash com) = some sigs)
    (same : sigs.map XmssSignature.root = roots) :
    proveAccepts C (writeSignerPub roots pkSeed) com (writeXmssSigs sigs) = true := by
  subst same
  simp only [proveAccepts, readSignerPub_write _ _ any, read, List.length_map, beq_self_eq_true,
    Bool.true_and, List.all_eq_true, List.zip_map_right]
  intro pair member
  obtain ⟨⟨sig, sig'⟩, both, rfl⟩ := List.mem_map.mp member
  rw [List.zip, List.zipWith_self] at both
  obtain ⟨_, -, same⟩ := List.mem_map.mp both
  obtain ⟨rfl, rfl⟩ := Prod.mk.inj same
  exact beq_self_eq_true _

end Commands

end BlindSig.Binius
