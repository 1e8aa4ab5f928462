import BlindSig.Voleith.Keccak

/-! The voleith signer: its key, the artefact frames and the reservation of leaves. -/
namespace BlindSig.Voleith

open Kkw

abbrev Commitment := Vector Byte 256

structure SecretKey where
  seed : Vector Byte 32
  publicSeed : PkSeed
  height : Byte
  nextLeaf : BitVec 64
  deriving DecidableEq

def SecretKey.capacity (key : SecretKey) : Nat := 1 <<< key.height.toNat

/-- What `validate_key` lets pass. -/
def validKey (key : SecretKey) : Prop :=
  1 ≤ key.height.toNat ∧ key.height.toNat ≤ 32 ∧ key.nextLeaf.toNat ≤ key.capacity

instance (key : SecretKey) : Decidable (validKey key) := by
  unfold validKey
  infer_instance

def validateKey (key : SecretKey) : Checked String Unit :=
  check (validKey key) "invalid XMSS secret key state"

section Frames

def magic : List Byte := chars ['H', 'B', 'V', 'O', '0', '0', '1']

/-- The eight bytes in front of an artefact. -/
def framing (kind : Char) : List Byte := magic ++ [charByte kind]

def payload (b : List Byte) (kind : Char) (n : Nat) : Checked String (List Byte) := do
  check (b.length = 8 + n ∧ b.take 8 = framing kind) "wrong artifact type, version or length"
  return b.drop 8

def store64 (v : BitVec 64) : Vector Byte 8 := Vector.ofFn fun i : Fin 8 => byteAt v i

def load64 (p : Vector Byte 8) : BitVec 64 :=
  (List.finRange 8).foldl (fun (v : BitVec 64) (i : Fin 8) =>
    v ||| p[i].setWidth 64 <<< (8 * i.val)) 0

/-- The payload of a key: the seeds, the height and `next_leaf`. -/
def keyFields (key : SecretKey) : List Byte :=
  key.seed.toList ++ (key.publicSeed.toList ++ ([key.height] ++ (store64 key.nextLeaf).toList))

def encodeSecret (key : SecretKey) : Checked String (List Byte) := do
  validateKey key
  return framing 'K' ++ keyFields key

def decodeSecret (b : List Byte) : Checked String SecretKey := do
  let p ← payload b 'K' 57
  let (seed, p) ← fetch (readArray 32 p)
  let (publicSeed, p) ← fetch (readArray 16 p)
  let (height, p) ← fetch (readArray 1 p)
  let (nextLeaf, _) ← fetch (readArray 8 p)
  let key := { seed, publicSeed, height := height[0], nextLeaf := load64 nextLeaf }
  validateKey key
  return key

def decodeCommitment (b : List Byte) : Checked String Commitment := do
  let p ← payload b 'C' 256
  let (com, _) ← fetch (readArray 256 p)
  return com

/-- `xmss_write_sig`. -/
def writeSig (sig : XmssSig) : List Byte :=
  (le32Bytes sig.leafIndex).toList ++ sig.nonce.toList ++
    sig.sigHashes.toList.flatMap Vector.toList ++ sig.authPath.toList.flatMap Vector.toList

def encodeResponse (sig : XmssSig) : List Byte := framing 'S' ++ writeSig sig

theorem load64_store64 (v : BitVec 64) : load64 (store64 v) = v :=
  leValue_leBytes (Nat.le_refl 64) v

theorem payload_frame (kind : Char) {p : List Byte} {n : Nat} (size : p.length = n) :
    payload (framing kind ++ p) kind n = .ok p := by
  have eight : (framing kind).length = 8 := rfl
  have front : (framing kind ++ p).take 8 = framing kind := List.take_left' eight
  have back : (framing kind ++ p).drop 8 = p := List.drop_left' eight
  have total : (framing kind ++ p).length = 8 + n := by rw [List.length_append, eight, size]
  rw [payload, check_true ⟨total, front⟩, back]
  rfl

theorem length_keyFields (key : SecretKey) : (keyFields key).length = 57 := by
  simp [keyFields]

theorem encodeSecret_ok {key : SecretKey} {b : List Byte} (written : encodeSecret key = .ok b) :
    validKey key ∧ b = framing 'K' ++ keyFields key := by
  unfold encodeSecret validateKey at written
  by_cases valid : validKey key
  · rw [check_true valid] at written
    exact ⟨valid, (Except.ok.inj written).symm⟩
  · rw [check_false valid] at written
    cases written

/-- A written key is read back. -/
theorem decodeSecret_frame {key : SecretKey} (valid : validKey key) :
    decodeSecret (framing 'K' ++ keyFields key) = .ok key := by
  have seed : readArray 32 (keyFields key) = some (key.seed, key.publicSeed.toList ++
      ([key.height] ++ (store64 key.nextLeaf).toList)) := readArray_eq_some.mpr rfl
  have publicSeed : readArray 16 (key.publicSeed.toList ++
      ([key.height] ++ (store64 key.nextLeaf).toList)) =
      some (key.publicSeed, [key.height] ++ (store64 key.nextLeaf).toList) :=
    readArray_eq_some.mpr rfl
  have height : readArray 1 ([key.height] ++ (store64 key.nextLeaf).toList) =
      some (#v[key.height], (store64 key.nextLeaf).toList) := readArray_eq_some.mpr rfl
  have nextLeaf : readArray 8 (store64 key.nextLeaf).toList = some (store64 key.nextLeaf, []) :=
    readArray_eq_some.mpr (List.append_nil _).symm
  rw [decodeSecret, payload_frame 'K' (length_keyFields key)]
  simp only [bind, Except.bind, seed, publicSeed, height, nextLeaf, fetch_some, load64_store64]
  exact congrArg (fun step => Except.bind step fun _ => Except.ok key) (check_true valid _)

end Frames

/-- The signer in memory: its key and the tree built from it. -/
structure Signer where
  key : SecretKey
  tree : XmssKeypair

namespace Signer

variable (S : Shake256)

/-- `Signer(SecretKey)`. -/
def new (key : SecretKey) : Checked String Signer := do
  validateKey key
  match (xmssHashes S).keypairNewSplit key.seed key.publicSeed key.height.toNat
      (min key.height.toNat xmssSubtreeH) with
  | .ok tree => return { key, tree }
  | .error (.check _) => .error (.check "XMSS tree generation failed")
  | .error .outOfBounds => .error .outOfBounds

/-- The leaf of the next response, and the key that no longer offers it. -/
def reserve (key : SecretKey) : Checked String (Word × SecretKey) := do
  check (key.nextLeaf.toNat ≠ key.capacity) "XMSS key exhausted"
  return (key.nextLeaf.setWidth 32, { key with nextLeaf := key.nextLeaf + 1 })

/-- The response under a reserved leaf. -/
def respond (tree : XmssKeypair) (leaf : Word) (com : Commitment) (nonces : List Nonce) :
    Checked String (XmssSig × XmssKeypair) :=
  match (xmssHashes S).keypairSign tree leaf (hmDigest S com).toList nonces with
  | .ok signed => .ok signed
  | .error (.check _) => .error (.check "XMSS signing failed; reserved leaf consumed")
  | .error .outOfBounds => .error .outOfBounds

/-- `Signer::sign`: the outcome and the signer after it. `persist` says whether the callback
returns; with no callback it is constantly true. -/
def sign (signer : Signer) (com : Commitment) (persist : SecretKey → Bool) (nonces : List Nonce) :
    Checked String XmssSig × Signer :=
  match reserve signer.key with
  | .error e => (.error e, signer)
  | .ok (leaf, key) =>
    if persist key then
      match respond S signer.tree leaf com nonces with
      | .error e => (.error e, { signer with key })
      | .ok (sig, tree) => (.ok sig, { key, tree })
    else (.error (.check "persist"), { signer with key })

theorem new_key {key : SecretKey} {signer : Signer} (made : new S key = .ok signer) :
    signer.key = key := by
  unfold new at made
  obtain ⟨_, _, made⟩ := bind_eq_ok.mp made
  split at made
  · rw [← Except.ok.inj made]
  · cases made
  · cases made

/-- A reserved leaf is the first unused one, and the new key offers the next. -/
theorem reserve_ok {key key' : SecretKey} {leaf : Word} (valid : validKey key)
    (reserved : reserve key = .ok (leaf, key')) :
    validKey key' ∧ key'.height = key.height ∧ leaf.toNat = key.nextLeaf.toNat ∧
      key'.nextLeaf.toNat = key.nextLeaf.toNat + 1 := by
  obtain ⟨_, left, reserved⟩ := bind_eq_ok.mp reserved
  obtain ⟨rfl, rfl⟩ := Prod.mk.inj (Except.ok.inj reserved)
  have left := check_eq_ok.mp left
  obtain ⟨low, high, bound⟩ := valid
  have room : key.capacity ≤ 2 ^ 32 := by
    rw [SecretKey.capacity, Nat.one_shiftLeft]
    exact Nat.pow_le_pow_right (by omega) high
  have next : (key.nextLeaf + 1).toNat = key.nextLeaf.toNat + 1 := by
    have small : (1 : BitVec 64).toNat = 1 := rfl
    rw [BitVec.toNat_add, small]
    exact Nat.mod_eq_of_lt (by omega)
  constructor
  · exact ⟨low, high, by
      change (key.nextLeaf + 1).toNat ≤ key.capacity
      omega⟩
  constructor
  · rfl
  constructor
  · rw [BitVec.toNat_setWidth]
    exact Nat.mod_eq_of_lt (by omega)
  · exact next

theorem respond_leafIndex {tree tree' : XmssKeypair} {leaf : Word} {com : Commitment}
    {nonces : List Nonce} {sig : XmssSig}
    (signed : respond S tree leaf com nonces = .ok (sig, tree')) : sig.leafIndex = leaf := by
  unfold respond at signed
  split at signed
  · next result =>
    rw [Except.ok.inj signed] at result
    exact XmssHashes.keypairSign_leafIndex _ result
  · cases signed
  · cases signed

/-- Once a leaf is reserved it is consumed, whatever happens next. -/
theorem sign_consumed {signer : Signer} {leaf : Word} {next : SecretKey}
    (reserved : reserve signer.key = .ok (leaf, next)) (com : Commitment)
    (persist : SecretKey → Bool) (nonces : List Nonce) :
    (signer.sign S com persist nonces).2.key = next := by
  simp only [sign, reserved]
  split
  · split <;> rfl
  · rfl

theorem sign_unpersisted {signer : Signer} {leaf : Word} {next : SecretKey}
    (reserved : reserve signer.key = .ok (leaf, next)) {persist : SecretKey → Bool}
    (thrown : persist next = false) (com : Commitment) (nonces : List Nonce) :
    (signer.sign S com persist nonces).1 = .error (.check "persist") := by
  simp [sign, reserved, thrown]

theorem sign_response {signer : Signer} {com : Commitment} {persist : SecretKey → Bool}
    {nonces : List Nonce} {sig : XmssSig}
    (signed : (signer.sign S com persist nonces).1 = .ok sig) :
    ∃ next, reserve signer.key = .ok (sig.leafIndex, next) := by
  generalize outcome : reserve signer.key = reserved at signed
  obtain e | ⟨leaf, next⟩ := reserved
  · simp only [sign, outcome] at signed
    cases signed
  · simp only [sign, outcome] at signed
    split at signed
    · split at signed
      · cases signed
      · next sig' _ response =>
        rw [← Except.ok.inj signed, respond_leafIndex S response]
        exact ⟨next, rfl⟩
    · cases signed

/-- A call of `sign`. -/
structure Request where
  com : Commitment
  persist : SecretKey → Bool
  nonces : List Nonce

/-- The responses of a row of calls on one signer. -/
def signs (signer : Signer) : List Request → List XmssSig
  | [] => []
  | request :: requests =>
    let (outcome, signer) := signer.sign S request.com request.persist request.nonces
    match outcome with
    | .ok sig => sig :: signs signer requests
    | .error _ => signs signer requests

theorem sign_valid {signer : Signer} (valid : validKey signer.key) (com : Commitment)
    (persist : SecretKey → Bool) (nonces : List Nonce) :
    validKey (signer.sign S com persist nonces).2.key ∧
      signer.key.nextLeaf.toNat ≤ (signer.sign S com persist nonces).2.key.nextLeaf.toNat := by
  cases reserved : reserve signer.key with
  | error e => simp [sign, reserved, valid]
  | ok pair =>
    obtain ⟨leaf, next⟩ := pair
    obtain ⟨validNext, _, _, grows⟩ := reserve_ok valid reserved
    rw [sign_consumed S reserved]
    exact ⟨validNext, by omega⟩

/-- No later response falls back below `next_leaf`. -/
theorem signs_above (requests : List Request) {signer : Signer} (valid : validKey signer.key) :
    ∀ sig ∈ signer.signs S requests, signer.key.nextLeaf.toNat ≤ sig.leafIndex.toNat := by
  induction requests generalizing signer with
  | nil => intro sig member; cases member
  | cons request requests ih =>
    obtain ⟨validNext, grows⟩ :=
      sign_valid S valid request.com request.persist request.nonces
    intro sig member
    simp only [signs] at member
    split at member
    · next first signed =>
      rcases List.mem_cons.mp member with rfl | member
      · obtain ⟨next, reserved⟩ := sign_response S signed
        obtain ⟨_, _, leaf, _⟩ := reserve_ok valid reserved
        exact leaf.ge
      · exact grows.trans (ih validNext sig member)
    · exact grows.trans (ih validNext sig member)

end Signer

end BlindSig.Voleith
