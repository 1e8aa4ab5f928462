import BlindSig.Lib.Codec
import BlindSig.Lib.MerkleTree

/-! The salted Merkle channel: every leaf is hashed with salts of its own, which go into the advice
next to it. What the verifier returns is the committed data, and under injective hashes no advice
makes it return anything else. -/
namespace BlindSig.Binius

section Transcript

/-- The bytes of the proof, and those that the challenger absorbs. -/
structure ProverTranscript where
  combined : List Byte
  observed : List Byte

/-- The bytes that are left of the proof. -/
structure VerifierTranscript where
  combined : List Byte
  observed : List Byte

/-- A failed assertion, or an error of the transcript or of the tree. -/
inductive ChannelError (ε : Type) where
  | panic
  | transcript
  | merkleTree (e : ε)

abbrev Received (ε : Type) := Except (ChannelError ε)

def ProverTranscript.message (t : ProverTranscript) (bytes : List Byte) : ProverTranscript where
  combined := t.combined ++ bytes
  observed := t.observed ++ bytes

/-- Advice is not absorbed. -/
def ProverTranscript.decommitment (t : ProverTranscript) (bytes : List Byte) : ProverTranscript :=
  { t with combined := t.combined ++ bytes }

def readAdvice (read : List Byte → Option (α × List Byte)) (advice : List Byte) :
    Received ε (α × List Byte) :=
  match read advice with
  | some taken => .ok taken
  | none => .error .transcript

def VerifierTranscript.message (c : Codec α) (v : VerifierTranscript) :
    Received ε (α × VerifierTranscript) := do
  let (x, rest) ← readAdvice c.read v.combined
  return (x, { combined := rest, observed := v.observed ++ c.write x })

def merkleResult (x : Except ε α) : Received ε α :=
  match x with
  | .ok a => .ok a
  | .error e => .error (.merkleTree e)

theorem readAdvice_eq_ok {read : List Byte → Option (α × List Byte)} {advice : List Byte}
    {taken : α × List Byte} :
    (readAdvice read advice : Received ε _) = .ok taken ↔ read advice = some taken := by
  unfold readAdvice
  cases read advice with
  | none => simp
  | some other => simp

theorem merkleResult_eq_ok {x : Except ε α} {a : α} : merkleResult x = .ok a ↔ x = .ok a := by
  cases x with
  | ok b => simp [merkleResult]
  | error e => simp [merkleResult]

end Transcript

/-- What the channel calls of `BinaryMerkleTreeProver` and `BinaryMerkleTreeScheme`. -/
structure BinaryMerkleTree (F D Committed ε : Type) where
  commitIterated : List (List F) → Nat → Committed × D × Nat
  optimalVerifyLayer : Nat → Nat → Nat
  layer : Committed → Nat → List D
  proveOpening : Committed → Nat → Nat → List D
  verifyLayer : D → (k : Nat) → Vector D (2 ^ k) → Except ε Unit
  verifyOpening : Nat → List F → (k : Nat) → Nat → Vector D (2 ^ k) → List Byte →
    Except ε (List Byte)
  verifyVector : D → List F → Nat → Except ε Unit

variable {F D Committed ε : Type}

section Channels

variable (S : BinaryMerkleTree F D Committed ε) (scalar : Codec F) (digest : Codec D)

/-- A multilinear polynomial by its values. -/
structure FieldSlice (F : Type) where
  logLen : Nat
  scalars : Vector F (2 ^ logLen)

def FieldSlice.chunk (data : FieldSlice F) (logSize index : Nat) : List F :=
  (data.scalars.toList.drop (index * 2 ^ logSize)).take (2 ^ logSize)

def saltChunk : Nat := 1 <<< 14

/-- Every task draws the salts of a chunk from a generator of its own. -/
def sampleSalts (random : Nat → Nat → F) (n : Nat) : List F :=
  (List.range n).map fun i => random (i / saltChunk) (i % saltChunk)

structure SaltedProverCommitment (F Committed : Type) where
  committed : Committed
  salts : List F
  depth : Nat
  logLeafSize : Nat

structure SaltedProverMerkleChannel where
  transcript : ProverTranscript
  saltLen : Nat
  positive : 0 < saltLen

def withMerkleProver (transcript : ProverTranscript) (saltLen : Nat) :
    Option SaltedProverMerkleChannel :=
  if positive : 0 < saltLen then some { transcript, saltLen, positive } else none

/-- The salts of leaf `index`. -/
def leafSalts (salts : List F) (saltLen index : Nat) : List F :=
  (salts.drop (index * saltLen)).take saltLen

def sendMerkleCommitment (channel : SaltedProverMerkleChannel) (random : Nat → Nat → F)
    (data : FieldSlice F) (leafSize : Nat) :
    Option (SaltedProverCommitment F Committed × SaltedProverMerkleChannel) :=
  let logLeafSize := Nat.log2 leafSize
  if 2 ^ logLeafSize = leafSize ∧ logLeafSize ≤ data.logLen then
    let nLeaves := 2 ^ (data.logLen - logLeafSize)
    let salts := sampleSalts random (nLeaves * channel.saltLen)
    let (committed, root, depth) := S.commitIterated ((List.range nLeaves).map fun index =>
      data.chunk logLeafSize index ++ leafSalts salts channel.saltLen index)
      (leafSize + channel.saltLen)
    some ({ committed, salts, depth, logLeafSize },
      { channel with transcript := channel.transcript.message (digest.write root) })
  else none

/-- The scalars of one leaf and its salts. -/
def leafAdvice (commitment : SaltedProverCommitment F Committed) (saltLen : Nat)
    (data : FieldSlice F) (index : Nat) : List Byte :=
  (data.chunk commitment.logLeafSize index).flatMap scalar.write ++
    (leafSalts commitment.salts saltLen index).flatMap scalar.write

/-- `indices.iter().all(|&index| index < 1 << tree_depth)`. -/
def inRange (treeDepth : Nat) (indices : List Nat) : Bool := indices.all (· < 2 ^ treeDepth)

def sendOpenings (channel : SaltedProverMerkleChannel)
    (commitment : SaltedProverCommitment F Committed) (data : FieldSlice F)
    (indices : List (BitVec 64)) : Option SaltedProverMerkleChannel :=
  let treeDepth := commitment.depth
  let indices := indices.map BitVec.toNat
  if inRange treeDepth indices then
    let layerDepth := S.optimalVerifyLayer indices.length treeDepth
    let advice := (S.layer commitment.committed layerDepth).flatMap digest.write ++
      indices.flatMap fun index => leafAdvice scalar commitment channel.saltLen data index ++
        (S.proveOpening commitment.committed layerDepth index).flatMap digest.write
    some { channel with transcript := channel.transcript.decommitment advice }
  else none

def sendCommittedVector (channel : SaltedProverMerkleChannel)
    (commitment : SaltedProverCommitment F Committed) (data : FieldSlice F) :
    SaltedProverMerkleChannel :=
  let advice := (List.range (2 ^ commitment.depth)).flatMap
    (leafAdvice scalar commitment channel.saltLen data)
  { channel with transcript := channel.transcript.decommitment advice }

structure TranscriptMerkleCommitment (D : Type) where
  root : D
  depth : Nat
  leafSize : Nat

structure SaltedVerifierMerkleChannel where
  transcript : VerifierTranscript
  saltLen : Nat

def recvMerkleCommitment (channel : SaltedVerifierMerkleChannel) (leafSize depth : Nat) :
    Received ε (TranscriptMerkleCommitment D × SaltedVerifierMerkleChannel) := do
  let (root, transcript) ← channel.transcript.message digest
  return ({ root, depth, leafSize }, { channel with transcript })

/-- One opened leaf: its scalars, its salts and its branch, which are checked together. -/
def recvLeaf (saltLen leafSize treeDepth layerDepth : Nat)
    (layerDigests : Vector D (2 ^ layerDepth)) (state : List F × List Byte) (index : Nat) :
    Received ε (List F × List Byte) := do
  let (values, advice) := state
  let (leaf, advice) ← readAdvice (readLoop scalar.read leafSize) advice
  let (salts, advice) ← readAdvice (readLoop scalar.read saltLen) advice
  let advice ← merkleResult (S.verifyOpening index (leaf.toList ++ salts.toList) layerDepth
    treeDepth layerDigests advice)
  return (values ++ leaf.toList, advice)

def recvOpenings (channel : SaltedVerifierMerkleChannel)
    (commitment : TranscriptMerkleCommitment D) (indices : List (BitVec 64)) :
    Received ε (List F × SaltedVerifierMerkleChannel) := do
  let treeDepth := commitment.depth
  let indices := indices.map BitVec.toNat
  if inRange treeDepth indices then
    let layerDepth := S.optimalVerifyLayer indices.length treeDepth
    let (layerDigests, advice) ← readAdvice (readLoop digest.read (2 ^ layerDepth))
      channel.transcript.combined
    merkleResult (S.verifyLayer commitment.root layerDepth layerDigests)
    let (values, advice) ← indices.foldlM (recvLeaf S scalar channel.saltLen commitment.leafSize
      treeDepth layerDepth layerDigests) ([], advice)
    return (values, { channel with transcript := { channel.transcript with combined := advice } })
  else throw .panic

/-- The front of every one of `chunks_exact(salted_leaf_size)`, which asserts a size. -/
def unsalted (saltedLeafSize leafSize : Nat) (data : List F) : Received ε (List F) :=
  if saltedLeafSize = 0 then .error .panic
  else .ok ((List.range (data.length / saltedLeafSize)).flatMap fun index =>
    ((data.drop (index * saltedLeafSize)).take saltedLeafSize).take leafSize)

def recvCommittedVector (channel : SaltedVerifierMerkleChannel)
    (commitment : TranscriptMerkleCommitment D) :
    Received ε (List F × SaltedVerifierMerkleChannel) := do
  let saltedLeafSize := commitment.leafSize + channel.saltLen
  let nLeaves := 2 ^ commitment.depth
  let (data, advice) ← readAdvice (readLoop scalar.read (saltedLeafSize * nLeaves))
    channel.transcript.combined
  merkleResult (S.verifyVector commitment.root data.toList saltedLeafSize)
  let values ← unsalted saltedLeafSize commitment.leafSize data.toList
  return (values, { channel with transcript := { channel.transcript with combined := advice } })

/-- A call on a commitment, and the matching call of the other side. -/
inductive Opened where
  | openings (indices : List (BitVec 64))
  | committedVector

def send (channel : SaltedProverMerkleChannel) (commitment : SaltedProverCommitment F Committed)
    (data : FieldSlice F) : Opened → Option SaltedProverMerkleChannel
  | .openings indices => sendOpenings S scalar digest channel commitment data indices
  | .committedVector => some (sendCommittedVector scalar channel commitment data)

def recv (channel : SaltedVerifierMerkleChannel) (commitment : TranscriptMerkleCommitment D) :
    Opened → Received ε (List F × SaltedVerifierMerkleChannel)
  | .openings indices => recvOpenings S scalar digest channel commitment indices
  | .committedVector => recvCommittedVector S scalar channel commitment

/-- The data that a call opens. -/
def opened (data : FieldSlice F) (logLeafSize : Nat) : Opened → List F
  | .openings indices => indices.flatMap fun index => data.chunk logLeafSize index.toNat
  | .committedVector => data.scalars.toList

def sends (commitment : SaltedProverCommitment F Committed) (data : FieldSlice F) :
    List Opened → SaltedProverMerkleChannel → Option SaltedProverMerkleChannel
  | [], channel => some channel
  | call :: calls, channel => do
    let channel ← send S scalar digest channel commitment data call
    sends commitment data calls channel

def recvs (commitment : TranscriptMerkleCommitment D) :
    List Opened → SaltedVerifierMerkleChannel →
      Received ε (List (List F) × SaltedVerifierMerkleChannel)
  | [], channel => pure ([], channel)
  | call :: calls, channel => do
    let (values, channel) ← recv S scalar digest channel commitment call
    let (results, channel) ← recvs commitment calls channel
    return (values :: results, channel)

end Channels

section Leaves

theorem inRange_iff {treeDepth : Nat} {indices : List Nat} :
    inRange treeDepth indices = true ↔ ∀ i ∈ indices, i < 2 ^ treeDepth := by
  simp [inRange]

variable (data : FieldSlice F) {log saltLen : Nat}

theorem length_sampleSalts (random : Nat → Nat → F) (n : Nat) :
    (sampleSalts random n).length = n := by
  simp [sampleSalts]

theorem length_leafSalts {salts : List F} {n index : Nat} (size : salts.length = n * saltLen)
    (inside : index < n) : (leafSalts salts saltLen index).length = saltLen := by
  have fits := Nat.mul_le_mul_right saltLen inside
  rw [Nat.succ_mul] at fits
  rw [leafSalts, List.length_take, List.length_drop, size]
  omega

/-- The leaves take up the whole vector. -/
theorem leaves_whole (fits : log ≤ data.logLen) :
    2 ^ (data.logLen - log) * 2 ^ log = 2 ^ data.logLen := by
  rw [← Nat.pow_add, Nat.sub_add_cancel fits]

theorem length_chunk (fits : log ≤ data.logLen) {index : Nat}
    (inside : index < 2 ^ (data.logLen - log)) : (data.chunk log index).length = 2 ^ log := by
  have fit := Nat.mul_le_mul_right (2 ^ log) inside
  rw [Nat.succ_mul, leaves_whole data fits] at fit
  rw [FieldSlice.chunk, List.length_take, List.length_drop, Vector.length_toList]
  omega

theorem flatMap_slices {α : Type} (l : List α) (size n : Nat) :
    (List.range n).flatMap (fun i => (l.drop (i * size)).take size) = l.take (n * size) := by
  induction n with
  | zero => simp
  | succ n ih => rw [List.range_succ, List.flatMap_append, ih, Nat.succ_mul, List.take_add]; simp

theorem flatMap_chunk (fits : log ≤ data.logLen) :
    (List.range (2 ^ (data.logLen - log))).flatMap (data.chunk log) = data.scalars.toList := by
  have slices := flatMap_slices data.scalars.toList (2 ^ log) (2 ^ (data.logLen - log))
  rw [leaves_whole data fits, List.take_of_length_le (by simp)] at slices
  exact slices

end Leaves

section Rows

/-! Rows of one length in a row, and the read of as many scalars. -/

theorem length_flatMap_rows {rows : Nat → List α} {n size : Nat}
    (lengths : ∀ i < n, (rows i).length = size) : ((List.range n).flatMap rows).length = n * size := by
  induction n with
  | zero => simp
  | succ n ih =>
    rw [List.range_succ, List.flatMap_append, List.length_append,
      ih fun i inside => lengths i (Nat.lt_succ_of_lt inside), Nat.succ_mul]
    simp [lengths n (Nat.lt_succ_self n)]

theorem row_of_flatMap {rows : Nat → List α} {n size i : Nat}
    (lengths : ∀ i < n, (rows i).length = size) (inside : i < n) :
    (((List.range n).flatMap rows).drop (i * size)).take size = rows i := by
  induction n with
  | zero => omega
  | succ n ih =>
    have front := length_flatMap_rows fun i inside => lengths i (Nat.lt_succ_of_lt inside)
    rw [List.range_succ, List.flatMap_append, List.flatMap_singleton]
    rcases Nat.lt_or_eq_of_le (Nat.le_of_lt_succ inside) with earlier | rfl
    · have fits := Nat.mul_le_mul_right size earlier
      rw [Nat.succ_mul] at fits
      rw [List.drop_append_of_le_length (by omega), List.take_append_of_le_length
        (by rw [List.length_drop]; omega)]
      exact ih (fun i inside => lengths i (Nat.lt_succ_of_lt inside)) earlier
    · rw [List.drop_left' front, List.take_of_length_le (Nat.le_of_eq (lengths i inside))]

theorem readLoop_write (c : Codec α) {l : List α} {n : Nat} (size : l.length = n)
    (rest : List Byte) : ∃ v : Vector α n, v.toList = l ∧
      readLoop c.read n (l.flatMap c.write ++ rest) = some (v, rest) := by
  subst size
  refine ⟨⟨l.toArray, by simp⟩, by simp [Vector.toList], ?_⟩
  rw [readLoop_eq_some]
  simp [Vector.toList]

end Rows

open MerkleTree

/-- What upstream documents of its tree: the digests of the rows are the leaves, an opening is the
branch below the layer, and a check recomputes the digest it compares with. -/
structure BinaryMerkleTree.Lawful (S : BinaryMerkleTree F D Committed ε) (digest : Codec D)
    (leafHash : List F → D) (compress : D → D → D) : Prop where
  layer_inside : ∀ queries depth, S.optimalVerifyLayer queries depth ≤ depth
  commit_root : ∀ depth size (rows : Nat → List F), (∀ i < 2 ^ depth, (rows i).length = size) →
    (S.commitIterated ((List.range (2 ^ depth)).map rows) size).2 =
      (node compress (leafHash ∘ rows) depth 0, depth)
  layer_nodes : ∀ depth size (rows : Nat → List F), (∀ i < 2 ^ depth, (rows i).length = size) →
    ∀ k ≤ depth, S.layer (S.commitIterated ((List.range (2 ^ depth)).map rows) size).1 k =
      (List.range (2 ^ k)).map (node compress (leafHash ∘ rows) (depth - k))
  opening_branch : ∀ depth size (rows : Nat → List F), (∀ i < 2 ^ depth, (rows i).length = size) →
    ∀ k ≤ depth, ∀ i < 2 ^ depth,
      S.proveOpening (S.commitIterated ((List.range (2 ^ depth)).map rows) size).1 k i =
        siblings compress (leafHash ∘ rows) 0 (depth - k) i
  verifyLayer_iff : ∀ root k (digests : Vector D (2 ^ k)) (nodes : Nat → D),
    (∀ i : Fin (2 ^ k), digests[i] = nodes i) →
      (S.verifyLayer root k digests = .ok () ↔ node compress nodes k 0 = root)
  verifyOpening_iff : ∀ i leaf k depth (digests : Vector D (2 ^ k)) advice rest, k ≤ depth →
    i < 2 ^ depth → (S.verifyOpening i leaf k depth digests advice = .ok rest ↔
      ∃ branch : Vector D (depth - k), readLoop digest.read (depth - k) advice = some (branch, rest) ∧
        digests[i / 2 ^ (depth - k)]? = some (climb compress branch.toList i (leafHash leaf)))
  verifyVector_iff : ∀ root depth size (rows : Nat → List F), 0 < size →
    (∀ i < 2 ^ depth, (rows i).length = size) →
      (S.verifyVector root ((List.range (2 ^ depth)).flatMap rows) size = .ok () ↔
        node compress (leafHash ∘ rows) depth 0 = root)

section Plain

variable [DecidableEq D] (digest : Codec D) (leafHash : List F → D) (compress : D → D → D)

/-- A tree that recomputes every node from the rows that were committed. -/
def plainTree : BinaryMerkleTree F D (List (List F)) Unit where
  commitIterated rows _ := (rows,
    node compress (leafHash ∘ (rows.getD · [])) (Nat.log2 rows.length) 0, Nat.log2 rows.length)
  optimalVerifyLayer queries depth := min (Nat.log2 queries) depth
  layer rows k := (List.range (2 ^ k)).map
    (node compress (leafHash ∘ (rows.getD · [])) (Nat.log2 rows.length - k))
  proveOpening rows k i :=
    siblings compress (leafHash ∘ (rows.getD · [])) 0 (Nat.log2 rows.length - k) i
  verifyLayer root k digests :=
    if node compress (digests.toList.getD · root) k 0 = root then .ok () else .error ()
  verifyOpening i leaf k depth digests advice :=
    match readLoop digest.read (depth - k) advice with
    | none => .error ()
    | some (branch, rest) =>
      if digests[i / 2 ^ (depth - k)]? = some (climb compress branch.toList i (leafHash leaf))
        then .ok rest else .error ()
  verifyVector root data size :=
    if node compress (fun i => leafHash ((data.drop (i * size)).take size))
      (Nat.log2 (data.length / size)) 0 = root then .ok () else .error ()

theorem plainTree_lawful :
    (plainTree digest leafHash compress).Lawful digest leafHash compress where
  layer_inside _ _ := Nat.min_le_right _ _
  commit_root depth size rows _ := by
    have same (j : Nat) (inside : j < 2 ^ (depth + 0)) :
        (leafHash ∘ (((List.range (2 ^ depth)).map rows).getD · [])) j = (leafHash ∘ rows) j := by
      have here : j < 2 ^ depth := inside
      simp [List.getD_eq_getElem?_getD, here]
    simp only [plainTree, List.length_map, List.length_range, Nat.log2_two_pow]
    rw [node_congr same Nat.one_pos]
  layer_nodes depth size rows _ k below := by
    simp only [plainTree, List.length_map, List.length_range, Nat.log2_two_pow]
    apply List.map_congr_left
    intro i member
    refine node_congr (n := k) (fun j inside => ?_) (List.mem_range.mp member)
    rw [Nat.sub_add_cancel below] at inside
    simp [List.getD_eq_getElem?_getD, inside]
  opening_branch depth size rows _ k below i inside := by
    simp only [plainTree, List.length_map, List.length_range, Nat.log2_two_pow]
    refine siblings_congr (n := k) (fun j within => ?_) (by rwa [Nat.sub_add_cancel below])
    rw [Nat.zero_add, Nat.sub_add_cancel below] at within
    simp [List.getD_eq_getElem?_getD, within]
  verifyLayer_iff root k digests nodes same := by
    have leaves (j : Nat) (inside : j < 2 ^ (k + 0)) : digests.toList.getD j root = nodes j := by
      have here : j < 2 ^ k := inside
      rw [← same ⟨j, here⟩]
      simp [List.getD_eq_getElem?_getD, here]
    simp only [plainTree]
    rw [node_congr leaves Nat.one_pos]
    simp
  verifyOpening_iff i leaf k depth digests advice rest _ _ := by
    simp only [plainTree]
    cases readLoop digest.read (depth - k) advice with
    | none => simp
    | some taken =>
      obtain ⟨branch, left⟩ := taken
      simp only [Option.some.injEq, Prod.mk.injEq]
      by_cases top : digests[i / 2 ^ (depth - k)]? =
        some (climb compress branch.toList i (leafHash leaf))
      · rw [if_pos top]
        constructor
        · intro accepted
          exact ⟨branch, ⟨rfl, Except.ok.inj accepted⟩, top⟩
        · rintro ⟨_, ⟨rfl, rfl⟩, _⟩
          rfl
      · rw [if_neg top]
        constructor
        · intro accepted
          cases accepted
        · rintro ⟨_, ⟨rfl, rfl⟩, reached⟩
          exact absurd reached top
  verifyVector_iff root depth size rows positive lengths := by
    have count : ((List.range (2 ^ depth)).flatMap rows).length / size = 2 ^ depth := by
      rw [length_flatMap_rows lengths, Nat.mul_div_cancel _ positive]
    have same (j : Nat) (inside : j < 2 ^ (depth + 0)) : leafHash ((((List.range
        (2 ^ depth)).flatMap rows).drop (j * size)).take size) = (leafHash ∘ rows) j := by
      rw [row_of_flatMap lengths inside]
      rfl
    simp only [plainTree, count, Nat.log2_two_pow]
    rw [node_congr same Nat.one_pos]
    simp

end Plain

section Hashed

/-! What the two sides hash: leaves, and pairs of digests. -/

structure Hashed (F D : Type) where
  leaves : List (List F)
  pairs : List (D × D)

def Hashed.none : Hashed F D := { leaves := [], pairs := [] }

def Hashed.and (a b : Hashed F D) : Hashed F D where
  leaves := a.leaves ++ b.leaves
  pairs := a.pairs ++ b.pairs

/-- Nothing that the one side hashes collides with anything else that the other side hashes. -/
structure CollisionFree (leafHash : List F → D) (compress : D → D → D) (a b : Hashed F D) : Prop where
  leaves : ∀ x ∈ a.leaves, ∀ y ∈ b.leaves, leafHash x = leafHash y → x = y
  pairs : Free compress a.pairs b.pairs

theorem CollisionFree.left {leafHash : List F → D} {compress : D → D → D} {a a' b : Hashed F D}
    (free : CollisionFree leafHash compress (a.and a') b) : CollisionFree leafHash compress a b where
  leaves x hx := free.leaves x (List.mem_append_left _ hx)
  pairs p hp := free.pairs p (List.mem_append_left _ hp)

theorem CollisionFree.right {leafHash : List F → D} {compress : D → D → D} {a a' b : Hashed F D}
    (free : CollisionFree leafHash compress (a.and a') b) : CollisionFree leafHash compress a' b where
  leaves x hx := free.leaves x (List.mem_append_right _ hx)
  pairs p hp := free.pairs p (List.mem_append_right _ hp)

variable (S : BinaryMerkleTree F D Committed ε) (scalar : Codec F) (digest : Codec D)
  (leafHash : List F → D) (compress : D → D → D)

/-- A tree over rows. -/
def rowsHashed (rows : Nat → List F) (depth : Nat) : Hashed F D where
  leaves := (List.range (2 ^ depth)).map rows
  pairs := compressed compress (leafHash ∘ rows) depth 0

/-- A leaf with its salts, and its branch. -/
def leafHashed (leafSize saltLen steps : Nat) (advice : List Byte) (index : Nat) :
    Option (Hashed F D × List Byte) := do
  let (leaf, advice) ← readLoop scalar.read leafSize advice
  let (salts, advice) ← readLoop scalar.read saltLen advice
  let (branch, advice) ← readLoop digest.read steps advice
  let salted := leaf.toList ++ salts.toList
  return ({ leaves := [salted], pairs := climbed compress branch.toList index (leafHash salted) },
    advice)

def leavesHashed (leafSize saltLen steps : Nat) : List Nat → List Byte → Hashed F D
  | [], _ => .none
  | index :: indices, advice =>
    match leafHashed scalar digest leafHash compress leafSize saltLen steps advice index with
    | none => .none
    | some (hashed, advice) => hashed.and (leavesHashed leafSize saltLen steps indices advice)

/-- What a call on a received commitment hashes, as far as its advice can be read. -/
def receivedHashed (commitment : TranscriptMerkleCommitment D) (saltLen : Nat)
    (advice : List Byte) : Opened → Hashed F D
  | .openings indices =>
    let k := S.optimalVerifyLayer (indices.map BitVec.toNat).length commitment.depth
    match readLoop digest.read (2 ^ k) advice with
    | none => .none
    | some (digests, advice) =>
      Hashed.and { leaves := [], pairs := compressed compress (digests.toList.getD · commitment.root) k 0 }
        (leavesHashed scalar digest leafHash compress commitment.leafSize saltLen
          (commitment.depth - k) (indices.map BitVec.toNat) advice)
  | .committedVector =>
    let saltedLeafSize := commitment.leafSize + saltLen
    match readLoop scalar.read (saltedLeafSize * 2 ^ commitment.depth) advice with
    | none => .none
    | some (data, _) => rowsHashed leafHash compress (fun i =>
      (data.toList.drop (i * saltedLeafSize)).take saltedLeafSize) commitment.depth

end Hashed

section Committed

variable {S : BinaryMerkleTree F D Committed ε} {scalar : Codec F} {digest : Codec D}
  {leafHash : List F → D} {compress : D → D → D} {data : FieldSlice F} {log saltLen : Nat}
  {salts : List F}

/-- What is hashed into leaf `index`. -/
def saltedLeaf (data : FieldSlice F) (log : Nat) (salts : List F) (saltLen index : Nat) : List F :=
  data.chunk log index ++ leafSalts salts saltLen index

/-- The commitment to the data under the salts, on both sides. -/
def commitmentOf (S : BinaryMerkleTree F D Committed ε) (data : FieldSlice F) (log : Nat)
    (salts : List F) (saltLen : Nat) : SaltedProverCommitment F Committed where
  committed := (S.commitIterated ((List.range (2 ^ (data.logLen - log))).map
    (saltedLeaf data log salts saltLen)) (2 ^ log + saltLen)).1
  salts := salts
  depth := data.logLen - log
  logLeafSize := log

def receivedOf (leafHash : List F → D) (compress : D → D → D) (data : FieldSlice F) (log : Nat)
    (salts : List F) (saltLen : Nat) : TranscriptMerkleCommitment D where
  root := node compress (leafHash ∘ saltedLeaf data log salts saltLen) (data.logLen - log) 0
  depth := data.logLen - log
  leafSize := 2 ^ log

/-- A layer that is accepted is the one of the committed tree. -/
theorem layer_binds (lawful : S.Lawful digest leafHash compress) {k : Nat} (below : k ≤ data.logLen - log) {digests : Vector D (2 ^ k)}
    (free : Free compress (compressed compress (digests.toList.getD ·
      (receivedOf leafHash compress data log salts saltLen).root) k 0)
      (rowsHashed leafHash compress (saltedLeaf data log salts saltLen) (data.logLen - log)).pairs)
    (accepted : S.verifyLayer (receivedOf leafHash compress data log salts saltLen).root k digests =
      .ok ()) {j : Nat} (inside : j < 2 ^ k) :
    digests[j] = node compress (leafHash ∘ saltedLeaf data log salts saltLen)
      (data.logLen - log - k) j := by
  let nodes (i : Nat) : D :=
    digests.toList.getD i (receivedOf leafHash compress data log salts saltLen).root
  have here : ∀ i : Fin (2 ^ k), digests[i] = nodes i := fun i => by simp [nodes]
  have root := (lawful.verifyLayer_iff _ _ _ _ here).mp accepted
  have above := compressed_node compress (leafHash ∘ saltedLeaf data log salts saltLen)
    (data.logLen - log - k) k 0
  rw [Nat.sub_add_cancel below] at above
  rw [receivedOf, ← Nat.sub_add_cancel below, ← node_node] at root
  rw [← leaves_of_root (free.mono (List.Subset.refl _) above) root j inside]
  exact here ⟨j, inside⟩

/-- A branch that is accepted starts at the committed leaf. -/
theorem leaf_binds {k i : Nat} (below : k ≤ data.logLen - log)
    (inside : i < 2 ^ (data.logLen - log)) {digests : Vector D (2 ^ k)}
    (nodes : ∀ j (inside : j < 2 ^ k), digests[j] = node compress
      (leafHash ∘ saltedLeaf data log salts saltLen) (data.logLen - log - k) j)
    {leaf : List F} {branch : Vector D (data.logLen - log - k)}
    (free : CollisionFree leafHash compress
      { leaves := [leaf], pairs := climbed compress branch.toList i (leafHash leaf) }
      (rowsHashed leafHash compress (saltedLeaf data log salts saltLen) (data.logLen - log)))
    (reached : digests[i / 2 ^ (data.logLen - log - k)]? =
      some (climb compress branch.toList i (leafHash leaf))) :
    leaf = saltedLeaf data log salts saltLen i := by
  have place : i / 2 ^ (data.logLen - log - k) < 2 ^ k := by
    rw [Nat.div_lt_iff_lt_mul (Nat.two_pow_pos _), ← Nat.pow_add, Nat.add_sub_cancel' below]
    exact inside
  have top := Option.some.inj ((Vector.getElem?_eq_getElem place).symm.trans reached)
  rw [nodes _ place] at top
  have up := @start_of_climb D compress (leafHash ∘ saltedLeaf data log salts saltLen)
    branch.toList 0 k i (leafHash leaf)
  rw [Vector.length_toList, Nat.zero_add, Nat.sub_add_cancel below] at up
  have start := up inside free.pairs top.symm
  exact free.leaves leaf List.mem_cons_self _
    (List.mem_map_of_mem (List.mem_range.mpr inside)) start

variable (fits : log ≤ data.logLen) (size : salts.length = 2 ^ (data.logLen - log) * saltLen)

include fits size

theorem length_saltedLeaf {i : Nat} (inside : i < 2 ^ (data.logLen - log)) :
    (saltedLeaf data log salts saltLen i).length = 2 ^ log + saltLen := by
  rw [saltedLeaf, List.length_append, length_chunk data fits inside, length_leafSalts size inside]

variable (lawful : S.Lawful digest leafHash compress)

include lawful

/-- The branch of a committed leaf leads into the layer. -/
theorem verifyOpening_committed {k i : Nat} (below : k ≤ data.logLen - log)
    (inside : i < 2 ^ (data.logLen - log)) {digests : Vector D (2 ^ k)}
    (nodes : digests.toList = (S.layer (commitmentOf S data log salts saltLen).committed k))
    (rest : List Byte) :
    S.verifyOpening i (saltedLeaf data log salts saltLen i) k (data.logLen - log) digests
      ((S.proveOpening (commitmentOf S data log salts saltLen).committed k i).flatMap digest.write ++
        rest) = .ok rest := by
  have lengths (j : Nat) (inside : j < 2 ^ (data.logLen - log)) := length_saltedLeaf fits size inside
  have branch := lawful.opening_branch _ _ _ lengths k below i inside
  have layer := lawful.layer_nodes _ _ _ lengths k below
  rw [lawful.verifyOpening_iff _ _ _ _ _ _ _ below inside]
  obtain ⟨v, written, read⟩ := readLoop_write digest (l := S.proveOpening
    (commitmentOf S data log salts saltLen).committed k i) (n := data.logLen - log - k)
    (by rw [commitmentOf, branch, length_siblings]) rest
  refine ⟨v, read, ?_⟩
  have place : i / 2 ^ (data.logLen - log - k) < 2 ^ k := by
    rw [Nat.div_lt_iff_lt_mul (Nat.two_pow_pos _), ← Nat.pow_add, Nat.add_sub_cancel' below]
    exact inside
  have top := climb_siblings compress (leafHash ∘ saltedLeaf data log salts saltLen) 0
    (data.logLen - log - k) i
  rw [Nat.zero_add] at top
  rw [written, commitmentOf, branch]
  rw [commitmentOf, layer] at nodes
  rw [← Vector.getElem?_toList, nodes, List.getElem?_map, List.getElem?_range place]
  exact congrArg some top.symm

variable (scalar) in
/-- One opening of an honest proof: its scalars are returned and exactly its advice is read. -/
theorem recvLeaf_committed {k i : Nat} (below : k ≤ data.logLen - log)
    (inside : i < 2 ^ (data.logLen - log)) {digests : Vector D (2 ^ k)}
    (nodes : digests.toList = (S.layer (commitmentOf S data log salts saltLen).committed k))
    (values : List F) (rest : List Byte) :
    recvLeaf S scalar saltLen (2 ^ log) (data.logLen - log) k digests (values,
      leafAdvice scalar (commitmentOf S data log salts saltLen) saltLen data i ++
        (S.proveOpening (commitmentOf S data log salts saltLen).committed k i).flatMap
          digest.write ++ rest) i = .ok (values ++ data.chunk log i, rest) := by
  have opened := verifyOpening_committed fits size lawful below inside nodes rest
  obtain ⟨leaf, leafEq, readLeaf⟩ := readLoop_write scalar (length_chunk data fits inside)
    ((leafSalts salts saltLen i).flatMap scalar.write ++
      ((S.proveOpening (commitmentOf S data log salts saltLen).committed k i).flatMap digest.write ++
        rest))
  obtain ⟨salt, saltEq, readSalt⟩ := readLoop_write scalar (length_leafSalts size inside)
    ((S.proveOpening (commitmentOf S data log salts saltLen).committed k i).flatMap digest.write ++
      rest)
  have advice : leafAdvice scalar (commitmentOf S data log salts saltLen) saltLen data i ++
      (S.proveOpening (commitmentOf S data log salts saltLen).committed k i).flatMap digest.write ++
        rest = (data.chunk log i).flatMap scalar.write ++
          ((leafSalts salts saltLen i).flatMap scalar.write ++
            ((S.proveOpening (commitmentOf S data log salts saltLen).committed k i).flatMap
              digest.write ++ rest)) := by
    simp only [leafAdvice, commitmentOf, List.append_assoc]
  rw [advice, recvLeaf]
  simp only [readAdvice, readLeaf, readSalt, bind, Except.bind, leafEq, saltEq]
  rw [saltedLeaf] at opened
  rw [opened]
  rfl

variable (scalar) in
/-- The openings of an honest proof, in order. -/
theorem recvLeaves_committed {k : Nat} (below : k ≤ data.logLen - log) {digests : Vector D (2 ^ k)}
    (nodes : digests.toList = (S.layer (commitmentOf S data log salts saltLen).committed k))
    (rest : List Byte) (indices : List Nat) (values : List F)
    (inside : ∀ i ∈ indices, i < 2 ^ (data.logLen - log)) :
    indices.foldlM (recvLeaf S scalar saltLen (2 ^ log) (data.logLen - log) k digests) (values,
      (indices.flatMap fun index =>
        leafAdvice scalar (commitmentOf S data log salts saltLen) saltLen data index ++
          (S.proveOpening (commitmentOf S data log salts saltLen).committed k index).flatMap
            digest.write) ++ rest) =
      .ok (values ++ indices.flatMap (data.chunk log), rest) := by
  induction indices generalizing values with
  | nil => simp [pure, Except.pure]
  | cons i indices ih =>
    have first := recvLeaf_committed scalar fits size lawful below
      (inside i List.mem_cons_self) nodes values
      ((indices.flatMap fun index =>
        leafAdvice scalar (commitmentOf S data log salts saltLen) saltLen data index ++
          (S.proveOpening (commitmentOf S data log salts saltLen).committed k index).flatMap
            digest.write) ++ rest)
    rw [List.foldlM_cons, List.flatMap_cons, List.flatMap_cons, List.append_assoc, first]
    simp only [bind, Except.bind]
    rw [ih _ fun j later => inside j (List.mem_cons_of_mem i later), List.append_assoc]

/-- Openings on both sides: the advice that is written is read, and the chunks are returned. -/
theorem openings_committed (channel : SaltedProverMerkleChannel) (len : channel.saltLen = saltLen)
    {indices : List (BitVec 64)} (inside : ∀ i ∈ indices, i.toNat < 2 ^ (data.logLen - log)) :
    ∃ advice, sendOpenings S scalar digest channel (commitmentOf S data log salts saltLen) data
        indices = some { channel with transcript := channel.transcript.decommitment advice } ∧
      ∀ (v : VerifierTranscript) rest, v.combined = advice ++ rest →
        recvOpenings S scalar digest { transcript := v, saltLen }
          (receivedOf leafHash compress data log salts saltLen) indices =
            .ok (indices.flatMap fun i => data.chunk log i.toNat,
              { transcript := { v with combined := rest }, saltLen }) := by
  subst len
  have lengths (j : Nat) (inside : j < 2 ^ (data.logLen - log)) := length_saltedLeaf fits size inside
  let k := S.optimalVerifyLayer (indices.map BitVec.toNat).length (data.logLen - log)
  have below : k ≤ data.logLen - log := lawful.layer_inside _ _
  have layer := lawful.layer_nodes _ _ _ lengths k below
  have inside' : ∀ i ∈ indices.map BitVec.toNat, i < 2 ^ (data.logLen - log) := by
    intro i member
    obtain ⟨word, given, rfl⟩ := List.mem_map.mp member
    exact inside word given
  have checked := inRange_iff.mpr inside'
  refine ⟨_, if_pos checked, fun v rest split => ?_⟩
  obtain ⟨digests, nodes, read⟩ := readLoop_write digest (l := S.layer
    (commitmentOf S data log salts channel.saltLen).committed k) (n := 2 ^ k)
    (by rw [commitmentOf, layer]; simp)
    (((indices.map BitVec.toNat).flatMap fun index => leafAdvice scalar
      (commitmentOf S data log salts channel.saltLen) channel.saltLen data index ++
        (S.proveOpening (commitmentOf S data log salts channel.saltLen).committed k index).flatMap
          digest.write) ++ rest)
  have accepted : S.verifyLayer (receivedOf leafHash compress data log salts channel.saltLen).root k
      digests = .ok () := by
    rw [lawful.verifyLayer_iff _ _ _ (node compress (leafHash ∘
      saltedLeaf data log salts channel.saltLen) (data.logLen - log - k))]
    · rw [node_node, Nat.sub_add_cancel below]
      rfl
    · intro i
      have entry := congrArg (·[i.val]?) (nodes.trans layer)
      simpa using entry
  have opened := recvLeaves_committed scalar fits size lawful below nodes rest
    (indices.map BitVec.toNat) [] inside'
  rw [List.append_assoc] at split
  have first : readAdvice (readLoop digest.read (2 ^ k)) v.combined = (.ok (digests, _) : Received ε _) :=
    readAdvice_eq_ok.mpr (split ▸ read)
  have root := merkleResult_eq_ok.mpr accepted
  simp only [recvOpenings, receivedOf] at root ⊢
  simp only [checked, if_true, bind, Except.bind]
  rw [first]
  simp only
  rw [root]
  simp only
  rw [opened]
  simp [List.flatMap_map, pure, Except.pure]

omit size lawful in
/-- The salted leaves without their salts. -/
theorem unsalted_committed {vector : List F}
    (lengths : ∀ j < 2 ^ (data.logLen - log),
      (saltedLeaf data log salts saltLen j).length = 2 ^ log + saltLen)
    (written : vector = (List.range (2 ^ (data.logLen - log))).flatMap
      (saltedLeaf data log salts saltLen)) :
    (unsalted (2 ^ log + saltLen) (2 ^ log) vector : Received ε _) = .ok data.scalars.toList := by
  have positive : 0 < 2 ^ log + saltLen := Nat.add_pos_left (Nat.two_pow_pos log) _
  have count : vector.length / (2 ^ log + saltLen) = 2 ^ (data.logLen - log) := by
    rw [written, length_flatMap_rows lengths, Nat.mul_div_cancel _ positive]
  rw [unsalted, if_neg (Nat.ne_of_gt positive), count, ← flatMap_chunk data fits, written]
  congr 1
  apply List.flatMap_congr
  intro i member
  have inside := List.mem_range.mp member
  rw [row_of_flatMap lengths inside, saltedLeaf, List.take_left' (length_chunk data fits inside)]

variable (scalar) in
/-- The whole vector on both sides. -/
theorem vector_committed (channel : SaltedProverMerkleChannel)
    (len : channel.saltLen = saltLen) :
    ∃ advice, sendCommittedVector scalar channel (commitmentOf S data log salts saltLen) data =
        { channel with transcript := channel.transcript.decommitment advice } ∧
      ∀ (v : VerifierTranscript) rest, v.combined = advice ++ rest →
        recvCommittedVector S scalar { transcript := v, saltLen }
          (receivedOf leafHash compress data log salts saltLen) =
            .ok (data.scalars.toList, { transcript := { v with combined := rest }, saltLen }) := by
  subst len
  have lengths (j : Nat) (inside : j < 2 ^ (data.logLen - log)) := length_saltedLeaf fits size inside
  have total := length_flatMap_rows lengths
  have advice : (List.range (2 ^ (data.logLen - log))).flatMap (leafAdvice scalar
      (commitmentOf S data log salts channel.saltLen) channel.saltLen data) =
      ((List.range (2 ^ (data.logLen - log))).flatMap
        (saltedLeaf data log salts channel.saltLen)).flatMap scalar.write := by
    rw [List.flatMap_assoc]
    apply List.flatMap_congr
    intro i _
    rw [saltedLeaf, List.flatMap_append]
    rfl
  refine ⟨_, rfl, fun v rest split => ?_⟩
  change v.combined = (List.range (2 ^ (data.logLen - log))).flatMap (leafAdvice scalar
    (commitmentOf S data log salts channel.saltLen) channel.saltLen data) ++ rest at split
  rw [advice] at split
  obtain ⟨vector, written, read⟩ := readLoop_write scalar (by rw [total, Nat.mul_comm]) rest
  rw [← split] at read
  have accepted := (lawful.verifyVector_iff (receivedOf leafHash compress data log salts
    channel.saltLen).root _ _ _ (Nat.add_pos_left (Nat.two_pow_pos log) _) lengths).mpr rfl
  rw [← written] at accepted
  have root := merkleResult_eq_ok.mpr accepted
  simp only [recvCommittedVector, receivedOf] at root ⊢
  simp only [readAdvice, read, bind, Except.bind]
  rw [root]
  simp only
  rw [unsalted_committed fits lengths written]
  rfl

variable (scalar) in
/-- One call on both sides. -/
theorem call_committed (channel : SaltedProverMerkleChannel)
    (len : channel.saltLen = saltLen) (call : Opened)
    (inside : ∀ indices, call = .openings indices → ∀ i ∈ indices,
      i.toNat < 2 ^ (data.logLen - log)) :
    ∃ advice, send S scalar digest channel (commitmentOf S data log salts saltLen) data call =
        some { channel with transcript := channel.transcript.decommitment advice } ∧
      ∀ (v : VerifierTranscript) rest, v.combined = advice ++ rest →
        recv S scalar digest { transcript := v, saltLen }
          (receivedOf leafHash compress data log salts saltLen) call =
            .ok (opened data log call, { transcript := { v with combined := rest }, saltLen }) := by
  cases call with
  | openings indices =>
    exact openings_committed fits size lawful channel len (inside indices rfl)
  | committedVector =>
    obtain ⟨advice, sent, received⟩ := vector_committed scalar fits size lawful channel len
    exact ⟨advice, congrArg some sent, received⟩

omit size in
theorem leaves_bind {k : Nat} (below : k ≤ data.logLen - log) {digests : Vector D (2 ^ k)}
    (nodes : ∀ j (inside : j < 2 ^ k), digests[j] = node compress
      (leafHash ∘ saltedLeaf data log salts saltLen) (data.logLen - log - k) j)
    {indices : List Nat} (inside : ∀ i ∈ indices, i < 2 ^ (data.logLen - log))
    {values result : List F} {advice rest : List Byte}
    (free : CollisionFree leafHash compress
      (leavesHashed scalar digest leafHash compress (2 ^ log) saltLen (data.logLen - log - k) indices
        advice)
      (rowsHashed leafHash compress (saltedLeaf data log salts saltLen) (data.logLen - log)))
    (run : indices.foldlM (recvLeaf S scalar saltLen (2 ^ log) (data.logLen - log) k digests)
      (values, advice) = .ok (result, rest)) :
    result = values ++ indices.flatMap (data.chunk log) := by
  induction indices generalizing values advice with
  | nil =>
    simp only [List.foldlM_nil, pure, Except.pure, Except.ok.injEq, Prod.mk.injEq] at run
    simp [run.1]
  | cons i indices ih =>
    have here := inside i List.mem_cons_self
    rw [List.foldlM_cons] at run
    obtain ⟨⟨values', advice'⟩, step, later⟩ := bind_eq_ok.mp run
    simp only [recvLeaf] at step
    obtain ⟨⟨leaf, afterLeaf⟩, readLeaf, step⟩ := bind_eq_ok.mp step
    obtain ⟨⟨salt, afterSalt⟩, readSalt, step⟩ := bind_eq_ok.mp step
    obtain ⟨afterBranch, verified, step⟩ := bind_eq_ok.mp step
    obtain ⟨branch, readBranch, reached⟩ := (lawful.verifyOpening_iff _ _ _ _ _ _ _ below here).mp
      (merkleResult_eq_ok.mp verified)
    obtain ⟨appended, rfl⟩ := Prod.mk.inj (Except.ok.inj step)
    have hashed : leafHashed scalar digest leafHash compress (2 ^ log) saltLen
        (data.logLen - log - k) advice i = some ({
          leaves := [leaf.toList ++ salt.toList]
          pairs := climbed compress branch.toList i (leafHash (leaf.toList ++ salt.toList)) },
          afterBranch) := by
      rw [leafHashed, readAdvice_eq_ok.mp readLeaf]
      simp only [Option.bind_eq_bind, Option.bind_some]
      rw [readAdvice_eq_ok.mp readSalt]
      simp only [Option.bind_some]
      rw [readBranch]
      rfl
    rw [leavesHashed, hashed] at free
    have salted := leaf_binds below here nodes free.left reached
    have lengths : leaf.toList.length = (data.chunk log i).length := by
      rw [length_chunk data fits here, Vector.length_toList]
    rw [ih (fun j member => inside j (List.mem_cons_of_mem i member)) free.right later, ← appended,
      (List.append_inj salted lengths).1, List.flatMap_cons, List.append_assoc]

/-- No advice makes a call return anything but the data it opens. -/
theorem call_binds {call : Opened} {v : VerifierTranscript}
    {result : List F × SaltedVerifierMerkleChannel}
    (free : CollisionFree leafHash compress
      (receivedHashed S scalar digest leafHash compress
        (receivedOf leafHash compress data log salts saltLen) saltLen v.combined call)
      (rowsHashed leafHash compress (saltedLeaf data log salts saltLen) (data.logLen - log)))
    (accepted : recv S scalar digest { transcript := v, saltLen }
      (receivedOf leafHash compress data log salts saltLen) call = .ok result) :
    result.1 = opened data log call := by
  cases call with
  | openings indices =>
    simp only [recv, recvOpenings] at accepted
    split at accepted
    · next checked =>
      obtain ⟨⟨digests, advice⟩, readLayer, accepted⟩ := bind_eq_ok.mp accepted
      obtain ⟨_, root, accepted⟩ := bind_eq_ok.mp accepted
      obtain ⟨⟨values, advice'⟩, run, accepted⟩ := bind_eq_ok.mp accepted
      simp only [receivedHashed] at free
      rw [readAdvice_eq_ok.mp readLayer] at free
      have below := lawful.layer_inside (indices.map BitVec.toNat).length (data.logLen - log)
      have nodes (j : Nat) (inside : j < 2 ^ _) := layer_binds lawful below free.left.pairs
        (merkleResult_eq_ok.mp root) inside
      have values := leaves_bind fits lawful below nodes (inRange_iff.mp checked) free.right run
      rw [← Except.ok.inj accepted, values, List.nil_append, List.flatMap_map]
      rfl
    · exact absurd accepted (by simp [throw, throwThe, MonadExceptOf.throw])
  | committedVector =>
    have lengths (j : Nat) (inside : j < 2 ^ (data.logLen - log)) :=
      length_saltedLeaf fits size inside
    simp only [recv, recvCommittedVector, receivedOf] at accepted
    obtain ⟨⟨vector, advice⟩, readVector, accepted⟩ := bind_eq_ok.mp accepted
    obtain ⟨_, root, accepted⟩ := bind_eq_ok.mp accepted
    let rows (i : Nat) : List F :=
      (vector.toList.drop (i * (2 ^ log + saltLen))).take (2 ^ log + saltLen)
    have vectorRows : vector.toList = (List.range (2 ^ (data.logLen - log))).flatMap rows := by
      rw [flatMap_slices, List.take_of_length_le]
      rw [Vector.length_toList, Nat.mul_comm]
    have lengths' (j : Nat) (inside : j < 2 ^ (data.logLen - log)) :
        (rows j).length = 2 ^ log + saltLen := by
      have fit := Nat.mul_le_mul_right (2 ^ log + saltLen) inside
      rw [Nat.succ_mul] at fit
      simp only [rows, List.length_take, List.length_drop, Vector.length_toList]
      rw [Nat.mul_comm (2 ^ log + saltLen) (2 ^ (data.logLen - log))]
      omega
    simp only [receivedHashed, receivedOf] at free
    rw [readAdvice_eq_ok.mp readVector] at free
    rw [vectorRows] at root
    have same := leaves_of_root free.pairs
      ((lawful.verifyVector_iff _ _ _ _ (Nat.add_pos_left (Nat.two_pow_pos log) _) lengths').mp
        (merkleResult_eq_ok.mp root))
    have written : vector.toList = (List.range (2 ^ (data.logLen - log))).flatMap
        (saltedLeaf data log salts saltLen) := by
      rw [vectorRows]
      apply List.flatMap_congr
      intro j member
      exact free.leaves _ (List.mem_map_of_mem member) _ (List.mem_map_of_mem member)
        (same j (List.mem_range.mp member))
    obtain ⟨values, front, accepted⟩ := bind_eq_ok.mp accepted
    rw [unsalted_committed fits lengths written] at front
    rw [← Except.ok.inj accepted, ← Except.ok.inj front]
    rfl

/-- A run of calls on both sides. -/
theorem calls_committed (calls : List Opened)
    (inside : ∀ indices, .openings indices ∈ calls → ∀ i ∈ indices,
      i.toNat < 2 ^ (data.logLen - log)) (channel : SaltedProverMerkleChannel)
    (len : channel.saltLen = saltLen) :
    ∃ advice, sends S scalar digest (commitmentOf S data log salts saltLen) data calls channel =
        some { channel with transcript := channel.transcript.decommitment advice } ∧
      ∀ (v : VerifierTranscript) rest, v.combined = advice ++ rest →
        recvs S scalar digest (receivedOf leafHash compress data log salts saltLen) calls
          { transcript := v, saltLen } =
            .ok (calls.map (opened data log), { transcript := { v with combined := rest }, saltLen }) := by
  induction calls generalizing channel with
  | nil =>
    refine ⟨[], ?_, fun v rest split => ?_⟩
    · simp [sends, ProverTranscript.decommitment]
    · rw [recvs, ← List.nil_append rest, ← split]
      rfl
  | cons call calls ih =>
    obtain ⟨advice, sent, received⟩ := call_committed scalar fits size lawful channel len call
      (fun indices here => inside indices (here ▸ List.mem_cons_self))
    obtain ⟨later, sentLater, receivedLater⟩ := ih
      (fun indices member => inside indices (List.mem_cons_of_mem call member))
      { channel with transcript := channel.transcript.decommitment advice } len
    refine ⟨advice ++ later, ?_, fun v rest split => ?_⟩
    · rw [sends, sent, Option.bind_eq_bind, Option.bind_some, sentLater]
      simp [ProverTranscript.decommitment]
    · rw [List.append_assoc] at split
      rw [recvs, received v _ split]
      simp only [bind, Except.bind]
      rw [receivedLater _ rest rfl]
      rfl

end Committed

section RoundTrip

variable {S : BinaryMerkleTree F D Committed ε} {scalar : Codec F} {digest : Codec D}
  {leafHash : List F → D} {compress : D → D → D}

/-- The salts that a commitment to leaves of `2 ^ log` scalars draws. -/
def drawnSalts (data : FieldSlice F) (log saltLen : Nat) (random : Nat → Nat → F) : List F :=
  sampleSalts random (2 ^ (data.logLen - log) * saltLen)

theorem sendMerkleCommitment_eq (lawful : S.Lawful digest leafHash compress) {data : FieldSlice F}
    {log : Nat} (fits : log ≤ data.logLen) (channel : SaltedProverMerkleChannel)
    (random : Nat → Nat → F) :
    sendMerkleCommitment S digest channel random data (2 ^ log) = some
      (commitmentOf S data log (drawnSalts data log channel.saltLen random) channel.saltLen,
        { channel with transcript := channel.transcript.message (digest.write
          (receivedOf leafHash compress data log (drawnSalts data log channel.saltLen random)
            channel.saltLen).root) }) := by
  have size : (drawnSalts data log channel.saltLen random).length =
      2 ^ (data.logLen - log) * channel.saltLen := length_sampleSalts _ _
  have committed := lawful.commit_root (data.logLen - log) (2 ^ log + channel.saltLen)
    (saltedLeaf data log (drawnSalts data log channel.saltLen random) channel.saltLen)
    fun j inside => length_saltedLeaf fits size inside
  obtain ⟨root, depth⟩ := Prod.mk.inj committed
  have power : 2 ^ Nat.log2 (2 ^ log) = 2 ^ log ∧ Nat.log2 (2 ^ log) ≤ data.logLen := by
    rw [Nat.log2_two_pow]
    exact ⟨rfl, fits⟩
  rw [sendMerkleCommitment, if_pos power]
  simp only [Nat.log2_two_pow]
  refine congrArg some (Prod.ext ?_ ?_)
  · simp only [commitmentOf]
    congr 1
  · simp only [receivedOf]
    rw [← root]
    rfl

theorem recvMerkleCommitment_eq (channel : SaltedVerifierMerkleChannel) (root : D)
    (leafSize depth : Nat) (rest : List Byte)
    (sent : channel.transcript.combined = digest.write root ++ rest) :
    (recvMerkleCommitment digest channel leafSize depth : Received ε _) = .ok
      ({ root, depth, leafSize }, { channel with
        transcript.combined := rest,
        transcript.observed := channel.transcript.observed ++ digest.write root }) := by
  have read : readAdvice digest.read channel.transcript.combined =
      (.ok (root, rest) : Received ε _) := readAdvice_eq_ok.mpr (digest.read_eq_some.mpr sent)
  simp only [recvMerkleCommitment, VerifierTranscript.message, bind, Except.bind]
  rw [read]
  rfl

/-- The commitment, what the verifier holds of it, and every run of calls on it. -/
theorem salted_channel_round_trip (lawful : S.Lawful digest leafHash compress)
    (data : FieldSlice F) (log : Nat) (fits : log ≤ data.logLen) (random : Nat → Nat → F)
    (channel : SaltedProverMerkleChannel) :
    ∃ commitment received sent,
      sendMerkleCommitment S digest channel random data (2 ^ log) =
        some (commitment, { channel with transcript := channel.transcript.message sent }) ∧
      (∀ v rest, v.combined = sent ++ rest →
        recvMerkleCommitment digest { transcript := v, saltLen := channel.saltLen } (2 ^ log)
          (data.logLen - log) = (.ok (received, {
            transcript := { combined := rest, observed := v.observed ++ sent }
            saltLen := channel.saltLen }) : Received ε _)) ∧
      (∀ later : SaltedProverMerkleChannel, later.saltLen = channel.saltLen →
        ∀ calls : List Opened, (∀ indices, .openings indices ∈ calls → ∀ i ∈ indices,
          i.toNat < 2 ^ (data.logLen - log)) →
        ∃ advice, sends S scalar digest commitment data calls later =
            some { later with transcript := later.transcript.decommitment advice } ∧
          ∀ v rest, v.combined = advice ++ rest →
            recvs S scalar digest received calls { transcript := v, saltLen := channel.saltLen } =
              .ok (calls.map (opened data log), {
                transcript := { v with combined := rest }
                saltLen := channel.saltLen })) ∧
      ∀ (v : VerifierTranscript) (call : Opened) result,
        CollisionFree leafHash compress
          (receivedHashed S scalar digest leafHash compress received channel.saltLen v.combined call)
          (rowsHashed leafHash compress (saltedLeaf data log
            (drawnSalts data log channel.saltLen random) channel.saltLen) (data.logLen - log)) →
        recv S scalar digest { transcript := v, saltLen := channel.saltLen } received call =
          .ok result → result.1 = opened data log call := by
  have size : (drawnSalts data log channel.saltLen random).length =
      2 ^ (data.logLen - log) * channel.saltLen := length_sampleSalts _ _
  refine ⟨commitmentOf S data log (drawnSalts data log channel.saltLen random) channel.saltLen,
    receivedOf leafHash compress data log (drawnSalts data log channel.saltLen random)
      channel.saltLen, _, sendMerkleCommitment_eq lawful fits channel random, ?_, ?_, ?_⟩
  · intro v rest split
    exact recvMerkleCommitment_eq _ _ _ _ rest split
  · intro later same calls inside
    exact calls_committed fits size lawful calls inside later same
  · intro v call result free accepted
    exact call_binds fits size lawful free accepted

/-! Two committed bytes under a tree whose digests keep the first byte of every leaf. -/

def sampleLeafHash (leaf : List (Vector Byte 1)) : Vector Byte 1 := leaf.headD (single 0)

def sampleCompress (l r : Vector Byte 1) : Vector Byte 1 :=
  single (l[(0 : Fin 1)] + 2 * r[(0 : Fin 1)])

def sampleTree : BinaryMerkleTree (Vector Byte 1) (Vector Byte 1) (List (List (Vector Byte 1))) Unit :=
  plainTree (Codec.array 1) sampleLeafHash sampleCompress

def sampleData : FieldSlice (Vector Byte 1) :=
  { logLen := 1, scalars := pair (single 7) (single 9) }

def sampleReceived : TranscriptMerkleCommitment (Vector Byte 1) :=
  { root := single 25, depth := 1, leafSize := 1 }

/-- Both sides run over three openings and the whole vector; a branch and a vector that are accepted
are free of collisions and bind. -/
theorem salted_channel_round_trip_two :
    ∃ channel commitment received sent,
      withMerkleProver { combined := [], observed := [] } 1 = some channel ∧
      sendMerkleCommitment sampleTree (Codec.array 1) channel
        (fun i j => single (BitVec.ofNat 8 (i + j))) sampleData (2 ^ 0) =
          some (commitment, { channel with transcript := channel.transcript.message sent }) ∧
      (∀ later : SaltedProverMerkleChannel, later.saltLen = 1 →
        ∃ advice, sends sampleTree (Codec.array 1) (Codec.array 1) commitment sampleData
            [.openings [1, 1, 0], .committedVector] later =
              some { later with transcript := later.transcript.decommitment advice } ∧
          ∀ v rest, v.combined = advice ++ rest →
            recvs sampleTree (Codec.array 1) (Codec.array 1) received
              [.openings [1, 1, 0], .committedVector] { transcript := v, saltLen := 1 } =
                .ok ([[single 9, single 9, single 7], [single 7, single 9]], {
                  transcript := { v with combined := rest }
                  saltLen := 1 })) ∧
      ∀ call advice, (call, advice) ∈
          [(Opened.openings [1], ([25, 9, 1, 7] : List Byte)), (.committedVector, [7, 0, 9, 1])] →
        CollisionFree sampleLeafHash sampleCompress
          (receivedHashed sampleTree (Codec.array 1) (Codec.array 1) sampleLeafHash sampleCompress
            received 1 advice call)
          (rowsHashed sampleLeafHash sampleCompress
            (saltedLeaf sampleData 0 [single 0, single 1] 1) 1) ∧
        ∃ result, recv sampleTree (Codec.array 1) (Codec.array 1)
            { transcript := { combined := advice, observed := [] }, saltLen := 1 } received call =
              .ok result ∧ result.1 = opened sampleData 0 call := by
  have lawful : sampleTree.Lawful (Codec.array 1) sampleLeafHash sampleCompress :=
    plainTree_lawful (Codec.array 1) sampleLeafHash sampleCompress
  let channel : SaltedProverMerkleChannel :=
    { transcript := { combined := [], observed := [] }, saltLen := 1, positive := Nat.one_pos }
  obtain ⟨commitment, received, sent, committed, told, runs, binds⟩ :=
    @salted_channel_round_trip _ _ _ _ _ (Codec.array 1) _ _ _ lawful sampleData 0 (Nat.zero_le 1)
      (fun i j => single (BitVec.ofNat 8 (i + j))) channel
  -- The commitment sends the root, and that is what the verifier holds.
  have root := (sendMerkleCommitment_eq lawful (Nat.zero_le 1) channel
    (fun i j => single (BitVec.ofNat 8 (i + j)))).symm.trans committed
  obtain rfl : [25] = sent :=
    congrArg (fun sent => sent.2.transcript.combined) (Option.some.inj root)
  have held := Except.ok.inj (told { combined := [25], observed := [] } [] rfl)
  obtain rfl : sampleReceived = received := congrArg Prod.fst held
  refine ⟨channel, commitment, sampleReceived, _, rfl, committed, fun later same => ?_, fun call advice member => ?_⟩
  · refine runs later same [.openings [1, 1, 0], .committedVector] fun indices member => ?_
    simp only [List.mem_cons, Opened.openings.injEq, reduceCtorEq, List.not_mem_nil, or_false] at member
    rw [member]
    simp [sampleData]
  · have free : CollisionFree sampleLeafHash sampleCompress
        (receivedHashed sampleTree (Codec.array 1) (Codec.array 1) sampleLeafHash sampleCompress
          sampleReceived 1 advice call)
        (rowsHashed sampleLeafHash sampleCompress
          (saltedLeaf sampleData 0 [single 0, single 1] 1) 1) := by
      simp only [List.mem_cons, Prod.mk.injEq, List.not_mem_nil, or_false] at member
      rcases member with ⟨rfl, rfl⟩ | ⟨rfl, rfl⟩
      · exact ⟨by decide, by unfold Free; decide⟩
      · exact ⟨by decide, by unfold Free; decide⟩
    have accepted : ∃ result, recv sampleTree (Codec.array 1) (Codec.array 1)
        { transcript := { combined := advice, observed := [] }, saltLen := 1 } sampleReceived call =
          .ok result := by
      simp only [List.mem_cons, Prod.mk.injEq, List.not_mem_nil, or_false] at member
      rcases member with ⟨rfl, rfl⟩ | ⟨rfl, rfl⟩
      · exact ⟨_, rfl⟩
      · exact ⟨_, rfl⟩
    obtain ⟨result, ok⟩ := accepted
    exact ⟨free, result, ok, binds { combined := advice, observed := [] } call result free ok⟩

end RoundTrip

end BlindSig.Binius
