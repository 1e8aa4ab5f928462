import BlindSig.Binius.Gadgets
import BlindSig.Lib.Constraints

/-! What the statement circuit says of an assignment, for one and for several signers. -/
namespace BlindSig.Binius

open Constraints

/-- A signature as the proof system's crate holds it. -/
structure BiXmssSignature where
  randomness : Randomness
  chainTips : Vector Digest wotsLen
  merklePath : Vector Digest logLifetime

/-- The constraints of the crates' own circuits, and what they are the circuits of. -/
structure CircuitCrates extends Crates where
  /-- The number of witness wires of a signature. -/
  signatureWires : Nat
  bmul : Word64 → Word64 → Word64 → Word64 → Word64 × Word64 → Prop
  blake3Fixed : List Word64 → (len : Nat) → Vector Word64 8 → Prop
  circuitXmssVerify : Vector Word64 nFeWords → Vector Word64 nFeWords →
    Vector Word64 nDigestWords → Word64 → Vector Word64 signatureWires → Prop
  /-- The epoch a word stands for, if any. -/
  epochOf : Word64 → Option Word
  signatureOf : Vector Word64 signatureWires → BiXmssSignature
  /-- `XmssSignatureWires::populate`, the words it fills in. -/
  signatureWords : BiXmssSignature → Vector Word64 signatureWires
  /-- `xmss_verify(..).is_ok()` of the crate. -/
  xmssVerify : (merkleRoot : Digest) → PublicParam → Message → BiXmssSignature → Word → Bool

/-- The eight 32-bit words of a digest. -/
def digestWires (d : Vector Byte 32) : Vector Word64 8 :=
  Vector.ofFn fun i : Fin 8 => leValue 64 (slice d (4 * i) 4 (word_of_digest i))

/-- Each circuit enforces its native function. -/
structure CircuitCrates.Enforces (U : CircuitCrates) : Prop where
  bmul_iff : ∀ a₀ a₁ b₀ b₁ out,
    U.bmul a₀ a₁ b₀ b₁ out ↔ out.2 ++ out.1 = U.ghashMul (a₁ ++ a₀) (b₁ ++ b₀)
  blake3Fixed_iff : ∀ (words : List Word64) (len : Nat) out,
    (∀ w ∈ words, w.toNat < 2 ^ 32) → len ≤ 4 * words.length →
      (U.blake3Fixed words len out ↔
        out = digestWires (U.blake3 ((words.flatMap fun w => (leBytes w 4).toList).take len)))
  circuitXmssVerify_iff : ∀ param root message epoch signature,
    U.circuitXmssVerify (bytes16ToWords param) (bytes16ToWords root) (bytes32ToWords message) epoch
      signature ↔ ∃ e, U.epochOf epoch = some e ∧
        U.xmssVerify root param message (U.signatureOf signature) e = true

/-- The builder whose wires are the words of an assignment. -/
def constraints (U : CircuitCrates) (A : Assignment Word64) :
    CircuitBuilder (Constraints A) Word64 U.signatureWires where
  addInout := inout
  addWitness := witness
  addConstant64 := pure
  band x y := pure (x &&& y)
  bor x y := pure (x ||| y)
  bxor x y := pure (x ^^^ y)
  shr x n := pure (x >>> n)
  shl x n := pure (x <<< n)
  bmul a₀ a₁ b₀ b₁ := inner (U.bmul a₀ a₁ b₀ b₁)
  assertEq x y := assert (x = y)
  blake3Fixed words len := inner (U.blake3Fixed words len)
  circuitXmssVerify param root message epoch signature :=
    assert (U.circuitXmssVerify param root message epoch signature)

section Words

/-- The sixteen bytes of two words. -/
def feOfWords (v : Vector Word64 2) : Vector Byte 16 := leBytes v[0] 8 ++ leBytes v[1] 8

theorem leValue_append (a : Vector Byte m) (b : Vector Byte n) (w : Nat) :
    leValue w (a ++ b) = leValue w a ||| leValue w b <<< (8 * m) := by
  apply BitVec.eq_of_getLsbD_eq
  intro j hj
  rw [getLsbD_leValue _ hj, BitVec.getLsbD_or, BitVec.getLsbD_shiftLeft, getLsbD_leValue _ hj]
  rcases Nat.lt_or_ge (j / 8) m with low | high
  · have below : j < 8 * m := by omega
    rw [Vector.getElem?_append_left low]
    simp [below]
  · have above : ¬ j < 8 * m := by omega
    have place : (j - 8 * m) / 8 = j / 8 - m := by omega
    have bit : (j - 8 * m) % 8 = j % 8 := by omega
    have out : a[j / 8]? = none := Vector.getElem?_eq_none (by omega)
    rw [Vector.getElem?_append_right high, getLsbD_leValue _ (by omega), place, bit, out]
    simp [above, hj]

theorem fieldFromBytes_feOfWords (v : Vector Word64 2) :
    fieldFromBytes (feOfWords v) = v[1] ++ v[0] := by
  apply BitVec.eq_of_getLsbD_eq
  intro j hj
  rw [fieldFromBytes, getLsbD_leValue _ hj, BitVec.getLsbD_append, feOfWords]
  rcases Nat.lt_or_ge j 64 with low | high
  · have inside : j / 8 < 8 := by omega
    rw [Vector.getElem?_append_left inside]
    simp only [leBytes, Vector.getElem?_ofFn, inside, dite_true, Option.getD_some]
    rw [getLsbD_byteAt _ _ _ (Nat.mod_lt _ (by decide)), Nat.div_add_mod, if_pos low]
  · have inside : j / 8 - 8 < 8 := by omega
    rw [Vector.getElem?_append_right (by omega)]
    simp only [leBytes, Vector.getElem?_ofFn, inside, dite_true, Option.getD_some]
    rw [getLsbD_byteAt _ _ _ (Nat.mod_lt _ (by decide)), if_neg (Nat.not_lt.mpr high)]
    congr 1
    omega

theorem feOfWords_bytes16ToWords (b : Vector Byte 16) : feOfWords (bytes16ToWords b) = b := by
  have low := leBytes_leValue (Nat.le_refl 64) (slice b 0 8 (by omega))
  have high := leBytes_leValue (Nat.le_refl 64) (slice b 8 8 (by omega))
  have whole := slice_append_slice (m := 8) (n := 8) b
  simp only [feOfWords, bytes16ToWords, Vector.getElem_ofFn, Nat.mul_zero, Nat.mul_one, low, high]
  exact whole

theorem bytes16ToWords_feOfWords (v : Vector Word64 2) : bytes16ToWords (feOfWords v) = v := by
  have low : slice (feOfWords v) 0 8 (by omega) = leBytes v[0] 8 := slice_append_left _ _
  have high : slice (feOfWords v) 8 8 (by omega) = leBytes v[1] 8 := slice_append_right _ _
  apply Vector.ext
  intro i hi
  interval_cases i
  · simpa [bytes16ToWords, low] using leValue_leBytes (Nat.le_refl 64) v[0]
  · simpa [bytes16ToWords, high] using leValue_leBytes (Nat.le_refl 64) v[1]

theorem leBytes_append (v : BitVec w) (m n : Nat) :
    leBytes v m ++ leBytes (v >>> (8 * m)) n = leBytes v (m + n) := by
  apply Vector.ext
  intro i hi
  apply BitVec.eq_of_getLsbD_eq
  intro j hj
  simp only [leBytes, Vector.getElem_ofFn, Vector.getElem_append]
  split
  · rfl
  · next high =>
    rw [getLsbD_byteAt _ _ _ hj, getLsbD_byteAt _ _ _ hj, BitVec.getLsbD_ushiftRight]
    congr 1
    omega

theorem leBytes_mask (w : Word64) : leBytes (w &&& 0xFFFFFFFF) 4 = leBytes w 4 := by
  apply Vector.ext
  intro i hi
  apply BitVec.eq_of_getLsbD_eq
  intro j hj
  have ones : (0xFFFFFFFF : Word64).getLsbD (8 * i + j) = true := by
    have small : 8 * i + j < 32 := by omega
    interval_cases h : 8 * i + j <;> rfl
  simp only [leBytes, Vector.getElem_ofFn]
  rw [getLsbD_byteAt _ _ _ hj, getLsbD_byteAt _ _ _ hj, BitVec.getLsbD_and, ones, Bool.and_true]

/-- The halves of a word are its bytes. -/
theorem split_bytes (w : Word64) :
    (leBytes (w &&& 0xFFFFFFFF) 4).toList ++ (leBytes (w >>> 32) 4).toList =
      (leBytes w 8).toList := by
  rw [← Vector.toList_append, leBytes_mask]
  exact congrArg Vector.toList (leBytes_append w 4 4)

/-- The 32-bit halves of a row of words. -/
def halves (words : List Word64) : List Word64 :=
  words.flatMap fun x => [x &&& 0xFFFFFFFF, x >>> 32]

theorem halves_bytes (words : List Word64) :
    (halves words).flatMap (fun x => (leBytes x 4).toList) =
      words.flatMap fun x => (leBytes x 8).toList := by
  rw [halves, List.flatMap_assoc]
  apply List.flatMap_congr
  intro x _
  rw [← split_bytes]
  simp

theorem halves_narrow (words : List Word64) : ∀ x ∈ halves words, x.toNat < 2 ^ 32 := by
  intro half member
  obtain ⟨x, _, either⟩ := List.mem_flatMap.mp member
  rcases List.mem_pair.mp either with rfl | rfl
  · have masked : (x &&& 0xFFFFFFFF).toNat ≤ 0xFFFFFFFF := by
      rw [BitVec.toNat_and]
      exact Nat.and_le_right
    omega
  · have := x.isLt
    rw [BitVec.toNat_ushiftRight, Nat.shiftRight_eq_div_pow]
    omega

/-- The bytes of a word pair. -/
theorem feOfWords_bytes (v : Vector Word64 2) :
    v.toList.flatMap (fun x => (leBytes x 8).toList) = (feOfWords v).toList := by
  have pair : v.toList = [v[0], v[1]] := by
    apply List.ext_getElem
    · simp
    · intro i hi _
      simp only [Vector.length_toList] at hi
      interval_cases i <;> simp
  rw [pair, feOfWords, Vector.toList_append]
  simp

/-- The bytes of a row of word pairs. -/
theorem rowOfWords_bytes (v : Vector (Vector Word64 2) n) :
    (v.toList.flatMap Vector.toList).flatMap (fun x => (leBytes x 8).toList) =
      (v.map feOfWords).toList.flatMap Vector.toList := by
  rw [List.flatMap_assoc, Vector.toList_map, List.flatMap_map]
  apply List.flatMap_congr
  intro pair _
  exact feOfWords_bytes pair

theorem digestWires_narrow (d : Vector Byte 32) :
    ∀ x ∈ (digestWires d).toList, x.toNat < 2 ^ 32 := by
  intro x member
  rw [digestWires, Vector.toList_ofFn, List.mem_ofFn] at member
  obtain ⟨i, rfl⟩ := member
  exact leValue_lt 64 _

theorem digestWires_bytes (d : Vector Byte 32) :
    (digestWires d).toList.flatMap (fun w => (leBytes w 4).toList) = d.toList := by
  have blocks := flatMap_blocks 4 (k := 8) (l := d.toList) (by simp)
  rw [← List.map_coe_finRange_eq_range, List.flatMap_map] at blocks
  have words : (digestWires d).toList =
      (List.finRange 8).map fun i : Fin 8 => leValue 64 (slice d (4 * i) 4 (word_of_digest i)) := by
    rw [digestWires, Vector.toList_ofFn, List.ofFn_eq_map]
  rw [words, List.flatMap_map]
  refine Eq.trans (List.flatMap_congr fun i _ => ?_) blocks
  rw [leBytes_leValue (by decide), toList_slice, Nat.mul_comm]

/-- The digest in four words, from its eight halves. -/
theorem combine_digestWires (d : Vector Byte 32) (k : Fin 4) :
    leValue 64 (slice d (4 * (2 * k)) 4 (by omega)) |||
      leValue 64 (slice d (4 * (2 * k + 1)) 4 (by omega)) <<< 32 = (bytes32ToWords d)[k] := by
  have halves : slice d (8 * k) 8 (by omega) =
      slice d (4 * (2 * k)) 4 (by omega) ++ slice d (4 * (2 * k + 1)) 4 (by omega) := by
    apply Vector.ext
    intro i hi
    rcases Nat.lt_or_ge i 4 with low | high
    · rw [Vector.getElem_append_left low, getElem_slice, getElem_slice]
      congr 1
      omega
    · rw [Vector.getElem_append_right hi high, getElem_slice, getElem_slice]
      congr 1
      omega
  have joined := leValue_append (slice d (4 * (2 * k)) 4 (by omega))
    (slice d (4 * (2 * k + 1)) 4 (by omega)) 64
  rw [← halves] at joined
  simpa [bytes32ToWords] using joined.symm

/-- Two words and the element they make up. -/
theorem append_eq_iff {x : BitVec m} {y : BitVec n} {p : BitVec (m + n)} :
    x ++ y = p ↔ x = (p >>> n).setWidth m ∧ y = p.setWidth n := by
  constructor
  · rintro rfl
    constructor
    · apply BitVec.eq_of_getLsbD_eq
      intro j hj
      rw [BitVec.getLsbD_setWidth, BitVec.getLsbD_ushiftRight, BitVec.getLsbD_append]
      simp [hj]
    · apply BitVec.eq_of_getLsbD_eq
      intro j hj
      rw [BitVec.getLsbD_setWidth, BitVec.getLsbD_append]
      simp [hj]
  · rintro ⟨rfl, rfl⟩
    apply BitVec.eq_of_getLsbD_eq
    intro j hj
    rw [BitVec.getLsbD_append]
    rcases Nat.lt_or_ge j n with low | high
    · simp [low]
    · have inside : j - n < m := by omega
      simp [Nat.not_lt.mpr high, inside, Nat.add_sub_cancel' high]

end Words

section Meaning

variable {U : CircuitCrates} {A : Assignment Word64}

/-- Words `w`, `w + 1`, .. of the witness. -/
def witnessWords (A : Assignment Word64) (w n : Nat) : Vector Word64 n :=
  Vector.ofFn fun j : Fin n => A.witness (w + j)

/-- Words `i`, `i + 1`, .. of the public words. -/
def inoutWords (A : Assignment Word64) (i n : Nat) : Vector Word64 n :=
  Vector.ofFn fun j : Fin n => A.inout (i + j)

theorem draws_addWitnesses (n : Nat) :
    (addWitnesses (constraints U A) n).Draws (fun _ w => witnessWords A w n) 0 n := by
  have each : ∀ _ : Fin n, ((constraints U A).addWitness).Draws (fun _ w => A.witness w) 0 1 :=
    fun _ _ _ _ => Iff.rfl
  simpa [addWitnesses, witnessWords] using draws_ofFnM each

theorem draws_addInouts (n : Nat) :
    (addInouts (constraints U A) n).Draws
      (fun i _ => inoutWords A i n) n 0 := by
  have each : ∀ _ : Fin n, ((constraints U A).addInout).Draws (fun i _ => A.inout i) 1 0 :=
    fun _ _ _ _ => Iff.rfl
  simpa [addInouts, inoutWords] using draws_ofFnM each

theorem demands_splitWords (words : List Word64) (k : List Word64 → Nat → Nat → Prop) (i w : Nat) :
    (splitWords (constraints U A) words).demands k i w ↔
      k (halves words) i w := by
  have loop := demands_foldlM (A := A)
    (g := fun out (w : Word64) => out ++ [w &&& 0xFFFFFFFF, w >>> 32])
    (f := fun out w => do
      let halves ← splitLoHi (constraints U A) w
      return out ++ halves)
    (fun _ _ _ _ _ => Iff.rfl) words [] k i w
  rw [halves, List.flatMap_eq_foldl]
  exact loop

theorem demands_combineBlake3Digest (d : Vector Byte 32) (k : Vector Word64 4 → Nat → Nat → Prop)
    (i w : Nat) :
    (combineBlake3Digest (constraints U A) (digestWires d)).demands k i w ↔
      k (bytes32ToWords d) i w := by
  have each (j : Fin 4) : (do
      let high ← (constraints U A).shl (digestWires d)[2 * j.val + 1] 32
      (constraints U A).bor (digestWires d)[2 * j.val] high : Constraints A Word64).Draws
      (fun _ _ => (bytes32ToWords d)[j.val]) 0 0 := fun k i w => by
    have word := combine_digestWires d j
    rw [getElem_fin] at word
    rw [← word]
    simp only [digestWires, Vector.getElem_ofFn]
    rfl
  have row := draws_ofFnM each k i w
  simpa [combineBlake3Digest] using row

/-- A product and its sum into the accumulator. -/
theorem demands_bmul (enforces : U.Enforces) (a r : Vector Word64 2)
    (k : Word64 × Word64 → Nat → Nat → Prop) (i w : Nat) :
    ((constraints U A).bmul a[0] a[1] r[0] r[1]).demands k i w ↔
      k ((U.ghashMul (a[1] ++ a[0]) (r[1] ++ r[0])).setWidth 64,
        (U.ghashMul (a[1] ++ a[0]) (r[1] ++ r[0]) >>> 64).setWidth 64) i w := by
  constructor
  · rintro ⟨⟨lo, hi⟩, product, holds⟩
    obtain ⟨rfl, rfl⟩ := append_eq_iff.mp ((enforces.bmul_iff ..).mp product)
    exact holds
  · intro holds
    exact ⟨_, (enforces.bmul_iff ..).mpr (append_eq_iff.mpr ⟨rfl, rfl⟩), holds⟩

theorem append_xor (x y : Word64) (p : BitVec 128) :
    (x ^^^ (p >>> 64).setWidth 64) ++ (y ^^^ p.setWidth 64) = (x ++ y) ^^^ p := by
  have parts : (p >>> 64).setWidth 64 ++ p.setWidth 64 = p := append_eq_iff.mpr ⟨rfl, rfl⟩
  conv_rhs => rw [← parts]
  exact BitVec.xor_append.symm

theorem demands_hmAffineCheck (enforces : U.Enforces) (a r : Vector (Vector Word64 2) nNonce)
    (bTerm mHat : Vector Word64 2) (k : PUnit → Nat → Nat → Prop) (i w : Nat) :
    (hmAffineCheck (constraints U A) a r bTerm mHat).demands k i w ↔
      affineSum U.toCrates (feOfWords bTerm) (a.map feOfWords) (r.map feOfWords) =
        fieldFromBytes (feOfWords mHat) ∧ k ⟨⟩ i w := by
  let product (j : Fin nNonce) : BitVec 128 := U.ghashMul (a[j][1] ++ a[j][0]) (r[j][1] ++ r[j][0])
  let next (acc : Word64 × Word64) (j : Fin nNonce) : Word64 × Word64 :=
    (acc.1 ^^^ (product j).setWidth 64, acc.2 ^^^ (product j >>> 64).setWidth 64)
  have loop := demands_foldlM (A := A) (g := next)
    (f := fun (acc : Word64 × Word64) (j : Fin nNonce) => do
      let (productLo, productHi) ← (constraints U A).bmul a[j][0] a[j][1] r[j][0] r[j][1]
      let lo ← (constraints U A).bxor acc.1 productLo
      let hi ← (constraints U A).bxor acc.2 productHi
      return (lo, hi))
    (fun acc j k i w => by
      rw [demands_bind, demands_bmul enforces a[j] r[j]]
      exact Iff.rfl)
  have sum : ((List.finRange nNonce).foldl next (bTerm[0], bTerm[1])).2 ++
      ((List.finRange nNonce).foldl next (bTerm[0], bTerm[1])).1 =
      affineSum U.toCrates (feOfWords bTerm) (a.map feOfWords) (r.map feOfWords) := by
    let whole (acc : Word64 × Word64) : BitVec 128 := acc.2 ++ acc.1
    have joined : (List.finRange nNonce).foldl (fun sum j => sum ^^^ product j)
        (whole (bTerm[0], bTerm[1])) =
          whole ((List.finRange nNonce).foldl next (bTerm[0], bTerm[1])) :=
      List.foldl_hom whole fun acc j => (append_xor acc.2 acc.1 (product j)).symm
    change whole _ = _
    rw [← joined, affineSum, fieldFromBytes_feOfWords]
    apply List.foldl_ext
    intro sum j _
    simp [product, fieldFromBytes_feOfWords]
  rw [hmAffineCheck, demands_bind, loop, ← sum, fieldFromBytes_feOfWords]
  obtain ⟨lo, hi⟩ := (List.finRange nNonce).foldl next (bTerm[0], bTerm[1])
  have both : hi ++ lo = mHat[1] ++ mHat[0] ↔ lo = mHat[0] ∧ hi = mHat[1] := by
    constructor
    · intro same
      have high := append_eq_iff.mp same
      have own := append_eq_iff.mp (rfl : mHat[1] ++ mHat[0] = mHat[1] ++ mHat[0])
      exact ⟨high.2.trans own.2.symm, high.1.trans own.1.symm⟩
    · rintro ⟨rfl, rfl⟩
      rfl
  rw [both, and_assoc]
  exact Iff.rfl

theorem demands_blake3Fixed (enforces : U.Enforces) {words : List Word64} {bytes : List Byte}
    (narrow : ∀ x ∈ words, x.toNat < 2 ^ 32)
    (whole : words.flatMap (fun x => (leBytes x 4).toList) = bytes)
    (k : Vector Word64 8 → Nat → Nat → Prop) (i w : Nat) :
    ((constraints U A).blake3Fixed words bytes.length).demands k i w ↔
      k (digestWires (U.blake3 bytes)) i w := by
  have size : bytes.length ≤ 4 * words.length := by
    rw [← whole]
    simp [List.length_flatMap, Nat.mul_comm]
  have hashed (out) := enforces.blake3Fixed_iff words bytes.length out narrow size
  simp only [whole, List.take_length] at hashed
  constructor
  · rintro ⟨out, digest, holds⟩
    rwa [(hashed out).mp digest] at holds
  · intro holds
    exact ⟨_, (hashed _).mpr rfl, holds⟩

/-- The six elements from word `w` of the witness on. -/
def nonceWords (A : Assignment Word64) (w : Nat) : Vector (Vector Word64 nFeWords) nNonce :=
  Vector.ofFn fun i : Fin nNonce => witnessWords A (w + nFeWords * i) nFeWords

theorem draws_nonceWords :
    (Vector.ofFnM fun _ : Fin nNonce => addWitnesses (constraints U A) nFeWords).Draws
      (fun _ w => nonceWords A w) 0 12 :=
  draws_ofFnM fun _ : Fin nNonce => draws_addWitnesses nFeWords

theorem demands_revealR (enforces : U.Enforces) (k : Blake3RevealR Word64 → Nat → Nat → Prop)
    (i w : Nat) :
    (Blake3RevealR.new (constraints U A)).demands k i w ↔
      k { r := nonceWords A w,
          yHat := digestWires (hashR U.toCrates ((nonceWords A w).map feOfWords)) } i (w + 12) := by
  have bytes := (halves_bytes _).trans (rowOfWords_bytes (nonceWords A w))
  have hashed := demands_blake3Fixed (A := A) enforces (halves_narrow _) bytes
  have size : (((nonceWords A w).map feOfWords).toList.flatMap Vector.toList).length =
      nNonce * nFe := by
    simp [List.length_flatMap]
  rw [size] at hashed
  rw [Blake3RevealR.new, demands_bind, draws_nonceWords, demands_bind, demands_splitWords,
    demands_bind, hashed]
  exact Iff.rfl

/-- The elements of the two lines from word `w` of the witness on. -/
def lineWords (A : Assignment Word64) (w : Nat) :
    Vector (Vector (Vector Word64 nFeWords) nNonce) nLines :=
  Vector.ofFn fun k : Fin nLines => nonceWords A (w + 12 * k)

/-- The constant terms from word `w` of the witness on. -/
def termWords (A : Assignment Word64) (w : Nat) : Vector (Vector Word64 nFeWords) nLines :=
  Vector.ofFn fun k : Fin nLines => witnessWords A (w + nFeWords * k) nFeWords

def noncesAt (A : Assignment Word64) (w : Nat) : Nonces := (nonceWords A (w + 28)).map feOfWords

/-- The commitment whose lines stand from word `w` on, to the nonces after them. -/
def commitmentAt (U : CircuitCrates) (A : Assignment Word64) (w : Nat) : HmCommitment where
  a := (lineWords A w).map (·.map feOfWords)
  b := (termWords A (w + 24)).map feOfWords
  y := hashR U.toCrates (noncesAt A w)

theorem draws_lineWords :
    (Vector.ofFnM fun _ : Fin nLines => Vector.ofFnM fun _ : Fin nNonce =>
      addWitnesses (constraints U A) nFeWords).Draws (fun _ w => lineWords A w) 0 24 :=
  draws_ofFnM fun _ : Fin nLines => draws_nonceWords

theorem draws_termWords :
    (Vector.ofFnM fun _ : Fin nLines => addWitnesses (constraints U A) nFeWords).Draws
      (fun _ w => termWords A w) 0 4 :=
  draws_ofFnM fun _ : Fin nLines => draws_addWitnesses nFeWords

/-- The halves the digest is taken of are the encoding of the commitment. -/
theorem commitmentAt_bytes (w : Nat) :
    (halves ((lineWords A w).toList.flatMap fun line => line.toList.flatMap Vector.toList) ++
      halves ((termWords A (w + 24)).toList.flatMap Vector.toList) ++
      (digestWires (commitmentAt U A w).y).toList).flatMap (fun x => (leBytes x 4).toList) =
        toBytes (commitmentAt U A w) := by
  rw [List.flatMap_append, List.flatMap_append, halves_bytes, halves_bytes, digestWires_bytes,
    rowOfWords_bytes, toBytes, List.append_assoc]
  congr 1
  rw [List.flatMap_assoc, commitmentAt, Vector.toList_map, List.flatMap_map]
  apply List.flatMap_congr
  intro line _
  exact rowOfWords_bytes line

/-- What the commitment gadget says: both lines of the commitment meet the digest of the message
at the nonces. -/
theorem demands_blindCommit (enforces : U.Enforces)
    (k : BlindCommitGadget Word64 → Nat → Nat → Prop) (i w : Nat) :
    (BlindCommitGadget.new (constraints U A)).demands k i w ↔
      (∀ line : Fin nLines, affineSum U.toCrates (commitmentAt U A w).b[line]
          (commitmentAt U A w).a[line] (noncesAt A w) =
        fieldFromBytes (feOfWords (inoutWords A (i + 2 * line) 2))) ∧
      k { mHat := inoutWords A i nDigestWords
          comA := lineWords A w
          comB := termWords A (w + 24)
          domainParam := inoutWords A (i + 4) nFeWords
          revealR := { r := nonceWords A (w + 28),
                       yHat := digestWires (commitmentAt U A w).y }
          comD := bytes32ToWords (comDigest U.toCrates (commitmentAt U A w)) } (i + 6) (w + 40) := by
  have lines := demands_forM (A := A)
    (f := fun line : Fin 2 => hmAffineCheck (constraints U A) (lineWords A w)[line]
      (nonceWords A (w + 28)) (termWords A (w + 24))[line]
      (slice (inoutWords A i nDigestWords) (2 * line) 2 (by simp only [nDigestWords]; omega)))
    (P := fun line : Fin nLines => affineSum U.toCrates (commitmentAt U A w).b[line]
          (commitmentAt U A w).a[line] (noncesAt A w) =
        fieldFromBytes (feOfWords (inoutWords A (i + 2 * line) 2)))
    (fun line k i' w' => by
      rw [demands_hmAffineCheck enforces]
      simp [commitmentAt, noncesAt, slice, inoutWords, Nat.add_assoc])
    (List.finRange nLines)
  have narrow : ∀ x ∈ halves ((lineWords A w).toList.flatMap fun line =>
        line.toList.flatMap Vector.toList) ++
      halves ((termWords A (w + 24)).toList.flatMap Vector.toList) ++
      (digestWires (commitmentAt U A w).y).toList, x.toNat < 2 ^ 32 := by
    intro x member
    rcases List.mem_append.mp member with half | digest
    · rcases List.mem_append.mp half with a | b
      · exact halves_narrow _ x a
      · exact halves_narrow _ x b
    · exact digestWires_narrow _ x digest
  have hashed := demands_blake3Fixed (A := A) enforces narrow (commitmentAt_bytes w)
  rw [length_toBytes] at hashed
  rw [BlindCommitGadget.new, demands_bind, draws_addInouts, demands_bind, draws_addInouts,
    demands_bind, draws_lineWords, demands_bind, draws_termWords, demands_bind,
    demands_revealR enforces, demands_bind]
  refine (lines _ _ _).trans ?_
  simp only [List.mem_finRange, true_implies]
  apply and_congr_right
  intro _
  rw [demands_bind, demands_splitWords, demands_bind, demands_splitWords, demands_bind]
  refine (hashed _ _ _).trans ?_
  exact demands_combineBlake3Digest _ _ _ _

theorem means_signature (param root : Vector Word64 nFeWords) (message : Vector Word64 nDigestWords)
    (epoch : Word64) :
    Means (A := A) (do
        let signature ← addWitnesses (constraints U A) U.signatureWires
        (constraints U A).circuitXmssVerify param root message epoch signature
        return signature)
      (fun _ w => U.circuitXmssVerify param root message epoch (witnessWords A w U.signatureWires))
      (fun _ w => witnessWords A w U.signatureWires) 0 U.signatureWires := by
  intro k i w
  rw [demands_bind, draws_addWitnesses]
  exact Iff.rfl

/-- What the lines of the commitment gadget say at the start of a circuit. -/
def LinesMeet (U : CircuitCrates) (A : Assignment Word64) : Prop :=
  ∀ line : Fin nLines, affineSum U.toCrates (commitmentAt U A 0).b[line]
      (commitmentAt U A 0).a[line] (noncesAt A 0) =
    fieldFromBytes (feOfWords (inoutWords A (0 + 2 * line) 2))

/-- What the XMSS gadget says of the signer with the root at `6 + 2i`. -/
def SignerMeets (U : CircuitCrates) (A : Assignment Word64) (i : Nat) : Prop :=
  U.circuitXmssVerify (inoutWords A 4 nFeWords) (inoutWords A (6 + nFeWords * i) nFeWords)
    (bytes32ToWords (comDigest U.toCrates (commitmentAt U A 0))) (A.witness 40)
    (witnessWords A (41 + U.signatureWires * i) U.signatureWires)

theorem holds_buildCircuit (enforces : U.Enforces) (inouts : Nat) :
    Holds (buildCircuit (constraints U A)) inouts ↔
      LinesMeet U A ∧ SignerMeets U A 0 ∧ 8 = inouts := by
  rw [Holds, buildCircuit, demands_bind, demands_blindCommit enforces]
  apply and_congr_right
  intro _
  rw [demands_bind, draws_addInouts, demands_bind, XmssVerifyGadget.new, demands_bind]
  refine (draws_addWitnesses _ _ _ _).trans ?_
  exact Iff.rfl

theorem holds_buildCircuitMulti (enforces : U.Enforces) (n inouts : Nat) :
    Holds (buildCircuitMulti (constraints U A) n) inouts ↔
      LinesMeet U A ∧ (∀ i : Fin n, SignerMeets U A i) ∧ 6 + 2 * n = inouts := by
  have roots := draws_ofFnM fun _ : Fin n => draws_addInouts (U := U) (A := A) nFeWords
  have signers (roots : Vector (Vector Word64 nFeWords) n) := means_ofFnM fun i : Fin n =>
    means_signature (U := U) (A := A) (inoutWords A 4 nFeWords) roots[i]
      (bytes32ToWords (comDigest U.toCrates (commitmentAt U A 0))) (A.witness 40)
  rw [Holds, buildCircuitMulti, demands_bind, demands_blindCommit enforces]
  apply and_congr_right
  intro _
  refine Iff.trans Iff.rfl ((roots _ 6 41).trans ((signers _ _ _ _).trans ?_))
  simp [SignerMeets]

end Meaning

section Statement

variable (U : CircuitCrates)

/-- The public words, and a witness. -/
def assignment (words : List Word64) (witness : Nat → Word64) : Assignment Word64 where
  inout j := words.getD j 0
  witness := witness

/-- The witness words are those of a commitment and of nonces. -/
structure Encodes (witness : Nat → Word64) (com : HmCommitment) (r : Nonces) : Prop where
  a : ∀ (k : Fin nLines) (i : Fin nNonce) (j : Fin nFeWords),
    witness (12 * k + 2 * i + j) = (bytes16ToWords com.a[k][i])[j]
  b : ∀ (k : Fin nLines) (j : Fin nFeWords), witness (24 + 2 * k + j) = (bytes16ToWords com.b[k])[j]
  r : ∀ (i : Fin nNonce) (j : Fin nFeWords), witness (28 + 2 * i + j) = (bytes16ToWords r[i])[j]

theorem witnessWords_eq_iff {A : Assignment Word64} {w : Nat} {b : Vector Byte 16} :
    (∀ j : Fin nFeWords, A.witness (w + j) = (bytes16ToWords b)[j]) ↔
      b = feOfWords (witnessWords A w nFeWords) := by
  constructor
  · intro each
    have words : witnessWords A w nFeWords = bytes16ToWords b := by
      apply Vector.ext
      intro j hj
      rw [witnessWords, Vector.getElem_ofFn]
      exact each ⟨j, hj⟩
    rw [words, feOfWords_bytes16ToWords]
  · rintro rfl j
    rw [bytes16ToWords_feOfWords]
    simp [witnessWords]

theorem encodes_iff (words : List Word64) {witness : Nat → Word64} {com : HmCommitment}
    {r : Nonces} :
    Encodes witness com r ↔ com.a = (commitmentAt U (assignment words witness) 0).a ∧
      com.b = (commitmentAt U (assignment words witness) 0).b ∧
      r = noncesAt (assignment words witness) 0 := by
  have element {w : Nat} {b : Vector Byte 16} :=
    witnessWords_eq_iff (A := assignment words witness) (w := w) (b := b)
  constructor
  · rintro ⟨a, b, nonces⟩
    refine ⟨?_, ?_, ?_⟩
    · apply Vector.ext
      intro k hk
      apply Vector.ext
      intro i hi
      simpa [commitmentAt, lineWords, nonceWords] using element.mp (a ⟨k, hk⟩ ⟨i, hi⟩)
    · apply Vector.ext
      intro k hk
      simpa [commitmentAt, termWords] using element.mp (b ⟨k, hk⟩)
    · apply Vector.ext
      intro i hi
      simpa [noncesAt, nonceWords] using element.mp (nonces ⟨i, hi⟩)
  · rintro ⟨a, b, rfl⟩
    refine ⟨fun k i => element.mpr ?_, fun k => element.mpr ?_, fun i => element.mpr ?_⟩
    · simp [a, commitmentAt, lineWords, nonceWords]
    · simp [b, commitmentAt, termWords]
    · simp [noncesAt, nonceWords]

theorem inoutWords_assignment {words : List Word64} {witness : Nat → Word64}
    (front back : List Word64) {v : Vector Word64 n} (split : words = front ++ (v.toList ++ back)) :
    inoutWords (assignment words witness) front.length n = v := by
  apply Vector.ext
  intro j hj
  have inside : j < v.toList.length := by simpa using hj
  simp only [inoutWords, assignment, Vector.getElem_ofFn, split, List.getD_eq_getElem?_getD]
  rw [List.getElem?_append_right (Nat.le_add_right _ _), Nat.add_sub_cancel_left,
    List.getElem?_append_left inside]
  simp [hj]

/-- Words that are written in blocks. -/
theorem inoutWords_block {words : List Word64} (witness : Nat → Word64)
    (front back : List Word64) (blocks : List (Vector Word64 n)) {i : Nat}
    (split : words = front ++ (blocks.flatMap Vector.toList ++ back)) (hi : i < blocks.length) :
    inoutWords (assignment words witness) (front.length + n * i) n = blocks[i] := by
  have before : (front ++ (blocks.take i).flatMap Vector.toList).length = front.length + n * i := by
    simp [List.length_flatMap, Nat.min_eq_left (Nat.le_of_lt hi), Nat.mul_comm]
  rw [← before]
  apply inoutWords_assignment _ ((blocks.drop (i + 1)).flatMap Vector.toList ++ back)
  have around : blocks = blocks.take i ++ blocks[i] :: blocks.drop (i + 1) := by
    rw [← List.drop_eq_getElem_cons hi, List.take_append_drop]
  have bytes := congrArg (List.flatMap Vector.toList) around
  rw [split, bytes]
  simp only [List.flatMap_append, List.flatMap_cons, List.append_assoc]

theorem bytes32ToWords_blocks (b : Vector Byte 32) :
    (bytes32ToWords b).toList = ((encodeDigest b).toList.map bytes16ToWords).flatMap Vector.toList := by
  have within (i j : Nat) (hi : i + 16 ≤ 32) (hj : j + 8 ≤ 16) :
      slice (slice b i 16 hi) j 8 hj = slice b (i + j) 8 (by omega) := by
    apply Vector.ext
    intro t ht
    simp [Nat.add_assoc]
  simp [bytes32ToWords, encodeDigest, bytes16ToWords, Vector.toList_ofFn, List.ofFn_succ, within]

/-- The signature wires of signer `i`. -/
def signatureAt (witness : Nat → Word64) (i : Nat) : Vector Word64 U.signatureWires :=
  Vector.ofFn fun j : Fin U.signatureWires => witness (41 + U.signatureWires * i + j)

/-- The statement: the witness encodes a commitment with nonces that open it to the message, and
at the one epoch every signature is accepted on the digest of the commitment. -/
def Witnessed (msg : List Byte) (pkSeed : PublicParam) (roots : Vector Digest n)
    (witness : Nat → Word64) : Prop :=
  ∃ com r, Encodes witness com r ∧ verifyHmOpening U.toCrates com msg r = true ∧
    ∃ e, U.epochOf (witness 40) = some e ∧ ∀ i : Fin n,
      U.xmssVerify roots[i] pkSeed (comDigest U.toCrates com)
        (U.signatureOf (signatureAt U witness i)) e = true

section Public

variable {words rest : List Word64} {msg : List Byte} {pkSeed : PublicParam} {witness : Nat → Word64}

/-- The digest of the message in the first four public words. -/
theorem inoutWords_message
    (shown : words = buildBlindCommitPublicWords U.toCrates msg pkSeed ++ rest) (line : Fin nLines) :
    inoutWords (assignment words witness) (0 + 2 * line) 2 =
      bytes16ToWords (encodeMessage U.toCrates msg)[line] := by
  have split : words = [] ++
      (((encodeMessage U.toCrates msg).toList.map bytes16ToWords).flatMap Vector.toList ++
        ((bytes16ToWords (buildWotsDomainParam pkSeed)).toList ++ rest)) := by
    rw [shown, buildBlindCommitPublicWords, bytes32ToWords_blocks, List.append_assoc]
    rfl
  have inside : line.val < ((encodeMessage U.toCrates msg).toList.map bytes16ToWords).length := by
    rw [List.length_map, Vector.length_toList]
    exact line.isLt
  have block := inoutWords_block witness _ _ _ split inside
  simpa using block

theorem inoutWords_param
    (shown : words = buildBlindCommitPublicWords U.toCrates msg pkSeed ++ rest) :
    inoutWords (assignment words witness) 4 nFeWords = bytes16ToWords pkSeed :=
  inoutWords_assignment (bytes32ToWords (blake3256 U.toCrates msg)).toList rest
    (v := bytes16ToWords (buildWotsDomainParam pkSeed)) (shown.trans (List.append_assoc _ _ _))

theorem opened_iff {Q : HmCommitment → Prop}
    (shown : words = buildBlindCommitPublicWords U.toCrates msg pkSeed ++ rest) :
    (∃ com r, Encodes witness com r ∧ verifyHmOpening U.toCrates com msg r = true ∧ Q com) ↔
      LinesMeet U (assignment words witness) ∧ Q (commitmentAt U (assignment words witness) 0) := by
  have lines : LinesMeet U (assignment words witness) ↔
      verifyHmOpening U.toCrates (commitmentAt U (assignment words witness) 0) msg
        (noncesAt (assignment words witness) 0) = true := by
    simp only [LinesMeet, verifyHmOpening_iff, inoutWords_message U shown, feOfWords_bytes16ToWords]
    exact (and_iff_right rfl).symm
  rw [lines]
  constructor
  · rintro ⟨com, r, encoded, opens, holds⟩
    obtain ⟨a, b, nonces⟩ := (encodes_iff U words).mp encoded
    have y := ((verifyHmOpening_iff _).mp opens).1
    have same : com = commitmentAt U (assignment words witness) 0 := by
      rw [nonces] at y
      cases com
      subst a b y
      rfl
    rw [same, nonces] at opens
    exact ⟨opens, same ▸ holds⟩
  · rintro ⟨opens, holds⟩
    exact ⟨_, _, (encodes_iff U words).mpr ⟨rfl, rfl, rfl⟩, opens, holds⟩

theorem signerMeets_iff (enforces : U.Enforces) {roots : List Digest} {i : Nat}
    (shown : words = buildPublicInputsMulti U.toCrates msg pkSeed roots) (hi : i < roots.length) :
    SignerMeets U (assignment words witness) i ↔ ∃ e, U.epochOf (witness 40) = some e ∧
      U.xmssVerify roots[i] pkSeed
        (comDigest U.toCrates (commitmentAt U (assignment words witness) 0))
        (U.signatureOf (signatureAt U witness i)) e = true := by
  have split : words = buildBlindCommitPublicWords U.toCrates msg pkSeed ++
      ((roots.map bytes16ToWords).flatMap Vector.toList ++ []) := by
    rw [shown, buildPublicInputsMulti, List.flatMap_map, List.append_nil]
  have root := inoutWords_block witness _ _ _ split (i := i) (by simpa using hi)
  have size : (buildBlindCommitPublicWords U.toCrates msg pkSeed).length = 6 := by
    simp [buildBlindCommitPublicWords, nDigestWords, nFeWords]
  rw [size, List.getElem_map] at root
  rw [SignerMeets, inoutWords_param U shown, root, enforces.circuitXmssVerify_iff]
  exact Iff.rfl

theorem length_buildPublicInputsMulti (msg : List Byte) (pkSeed : PublicParam)
    (roots : List Digest) :
    (buildPublicInputsMulti U.toCrates msg pkSeed roots).length = 6 + 2 * roots.length := by
  simp only [buildPublicInputsMulti, buildBlindCommitPublicWords, List.length_append,
    List.length_flatMap, Vector.length_toList, List.map_const', List.sum_replicate, smul_eq_mul,
    nDigestWords, nFeWords]
  omega

end Public

/-- The assignment satisfies the circuit that is built. -/
def Satisfies (words : List Word64) (witness : Nat → Word64)
    (circuit : (A : Assignment Word64) → Constraints A α) : Prop :=
  Holds (circuit (assignment words witness)) words.length

theorem satisfies_buildCircuitMulti (enforces : U.Enforces) (some : 0 < n) (msg : List Byte)
    (pkSeed : PublicParam) (roots : Vector Digest n) (witness : Nat → Word64) :
    Satisfies (buildPublicInputsMulti U.toCrates msg pkSeed roots.toList) witness
      (fun A => buildCircuitMulti (constraints U A) n) ↔ Witnessed U msg pkSeed roots witness := by
  have shown := rfl (a := buildPublicInputsMulti U.toCrates msg pkSeed roots.toList)
  have signers : (∀ i : Fin n, SignerMeets U (assignment
      (buildPublicInputsMulti U.toCrates msg pkSeed roots.toList) witness) i) ↔
      ∃ e, U.epochOf (witness 40) = Option.some e ∧ ∀ i : Fin n, U.xmssVerify roots[i] pkSeed
        (comDigest U.toCrates (commitmentAt U (assignment
          (buildPublicInputsMulti U.toCrates msg pkSeed roots.toList) witness) 0))
        (U.signatureOf (signatureAt U witness i)) e = true := by
    constructor
    · intro each
      obtain ⟨e, epoch, _⟩ := (signerMeets_iff U enforces shown (by simpa using some)).mp (each ⟨0, some⟩)
      refine ⟨e, epoch, fun i => ?_⟩
      obtain ⟨e', epoch', accepted⟩ :=
        (signerMeets_iff U enforces shown (by simp)).mp (each i)
      obtain rfl := Option.some.inj (epoch'.symm.trans epoch)
      simpa using accepted
    · rintro ⟨e, epoch, each⟩ i
      exact (signerMeets_iff U enforces shown (by simp)).mpr ⟨e, epoch, by simpa using each i⟩
  rw [Satisfies, holds_buildCircuitMulti enforces, signers, length_buildPublicInputsMulti,
    Vector.length_toList, Witnessed]
  rw [opened_iff U shown]
  simp

theorem satisfies_buildCircuit (enforces : U.Enforces) (msg : List Byte) (pkSeed : PublicParam)
    (root : Digest) (witness : Nat → Word64) :
    Satisfies (buildPublicInputs U.toCrates msg pkSeed root) witness
      (fun A => buildCircuit (constraints U A)) ↔ Witnessed U msg pkSeed #v[root] witness := by
  have same : buildPublicInputs U.toCrates msg pkSeed root =
      buildPublicInputsMulti U.toCrates msg pkSeed [root] := by
    simp [buildPublicInputs, buildPublicInputsMulti]
  rw [same, ← satisfies_buildCircuitMulti U enforces Nat.zero_lt_one, Satisfies, Satisfies,
    holds_buildCircuit enforces, holds_buildCircuitMulti enforces]
  simp [length_buildPublicInputsMulti]

end Statement

end BlindSig.Binius
