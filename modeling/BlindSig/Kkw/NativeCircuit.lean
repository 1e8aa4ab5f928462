import BlindSig.Kkw.PooledExact
import BlindSig.Kkw.Codeword
import BlindSig.Kkw.Views
import Mathlib.Algebra.Order.BigOperators.Group.List

/-! The circuit on a witness in the clear, next to the native verifier. Every part of it computes
what the verifier computes on the signature in the witness; the two differ in the chains only, which
the circuit takes as far as the schedule does. -/
namespace BlindSig.Kkw

open XorGroup Prog

section Product

theorem wordShiftXor_zero (acc : Vector Word 8) (pos : Nat) : gf128WordShiftXor acc 0 pos = acc := by
  apply Vector.ext
  intro i hi
  simp [gf128WordShiftXor]

theorem spreadBit_and (y x : Word) (k : Nat) :
    spreadBit y k &&& x = if y.getLsbD k then x else 0 := by
  rw [spreadBit_eq]
  split
  · exact BitVec.allOnes_and
  · exact BitVec.zero_and

theorem eval_gateAnd (x y : Mw 0) : ((gateAnd x y).eval gateSem).h = x.h &&& y.h := rfl

/-- The masked product is the product of the field. -/
theorem eval_mpcGf128Mul (X Y : Vector (Mw 0) 4) :
    ((mpcGf128Mul X Y).eval gateSem).map Masked.h =
      gf128MulWords (X.map Masked.h) (Y.map Masked.h) := by
  have column (on : Bool) (j : Fin 128) (acc : Vector Word 8) :
      (List.finRange 4).foldl (fun acc (w : Fin 4) =>
        gf128WordShiftXor acc (if on then (X.map Masked.h)[w] else 0) (32 * w + j)) acc =
      if on then (List.finRange 4).foldl (fun acc (w : Fin 4) =>
        gf128WordShiftXor acc (X.map Masked.h)[w] (32 * w + j)) acc else acc := by
    cases on with
    | true => rfl
    | false => simp only [Bool.false_eq_true, if_false, wordShiftXor_zero, List.foldl_fixed]
  apply Vector.ext
  intro w hw
  simp only [mpcGf128Mul, eval_bind, pure_eq, eval_ret, eval_foldlM, gf128MulWords, Vector.getElem_map,
    Vector.getElem_ofFn, Masked.map_h]
  refine congrArg (fun acc : Vector Word 8 => (gf128Reduce acc)[w])
    (List.foldl_hom Masked.h fun acc j => ?_).symm
  rw [← column]
  refine List.foldl_hom Masked.h fun acc w => ?_
  simp only [Masked.map₂_h, eval_gateAnd, Masked.map_h, spreadBit_and, getElem_fin, Vector.getElem_map]

end Product

section Commitment

theorem store_load (b : Vector Byte 16) : gf128Store (gf128Load b) = b := storeWords_loadWord b

theorem loadElt_h (x : Witness) (elt : Witness → Vector Byte 16) :
    (loadElt (Masked.const x : Masked 0 Witness) elt).map Masked.h = gf128Load (elt x) := by
  apply Vector.ext
  intro w hw
  simp [loadElt]

/-- One line of the masked opening is a line of the commitment. -/
theorem eval_mpcHmLine (mHat : Vector Byte 32) (x : Witness) (line : Fin 2) :
    ((mpcHmLine mHat (Masked.const x) line).eval gateSem).h =
      (List.finRange 6).foldl (fun acc i => acc ^^^
        gf128Mul (hmCoefficient (witnessA x) line i) (hmNonce (witnessR x) i)) (hmMessage mHat line) := by
  have term (acc : Vector (Mw 0) 4) (idx : Fin 6) :
      Vector.map Masked.h (Vector.ofFn fun w : Fin 4 => mpcXOR acc[w]
        (((mpcGf128Mul (loadElt (Masked.const x) fun x => hmCoefficient (witnessA x) line idx)
          (loadElt (Masked.const x) fun x => hmNonce (witnessR x) idx)).eval gateSem)[w])) =
      acc.map Masked.h ^^^ gf128MulWords (gf128Load (hmCoefficient (witnessA x) line idx))
        (gf128Load (hmNonce (witnessR x) idx)) := by
    rw [← loadElt_h x fun x => hmCoefficient (witnessA x) line idx,
      ← loadElt_h x fun x => hmNonce (witnessR x) idx, ← eval_mpcGf128Mul]
    apply Vector.ext
    intro w hw
    simp [mpcXOR]
  have products : gf128Store (xorAll fun i : Fin 6 =>
      gf128MulWords (gf128Load (hmCoefficient (witnessA x) line i)) (gf128Load (hmNonce (witnessR x) i))) =
      xorAll fun i : Fin 6 => gf128Mul (hmCoefficient (witnessA x) line i) (hmNonce (witnessR x) i) :=
    xorAll_map gf128Store_linear _
  have start : Vector.map Masked.h (Vector.replicate 4 (mwConst 0 : Mw 0)) = zeros := by
    rw [Vector.map_replicate]
    rfl
  have added (acc : Vector (Mw 0) 4) (M : Vector Word 4) :
      Vector.map Masked.h (Vector.ofFn fun w : Fin 4 => (acc[w] : Mw 0).xorPublic M[w]) =
        acc.map Masked.h ^^^ M := by
    apply Vector.ext
    intro w hw
    simp [Masked.xorPublic]
  have loop (f : Vector (Mw 0) 4 → Fin 6 → Vector (Mw 0) 4) (g : Fin 6 → Vector Word 4)
      (adds : ∀ acc i, (f acc i).map Masked.h = acc.map Masked.h ^^^ g i) (acc : Vector (Mw 0) 4) :
      ((List.finRange 6).foldl f acc).map Masked.h = acc.map Masked.h ^^^ xorAll g := by
    rw [← foldl_xor_eq]
    exact (List.foldl_hom (Vector.map Masked.h) fun acc i => (adds acc i).symm).symm
  simp only [mpcHmLine, eval_bind, pure_eq, eval_ret, eval_foldlM, Masked.map_h, Masked.collect_h, added]
  rw [loop _ _ term, start, zeros_xor, gf128Store_linear, products, store_load, foldl_xor_eq,
    XorGroup.xor_comm]

end Commitment

variable (H : Blake3)

/-- The digest of the commitment that a witness opens. -/
def witnessDigest (mHat : Vector Byte 32) (x : Witness) : Vector Byte 32 :=
  (hmCommit H.toHasher mHat (witnessR x) (witnessA x)).2

theorem eval_mpcHmCommit (mHat : Vector Byte 32) (x : Witness) :
    ((mpcHmCommit mHat (Masked.const x)).eval gateSem).h = witnessDigest H mHat x := by
  have lines : ((Masked.collect (Vector.ofFn fun line : Fin 2 =>
      (mpcHmLine mHat (Masked.const x : Masked 0 Witness) line).eval gateSem)).map join).h =
      hmLines mHat (witnessA x) (witnessR x) := by
    rw [Masked.map_h, Masked.collect_h, hmLines]
    congr 1
    apply Vector.ext
    intro line inside
    simp only [Vector.getElem_map, Vector.getElem_ofFn, eval_mpcHmLine]
  simp only [mpcHmCommit, eval_bind, eval_collect]
  rw [eval_mpcTh H (by decide), Masked.map₂_h, Masked.map₂_h, lines, eval_mpcTh H (by decide)]
  rfl

section Message

/-- The message hash of a witness. -/
def witnessHash (mHat : Vector Byte 32) (pkSeed : PkSeed) (x : Witness) : Vector Byte 32 :=
  xmssHashMessage H.toHasher pkSeed (epochOf x) (witnessNonce x) (witnessDigest H mHat x).toList

variable (pkSeed : PkSeed) (x : Witness)

theorem mpcEpochDomain_h (tweak : Byte) :
    (mpcEpochDomain pkSeed tweak (Masked.const x : Masked 0 Witness)).h =
      pkSeed ++ #v[tweak] ++ putEpochBe (epochOf x) := by
  rw [putEpochBe_epochOf]
  rfl

theorem eval_mpcHashMessage {mHat : Vector Byte 32} {dsh : Masked 0 (Vector Byte 32)}
    (digest : dsh.h = witnessDigest H mHat x) :
    ((mpcHashMessage pkSeed (Masked.const x) dsh).eval gateSem).h = witnessHash H mHat pkSeed x := by
  rw [mpcHashMessage, eval_mpcTh H (by decide), mpcEpochDomain_h, Masked.map₂_h, digest]
  exact congrArg (th H.toHasher _ · 32) Vector.toList_append

theorem eval_mpcHashPublicKey (pkh : Masked 0 (Vector Byte 672)) (ends : Vector Node xmssWotsLen)
    (joined : pkh.h = join ends) :
    ((mpcHashPublicKey pkSeed (Masked.const x) pkh).eval gateSem).h =
      xmssHashPublicKey H.toHasher pkSeed (epochOf x) ends := by
  rw [mpcHashPublicKey, eval_mpcTh H (by decide), mpcEpochDomain_h, joined]
  rfl

end Message

section Path

variable (pkSeed : PkSeed) (x : Witness)

theorem leafIndexWord_eq : leafIndexWord x = epochOf x := rfl

theorem shr32_eq (v : Word) (k : Nat) : shr32 v k = v >>> k := by
  rw [shr32]
  split
  next beyond => exact (BitVec.ushiftRight_eq_zero beyond).symm
  next => rfl

/-- The ordered pair of the children. -/
theorem eval_mpcSwap (on : Bool) (node sib : Node) (w : Fin 4) :
    (mpcSwap (Masked.const (if on then BitVec.allOnes 32 else 0)) (Masked.const node : Masked 0 Node)
      (Masked.const sib) w).eval gateSem =
      (Masked.const (xmssNodeLoadWord (if on then sib else node) w),
        Masked.const (xmssNodeLoadWord (if on then node else sib) w)) := by
  have swapped (a b : Word) : a ^^^ ((if on then BitVec.allOnes 32 else 0) &&& (a ^^^ b)) =
      if on then b else a := by
    cases on with
    | true => exact (congrArg (a ^^^ ·) BitVec.allOnes_and).trans (xor_xor_cancel_left a b)
    | false => exact (congrArg (a ^^^ ·) BitVec.zero_and).trans BitVec.xor_zero
  simp only [mpcSwap, clear_map, clear_xor, eval_bind, eval_and, pure_eq, eval_ret]
  have other := swapped (xmssNodeLoadWord sib w) (xmssNodeLoadWord node w)
  rw [BitVec.xor_comm (xmssNodeLoadWord sib w) (xmssNodeLoadWord node w)] at other
  rw [swapped, other]
  cases on <;> rfl

theorem eval_mpcTreeLevel (node : Node) (level : Fin xmssH) :
    (mpcTreeLevel pkSeed (Masked.const x : Masked 0 Witness) (Masked.const node) level).eval gateSem =
      Masked.const (if (epochOf x).getLsbD level then
        xmssHashTreeNode H.toHasher pkSeed (witnessSibling x level) node (BitVec.ofNat 32 level)
          (epochOf x >>> (level.val + 1))
      else xmssHashTreeNode H.toHasher pkSeed node (witnessSibling x level) (BitVec.ofNat 32 level)
        (epochOf x >>> (level.val + 1))) := by
  have mask : maskFromBit ((Masked.const x : Masked 0 Witness).map leafIndexWord |>.map
      fun l : Word => l >>> level.val &&& 1) =
      Masked.const (if (epochOf x).getLsbD level then BitVec.allOnes 32 else 0) := by
    apply clear_ext
    refine Eq.trans ?_ (spreadBit_eq (epochOf x) level)
    simp only [maskFromBit, Masked.map_h, Masked.const_h, leafIndexWord_eq, spreadBit, BitVec.and_assoc,
      BitVec.and_self]
  have stored (node : Node) : (Masked.collect (Vector.ofFn fun w : Fin 4 =>
      (Masked.const (xmssNodeLoadWord node w) : Mw 0))).map xmssNodeStoreWords = Masked.const node := by
    apply clear_ext
    have words : (Vector.ofFn fun w : Fin 4 =>
        (Masked.const (xmssNodeLoadWord node w) : Mw 0)).map Masked.h =
        Vector.ofFn fun w => xmssNodeLoadWord node w := by
      apply Vector.ext
      intro w hw
      simp
    rw [Masked.map_h, Masked.collect_h, words, storeWords_loadWord, Masked.const_h]
  have sibling : (Masked.const x : Masked 0 Witness).map (witnessSibling · level) =
      Masked.const (witnessSibling x level) := clear_ext rfl
  have small : byteAt (BitVec.ofNat 32 level) 0 = BitVec.ofNat 8 level := by
    simp [byteAt]
  apply clear_ext
  simp only [mpcTreeLevel, mask, sibling, eval_bind, eval_collect, eval_mpcSwap, Vector.map_ofFn,
    Function.comp_def, stored]
  rw [eval_mpcTh H (by decide)]
  simp only [Masked.map₂_h, Masked.map_h, Masked.const_h, leafIndexWord_eq, shr32_eq, xmssHashTreeNode,
    small]
  cases (epochOf x).getLsbD level <;> rfl

/-- The path of a witness. -/
def witnessPath (x : Witness) : Vector Node xmssH := Vector.ofFn (witnessSibling x)

/-- The 32 masked levels are the walk of the native verifier. -/
theorem eval_treeLevels (leaf : Node) :
    ((List.finRange xmssH).foldlM (mpcTreeLevel pkSeed (Masked.const x)) (Masked.const leaf) :
      Circuit 0 (Masked 0 Node)).eval gateSem =
      Masked.const ((xmssHashes H.toHasher).walkAuthPath pkSeed leaf (epochOf x) (witnessPath x)) := by
  let path (h : Nat) : Node := (witnessPath x)[h]?.getD leaf
  have sibling (h : Fin xmssH) : path h = witnessSibling x h := by
    simp [path, witnessPath]
  have same (h : Fin xmssH) : (witnessPath x)[h] = path h := by
    simp [path]
  -- The leaf index is read bit by bit here and shifted there.
  rw [XmssHashes.walkAuthPath_eq _ (.replicate _ 0) _ _ _ _ path same, eval_foldlM]
  refine foldl_finRange (fun h => Masked.const (((xmssHashes H.toHasher).tree (.replicate _ 0)
    pkSeed).climb path (epochOf x).toNat leaf h)) fun level => ?_
  have index : epochOf x >>> (level.val + 1) =
      BitVec.ofNat 32 ((epochOf x).toNat >>> (level.val + 1)) := by
    rw [← BitVec.toNat_ushiftRight, BitVec.ofNat_toNat, BitVec.setWidth_eq]
  have bit : (epochOf x).getLsbD level = true ↔ ¬ ((epochOf x).toNat >>> level.val) % 2 = 0 := by
    rw [BitVec.getLsbD, Nat.testBit_eq_decide_div_mod_eq, Nat.shiftRight_eq_div_pow,
      decide_eq_true_iff]
    omega
  rw [eval_mpcTreeLevel, TreeHash.climb, index]
  congr 1
  by_cases left : ((epochOf x).toNat >>> level.val) % 2 = 0
  · rw [if_neg fun on => bit.mp on left, if_pos left, sibling]
    rfl
  · rw [if_pos (bit.mpr left), if_neg left, sibling]
    rfl

end Path

section Checks

theorem mhBit_eq (mh : Vector Byte 32) (j : Fin 256) : mhBit mh j = boolWord (hashBit mh j) :=
  bitAt_eq _ _

theorem mhCoord_digit (mh : Vector Byte 32) (ci : Fin xmssWotsLen) :
    mhCoord mh ci = BitVec.ofNat 32 (xmssExtractCoords mh).1[ci].toNat := by
  have bits : ∀ a b c : Bool, (0 : Word) ||| (boolWord a &&& 1) <<< 0 ||| (boolWord b &&& 1) <<< 1 |||
      (boolWord c &&& 1) <<< 2 = BitVec.ofNat 32 ((0 : Byte) ||| (BitVec.ofBool a).setWidth 8 <<< 0 |||
        (BitVec.ofBool b).setWidth 8 <<< 1 ||| (BitVec.ofBool c).setWidth 8 <<< 2).toNat := by
    decide
  have range : List.finRange xmssCoordResBits = [0, 1, 2] := rfl
  simp only [mhCoord, xmssExtractCoords, getElem_fin, Vector.getElem_ofFn, range, List.foldl_cons,
    List.foldl_nil, mhBit_eq]
  exact bits _ _ _

theorem coordSum_le (mh : Vector Byte 32) :
    coordSum (xmssExtractCoords mh).1 ≤ xmssWotsLen * xmssWotsMaxSteps := by
  have digit : ∀ d ∈ (List.finRange xmssWotsLen).map fun i => (xmssExtractCoords mh).1[i].toNat,
      d ≤ xmssWotsMaxSteps := by
    intro d member
    obtain ⟨i, -, rfl⟩ := List.mem_map.mp member
    exact coord_le mh i
  have total := List.sum_le_card_nsmul _ _ digit
  rw [List.length_map, List.length_finRange, smul_eq_mul] at total
  exact total

theorem eval_mpcCoordSum (mh : Vector Byte 32) :
    (mpcCoordSum (Masked.const mh : Masked 0 (Vector Byte 32))).eval gateSem =
      Masked.const (BitVec.ofNat 32 (coordSum (xmssExtractCoords mh).1)) := by
  have added (l : List (Fin xmssWotsLen)) (s : Nat) :
      l.foldl (fun acc ci => (gateAdd acc ((Masked.const mh : Masked 0 (Vector Byte 32)).map
        (mhCoord · ci))).eval gateSem) (Masked.const (BitVec.ofNat 32 s)) =
      Masked.const (BitVec.ofNat 32 (s + (l.map fun ci => (xmssExtractCoords mh).1[ci].toNat).sum)) := by
    induction l generalizing s with
    | nil => rfl
    | cons ci l ih =>
      rw [List.foldl_cons, clear_map, eval_add, mhCoord_digit, ← BitVec.ofNat_add, ih, List.map_cons,
        List.sum_cons, Nat.add_assoc]
  have sum := added (List.finRange xmssWotsLen) 0
  rw [Nat.zero_add] at sum
  rw [mpcCoordSum, eval_foldlM]
  exact sum

theorem coordSum_target (mh : Vector Byte 32) :
    BitVec.ofNat 32 (coordSum (xmssExtractCoords mh).1) = BitVec.ofNat 32 xmssTargetSum ↔
      coordSum (xmssExtractCoords mh).1 = xmssTargetSum := by
  have small : coordSum (xmssExtractCoords mh).1 < 2 ^ 32 :=
    Nat.lt_of_le_of_lt (coordSum_le mh) (by decide)
  rw [BitVec.toNat_eq, BitVec.toNat_ofNat, BitVec.toNat_ofNat, Nat.mod_eq_of_lt small]
  rfl

/-- The two unused bits of the digest. -/
theorem leftover_zero_iff (mh : Vector Byte 32) :
    mhLeftover mh = 0 ↔ (xmssExtractCoords mh).2 = true := by
  have top : ∀ b : Byte, b >>> 7 = if b.getLsbD 7 then 1 else 0 := by decide +kernel
  have bits : ∀ a b : Bool, boolWord a ||| boolWord b <<< 1 = 0 ↔
      (((if a then 1 else 0) ||| (if b then 1 else 0) : Byte) == 0) = true := by decide
  rw [mhLeftover, mhBit_eq, mhBit_eq, bits, xmssExtractCoords]
  simp only [top]
  rfl

end Checks

section Relation

/-- What a valid signature meets. -/
theorem XmssHashes.verify_iff (X : XmssHashes) (pkSeed : PkSeed) (root : Node) (message : List Byte)
    (sig : XmssSig) : X.verify pkSeed root message sig = true ↔
      (xmssExtractCoords (X.hashMessage pkSeed sig.leafIndex sig.nonce message)).2 = true ∧
      coordSum (xmssExtractCoords (X.hashMessage pkSeed sig.leafIndex sig.nonce message)).1 =
        xmssTargetSum ∧
      X.walkAuthPath pkSeed (X.hashPublicKey pkSeed sig.leafIndex
        (X.wotsPkFromSig pkSeed sig.leafIndex sig.sigHashes
          (xmssExtractCoords (X.hashMessage pkSeed sig.leafIndex sig.nonce message)).1))
        sig.leafIndex sig.authPath = root := by
  rw [verify]
  generalize xmssExtractCoords (X.hashMessage pkSeed sig.leafIndex sig.nonce message) = drawn
  obtain ⟨coords, ok⟩ := drawn
  by_cases sum : coordSum coords = xmssTargetSum
  · cases ok <;> simp [sum]
  · cases ok <;> simp [sum]

/-- `XMSS_TARGET_SUM` behind the words of the root. -/
def buildPubout (root : Node) : Vector Word 8 :=
  let words : Vector Word 4 := Vector.ofFn fun w : Fin 4 => xmssNodeLoadWord root w
  let checks : Vector Word 4 := #v[BitVec.ofNat 32 xmssTargetSum, 0, 0, 0]
  words ++ checks

/-- The signature in a witness. -/
def witnessSig (x : Witness) : XmssSig where
  leafIndex := epochOf x
  nonce := witnessNonce x
  sigHashes := Vector.ofFn fun ci : Fin xmssWotsLen => chainTip x ci
  authPath := witnessPath x

/-- The schedule names chains only, and each of them as often as it has steps left. -/
structure Scheduled (coords : Vector Byte xmssWotsLen) (x : Witness) : Prop where
  chains : ∀ step, (scheduleByte x step).toNat < xmssWotsLen
  counts : ∀ ci : Fin xmssWotsLen,
    usedSteps x ci wScheduleLen = xmssWotsMaxSteps - coords[ci].toNat

variable (mHat : Vector Byte 32) (pkSeed : PkSeed) (root : Node) (x : Witness)

/-- The root that the circuit arrives at: the chains go as far as the schedule takes them. -/
def reachedRoot : Node :=
  (xmssHashes H.toHasher).walkAuthPath pkSeed
    (xmssHashPublicKey H.toHasher pkSeed (epochOf x) (Vector.ofFn fun ci : Fin xmssWotsLen =>
      chainNode H x pkSeed (witnessHash H mHat pkSeed x) ci (usedSteps x ci wScheduleLen)))
    (epochOf x) (witnessPath x)

theorem scheduled_iff (mh : Vector Byte 32) :
    ((∀ step, (scheduleByte x step).toNat < xmssWotsLen) ∧
      ∀ ci < xmssWotsLen, (startCoord mh ci).toNat + usedSteps x ci wScheduleLen =
        xmssWotsMaxSteps) ↔ Scheduled (xmssExtractCoords mh).1 x := by
  constructor
  · rintro ⟨chains, whole⟩
    refine ⟨chains, fun ci => ?_⟩
    have steps := whole ci ci.isLt
    rw [startCoord_chain] at steps
    exact (steps_left (coord_le mh ci)).mp steps
  · rintro ⟨chains, counts⟩
    refine ⟨chains, fun ci inside => ?_⟩
    have coord : startCoord mh ci = (xmssExtractCoords mh).1[(⟨ci, inside⟩ : Fin xmssWotsLen)] :=
      startCoord_chain ⟨ci, inside⟩
    rw [coord]
    exact (steps_left (coord_le mh ⟨ci, inside⟩)).mpr (counts ⟨ci, inside⟩)

/-- Eight output words by their meaning. -/
def outputWords (root : Node) (sum leftover check : Word) : Vector Word 8 :=
  let words : Vector Word 4 := Vector.ofFn fun w : Fin 4 => xmssNodeLoadWord root w
  let checks : Vector Word 4 := #v[sum, leftover, check, 0]
  words ++ checks

/-- The output words in the clear. -/
theorem plainOutput_eq : ∃ w : Word,
    plainOutput mHat pkSeed x = outputWords (reachedRoot H mHat pkSeed x)
      (BitVec.ofNat 32 (coordSum (xmssExtractCoords (witnessHash H mHat pkSeed x)).1))
      (mhLeftover (witnessHash H mHat pkSeed x)) w ∧
    (w = 0 ↔ Scheduled (xmssExtractCoords (witnessHash H mHat pkSeed x)).1 x) := by
  obtain ⟨w, chains, zero⟩ := eval_poolChains H x pkSeed (witnessHash H mHat pkSeed x)
  refine ⟨w, ?_, zero.trans (scheduled_iff x _)⟩
  have digest : (mpcHmCommit mHat (Masked.const x : Masked 0 Witness)).eval gateSem =
      Masked.const (witnessDigest H mHat x) := clear_ext (eval_mpcHmCommit H mHat x)
  have hashed : (mpcHashMessage pkSeed (Masked.const x) (Masked.const (witnessDigest H mHat x) :
      Masked 0 (Vector Byte 32))).eval gateSem = Masked.const (witnessHash H mHat pkSeed x) :=
    clear_ext (eval_mpcHashMessage H pkSeed x rfl)
  have leaf (ends : Vector Node xmssWotsLen) :
      (mpcHashPublicKey pkSeed (Masked.const x) (Masked.const (join ends) :
        Masked 0 (Vector Byte 672))).eval gateSem =
        Masked.const (xmssHashPublicKey H.toHasher pkSeed (epochOf x) ends) :=
    clear_ext (eval_mpcHashPublicKey H pkSeed x _ ends rfl)
  rw [plainOutput, circuit]
  simp only [eval_bind, digest, hashed, chains, leaf, eval_treeLevels H, eval_mpcCoordSum, pure_eq,
    eval_ret]
  have checks (a b c d : Mw 0) : Vector.map Masked.h (#v[a, b, c, d] : Vector (Mw 0) 4) =
      #v[a.h, b.h, c.h, d.h] := by simp
  rw [Vector.map_append, Vector.map_ofFn, checks]
  rfl

theorem load_injective {node node' : Node}
    (words : ∀ w, xmssNodeLoadWord node w = xmssNodeLoadWord node' w) : node = node' := by
  rw [← storeWords_loadWord node, ← storeWords_loadWord node']
  exact congrArg (fun f => xmssNodeStoreWords (Vector.ofFn f)) (funext words)

theorem outputWords_inj {root root' : Node} {sum sum' leftover leftover' check check' : Word} :
    outputWords root sum leftover check = outputWords root' sum' leftover' check' ↔
      root = root' ∧ sum = sum' ∧ leftover = leftover' ∧ check = check' := by
  constructor
  · intro same
    obtain ⟨front, back⟩ := Vector.append_inj same
    refine ⟨load_injective fun w => ?_, ?_⟩
    · have word := congrArg (·[w]) front
      simpa using word
    · simpa using back
  · rintro ⟨rfl, rfl, rfl, rfl⟩
    rfl

theorem buildPubout_eq : buildPubout root = outputWords root (BitVec.ofNat 32 xmssTargetSum) 0 0 := rfl

/-- On a schedule that takes every chain to its end, the root is the one of the native verifier. -/
theorem reachedRoot_scheduled
    (scheduled : Scheduled (xmssExtractCoords (witnessHash H mHat pkSeed x)).1 x) :
    reachedRoot H mHat pkSeed x = (xmssHashes H.toHasher).walkAuthPath pkSeed
      (xmssHashPublicKey H.toHasher pkSeed (epochOf x)
        ((xmssHashes H.toHasher).wotsPkFromSig pkSeed (epochOf x) (witnessSig x).sigHashes
          (xmssExtractCoords (witnessHash H mHat pkSeed x)).1)) (epochOf x) (witnessPath x) := by
  have ends : (Vector.ofFn fun ci : Fin xmssWotsLen =>
      chainNode H x pkSeed (witnessHash H mHat pkSeed x) ci (usedSteps x ci wScheduleLen)) =
      (xmssHashes H.toHasher).wotsPkFromSig pkSeed (epochOf x) (witnessSig x).sigHashes
        (xmssExtractCoords (witnessHash H mHat pkSeed x)).1 := by
    apply Vector.ext
    intro ci inside
    have last := chainNode_end H x pkSeed (witnessHash H mHat pkSeed x) ⟨ci, inside⟩
    rw [startCoord_chain, ← scheduled.counts ⟨ci, inside⟩] at last
    have tip : (witnessSig x).sigHashes[ci] = chainTip x ⟨ci, inside⟩ := by
      simp [witnessSig]
    rw [Vector.getElem_ofFn, last, XmssHashes.wotsPkFromSig, Chains.wotsPkFromSig, Vector.getElem_ofFn]
    dsimp only
    split
    next none =>
      have stay : (7 : Byte) - (xmssExtractCoords (witnessHash H mHat pkSeed x)).1[ci] = 0 := none
      rw [getElem_fin, stay]
      exact tip.symm
    next =>
      rw [getElem_fin, getElem_fin, tip]
      rfl
  rw [reachedRoot, ends]

/-- The clear output is the one that the verifier expects exactly for the valid signatures with a
schedule that takes every chain to its end. -/
theorem plainOutput_eq_buildPubout : plainOutput mHat pkSeed x = buildPubout root ↔
    xmssVerify H.toHasher pkSeed root (witnessDigest H mHat x).toList (witnessSig x) = true ∧
      Scheduled (xmssExtractCoords (witnessHash H mHat pkSeed x)).1 x := by
  obtain ⟨w, output, zero⟩ := plainOutput_eq H mHat pkSeed x
  rw [output, buildPubout_eq, outputWords_inj, coordSum_target, leftover_zero_iff, zero, xmssVerify,
    XmssHashes.verify_iff]
  constructor
  · rintro ⟨arrived, sum, leftover, scheduled⟩
    have walked := reachedRoot_scheduled H mHat pkSeed x scheduled
    exact ⟨⟨leftover, sum, walked.symm.trans arrived⟩, scheduled⟩
  · rintro ⟨⟨leftover, sum, arrived⟩, scheduled⟩
    have walked := reachedRoot_scheduled H mHat pkSeed x scheduled
    exact ⟨walked.trans arrived, sum, leftover, scheduled⟩

end Relation

end BlindSig.Kkw
