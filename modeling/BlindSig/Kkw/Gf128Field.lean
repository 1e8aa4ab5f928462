import BlindSig.Lib.BinaryField
import BlindSig.Kkw.Gf128
import Mathlib.Data.BitVec
import Mathlib.LinearAlgebra.Matrix.Rank

/-! The product on limbs as the product of the field of 2^128 elements, and the count of the
nonces that open a line commitment to a given message. -/
namespace BlindSig.Kkw

open BinaryField Polynomial XorGroup

noncomputable def gf128Modulus : (ZMod 2)[X] := X ^ 128 + X ^ 7 + X ^ 2 + X + 1

/-- GF(2)[x] modulo x^128 + x^7 + x^2 + x + 1. -/
abbrev Gf128 := AdjoinRoot gf128Modulus

/-- The residue of an element: bit `i % 8` of byte `i / 8` is the coefficient of `x ^ i`. -/
noncomputable def gf128Value (b : Vector Byte 16) : Gf128 :=
  AdjoinRoot.mk gf128Modulus
    (∑ i ∈ Finset.range 128, if (leValue 128 b).getLsbD i then X ^ i else 0)

section Field

theorem packed_tail {R : Type} [CommRing R] [CharP R 2] (α : R) :
    packed α 0x87#128 = α ^ 7 + α ^ 2 + α + 1 := by
  have split : 0x87#128 = BitVec.twoPow 128 7 ^^^ BitVec.twoPow 128 2 ^^^ BitVec.twoPow 128 1 ^^^
      BitVec.twoPow 128 0 := by decide +kernel
  rw [split, packed_xor, packed_xor, packed_xor, packed_twoPow (by decide),
    packed_twoPow (by decide), packed_twoPow (by decide), packed_twoPow (by decide), pow_one,
    pow_zero]

theorem gf128Modulus_eq : gf128Modulus = modulus 0x87#128 := by
  unfold gf128Modulus modulus
  rewrite [packed_tail]
  generalize (X : (ZMod 2)[X]) ^ 128 = high
  ring

theorem squares_forth : squares 0x87#128 (BitVec.twoPow 128 1) (2 ^ 6) =
    129460184901158119860735353079755610614#128 := by
  decide +kernel

theorem squares_back : squares 0x87#128 129460184901158119860735353079755610614#128 (2 ^ 6) =
    BitVec.twoPow 128 1 := by
  decide +kernel

theorem gf128Modulus_irreducible : Irreducible gf128Modulus := by
  have unit : mul 0x87#128 (129460184901158119860735353079755610614#128 ^^^ BitVec.twoPow 128 1)
      210407306859290181404817842025723703320#128 = BitVec.twoPow 128 0 := by
    decide +kernel
  exact irreducible_modulus gf128Modulus_eq (k := 6) (by decide) squares_forth squares_back unit

instance : Fact (Irreducible gf128Modulus) := ⟨gf128Modulus_irreducible⟩

instance : CharP Gf128 2 := charTwo gf128Modulus_eq (by decide)

theorem gf128Value_eq (b : Vector Byte 16) :
    gf128Value b = packed (AdjoinRoot.root gf128Modulus) (leValue 128 b) :=
  mk_packed gf128Modulus (leValue 128 b)

theorem leValue_bijective : Function.Bijective (leValue 128 : Vector Byte 16 → _) := by
  constructor
  · intro b b' same
    rw [← leBytes_leValue (w := 128) (by decide) b, same, leBytes_leValue (by decide)]
  · intro v
    use leBytes v 16
    exact leValue_leBytes (by decide) v

theorem gf128Value_bijective : Function.Bijective gf128Value := by
  have composed := (packed_bijective gf128Modulus_eq).comp leValue_bijective
  have pointwise : packed (AdjoinRoot.root gf128Modulus) ∘ leValue 128 = gf128Value :=
    funext fun b => (gf128Value_eq b).symm
  rwa [pointwise] at composed

theorem card_gf128 : Nat.card Gf128 = 2 ^ 128 := by
  rw [← Nat.card_congr (Equiv.ofBijective _ (packed_bijective gf128Modulus_eq)),
    Nat.card_congr BitVec.equivFin.toEquiv, Nat.card_fin]

theorem gf128Value_xor (x y : Vector Byte 16) :
    gf128Value (x ^^^ y) = gf128Value x + gf128Value y := by
  have words : leValue 128 (x ^^^ y) = leValue 128 x ^^^ leValue 128 y := by
    apply BitVec.eq_of_getLsbD_eq
    intro i inside
    have place : i / 8 < 16 := by omega
    rw [BitVec.getLsbD_xor, getLsbD_leValue _ inside, getLsbD_leValue _ inside,
      getLsbD_leValue _ inside]
    simp [place]
  rw [gf128Value_eq, gf128Value_eq, gf128Value_eq, words, packed_xor]

end Field

section Limbs

variable {R : Type} [CommRing R] {α : R}

/-- Bit `i % 32` of word `i / 32`. -/
def wordsBit (v : Vector Word k) (i : Nat) : Bool := (v[i / 32]?.getD 0).getLsbD (i % 32)

/-- The value of the limbs at a point. -/
def wordsValue (α : R) (v : Vector Word k) : R := evalBits α (32 * k) (wordsBit v)

theorem wordsBit_shiftXor (acc : Vector Word 8) (word : Word) (pos : Nat) {i : Nat} (inside : i < 256) :
    wordsBit (gf128WordShiftXor acc word pos) i =
      (wordsBit acc i ^^ (decide (pos ≤ i) && word.getLsbD (i - pos))) := by
  have place : i / 32 < 8 := by omega
  have low : i % 32 < 32 := Nat.mod_lt i (by decide)
  have bit (s : Nat) (inside : s < 64) : (word.setWidth 64 <<< (pos % 32)).getLsbD s =
      (decide (pos % 32 ≤ s) && word.getLsbD (s - pos % 32)) := by
    by_cases below : s < pos % 32
    · simp [below, Nat.not_le.mpr below]
    · simp [below, Nat.not_lt.mp below, inside]
  have entry : wordsBit acc i = acc[i / 32].getLsbD (i % 32) := by
    simp [wordsBit, place]
  rw [entry]
  simp only [wordsBit, gf128WordShiftXor, Vector.getElem?_ofFn, place, dite_true, Option.getD_some]
  split
  next here =>
    have after : pos % 32 ≤ i % 32 ↔ pos ≤ i := by omega
    rw [getElem_fin, BitVec.getLsbD_xor, BitVec.getLsbD_setWidth, bit _ (by omega)]
    simp only [low, after, decide_true, Bool.true_and]
    by_cases reached : pos ≤ i
    · rw [show i % 32 - pos % 32 = i - pos by omega]
    · simp [reached]
  next =>
    split
    next here =>
      have distance : 32 + i % 32 - pos % 32 = i - pos := by omega
      rw [getElem_fin, BitVec.getLsbD_xor, BitVec.getLsbD_setWidth, BitVec.getLsbD_ushiftRight,
        bit _ (by omega), distance]
      simp [low, show pos % 32 ≤ 32 + i % 32 by omega, show pos ≤ i by omega]
    next =>
      by_cases reached : pos ≤ i
      · rw [BitVec.getLsbD_of_ge word (i - pos) (by omega)]
        simp
      · simp [reached]

theorem wordsBit_flipBit (acc : Vector Word 8) (k : Fin 256) {i : Nat} (inside : i < 256) :
    wordsBit (flipBit acc k) i = (wordsBit acc i ^^ decide (i = k.val)) := by
  have place : i / 32 < 8 := by omega
  have low : i % 32 < 32 := Nat.mod_lt i (by decide)
  simp only [wordsBit, flipBit, Vector.getElem?_eq_getElem place, Option.getD_some]
  rcases eq_or_ne (k.val / 32) (i / 32) with here | elsewhere
  · have same : i = k.val ↔ i % 32 = k.val % 32 := by omega
    simp only [Vector.getElem_set, here, if_true, BitVec.getLsbD_xor, BitVec.getLsbD_shiftLeft,
      BitVec.getLsbD_one, same]
    congr 1
    rcases Nat.lt_trichotomy (i % 32) (k.val % 32) with less | equal | more
    · simp [less, Nat.ne_of_lt less]
    · simp [equal, Nat.mod_lt k.val]
    · simp [Nat.ne_of_gt more, Nat.sub_ne_zero_of_lt more]
  · have other : i ≠ k.val := by
      rintro rfl
      exact elsewhere rfl
    rw [Vector.getElem_set_ne _ _ elsewhere]
    simp [other]

/-- A loop that counts down. -/
theorem foldl_reverse_finRange {σ : Type} {n : Nat} {P : Nat → σ → Prop} {f : σ → Fin n → σ}
    (step : ∀ (i : Fin n) s, P (i + 1) s → P i (f s i)) {s : σ} (start : P n s) :
    P 0 ((List.finRange n).reverse.foldl f s) := by
  induction n generalizing s with
  | zero => exact start
  | succ n ih =>
    rw [List.finRange_succ_last, List.reverse_append, ← List.map_reverse, List.reverse_singleton,
      List.singleton_append, List.foldl_cons, List.foldl_map]
    apply ih
    · intro i s holds
      exact step i.castSucc s holds
    · exact step (Fin.last n) s start

variable [CharP R 2]

theorem wordsValue_shiftXor (acc : Vector Word 8) (word : Word) {pos : Nat} (inside : pos + 32 ≤ 256) :
    wordsValue α (gf128WordShiftXor acc word pos) =
      wordsValue α acc + α ^ pos * evalBits α 32 word.getLsbD := by
  have shifted : evalBits α 256 (fun i => decide (pos ≤ i) && word.getLsbD (i - pos)) =
      α ^ pos * evalBits α 32 word.getLsbD := by
    rw [evalBits_extend inside, evalBits_shift]
    intro i high _
    rw [BitVec.getLsbD_of_ge word (i - pos) (by omega), Bool.and_false]
  rw [wordsValue, wordsValue, ← shifted, ← evalBits_xor]
  exact evalBits_congr fun i below => wordsBit_shiftXor acc word pos below

theorem wordsValue_flipBit (acc : Vector Word 8) (k : Fin 256) :
    wordsValue α (flipBit acc k) = wordsValue α acc + α ^ k.val := by
  rw [wordsValue, wordsValue, ← evalBits_single k.isLt, ← evalBits_xor]
  exact evalBits_congr fun i below => wordsBit_flipBit acc k below

omit [CharP R 2] in
theorem wordsValue_limbs (v : Vector Word 4) :
    wordsValue α v = ∑ w : Fin 4, α ^ (32 * w.val) * evalBits α 32 v[w].getLsbD := by
  rw [wordsValue, evalBits_blocks, Finset.sum_range]
  apply Finset.sum_congr rfl
  intro w _
  congr 1
  apply evalBits_congr
  intro j inside
  simp [wordsBit, show (32 * w.val + j) / 32 = w.val by omega, show (32 * w.val + j) % 32 = j by omega]

omit [CharP R 2] in
/-- An accumulator to which every step adds its term. -/
theorem foldl_value {σ : Type} {n : Nat} (value : σ → R) {f : σ → Fin n → σ} {term : Fin n → R}
    (step : ∀ s i, value (f s i) = value s + term i) (s : σ) :
    value ((List.finRange n).foldl f s) = value s + ∑ i, term i := by
  have steps (l : List (Fin n)) (s : σ) : value (l.foldl f s) = value s + (l.map term).sum := by
    induction l generalizing s with
    | nil => simp
    | cons i l ih => rw [List.foldl_cons, ih, step, List.map_cons, List.sum_cons, add_assoc]
  rw [steps, Fin.sum_univ_def]

/-- The carry-less product before reduction. -/
theorem wordsValue_product (X Y : Vector Word 4) :
    wordsValue α ((List.finRange 128).foldl (fun acc (j : Fin 128) =>
      if Y[limbOf j].getLsbD (j.val % 32) then
        (List.finRange 4).foldl (fun acc (w : Fin 4) => gf128WordShiftXor acc X[w] (32 * w + j)) acc
      else acc) zeros) = wordsValue α X * wordsValue α Y := by
  have word (j : Fin 128) (acc : Vector Word 8) :
      wordsValue α ((List.finRange 4).foldl
        (fun acc (w : Fin 4) => gf128WordShiftXor acc X[w] (32 * w + j)) acc) =
      wordsValue α acc + wordsValue α X * α ^ j.val := by
    have limb (acc : Vector Word 8) (w : Fin 4) :
        wordsValue α (gf128WordShiftXor acc X[w] (32 * w + j)) =
          wordsValue α acc + α ^ (32 * w.val + j.val) * evalBits α 32 X[w].getLsbD :=
      wordsValue_shiftXor acc X[w] (by omega)
    rw [foldl_value (wordsValue α) limb acc, wordsValue_limbs X, Finset.sum_mul]
    congr 1
    apply Finset.sum_congr rfl
    intro w _
    rw [pow_add]
    exact mul_right_comm ..
  have start : wordsValue α (zeros : Vector Word 8) = 0 := by
    apply evalBits_clear
    intro i inside
    simp [wordsBit, show i / 32 < 8 by omega]
  have bit (acc : Vector Word 8) (j : Fin 128) : wordsValue α
      (if Y[limbOf j].getLsbD (j.val % 32) then
        (List.finRange 4).foldl (fun acc (w : Fin 4) => gf128WordShiftXor acc X[w] (32 * w + j)) acc
      else acc) = wordsValue α acc + wordsValue α X * if wordsBit Y j then α ^ j.val else 0 := by
    have entry : wordsBit Y j = Y[limbOf j].getLsbD (j.val % 32) := by
      simp [wordsBit, limbOf, show j.val / 32 < 4 by omega]
    rw [← entry]
    split
    · exact word j acc
    · rw [mul_zero, add_zero]
  have all := foldl_value (wordsValue α) bit zeros
  rw [start, zero_add, ← Finset.mul_sum] at all
  have coefficients : wordsValue α Y = ∑ j : Fin 128, if wordsBit Y j then α ^ j.val else 0 :=
    Finset.sum_range _
  rw [coefficients]
  exact all

theorem reduceBit_value (reduces : α ^ 128 = α ^ 7 + α ^ 2 + α + 1) (acc : Vector Word 8)
    (t : Fin 128) : wordsValue α (gf128ReduceBit acc t) = wordsValue α acc := by
  rw [gf128ReduceBit]
  split
  · have folded : α ^ (128 + t.val) + α ^ (t.val + 7) + α ^ (t.val + 2) + α ^ (t.val + 1) +
        α ^ (t.val + 0) = 0 := by
      have double := CharTwo.add_self_eq_zero (α ^ t.val * α ^ 128)
      rw [pow_add, mul_comm]
      linear_combination double - α ^ t.val * reduces
    simp only [wordsValue_flipBit]
    linear_combination folded
  · rfl

omit [CharP R 2] in
theorem reduceBit_clears (acc : Vector Word 8) (t : Fin 128)
    (clear : ∀ i, 128 + (t.val + 1) ≤ i → i < 256 → wordsBit acc i = false) :
    ∀ i, 128 + t.val ≤ i → i < 256 → wordsBit (gf128ReduceBit acc t) i = false := by
  intro i high inside
  have top : wordsBit acc (128 + t) = acc[(128 + t.val) / 32].getLsbD ((128 + t.val) % 32) := by
    simp [wordsBit, show (128 + t.val) / 32 < 8 by omega]
  have before : wordsBit acc i = (decide (i = 128 + t.val) && wordsBit acc (128 + t)) := by
    rcases Nat.eq_or_lt_of_le high with rfl | above
    · simp
    · rw [clear i above inside]
      simp [Nat.ne_of_gt above]
  rw [gf128ReduceBit, ← top]
  split
  next set =>
    simp only [wordsBit_flipBit _ _ inside, before, set]
    simp [show i ≠ t.val + 7 by omega, show i ≠ t.val + 2 by omega, show i ≠ t.val + 1 by omega,
      show i ≠ t.val by omega]
  next unset => simp [before, unset]

/-- The reduction stays in the residue class, and ends below the modulus. -/
theorem wordsValue_reduce (reduces : α ^ 128 = α ^ 7 + α ^ 2 + α + 1) (acc : Vector Word 8) :
    wordsValue α (gf128Reduce acc) = wordsValue α acc := by
  let final := (List.finRange 128).reverse.foldl gf128ReduceBit acc
  have invariant : wordsValue α final = wordsValue α acc ∧
      ∀ i, 128 + 0 ≤ i → i < 256 → wordsBit final i = false := by
    apply foldl_reverse_finRange (P := fun t s => wordsValue α s = wordsValue α acc ∧
      ∀ i, 128 + t ≤ i → i < 256 → wordsBit s i = false)
    · intro t s reached
      exact ⟨(reduceBit_value reduces s t).trans reached.1, reduceBit_clears s t reached.2⟩
    · exact ⟨rfl, fun i high inside => absurd high (Nat.not_le.mpr inside)⟩
  obtain ⟨value, clear⟩ := invariant
  have limbs : ∀ i, i < 128 → wordsBit (gf128Reduce acc) i = wordsBit final i := by
    intro i inside
    have entry : ∀ q, q < 4 → (gf128Reduce acc)[q]? = final[q]? := by
      intro q low
      rw [Vector.getElem?_eq_getElem low, Vector.getElem?_eq_getElem (Nat.lt_trans low (by decide)),
        gf128Reduce, Vector.getElem_ofFn]
      rfl
    rw [wordsBit, wordsBit, entry (i / 32) (by omega)]
  rw [← value]
  calc
    wordsValue α (gf128Reduce acc) = evalBits α 128 (wordsBit final) := evalBits_congr limbs
    _ = wordsValue α final := (evalBits_extend (by decide) clear).symm

theorem wordsValue_mul (reduces : α ^ 128 = α ^ 7 + α ^ 2 + α + 1) (X Y : Vector Word 4) :
    wordsValue α (gf128MulWords X Y) = wordsValue α X * wordsValue α Y := by
  rw [gf128MulWords, wordsValue_reduce reduces, wordsValue_product]

end Limbs

section Product

theorem root_power : AdjoinRoot.root gf128Modulus ^ 128 = AdjoinRoot.root gf128Modulus ^ 7 +
    AdjoinRoot.root gf128Modulus ^ 2 + AdjoinRoot.root gf128Modulus + 1 :=
  (root_reduces gf128Modulus_eq).trans (packed_tail _)

theorem gf128Value_store (w : Vector Word 4) :
    gf128Value (gf128Store w) = wordsValue (AdjoinRoot.root gf128Modulus) w := by
  rw [gf128Value_eq]
  apply evalBits_congr
  intro i inside
  have byte : i / 8 < 16 := by omega
  have word : i / 32 < 4 := by omega
  rw [getLsbD_leValue _ inside, wordsBit, Vector.getElem?_eq_getElem byte,
    Vector.getElem?_eq_getElem word, Option.getD_some, Option.getD_some]
  simp only [gf128Store, storeWords, Vector.getElem_ofFn]
  rw [getLsbD_byteAt _ _ _ (Nat.mod_lt i (by decide))]
  have place : 8 * (i / 8 % 4) + i % 8 = i % 32 := by omega
  have quotient : i / 8 / 4 = i / 32 := by omega
  simp only [place, quotient]

theorem gf128Value_load (b : Vector Byte 16) :
    wordsValue (AdjoinRoot.root gf128Modulus) (gf128Load b) = gf128Value b := by
  rw [gf128Value_eq]
  apply evalBits_congr
  intro i inside
  have byte : i / 8 < 16 := by omega
  have word : i / 32 < 4 := by omega
  rw [getLsbD_leValue _ inside, wordsBit, Vector.getElem?_eq_getElem byte,
    Vector.getElem?_eq_getElem word, Option.getD_some, Option.getD_some]
  simp only [gf128Load, loadWord, Vector.getElem_ofFn]
  rw [getLsbD_le32 _ _ (Nat.mod_lt i (by decide))]
  have place : 4 * (i / 32) + i % 32 / 8 = i / 8 := by omega
  have remainder : i % 32 % 8 = i % 8 := by omega
  simp only [place, remainder]

theorem gf128Value_mul (x y : Vector Byte 16) :
    gf128Value (gf128Mul x y) = gf128Value x * gf128Value y := by
  rw [gf128Mul, gf128Value_store, wordsValue_mul root_power, gf128Value_load, gf128Value_load]

end Product

section Laws

/-- The polynomial 1. -/
def gf128One : Vector Byte 16 := (zeros : Vector Byte 16).set 0 1

theorem gf128Value_zeros : gf128Value zeros = 0 := by
  have double := gf128Value_xor zeros zeros
  rw [XorGroup.xor_self'] at double
  exact left_eq_add.mp double

theorem gf128Value_one : gf128Value gf128One = 1 := by
  have word : leValue 128 gf128One = BitVec.twoPow 128 0 := by decide +kernel
  rw [gf128Value_eq, word, packed_twoPow (by decide), pow_zero]

theorem gf128Mul_comm (x y : Vector Byte 16) : gf128Mul x y = gf128Mul y x := by
  apply gf128Value_bijective.injective
  rw [gf128Value_mul, gf128Value_mul, mul_comm]

theorem gf128Mul_xor (x y z : Vector Byte 16) :
    gf128Mul x (y ^^^ z) = gf128Mul x y ^^^ gf128Mul x z := by
  apply gf128Value_bijective.injective
  rw [gf128Value_mul, gf128Value_xor, gf128Value_xor, gf128Value_mul, gf128Value_mul, mul_add]

theorem gf128Mul_inverse {x : Vector Byte 16} (nonzero : x ≠ zeros) :
    ∃ y, gf128Mul x y = gf128One := by
  obtain ⟨y, inverse⟩ := gf128Value_bijective.surjective (gf128Value x)⁻¹
  use y
  apply gf128Value_bijective.injective
  have unit : gf128Value x ≠ 0 := by
    rw [← gf128Value_zeros]
    exact gf128Value_bijective.injective.ne nonzero
  rw [gf128Value_mul, inverse, gf128Value_one, mul_inv_cancel₀ unit]

end Laws

section Lines

/-- The nonces are the points of the six-dimensional space. -/
noncomputable def nonceValues (r : Vector Byte hmRBytes) : Fin 6 → Gf128 :=
  fun i => gf128Value (hmNonce r i)

theorem nonceValues_bijective : Function.Bijective nonceValues := by
  constructor
  · intro r r' same
    apply eq_of_slices (k := 6) (m := 16)
    intro i
    exact gf128Value_bijective.injective (congrFun same i)
  · intro v
    choose elements values using fun i => gf128Value_bijective.surjective (v i)
    use join (Vector.ofFn elements)
    ext i
    rw [nonceValues, hmNonce, slice_join _ i.isLt, Vector.getElem_ofFn]
    exact values i

theorem value_lines (mHat : Vector Byte 32) (a : Vector Byte hmABytes) (r : Vector Byte hmRBytes)
    (k : Fin 2) : gf128Value ((List.finRange 6).foldl (fun acc i =>
      acc ^^^ gf128Mul (hmCoefficient a k i) (hmNonce r i)) (hmMessage mHat k)) =
    gf128Value (hmMessage mHat k) + ∑ i, gf128Value (hmCoefficient a k i) * nonceValues r i := by
  apply foldl_value gf128Value
  intro acc i
  rw [gf128Value_xor, gf128Value_mul, nonceValues]

/-- The coefficients of `a` as two lines of the field. -/
noncomputable def lineMatrix (a : Vector Byte hmABytes) : Matrix (Fin 2) (Fin 6) Gf128 :=
  .of fun k i => gf128Value (hmCoefficient a k i)

/-- The nonces open a commitment to `b` exactly if they lie on both its lines. -/
theorem hmLines_eq_iff {mHat : Vector Byte 32} {a : Vector Byte hmABytes}
    {r : Vector Byte hmRBytes} {b : Vector Byte hmBBytes} :
    hmLines mHat a r = b ↔ (lineMatrix a).mulVecLin (nonceValues r) =
      fun k => gf128Value (hmMessage b k) - gf128Value (hmMessage mHat k) := by
  have lines (k : Fin 2) : hmMessage (hmLines mHat a r) k = (List.finRange 6).foldl (fun acc i =>
      acc ^^^ gf128Mul (hmCoefficient a k i) (hmNonce r i)) (hmMessage mHat k) := by
    rw [hmMessage, hmLines, slice_join _ k.isLt, Vector.getElem_ofFn]
  have values : hmLines mHat a r = b ↔
      ∀ k, gf128Value (hmMessage (hmLines mHat a r) k) = gf128Value (hmMessage b k) := by
    constructor
    · rintro rfl k
      rfl
    · intro same
      apply eq_of_slices (k := 2) (m := 16)
      intro k
      exact gf128Value_bijective.injective (same k)
  rw [values, funext_iff]
  apply forall_congr'
  intro k
  rw [lines, value_lines, eq_sub_iff_add_eq']
  rfl

theorem card_openings {a : Vector Byte hmABytes}
    (independent : LinearIndependent Gf128 (lineMatrix a).row) (mHat : Vector Byte 32)
    (b : Vector Byte hmBBytes) : Nat.card {r // hmLines mHat a r = b} = 2 ^ 512 := by
  have onto : Function.Surjective (lineMatrix a).mulVecLin := by
    rw [← LinearMap.range_eq_top]
    apply Submodule.eq_top_of_finrank_eq
    rw [← Matrix.rank, independent.rank_matrix, Module.finrank_fintype_fun_eq_card]
  have points : {r // hmLines mHat a r = b} ≃ {v // (lineMatrix a).mulVecLin v =
      fun k => gf128Value (hmMessage b k) - gf128Value (hmMessage mHat k)} :=
    (Equiv.ofBijective _ nonceValues_bijective).subtypeEquiv fun r => hmLines_eq_iff
  rw [Nat.card_congr points, card_fiber _ onto, card_gf128, Module.finrank_fintype_fun_eq_card,
    Module.finrank_fintype_fun_eq_card, Fintype.card_fin, Fintype.card_fin, ← pow_mul]

/-- Multiplication is that of the field of the modulus, and every line pair with independent
coefficients takes every right-hand side on the same number of nonces. -/
theorem hm_lines_balanced :
    Irreducible gf128Modulus ∧ Function.Bijective gf128Value ∧
    (∀ x y, gf128Value (x ^^^ y) = gf128Value x + gf128Value y) ∧
    (∀ x y, gf128Value (gf128Mul x y) = gf128Value x * gf128Value y) ∧
    (∀ x y, gf128Mul x y = gf128Mul y x) ∧
    (∀ x y z, gf128Mul x (y ^^^ z) = gf128Mul x y ^^^ gf128Mul x z) ∧
    (∀ x, x ≠ zeros → ∃ y, gf128Mul x y = gf128One) ∧
    ∀ (mHat : Vector Byte 32) (a : Vector Byte hmABytes) (b : Vector Byte hmBBytes),
      LinearIndependent Gf128 (fun (k : Fin 2) (i : Fin 6) => gf128Value (hmCoefficient a k i)) →
      Nat.card {r // hmLines mHat a r = b} = 2 ^ 512 :=
  ⟨gf128Modulus_irreducible, gf128Value_bijective, gf128Value_xor, gf128Value_mul, gf128Mul_comm,
    gf128Mul_xor, fun _ => gf128Mul_inverse,
    fun mHat _ b independent => card_openings independent mHat b⟩

/-- The lines through the first and the second nonce. -/
def unitLines : Vector Byte hmABytes :=
  join (Vector.ofFn fun j : Fin 12 => if j = 0 ∨ j = 7 then gf128One else zeros)

theorem unitLines_independent : LinearIndependent Gf128
    (fun (k : Fin 2) (i : Fin 6) => gf128Value (hmCoefficient unitLines k i)) := by
  have units := (Pi.basisFun Gf128 (Fin 6)).linearIndependent.comp (Fin.castLE (by decide))
    (Fin.castLE_injective (by decide : 2 ≤ 6))
  convert units using 1
  ext k i
  rw [hmCoefficient, unitLines, slice_join _ (show k.val * 6 + i.val < 12 by omega),
    Vector.getElem_ofFn, Function.comp_apply, Pi.basisFun_apply, Pi.single_apply]
  have place : ((⟨k.val * 6 + i.val, by omega⟩ : Fin 12) = 0 ∨
      (⟨k.val * 6 + i.val, by omega⟩ : Fin 12) = 7) ↔ i = Fin.castLE (by decide) k := by
    revert k i
    decide
  simp only [place]
  split
  · exact gf128Value_one
  · exact gf128Value_zeros

theorem hm_lines_unit : LinearIndependent Gf128
      (fun (k : Fin 2) (i : Fin 6) => gf128Value (hmCoefficient unitLines k i)) ∧
    Nat.card {r // hmLines zeros unitLines r = zeros} = 2 ^ 512 :=
  ⟨unitLines_independent,
    hm_lines_balanced.2.2.2.2.2.2.2 zeros unitLines zeros unitLines_independent⟩

end Lines

end BlindSig.Kkw
