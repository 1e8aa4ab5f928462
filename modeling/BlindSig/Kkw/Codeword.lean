import BlindSig.Kkw.XmssKeyPair
import Mathlib.Algebra.BigOperators.Fin
import Mathlib.Algebra.Order.BigOperators.Group.Finset
import Mathlib.Data.Set.Function
import Mathlib.Tactic.FinCases

/-! The target-sum code: a digest and its coordinates, and what the chain values published for one
codeword give for another when nothing but the chain step is ever applied. -/
namespace BlindSig.Kkw

/-- The part of a message hash that is encoded. -/
abbrev MsgDigest := Vector Byte 16

def msgDigest (hash : Vector Byte 32) : MsgDigest := slice hash 0 16 (by decide)

/-- `xmss_extract_coords` on a digest alone. -/
def digestCoords (d : MsgDigest) : Vector Byte xmssWotsLen × Bool :=
  xmssExtractCoords (d ++ (Vector.replicate 16 0 : Vector Byte 16) : Vector Byte 32)

section Bits

/-- Bit `j` of a digest. -/
def digestBit (d : MsgDigest) (j : Fin 128) : Bool := d[j.val / 8].getLsbD (j.val % 8)

theorem digest_ext {d d' : MsgDigest} (bits : ∀ j, digestBit d j = digestBit d' j) : d = d' := by
  apply Vector.ext
  intro b hb
  apply BitVec.eq_of_getLsbD_eq
  intro t ht
  have quotient : (8 * b + t) / 8 = b := by omega
  have remainder : (8 * b + t) % 8 = t := by omega
  simpa [digestBit, quotient, remainder] using bits ⟨8 * b + t, by omega⟩

theorem hashBit_msgDigest (hash : Vector Byte 32) (j : Fin 128) :
    hashBit hash (j.castLE (by decide)) = digestBit (msgDigest hash) j := by
  simp [hashByte, hashBit, digestBit, msgDigest]

/-- Where a coordinate bit stands in the digest. -/
def coordPos (i : Fin xmssWotsLen) (k : Fin xmssCoordResBits) : Fin 128 :=
  ⟨xmssCoordBitPos i + k, by
    unfold xmssCoordBitPos xmssDigitsPerWord xmssCoordResBits xmssWotsLen
    split <;> omega⟩

@[simp] theorem coordPos_val (i : Fin xmssWotsLen) (k : Fin xmssCoordResBits) :
    (coordPos i k).val = xmssCoordBitPos i + k := rfl

theorem extractCoords_bit (hash : Vector Byte 32) (i : Fin xmssWotsLen) (k : Fin xmssCoordResBits) :
    (xmssExtractCoords hash).1[i].getLsbD k = digestBit (msgDigest hash) (coordPos i k) := by
  have bits (a b c : Bool) (k : Fin 3) : ((0 : Byte) ||| (BitVec.ofBool a).setWidth 8 <<< 0 |||
      (BitVec.ofBool b).setWidth 8 <<< 1 ||| (BitVec.ofBool c).setWidth 8 <<< 2).getLsbD k =
      (match k with | 0 => a | 1 => b | 2 => c) := by
    fin_cases k <;> cases a <;> cases b <;> cases c <;> rfl
  have range : List.finRange xmssCoordResBits = [0, 1, 2] := rfl
  rw [← hashBit_msgDigest]
  simp only [xmssExtractCoords, getElem_fin, Vector.getElem_ofFn, range, List.foldl_cons,
    List.foldl_nil]
  refine (bits _ _ _ k).trans ?_
  fin_cases k <;> rfl

theorem extractCoords_accepts (hash : Vector Byte 32) : (xmssExtractCoords hash).2 = true ↔
    digestBit (msgDigest hash) 63 = false ∧ digestBit (msgDigest hash) 127 = false := by
  rw [← hashBit_msgDigest, ← hashBit_msgDigest]
  have top (a : Byte) : a >>> 7 = (BitVec.ofBool (a.getLsbD 7)).setWidth 8 := by
    revert a
    decide
  have tops (a b : Bool) : (((BitVec.ofBool a).setWidth 8 ||| (BitVec.ofBool b).setWidth 8 : Byte)
      == 0) = true ↔ a = false ∧ b = false := by
    cases a <;> cases b <;> decide
  simp only [xmssExtractCoords, top]
  exact tops _ _

/-- Three bits determine a coordinate. -/
theorem coord_ext {a b : Byte} (ha : a.toNat ≤ xmssWotsMaxSteps) (hb : b.toNat ≤ xmssWotsMaxSteps)
    (bits : ∀ k : Fin xmssCoordResBits, a.getLsbD k = b.getLsbD k) : a = b := by
  apply BitVec.eq_of_getLsbD_eq
  intro t _
  rcases Nat.lt_or_ge t xmssCoordResBits with inside | high
  · exact bits ⟨t, inside⟩
  · have large : 2 ^ 3 ≤ 2 ^ t := Nat.pow_le_pow_right (by decide) high
    have zero {c : Byte} (hc : c.toNat ≤ 7) : c.getLsbD t = false :=
      Nat.testBit_lt_two_pow (by omega)
    rw [zero ha, zero hb]

theorem extractCoords_congr {hash hash' : Vector Byte 32} (same : msgDigest hash = msgDigest hash') :
    xmssExtractCoords hash = xmssExtractCoords hash' := by
  apply Prod.ext
  · apply Vector.ext
    intro i hi
    refine coord_ext (coord_le hash ⟨i, hi⟩) (coord_le hash' ⟨i, hi⟩) fun k => ?_
    have bit := extractCoords_bit hash ⟨i, hi⟩ k
    rw [same, ← extractCoords_bit hash' ⟨i, hi⟩ k] at bit
    exact bit
  · rw [Bool.eq_iff_iff, extractCoords_accepts, extractCoords_accepts, same]

@[simp] theorem msgDigest_append (d : MsgDigest) (rest : Vector Byte 16) :
    msgDigest (d ++ rest : Vector Byte 32) = d :=
  slice_append_left d rest

/-- The coordinates are read off the first half of the hash. -/
theorem extractCoords_eq (hash : Vector Byte 32) :
    xmssExtractCoords hash = digestCoords (msgDigest hash) :=
  extractCoords_congr (msgDigest_append _ _).symm

/-- The digest bit a codeword sets at a position; the top bit of either half is unused. -/
def codeBit (v : Vector Byte xmssWotsLen) (j : Fin 128) : Bool :=
  if j.val < 63 then (v[j.val / 3]?.getD 0).getLsbD (j.val % 3)
  else if 64 ≤ j.val ∧ j.val < 127 then
    (v[xmssDigitsPerWord + (j.val - 64) / 3]?.getD 0).getLsbD ((j.val - 64) % 3)
  else false

/-- The digest with a given codeword. -/
def codeDigest (v : Vector Byte xmssWotsLen) : MsgDigest :=
  Vector.ofFn fun b : Fin 16 =>
    (BitVec.ofBoolListLE (List.ofFn fun t : Fin 8 => codeBit v ⟨8 * b + t, by omega⟩)).setWidth 8

theorem digestBit_codeDigest (v : Vector Byte xmssWotsLen) (j : Fin 128) :
    digestBit (codeDigest v) j = codeBit v j := by
  have inside : j.val % 8 < 8 := Nat.mod_lt _ (by decide)
  simp only [digestBit, codeDigest, Vector.getElem_ofFn, BitVec.getLsbD_setWidth, inside,
    decide_true, Bool.true_and, BitVec.getLsbD_ofBoolListLE, List.getD_eq_getElem?_getD,
    List.getElem?_ofFn, dite_true, Option.getD_some, Nat.div_add_mod]

theorem codeBit_coordPos (v : Vector Byte xmssWotsLen) (i : Fin xmssWotsLen)
    (k : Fin xmssCoordResBits) : codeBit v (coordPos i k) = v[i].getLsbD k := by
  have digits : xmssDigitsPerWord = 21 := rfl
  have few : k.val < 3 := k.isLt
  have entry : v[i.val]? = some v[i] := Vector.getElem?_eq_getElem i.isLt
  have range : i.val < 42 := i.isLt
  rw [codeBit, coordPos_val, digits]
  by_cases first : i.val < 21
  · have position : xmssCoordBitPos i = 3 * i.val := if_pos first
    have quotient : (3 * i.val + k.val) / 3 = i.val := by omega
    have remainder : (3 * i.val + k.val) % 3 = k.val := by omega
    rw [position, if_pos (by omega), quotient, remainder, entry]
    rfl
  · have position : xmssCoordBitPos i = 64 + 3 * (i.val - 21) := if_neg first
    have quotient : 21 + (64 + 3 * (i.val - 21) + k.val - 64) / 3 = i.val := by omega
    have remainder : (64 + 3 * (i.val - 21) + k.val - 64) % 3 = k.val := by omega
    rw [position, if_neg (by omega), if_pos (by omega), quotient, remainder, entry]
    rfl

/-- Every position is a coordinate bit or one of the two unused ones. -/
theorem position_cases (j : Fin 128) : j = 63 ∨ j = 127 ∨ ∃ i k, coordPos i k = j := by
  rcases Nat.lt_trichotomy j.val 63 with low | here | high
  · have first : j.val / 3 < 42 := by omega
    refine .inr (.inr ⟨⟨j.val / 3, first⟩, ⟨j.val % 3, Nat.mod_lt _ (by decide)⟩, Fin.ext ?_⟩)
    have position : xmssCoordBitPos ⟨j.val / 3, first⟩ = 3 * (j.val / 3) :=
      if_pos (show j.val / 3 < 21 by omega)
    rw [coordPos_val, position]
    exact Nat.div_add_mod j.val 3
  · exact .inl (Fin.ext here)
  · rcases Nat.lt_or_ge j.val 127 with inner | last
    · have second : 21 + (j.val - 64) / 3 < 42 := by omega
      refine .inr (.inr ⟨⟨21 + (j.val - 64) / 3, second⟩,
        ⟨(j.val - 64) % 3, Nat.mod_lt _ (by decide)⟩, Fin.ext ?_⟩)
      have position : xmssCoordBitPos ⟨21 + (j.val - 64) / 3, second⟩ =
          64 + 3 * (21 + (j.val - 64) / 3 - 21) := if_neg (show ¬ 21 + (j.val - 64) / 3 < 21 by omega)
      rw [coordPos_val, position]
      change 64 + 3 * (21 + (j.val - 64) / 3 - 21) + (j.val - 64) % 3 = j.val
      omega
    · exact .inr (.inl (Fin.ext (by omega)))

theorem digestCoords_bit (d : MsgDigest) (i : Fin xmssWotsLen) (k : Fin xmssCoordResBits) :
    (digestCoords d).1[i].getLsbD k = digestBit d (coordPos i k) := by
  rw [digestCoords, extractCoords_bit, msgDigest_append]

theorem digestCoords_le (d : MsgDigest) (i : Fin xmssWotsLen) :
    (digestCoords d).1[i].toNat ≤ xmssWotsMaxSteps := coord_le _ i

theorem digestCoords_accepts (d : MsgDigest) :
    (digestCoords d).2 = true ↔ digestBit d 63 = false ∧ digestBit d 127 = false := by
  rw [digestCoords, extractCoords_accepts, msgDigest_append]

/-- Accepted digests and coordinate vectors correspond. -/
theorem digestCoords_bijOn : Set.BijOn (fun d => (digestCoords d).1) {d | (digestCoords d).2 = true}
    {v | ∀ i : Fin xmssWotsLen, v[i].toNat ≤ xmssWotsMaxSteps} := by
  refine ⟨fun d _ => digestCoords_le d, ?_, ?_⟩
  · intro d accepted d' accepted' same
    obtain ⟨low, high⟩ := (digestCoords_accepts d).mp accepted
    obtain ⟨low', high'⟩ := (digestCoords_accepts d').mp accepted'
    apply digest_ext
    intro j
    rcases position_cases j with rfl | rfl | ⟨i, k, rfl⟩
    · rw [low, low']
    · rw [high, high']
    · rw [← digestCoords_bit, ← digestCoords_bit]
      exact congrArg (fun v : Vector Byte xmssWotsLen => v[i].getLsbD k) same
  · intro v bounded
    refine ⟨codeDigest v, ?_, ?_⟩
    · apply (digestCoords_accepts _).mpr
      rw [digestBit_codeDigest, digestBit_codeDigest]
      exact ⟨rfl, rfl⟩
    · apply Vector.ext
      intro i hi
      refine coord_ext (digestCoords_le _ ⟨i, hi⟩) (bounded ⟨i, hi⟩) fun k => ?_
      have bit := digestCoords_bit (codeDigest v) ⟨i, hi⟩ k
      rw [digestBit_codeDigest, codeBit_coordPos] at bit
      exact bit

end Bits

section Sum

theorem coordSum_eq (v : Vector Byte xmssWotsLen) :
    coordSum v = ∑ i : Fin xmssWotsLen, v[i].toNat :=
  (Fin.sum_univ_def _).symm

/-- Of two codewords of one sum neither is below the other. -/
theorem exists_coord_lt {v w : Vector Byte xmssWotsLen} (sum : coordSum v = coordSum w)
    (different : v ≠ w) : ∃ i : Fin xmssWotsLen, v[i].toNat < w[i].toNat := by
  by_contra none
  have below : ∀ i ∈ (Finset.univ : Finset (Fin xmssWotsLen)), w[i].toNat ≤ v[i].toNat := by
    intro i _
    exact Nat.le_of_not_lt fun less => none ⟨i, less⟩
  rw [coordSum_eq, coordSum_eq] at sum
  have entries := (Finset.sum_eq_sum_iff_of_le below).mp sum.symm
  apply different
  apply Vector.ext
  intro i hi
  exact BitVec.eq_of_toNat_eq (entries ⟨i, hi⟩ (Finset.mem_univ _)).symm

end Sum

/-- A chain value with nothing known of the step: the secrets of one key, values made from nothing
of it, and steps. -/
inductive ChainValue where
  | secret (i : Fin xmssWotsLen)
  | fresh (name : Nat)
  | step (pkSeed : PkSeed) (epoch : Word) (input : ChainValue) (chainIdx pos : Byte)

namespace ChainValue

/-- What the steps started from. -/
def origin : ChainValue → Option (Fin xmssWotsLen)
  | .secret i => some i
  | .fresh _ => none
  | .step _ _ input _ _ => input.origin

def length : ChainValue → Nat
  | .secret _ => 0
  | .fresh _ => 0
  | .step _ _ input _ _ => input.length + 1

def secrets : Vector ChainValue xmssWotsLen := Vector.ofFn .secret

/-- What chain steps make of published values. -/
inductive Derivable (published : Vector ChainValue xmssWotsLen) : ChainValue → Prop
  | published (i : Fin xmssWotsLen) : Derivable published published[i]
  | fresh (name : Nat) : Derivable published (.fresh name)
  | step (pkSeed : PkSeed) (epoch : Word) {input : ChainValue} (chainIdx pos : Byte) :
    Derivable published input → Derivable published (.step pkSeed epoch input chainIdx pos)

/-- A derived value is no shorter than a published one of the same chain. -/
theorem Derivable.longer {published : Vector ChainValue xmssWotsLen} {v : ChainValue}
    (derivable : Derivable published v) : v.origin = none ∨
      ∃ i : Fin xmssWotsLen, published[i].origin = v.origin ∧ published[i].length ≤ v.length := by
  induction derivable with
  | published i => exact .inr ⟨i, rfl, Nat.le_refl _⟩
  | fresh name => exact .inl rfl
  | step pkSeed epoch chainIdx pos _ ih =>
    rcases ih with none | ⟨i, same, shorter⟩
    · exact .inl none
    · exact .inr ⟨i, same, Nat.le_succ_of_le shorter⟩

variable (pkSeed : PkSeed) (epoch : Word)

theorem multi_origin_length (start : ChainValue) (chainIdx startPos steps : Byte) :
    (Chains.hashChainMulti step pkSeed epoch start chainIdx startPos steps).origin = start.origin ∧
    (Chains.hashChainMulti step pkSeed epoch start chainIdx startPos steps).length =
      start.length + steps.toNat := by
  unfold Chains.hashChainMulti
  induction steps.toNat with
  | zero => exact ⟨rfl, rfl⟩
  | succ n ih =>
    obtain ⟨same, longer⟩ := ih
    rw [List.range_succ, List.foldl_append]
    exact ⟨same, congrArg (· + 1) longer⟩

theorem wotsSign_origin_length (coords : Vector Byte xmssWotsLen) (i : Fin xmssWotsLen) :
    (Chains.wotsSign step pkSeed epoch secrets coords)[i].origin = some i ∧
    (Chains.wotsSign step pkSeed epoch secrets coords)[i].length = coords[i].toNat := by
  have secret : secrets[i] = .secret i := by simp [secrets]
  obtain ⟨same, longer⟩ :=
    multi_origin_length pkSeed epoch (.secret i) (BitVec.ofNat 8 i) 0 coords[i]
  have value : (Chains.wotsSign step pkSeed epoch secrets coords)[i] = if coords[i] = 0 then
      .secret i else Chains.hashChainMulti step pkSeed epoch (.secret i) (BitVec.ofNat 8 i) 0
        coords[i] := by
    simp [Chains.wotsSign, secrets]
  rw [value]
  split
  · next zero =>
    rw [zero]
    exact ⟨rfl, rfl⟩
  · exact ⟨same, longer.trans (Nat.zero_add _)⟩

/-- A value that the verifier leads to the public key lies on the chain, at the coordinate. -/
theorem needed_origin_length {sig : Vector ChainValue xmssWotsLen}
    {coords : Vector Byte xmssWotsLen} (i : Fin xmssWotsLen)
    (bounded : coords[i].toNat ≤ xmssWotsMaxSteps)
    (reaches : (Chains.wotsPkFromSig step pkSeed epoch sig coords)[i] =
      (Chains.wotsPkFromSk step pkSeed epoch secrets)[i]) :
    sig[i].origin = some i ∧ sig[i].length = coords[i].toNat := by
  have rest : (BitVec.ofNat 8 xmssWotsMaxSteps - coords[i]).toNat =
      xmssWotsMaxSteps - coords[i].toNat := by
    rw [BitVec.toNat_sub_of_le (BitVec.le_def.mpr bounded)]
    rfl
  obtain ⟨ends, whole⟩ := multi_origin_length pkSeed epoch (.secret i) (BitVec.ofNat 8 i) 0
    (BitVec.ofNat 8 xmssWotsMaxSteps)
  obtain ⟨same, longer⟩ := multi_origin_length pkSeed epoch sig[i] (BitVec.ofNat 8 i) coords[i]
    (BitVec.ofNat 8 xmssWotsMaxSteps - coords[i])
  have endpoint : (Chains.wotsPkFromSk step pkSeed epoch secrets)[i] = Chains.hashChainMulti step
      pkSeed epoch (.secret i) (BitVec.ofNat 8 i) 0 (BitVec.ofNat 8 xmssWotsMaxSteps) := by
    simp [Chains.wotsPkFromSk, secrets]
  -- No remaining step is a walk of length zero.
  have value : (Chains.wotsPkFromSig step pkSeed epoch sig coords)[i] = Chains.hashChainMulti step
      pkSeed epoch sig[i] (BitVec.ofNat 8 i) coords[i]
        (BitVec.ofNat 8 xmssWotsMaxSteps - coords[i]) := by
    simp only [Chains.wotsPkFromSig, getElem_fin, Vector.getElem_ofFn]
    split
    · next zero =>
      rw [zero]
      rfl
    · rfl
  rw [value, endpoint] at reaches
  rw [reaches] at same longer
  constructor
  · exact same.symm.trans ends
  · have total : sig[i].length + (xmssWotsMaxSteps - coords[i].toNat) = xmssWotsMaxSteps := by
      rw [← rest, ← longer, whole]
      rfl
    omega

end ChainValue

/-- Digests and coordinate vectors correspond, different codewords of the target sum are
incomparable, and what one signature publishes never leads by chain steps to all the values another
codeword is verified with. -/
theorem codeword_incomparable :
    (∀ hash, xmssExtractCoords hash = digestCoords (msgDigest hash)) ∧
    Set.BijOn (fun d => (digestCoords d).1) {d | (digestCoords d).2 = true}
      {v | ∀ i : Fin xmssWotsLen, v[i].toNat ≤ xmssWotsMaxSteps} ∧
    ∀ d d', (digestCoords d).2 = true → (digestCoords d').2 = true →
      coordSum (digestCoords d).1 = xmssTargetSum → coordSum (digestCoords d').1 = xmssTargetSum →
      d ≠ d' →
      (∃ i : Fin xmssWotsLen, (digestCoords d).1[i].toNat < (digestCoords d').1[i].toNat) ∧
      (∃ i : Fin xmssWotsLen, (digestCoords d').1[i].toNat < (digestCoords d).1[i].toNat) ∧
      ∀ pkSeed epoch, ∃ i : Fin xmssWotsLen, ∀ sig,
        (Chains.wotsPkFromSig .step pkSeed epoch sig (digestCoords d').1)[i] =
          (Chains.wotsPkFromSk .step pkSeed epoch ChainValue.secrets)[i] →
        ¬ ChainValue.Derivable
          (Chains.wotsSign .step pkSeed epoch ChainValue.secrets (digestCoords d).1) sig[i] := by
  refine ⟨extractCoords_eq, digestCoords_bijOn, ?_⟩
  intro d d' accepted accepted' sum sum' different
  have apart : (digestCoords d).1 ≠ (digestCoords d').1 := fun same =>
    different (digestCoords_bijOn.injOn accepted accepted' same)
  obtain ⟨i, below⟩ := exists_coord_lt (sum'.trans sum.symm) apart.symm
  refine ⟨exists_coord_lt (sum.trans sum'.symm) apart, ⟨i, below⟩, ?_⟩
  intro pkSeed epoch
  refine ⟨i, fun sig reaches derivable => ?_⟩
  obtain ⟨chain, needed⟩ := ChainValue.needed_origin_length pkSeed epoch i (digestCoords_le d' i)
    reaches
  rcases derivable.longer with none | ⟨j, same, shorter⟩
  · rw [chain] at none
    cases none
  · obtain ⟨published, length⟩ :=
      ChainValue.wotsSign_origin_length pkSeed epoch (digestCoords d).1 j
    rw [published, chain] at same
    obtain rfl : j = i := Option.some.inj same
    omega

end BlindSig.Kkw
