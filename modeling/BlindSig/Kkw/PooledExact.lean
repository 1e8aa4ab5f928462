import BlindSig.Kkw.PooledChains
import BlindSig.Kkw.XmssKeyPair
import Mathlib.Tactic.FinCases

/-! The pooled chains on the values behind the masks: a schedule byte selects its chain, the
counters count without carries, and the check word is zero exactly for the schedules that take
every chain to its end. -/
namespace BlindSig.Kkw

open XorGroup Prog

section Lanes

theorem toNat_append_add {m n : Nat} (x : BitVec m) (y : BitVec n) :
    (x ++ y).toNat = 2 ^ n * x.toNat + y.toNat := by
  rw [BitVec.toNat_append, ← Nat.shiftLeft_add_eq_or_of_lt y.isLt, Nat.shiftLeft_eq, Nat.mul_comm]

theorem toNat_le32 (b : Fin 4 → Byte) : (le32 b).toNat =
    (b 0).toNat + 2 ^ 8 * (b 1).toNat + 2 ^ 16 * (b 2).toNat + 2 ^ 24 * (b 3).toNat := by
  have joined : le32 b = (b 3 ++ (b 2 ++ (b 1 ++ b 0)) : BitVec 32) := by
    apply BitVec.eq_of_getLsbD_eq
    intro i hi
    rw [getLsbD_le32 b i hi, BitVec.getLsbD_append, BitVec.getLsbD_append, BitVec.getLsbD_append]
    interval_cases i <;> rfl
  rw [joined, toNat_append_add, toNat_append_add, toNat_append_add]
  omega

/-- A counter below its bound is counted up without a carry into the next one. -/
theorem le32_count (b : Fin 4 → Byte) (lane : Fin 4) (small : (b lane).toNat < 255) :
    le32 b + 1#32 <<< (8 * lane.val) = le32 (Function.update b lane (b lane + 1)) := by
  apply BitVec.eq_of_toNat_eq
  rw [BitVec.toNat_add, toNat_le32, toNat_le32]
  have one : (b lane + 1).toNat = (b lane).toNat + 1 := by
    rw [BitVec.toNat_add]
    exact Nat.mod_eq_of_lt (Nat.succ_lt_succ small)
  have bound (i : Fin 4) := (b i).isLt
  have b0 := bound 0
  have b1 := bound 1
  have b2 := bound 2
  have b3 := bound 3
  have unit : ∀ lane : Fin 4, (1#32 <<< (8 * lane.val)).toNat = 2 ^ (8 * lane.val) := by decide
  rw [unit]
  fin_cases lane <;> simp [Function.update] at one small ⊢ <;> omega

end Lanes

section Clear

variable {A B C : Type} [XorGroup A] [XorGroup B] [XorGroup C]

/-! Without parties every value is public. -/

omit [XorGroup A] in
theorem clear_ext {x y : Masked 0 A} (same : x.h = y.h) : x = y :=
  Masked.ext same fun i => i.elim0

theorem clear_map (f : A → B) (a : A) : (Masked.const a : Masked 0 A).map f = Masked.const (f a) :=
  clear_ext rfl

theorem clear_map₂ (f : A → B → C) (a : A) (b : B) :
    Masked.map₂ f (Masked.const a : Masked 0 A) (Masked.const b) = Masked.const (f a b) :=
  clear_ext rfl

theorem clear_xorPublic (a c : A) :
    (Masked.const a : Masked 0 A).xorPublic c = Masked.const (a ^^^ c) := clear_ext rfl

theorem clear_xor (a b : Word) : mpcXOR (Masked.const a : Mw 0) (Masked.const b) =
    Masked.const (a ^^^ b) := clear_ext rfl

theorem eval_and (a b : Word) : (gateAnd (Masked.const a : Mw 0) (Masked.const b)).eval gateSem =
    Masked.const (a &&& b) := rfl

theorem eval_add (a b : Word) : (gateAdd (Masked.const a : Mw 0) (Masked.const b)).eval gateSem =
    Masked.const (a + b) := rfl

theorem or_eq_xor (a b : Word) : a ^^^ b ^^^ (a &&& b) = a ||| b := by
  apply BitVec.eq_of_getLsbD_eq
  intro i _
  simp only [BitVec.getLsbD_xor, BitVec.getLsbD_and, BitVec.getLsbD_or]
  cases a.getLsbD i <;> cases b.getLsbD i <;> rfl

theorem eval_orInto (a b : Word) :
    (poolOrInto (Masked.const a : Mw 0) (Masked.const b)).eval gateSem = Masked.const (a ||| b) := by
  simp only [poolOrInto, eval_bind, eval_and, pure_eq, eval_ret, clear_xor, or_eq_xor]

end Clear

section Select

/-- The lane of a byte among the candidates from `32 * g` on. -/
def oneHot (s : Byte) (g : Nat) : Word := if s.toNat / 32 = g then BitVec.twoPow 32 (s.toNat % 32) else 0

theorem getLsbD_lanePattern : ∀ (g : Fin 2) (b : Fin 8) (lane : Fin 32),
    (lanePattern g b).getLsbD lane = !(BitVec.ofNat 8 (32 * g + lane)).getLsbD b := by
  decide +kernel

theorem byte_equal (s c : Byte) :
    ((List.finRange 8).all fun b => s.getLsbD b ^^ !c.getLsbD b) = decide (s = c) := by
  rw [Bool.eq_iff_iff, List.all_eq_true, decide_eq_true_iff]
  constructor
  · intro same
    apply BitVec.eq_of_getLsbD_eq
    intro b hb
    have equal := same ⟨b, hb⟩ (List.mem_finRange _)
    revert equal
    cases s.getLsbD b <;> cases c.getLsbD b <;> simp
  · rintro rfl b _
    simp

theorem bit_oneHot (s : Byte) (g : Fin 2) {i : Nat} (hi : i < 32) :
    decide (s = BitVec.ofNat 8 (32 * g + i)) = (oneHot s g).getLsbD i := by
  have number : (BitVec.ofNat 8 (32 * g + i)).toNat = 32 * g + i := by
    rw [BitVec.toNat_ofNat]
    omega
  have place : s = BitVec.ofNat 8 (32 * g + i) ↔ s.toNat = 32 * g + i := by
    rw [BitVec.toNat_eq, number]
  rw [Bool.eq_iff_iff, decide_eq_true_iff, place, oneHot]
  split
  next here =>
    rw [BitVec.getLsbD_twoPow]
    simp
    omega
  next elsewhere =>
    simp
    omega

theorem eval_onehot (s : Byte) (g : Fin 2) :
    (poolOnehot (Masked.const (s.setWidth 32) : Mw 0) g).eval gateSem = Masked.const (oneHot s g) := by
  have lane (b : Nat) : laneMatch (Masked.const (s.setWidth 32) : Mw 0) g b =
      Masked.const (spreadBit (s.setWidth 32) b ^^^ lanePattern g b) := by
    rw [laneMatch, poolBitmask, clear_map, clear_xorPublic]
  have range : List.range 7 = [0, 1, 2, 3, 4, 5, 6] := rfl
  simp only [poolOnehot, eval_foldlM, lane, eval_and, range, List.foldl_cons, List.foldl_nil]
  congr 1
  apply BitVec.eq_of_getLsbD_eq
  intro i hi
  have bit (b : Fin 8) : (spreadBit (s.setWidth 32) b ^^^ lanePattern g b).getLsbD i =
      (s.getLsbD b ^^ !(BitVec.ofNat 8 (32 * g + i)).getLsbD b) := by
    rw [BitVec.getLsbD_xor, getLsbD_lanePattern g b ⟨i, hi⟩, spreadBit_eq]
    have low : (s.setWidth 32).getLsbD b = s.getLsbD b := by
      simp
      omega
    rw [low]
    generalize (BitVec.ofNat 8 (32 * g + i)).getLsbD b = c
    cases s.getLsbD b with
    | false => simp
    | true =>
      rw [if_pos rfl, BitVec.getLsbD_allOnes, decide_eq_true hi]
  have all := byte_equal s (BitVec.ofNat 8 (32 * g + i))
  rw [← bit_oneHot s g hi, ← all]
  have range : List.finRange 8 = [0, 1, 2, 3, 4, 5, 6, 7] := rfl
  simp only [BitVec.getLsbD_and, range, List.all_cons, List.all_nil, Bool.and_true, ← bit,
    Bool.and_assoc]
  rfl

theorem invalid_exact : ∀ s : Byte, poolParity (oneHot s 0 ^^^ (oneHot s 1 &&& 0x3ff)) ^^^ 1 =
    if s.toNat < 42 then 0 else 1 := by
  decide +kernel

/-- The mask of a chain. -/
def chainMask (s : Byte) (ci : Nat) : Word := if s.toNat = ci then BitVec.allOnes 32 else 0

theorem chainMask_eq (s : Byte) (ci : Nat) (inside : ci < 256) (w : Word) (k : Nat)
    (bit : w.getLsbD k = decide (s = BitVec.ofNat 8 ci)) : spreadBit w k = chainMask s ci := by
  have place : s = BitVec.ofNat 8 ci ↔ s.toNat = ci := by
    rw [BitVec.toNat_eq, BitVec.toNat_ofNat, Nat.mod_eq_of_lt inside]
  rw [spreadBit_eq, bit, chainMask]
  simp only [decide_eq_true_eq, place]
  rfl

theorem masks_exact (s : Byte) :
    poolMasks #v[(Masked.const (oneHot s 0) : Mw 0), Masked.const (oneHot s 1 &&& 0x3ff)] =
      Vector.ofFn fun ci : Fin xmssWotsLen => Masked.const (chainMask s ci) := by
  apply Vector.ext
  intro ci hci
  have inside : ci < 42 := hci
  simp only [poolMasks, Vector.getElem_ofFn]
  rcases Nat.lt_or_ge ci 32 with low | high
  · have word : ci / 32 = 0 := Nat.div_eq_of_lt low
    simp only [word, Nat.mod_eq_of_lt low]
    refine (clear_map (spreadBit · ci) (oneHot s 0)).trans (congrArg Masked.const ?_)
    exact chainMask_eq s ci (by omega) _ _ (by simpa using (bit_oneHot s 0 low).symm)
  · have word : ci / 32 = 1 := by omega
    have place : ci % 32 = ci - 32 := by omega
    have allowed : ∀ k, k < 10 → (0x3ff : Word).getLsbD k = true := by decide
    simp only [word, place]
    refine (clear_map (spreadBit · (ci - 32)) (oneHot s 1 &&& 0x3ff)).trans
      (congrArg Masked.const (chainMask_eq s ci (by omega) _ _ ?_))
    have bit := bit_oneHot s 1 (show ci - 32 < 32 by omega)
    rw [BitVec.getLsbD_and, allowed (ci - 32) (by omega), Bool.and_true]
    rw [← Nat.add_sub_cancel' high]
    simpa using bit.symm

end Select

section Step

/-- The words of the nodes without masks. -/
def clearNodes (nodes : Fin xmssWotsLen → Node) : Vector (Vector (Mw 0) 4) xmssWotsLen :=
  Vector.ofFn fun ci => Vector.ofFn fun w : Fin 4 => Masked.const (xmssNodeLoadWord (nodes ci) w)

def clearMasks (s : Byte) : Vector (Mw 0) xmssWotsLen :=
  Vector.ofFn fun ci : Fin xmssWotsLen => Masked.const (chainMask s ci)

/-- What a schedule byte selects, and zero if it selects nothing. -/
def pick (s : Byte) (f : Fin xmssWotsLen → Word) : Word :=
  if h : s.toNat < xmssWotsLen then f ⟨s.toNat, h⟩ else 0

theorem chainMask_and (s : Byte) (ci : Nat) (x : Word) :
    chainMask s ci &&& x = if ci = s.toNat then x else 0 := by
  rw [chainMask]
  rcases eq_or_ne s.toNat ci with same | other
  · rw [if_pos same, if_pos same.symm, BitVec.allOnes_and]
  · rw [if_neg other, if_neg other.symm]
    exact BitVec.zero_and

theorem eval_foldXor {n : Nat} (f : Fin n → Word) :
    (List.finRange n).foldl (fun acc i => mpcXOR acc (Masked.const (f i))) (mwConst 0 : Mw 0) =
      Masked.const (xorAll f) := by
  have folded := foldl_xor_eq f 0
  rw [show (0 : Word) = zeros from rfl, zeros_xor] at folded
  rw [← folded]
  exact List.foldl_hom Masked.const fun acc i => clear_xor acc (f i)

theorem eval_select (s : Byte) (nodes : Fin xmssWotsLen → Node) :
    (poolSelect (clearMasks s) (clearNodes nodes)).eval gateSem =
      Vector.ofFn fun w : Fin 4 => Masked.const (pick s fun ci => xmssNodeLoadWord (nodes ci) w) := by
  rw [poolSelect, eval_collect]
  congr 1
  apply funext
  intro w
  have term (ci : Fin xmssWotsLen) : chainMask s ci &&& xmssNodeLoadWord (nodes ci) w =
      if ci.val = s.toNat then xmssNodeLoadWord (nodes ci) w else zeros := chainMask_and ..
  have only := xorAll_at (fun ci => xmssNodeLoadWord (nodes ci) w) s.toNat
  simp only [← term] at only
  have selected := eval_foldXor fun ci : Fin xmssWotsLen =>
    chainMask s ci &&& xmssNodeLoadWord (nodes ci) w
  rw [only] at selected
  rw [eval_foldlM]
  simp only [eval_bind, pure_eq, eval_ret, clearMasks, clearNodes, getElem_fin,
    Vector.getElem_ofFn, eval_and]
  exact selected

/-- The lanes of a group: what a function makes of the mask of the selected chain. -/
theorem foldLanes_exact (s : Byte) (g : Fin poolGroups) {f : Nat → Word → Word}
    (clear : ∀ lane, f lane 0 = 0) :
    foldLanes (clearMasks s) g f = Masked.const
      (if s.toNat < xmssWotsLen ∧ s.toNat / 4 = g.val then f (s.toNat % 4) (BitVec.allOnes 32)
        else 0) := by
  let lane := if s.toNat < xmssWotsLen ∧ s.toNat / 4 = g.val then s.toNat % 4 else 4
  have term (acc : Mw 0) (i : Fin 4) :
      (if inside : 4 * g.val + i.val < xmssWotsLen then
        mpcXOR acc ((clearMasks s)[4 * g.val + i.val].map (f i)) else acc) =
      mpcXOR acc (Masked.const (if i.val = lane then f i (BitVec.allOnes 32) else zeros)) := by
    have same (a : Mw 0) : mpcXOR a (Masked.const zeros) = a := clear_ext (xor_zeros' a.h)
    have selected : i.val = lane ↔ 4 * g.val + i.val < xmssWotsLen ∧ s.toNat = 4 * g.val + i.val := by
      simp only [lane]
      split <;> omega
    split
    next inside =>
      rw [clearMasks, Vector.getElem_ofFn, clear_map, chainMask]
      simp only [selected, inside, true_and]
      split
      · rfl
      · rw [clear]
        rfl
    next outside =>
      rw [if_neg fun here => outside (selected.mp here).1, same]
  have only := xorAll_at (fun i : Fin 4 => f i (BitVec.allOnes 32)) lane
  unfold foldLanes
  simp only [term]
  rw [eval_foldXor, only]
  congr 1
  by_cases here : s.toNat < xmssWotsLen ∧ s.toNat / 4 = g.val
  · simp [lane, here, Nat.mod_lt]
  · simp only [lane, if_neg here]
    rfl

/-- Four counters in a word. -/
def packedWord (pos : Nat → Byte) (g : Nat) : Word := le32 fun lane => pos (4 * g + lane)

def clearPositions (pos : Nat → Byte) : Vector (Mw 0) poolGroups :=
  Vector.ofFn fun g : Fin poolGroups => Masked.const (packedWord pos g)

/-- The counters after a step. -/
def countUp (s : Byte) (pos : Nat → Byte) (i : Nat) : Byte :=
  if s.toNat < xmssWotsLen ∧ i = s.toNat then pos i + 1 else pos i

theorem packedWord_count (s : Byte) {pos : Nat → Byte} (small : ∀ i, (pos i).toNat < 255) (g : Nat) :
    packedWord pos g + (if s.toNat < xmssWotsLen ∧ s.toNat / 4 = g then
      (BitVec.allOnes 32 &&& 1) <<< (8 * (s.toNat % 4)) else 0) = packedWord (countUp s pos) g := by
  split
  next here =>
    have lane : s.toNat % 4 < 4 := Nat.mod_lt _ (by decide)
    have counted := le32_count (fun lane => pos (4 * g + lane.val)) ⟨s.toNat % 4, lane⟩ (small _)
    rw [show BitVec.allOnes 32 &&& 1 = 1#32 from rfl, packedWord, counted, packedWord]
    congr 1
    apply funext
    intro i
    rw [Function.update_apply, countUp]
    have place : i = ⟨s.toNat % 4, lane⟩ ↔ s.toNat < xmssWotsLen ∧ 4 * g + i.val = s.toNat := by
      rw [Fin.ext_iff]
      dsimp only
      omega
    simp only [place]
    split
    next counts =>
      have same : 4 * g + s.toNat % 4 = 4 * g + i.val := by omega
      simp only [same]
    next => rfl
  next elsewhere =>
    rw [show packedWord pos g + 0 = packedWord pos g from BitVec.add_zero _, packedWord, packedWord]
    congr 1
    apply funext
    intro i
    rw [countUp, if_neg (by omega)]

theorem eval_count (s : Byte) {pos : Nat → Byte} (small : ∀ i, (pos i).toNat < 255) :
    (poolCount (clearMasks s) (clearPositions pos)).eval gateSem =
      (clearPositions (countUp s pos), Masked.const
        (if s.toNat < xmssWotsLen then packedWord (countUp s pos) (s.toNat / 4) else 0)) := by
  let after (m : Nat) : Vector (Mw 0) poolGroups × Mw 0 :=
    (Vector.ofFn fun g : Fin poolGroups =>
        Masked.const (packedWord (if g.val < m then countUp s pos else pos) g),
      Masked.const (if s.toNat < xmssWotsLen ∧ s.toNat / 4 < m then
        packedWord (countUp s pos) (s.toNat / 4) else 0))
  have start : (clearPositions pos, mwConst 0) = after 0 := by
    simp [after, clearPositions, mwConst]
  have groups : s.toNat < xmssWotsLen ∧ s.toNat / 4 < poolGroups ↔ s.toNat < xmssWotsLen := by
    simp only [xmssWotsLen, poolGroups]
    omega
  have finish : after poolGroups = (clearPositions (countUp s pos), Masked.const
      (if s.toNat < xmssWotsLen then packedWord (countUp s pos) (s.toNat / 4) else 0)) := by
    simp [after, clearPositions, groups]
  rw [poolCount, eval_foldlM, start, ← finish]
  apply foldl_finRange
  intro g
  have here : (after g).1[g] = Masked.const (packedWord pos g) := by simp [after]
  have increment := foldLanes_exact s g (f := fun lane m => (m &&& 1) <<< (8 * lane)) (by simp)
  have groupMask := foldLanes_exact s g (f := fun _ m => m) fun _ => rfl
  simp only [eval_bind, here, increment, eval_add, packedWord_count s small, groupMask, eval_and,
    pure_eq, eval_ret]
  apply Prod.ext
  · apply Vector.ext
    intro i hi
    rw [Vector.getElem_set]
    split
    next same => simp [after, same]
    next other =>
      have before : i < g.val + 1 ↔ i < g.val := by omega
      simp only [after, Vector.getElem_ofFn, before]
  · have masked (c : Prop) [Decidable c] (w : Word) :
        (if c then BitVec.allOnes 32 else 0) &&& w = if c then w else 0 := by
      split
      · exact BitVec.allOnes_and
      · exact BitVec.zero_and
    simp only [after, clear_xor, masked]
    congr 1
    rcases Nat.lt_trichotomy (s.toNat / 4) g.val with below | same | above
    · simp [below, Nat.ne_of_lt below, Nat.lt_succ_of_lt below]
    · simp [same]
    · simp [Nat.ne_of_gt above, Nat.not_lt.mpr (Nat.le_of_lt above), Nat.not_lt.mpr above]

theorem eval_shift (s : Byte) (p : Word) :
    ∃ w : Word, (poolShift (Masked.const (s.setWidth 32) : Mw 0) (Masked.const p)).eval gateSem =
      Masked.const w ∧ byteAt w 0 = byteAt p (s.toNat % 4) := by
  have half (b : Nat) (low : b < 8) (q : Word) :
      q ^^^ (spreadBit (s.setWidth 32) b &&& (q ^^^ q >>> (8 <<< b))) =
        if s.getLsbD b then q >>> (8 <<< b) else q := by
    have bit : (s.setWidth 32).getLsbD b = s.getLsbD b := by
      simp
      omega
    rw [spreadBit_eq, bit]
    split
    · rw [BitVec.allOnes_and, xor_xor_cancel_left]
    · rw [BitVec.zero_and, BitVec.xor_zero]
  have step (b : Nat) (low : b < 8) (q : Word) :
      (do
        let t ← gateAnd (poolBitmask (Masked.const (s.setWidth 32) : Mw 0) b)
          (mpcXOR (Masked.const q) ((Masked.const q : Mw 0).map fun p : Word => p >>> (8 <<< b)))
        pure (mpcXOR (Masked.const q) t) : Circuit 0 (Mw 0)).eval gateSem =
        Masked.const (if s.getLsbD b then q >>> (8 <<< b) else q) := by
    rw [poolBitmask, clear_map, clear_map, clear_xor, eval_bind, eval_and, pure_eq, eval_ret,
      clear_xor, half b low]
  use (if s.getLsbD 0 then (if s.getLsbD 1 then p >>> 16 else p) >>> 8
    else if s.getLsbD 1 then p >>> 16 else p)
  constructor
  · rw [poolShift, eval_foldlM, List.foldl_cons, List.foldl_cons, List.foldl_nil, step 1 (by decide),
      step 0 (by decide)]
    rfl
  · have low : ∀ s : Byte, s.toNat % 4 = 2 * (s.getLsbD 1).toNat + (s.getLsbD 0).toNat := by
      decide +kernel
    have shifted (q : Word) (k : Nat) : byteAt (q >>> (8 * k)) 0 = byteAt q k := by
      rw [byteAt, byteAt, ← BitVec.shiftRight_add, Nat.mul_zero, Nat.add_zero]
    have both : byteAt (p >>> 16 >>> 8) 0 = byteAt p 3 := by
      rw [← BitVec.shiftRight_add]
      exact shifted p 3
    rw [low]
    cases s.getLsbD 1 with
    | false =>
      cases s.getLsbD 0 with
      | false => rfl
      | true => exact shifted p 1
    | true =>
      cases s.getLsbD 0 with
      | false => exact shifted p 2
      | true => exact both

/-- The leaf index of a witness. -/
def epochOf (d : Witness) : Word :=
  let bytes := slice d wLeafidxOff 4 leafidx_inside
  be32 fun i => bytes[i]

theorem putEpochBe_epochOf (d : Witness) :
    putEpochBe (epochOf d) = slice d wLeafidxOff 4 leafidx_inside := by
  apply Vector.ext
  intro k hk
  have place : 3 - k = (Fin.rev (⟨k, hk⟩ : Fin 4)).val := by
    simp [Fin.val_rev]
  rw [putEpochBe, Vector.getElem_ofFn, epochOf, be32]
  dsimp only
  rw [place, byteAt_le32, Fin.rev_rev]
  rfl

/-- The step of the selected chain. -/
theorem eval_chainHash (H : Blake3) (d : Witness) (pkSeed : PkSeed) (s : Byte) (w : Word)
    (words : Fin 4 → Word) :
    (poolChainHash (Masked.const d) pkSeed (Masked.const (s.setWidth 32) : Mw 0) (Masked.const w)
      (Vector.ofFn fun i => Masked.const (words i))).eval gateSem =
      Masked.const (xmssHashChainStep H.toHasher pkSeed (epochOf d)
        (xmssNodeStoreWords (Vector.ofFn words)) s (byteAt w 0)) := by
  have collected : Masked.collect (Vector.ofFn fun i => (Masked.const (words i) : Mw 0)) =
      Masked.const (Vector.ofFn words) := by
    apply clear_ext
    apply Vector.ext
    intro i hi
    simp
  have byte : byteAt (s.setWidth 32) 0 = s := by
    simp [byteAt]
  apply clear_ext
  rw [poolChainHash, collected, eval_mpcTh H (by decide)]
  simp only [clear_map, clear_map₂, Masked.const_h, byte, xmssHashChainStep, putEpochBe_epochOf]

theorem storeWords_loadWord (node : Node) :
    xmssNodeStoreWords (Vector.ofFn fun w => xmssNodeLoadWord node w) = node := by
  apply Vector.ext
  intro i hi
  have lane : i % 4 < 4 := Nat.mod_lt i (by decide)
  have byte := byteAt_le32 (fun j : Fin 4 => node[4 * (i / 4) + j.val]) ⟨i % 4, lane⟩
  simp only [Nat.div_add_mod] at byte
  simp only [xmssNodeStoreWords, storeWords, xmssNodeLoadWord, loadWord, Vector.getElem_ofFn]
  exact byte

/-- The nodes after a step. -/
def advance (s : Byte) (next : Node) (nodes : Fin xmssWotsLen → Node) (ci : Fin xmssWotsLen) : Node :=
  if ci.val = s.toNat then next else nodes ci

theorem eval_update (s : Byte) (next : Node) (nodes : Fin xmssWotsLen → Node) :
    (poolUpdate (clearMasks s)
      (Vector.ofFn fun w : Fin 4 => Masked.const (pick s fun ci => xmssNodeLoadWord (nodes ci) w))
      (Masked.const next) (clearNodes nodes)).eval gateSem = clearNodes (advance s next nodes) := by
  have word (ci : Fin xmssWotsLen) (w : Fin 4) : xmssNodeLoadWord (nodes ci) w ^^^
      (chainMask s ci &&& (pick s (fun ci => xmssNodeLoadWord (nodes ci) w) ^^^
        xmssNodeLoadWord next w)) = xmssNodeLoadWord (advance s next nodes ci) w := by
    rw [chainMask_and, advance]
    split
    next here =>
      have inside : s.toNat < xmssWotsLen := here ▸ ci.isLt
      have same : (⟨s.toNat, inside⟩ : Fin xmssWotsLen) = ci := Fin.ext here.symm
      rw [pick, dif_pos inside, same, xor_xor_cancel_left]
    next => exact BitVec.xor_zero
  simp only [poolUpdate, eval_bind, eval_collect, pure_eq, eval_ret, clearMasks, clearNodes,
    getElem_fin, Vector.getElem_ofFn, clear_map, clear_xor, eval_and, Fin.eta, word]

/-- A state without masks. -/
def clearPool (nodes : Fin xmssWotsLen → Node) (pos : Nat → Byte) (check : Word) : PoolState 0 :=
  ⟨clearNodes nodes, clearPositions pos, Masked.const check⟩

/-- The schedule byte of a step. -/
def scheduleByte (d : Witness) (step : Fin wScheduleLen) : Byte := d.get (schedulePosition step)

theorem eval_step (H : Blake3) (d : Witness) (pkSeed : PkSeed) (nodes : Fin xmssWotsLen → Node)
    {pos : Nat → Byte} (small : ∀ i, (pos i).toNat < 255) (check : Word) (step : Fin wScheduleLen) :
    (poolStep (Masked.const d) pkSeed (clearPool nodes pos check) step).eval gateSem =
      clearPool (fun ci => if ci.val = (scheduleByte d step).toNat then
          xmssHashChainStep H.toHasher pkSeed (epochOf d) (nodes ci) (scheduleByte d step) (pos ci + 1)
        else nodes ci)
        (countUp (scheduleByte d step) pos)
        (check ||| if (scheduleByte d step).toNat < xmssWotsLen then 0 else 1) := by
  have idx : scheduleIndex (Masked.const d : Masked 0 Witness) step =
      Masked.const ((scheduleByte d step).setWidth 32) := clear_map ..
  generalize scheduleByte d step = s at idx ⊢
  have low := eval_onehot s 0
  have high := eval_onehot s 1
  have masks : poolMasks #v[(Masked.const (oneHot s 0) : Mw 0),
      Masked.const (oneHot s 1 &&& 0x3ff)] = clearMasks s := masks_exact s
  obtain ⟨w, shifted, byte⟩ := eval_shift s
    (if s.toNat < xmssWotsLen then packedWord (countUp s pos) (s.toNat / 4) else 0)
  have hashed := eval_chainHash H d pkSeed s w fun w => pick s fun ci => xmssNodeLoadWord (nodes ci) w
  have poolLow : (poolOnehot (Masked.const (s.setWidth 32) : Mw 0) 0).eval gateSem =
      Masked.const (oneHot s 0) := low
  have poolHigh : (poolOnehot (Masked.const (s.setWidth 32) : Mw 0) 1).eval gateSem =
      Masked.const (oneHot s 1) := high
  simp only [poolStep, idx, eval_bind, clearPool, poolLow, poolHigh, clear_map, clear_xor,
    clear_xorPublic]
  rw [eval_orInto, invalid_exact, masks, eval_select, eval_count s small]
  dsimp only
  rw [shifted, hashed, eval_update]
  have next : advance s (xmssHashChainStep H.toHasher pkSeed (epochOf d)
      (xmssNodeStoreWords (Vector.ofFn fun w => pick s fun ci => xmssNodeLoadWord (nodes ci) w)) s
        (byteAt w 0)) nodes = fun ci => if ci.val = s.toNat then
      xmssHashChainStep H.toHasher pkSeed (epochOf d) (nodes ci) s (pos ci + 1) else nodes ci := by
    apply funext
    intro ci
    rw [advance]
    split
    next here =>
      have inside : s.toNat < xmssWotsLen := here ▸ ci.isLt
      have same : (⟨s.toNat, inside⟩ : Fin xmssWotsLen) = ci := Fin.ext here.symm
      have counted : byteAt w 0 = pos ci + 1 := by
        have lane : s.toNat % 4 < 4 := Nat.mod_lt _ (by decide)
        rw [byte, if_pos inside, packedWord, byteAt_le32 _ ⟨s.toNat % 4, lane⟩, Nat.div_add_mod,
          countUp, if_pos ⟨inside, rfl⟩, here]
      simp only [pick, dif_pos inside, same, counted, storeWords_loadWord]
    next => rfl
  rw [next]
  rfl

end Step

section Start

/-- The tip of a chain in a witness. -/
def chainTip (d : Witness) (ci : Fin xmssWotsLen) : Node :=
  slice d (wSigOff + ci * 16) 16 (by
    have := ci.isLt
    unfold xmssWotsLen at this
    unfold wSigOff wEnd
    omega)

/-- The coordinate of a chain, and zero behind the last one. -/
def startCoord (mh : Vector Byte 32) (i : Nat) : Byte :=
  if h : i < xmssWotsLen then (xmssExtractCoords mh).1[i] else 0

theorem coord_bits (mh : Vector Byte 32) (ci : Fin xmssWotsLen) {t : Nat} (low : t < 8) :
    (xmssExtractCoords mh).1[ci].getLsbD t = ((decide (t = 0) && hashBit mh (coordBit ci 0)) ^^
      (decide (t = 1) && hashBit mh (coordBit ci 1)) ^^
      (decide (t = 2) && hashBit mh (coordBit ci 2))) := by
  have bits : ∀ (a b c : Bool) (t : Fin 8), ((0 : Byte) ||| (BitVec.ofBool a).setWidth 8 <<< 0 |||
      (BitVec.ofBool b).setWidth 8 <<< 1 ||| (BitVec.ofBool c).setWidth 8 <<< 2).getLsbD t =
      ((decide (t.val = 0) && a) ^^ (decide (t.val = 1) && b) ^^ (decide (t.val = 2) && c)) := by
    decide
  have range : List.finRange xmssCoordResBits = [0, 1, 2] := rfl
  simp only [xmssExtractCoords, getElem_fin, Vector.getElem_ofFn, range, List.foldl_cons,
    List.foldl_nil]
  exact bits _ _ _ ⟨t, low⟩

/-- Three digest bits are written into a counter that is still clear. -/
theorem packedWord_coord (mh : Vector Byte 32) (ci : Fin xmssWotsLen) {pos : Nat → Byte}
    (unset : pos ci = 0) : packedWord pos (ci.val / 4) ^^^
        mhBit mh (coordBit ci 0) <<< (8 * (ci.val % 4) + 0) ^^^
        mhBit mh (coordBit ci 1) <<< (8 * (ci.val % 4) + 1) ^^^
        mhBit mh (coordBit ci 2) <<< (8 * (ci.val % 4) + 2) =
      packedWord (fun i => if i = ci.val then (xmssExtractCoords mh).1[ci] else pos i) (ci.val / 4) := by
  have digit (j : Fin 256) (k i : Nat) (hi : i < 32) :
      (mhBit mh j <<< k).getLsbD i = (decide (i = k) && hashBit mh j) := by
    rw [mhBit, bitAt_eq, BitVec.getLsbD_shiftLeft, getLsbD_boolWord, hashBit]
    by_cases here : i = k
    · simp [here]
      omega
    · by_cases below : i < k
      · simp [here, below]
      · simp [here, below]
        omega
  apply BitVec.eq_of_getLsbD_eq
  intro i hi
  simp only [BitVec.getLsbD_xor, digit _ _ i hi, packedWord, getLsbD_le32 _ i hi]
  by_cases lane : i / 8 = ci.val % 4
  · have here : 4 * (ci.val / 4) + i / 8 = ci.val := by omega
    have bit (b : Nat) (small : b < 8) : decide (i = 8 * (ci.val % 4) + b) = decide (i % 8 = b) := by
      rw [decide_eq_decide]
      omega
    rw [bit 0 (by decide), bit 1 (by decide), bit 2 (by decide), here, unset, if_pos rfl,
      coord_bits mh ci (Nat.mod_lt i (by decide)), show (0 : Byte).getLsbD (i % 8) = false from
        BitVec.getLsbD_zero, Bool.false_xor]
  · have elsewhere : 4 * (ci.val / 4) + i / 8 ≠ ci.val := by omega
    have apart (b : Nat) (small : b < 8) : decide (i = 8 * (ci.val % 4) + b) = false := by
      rw [decide_eq_false_iff_not]
      omega
    rw [apart 0 (by decide), apart 1 (by decide), apart 2 (by decide), if_neg elsewhere]
    simp

theorem initialPositions_exact (mh : Vector Byte 32) :
    initialPositions (Masked.const mh : Masked 0 (Vector Byte 32)) =
      clearPositions (startCoord mh) := by
  let after (m i : Nat) : Byte := if i < m then startCoord mh i else 0
  have start : (Vector.replicate poolGroups (mwConst 0) : Vector (Mw 0) poolGroups) =
      clearPositions (after 0) := by
    apply Vector.ext
    intro g hg
    have clear : packedWord (after 0) g = 0 := by
      simp only [after, packedWord, Nat.not_lt_zero, if_false]
      rfl
    rw [clearPositions, Vector.getElem_ofFn, Vector.getElem_replicate, clear]
    rfl
  have finish : after xmssWotsLen = startCoord mh := by
    apply funext
    intro i
    simp only [after, startCoord]
    split <;> rfl
  rw [initialPositions, start, ← finish]
  apply foldl_finRange (fun m => clearPositions (after m))
  intro ci
  have unset : after ci ci = 0 := if_neg (Nat.lt_irrefl _)
  have written := packedWord_coord mh ci unset
  have next : (fun i => if i = ci.val then (xmssExtractCoords mh).1[ci] else after ci i) =
      after (ci + 1) := by
    apply funext
    intro i
    rcases Nat.lt_trichotomy i ci.val with below | rfl | above
    · simp [after, below, Nat.ne_of_lt below, Nat.lt_succ_of_lt below]
    · simp [after, startCoord]
    · simp [after, Nat.ne_of_gt above, Nat.not_lt.mpr (Nat.le_of_lt above),
        Nat.not_lt.mpr (Nat.succ_le_of_lt above)]
  rw [next] at written
  have range : List.finRange xmssCoordResBits = [0, 1, 2] := rfl
  have entry : (clearPositions (after ci))[laneGroup ci] =
      Masked.const (packedWord (after ci) (ci.val / 4)) := by
    simp [clearPositions, laneGroup]
  simp only [range, List.foldl_cons, List.foldl_nil, clear_map, getElem_fin] at entry ⊢
  simp only [Vector.getElem_set_self, Vector.set_set, entry, clear_xor]
  apply Vector.ext
  intro g hg
  rw [Vector.getElem_set]
  split
  next here =>
    obtain rfl : ci.val / 4 = g := here
    rw [clearPositions, Vector.getElem_ofFn]
    exact congrArg Masked.const written
  next elsewhere =>
    have same : packedWord (after ci) g = packedWord (after (ci + 1)) g := by
      have group : ci.val / 4 ≠ g := elsewhere
      rw [packedWord, packedWord]
      congr 1
      apply funext
      intro lane
      have settled : 4 * g + lane.val < ci.val + 1 ↔ 4 * g + lane.val < ci.val := by omega
      simp only [after, settled]
    rw [clearPositions, clearPositions, Vector.getElem_ofFn, Vector.getElem_ofFn, same]

theorem initialPool_exact (d : Witness) (mh : Vector Byte 32) :
    initialPool (Masked.const d) (Masked.const mh) = clearPool (chainTip d) (startCoord mh) 0 := by
  have nodes : (initialPool (Masked.const d : Masked 0 Witness) (Masked.const mh)).nodes =
      clearNodes (chainTip d) := by
    apply Vector.ext
    intro ci hci
    apply Vector.ext
    intro w hw
    apply clear_ext
    simp only [initialPool, clearNodes, Vector.getElem_ofFn, clear_map, Masked.const_h,
      xmssNodeLoadWord, loadWord, chainTip, getElem_slice, Nat.add_assoc]
  rw [clearPool, ← nodes, ← initialPositions_exact]
  rfl

end Start

section Finish

/-- The counters that have arrived. -/
def arrived (i : Nat) : Byte := if i < xmssWotsLen then 7 else 0

theorem eval_finish (nodes : Fin xmssWotsLen → Node) (pos : Nat → Byte) (check : Word) :
    ∃ w : Word, (poolFinish (clearPool nodes pos check)).eval gateSem = Masked.const w ∧
      (w = 0 ↔ check = 0 ∧ ∀ g < poolGroups, packedWord pos g = packedWord arrived g) := by
  have lanes (g : Fin poolGroups) (x : Word) :
      (List.range 4).foldl (fun (p : Mw 0) lane => if 4 * g.val + lane < xmssWotsLen then
        p.xorPublic (BitVec.ofNat 32 xmssWotsMaxSteps <<< (8 * lane)) else p) (Masked.const x) =
      Masked.const (x ^^^ packedWord arrived g) := by
    have term (lane : Nat) (x : Word) : (if 4 * g.val + lane < xmssWotsLen then
        (Masked.const x : Mw 0).xorPublic (BitVec.ofNat 32 xmssWotsMaxSteps <<< (8 * lane))
          else Masked.const x) = Masked.const (x ^^^ if 4 * g.val + lane < xmssWotsLen then
            BitVec.ofNat 32 xmssWotsMaxSteps <<< (8 * lane) else 0) := by
      split
      · exact clear_xorPublic ..
      · exact congrArg Masked.const BitVec.xor_zero.symm
    have range : List.range 4 = [0, 1, 2, 3] := rfl
    have whole : ∀ g : Fin poolGroups, packedWord arrived g =
        ([0, 1, 2, 3] : List Nat).foldl (fun (x : Word) lane => x ^^^
          if 4 * g.val + lane < xmssWotsLen then BitVec.ofNat 32 xmssWotsMaxSteps <<< (8 * lane)
            else 0) 0 := by decide +kernel
    rw [whole, range]
    simp only [List.foldl_cons, List.foldl_nil, term, BitVec.xor_assoc, show (0 : Word) = 0#32 from rfl,
      BitVec.zero_xor]
  have entry (g : Fin poolGroups) : (clearPool nodes pos check).positions[g] =
      Masked.const (packedWord pos g) := by
    simp [clearPool, clearPositions]
  have folded (l : List (Fin poolGroups)) (c : Word) : ∃ w : Word,
      l.foldl (fun (acc : Mw 0) (g : Fin poolGroups) => (poolOrInto acc
        (Masked.const (packedWord pos g ^^^ packedWord arrived g))).eval gateSem) (Masked.const c) =
      Masked.const w ∧ (w = 0 ↔ c = 0 ∧ ∀ g ∈ l, packedWord pos g.val = packedWord arrived g.val) := by
    induction l generalizing c with
    | nil => exact ⟨c, rfl, by simp⟩
    | cons g l ih =>
      obtain ⟨w, value, zero⟩ := ih (c ||| (packedWord pos g ^^^ packedWord arrived g))
      refine ⟨w, ?_, ?_⟩
      · rw [List.foldl_cons, eval_orInto]
        exact value
      · rw [zero, show (0 : Word) = 0#32 from rfl, BitVec.or_eq_zero_iff, BitVec.xor_eq_zero_iff,
          List.forall_mem_cons, and_assoc]
  obtain ⟨w, value, zero⟩ := folded (List.finRange poolGroups) check
  refine ⟨w, ?_, zero.trans (and_congr_right fun _ => ?_)⟩
  · rw [poolFinish, eval_foldlM]
    simp only [entry, lanes]
    exact value
  · constructor
    · intro all g hg
      exact all ⟨g, hg⟩ (List.mem_finRange _)
    · intro all g _
      exact all g g.isLt

/-- Words of counters are equal when their counters are. -/
theorem packedWord_eq_arrived {pos : Nat → Byte} (none : ∀ i, xmssWotsLen ≤ i → pos i = 0) :
    (∀ g < poolGroups, packedWord pos g = packedWord arrived g) ↔ ∀ ci < xmssWotsLen, pos ci = 7 := by
  constructor
  · intro same ci inside
    have lane : ci % 4 < 4 := Nat.mod_lt _ (by decide)
    have group : ci / 4 < poolGroups := by
      simp only [xmssWotsLen, poolGroups] at inside ⊢
      omega
    have bytes := congrArg (byteAt · (ci % 4)) (same (ci / 4) group)
    dsimp only [packedWord] at bytes
    rw [byteAt_le32 _ ⟨ci % 4, lane⟩, byteAt_le32 _ ⟨ci % 4, lane⟩, Nat.div_add_mod] at bytes
    rw [bytes, arrived, if_pos inside]
  · intro all g _
    rw [packedWord, packedWord]
    congr 1
    apply funext
    intro lane
    rw [arrived]
    split
    next inside => exact all _ inside
    next outside => exact none _ (Nat.not_lt.mp outside)

end Finish

section Run

theorem take_finRange_succ {n k : Nat} (inside : k < n) :
    (List.finRange n).take (k + 1) = (List.finRange n).take k ++ [⟨k, inside⟩] := by
  have length : k < (List.finRange n).length := by simpa using inside
  rw [List.take_succ_eq_append_getElem length, List.getElem_finRange]
  rfl

theorem foldl_take_finRange {σ : Type} {n k : Nat} {f : σ → Fin n → σ} (s : Nat → σ)
    (step : ∀ i : Fin n, f (s i) i = s (i + 1)) (inside : k ≤ n) :
    ((List.finRange n).take k).foldl f (s 0) = s k := by
  induction k with
  | zero => rfl
  | succ k ih =>
    rw [take_finRange_succ inside, List.foldl_append, ih (Nat.le_of_succ_le inside), List.foldl_cons,
      List.foldl_nil]
    exact step ⟨k, inside⟩

variable (H : Blake3) (d : Witness) (pkSeed : PkSeed) (mh : Vector Byte 32)

/-- How often the first `k` steps of the schedule take a chain. -/
def usedSteps (ci k : Nat) : Nat :=
  ((List.finRange wScheduleLen).take k).countP fun step => (scheduleByte d step).toNat = ci

def counterAfter (k i : Nat) : Byte :=
  if i < xmssWotsLen then startCoord mh i + BitVec.ofNat 8 (usedSteps d i k) else 0

/-- A chain after `m` of its steps, from its coordinate on. -/
def chainNode (ci : Fin xmssWotsLen) (m : Nat) : Node :=
  (List.range m).foldl (fun cur i => xmssHashChainStep H.toHasher pkSeed (epochOf d) cur
    (BitVec.ofNat 8 ci) (startCoord mh ci + BitVec.ofNat 8 i + 1)) (chainTip d ci)

/-- The state after `k` steps. -/
def poolAfter (k : Nat) : PoolState 0 :=
  clearPool (fun ci => chainNode H d pkSeed mh ci (usedSteps d ci k)) (counterAfter d mh k)
    (if ∀ step : Fin wScheduleLen, step.val < k → (scheduleByte d step).toNat < xmssWotsLen then 0
      else 1)

variable {d mh}

theorem usedSteps_zero (ci : Nat) : usedSteps d ci 0 = 0 := rfl

theorem usedSteps_succ (ci : Nat) (step : Fin wScheduleLen) : usedSteps d ci (step + 1) =
    usedSteps d ci step + if (scheduleByte d step).toNat = ci then 1 else 0 := by
  rw [usedSteps, take_finRange_succ step.isLt, List.countP_append, usedSteps]
  congr 1
  rw [List.countP_singleton]
  simp

theorem usedSteps_le (ci k : Nat) : usedSteps d ci k ≤ k :=
  Nat.le_trans List.countP_le_length (by simp)

theorem startCoord_le (i : Nat) : (startCoord mh i).toNat ≤ xmssWotsMaxSteps := by
  rw [startCoord]
  split
  next inside => exact coord_le mh ⟨i, inside⟩
  next => exact Nat.zero_le _

theorem startCoord_chain (ci : Fin xmssWotsLen) :
    startCoord mh ci = (xmssExtractCoords mh).1[ci] := dif_pos ci.isLt

/-- The counters of the chains, as numbers: none of them wraps around. -/
theorem counterAfter_toNat {ci k : Nat} (chain : ci < xmssWotsLen) (inside : k ≤ wScheduleLen) :
    (counterAfter d mh k ci).toNat = (startCoord mh ci).toNat + usedSteps d ci k := by
  have start : (startCoord mh ci).toNat ≤ xmssWotsMaxSteps := startCoord_le ci
  have used := Nat.le_trans (usedSteps_le (d := d) ci k) inside
  simp only [xmssWotsMaxSteps, wScheduleLen, xmssWotsLen, xmssTargetSum] at start used
  rw [counterAfter, if_pos chain, BitVec.toNat_add, BitVec.toNat_ofNat]
  omega

theorem counterAfter_small {k : Nat} (inside : k ≤ wScheduleLen) (i : Nat) :
    (counterAfter d mh k i).toNat < 255 := by
  rcases Nat.lt_or_ge i xmssWotsLen with chain | none
  · have start : (startCoord mh i).toNat ≤ xmssWotsMaxSteps := startCoord_le i
    have used := Nat.le_trans (usedSteps_le (d := d) i k) inside
    rw [counterAfter_toNat chain inside]
    simp only [xmssWotsMaxSteps, wScheduleLen, xmssWotsLen, xmssTargetSum] at start used
    omega
  · rw [counterAfter, if_neg (Nat.not_lt.mpr none)]
    decide

theorem poolAfter_zero : initialPool (Masked.const d) (Masked.const mh) =
    poolAfter H d pkSeed mh 0 := by
  have counters : counterAfter d mh 0 = startCoord mh := by
    apply funext
    intro i
    rw [counterAfter, usedSteps_zero]
    split
    · exact BitVec.add_zero _
    next none => rw [startCoord, dif_neg none]
  rw [initialPool_exact, poolAfter, counters]
  simp [chainNode, usedSteps_zero]

theorem chainNode_succ (ci : Fin xmssWotsLen) (m : Nat) : chainNode H d pkSeed mh ci (m + 1) =
    xmssHashChainStep H.toHasher pkSeed (epochOf d) (chainNode H d pkSeed mh ci m) (BitVec.ofNat 8 ci)
      (startCoord mh ci + BitVec.ofNat 8 m + 1) := by
  rw [chainNode, List.range_succ, List.foldl_append, List.foldl_cons, List.foldl_nil, chainNode]

theorem counterAfter_succ (step : Fin wScheduleLen) :
    countUp (scheduleByte d step) (counterAfter d mh step) = counterAfter d mh (step + 1) := by
  apply funext
  intro i
  rw [countUp, counterAfter, counterAfter, usedSteps_succ]
  by_cases chain : i < xmssWotsLen
  · by_cases taken : (scheduleByte d step).toNat = i
    · rw [if_pos chain, if_pos chain, if_pos taken, if_pos ⟨taken ▸ chain, taken.symm⟩,
        BitVec.ofNat_add, BitVec.add_assoc]
      rfl
    · rw [if_pos chain, if_pos chain, if_neg taken, if_neg fun both => taken both.2.symm, Nat.add_zero]
  · rw [if_neg chain, if_neg chain, if_neg]
    rintro ⟨inside, rfl⟩
    exact chain inside

theorem poolAfter_succ (step : Fin wScheduleLen) :
    (poolStep (Masked.const d) pkSeed (poolAfter H d pkSeed mh step) step).eval gateSem =
      poolAfter H d pkSeed mh (step + 1) := by
  have nodes : (fun ci : Fin xmssWotsLen => if ci.val = (scheduleByte d step).toNat then
      xmssHashChainStep H.toHasher pkSeed (epochOf d)
        (chainNode H d pkSeed mh ci (usedSteps d ci step)) (scheduleByte d step)
        (counterAfter d mh step ci + 1)
      else chainNode H d pkSeed mh ci (usedSteps d ci step)) =
      fun ci => chainNode H d pkSeed mh ci (usedSteps d ci (step + 1)) := by
    apply funext
    intro ci
    rw [usedSteps_succ]
    by_cases taken : ci.val = (scheduleByte d step).toNat
    · have byte : BitVec.ofNat 8 ci = scheduleByte d step := by
        rw [taken, BitVec.ofNat_toNat, BitVec.setWidth_eq]
      rw [if_pos taken, if_pos taken.symm, chainNode_succ, byte, counterAfter, if_pos ci.isLt]
    · rw [if_neg taken, if_neg (Ne.symm taken), Nat.add_zero]
  have valid : (∀ i : Fin wScheduleLen, i.val < step + 1 → (scheduleByte d i).toNat < xmssWotsLen) ↔
      (∀ i : Fin wScheduleLen, i.val < step → (scheduleByte d i).toNat < xmssWotsLen) ∧
        (scheduleByte d step).toNat < xmssWotsLen := by
    constructor
    · intro all
      exact ⟨fun i earlier => all i (Nat.lt_succ_of_lt earlier), all step (Nat.lt_succ_self _)⟩
    · rintro ⟨earlier, last⟩ i inside
      rcases Nat.eq_or_lt_of_le (Nat.le_of_lt_succ inside) with same | before
      · exact Fin.ext same ▸ last
      · exact earlier i before
  have check (A B : Prop) [Decidable A] [Decidable B] :
      ((if A then 0 else 1) ||| (if B then 0 else 1) : Word) = if A ∧ B then 0 else 1 := by
    by_cases a : A <;> by_cases b : B <;> simp [a, b]
  rw [poolAfter, eval_step H d pkSeed _ (counterAfter_small (Nat.le_of_lt step.isLt)), nodes,
    counterAfter_succ, check, poolAfter]
  simp only [valid]

variable (d mh) in
/-- The state after the first `k` steps, whatever the order they take the chains in. -/
theorem poolAfter_run {k : Nat} (inside : k ≤ wScheduleLen) :
    ((((List.finRange wScheduleLen).take k).foldlM (poolStep (Masked.const d) pkSeed)
      (initialPool (Masked.const d) (Masked.const mh))) : Circuit 0 (PoolState 0)).eval gateSem =
        poolAfter H d pkSeed mh k := by
  rw [eval_foldlM, poolAfter_zero H pkSeed]
  exact foldl_take_finRange (poolAfter H d pkSeed mh) (poolAfter_succ H pkSeed) inside

theorem stored_clearNodes (nodes : Fin xmssWotsLen → Node) :
    (Masked.collect ((clearNodes nodes).map fun node =>
      (Masked.collect node).map xmssNodeStoreWords)).map join =
        Masked.const (join (Vector.ofFn nodes)) := by
  have stored : (Masked.collect ((clearNodes nodes).map fun node =>
      (Masked.collect node).map xmssNodeStoreWords)).h = Vector.ofFn nodes := by
    apply Vector.ext
    intro ci hci
    have words : (Vector.ofFn fun w : Fin 4 =>
        (Masked.const (xmssNodeLoadWord (nodes ⟨ci, hci⟩) w) : Mw 0)).map Masked.h =
        Vector.ofFn fun w => xmssNodeLoadWord (nodes ⟨ci, hci⟩) w := by
      apply Vector.ext
      intro w hw
      simp
    rw [Masked.collect_h, Vector.getElem_map, Vector.getElem_map, Masked.map_h, Masked.collect_h,
      clearNodes, Vector.getElem_ofFn, words, storeWords_loadWord, Vector.getElem_ofFn]
  apply clear_ext
  rw [Masked.map_h, stored, Masked.const_h]

variable (d mh) in
/-- The unmasked result: the end of every chain, and a word that is zero for the schedules that
take every chain to its end. -/
theorem eval_poolChains :
    ∃ w : Word, (poolChains (Masked.const d) pkSeed (Masked.const mh)).eval gateSem =
        (Masked.const (join (Vector.ofFn fun ci : Fin xmssWotsLen =>
          chainNode H d pkSeed mh ci (usedSteps d ci wScheduleLen))), Masked.const w) ∧
      (w = 0 ↔ (∀ step, (scheduleByte d step).toNat < xmssWotsLen) ∧
        ∀ ci < xmssWotsLen, (startCoord mh ci).toNat + usedSteps d ci wScheduleLen =
          xmssWotsMaxSteps) := by
  have whole : (List.finRange wScheduleLen).take wScheduleLen = List.finRange wScheduleLen :=
    List.take_of_length_le (by simp)
  have run := poolAfter_run H d pkSeed mh (Nat.le_refl wScheduleLen)
  rw [whole] at run
  obtain ⟨w, value, zero⟩ := eval_finish (fun ci => chainNode H d pkSeed mh ci (usedSteps d ci wScheduleLen))
    (counterAfter d mh wScheduleLen) (if ∀ step : Fin wScheduleLen, step.val < wScheduleLen →
      (scheduleByte d step).toNat < xmssWotsLen then 0 else 1)
  use w
  constructor
  · rw [poolChains, eval_bind, run, eval_bind, poolAfter, value, pure_eq, eval_ret]
    exact congrArg (·, Masked.const w) (stored_clearNodes _)
  · have behind (i : Nat) (none : xmssWotsLen ≤ i) : counterAfter d mh wScheduleLen i = 0 :=
      if_neg (Nat.not_lt.mpr none)
    have valid : (if ∀ step : Fin wScheduleLen, step.val < wScheduleLen →
        (scheduleByte d step).toNat < xmssWotsLen then (0 : Word) else 1) = 0 ↔
        ∀ step, (scheduleByte d step).toNat < xmssWotsLen := by
      rw [ite_eq_left_iff]
      constructor
      · intro all step
        by_contra invalid
        exact absurd (all fun allowed => invalid (allowed step step.isLt)) (by decide)
      · intro all invalid
        exact absurd (fun step _ => all step) invalid
    rw [zero, valid, packedWord_eq_arrived behind]
    apply and_congr_right
    intro _
    apply forall_congr'
    intro ci
    apply forall_congr'
    intro chain
    rw [← counterAfter_toNat chain (Nat.le_refl wScheduleLen), BitVec.toNat_eq]
    rfl

variable (d mh) in
/-- A chain from its coordinate to its end is the native one. -/
theorem chainNode_end (ci : Fin xmssWotsLen) : chainNode H d pkSeed mh ci
      (xmssWotsMaxSteps - (startCoord mh ci).toNat) =
    xmssHashChainMulti H.toHasher pkSeed (epochOf d) (chainTip d ci) (BitVec.ofNat 8 ci)
      (xmssExtractCoords mh).1[ci] (7 - (xmssExtractCoords mh).1[ci]) := by
  have left : ∀ c : Byte, c.toNat ≤ 7 → (7 - c).toNat = 7 - c.toNat := by decide
  have coord : startCoord mh ci = (xmssExtractCoords mh).1[ci] := startCoord_chain ci
  have few : (startCoord mh ci).toNat ≤ xmssWotsMaxSteps := startCoord_le ci
  rw [coord] at few
  rw [xmssHashChainMulti, XmssHashes.hashChainMulti, Chains.hashChainMulti, left _ few, chainNode,
    coord]
  rfl

theorem steps_left {c u m : Nat} (few : c ≤ m) : c + u = m ↔ u = m - c := by omega

section Unmasked

variable {n : Nat} (tapes : Vector Tape (n + 1)) (g : Nat) (d : Masked (n + 1) Witness)
  (mh : Masked (n + 1) (Vector Byte 32))

theorem behind_mask {A : Type} [XorGroup A] (x : Masked (n + 1) A) :
    (MaskRel.unmasking (n + 1) 0).rel x (Masked.const x.plain) := (Masked.plain_const x.plain).symm

include H in
/-- Behind the masks of a run up to a step stands the state after it. -/
theorem unmasked_positions {k : Nat} (inside : k ≤ wScheduleLen) (group : Fin poolGroups) :
    ((((List.finRange wScheduleLen).take k).foldlM (poolStep d pkSeed)
      (initialPool d mh)).run (proverStep tapes) g).1.positions[group].plain =
        packedWord (counterAfter d.plain mh.plain k) group := by
  have known := (MaskRel.unmasking (n + 1) 0).const pkSeed
  have sim := Sim.foldlM ((List.finRange wScheduleLen).take k)
    (fun step _ s s' hs => poolStep_sim (MaskRel.unmasking (n + 1) 0) (behind_mask d) known hs step)
    (initialPool_rel _ (behind_mask d) (behind_mask mh))
  obtain ⟨state, -⟩ := unmasked_run tapes g sim
  rw [poolAfter_run H _ pkSeed _ inside] at state
  have word := state.positions group group.isLt
  rw [poolAfter, clearPool, clearPositions, Vector.getElem_ofFn] at word
  exact word.trans (Masked.plain_const _)

theorem unmasked_poolChains :
    ∃ w : Word, ((poolChains d pkSeed mh).run (proverStep tapes) g).1.1.plain =
        join (Vector.ofFn fun ci : Fin xmssWotsLen =>
          chainNode H d.plain pkSeed mh.plain ci (usedSteps d.plain ci wScheduleLen)) ∧
      ((poolChains d pkSeed mh).run (proverStep tapes) g).1.2.plain = w ∧
      (w = 0 ↔ (∀ step, (scheduleByte d.plain step).toNat < xmssWotsLen) ∧
        ∀ ci < xmssWotsLen, (startCoord mh.plain ci).toNat + usedSteps d.plain ci wScheduleLen =
          xmssWotsMaxSteps) := by
  have known := (MaskRel.unmasking (n + 1) 0).const pkSeed
  obtain ⟨w, clear, zero⟩ := eval_poolChains H d.plain pkSeed mh.plain
  obtain ⟨⟨ends, check⟩, -⟩ := unmasked_run tapes g
    (poolChains_sim (MaskRel.unmasking (n + 1) 0) (behind_mask d) known (behind_mask mh))
  rw [clear] at ends check
  exact ⟨w, ends.trans (Masked.plain_const _), check.trans (Masked.plain_const _), zero⟩

/-- On any masks and tapes the unmasked counters count without carries, the unmasked check word is
zero exactly for the schedules that name chains only and each of them as often as it has steps
left, and then the unmasked ends are those of the native chains. -/
theorem pooled_chains_exact :
    let coord (ci : Fin xmssWotsLen) : Byte := (xmssExtractCoords mh.plain).1[ci]
    let scheduled := (∀ step, (scheduleByte d.plain step).toNat < xmssWotsLen) ∧
      ∀ ci : Fin xmssWotsLen, usedSteps d.plain ci wScheduleLen =
        xmssWotsMaxSteps - (coord ci).toNat
    (((poolChains d pkSeed mh).run (proverStep tapes) g).1.2.plain = 0 ↔ scheduled) ∧
    (scheduled → ((poolChains d pkSeed mh).run (proverStep tapes) g).1.1.plain =
      join (Vector.ofFn fun ci : Fin xmssWotsLen =>
        xmssHashChainMulti H.toHasher pkSeed (epochOf d.plain) (chainTip d.plain ci)
          (BitVec.ofNat 8 ci) (coord ci) (7 - coord ci))) ∧
    ∀ k ≤ wScheduleLen, ∀ ci : Fin xmssWotsLen,
      (byteAt ((((List.finRange wScheduleLen).take k).foldlM (poolStep d pkSeed)
        (initialPool d mh)).run (proverStep tapes) g).1.positions[laneGroup ci].plain
          (ci.val % 4)).toNat = (coord ci).toNat + usedSteps d.plain ci k := by
  intro coord scheduled
  have start (ci : Fin xmssWotsLen) : startCoord mh.plain ci = coord ci := startCoord_chain ci
  obtain ⟨w, ends, check, zero⟩ := unmasked_poolChains H pkSeed tapes g d mh
  refine ⟨?_, ?_, ?_⟩
  · rw [check, zero]
    apply and_congr_right
    intro _
    constructor
    · intro complete ci
      have whole := complete ci ci.isLt
      rw [start] at whole
      exact (steps_left (coord_le mh.plain ci)).mp whole
    · intro used ci chain
      rw [start ⟨ci, chain⟩]
      exact (steps_left (coord_le mh.plain ⟨ci, chain⟩)).mpr (used ⟨ci, chain⟩)
  · rintro ⟨-, used⟩
    have nodes (ci : Fin xmssWotsLen) : chainNode H d.plain pkSeed mh.plain ci
        (usedSteps d.plain ci wScheduleLen) = xmssHashChainMulti H.toHasher pkSeed (epochOf d.plain)
          (chainTip d.plain ci) (BitVec.ofNat 8 ci) (coord ci) (7 - coord ci) := by
      have last := chainNode_end H d.plain pkSeed mh.plain ci
      rw [start] at last
      rw [used ci]
      exact last
    rw [ends]
    simp only [nodes]
  · intro k inside ci
    have lane : ci.val % 4 < 4 := Nat.mod_lt _ (by decide)
    have group : (laneGroup ci).val = ci.val / 4 := rfl
    rw [unmasked_positions H pkSeed tapes g d mh inside, packedWord, group,
      byteAt_le32 _ ⟨ci.val % 4, lane⟩, Nat.div_add_mod, counterAfter_toNat ci.isLt inside, start]

end Unmasked

end Run

end BlindSig.Kkw
