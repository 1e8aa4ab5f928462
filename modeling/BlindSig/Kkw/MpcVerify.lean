import BlindSig.Kkw.MpcProve

/-! The verifier's two gates. Party `e` is hidden: its broadcast is read from the proof, the
other parties' broadcasts are recomputed, and so is the public word. The carries of an
addition are rebuilt bit by bit, each from the broadcasts one bit below. -/
namespace BlindSig.Kkw

open XorGroup

/-- The party in slot `j` when party `e` is left out. -/
def orig {n : Nat} (j : Fin n) (e : Fin (n + 1)) : Fin (n + 1) :=
  if j.val < e.val then j.castSucc else j.succ

theorem orig_eq {n : Nat} (j : Fin n) (e : Fin (n + 1)) : orig j e = e.succAbove j := rfl

/-- `words[g]`. -/
def wordAt {k : Nat} (words : Vector Word k) (g : Nat) : Word := words[g]?.getD 0

section Gates

variable {n : Nat}

/-- `mpc_AND_verify` on the hidden broadcast `me`, the correction `corr` and the tape words. -/
def andGateVerify (e : Fin (n + 1)) (me corr : Word) (x y : Mw n) (lz t : Fin n → Word) :
    Mw n × Vector Word n :=
  let s := fun j : Fin n =>
    let s := x.h &&& y.l j ^^^ y.h &&& x.l j ^^^ t j ^^^ lz j
    if (orig j e).val = 0 then s ^^^ (x.h &&& y.h ^^^ corr) else s
  (Masked.of (me ^^^ xorAll s) lz, Vector.ofFn s)

/-- The sums that the rebuilt carries are made of. -/
structure CarrySums where
  (lp lq t lr corr me has0 : Word)

/-- Bit `b` of all broadcasts, summed, given the carries below. -/
def carryBit (sums : CarrySums) (xh yh ch : Word) (b : Nat) : Word :=
  let pb := bitAt (xh ^^^ ch) b
  let qb := bitAt (yh ^^^ ch) b
  let srev := pb &&& bitAt sums.lq b ^^^ qb &&& bitAt sums.lp b ^^^ bitAt sums.t b ^^^
    bitAt sums.lr b ^^^ sums.has0 &&& (pb &&& qb ^^^ bitAt sums.corr b)
  bitAt sums.me b ^^^ srev

def carryStep (sums : CarrySums) (xh yh ch : Word) (b : Nat) : Word :=
  ch ||| (bitAt ch b ^^^ carryBit sums xh yh ch b) <<< (b + 1)

def rebuildCarry (sums : CarrySums) (xh yh : Word) : Word :=
  (List.range 31).foldl (carryStep sums xh yh) 0

/-- `mpc_ADD_verify` on the hidden broadcast, the correction and the tape words. -/
def addGateVerify (e : Fin (n + 1)) (me corr : Word) (x y : Mw n) (lr t : Fin n → Word) :
    Mw n × Vector Word n :=
  let lc := fun j : Fin n => prefixXorShift (lr j)
  let lp := fun j : Fin n => x.l j ^^^ lc j
  let lq := fun j : Fin n => y.l j ^^^ lc j
  let sums : CarrySums :=
    { lp := xorAll lp, lq := xorAll lq, t := xorAll t, lr := xorAll lr, corr := corr, me := me,
      has0 := boolWord (e.val ≠ 0) }
  let ch := rebuildCarry sums x.h y.h
  let ph := x.h ^^^ ch
  let qh := y.h ^^^ ch
  let s := fun j : Fin n =>
    let s := ph &&& lq j ^^^ qh &&& lp j ^^^ t j ^^^ lr j
    if (orig j e).val = 0 then s ^^^ (ph &&& qh ^^^ corr) else s
  (Masked.of (x.h ^^^ y.h ^^^ ch) (fun j => x.l j ^^^ y.l j ^^^ lc j), Vector.ofFn s)

variable (tapes : Vector Tape n) (e : Fin (n + 1)) (msgsE aux : Vector Word ySize)

def mpcANDVerify (g : Nat) (x y : Mw n) : Mw n × Vector Word n :=
  andGateVerify e (wordAt msgsE g) (wordAt aux g) x y (fun j => tapeLam tapes[j] g)
    (fun j => tapeProd tapes[j] g)

def mpcADDVerify (g : Nat) (x y : Mw n) : Mw n × Vector Word n :=
  addGateVerify e (wordAt msgsE g) (wordAt aux g) x y (fun j => tapeLam tapes[j] g)
    (fun j => tapeProd tapes[j] g)

/-- The verifier's gates, by index. -/
def verifierStep (g : Nat) : Gate → Mw n → Mw n → Mw n × Vector Word n
  | .and, x, y => mpcANDVerify tapes e msgsE aux g x y
  | .add, x, y => mpcADDVerify tapes e msgsE aux g x y

end Gates

section Carry

variable (sums : CarrySums) (xh yh : Word)

/-- `carryBit` as a truth value. -/
def carryBool (ch : Word) (b : Nat) : Bool :=
  let pb := (xh ^^^ ch).getLsbD b
  let qb := (yh ^^^ ch).getLsbD b
  sums.me.getLsbD b ^^ ((pb && sums.lq.getLsbD b) ^^ (qb && sums.lp.getLsbD b) ^^
    sums.t.getLsbD b ^^ sums.lr.getLsbD b ^^
    (sums.has0.getLsbD 0 && ((pb && qb) ^^ sums.corr.getLsbD b)))

theorem carryBit_eq (ch : Word) (b : Nat) :
    carryBit sums xh yh ch b = boolWord (carryBool sums xh yh ch b) := by
  simp only [carryBit, carryBool, bitAt_eq, boolWord_xor, and_boolWord, getLsbD_boolWord,
    decide_true, Bool.true_and]

theorem carryStep_bit (ch : Word) (b i : Nat) (hi : i < 32) :
    (carryStep sums xh yh ch b).getLsbD i = (ch.getLsbD i ||
      (decide (i = b + 1) && (ch.getLsbD b ^^ carryBool sums xh yh ch b))) := by
  simp only [carryStep, carryBit_eq, bitAt_eq, boolWord_xor, BitVec.getLsbD_or,
    BitVec.getLsbD_shiftLeft, getLsbD_boolWord, hi]
  rcases Nat.lt_trichotomy i (b + 1) with below | rfl | above
  · simp [below, Nat.ne_of_lt below]
  · simp
  · have : i - (b + 1) ≠ 0 := by omega
    simp [this, Nat.ne_of_gt above]

/-- After the bits below `m` the rebuilt word has no bit above `m`, and satisfies the carry
recurrence up to `m`. -/
theorem rebuildCarry_upTo (m : Nat) (hm : m ≤ 31) :
    let ch := (List.range m).foldl (carryStep sums xh yh) 0
    (∀ i, m < i → ch.getLsbD i = false) ∧ ch.getLsbD 0 = false ∧
      ∀ b, b < m → ch.getLsbD (b + 1) = (ch.getLsbD b ^^ carryBool sums xh yh ch b) := by
  induction m with
  | zero => simp
  | succ m ih =>
    obtain ⟨above, zero, recurrence⟩ := ih (by omega)
    simp only [List.range_succ, List.foldl_append, List.foldl_cons, List.foldl_nil]
    generalize (List.range m).foldl (carryStep sums xh yh) 0 = ch at above zero recurrence
    have kept : ∀ i, i ≤ m → (carryStep sums xh yh ch m).getLsbD i = ch.getLsbD i := by
      intro i hi
      rw [carryStep_bit sums xh yh ch m i (by omega)]
      simp [show i ≠ m + 1 by omega]
    have localBit : ∀ b, b ≤ m →
        carryBool sums xh yh (carryStep sums xh yh ch m) b = carryBool sums xh yh ch b := by
      intro b hb
      simp only [carryBool, BitVec.getLsbD_xor, kept b hb]
    refine ⟨fun i hi => ?_, ?_, fun b hb => ?_⟩
    · rcases Nat.lt_or_ge i 32 with inside | outside
      · rw [carryStep_bit sums xh yh ch m i inside, above i (by omega)]
        simp [show i ≠ m + 1 by omega]
      · exact BitVec.getLsbD_of_ge _ _ outside
    · rw [kept 0 (by omega), zero]
    · rcases Nat.lt_succ_iff_lt_or_eq.mp hb with earlier | rfl
      · rw [kept b (by omega), kept (b + 1) (by omega), localBit b (by omega), recurrence b earlier]
      · rw [localBit b (by omega), kept b (by omega), carryStep_bit sums xh yh ch b (b + 1) (by omega),
          above (b + 1) (by omega)]
        simp

theorem rebuildCarry_zero : (rebuildCarry sums xh yh).getLsbD 0 = false :=
  (rebuildCarry_upTo sums xh yh 31 (by omega)).2.1

theorem rebuildCarry_succ {b : Nat} (hb : b < 31) :
    (rebuildCarry sums xh yh).getLsbD (b + 1) = ((rebuildCarry sums xh yh).getLsbD b ^^
      carryBool sums xh yh (rebuildCarry sums xh yh) b) :=
  (rebuildCarry_upTo sums xh yh 31 (by omega)).2.2 b hb

end Carry

section Broadcasts

variable {n : Nat}

/-- A term that party 0 adds is in the sum of the others unless party 0 is hidden. -/
theorem xorAll_orig (e : Fin (n + 1)) (f : Fin n → Word) (c : Word) :
    xorAll (fun j => if (orig j e).val = 0 then f j ^^^ c else f j) =
      xorAll f ^^^ (if e.val = 0 then 0 else c) := by
  have zeroIff (i : Fin (n + 1)) : i.val = 0 ↔ i = 0 := by
    rw [Fin.ext_iff, Fin.val_zero]
  have split (j : Fin n) : (if (orig j e).val = 0 then f j ^^^ c else f j) =
      f j ^^^ (if e.succAbove j = 0 then c else zeros) := by
    simp only [orig_eq, zeroIff]
    split <;> simp
  have whole := xorAll_single (fun _ : Fin (n + 1) => (zeros : Word)) 0 c
  have others := xorAll_succAbove (fun i : Fin (n + 1) => if i = 0 then c else zeros) e
  simp only [zeros_xor, xorAll_zeros] at whole
  rw [whole] at others
  rw [funext split, xorAll_xor, if_congr (zeroIff e) rfl rfl]
  congr 1
  by_cases hidden : e = 0
  · rw [if_pos hidden] at others ⊢
    rw [← xor_xor_cancel_left c (xorAll _), ← others, xor_self', zeros_bitVec]
    rfl
  · rw [if_neg hidden, zeros_xor] at others
    rw [if_neg hidden, ← others]

/-- What there is to say about the verifier's addition, in the prover's terms. -/
theorem addGateVerify_broadcasts (e : Fin (n + 1)) (me corr : Word) (x y : Mw n)
    (r t : Fin n → Word) : ∃ ch : Word,
    ch = prefixXorShift (me ^^^ xorAll fun j : Fin n => (addGateVerify e me corr x y r t).2[j]) ∧
    (addGateVerify e me corr x y r t).1.h = x.h ^^^ y.h ^^^ ch ∧
    ∀ j : Fin n, (addGateVerify e me corr x y r t).2[j] =
      broadcast (x.h ^^^ ch) (y.h ^^^ ch) (x.l j ^^^ prefixXorShift (r j)) (y.l j ^^^ prefixXorShift (r j))
        (t j) (r j) corr ((orig j e).val = 0) := by
  refine ⟨_, ?_, rfl, fun j => by simp [addGateVerify, broadcast]⟩
  apply eq_prefixXorShift
  · exact rebuildCarry_zero ..
  · intro b hb
    rw [rebuildCarry_succ _ _ _ hb]
    congr 1
    simp only [addGateVerify, getElem_fin, Vector.getElem_ofFn, xorAll_orig, xorAll_xor, xorAll_and,
      carryBool, BitVec.getLsbD_xor, BitVec.getLsbD_and, getLsbD_boolWord, decide_true,
      Bool.true_and]
    congr 2
    by_cases hidden : e.val = 0 <;> simp [hidden]

end Broadcasts

section View

variable {n : Nat} {e : Fin (n + 1)} {x y : Mw (n + 1)} {x' y' : Mw n} {corr : Word}

/-- The slots of the verifier are the other parties' broadcasts. -/
def SlotsAgree (e : Fin (n + 1)) (s : Fin (n + 1) → Word) (slots : Vector Word n) : Prop :=
  ∀ j : Fin n, slots[j] = s (e.succAbove j)

theorem xorAll_slots {s : Fin (n + 1) → Word} {slots : Vector Word n} (agree : SlotsAgree e s slots) :
    s e ^^^ xorAll (fun j : Fin n => slots[j]) = xorAll s := by
  rw [xorAll_succAbove s e]
  exact congrArg (s e ^^^ xorAll ·) (funext agree)

/-- Party 0 is among the others only if it is not the hidden one. -/
theorem seen_of_first {j : Fin n} (first : (e.succAbove j).val = 0) : e ≠ 0 := by
  rintro rfl
  exact absurd first (by simp)

theorem andGateVerify_broadcasts (e : Fin (n + 1)) (me corr : Word) (x y : Mw n)
    (r t : Fin n → Word) (j : Fin n) : (andGateVerify e me corr x y r t).2[j] =
      broadcast x.h y.h (x.l j) (y.l j) (t j) (r j) corr ((orig j e).val = 0) := by
  simp [andGateVerify, broadcast]

theorem broadcast_view (p q l m t r : Word) {aux : Word} (corrects : e ≠ 0 → corr = aux) (j : Fin n) :
    broadcast p q l m t r corr ((orig j e).val = 0) =
      broadcast p q l m t r aux ((e.succAbove j).val = 0) := by
  by_cases first : (e.succAbove j).val = 0
  · simp only [broadcast, orig_eq, first, if_true, corrects (seen_of_first first)]
  · simp only [broadcast, orig_eq, first, if_false]

theorem andGate_slots (hx : (MaskRel.view e).rel x x') (hy : (MaskRel.view e).rel y y')
    (me : Word) (r t : Fin (n + 1) → Word) (corrects : e ≠ 0 → corr = (andGate x y r t).2.aux) :
    SlotsAgree e (fun i : Fin (n + 1) => (andGate x y r t).2.s[i])
      (andGateVerify e me corr x' y' (fun j => r (e.succAbove j)) fun j => t (e.succAbove j)).2 := by
  intro j
  rw [andGateVerify_broadcasts, broadcast_view _ _ _ _ _ _ corrects, ← hx.1, ← hy.1, ← hx.2 j,
    ← hy.2 j]
  exact (andGate_broadcasts x y r t (e.succAbove j)).symm

theorem andGate_view (hx : (MaskRel.view e).rel x x') (hy : (MaskRel.view e).rel y y')
    (r t : Fin (n + 1) → Word) (corrects : e ≠ 0 → corr = (andGate x y r t).2.aux) :
    (MaskRel.view e).rel (andGate x y r t).1
      (andGateVerify e (andGate x y r t).2.s[e] corr x' y' (fun j => r (e.succAbove j))
        fun j => t (e.succAbove j)).1 := by
  refine ⟨?_, fun j => by simp [andGate, andGateVerify]⟩
  have sums := xorAll_slots (andGate_slots hx hy (andGate x y r t).2.s[e] r t corrects)
  have masked : (andGate x y r t).1.h = xorAll fun i : Fin (n + 1) => (andGate x y r t).2.s[i] := by
    simp [andGate]
  rw [masked, ← sums]
  simp [andGateVerify]

theorem addGate_view (hx : (MaskRel.view e).rel x x') (hy : (MaskRel.view e).rel y y')
    (r t : Fin (n + 1) → Word) (corrects : e ≠ 0 → corr = (addGate x y r t).2.aux) :
    (MaskRel.view e).rel (addGate x y r t).1
      (addGateVerify e (addGate x y r t).2.s[e] corr x' y' (fun j => r (e.succAbove j))
        fun j => t (e.succAbove j)).1 ∧
    SlotsAgree e (fun i : Fin (n + 1) => (addGate x y r t).2.s[i])
      (addGateVerify e (addGate x y r t).2.s[e] corr x' y' (fun j => r (e.succAbove j))
        fun j => t (e.succAbove j)).2 := by
  obtain ⟨ch, prefixed, masked, broadcasts⟩ := addGate_broadcasts x y r t
  obtain ⟨ch', prefixed', masked', slots⟩ := addGateVerify_broadcasts e
    (addGate x y r t).2.s[e] corr x' y' (fun j => r (e.succAbove j)) fun j => t (e.succAbove j)
  have same : ch = ch' := by
    refine prefixXorShift_congr prefixed prefixed' fun b _ agree => ?_
    rw [xorAll_succAbove _ e, BitVec.getLsbD_xor, BitVec.getLsbD_xor]
    congr 1
    refine xorAll_getLsbD fun j => ?_
    rw [broadcasts, slots j, broadcast_view _ _ _ _ _ _ corrects, ← hx.1, ← hy.1, ← hx.2 j, ← hy.2 j]
    exact broadcast_local agree ..
  subst same
  refine ⟨⟨?_, fun j => ?_⟩, fun j => ?_⟩
  · rw [masked, masked', hx.1, hy.1]
  · simp [addGate, addGateVerify, hx.2 j, hy.2 j]
  · rw [slots j, broadcast_view _ _ _ _ _ _ corrects, ← hx.1, ← hy.1, ← hx.2 j, ← hy.2 j]
    exact (broadcasts _).symm

end View

section TwoViews

variable {n : Nat} {e e' : Fin (n + 1)} {x y : Mw (n + 1)} {x₁ y₁ x₂ y₂ : Mw n} {corr₁ corr₂ : Word}
  {s : Fin (n + 1) → Word}

/-- Two hidden parties leave none unseen: what agrees in both views agrees. -/
theorem slots_cover {s' : Fin (n + 1) → Word} {slots slots' : Vector Word n} (distinct : e ≠ e')
    (agree : SlotsAgree e s slots) (agree' : SlotsAgree e s' slots)
    (other : SlotsAgree e' s slots') (other' : SlotsAgree e' s' slots') : s = s' := by
  funext i
  by_cases hidden : i = e
  · obtain ⟨j, rfl⟩ := Fin.exists_succAbove_eq (show i ≠ e' by rw [hidden]; exact distinct)
    rw [← other j, ← other' j]
  · obtain ⟨j, rfl⟩ := Fin.exists_succAbove_eq hidden
    rw [← agree j, ← agree' j]

theorem andGate_twoViews (distinct : e ≠ e') (hx₁ : (MaskRel.view e).rel x x₁)
    (hy₁ : (MaskRel.view e).rel y y₁) (hx₂ : (MaskRel.view e').rel x x₂)
    (hy₂ : (MaskRel.view e').rel y y₂) (r t : Fin (n + 1) → Word)
    (corrects₁ : e ≠ 0 → corr₁ = (andGate x y r t).2.aux)
    (corrects₂ : e' ≠ 0 → corr₂ = (andGate x y r t).2.aux)
    (agree₁ : SlotsAgree e s (andGateVerify e (s e) corr₁ x₁ y₁ (fun j => r (e.succAbove j))
      fun j => t (e.succAbove j)).2)
    (agree₂ : SlotsAgree e' s (andGateVerify e' (s e') corr₂ x₂ y₂ (fun j => r (e'.succAbove j))
      fun j => t (e'.succAbove j)).2) :
    s = fun i : Fin (n + 1) => (andGate x y r t).2.s[i] :=
  slots_cover distinct agree₁ (andGate_slots hx₁ hy₁ _ r t corrects₁) agree₂
    (andGate_slots hx₂ hy₂ _ r t corrects₂)

/-- The carries that a run rebuilds are a function of all broadcasts, so two runs on the same
broadcasts rebuild the same carries, and these are the prover's. -/
theorem addGate_twoViews (distinct : e ≠ e') (hx₁ : (MaskRel.view e).rel x x₁)
    (hy₁ : (MaskRel.view e).rel y y₁) (hx₂ : (MaskRel.view e').rel x x₂)
    (hy₂ : (MaskRel.view e').rel y y₂) (r t : Fin (n + 1) → Word)
    (corrects₁ : e ≠ 0 → corr₁ = (addGate x y r t).2.aux)
    (corrects₂ : e' ≠ 0 → corr₂ = (addGate x y r t).2.aux)
    (agree₁ : SlotsAgree e s (addGateVerify e (s e) corr₁ x₁ y₁ (fun j => r (e.succAbove j))
      fun j => t (e.succAbove j)).2)
    (agree₂ : SlotsAgree e' s (addGateVerify e' (s e') corr₂ x₂ y₂ (fun j => r (e'.succAbove j))
      fun j => t (e'.succAbove j)).2) :
    s = fun i : Fin (n + 1) => (addGate x y r t).2.s[i] := by
  obtain ⟨ch, prefixed, -, broadcasts⟩ := addGate_broadcasts x y r t
  obtain ⟨ch₁, prefixed₁, -, slots₁⟩ := addGateVerify_broadcasts e (s e) corr₁ x₁ y₁
    (fun j => r (e.succAbove j)) fun j => t (e.succAbove j)
  obtain ⟨ch₂, prefixed₂, -, slots₂⟩ := addGateVerify_broadcasts e' (s e') corr₂ x₂ y₂
    (fun j => r (e'.succAbove j)) fun j => t (e'.succAbove j)
  rw [xorAll_slots agree₁] at prefixed₁
  rw [xorAll_slots agree₂] at prefixed₂
  have rebuilt : ch₁ = ch₂ := prefixed₁.trans prefixed₂.symm
  subst rebuilt
  have recomputed : s = fun i => broadcast (x.h ^^^ ch₁) (y.h ^^^ ch₁)
      (x.l i ^^^ prefixXorShift (r i)) (y.l i ^^^ prefixXorShift (r i)) (t i) (r i)
      (addGate x y r t).2.aux (i.val = 0) := by
    apply slots_cover distinct agree₁ _ agree₂
    · intro j
      rw [slots₂ j, broadcast_view _ _ _ _ _ _ corrects₂, ← hx₂.1, ← hy₂.1, ← hx₂.2 j, ← hy₂.2 j]
    · intro j
      rw [slots₁ j, broadcast_view _ _ _ _ _ _ corrects₁, ← hx₁.1, ← hy₁.1, ← hx₁.2 j, ← hy₁.2 j]
  have same : ch₁ = ch := by
    refine prefixXorShift_congr prefixed₁ prefixed fun b _ agree => ?_
    refine xorAll_getLsbD fun i => ?_
    rw [congrFun recomputed i, broadcasts i]
    exact broadcast_local agree ..
  rw [recomputed, same]
  funext i
  exact (broadcasts i).symm

end TwoViews

end BlindSig.Kkw
