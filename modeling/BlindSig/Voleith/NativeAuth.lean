import BlindSig.Voleith.Agreement
import BlindSig.Voleith.Permutation

/-! The native evaluation of the circuit and the authenticated one on the bits of a witness: they
count the same, and the constraints say that the witness is the native one. -/
namespace BlindSig.Voleith

open Kkw

section Native

variable {α β : Type} {x : Native α} {f : α → Native β} {s s' : NativeState} {b : β}
  {err : NativeError}

theorem Native.bind_eq_ok :
    (x >>= f) s = .ok (b, s') ↔ ∃ a s₁, x s = .ok (a, s₁) ∧ f a s₁ = .ok (b, s') := by
  cases run : x s with
  | error err =>
    have stops : (x >>= f) s = .error err := by
      change Except.bind (x s) _ = _
      rw [run]
      rfl
    rw [stops]
    simp
  | ok first =>
    rw [Native.bind_ok run]
    constructor
    · intro rest
      exact ⟨first.1, first.2, rfl, rest⟩
    · rintro ⟨a, s₁, ⟨⟩, rest⟩
      exact rest

theorem Native.bind_eq_error :
    (x >>= f) s = .error err ↔ x s = .error err ∨ ∃ a s₁, x s = .ok (a, s₁) ∧ f a s₁ = .error err := by
  cases run : x s with
  | error err' =>
    have stops : (x >>= f) s = .error err' := by
      change Except.bind (x s) _ = _
      rw [run]
      rfl
    rw [stops]
    simp
  | ok first =>
    rw [Native.bind_ok run]
    constructor
    · intro rest
      exact .inr ⟨first.1, first.2, rfl, rest⟩
    · rintro (stops | ⟨a, s₁, same, rest⟩)
      · cases stops
      · cases same
        exact rest

theorem NativeContext.count_bind (k : Nat) (f : PUnit → Native β) (s : NativeState) :
    (countConstraints k >>= f) s = f ⟨⟩ { s with constraints := s.constraints + k } := rfl

end Native

section Holds

variable {A : Type} [CommRing A] {check : Bool} {l l' : List (Constraint A)}

/-- The constraints that a native evaluation looks at are met: those of the circuit only with
validation. -/
def Holds (check : Bool) (log : List (Constraint A)) : Prop :=
  ∀ d ∈ log, (d.origin = .explicit → check = true) → d.value = 0

theorem holds_append : Holds check (l ++ l') ↔ Holds check l ∧ Holds check l' :=
  List.forall_mem_append

theorem holds_inner (inner : Inner l) : Holds check l ↔ Vanish l := by
  constructor
  · intro holds d member
    exact holds d member fun explicit => absurd explicit (inner d member)
  · intro vanish d member _
    exact vanish d member

theorem holds_checked : Holds true l ↔ Vanish l := by
  constructor
  · intro holds d member
    exact holds d member fun _ => rfl
  · intro vanish d member _
    exact vanish d member

end Holds

variable {F : Type} [CommRing F] {d : Degree}

/-- A native state that continues the primary part of a witness. -/
structure Started (W : Nat → Bool) (s : NativeState) : Prop where
  begun : 8 * kPrimaryBytes ≤ s.witness.cursor
  primary : ∀ i < 8 * kPrimaryBytes, s.witness.bit i = W i

theorem Started.later {W : Nat → Bool} {s s' : NativeState} (started : Started W s)
    (extends_ : s'.witness.Extends s.witness) : Started W s' where
  begun := Nat.le_trans started.begun extends_.cursor_le
  primary i inside := by
    rw [extends_.bit_eq i (Nat.lt_of_lt_of_le inside started.begun), started.primary i inside]

/-- A native computation and an authenticated one on a witness. Where the witness is the native one
so far, the counts are the same, and the constraints are met exactly if it stays so, under a
condition `H` on the orders of evaluation. -/
structure Evaluates (check : Bool) (W : Nat → Bool) (H : Prop) {α β : Type} (R : α → β → Prop)
    (x : Native α) (y : Auth F β) : Prop where
  unchecked : ∀ s err, Started W s → x s = .error err → check = true
  grows : ∀ s r s', Started W s → x s = .ok (r, s') → s'.witness.Extends s.witness ∧ ∃ b, R r b
  fails : ∀ s err, Started W s → Agrees W s.witness → x s = .error err → H →
    ¬ Holds check (y s.counts).2
  agrees : ∀ s r s', Started W s → x s = .ok (r, s') → Agrees W s'.witness →
    R r (y s.counts).1.1 ∧ (y s.counts).1.2 = s'.counts ∧ (H → Holds check (y s.counts).2)
  drifts : ∀ s r s', Started W s → Agrees W s.witness → x s = .ok (r, s') →
    ¬ Agrees W s'.witness → check = true → H → ¬ Holds check (y s.counts).2

def nativeAuth (check : Bool) (W : Nat → Bool) (H : Prop) : Lifting Native (Auth F) where
  rel := Evaluates check W H
  pure {α β R a b} same := by
    constructor
    · rintro s err - ⟨⟩
    · rintro s r s' - ⟨⟩
      exact ⟨.refl _, b, same⟩
    · rintro s err - - ⟨⟩
    · rintro s r s' - ⟨⟩ -
      exact ⟨same, rfl, fun _ _ none => nomatch none⟩
    · rintro s r s' - agrees ⟨⟩ drift
      exact absurd agrees drift
  bind {α β γ δ R S x y f g} first next := by
    constructor
    · intro s err started run
      rcases Native.bind_eq_error.mp run with run | ⟨a, s₁, run, rest⟩
      · exact first.unchecked s err started run
      · obtain ⟨grown, b, same⟩ := first.grows s a s₁ started run
        exact (next a b same).unchecked s₁ err (started.later grown) rest
    · intro s r s' started run
      obtain ⟨a, s₁, run, rest⟩ := Native.bind_eq_ok.mp run
      obtain ⟨grown, b, same⟩ := first.grows s a s₁ started run
      obtain ⟨grown', result⟩ := (next a b same).grows s₁ r s' (started.later grown) rest
      exact ⟨grown'.trans grown, result⟩
    · intro s err started agrees run h
      rw [Logged.bind_apply, holds_append]
      rintro ⟨before, after⟩
      rcases Native.bind_eq_error.mp run with run | ⟨a, s₁, run, rest⟩
      · exact first.fails s err started agrees run h before
      · obtain ⟨grown, b, same⟩ := first.grows s a s₁ started run
        by_cases still : Agrees W s₁.witness
        · obtain ⟨result, counts, -⟩ := first.agrees s a s₁ started run still
          rw [counts] at after
          exact (next a _ result).fails s₁ err (started.later grown) still rest h after
        · have checked := (next a b same).unchecked s₁ err (started.later grown) rest
          exact first.drifts s a s₁ started agrees run still checked h before
    · intro s r s' started run still
      obtain ⟨a, s₁, run, rest⟩ := Native.bind_eq_ok.mp run
      obtain ⟨grown, b, same⟩ := first.grows s a s₁ started run
      obtain ⟨grown', -⟩ := (next a b same).grows s₁ r s' (started.later grown) rest
      obtain ⟨result, counts, holds⟩ := first.agrees s a s₁ started run (still.earlier grown')
      obtain ⟨result', counts', holds'⟩ :=
        (next a _ result).agrees s₁ r s' (started.later grown) rest still
      rw [← counts] at result' counts' holds'
      rw [Logged.bind_apply, holds_append]
      exact ⟨result', counts', fun h => ⟨holds h, holds' h⟩⟩
    · intro s r s' started agrees run drift checked h
      rw [Logged.bind_apply, holds_append]
      rintro ⟨before, after⟩
      obtain ⟨a, s₁, run, rest⟩ := Native.bind_eq_ok.mp run
      obtain ⟨grown, b, same⟩ := first.grows s a s₁ started run
      by_cases still : Agrees W s₁.witness
      · obtain ⟨result, counts, -⟩ := first.agrees s a s₁ started run still
        rw [counts] at after
        exact (next a _ result).drifts s₁ r s' (started.later grown) still rest drift checked h after
      · exact first.drifts s a s₁ started agrees run still checked h before

namespace Evaluates

variable {W : Nat → Bool} {H : Prop} {check : Bool} {α β : Type} {R : α → β → Prop} {x : Native α}
  {y : Auth F β} {l : List Bool}

/-- Bits written and bits read, with constraints that are met if these are the same, and with
validation only then. -/
theorem of_bits (r : α) (k m : Nat)
    (native : ∀ s, x s = .ok (r,
      { witness := s.witness.pushAll l
        constraints := s.constraints + k
        permutations := s.permutations + m }))
    (counts : ∀ t, (y t).1.2 =
      { cursor := t.cursor + l.length
        constraints := t.constraints + k
        permutations := t.permutations + m })
    (result : ∀ t, Stands W t.cursor l → R r (y t).1.1)
    (met : H → ∀ t, Stands W t.cursor l → Holds check (y t).2)
    (only : H → check = true → ∀ t, Holds check (y t).2 → Stands W t.cursor l)
    (some : ∃ b, R r b) : Evaluates check W H R x y := by
  have written {s s' : NativeState} {r' : α} (run : x s = .ok (r', s')) :
      r' = r ∧ s' =
        { witness := s.witness.pushAll l
          constraints := s.constraints + k
          permutations := s.permutations + m } := by
    rw [native] at run
    cases run
    exact ⟨rfl, rfl⟩
  constructor
  · intro s err _ run
    rw [native] at run
    cases run
  · intro s r' s' _ run
    obtain ⟨rfl, rfl⟩ := written run
    exact ⟨PackedBits.extends_pushAll, some⟩
  · intro s err _ _ run
    rw [native] at run
    cases run
  · intro s r' s' _ run agrees
    obtain ⟨rfl, rfl⟩ := written run
    obtain ⟨before, stands⟩ := agrees_pushAll.mp agrees
    refine ⟨result s.counts stands, ?_, fun h => ?_⟩
    · rw [counts]
      simp [NativeState.counts]
    · exact met h s.counts stands
  · intro s r' s' _ agrees run drift checked h
    obtain ⟨rfl, rfl⟩ := written run
    intro holds
    exact drift (agrees_pushAll.mpr ⟨agrees, only h checked s.counts holds⟩)

/-- Bits written and bits read, with inner constraints that say which. -/
theorem of_written (r : α) (k m : Nat)
    (native : ∀ s, x s = .ok (r,
      { witness := s.witness.pushAll l
        constraints := s.constraints + k
        permutations := s.permutations + m }))
    (counts : ∀ t, (y t).1.2 =
      { cursor := t.cursor + l.length
        constraints := t.constraints + k
        permutations := t.permutations + m })
    (result : ∀ t, Stands W t.cursor l → R r (y t).1.1)
    (inner : ∀ t, Inner (y t).2) (meets : H → ∀ t, Vanish (y t).2 ↔ Stands W t.cursor l)
    (some : ∃ b, R r b) : Evaluates check W H R x y := by
  refine of_bits r k m native counts result (fun h t stands => ?_) (fun h _ t holds => ?_) some
  · rw [holds_inner (inner t), meets h]
    exact stands
  · rw [holds_inner (inner t), meets h] at holds
    exact holds

/-- A constraint that the circuit states. -/
theorem of_explicit {x : Native PUnit} {value : F} (bad : Bool) (err : NativeError)
    (native : ∀ s, x s = if check && bad then .error err
      else .ok (⟨⟩, { s with constraints := s.constraints + 1 }))
    (same : bad = false ↔ value = 0) :
    Evaluates check W H (fun _ _ => True) x (AuthContext.constrain .explicit value) := by
  have holds (t : Counts) : Holds check (AuthContext.constrain .explicit value t).2 ↔
      (check = true → value = 0) := by
    unfold Holds AuthContext.constrain
    simp
  have outcome {s : NativeState} {r : PUnit} {s' : NativeState} (run : x s = .ok (r, s')) :
      (check && bad) = false ∧ s' = { s with constraints := s.constraints + 1 } := by
    rw [native] at run
    split at run
    · cases run
    · rename_i allowed
      cases run
      exact ⟨by simpa using allowed, rfl⟩
  have stopped {s : NativeState} {err' : NativeError} (run : x s = .error err') :
      check = true ∧ bad = true := by
    rw [native] at run
    split at run
    · rename_i refused
      simpa using refused
    · cases run
  constructor
  · intro s err' _ run
    exact (stopped run).1
  · intro s r s' _ run
    obtain ⟨-, rfl⟩ := outcome run
    exact ⟨.refl _, ⟨⟩, trivial⟩
  · intro s err' _ _ run _
    obtain ⟨checked, wrong⟩ := stopped run
    rw [holds]
    intro zero
    rw [same.mpr (zero checked)] at wrong
    cases wrong
  · intro s r s' _ run _
    obtain ⟨allowed, rfl⟩ := outcome run
    refine ⟨trivial, rfl, fun _ => (holds _).mpr fun checked => same.mp ?_⟩
    simpa [checked] using allowed
  · intro s r s' _ agrees run drift
    obtain ⟨-, rfl⟩ := outcome run
    exact absurd agrees drift

end Evaluates

section Packing

theorem packBits_inj {n : Nat} (few : n ≤ 128) {v v' : Vector Bool n} :
    packBits 128 v = packBits 128 v' ↔ v = v' := by
  constructor
  · intro same
    apply Vector.ext
    intro i hi
    have bit := congrArg (fun x => x.getLsbD i) same
    simp only [getLsbD_packBits _ (Nat.lt_of_lt_of_le hi few)] at bit
    simpa [hi] using bit
  · rintro rfl
    rfl

variable (P : Poly128 F)

/-- The first `n` bits of an element. -/
def lowBits (n : Nat) (a : F) : Vector Bool n :=
  Vector.ofFn fun i : Fin n => (P.load.symm a).getLsbD i

/-- The element is held by its first bits. -/
def HeldBy (n : Nat) (a : F) : Prop := ∀ i, n ≤ i → (P.load.symm a).getLsbD i = false

theorem heldBy_pack {n : Nat} (v : Vector Bool n) : HeldBy P n (P.load (packBits 128 v)) := by
  intro i outside
  rw [Equiv.symm_apply_apply]
  rcases Nat.lt_or_ge i 128 with inside | behind
  · rw [getLsbD_packBits v inside, Vector.getElem?_eq_none outside]
    rfl
  · exact BitVec.getLsbD_of_ge _ _ behind

theorem store_add (a b : F) : P.load.symm (a + b) = P.load.symm a ^^^ P.load.symm b := by
  rw [Equiv.symm_apply_eq, P.load_xor, Equiv.apply_symm_apply, Equiv.apply_symm_apply]

theorem load_flag (b : Bool) : P.load (packBits 128 #v[b]) = ofBit F b := by
  cases b with
  | false => exact P.load_zero
  | true => exact P.load_one

theorem load_lowBits {n : Nat} {a : F} (held : HeldBy P n a) :
    P.load (packBits 128 (lowBits P n a)) = a := by
  rw [← Equiv.eq_symm_apply]
  apply BitVec.eq_of_getLsbD_eq
  intro i hi
  rw [getLsbD_packBits _ hi]
  rcases Nat.lt_or_ge i n with inside | outside
  · simp [lowBits, inside]
  · rw [Vector.getElem?_eq_none outside, held i outside]
    rfl

/-- Both contexts pack bits to the same element. -/
theorem pack_eq {n : Nat} (W : Nat → Bool) (order : (step i : Nat) → Bool) (v : Vector Bool n) :
    AuthContext.pack (d := d) (.over P W order) (ofBits F v) = P.load (packBits 128 v) := by
  induction n with
  | zero =>
    obtain rfl : v = #v[] := Vector.eq_empty
    exact P.load_zero.symm
  | succ n ih =>
    obtain ⟨v, b, rfl⟩ : ∃ (front : Vector Bool n) (last : Bool), v = front.push last :=
      Vector.exists_push
    have apart : packBits 128 (v.push b) =
        packBits 128 v ^^^ (if b then (1 : BitVec 128) <<< n else 0) := by
      apply BitVec.eq_of_getLsbD_eq
      intro i hi
      rw [BitVec.getLsbD_xor, getLsbD_packBits _ hi, getLsbD_packBits _ hi]
      rcases Nat.lt_trichotomy i n with low | rfl | high
      · cases b <;> simp [Vector.getElem?_push, low, Nat.ne_of_lt low]
      · cases b <;> simp [hi]
      · have out : i - n ≠ 0 := by omega
        cases b <;> simp [Vector.getElem?_push, Nat.ne_of_gt high, high.not_gt, out]
    have scaled : P.load (if b then (1 : BitVec 128) <<< n else 0) =
        ofBit F b * P.load ((1 : BitVec 128) <<< n) := by
      cases b with
      | false => simpa using P.load_zero
      | true => simp
    have split : AuthContext.pack (d := d) (.over P W order) (ofBits F (v.push b)) =
        AuthContext.pack (d := d) (.over P W order) (ofBits F v) +
          ofBit F b * P.load ((1 : BitVec 128) <<< n) := by
      simp [AuthContext.pack, List.finRange_succ_last, List.foldl_append, List.foldl_map,
        Vector.getElem_push, AuthContext.over]
    rw [split, ih, apart, P.load_xor, scaled]

end Packing

section Operations

/-- A native bit and its authenticated value. -/
def BitRel (F : Type) [CommRing F] (r : Bool) (b : F) : Prop := b = ofBit F r

/-- A bit of the primary part. -/
def BitAt (F : Type) [CommRing F] (W : Nat → Bool) (i : Nat) (r : Bool) (b : F) : Prop :=
  r = W i ∧ b = ofBit F (W i)

theorem rows_bitRel {n : Nat} {v : Vector Bool n} {v' : Vector F n} :
    Rows (BitRel F) v v' ↔ v' = ofBits F v := by
  constructor
  · intro rows
    apply Vector.ext
    intro i hi
    rw [getElem_ofBits]
    exact rows ⟨i, hi⟩
  · rintro rfl i
    exact getElem_ofBits v i i.isLt

variable (n : NativeContext F d) (W : Nat → Bool) (order : (step i : Nat) → Bool) {H : Prop}

theorem bit_evaluates (i : Nat) (inside : i < 8 * kPrimaryBytes) :
    Evaluates n.check W H (BitAt F W i) (NativeContext.bit i)
      (AuthContext.bit (d := d) (.over n.poly W order) i) := by
  have read (s : NativeState) (started : Started W s) : NativeContext.bit i s = .ok (W i, s) := by
    have sized := s.witness.sized
    have begun := started.begun
    unfold NativeContext.bit
    rw [if_pos (by omega), started.primary i inside]
  constructor
  · intro s err started run
    rw [read s started] at run
    cases run
  · intro s r s' started run
    rw [read s started] at run
    cases run
    exact ⟨.refl _, _, rfl, rfl⟩
  · intro s err started _ run
    rw [read s started] at run
    cases run
  · intro s r s' started run _
    rw [read s started] at run
    cases run
    exact ⟨⟨rfl, rfl⟩, rfl, fun _ _ none => nomatch none⟩
  · intro s r s' started agrees run drift
    rw [read s started] at run
    cases run
    exact absurd agrees drift

theorem mul_draws (a b : Bool) (t : Counts) :
    Draws W (AuthContext.mul (d := d) (.over n.poly W order) (ofBit F a) (ofBit F b)) t
      [a && b] := by
  have two := n.poly.charTwo
  have nontrivial := CharP.nontrivial_of_char_ne_one (v := 2) (R := F) (by decide)
  constructor
  · rfl
  · exact List.forall_mem_singleton.mpr fun same => Origin.noConfusion same
  · change Vanish [{ origin := .product, value := ofBit F a * ofBit F b + ofBit F (W t.cursor) }] ↔ _
    rw [vanish_singleton, ← ofBit_and, CharTwo.add_eq_zero, (ofBit_injective F).eq_iff, stands_cons]
    exact eq_comm.trans (and_iff_left stands_nil).symm

theorem mul_evaluates (a b : Bool) :
    Evaluates n.check W H (BitRel F) (NativeContext.mul a b)
      (AuthContext.mul (d := d) (.over n.poly W order) (ofBit F a) (ofBit F b)) := by
  refine .of_written (a && b) 1 0 (fun s => rfl) (fun t => rfl) (fun t stands => ?_)
    (fun t => (mul_draws n W order a b t).inner) (fun _ t => (mul_draws n W order a b t).vanish)
    ⟨_, rfl⟩
  exact congrArg (ofBit F) (stands_cons.mp stands).1

theorem zero_evaluates (a : Bool) :
    Evaluates n.check W H (fun _ _ => True) (NativeContext.zero n a)
      (AuthContext.constrain .explicit (ofBit F a)) := by
  have two := n.poly.charTwo
  have nontrivial := CharP.nontrivial_of_char_ne_one (v := 2) (R := F) (by decide)
  refine .of_explicit a .unsatisfiedBooleanConstraint (fun s => ?_) ?_
  · unfold NativeContext.zero
    rw [NativeContext.count_bind]
    split <;> rfl
  · cases a <;> simp

theorem zeroField_run (a : F) (s : NativeState) :
    NativeContext.zeroField n a s =
      if n.check && n.poly.load.symm a != 0 then .error .unsatisfiedFieldConstraint
      else .ok (⟨⟩, { s with constraints := s.constraints + 1 }) := by
  unfold NativeContext.zeroField
  rw [NativeContext.count_bind]
  split <;> rfl

theorem store_eq_zero (P : Poly128 F) (a : F) : P.load.symm a = 0 ↔ a = 0 := by
  rw [Equiv.symm_apply_eq, P.load_zero]

theorem zeroField_evaluates (a : F) :
    Evaluates n.check W H (fun _ _ => True) (NativeContext.zeroField n a)
      (AuthContext.constrain .explicit a) := by
  refine .of_explicit (n.poly.load.symm a != 0) _ (zeroField_run n a) ?_
  rw [← store_eq_zero n.poly a]
  simp

theorem fieldWitness_evaluates {k : Nat} (few : k ≤ 128) {a : F} (held : HeldBy n.poly k a) :
    Evaluates n.check W H (Rows (BitRel F)) (NativeContext.fieldWitness n a k)
      (AuthContext.fieldWitness (d := d) (.over n.poly W order) a k) := by
  have two := n.poly.charTwo
  have native (s : NativeState) : NativeContext.fieldWitness n a k s = .ok (lowBits n.poly k a,
      { s with
        witness := s.witness.pushAll (lowBits n.poly k a).toList
        constraints := s.constraints + 1 }) := by
    unfold NativeContext.fieldWitness
    rw [Native.bind_ok (NativeContext.allocate_run _ s)]
    change (NativeContext.zeroField n (a + n.poly.load (packBits 128 (lowBits n.poly k a))) >>= _) _ = _
    rw [load_lowBits n.poly held, CharTwo.add_self_eq_zero,
      Native.bind_ok ((zeroField_run n 0 _).trans (if_neg (by
        simp [(store_eq_zero n.poly 0).mpr rfl])))]
    rfl
  have auth (t : Counts) : AuthContext.fieldWitness (d := d) (.over n.poly W order) a k t =
      ((ofBits F (bitsAt W t.cursor k),
        { t with cursor := t.cursor + k, constraints := t.constraints + 1 }),
        [{ origin := .fieldWitness, value := a + n.poly.load (packBits 128 (bitsAt W t.cursor k)) }]) := by
    unfold AuthContext.fieldWitness
    rw [Logged.bind_apply, AuthContext.allocateMany_run, (AuthContext.over_reads n.poly W order).row,
      pack_eq]
    rfl
  refine .of_written (lowBits n.poly k a) 1 0 native (fun t => ?_) (fun t stands => ?_) (fun t => ?_)
    (fun _ t => ?_) ⟨_, rows_bitRel.mpr rfl⟩
  · rw [auth, Vector.length_toList]
    rfl
  · rw [auth, rows_bitRel, stands_toList.mp stands]
  · rw [auth]
    exact List.forall_mem_singleton.mpr fun same => Origin.noConfusion same
  · rw [auth, vanish_singleton, CharTwo.add_eq_zero, stands_toList, eq_comm,
      ← load_lowBits n.poly held, n.poly.load.apply_eq_iff_eq, packBits_inj few,
      load_lowBits n.poly held]

theorem permute_evaluates (v : Vector Bool 1600) (keep : Nat) :
    Evaluates n.check W H (Rows (BitRel F)) (NativeContext.permute n v keep)
      (AuthContext.permute (d := d) (.over n.poly W order) (ofBits F v) keep) := by
  have two := n.poly.charTwo
  have reads : AuthContext.Reads (d := d) (.over n.poly W order) W :=
    AuthContext.over_reads n.poly W order
  have spec := AuthContext.rounds_draws reads v keep
  refine .of_written (permuted (lanes v) keep) (written d (lanes v) keep).length 1
    (NativeContext.permute_run n v keep) (fun t => ?_) (fun t stands => ?_) (fun t => ?_)
    (fun _ t => ?_) ⟨_, rows_bitRel.mpr rfl⟩
  · rw [AuthContext.permute_run, (spec t).1.counts]
  · rw [AuthContext.permute_run, rows_bitRel]
    exact (spec t).2 stands
  · rw [AuthContext.permute_run]
    exact (spec t).1.inner
  · rw [AuthContext.permute_run]
    exact (spec t).1.vanish

theorem padBit_evaluates :
    Evaluates n.check W H (fun _ _ => True) (n.engine.allocate >>= n.engine.zero)
      ((AuthContext.over n.poly W order : AuthContext F d).engine.allocate >>=
        (AuthContext.over n.poly W order : AuthContext F d).engine.zero) := by
  have two := n.poly.charTwo
  have nontrivial := CharP.nontrivial_of_char_ne_one (v := 2) (R := F) (by decide)
  have log (t : Counts) : ((AuthContext.over n.poly W order : AuthContext F d).engine.allocate >>=
      (AuthContext.over n.poly W order : AuthContext F d).engine.zero) t =
      ((⟨⟩, { t with cursor := t.cursor + 1, constraints := t.constraints + 1 }),
        [{ origin := .explicit, value := ofBit F (W t.cursor) }]) := rfl
  have zero (t : Counts) : ofBit F (W t.cursor) = 0 ↔ Stands W t.cursor [false] := by
    rw [stands_cons, and_iff_left stands_nil]
    exact (ofBit_injective F).eq_iff (b := false)
  refine .of_bits (l := [false]) ⟨⟩ 1 0 (fun s => ?_) (fun t => ?_) (fun _ _ => trivial)
    (fun _ t stands => ?_) (fun _ checked t holds => ?_) ⟨⟨⟩, trivial⟩
  · change (NativeContext.allocate false >>= NativeContext.zero n) s = _
    unfold NativeContext.zero
    rw [Native.bind_ok (x := NativeContext.allocate false) (a := false) rfl,
      NativeContext.count_bind, Bool.and_false]
    rfl
  · rw [log]
    rfl
  · rw [log]
    exact List.forall_mem_singleton.mpr fun _ => (zero t).mpr stands
  · rw [log] at holds
    exact (zero t).mp (List.forall_mem_singleton.mp holds fun _ => checked)

end Operations

section Order

/-- A bit of a byte of the schedule. -/
def scheduleBit (W : Nat → Bool) (step i : Nat) : Bool := W ((kScheduleOffset + step) * 8 + i)

/-- The running result of the comparison of a step's index with the one before: on the first `i`
bits the index is the smaller one. -/
def behind (W : Nat → Bool) (before : Nat) : Nat → Bool
  | 0 => false
  | i + 1 => (!(scheduleBit W (before + 1) i ^^ scheduleBit W before i) && behind W before i) ^^
      (!scheduleBit W (before + 1) i && scheduleBit W before i)

/-- Where two orders differ, both products are zero. -/
def Harmless (order order' : (step i : Nat) → Bool) (W : Nat → Bool) : Prop :=
  ∀ before, before + 1 < scheduleLen → ∀ i < 8,
    order (before + 1) i ≠ order' (before + 1) i → behind W before (i + 1) = false

variable (n : NativeContext F d) (W : Nat → Bool) (order : (step i : Nat) → Bool)

/-- The sum of two products, in the native context. -/
def nativePair (first : Bool) (left right : Bool × Bool) : Native Bool := do
  let (x, y) ← mulTwo n.engine first left right
  return n.engine.add x y

/-- The sum of two products, in the authenticated context. -/
def authPair (second : Bool) (left right : Bool × Bool) : Auth F F := do
  let e := (AuthContext.over n.poly W order : AuthContext F d).engine
  let (x, y) ← mulTwo e second (ofBit F left.1, ofBit F left.2) (ofBit F right.1, ofBit F right.2)
  return e.add x y

/-- Two products as their order puts them. -/
def ordered (first : Bool) (x y : Bool) : List Bool := if first then [x, y] else [y, x]

theorem nativePair_run (first : Bool) (left right : Bool × Bool) (s : NativeState) :
    nativePair n first left right s = .ok ((left.1 && left.2) ^^ (right.1 && right.2),
      { s with
        witness := s.witness.pushAll (ordered first (left.1 && left.2) (right.1 && right.2))
        constraints := s.constraints + 2 }) := by
  cases first <;> rfl

/-- Two bits drawn by products. -/
theorem two_draws (first second : Bool × Bool) (f : F → F → F × F) (g : F × F → F) (t : Counts) :
    Draws W ((AuthContext.mul (d := d) (.over n.poly W order) (ofBit F first.1) (ofBit F first.2) >>=
        fun x => AuthContext.mul (d := d) (.over n.poly W order) (ofBit F second.1)
          (ofBit F second.2) >>= fun y => pure (f x y)) >>= fun p => pure (g p)) t
      [first.1 && first.2, second.1 && second.2] := by
  change Draws W _ t (([first.1 && first.2] ++ ([second.1 && second.2] ++ [])) ++ [])
  refine Draws.bind (Draws.bind (mul_draws n W order first.1 first.2 t) ?_) (Draws.pure _)
  exact Draws.bind (mul_draws n W order second.1 second.2 _) (Draws.pure _)

theorem authPair_draws (second : Bool) (left right : Bool × Bool) (t : Counts) :
    Draws W (authPair n W order second left right) t
      (ordered second (left.1 && left.2) (right.1 && right.2)) := by
  cases second with
  | true => exact two_draws n W order left right (fun x y => (x, y)) (fun p => p.1 + p.2) t
  | false => exact two_draws n W order right left (fun y x => (x, y)) (fun p => p.1 + p.2) t

/-- Whatever the order, the two bits read are added up. -/
theorem authPair_result (second : Bool) (left right : Bool × Bool) (t : Counts) :
    (authPair n W order second left right t).1.1 =
      ofBit F (W t.cursor) + ofBit F (W (t.cursor + 1)) := by
  cases second with
  | true => rfl
  | false => exact add_comm _ _

theorem stands_ordered {c : Nat} {first x y : Bool} :
    Stands W c (ordered first x y) ↔
      if first then W c = x ∧ W (c + 1) = y else W c = y ∧ W (c + 1) = x := by
  cases first with
  | true => rw [ordered, if_pos rfl, if_pos rfl, stands_cons, stands_cons, and_iff_left stands_nil]
  | false =>
    rw [ordered, if_neg (by decide), if_neg (by decide), stands_cons, stands_cons,
      and_iff_left stands_nil]

/-- Two products in two orders: their sum is the same, and the constraints are met if the products
are. -/
theorem pair_evaluates {H : Prop} (first second : Bool) (left right : Bool × Bool)
    (harmless : H → first ≠ second → ((left.1 && left.2) ^^ (right.1 && right.2)) = false) :
    Evaluates n.check W H
      (fun r v => r = ((left.1 && left.2) ^^ (right.1 && right.2)) ∧ BitRel F r v)
      (nativePair n first left right) (authPair n W order second left right) := by
  have two := n.poly.charTwo
  have draws := authPair_draws n W order second left right
  refine .of_written ((left.1 && left.2) ^^ (right.1 && right.2)) 2 0
    (nativePair_run n first left right) (fun t => ?_) (fun t stands => ⟨rfl, ?_⟩)
    (fun t => (draws t).inner) (fun h t => ?_) ⟨_, rfl, rfl⟩
  · rw [(draws t).counts]
    cases first <;> cases second <;> rfl
  · unfold BitRel
    rw [authPair_result, ofBit_xor]
    rw [stands_ordered] at stands
    cases first with
    | true => rw [stands.1, stands.2]
    | false =>
      rw [stands.1, stands.2]
      exact add_comm _ _
  · rw [(draws t).vanish, stands_ordered, stands_ordered]
    rcases eq_or_ne first second with rfl | apart
    · exact Iff.rfl
    · have same : (left.1 && left.2) = (right.1 && right.2) := by
        simpa using harmless h apart
      rw [same, ite_self, ite_self]

/-- The comparison of a step with the one before. -/
theorem compares_evaluates (order' : (step i : Nat) → Bool) (same : n.leftFirst = order) :
    EngineRel.Compares (nativeAuth n.check W (Harmless order order' W)) n.engine
      (AuthContext.over n.poly W order' : AuthContext F d).engine (BitRel F) (BitAt F W) := by
  have two := n.poly.charTwo
  intro before a b a' b' inside left right
  let stage (i : Nat) (r : Bool) (v : F) : Prop := r = behind W before i ∧ BitRel F r v
  have loop : (nativeAuth n.check W (Harmless order order' W)).rel (stage 8)
      (less n.engine (before + 1) a b)
      (less (AuthContext.over n.poly W order' : AuthContext F d).engine (before + 1) a' b') := by
    refine Lifting.foldlM_finRange _ stage ⟨rfl, rfl⟩ ?_
    rintro i r v ⟨rfl, rfl⟩
    obtain ⟨leftBit, leftValue⟩ := left i
    obtain ⟨rightBit, rightValue⟩ := right i
    have pair := pair_evaluates n W order' (H := Harmless order order' W)
      (n.leftFirst (before + 1) i) (order' (before + 1) i)
      (!(scheduleBit W (before + 1) i ^^ scheduleBit W before i), behind W before i)
      (!scheduleBit W (before + 1) i, scheduleBit W before i) (fun h apart => by
        rw [same] at apart
        exact h before inside i i.isLt apart)
    have leftNot : invert n.engine a[i] = !scheduleBit W (before + 1) i := by
      rw [leftBit]
      exact Bool.xor_true _
    have sameBits : invert n.engine (n.engine.add a[i] b[i]) =
        !(scheduleBit W (before + 1) i ^^ scheduleBit W before i) := by
      rw [leftBit, rightBit]
      exact Bool.xor_true _
    have leftNot' : invert (AuthContext.over n.poly W order' : AuthContext F d).engine a'[i] =
        ofBit F (!scheduleBit W (before + 1) i) := by
      rw [leftValue, ofBit_not]
      rfl
    have sameBits' : invert (AuthContext.over n.poly W order' : AuthContext F d).engine
        ((AuthContext.over n.poly W order' : AuthContext F d).engine.add a'[i] b'[i]) =
        ofBit F (!(scheduleBit W (before + 1) i ^^ scheduleBit W before i)) := by
      rw [leftValue, rightValue, ofBit_not, ofBit_xor]
      rfl
    dsimp only
    rw [leftNot, sameBits, leftNot', sameBits', rightBit, rightValue]
    exact pair
  exact Lifting.imp _ loop fun r v result => result.2

end Order

section Statement

variable (n : NativeContext F d) (W : Nat → Bool) (order : (step i : Nat) → Bool)

/-- Every operation of the contexts. -/
theorem contexts_rel (H : Prop) : EngineRel (nativeAuth n.check W H) n.engine
    (AuthContext.over n.poly W order : AuthContext F d).engine (BitRel F) Eq (BitAt F W)
    (HeldBy n.poly) := by
  have two := n.poly.charTwo
  constructor
  · rintro i r v ⟨rfl, rfl⟩
    rfl
  · intro v
    rfl
  · exact fun i inside => bit_evaluates n W order i inside
  · rintro a _ b _ rfl rfl
    exact (ofBit_xor a b).symm
  · rintro a _ b _ rfl rfl
    exact mul_evaluates n W order a b
  · rintro a _ rfl
    exact zero_evaluates n W a
  · rintro a _ rfl
    exact zeroField_evaluates n W a
  · intro k v v' rows
    rw [rows_bitRel.mp rows]
    exact (pack_eq n.poly W order v).symm
  · rintro a _ b _ rfl rfl
    rfl
  · rintro a _ b _ rfl rfl
    rfl
  · intro k v
    exact heldBy_pack n.poly v
  · intro k a b left right i outside
    change (n.poly.load.symm (a + b)).getLsbD i = false
    rw [store_add, BitVec.getLsbD_xor, left i outside, right i outside]
    rfl
  · intro k a b held i outside
    change (n.poly.load.symm (n.poly.load (packBits 128 #v[b]) * a)).getLsbD i = false
    rw [load_flag]
    cases b with
    | false =>
      rw [ofBit_false, zero_mul, (store_eq_zero n.poly 0).mpr rfl]
      exact BitVec.getLsbD_zero
    | true =>
      rw [ofBit_true, one_mul]
      exact held i outside
  · intro a i outside
    exact BitVec.getLsbD_of_ge _ _ outside
  · rintro k a _ few rfl held
    exact fieldWitness_evaluates n W order few held
  · intro v v' keep rows
    rw [rows_bitRel.mp rows]
    exact permute_evaluates n W order v keep

theorem counts_evaluates (H : Prop) :
    (nativeAuth n.check W H).rel Eq n.engine.counts
      (AuthContext.over n.poly W order : AuthContext F d).engine.counts := by
  constructor
  · rintro s err - ⟨⟩
  · rintro s r s' - ⟨⟩
    exact ⟨.refl _, _, rfl⟩
  · rintro s err - - ⟨⟩
  · rintro s r s' - ⟨⟩ -
    exact ⟨rfl, rfl, fun _ _ none => nomatch none⟩
  · rintro s r s' - agrees ⟨⟩ drift
    exact absurd agrees drift

/-- The two evaluations of the circuit. -/
theorem statement_evaluates (pub : Statement) :
    Evaluates n.check W (Harmless n.leftFirst order W) (fun _ _ => True) (statement n.engine pub)
      (statement (AuthContext.over n.poly W order : AuthContext F d).engine pub) := by
  refine (contexts_rel n W order (Harmless n.leftFirst order W)).statement_rel
    (compares_evaluates n W n.leftFirst order rfl) ?_ pub
  exact (contexts_rel n W order _).padding_rel (counts_evaluates n W order _)
    (padBit_evaluates n W order)

end Statement

end BlindSig.Voleith
