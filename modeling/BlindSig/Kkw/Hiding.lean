import BlindSig.Kkw.Views
import Mathlib.SetTheory.Cardinal.Finite
import Mathlib.Data.Fintype.Pigeonhole

/-! What one opened instance shows does not depend on the witness. Given the shown data and
another witness, the hidden party's tape words can be solved for, gate by gate: the auxiliary
word fixes the product share, the broadcast or the carry mask fixes the other word, and the
unused top bit of a sum's product share is carried over. -/
namespace BlindSig.Kkw

open XorGroup Prog

section Solve

variable {n : Nat}

/-- Either gate on given tape words. -/
def gateOn (op : Gate) (x y : Mw n) (r t : Fin n → Word) : Mw n × GateLog n :=
  match op with
  | .and => andGate x y r t
  | .add => addGate x y r t

/-- The fold over all parties but `e`. -/
def xorOthers (e : Fin n) (f : Fin n → Word) : Word := xorAll (Function.update f e 0)

/-- The tape words of party `e` that make a product leave the log `log`. -/
def solveAnd (e : Fin n) (x y : Mw n) (log : GateLog n) (t : Fin n → Word) : Word × Word :=
  let product := log.aux ^^^ (xorAll x.l &&& xorAll y.l) ^^^ xorOthers e t
  (log.s[e] ^^^ broadcast x.h y.h (x.l e) (y.l e) product 0 log.aux (e.val = 0), product)

/-- The tape words of party `e` that make a sum leave the log `log`; the top bit of the product
share is the one of `t e`. -/
def solveAdd (e : Fin n) (x y : Mw n) (log : GateLog n) (r t : Fin n → Word) : Word × Word :=
  let ch := prefixXorShift (xorAll fun i : Fin n => log.s[i])
  let xv := x.h ^^^ xorAll x.l
  let yv := y.h ^^^ xorAll y.l
  let lc := ch ^^^ ((xv + yv) ^^^ xv ^^^ yv)
  let own := lc ^^^ xorOthers e fun i => prefixXorShift (r i)
  let product := (log.aux ^^^ ((xorAll x.l ^^^ lc) &&& (xorAll y.l ^^^ lc)) ^^^ xorOthers e t) &&&
    addCorrection ^^^ (t e &&& ~~~addCorrection)
  let top := log.s[e] ^^^ broadcast (x.h ^^^ ch) (y.h ^^^ ch) (x.l e ^^^ own) (y.l e ^^^ own) product 0
    log.aux (e.val = 0)
  ((own ^^^ own >>> 1) &&& addCorrection ^^^ (top &&& ~~~addCorrection), product)

def solveGate (op : Gate) (e : Fin n) (x y : Mw n) (log : GateLog n) (r t : Fin n → Word) :
    Word × Word :=
  match op with
  | .and => solveAnd e x y log t
  | .add => solveAdd e x y log r t

end Solve

section Words

variable {n : Nat}

theorem xorOthers_xor (e : Fin n) (f : Fin n → Word) : xorOthers e f ^^^ f e = xorAll f := by
  cases n with
  | zero => exact e.elim0
  | succ n =>
    rw [xorOthers, xorAll_succAbove _ e, xorAll_succAbove f e]
    simp [BitVec.xor_comm]

theorem xorOthers_update (e : Fin n) (f : Fin n → Word) (v : Word) :
    xorOthers e (Function.update f e v) = xorOthers e f := by
  simp [xorOthers]

theorem xorAll_update (e : Fin n) (f : Fin n → Word) (v : Word) :
    xorAll (Function.update f e v) = xorOthers e f ^^^ v := by
  rw [← xorOthers_xor e, xorOthers_update, Function.update_self]

/-- The broadcast is additive in the party's own mask word. -/
theorem broadcast_zero (p q l m t r corr : Word) (first : Prop) [Decidable first] :
    broadcast p q l m t r corr first = broadcast p q l m t 0 corr first ^^^ r := by
  unfold broadcast
  by_cases h : first
  · simp only [h, if_true]
    generalize p &&& m ^^^ q &&& l ^^^ t = a, p &&& q ^^^ corr = b
    rw [BitVec.xor_assoc, BitVec.xor_comm r, ← BitVec.xor_assoc]
    simp
  · simp [h]

theorem addCorrection_top : ∀ b, b < 32 → 31 ≤ b → addCorrection.getLsbD b = false := by decide

/-- A word is its low bits and its top bit. -/
theorem eq_of_low_top {v w : Word} (low : ∀ b, b < 31 → v.getLsbD b = w.getLsbD b)
    (top : v.getLsbD 31 = w.getLsbD 31) : v = w := by
  apply BitVec.eq_of_getLsbD_eq
  intro b hb
  rcases Nat.lt_or_ge b 31 with below | above
  · exact low b below
  · obtain rfl : b = 31 := by omega
    exact top

theorem low_of_split (v w : Word) {b : Nat} (hb : b < 31) :
    (v &&& addCorrection ^^^ (w &&& ~~~addCorrection)).getLsbD b = v.getLsbD b := by
  simp [addCorrection_low b hb]

theorem top_of_split (v w : Word) :
    (v &&& addCorrection ^^^ (w &&& ~~~addCorrection)).getLsbD 31 = w.getLsbD 31 := by
  have clear := addCorrection_top 31 (by omega) (by omega)
  simp only [BitVec.getLsbD_xor, BitVec.getLsbD_and, BitVec.getLsbD_not, clear]
  simp

/-- Prefix sums determine all but the top bit of what is summed. -/
theorem low_of_prefixXorShift {v w : Word} (same : prefixXorShift v = prefixXorShift w) {b : Nat}
    (hb : b < 31) : v.getLsbD b = w.getLsbD b := by
  have hv := prefixXorShift_succ v hb
  have hw := prefixXorShift_succ w hb
  rw [same, hw] at hv
  simpa using hv.symm

/-- Differences of neighbours undo prefix sums. -/
theorem prefixXorShift_of_differences {c v : Word} (zero : c.getLsbD 0 = false)
    (low : ∀ b, b < 31 → v.getLsbD b = (c ^^^ c >>> 1).getLsbD b) : prefixXorShift v = c := by
  refine (eq_prefixXorShift zero fun b hb => ?_).symm
  rw [low b hb]
  simp [Nat.add_comm 1 b]

theorem differences_prefixXorShift (v : Word) {b : Nat} (hb : b < 31) :
    (prefixXorShift v ^^^ prefixXorShift v >>> 1).getLsbD b = v.getLsbD b := by
  rw [BitVec.getLsbD_xor, BitVec.getLsbD_ushiftRight, Nat.add_comm 1 b, prefixXorShift_succ v hb]
  simp

end Words

section Related

variable {n : Nat} {e : Fin n} {x x' y y' : Mw n} {r t : Fin n → Word}

theorem update_ne {f : Fin n → Word} {v : Word} {i : Fin n} (h : i ≠ e) :
    Function.update f e v i = f i := Function.update_of_ne h v f

/-- A log is its auxiliary word and its broadcasts. -/
theorem GateLog.ext {a b : GateLog n} (aux : a.aux = b.aux)
    (s : ∀ i : Fin n, a.s[i] = b.s[i]) : a = b := by
  cases a
  cases b
  obtain rfl := aux
  congr 1
  apply Vector.ext
  intro i hi
  exact s ⟨i, hi⟩

/-- The tape words that are solved for leave the wanted log, and keep the product's shares. -/
theorem solveAnd_spec (hx : (MaskRel.except e).rel x x') (hy : (MaskRel.except e).rel y y') :
    let own := solveAnd e x' y' (andGate x y r t).2 t
    let out := andGate x' y' (Function.update r e own.1) (Function.update t e own.2)
    (MaskRel.except e).rel (andGate x y r t).1 out.1 ∧ out.2 = (andGate x y r t).2 := by
  intro own out
  have aux : out.2.aux = (andGate x y r t).2.aux := by
    change xorAll x'.l &&& xorAll y'.l ^^^ xorAll (Function.update t e own.2) = _
    rw [xorAll_update]
    simp only [own, solveAnd]
    rw [BitVec.xor_comm (xorOthers e t), BitVec.xor_assoc, BitVec.xor_assoc, BitVec.xor_self,
      BitVec.xor_zero, BitVec.xor_comm (andGate x y r t).2.aux, ← BitVec.xor_assoc, BitVec.xor_self,
      BitVec.zero_xor]
  have broadcasts : ∀ i : Fin n, out.2.s[i] = (andGate x y r t).2.s[i] := by
    intro i
    rw [andGate_broadcasts, aux]
    by_cases hidden : i = e
    · subst hidden
      rw [Function.update_self, Function.update_self, broadcast_zero]
      simp only [own, solveAnd]
      rw [BitVec.xor_comm, BitVec.xor_assoc, BitVec.xor_self, BitVec.xor_zero]
    · rw [andGate_broadcasts, update_ne hidden, update_ne hidden, ← hx.1, ← hy.1, ← hx.2 i hidden,
        ← hy.2 i hidden]
  have log := GateLog.ext aux broadcasts
  refine ⟨⟨?_, fun i seen => ?_⟩, log⟩
  · have public' (x y : Mw n) (r t : Fin n → Word) : (andGate x y r t).1.h =
        xorAll fun i : Fin n => (andGate x y r t).2.s[i] := by
      simp [andGate]
    rw [public', public', log]
  · simp [out, andGate, update_ne seen]

/-- A product's own tape words solve for its log. -/
theorem solveAnd_own (t₀ : Word) :
    solveAnd e x y (andGate x y r t).2 (Function.update t e t₀) = (r e, t e) := by
  have product : (andGate x y r t).2.aux ^^^ (xorAll x.l &&& xorAll y.l) ^^^ xorOthers e t = t e := by
    change (xorAll x.l &&& xorAll y.l ^^^ xorAll t) ^^^ _ ^^^ _ = _
    rw [← xorOthers_xor e t]
    generalize xorAll x.l &&& xorAll y.l = p, xorOthers e t = o
    rw [BitVec.xor_comm p, xor_xor_cancel_right, BitVec.xor_comm o, xor_xor_cancel_right]
  simp only [solveAnd, xorOthers_update, product]
  refine Prod.ext ?_ rfl
  have own := andGate_broadcasts x y r t e
  rw [broadcast_zero] at own
  change (andGate x y r t).2.s[e] ^^^ _ = _
  rw [own, BitVec.xor_comm, ← BitVec.xor_assoc, BitVec.xor_self, BitVec.zero_xor]

theorem xorOthers_congr {f g : Fin n → Word} (same : ∀ i, i ≠ e → f i = g i) :
    xorOthers e f = xorOthers e g := by
  have functions : Function.update f e 0 = Function.update g e 0 := by
    funext i
    by_cases hidden : i = e
    · rw [hidden, Function.update_self, Function.update_self]
    · rw [update_ne hidden, update_ne hidden, same i hidden]
  exact congrArg xorAll functions

theorem xorOthers_map {f : Word → Word} (linear : XorLinear f) (l : Fin n → Word) :
    xorOthers e (fun i => f (l i)) = f (xorOthers e l) := by
  have functions : Function.update (fun i => f (l i)) e 0 = fun i => f (Function.update l e 0 i) := by
    funext i
    by_cases hidden : i = e
    · rw [hidden, Function.update_self, Function.update_self]
      exact linear.zeros.symm
    · rw [update_ne hidden, update_ne hidden]
  rw [xorOthers, functions, ← xorAll_map linear, xorOthers]

theorem xorAll_map_update (f : Word → Word) (l : Fin n → Word) (v : Word) :
    xorAll (fun i => f (Function.update l e v i)) = xorOthers e (fun i => f (l i)) ^^^ f v := by
  rw [← xorOthers_xor e, Function.update_self]
  congr 1
  exact xorOthers_congr fun i hidden => by rw [update_ne hidden]

/-- Broadcasts of a sum that agree elsewhere and in the public carry word agree below the top
bit. -/
theorem low_of_sums {s u : Fin n → Word} (same : prefixXorShift (xorAll s) = prefixXorShift (xorAll u))
    (others : ∀ i, i ≠ e → s i = u i) {b : Nat} (hb : b < 31) :
    (s e).getLsbD b = (u e).getLsbD b := by
  have sums := low_of_prefixXorShift same hb
  have rest := xorOthers_congr others
  rw [← xorOthers_xor e s, ← xorOthers_xor e u, rest] at sums
  simpa using sums

end Related

section Sums

variable {n : Nat} {e : Fin (n + 1)} {x x' y y' : Mw (n + 1)} {r t : Fin (n + 1) → Word}

/-- The carry masks, the correction and the public carry word of a sum. -/
theorem addGate_parts (x y : Mw (n + 1)) (r t : Fin (n + 1) → Word) :
    let lc := xorAll fun i => prefixXorShift (r i)
    let ch := prefixXorShift (xorAll fun i : Fin (n + 1) => (addGate x y r t).2.s[i])
    ch = ((x.h ^^^ xorAll x.l) + (y.h ^^^ xorAll y.l)) ^^^ (x.h ^^^ xorAll x.l) ^^^
        (y.h ^^^ xorAll y.l) ^^^ lc ∧
      (addGate x y r t).1.h = x.h ^^^ y.h ^^^ ch ∧
      (addGate x y r t).2.aux =
        ((xorAll x.l ^^^ lc) &&& (xorAll y.l ^^^ lc) ^^^ xorAll t) &&& addCorrection ∧
      ∀ i : Fin (n + 1), (addGate x y r t).2.s[i] =
        broadcast (x.h ^^^ ch) (y.h ^^^ ch) (x.l i ^^^ prefixXorShift (r i))
          (y.l i ^^^ prefixXorShift (r i)) (t i) (r i) (addGate x y r t).2.aux (i.val = 0) := by
  obtain ⟨ch, prefixed, masked, broadcasts⟩ := addGate_broadcasts x y r t
  simp only [← prefixed]
  refine ⟨?_, masked, rfl, broadcasts⟩
  have public' : (addGate x y r t).1.h = x.h ^^^ y.h ^^^ (((x.h ^^^ xorAll x.l) + (y.h ^^^ xorAll y.l)) ^^^
    (x.h ^^^ xorAll x.l) ^^^ (y.h ^^^ xorAll y.l) ^^^ xorAll fun i => prefixXorShift (r i)) := rfl
  rw [masked] at public'
  have cancelled := congrArg ((x.h ^^^ y.h) ^^^ ·) public'
  simpa only [xor_xor_cancel_left] using cancelled

theorem sumAux_top (x y : Mw (n + 1)) (r t : Fin (n + 1) → Word) :
    (addGate x y r t).2.aux.getLsbD 31 = false := by
  have clear := addCorrection_top 31 (by omega) (by omega)
  obtain ⟨-, -, aux, -⟩ := addGate_parts x y r t
  rw [aux, BitVec.getLsbD_and, clear, Bool.and_false]

/-- The tape words that are solved for leave the wanted log; the top bit of the product's share
is kept. -/
theorem solveAdd_spec (hx : (MaskRel.except e).rel x x') (hy : (MaskRel.except e).rel y y') :
    let own := solveAdd e x' y' (addGate x y r t).2 r t
    let out := addGate x' y' (Function.update r e own.1) (Function.update t e own.2)
    (MaskRel.except e).rel (addGate x y r t).1 out.1 ∧ out.2 = (addGate x y r t).2 ∧
      own.2.getLsbD 31 = (t e).getLsbD 31 := by
  intro own out
  obtain ⟨-, masked, -, broadcasts⟩ := addGate_parts x y r t
  obtain ⟨carried', masked', aux', broadcasts'⟩ := addGate_parts x' y'
    (Function.update r e own.1) (Function.update t e own.2)
  have auxTop := sumAux_top x y r t
  have top : own.2.getLsbD 31 = (t e).getLsbD 31 := top_of_split _ _
  -- the carry mask of the hidden party makes the public carry word come out as before
  have carries : prefixXorShift own.1 = (prefixXorShift (xorAll fun i : Fin (n + 1) => (addGate x y r t).2.s[i]) ^^^
      (((x'.h ^^^ xorAll x'.l) + (y'.h ^^^ xorAll y'.l)) ^^^ (x'.h ^^^ xorAll x'.l) ^^^
        (y'.h ^^^ xorAll y'.l))) ^^^ xorOthers e fun i => prefixXorShift (r i) := by
    apply prefixXorShift_of_differences
    · rw [xorOthers_map prefixXorShift_linear, BitVec.getLsbD_xor, BitVec.getLsbD_xor, carryWord_zero,
        prefixXorShift_zero, prefixXorShift_zero]
      rfl
    · intro b hb
      exact low_of_split _ _ hb
  have product : ∀ b, b < 31 → own.2.getLsbD b = _ := fun b hb => low_of_split _ _ hb
  have topShare : own.1.getLsbD 31 = ((addGate x y r t).2.s[e] ^^^
      broadcast (x'.h ^^^ prefixXorShift (xorAll fun i : Fin (n + 1) => (addGate x y r t).2.s[i]))
        (y'.h ^^^ prefixXorShift (xorAll fun i : Fin (n + 1) => (addGate x y r t).2.s[i]))
        (x'.l e ^^^ prefixXorShift own.1) (y'.l e ^^^ prefixXorShift own.1) own.2 0
        (addGate x y r t).2.aux (e.val = 0)).getLsbD 31 := by
    rw [carries]
    exact top_of_split _ _
  generalize hch : prefixXorShift (xorAll fun i : Fin (n + 1) => (addGate x y r t).2.s[i]) = ch at *
  generalize hc : ((x'.h ^^^ xorAll x'.l) + (y'.h ^^^ xorAll y'.l)) ^^^ (x'.h ^^^ xorAll x'.l) ^^^
    (y'.h ^^^ xorAll y'.l) = c at *
  have carryMask : (xorAll fun i => prefixXorShift (Function.update r e own.1 i)) = ch ^^^ c := by
    rw [xorAll_map_update, carries, BitVec.xor_comm, xor_xor_cancel_right]
  rw [carryMask, BitVec.xor_comm ch, xor_xor_cancel_left] at carried'
  rw [carryMask] at aux'
  rw [carried'] at masked' broadcasts'
  have sums : out.2.aux = (addGate x y r t).2.aux := by
    apply eq_of_low_top
    · intro b hb
      have low := product b hb
      change (addGate x' y' _ _).2.aux.getLsbD b = _
      rw [aux', xorAll_update]
      generalize (xorAll x'.l ^^^ (ch ^^^ c)) &&& (xorAll y'.l ^^^ (ch ^^^ c)) = p at low ⊢
      rw [BitVec.getLsbD_and, addCorrection_low b hb, Bool.and_true, BitVec.getLsbD_xor,
        BitVec.getLsbD_xor, low, BitVec.getLsbD_xor, BitVec.getLsbD_xor]
      generalize p.getLsbD b = p, (xorOthers e t).getLsbD b = o,
        (addGate x y r t).2.aux.getLsbD b = a
      revert p o a
      decide
    · rw [auxTop]
      exact sumAux_top _ _ _ _
  have elsewhere : ∀ i, i ≠ e → out.2.s[i] = (addGate x y r t).2.s[i] := by
    intro i seen
    rw [broadcasts i, broadcasts' i, sums, update_ne seen, update_ne seen, hx.1, hy.1, hx.2 i seen,
      hy.2 i seen]
  have hidden : out.2.s[e] = (addGate x y r t).2.s[e] := by
    apply eq_of_low_top
    · intro b hb
      exact low_of_sums (s := fun i => out.2.s[i]) (u := fun i : Fin (n + 1) => (addGate x y r t).2.s[i])
        (carried'.trans hch.symm) elsewhere hb
    · have own' := broadcasts' e
      rw [Function.update_self, Function.update_self, broadcast_zero] at own'
      rw [own', BitVec.getLsbD_xor, topShare, BitVec.getLsbD_xor, sums, Bool.xor_comm, Bool.xor_assoc,
        Bool.xor_self, Bool.xor_false]
  refine ⟨⟨?_, fun i seen => ?_⟩, GateLog.ext sums fun i => ?_, top⟩
  · rw [masked, masked', hx.1, hy.1]
  · simp [out, addGate, update_ne seen, hx.2 i seen, hy.2 i seen]
  · by_cases here : i = e
    · rw [here]
      exact hidden
    · exact elsewhere i here

/-- A sum's own tape words solve for its log. -/
theorem solveAdd_own {t₀ : Word} (r₀ : Word) (kept : t₀.getLsbD 31 = (t e).getLsbD 31) :
    solveAdd e x y (addGate x y r t).2 (Function.update r e r₀) (Function.update t e t₀) =
      (r e, t e) := by
  obtain ⟨carried, -, aux, broadcasts⟩ := addGate_parts x y r t
  generalize hch : prefixXorShift (xorAll fun i : Fin (n + 1) => (addGate x y r t).2.s[i]) = ch at *
  generalize hc : ((x.h ^^^ xorAll x.l) + (y.h ^^^ xorAll y.l)) ^^^ (x.h ^^^ xorAll x.l) ^^^
    (y.h ^^^ xorAll y.l) = c at *
  have carryMask : ch ^^^ c = xorAll fun i => prefixXorShift (r i) := by
    rw [carried, BitVec.xor_comm c, xor_xor_cancel_right]
  have own : (ch ^^^ c) ^^^ (xorOthers e fun i => prefixXorShift (Function.update r e r₀ i)) =
      prefixXorShift (r e) := by
    have others : (xorOthers e fun i => prefixXorShift (Function.update r e r₀ i)) =
        xorOthers e fun i => prefixXorShift (r i) :=
      xorOthers_congr fun i seen => by rw [update_ne seen]
    rw [carryMask, others, ← xorOthers_xor e, BitVec.xor_comm (xorOthers e _), xor_xor_cancel_right]
  have product : ((addGate x y r t).2.aux ^^^ ((xorAll x.l ^^^ (ch ^^^ c)) &&&
      (xorAll y.l ^^^ (ch ^^^ c))) ^^^ xorOthers e t) &&& addCorrection ^^^ (t₀ &&& ~~~addCorrection) =
        t e := by
    apply eq_of_low_top
    · intro b hb
      rw [low_of_split _ _ hb, aux, carryMask, ← xorOthers_xor e t]
      generalize (xorAll x.l ^^^ _) &&& (xorAll y.l ^^^ _) = p
      simp only [BitVec.getLsbD_xor, BitVec.getLsbD_and, addCorrection_low b hb, Bool.and_true]
      generalize p.getLsbD b = p, (xorOthers e t).getLsbD b = o, (t e).getLsbD b = t
      revert p o t
      decide
    · rw [top_of_split, kept]
  have share := broadcasts e
  rw [broadcast_zero] at share
  simp only [solveAdd, hch, hc, own, xorOthers_update, Function.update_self, product]
  refine Prod.ext (eq_of_low_top (fun b hb => ?_) ?_) rfl
  · rw [low_of_split _ _ hb, differences_prefixXorShift _ hb]
  · rw [top_of_split, share, BitVec.getLsbD_xor, BitVec.getLsbD_xor, Bool.xor_comm, ← Bool.xor_assoc,
      Bool.xor_self, Bool.false_xor]

end Sums

section Gates

variable {n : Nat} {e : Fin (n + 1)} {x x' y y' : Mw (n + 1)} {r t : Fin (n + 1) → Word}

theorem solveGate_spec (op : Gate) (hx : (MaskRel.except e).rel x x')
    (hy : (MaskRel.except e).rel y y') :
    let own := solveGate op e x' y' (gateOn op x y r t).2 r t
    let out := gateOn op x' y' (Function.update r e own.1) (Function.update t e own.2)
    (MaskRel.except e).rel (gateOn op x y r t).1 out.1 ∧ out.2 = (gateOn op x y r t).2 ∧
      (op = .add → own.2.getLsbD 31 = (t e).getLsbD 31) := by
  cases op with
  | and =>
    obtain ⟨related, log⟩ := solveAnd_spec (r := r) (t := t) hx hy
    exact ⟨related, log, nofun⟩
  | add =>
    obtain ⟨related, log, top⟩ := solveAdd_spec (r := r) (t := t) hx hy
    exact ⟨related, log, fun _ => top⟩

theorem solveGate_own (op : Gate) (r₀ : Word) {t₀ : Word}
    (kept : op = .add → t₀.getLsbD 31 = (t e).getLsbD 31) :
    solveGate op e x y (gateOn op x y r t).2 (Function.update r e r₀) (Function.update t e t₀) =
      (r e, t e) := by
  cases op with
  | and => exact solveAnd_own t₀
  | add => exact solveAdd_own r₀ (kept rfl)

end Gates

section Tapes

/-- The tape with the given words. -/
def tapeOf (lam prod : Vector Word ySize) : Tape :=
  Vector.ofFn fun i : Fin tapeSize =>
    byteAt (if i.val / 4 < ySize then wordAt lam (i.val / 4) else wordAt prod (i.val / 4 - ySize))
      (i.val % 4)

theorem tapeLam_tapeOf (lam prod : Vector Word ySize) {g : Nat} (hg : g < ySize) :
    tapeLam (tapeOf lam prod) g = wordAt lam g := by
  rw [← le32_byteAt (wordAt lam g), tapeLam, tapeGet32]
  congr 1
  funext i
  have inside : g * 4 + i.val < tapeSize := by
    unfold tapeSize
    omega
  have quotient : (g * 4 + i.val) / 4 = g := by omega
  have remainder : (g * 4 + i.val) % 4 = i.val := by omega
  simp [tapeOf, inside, quotient, remainder, hg]

theorem tapeProd_tapeOf (lam prod : Vector Word ySize) {g : Nat} (hg : g < ySize) :
    tapeProd (tapeOf lam prod) g = wordAt prod g := by
  rw [← le32_byteAt (wordAt prod g), tapeProd, tapeGet32]
  congr 1
  funext i
  have inside : ySize * 4 + g * 4 + i.val < tapeSize := by
    unfold tapeSize
    omega
  have quotient : (ySize * 4 + g * 4 + i.val) / 4 = ySize + g := by omega
  have remainder : (ySize * 4 + g * 4 + i.val) % 4 = i.val := by omega
  have second : ¬ ySize + g < ySize := by omega
  simp [tapeOf, inside, quotient, remainder, second]

/-- A tape is its words. -/
theorem tape_ext {tape tape' : Tape}
    (lam : ∀ g, g < ySize → tapeLam tape g = tapeLam tape' g)
    (prod : ∀ g, g < ySize → tapeProd tape g = tapeProd tape' g) : tape = tape' := by
  have read (tape : Tape) (i : Nat) (hi : i < tapeSize) :
      tape[i] = byteAt (if i / 4 < ySize then tapeLam tape (i / 4) else tapeProd tape (i / 4 - ySize))
        (i % 4) := by
    have remainder : i % 4 < 4 := Nat.mod_lt _ (by decide)
    split
    · have word := byteAt_le32 (fun j : Fin 4 => tape[i / 4 * 4 + j.val]?.getD 0) ⟨i % 4, remainder⟩
      rw [tapeLam, tapeGet32, word]
      simp [Nat.div_add_mod', hi]
    · have word := byteAt_le32 (fun j : Fin 4 =>
        tape[ySize * 4 + (i / 4 - ySize) * 4 + j.val]?.getD 0) ⟨i % 4, remainder⟩
      have position : ySize * 4 + (i / 4 - ySize) * 4 + i % 4 = i := by omega
      rw [tapeProd, tapeGet32, word]
      simp only [position]
      simp [hi]
  apply Vector.ext
  intro i hi
  rw [read tape i hi, read tape' i hi]
  unfold tapeSize at hi
  split
  · rw [lam _ ‹_›]
  · rw [prod _ (by omega)]

end Tapes

section Runs

variable {n : Nat} {e : Fin (n + 1)} {mHat : Vector Byte 32} {pkSeed : PkSeed}
  {tapes : Vector Tape (n + 1)}

def lamWords (tapes : Vector Tape (n + 1)) (g : Nat) : Fin (n + 1) → Word :=
  fun i => tapeLam tapes[i] g

def prodWords (tapes : Vector Tape (n + 1)) (g : Nat) : Fin (n + 1) → Word :=
  fun i => tapeProd tapes[i] g

theorem proverStep_eq (tapes : Vector Tape (n + 1)) (g : Nat) (op : Gate) (x y : Mw (n + 1)) :
    proverStep tapes g op x y = gateOn op x y (lamWords tapes g) (prodWords tapes g) := by
  cases op with
  | and => rfl
  | add => rfl

theorem lamWords_set (tapes : Vector Tape (n + 1)) (e : Fin (n + 1)) (tape : Tape) (g : Nat) :
    lamWords (tapes.set e tape) g = Function.update (lamWords tapes g) e (tapeLam tape g) := by
  funext i
  by_cases hidden : i = e
  · subst hidden
    simp [lamWords]
  · have apart : e.val ≠ i.val := fun h => hidden (Fin.ext h.symm)
    simp [lamWords, update_ne hidden, Vector.getElem_set_ne, apart]

theorem prodWords_set (tapes : Vector Tape (n + 1)) (e : Fin (n + 1)) (tape : Tape) (g : Nat) :
    prodWords (tapes.set e tape) g = Function.update (prodWords tapes g) e (tapeProd tape g) := by
  funext i
  by_cases hidden : i = e
  · subst hidden
    simp [prodWords]
  · have apart : e.val ≠ i.val := fun h => hidden (Fin.ext h.symm)
    simp [prodWords, update_ne hidden, Vector.getElem_set_ne, apart]

/-- The log of gate `g` as the written arrays have it. -/
def logAt (aux : Vector Word ySize) (s : Vector (Vector Word ySize) (n + 1)) (g : Nat) :
    GateLog (n + 1) :=
  ⟨wordAt aux g, Vector.ofFn fun i : Fin (n + 1) => wordAt s[i] g⟩

/-- A gate on tape words of party `e` that make it leave the given log; it tells these words. -/
def solveStep (e : Fin (n + 1)) (tapes : Vector Tape (n + 1)) (aux : Vector Word ySize)
    (s : Vector (Vector Word ySize) (n + 1)) (g : Nat) (op : Gate) (x y : Mw (n + 1)) :
    Mw (n + 1) × (Word × Word) × GateLog (n + 1) :=
  let own := solveGate op e x y (logAt aux s g) (lamWords tapes g) (prodWords tapes g)
  let out := gateOn op x y (Function.update (lamWords tapes g) e own.1)
    (Function.update (prodWords tapes g) e own.2)
  (out.1, own, out.2)

def solveRun (mHat : Vector Byte 32) (pkSeed : PkSeed) (dPub : Witness) (lam : Vector Witness (n + 1))
    (e : Fin (n + 1)) (tapes : Vector Tape (n + 1)) (aux : Vector Word ySize)
    (s : Vector (Vector Word ySize) (n + 1)) :
    Vector (Mw (n + 1)) 8 × List ((Word × Word) × GateLog (n + 1)) :=
  (circuit mHat pkSeed (shareWitness dPub lam)).run (solveStep e tapes aux s) 0

/-- The tape that the run solves for. -/
def solvedTape (mHat : Vector Byte 32) (pkSeed : PkSeed) (dPub : Witness)
    (lam : Vector Witness (n + 1)) (e : Fin (n + 1)) (tapes : Vector Tape (n + 1))
    (aux : Vector Word ySize) (s : Vector (Vector Word ySize) (n + 1)) : Tape :=
  let logs := (solveRun mHat pkSeed dPub lam e tapes aux s).2
  tapeOf (column logs fun l => l.1.1) (column logs fun l => l.1.2)

variable {dPub : Witness} {lam lam' : Vector Witness (n + 1)}

theorem circuit_same (mHat : Vector Byte 32) (pkSeed : PkSeed) (d : Masked (n + 1) Witness) :
    Sim (MaskRel.same (n + 1)).rel (MaskRel.same (n + 1)).vec ySize (circuit mHat pkSeed d)
      (circuit mHat pkSeed d) :=
  circuit_sim (MaskRel.same (n + 1)) rfl rfl rfl

theorem circuit_except (mHat : Vector Byte 32) (pkSeed : PkSeed) (dPub : Witness)
    (others : ∀ i : Fin (n + 1), i ≠ e → lam[i] = lam'[i]) :
    Sim (MaskRel.except e).rel (MaskRel.except e).vec ySize
      (circuit mHat pkSeed (shareWitness dPub lam)) (circuit mHat pkSeed (shareWitness dPub lam')) :=
  circuit_sim (MaskRel.except e) ((MaskRel.except e).const _) ((MaskRel.except e).const _)
    ⟨rfl, others⟩

theorem solveRun_length (aux : Vector Word ySize) (s : Vector (Vector Word ySize) (n + 1)) :
    (solveRun mHat pkSeed dPub lam e tapes aux s).2.length = ySize := by
  rw [solveRun]
  exact (circuit_same mHat pkSeed _).length_left (solveStep e tapes aux s) (fun z => ⟨z, rfl⟩) 0

/-- The prover's log is in the arrays it wrote. -/
theorem proverRun_logAt (mHat : Vector Byte 32) (pkSeed : PkSeed) (dPub : Witness)
    (lam : Vector Witness (n + 1)) (tapes : Vector Tape (n + 1)) :
    Holds (fun g l => l = logAt (buildingViews mHat pkSeed dPub lam tapes).aux
      (buildingViews mHat pkSeed dPub lam tapes).s g) 0 (proverRun mHat pkSeed dPub lam tapes).2 := by
  have length : (proverRun mHat pkSeed dPub lam tapes).2.length = ySize := proverRun_length
  have words := holds_of_column length (buildingViews_aux_eq mHat pkSeed dPub lam tapes).symm
  have rows (i : Fin (n + 1)) :=
    holds_of_column length (buildingViews_s_eq mHat pkSeed dPub lam tapes i).symm
  intro g l hl
  apply GateLog.ext
  · exact words g l hl
  · intro i
    rw [rows i g l hl]
    simp [logAt]

/-- The words that a run solves for are on the tape. -/
theorem solvedTape_words (aux : Vector Word ySize) (s : Vector (Vector Word ySize) (n + 1)) :
    let tape := solvedTape mHat pkSeed dPub lam e tapes aux s
    Holds (fun g l => tapeLam tape g = l.1.1 ∧ tapeProd tape g = l.1.2) 0
      (solveRun mHat pkSeed dPub lam e tapes aux s).2 := by
  intro tape
  have length : (solveRun mHat pkSeed dPub lam e tapes aux s).2.length = ySize :=
    solveRun_length aux s
  have first := holds_of_column (f := fun l => l.1.1) length rfl
  have second := holds_of_column (f := fun l => l.1.2) length rfl
  intro g l hl
  have inside : 0 + g < ySize := by
    obtain ⟨bound, -⟩ := List.getElem?_eq_some_iff.mp hl
    omega
  constructor
  · rw [first g l hl]
    exact tapeLam_tapeOf _ _ inside
  · rw [second g l hl]
    exact tapeProd_tapeOf _ _ inside

/-- The run that solves for the tape of another share of the hidden party leaves the prover's
log, on wires that agree outside that party. -/
theorem solveRun_except (mHat : Vector Byte 32) (pkSeed : PkSeed) (dPub : Witness)
    (tapes : Vector Tape (n + 1)) (others : ∀ i : Fin (n + 1), i ≠ e → lam[i] = lam'[i]) :
    let views := buildingViews mHat pkSeed dPub lam tapes
    let solved := solveRun mHat pkSeed dPub lam' e tapes views.aux views.s
    (MaskRel.except e).vec (proverRun mHat pkSeed dPub lam tapes).1 solved.1 ∧
      Holds (fun _ p => p.2.2 = p.1) 0 ((proverRun mHat pkSeed dPub lam tapes).2.zip solved.2) := by
  intro views solved
  have run := (circuit_except mHat pkSeed dPub others).run (proverStep tapes)
    (solveStep e tapes views.aux views.s) (P := fun g l => l = logAt views.aux views.s g)
    (Q := fun _ p => p.2.2 = p.1) (fun g op x x' y y' hx hy logged => by
      rw [proverStep_eq] at logged ⊢
      obtain ⟨related, log, -⟩ := solveGate_spec (r := lamWords tapes g) (t := prodWords tapes g)
        op hx hy
      rw [logged] at related log
      rw [solveStep, logged]
      exact ⟨related, log⟩) 0 (proverRun_logAt mHat pkSeed dPub lam tapes)
  obtain ⟨outputs, -, -, logs⟩ := run
  exact ⟨outputs, logs⟩

/-- The prover's run on the solved tape is the run that solved for it. -/
theorem proverRun_solvedTape (mHat : Vector Byte 32) (pkSeed : PkSeed) (dPub : Witness)
    (lam : Vector Witness (n + 1)) (e : Fin (n + 1)) (tapes : Vector Tape (n + 1))
    (aux : Vector Word ySize) (s : Vector (Vector Word ySize) (n + 1)) :
    let tape := solvedTape mHat pkSeed dPub lam e tapes aux s
    let solved := solveRun mHat pkSeed dPub lam e tapes aux s
    let run := proverRun mHat pkSeed dPub lam (tapes.set e tape)
    solved.1 = run.1 ∧ Holds (fun _ p => p.1.2 = p.2) 0 (solved.2.zip run.2) := by
  intro tape solved run
  have same := (circuit_same mHat pkSeed (shareWitness dPub lam)).run (solveStep e tapes aux s)
    (proverStep (tapes.set e tape)) (P := fun g l => tapeLam tape g = l.1.1 ∧ tapeProd tape g = l.1.2)
    (Q := fun _ p => p.1.2 = p.2) (fun g op x x' y y' hx hy words => by
      obtain rfl : x = x' := hx
      obtain rfl : y = y' := hy
      obtain ⟨lamWord, prodWord⟩ := words
      rw [proverStep_eq, lamWords_set, prodWords_set, lamWord, prodWord]
      exact ⟨rfl, rfl⟩) 0 (solvedTape_words aux s)
  obtain ⟨outputs, -, -, logs⟩ := same
  exact ⟨Vector.ext outputs, logs⟩

/-- Solving on the solved tape, for the first share, gives the first tape back. -/
theorem solveRun_back (mHat : Vector Byte 32) (pkSeed : PkSeed) (dPub : Witness)
    (tapes : Vector Tape (n + 1)) (others : ∀ i : Fin (n + 1), i ≠ e → lam[i] = lam'[i]) :
    let views := buildingViews mHat pkSeed dPub lam tapes
    let tape := solvedTape mHat pkSeed dPub lam' e tapes views.aux views.s
    solvedTape mHat pkSeed dPub lam e (tapes.set e tape) views.aux views.s = tapes[e] := by
  intro views tape
  have back := (circuit_except mHat pkSeed dPub others).run_both (proverStep tapes)
    (solveStep e tapes views.aux views.s) (solveStep e (tapes.set e tape) views.aux views.s)
    (P := fun g l => l = logAt views.aux views.s g)
    (S := fun g l => tapeLam tape g = l.1.1 ∧ tapeProd tape g = l.1.2) (T := fun _ _ => True)
    (Q := fun g l => l.1.1 = tapeLam tapes[e] g ∧ l.1.2 = tapeProd tapes[e] g)
    (fun g op x y x₁ y₁ x₂ y₂ hx₁ hy₁ hx₂ hy₂ logged words _ => by
      obtain rfl : x = x₂ := hx₂
      obtain rfl : y = y₂ := hy₂
      rw [proverStep_eq] at logged ⊢
      obtain ⟨related, -, top⟩ := solveGate_spec (r := lamWords tapes g) (t := prodWords tapes g)
        op hx₁ hy₁
      have kept : op = .add → (tapeProd tape g).getLsbD 31 = (prodWords tapes g e).getLsbD 31 := by
        intro sum
        rw [words.2, solveStep, ← logged]
        exact top sum
      have own := solveGate_own (x := x) (y := y) (r := lamWords tapes g) (t := prodWords tapes g) op
        (tapeLam tape g) kept
      rw [logged] at related own
      rw [solveStep, solveStep, lamWords_set, prodWords_set, own]
      refine ⟨related, ?_, rfl, rfl⟩
      simp only [Function.update_idem, Function.update_eq_self]
      rfl)
    (circuit_same mHat pkSeed (shareWitness dPub lam)) 0 (proverRun_logAt mHat pkSeed dPub lam tapes)
    (solvedTape_words views.aux views.s) fun _ _ _ => trivial
  obtain ⟨-, -, told⟩ := back
  change Holds _ 0 (solveRun mHat pkSeed dPub lam e (tapes.set e tape) views.aux views.s).2 at told
  have length : (solveRun mHat pkSeed dPub lam e (tapes.set e tape) views.aux views.s).2.length =
    ySize := solveRun_length ..
  have words : Holds (fun g l => tapeLam (solvedTape mHat pkSeed dPub lam e (tapes.set e tape) views.aux
      views.s) g = l.1.1 ∧ tapeProd (solvedTape mHat pkSeed dPub lam e (tapes.set e tape) views.aux
      views.s) g = l.1.2) 0 (solveRun mHat pkSeed dPub lam e (tapes.set e tape) views.aux views.s).2 :=
    solvedTape_words views.aux views.s
  have entry : ∀ g, g < ySize → ∃ l, (solveRun mHat pkSeed dPub lam e (tapes.set e tape) views.aux
      views.s).2[g]? = some l := fun g hg => ⟨_, List.getElem?_eq_getElem (length ▸ hg)⟩
  apply tape_ext
  · intro g hg
    obtain ⟨l, hl⟩ := entry g hg
    have word := (words g l hl).1.trans (told g l hl).1
    rwa [Nat.zero_add] at word
  · intro g hg
    obtain ⟨l, hl⟩ := entry g hg
    have word := (words g l hl).2.trans (told g l hl).2
    rwa [Nat.zero_add] at word

/-- The same witness data on the solved tape: the same broadcasts, corrections and public output
words, and the same output masks of the other parties. -/
theorem buildingViews_solvedTape (mHat : Vector Byte 32) (pkSeed : PkSeed) (dPub : Witness)
    (tapes : Vector Tape (n + 1))
    (others : ∀ i : Fin (n + 1), i ≠ e → lam[i] = lam'[i]) :
    let views := buildingViews mHat pkSeed dPub lam tapes
    let tape := solvedTape mHat pkSeed dPub lam' e tapes views.aux views.s
    let views' := buildingViews mHat pkSeed dPub lam' (tapes.set e tape)
    views'.zhOut = views.zhOut ∧ views'.aux = views.aux ∧ views'.s = views.s ∧
      views'.gates = views.gates ∧ ∀ i : Fin (n + 1), i ≠ e → views'.yp[i] = views.yp[i] := by
  intro views tape views'
  obtain ⟨related, logs⟩ := solveRun_except mHat pkSeed dPub tapes others
  obtain ⟨outputs, logs'⟩ := proverRun_solvedTape mHat pkSeed dPub lam' e tapes views.aux views.s
  rw [outputs] at related
  have length : (proverRun mHat pkSeed dPub lam tapes).2.length = ySize := proverRun_length
  have length' : (proverRun mHat pkSeed dPub lam' (tapes.set e tape)).2.length = ySize :=
    proverRun_length
  have lengthS : (solveRun mHat pkSeed dPub lam' e tapes views.aux views.s).2.length = ySize :=
    solveRun_length ..
  have columns (f : GateLog (n + 1) → Word) :
      column (proverRun mHat pkSeed dPub lam' (tapes.set e tape)).2 f =
        column (proverRun mHat pkSeed dPub lam tapes).2 f := by
    have left := column_congr (f := f) (h := fun l => f l.2) (length.trans lengthS.symm)
      fun g p hp => congrArg f (logs g p hp).symm
    have right := column_congr (f := fun l => f l.2) (h := f) (lengthS.trans length'.symm)
      fun g p hp => congrArg f (logs' g p hp)
    exact (left.trans right).symm
  refine ⟨?_, columns _, ?_, length'.trans length.symm, fun i seen => ?_⟩
  · apply Vector.ext
    intro w hw
    rw [buildingViews_zhOut_eq, buildingViews_zhOut_eq, Vector.getElem_map, Vector.getElem_map]
    exact (related w hw).1.symm
  · apply Vector.ext
    intro i hi
    have row := buildingViews_s_eq mHat pkSeed dPub lam tapes ⟨i, hi⟩
    have row' := buildingViews_s_eq mHat pkSeed dPub lam' (tapes.set e tape) ⟨i, hi⟩
    exact row'.trans ((columns _).trans row.symm)
  · rw [buildingViews_yp_eq, buildingViews_yp_eq]
    apply Vector.ext
    intro w hw
    rw [Vector.getElem_map, Vector.getElem_map]
    exact ((related w hw).2 i seen).symm

end Runs

section Result

variable {n : Nat}

theorem xorShares_set (x v : Witness) (lam : Vector Witness (n + 1)) (e : Fin (n + 1)) :
    xorShares x (lam.set e v) = x ^^^ (v ^^^ xorAll fun j : Fin n => lam[e.succAbove j]) := by
  have own : (lam.set e v)[e] = v := by simp
  have rest (j : Fin n) : (lam.set e v)[e.succAbove j] = lam[e.succAbove j] := by
    have apart : e.val ≠ (e.succAbove j).val := fun h => Fin.succAbove_ne e j (Fin.ext h.symm)
    simp [Vector.getElem_set_ne, apart]
  rw [xorShares, foldl_xor_eq, xorAll_succAbove _ e]
  simp only [getElem_fin, own, rest]

theorem getElem_set_apart (v : Vector α (n + 1)) {e i : Fin (n + 1)} (seen : i ≠ e) (a : α) :
    (v.set e a)[i] = v[i] := by
  have apart : e.val ≠ i.val := fun h => seen (Fin.ext h.symm)
  simp [Vector.getElem_set_ne, apart]

/-- What an instance shows whose party `e` is hidden: the masked witness and what the run writes.
The hidden party's share and tape are `own`. -/
def revealed (mHat : Vector Byte 32) (pkSeed : PkSeed) (e : Fin (n + 1))
    (lam : Vector Witness (n + 1)) (tapes : Vector Tape (n + 1)) (x : Witness) (own : Witness × Tape) :
    Witness × Views (n + 1) :=
  let lam := lam.set e own.1
  let dPub := xorShares x lam
  (dPub, buildingViews mHat pkSeed dPub lam (tapes.set e own.2))

/-- The share and tape that make `x'` look as `x` does. -/
def reshare (mHat : Vector Byte 32) (pkSeed : PkSeed) (e : Fin (n + 1))
    (lam : Vector Witness (n + 1)) (tapes : Vector Tape (n + 1)) (x x' : Witness)
    (own : Witness × Tape) : Witness × Tape :=
  let shown := revealed mHat pkSeed e lam tapes x own
  let share := own.1 ^^^ x ^^^ x'
  (share, solvedTape mHat pkSeed shown.1 (lam.set e share) e (tapes.set e own.2) shown.2.aux shown.2.s)

variable {mHat : Vector Byte 32} {pkSeed : PkSeed} {e : Fin (n + 1)} {lam : Vector Witness (n + 1)}
  {tapes : Vector Tape (n + 1)} {x x' : Witness}

theorem xorShares_reshare (own : Witness × Tape) :
    xorShares x' (lam.set e (own.1 ^^^ x ^^^ x')) = xorShares x (lam.set e own.1) := by
  rw [xorShares_set, xorShares_set]
  generalize xorAll (fun j : Fin n => lam[e.succAbove j]) = rest
  rw [← XorGroup.xor_assoc, ← XorGroup.xor_assoc, XorGroup.xor_comm x', xor_xor_cancel_right,
    XorGroup.xor_comm own.1, XorGroup.xor_assoc]

/-- Masks of equal sums that agree outside party `e` agree there too. -/
theorem yp_of_unmasked {zh : Vector Word 8} {yp yp' : Vector (Vector Word 8) (n + 1)}
    (same : unmasked zh yp = unmasked zh yp')
    (others : ∀ i : Fin (n + 1), i ≠ e → yp[i] = yp'[i]) : yp = yp' := by
  have hidden : yp[e] = yp'[e] := by
    apply Vector.ext
    intro w hw
    have word := congrArg (fun v : Vector Word 8 => v[w]) same
    have seen (j : Fin n) : yp[e.succAbove j] = yp'[e.succAbove j] :=
      others _ (Fin.succAbove_ne e j)
    simp only [getElem_fin] at seen
    simp only [unmasked, Vector.getElem_ofFn, foldl_xor_eq, xorAll_succAbove _ e, getElem_fin,
      seen] at word
    rw [← XorGroup.xor_assoc, ← XorGroup.xor_assoc] at word
    have cancelled := congrArg (zh[w] ^^^ ·) (xor_right_injective _ _ _ word)
    simpa only [getElem_fin, xor_xor_cancel_left] using cancelled
  apply Vector.ext
  intro i hi
  by_cases here : (⟨i, hi⟩ : Fin (n + 1)) = e
  · obtain rfl : i = e.val := congrArg Fin.val here
    exact hidden
  · exact others ⟨i, hi⟩ here

theorem views_eq {views views' : Views (n + 1)} (zh : views'.zhOut = views.zhOut)
    (aux : views'.aux = views.aux) (s : views'.s = views.s) (gates : views'.gates = views.gates)
    (yp : ∀ i : Fin (n + 1), i ≠ e → views'.yp[i] = views.yp[i])
    (unmasks : unmasked views'.zhOut views'.yp = unmasked views.zhOut views.yp) : views' = views := by
  rw [zh] at unmasks
  exact Views.ext zh (yp_of_unmasked unmasks yp) aux s gates

/-- The reshared run shows the same. -/
theorem revealed_reshare (same : plainOutput mHat pkSeed x = plainOutput mHat pkSeed x')
    (own : Witness × Tape) : revealed mHat pkSeed e lam tapes x' (reshare mHat pkSeed e lam tapes x x' own) =
      revealed mHat pkSeed e lam tapes x own := by
  obtain ⟨share, tape⟩ := own
  have others : ∀ i : Fin (n + 1), i ≠ e →
      (lam.set e share)[i] = (lam.set e (share ^^^ x ^^^ x'))[i] := fun i seen => by
    rw [getElem_set_apart lam seen, getElem_set_apart lam seen]
  have dPub : xorShares x' (lam.set e (share ^^^ x ^^^ x')) = xorShares x (lam.set e share) :=
    xorShares_reshare (share, tape)
  have unmasks := unmasked_buildingViews mHat pkSeed (xorShares x (lam.set e share))
    (lam.set e share) (tapes.set e tape)
  rw [xorShares_xorShares, same, ← xorShares_xorShares x' (lam.set e (share ^^^ x ^^^ x')), dPub] at unmasks
  obtain ⟨zh, aux, s, gates, yp⟩ := buildingViews_solvedTape mHat pkSeed (xorShares x (lam.set e share))
    (tapes.set e tape) others
  rw [Vector.set_set] at zh aux s gates yp
  simp only [revealed, reshare, dPub]
  refine Prod.ext rfl (views_eq zh aux s gates yp ?_)
  exact (unmasked_buildingViews ..).trans unmasks.symm

/-- Resharing back gives the first share and tape. -/
theorem reshare_reshare (same : plainOutput mHat pkSeed x = plainOutput mHat pkSeed x')
    (own : Witness × Tape) :
    reshare mHat pkSeed e lam tapes x' x (reshare mHat pkSeed e lam tapes x x' own) = own := by
  have shown : revealed mHat pkSeed e lam tapes x' (reshare mHat pkSeed e lam tapes x x' own) = _ :=
    revealed_reshare same own
  obtain ⟨share, tape⟩ := own
  have others : ∀ i : Fin (n + 1), i ≠ e →
      (lam.set e share)[i] = (lam.set e (share ^^^ x ^^^ x'))[i] := fun i seen => by
    rw [getElem_set_apart lam seen, getElem_set_apart lam seen]
  have back := solveRun_back mHat pkSeed (xorShares x (lam.set e share)) (tapes.set e tape) others
  have shares : share ^^^ x ^^^ x' ^^^ x' ^^^ x = share := by
    rw [xor_xor_cancel_right, xor_xor_cancel_right]
  rw [reshare, shown]
  simp only [reshare, revealed, shares]
  dsimp only at back
  rw [Vector.set_set] at back
  exact Prod.ext rfl (back.trans (by simp))

/-- Given what the other parties hold, the shares and tapes of the hidden party that show
something are as many for one witness as for another. -/
theorem view_hides_witness (mHat : Vector Byte 32) (pkSeed : PkSeed) (e : Fin (n + 1))
    (lam : Vector Witness (n + 1)) (tapes : Vector Tape (n + 1)) (x x' : Witness)
    (pubout : Vector Word 8) (satisfies : plainOutput mHat pkSeed x = pubout)
    (satisfies' : plainOutput mHat pkSeed x' = pubout) :
    (∃ φ : (Witness × Tape) ≃ (Witness × Tape), ∀ own,
      revealed mHat pkSeed e lam tapes x' (φ own) = revealed mHat pkSeed e lam tapes x own) ∧
    ∀ shown, Nat.card {own // revealed mHat pkSeed e lam tapes x own = shown} =
      Nat.card {own // revealed mHat pkSeed e lam tapes x' own = shown} := by
  have same := satisfies.trans satisfies'.symm
  let φ : (Witness × Tape) ≃ (Witness × Tape) :=
    { toFun := reshare mHat pkSeed e lam tapes x x'
      invFun := reshare mHat pkSeed e lam tapes x' x
      left_inv := reshare_reshare same
      right_inv := reshare_reshare same.symm }
  have kept : ∀ own, revealed mHat pkSeed e lam tapes x' (φ own) =
      revealed mHat pkSeed e lam tapes x own := revealed_reshare same
  constructor
  · exact ⟨φ, kept⟩
  · intro shown
    exact Nat.card_congr (φ.subtypeEquiv fun own => by rw [kept])

/-- There are more witnesses than outputs, so that two of them share one. -/
theorem exists_same_output (mHat : Vector Byte 32) (pkSeed : PkSeed) :
    ∃ x x' : Witness, x ≠ x' ∧ plainOutput mHat pkSeed x = plainOutput mHat pkSeed x' := by
  let start (a : Fin 33 → Fin 256) : Witness := Vector.ofFn fun i : Fin wEnd =>
    if inside : i.val < 33 then BitVec.ofFin (a ⟨i, inside⟩) else 0
  have fewer : Fintype.card (Fin 8 → Fin (2 ^ 32)) < Fintype.card (Fin 33 → Fin 256) := by
    simp only [Fintype.card_fun, Fintype.card_fin]
    norm_num
  obtain ⟨a, a', apart, same⟩ := Fintype.exists_ne_map_eq_of_card_lt
    (fun a (w : Fin 8) => (plainOutput mHat pkSeed (start a))[w].toFin) fewer
  refine ⟨start a, start a', ?_, ?_⟩
  · intro equal
    apply apart
    funext i
    have inside : i.val < wEnd := Nat.lt_trans i.isLt (by decide)
    have byte := congrArg (fun x : Witness => x[i.val]) equal
    simpa [start] using byte
  · apply Vector.ext
    intro w hw
    exact BitVec.eq_of_toFin_eq (congrFun same ⟨w, hw⟩)

/-- Two different witnesses of one statement among four parties. -/
theorem view_hides_witness_twins : ∃ x x' : Witness, x ≠ x' ∧
    let mHat : Vector Byte 32 := Vector.replicate 32 1
    let pkSeed : PkSeed := Vector.replicate 16 2
    let lam : Vector Witness 4 := Vector.ofFn fun i : Fin 4 =>
      Vector.replicate wEnd (BitVec.ofNat 8 (i + 3))
    let tapes : Vector Tape 4 := Vector.ofFn fun i : Fin 4 =>
      Vector.replicate tapeSize (BitVec.ofNat 8 (i + 7))
    (∃ φ : (Witness × Tape) ≃ (Witness × Tape), ∀ own,
      revealed mHat pkSeed (2 : Fin 4) lam tapes x' (φ own) =
        revealed mHat pkSeed (2 : Fin 4) lam tapes x own) ∧
    ∀ shown, Nat.card {own // revealed mHat pkSeed (2 : Fin 4) lam tapes x own = shown} =
      Nat.card {own // revealed mHat pkSeed (2 : Fin 4) lam tapes x' own = shown} := by
  obtain ⟨x, x', apart, same⟩ := exists_same_output (Vector.replicate 32 1) (Vector.replicate 16 2)
  exact ⟨x, x', apart, view_hides_witness _ _ _ _ _ x x' _ rfl same.symm⟩

end Result

end BlindSig.Kkw
