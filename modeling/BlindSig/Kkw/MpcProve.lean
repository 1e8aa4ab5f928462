import BlindSig.Lib.Masked
import BlindSig.Lib.Bytes

/-! The prover's masked words and its two interactive gates. A gate reads the tapes at its
own index, writes one auxiliary word and broadcasts one word for each party. -/
namespace BlindSig.Kkw

open XorGroup

/-- The number of gates of the circuit, as the source declares it. -/
abbrev ySize : Nat := 94186
abbrev tapeSize : Nat := 2 * ySize * 4
abbrev Tape := Vector Byte tapeSize

/-- A masked word of `n` parties. -/
abbrev Mw (n : Nat) := Masked n Word

inductive Gate where
  | and
  | add
  deriving DecidableEq, Repr

/-- What gate `g` leaves behind: `aux[g]` and column `g` of the broadcasts. -/
structure GateLog (n : Nat) where
  aux : Word
  s : Vector Word n
  deriving DecidableEq, Repr

section Tapes

def tapeGet32 (tape : Tape) (pos : Nat) : Word := le32 fun i => tape[pos + i.val]?.getD 0

def tapeLam (tape : Tape) (g : Nat) : Word := tapeGet32 tape (g * 4)

def tapeProd (tape : Tape) (g : Nat) : Word := tapeGet32 tape (ySize * 4 + g * 4)

end Tapes

section PrefixXorShift

def prefixXorShift (v : Word) : Word :=
  let v := v ^^^ v <<< 1
  let v := v ^^^ v <<< 2
  let v := v ^^^ v <<< 4
  let v := v ^^^ v <<< 8
  let v := v ^^^ v <<< 16
  v <<< 1

theorem prefixXorShift_linear : XorLinear prefixXorShift := by
  have layer (k : Nat) : XorLinear fun v : Word => v ^^^ v <<< k :=
    XorLinear.xor XorLinear.id (XorLinear.shiftLeft k)
  exact (XorLinear.shiftLeft 1).comp ((layer 16).comp ((layer 8).comp ((layer 4).comp
    ((layer 2).comp (layer 1)))))

/-- Adding a word to its shift by `k`, twice, shifts by `2 * k`. -/
theorem xor_shift_twice (v : Word) (k : Nat) :
    (v ^^^ v <<< k) ^^^ (v ^^^ v <<< k) <<< k = v ^^^ v <<< (2 * k) := by
  rw [BitVec.shiftLeft_xor_distrib, ← BitVec.shiftLeft_add, ← Nat.two_mul, XorGroup.xor_assoc,
    xor_xor_cancel_left]

theorem xor_shift_comm (v : Word) (j k : Nat) :
    (v ^^^ v <<< j) ^^^ (v ^^^ v <<< j) <<< k = (v ^^^ v <<< k) ^^^ (v ^^^ v <<< k) <<< j := by
  rw [BitVec.shiftLeft_xor_distrib, BitVec.shiftLeft_xor_distrib, ← BitVec.shiftLeft_add,
    ← BitVec.shiftLeft_add, Nat.add_comm j k, xor_xor_comm]

/-- The prefix sums undo a word plus its shift by one. -/
theorem prefixXorShift_eq (v : Word) : ∃ w : Word, prefixXorShift v = w <<< 1 ∧
    w ^^^ w <<< 1 = v := by
  refine ⟨_, rfl, ?_⟩
  rw [xor_shift_comm _ 16 1, xor_shift_comm _ 8 1, xor_shift_comm _ 4 1, xor_shift_comm _ 2 1,
    xor_shift_twice, xor_shift_twice, xor_shift_twice, xor_shift_twice, xor_shift_twice]
  simp

theorem prefixXorShift_zero (v : Word) : (prefixXorShift v).getLsbD 0 = false := by
  simp [prefixXorShift]

theorem prefixXorShift_succ (v : Word) {b : Nat} (hb : b < 31) :
    (prefixXorShift v).getLsbD (b + 1) = ((prefixXorShift v).getLsbD b ^^ v.getLsbD b) := by
  obtain ⟨w, shifted, sums⟩ := prefixXorShift_eq v
  rw [shifted, ← sums]
  rcases b with _ | b
  · simp
  · simp [show b + 1 + 1 < 32 by omega, show b + 1 < 32 by omega]
    rw [Bool.xor_comm, Bool.xor_assoc, Bool.xor_self, Bool.xor_false]

/-- The recurrence has one solution. -/
theorem eq_prefixXorShift {c v : Word} (zero : c.getLsbD 0 = false)
    (succ : ∀ b, b < 31 → c.getLsbD (b + 1) = (c.getLsbD b ^^ v.getLsbD b)) :
    c = prefixXorShift v := by
  have bits : ∀ b, b < 32 → c.getLsbD b = (prefixXorShift v).getLsbD b := by
    intro b
    induction b with
    | zero => intro _; rw [zero, prefixXorShift_zero]
    | succ b ih =>
      intro hb
      rw [succ b (by omega), prefixXorShift_succ v (by omega), ih (by omega)]
  exact BitVec.eq_of_getLsbD_eq bits

/-- Sums that agree bit by bit as far as their prefixes do have equal prefix sums. -/
theorem prefixXorShift_congr {c c' v v' : Word} (hc : c = prefixXorShift v)
    (hc' : c' = prefixXorShift v')
    (agree : ∀ b, b < 31 → c.getLsbD b = c'.getLsbD b → v.getLsbD b = v'.getLsbD b) :
    c = c' := by
  have bits : ∀ b, b < 32 → c.getLsbD b = c'.getLsbD b := by
    intro b
    induction b with
    | zero => intro _; rw [hc, hc', prefixXorShift_zero, prefixXorShift_zero]
    | succ b ih =>
      intro hb
      have below := ih (by omega)
      have sums := agree b (by omega) below
      rw [hc, hc', prefixXorShift_succ v (by omega), prefixXorShift_succ v' (by omega), ← hc, ← hc',
        below, sums]
  exact BitVec.eq_of_getLsbD_eq bits

/-- The carry word of an addition. -/
theorem carryWord_zero (x y : Word) : ((x + y) ^^^ x ^^^ y).getLsbD 0 = false := by
  simp only [BitVec.getLsbD_xor, BitVec.getLsbD_add (show 0 < 32 by omega), BitVec.carry_zero]
  generalize x.getLsbD 0 = a, y.getLsbD 0 = b
  revert a b
  decide

theorem carryWord_succ (x y : Word) {b : Nat} (hb : b < 31) :
    ((x + y) ^^^ x ^^^ y).getLsbD (b + 1) = (((x + y) ^^^ x ^^^ y).getLsbD b ^^
      ((x ^^^ ((x + y) ^^^ x ^^^ y)) &&& (y ^^^ ((x + y) ^^^ x ^^^ y))).getLsbD b) := by
  simp only [BitVec.getLsbD_xor, BitVec.getLsbD_and, BitVec.getLsbD_add (show b < 32 by omega),
    BitVec.getLsbD_add (show b + 1 < 32 by omega), BitVec.carry_succ]
  generalize x.getLsbD b = xb, y.getLsbD b = yb, x.getLsbD (b + 1) = x', y.getLsbD (b + 1) = y',
    BitVec.carry b x y false = c
  revert xb yb x' y' c
  decide

end PrefixXorShift

section Gates

variable {n : Nat}

/-- `mpc_AND` on the tape words `lz` and `t` of the parties. -/
def andGate (x y : Mw n) (lz t : Fin n → Word) : Mw n × GateLog n :=
  let corr := xorAll x.l &&& xorAll y.l ^^^ xorAll t
  let s := fun i : Fin n =>
    let s := x.h &&& y.l i ^^^ y.h &&& x.l i ^^^ t i ^^^ lz i
    if i.val = 0 then s ^^^ (x.h &&& y.h ^^^ corr) else s
  (Masked.of (xorAll s) lz, ⟨corr, Vector.ofFn s⟩)

/-- All bits but the top one, which no carry uses. -/
def addCorrection : Word := 0x7FFFFFFF

/-- `mpc_ADD` on the tape words `lr` and `t` of the parties. -/
def addGate (x y : Mw n) (lr t : Fin n → Word) : Mw n × GateLog n :=
  let lc := fun i : Fin n => prefixXorShift (lr i)
  let lx := xorAll x.l
  let ly := xorAll y.l
  let xv := x.h ^^^ lx
  let yv := y.h ^^^ ly
  let c := (xv + yv) ^^^ xv ^^^ yv
  let ch := c ^^^ xorAll lc
  let ph := x.h ^^^ ch
  let qh := y.h ^^^ ch
  let corr := ((lx ^^^ xorAll lc) &&& (ly ^^^ xorAll lc) ^^^ xorAll t) &&& addCorrection
  let s := fun i : Fin n =>
    let lpi := x.l i ^^^ lc i
    let lqi := y.l i ^^^ lc i
    let s := ph &&& lqi ^^^ qh &&& lpi ^^^ t i ^^^ lr i
    if i.val = 0 then s ^^^ (ph &&& qh ^^^ corr) else s
  (Masked.of (x.h ^^^ y.h ^^^ ch) (fun i => x.l i ^^^ y.l i ^^^ lc i), ⟨corr, Vector.ofFn s⟩)

def mpcAND (tapes : Vector Tape n) (g : Nat) (x y : Mw n) : Mw n × GateLog n :=
  andGate x y (fun i => tapeLam tapes[i] g) (fun i => tapeProd tapes[i] g)

def mpcADD (tapes : Vector Tape n) (g : Nat) (x y : Mw n) : Mw n × GateLog n :=
  addGate x y (fun i => tapeLam tapes[i] g) (fun i => tapeProd tapes[i] g)

/-- The prover's gates, by index. -/
def proverStep (tapes : Vector Tape n) (g : Nat) : Gate → Mw n → Mw n → Mw n × GateLog n
  | .and, x, y => mpcAND tapes g x y
  | .add, x, y => mpcADD tapes g x y

/-- The words the gates compute. -/
def gateSem : Gate → Mw 0 → Mw 0 → Mw 0
  | .and, x, y => Masked.const (x.h &&& y.h)
  | .add, x, y => Masked.const (x.h + y.h)

theorem addCorrection_low : ∀ b, b < 31 → addCorrection.getLsbD b = true := by decide

end Gates

section Plain

variable {n : Nat} (x y : Mw (n + 1)) (r t : Fin (n + 1) → Word)

theorem xorAll_and {m : Nat} (c : Word) (f : Fin m → Word) :
    xorAll (fun i => c &&& f i) = c &&& xorAll f := by
  have linear : XorLinear fun w : Word => c &&& w := by
    simpa only [BitVec.and_comm c] using XorLinear.and_const c
  exact (xorAll_map linear f).symm

/-- The broadcasts of a gate, summed: the correction of party 0 enters once. -/
theorem xorAll_broadcasts (p q corr : Word) (l m t r : Fin (n + 1) → Word) :
    xorAll (fun i => if i.val = 0 then p &&& m i ^^^ q &&& l i ^^^ t i ^^^ r i ^^^ (p &&& q ^^^ corr)
      else p &&& m i ^^^ q &&& l i ^^^ t i ^^^ r i) =
      p &&& xorAll m ^^^ q &&& xorAll l ^^^ xorAll t ^^^ xorAll r ^^^ (p &&& q ^^^ corr) := by
  have first (i : Fin (n + 1)) : i.val = 0 ↔ i = 0 := by
    rw [Fin.ext_iff, Fin.val_zero]
  simp only [first]
  rw [xorAll_single]
  simp only [xorAll_xor, xorAll_and]

theorem plain_andGate : (andGate x y r t).1.plain = x.plain &&& y.plain := by
  have shares : (andGate x y r t).1.l = r := funext fun i => by simp [andGate]
  rw [Masked.plain, shares]
  simp only [andGate, Masked.of_h, xorAll_broadcasts, Masked.plain]
  generalize xorAll x.l = lx, xorAll y.l = ly, xorAll r = lz, xorAll t = t
  apply BitVec.eq_of_getLsbD_eq
  intro b _
  simp only [BitVec.getLsbD_xor, BitVec.getLsbD_and]
  generalize x.h.getLsbD b = xb, y.h.getLsbD b = yb, lx.getLsbD b = lxb, ly.getLsbD b = lyb,
    lz.getLsbD b = lzb, t.getLsbD b = tb
  revert xb yb lxb lyb lzb tb
  decide

theorem plain_addGate : (addGate x y r t).1.plain = x.plain + y.plain := by
  have shares : (addGate x y r t).1.l = fun i => x.l i ^^^ y.l i ^^^ prefixXorShift (r i) :=
    funext fun i => by simp [addGate]
  rw [Masked.plain, shares]
  simp only [addGate, Masked.of_h, xorAll_xor, Masked.plain]
  generalize xorAll x.l = lx, xorAll y.l = ly, xorAll (fun i => prefixXorShift (r i)) = lc
  generalize hx : x.h ^^^ lx = xv, hy : y.h ^^^ ly = yv
  rw [show x.h = xv ^^^ lx by rw [← hx, xor_xor_cancel_right],
    show y.h = yv ^^^ ly by rw [← hy, xor_xor_cancel_right]]
  apply BitVec.eq_of_getLsbD_eq
  intro b _
  simp only [BitVec.getLsbD_xor]
  generalize (xv + yv).getLsbD b = sb, xv.getLsbD b = xb, yv.getLsbD b = yb, lx.getLsbD b = lxb,
    ly.getLsbD b = lyb, lc.getLsbD b = lcb
  revert sb xb yb lxb lyb lcb
  decide

variable {x y}

theorem plain_proverStep (tapes : Vector Tape (n + 1)) (g : Nat) (op : Gate) {x' y' : Mw 0}
    (hx : x.plain = x'.plain) (hy : y.plain = y'.plain) :
    (proverStep tapes g op x y).1.plain = (gateSem op x' y').plain := by
  cases op with
  | and => simp [proverStep, mpcAND, gateSem, plain_andGate, hx, hy]
  | add => simp [proverStep, mpcADD, gateSem, plain_addGate, hx, hy]

end Plain

section Broadcasts

/-- One broadcast: a share of the product of `p` masked by `l` and `q` masked by `m`. -/
def broadcast (p q l m t r corr : Word) (first : Prop) [Decidable first] : Word :=
  let s := p &&& m ^^^ q &&& l ^^^ t ^^^ r
  if first then s ^^^ (p &&& q ^^^ corr) else s

/-- Bit `b` of an addition's broadcast looks at the carry word at bit `b` only. -/
theorem broadcast_local {ch ch' : Word} {b : Nat} (same : ch.getLsbD b = ch'.getLsbD b)
    (xh yh l m t r corr : Word) (first : Prop) [Decidable first] :
    (broadcast (xh ^^^ ch) (yh ^^^ ch) l m t r corr first).getLsbD b =
      (broadcast (xh ^^^ ch') (yh ^^^ ch') l m t r corr first).getLsbD b := by
  by_cases h : first <;> simp [broadcast, h, same]

/-- Two families of words with equal bits have sums with equal bits. -/
theorem xorAll_getLsbD {n : Nat} {f f' : Fin n → Word} {b : Nat}
    (same : ∀ i, (f i).getLsbD b = (f' i).getLsbD b) :
    (xorAll f).getLsbD b = (xorAll f').getLsbD b := by
  have bit (f : Fin n → Word) : bitAt (xorAll f) b = xorAll fun i => bitAt (f i) b :=
    xorAll_map (XorLinear.bitAt b) f
  have words : bitAt (xorAll f) b = bitAt (xorAll f') b := by
    rw [bit, bit]
    exact congrArg xorAll (funext fun i => by rw [bitAt_eq, bitAt_eq, same i])
  simpa [bitAt_eq] using congrArg (·.getLsbD 0) words

/-- The public carry word is the prefix sum of all broadcasts, on summed shares. -/
theorem publicCarry_eq (xh yh lx ly lr t : Word) :
    let lc := prefixXorShift lr
    let ch := ((xh ^^^ lx) + (yh ^^^ ly)) ^^^ (xh ^^^ lx) ^^^ (yh ^^^ ly) ^^^ lc
    let corr := ((lx ^^^ lc) &&& (ly ^^^ lc) ^^^ t) &&& addCorrection
    ch = prefixXorShift ((xh ^^^ ch) &&& (ly ^^^ lc) ^^^ (yh ^^^ ch) &&& (lx ^^^ lc) ^^^ t ^^^ lr ^^^
      ((xh ^^^ ch) &&& (yh ^^^ ch) ^^^ corr)) := by
  intro lc ch corr
  apply eq_prefixXorShift
  · change (_ ^^^ lc).getLsbD 0 = false
    rw [BitVec.getLsbD_xor, carryWord_zero, prefixXorShift_zero, Bool.xor_self]
  · intro b hb
    have low := addCorrection_low b hb
    obtain ⟨c, hc⟩ : ∃ c, c = ((xh ^^^ lx) + (yh ^^^ ly)) ^^^ (xh ^^^ lx) ^^^ (yh ^^^ ly) := ⟨_, rfl⟩
    have carry : c.getLsbD (b + 1) =
        (c.getLsbD b ^^ (((xh ^^^ lx) ^^^ c) &&& ((yh ^^^ ly) ^^^ c)).getLsbD b) := by
      rw [hc]
      exact carryWord_succ _ _ hb
    have mask : lc.getLsbD (b + 1) = (lc.getLsbD b ^^ lr.getLsbD b) := prefixXorShift_succ _ hb
    have carried : ch = c ^^^ lc := by rw [hc]
    simp only [carried, corr, BitVec.getLsbD_xor, BitVec.getLsbD_and, low, carry, mask]
    generalize c.getLsbD b = c, lc.getLsbD b = lc, lr.getLsbD b = lr, xh.getLsbD b = xh,
      yh.getLsbD b = yh, lx.getLsbD b = lx, ly.getLsbD b = ly, t.getLsbD b = t
    revert c lc lr xh yh lx ly t
    decide

theorem andGate_broadcasts {n : Nat} (x y : Mw n) (r t : Fin n → Word) (i : Fin n) :
    (andGate x y r t).2.s[i] =
      broadcast x.h y.h (x.l i) (y.l i) (t i) (r i) (andGate x y r t).2.aux (i.val = 0) := by
  simp [andGate, broadcast]

/-- All there is to say about an addition: the public carry word is the prefix sum of the
broadcasts, and each broadcast is a local function of it. -/
theorem addGate_broadcasts {n : Nat} (x y : Mw (n + 1)) (r t : Fin (n + 1) → Word) : ∃ ch : Word,
    ch = prefixXorShift (xorAll fun i : Fin (n + 1) => (addGate x y r t).2.s[i]) ∧
    (addGate x y r t).1.h = x.h ^^^ y.h ^^^ ch ∧
    ∀ i : Fin (n + 1), (addGate x y r t).2.s[i] =
      broadcast (x.h ^^^ ch) (y.h ^^^ ch) (x.l i ^^^ prefixXorShift (r i)) (y.l i ^^^ prefixXorShift (r i))
        (t i) (r i) (addGate x y r t).2.aux (i.val = 0) := by
  refine ⟨_, ?_, rfl, fun i => by simp [addGate, broadcast]⟩
  simp only [addGate, getElem_fin, Vector.getElem_ofFn, xorAll_broadcasts, xorAll_xor,
    ← xorAll_map prefixXorShift_linear]
  exact publicCarry_eq ..

end Broadcasts

section Masks

variable {n : Nat} (tapes : Vector Tape n) (g : Nat)

/-- The auxiliary word and the new mask shares are functions of mask shares and tapes. -/
theorem proverStep_masks (op : Gate) {x x' y y' : Mw n} (hx : ∀ i, x.l i = x'.l i)
    (hy : ∀ i, y.l i = y'.l i) :
    (∀ i, (proverStep tapes g op x y).1.l i = (proverStep tapes g op x' y').1.l i) ∧
      (proverStep tapes g op x y).2.aux = (proverStep tapes g op x' y').2.aux := by
  have hx : x.l = x'.l := funext hx
  have hy : y.l = y'.l := funext hy
  cases op with
  | and => exact ⟨fun i => by simp [proverStep, mpcAND, andGate],
      by simp [proverStep, mpcAND, andGate, hx, hy]⟩
  | add =>
    exact ⟨fun i => by simp [proverStep, mpcADD, addGate, hx, hy],
      by simp [proverStep, mpcADD, addGate, hx, hy]⟩

end Masks

section Local

variable {n : Nat}

def mpcXOR (x y : Mw n) : Mw n := Masked.map₂ (· ^^^ ·) x y

def mpcRIGHTROTATE (x : Mw n) (k : Nat) : Mw n := x.map (rightRotate · k)

def mwConst (K : Word) : Mw n := Masked.const K

end Local

end BlindSig.Kkw
