import BlindSig.Kkw.Gf128
import BlindSig.Kkw.XmssKeyPair
import Mathlib.Algebra.CharP.Two
import Mathlib.Data.Fintype.Pi
import Mathlib.Data.ZMod.Basic
import Mathlib.FieldTheory.Finite.Basic
import Mathlib.Tactic.FinCases
import Mathlib.Tactic.LinearCombination
import Mathlib.Tactic.Ring

/-! Keccak-f[1600], and the polynomials that take a round forwards and backwards; SHAKE256 as the
application uses it, with the upstream sponge a parameter. -/
namespace BlindSig.Voleith

instance fiveNeZero : NeZero 5 := ⟨by decide⟩

/-- A state by row, column and bit: `get_lane(state, row, column)[bit]`. -/
abbrev Lanes (α : Type) := Fin 5 → Fin 5 → Fin 64 → α

/-- A lane by bit. -/
abbrev Lane (α : Type) := Fin 64 → α

def rotLane {α : Type} (lane : Lane α) (shift : Nat) : Lane α := fun z => lane (z - Fin.ofNat 64 shift)

section Standard

/-! The permutation of the standard on bits. -/

/-- The first output bits of the round constants' register after `t` steps. -/
def roundRegister : Nat → BitVec 8
  | 0 => 1
  | t + 1 =>
    let r := roundRegister t
    (r <<< 1) ^^^ if r.getLsbD 7 then 0x71 else 0

/-- The offset of the lane in a column and a row: `(t + 1)(t + 2) / 2` on the walk
`(x, y) ↦ (y, 2x + 3y)` from `(1, 0)`. -/
def rhoOffset (x y : Fin 5) : Nat :=
  ((List.range 24).foldl (fun (place : (Fin 5 × Fin 5) × Nat) t =>
    let (cell, offset) := place
    ((cell.2, 2 * cell.1 + 3 * cell.2), if cell = (x, y) then (t + 1) * (t + 2) / 2 else offset))
      ((1, 0), 0)).2

/-- Bit `z` of the constant of a round: bits `2^j - 1` are set by the register. -/
def roundBit (round : Nat) (z : Fin 64) : Bool :=
  (List.range 7).any fun j => z.val + 1 = 2 ^ j && (roundRegister (j + 7 * round)).getLsbD 0

def theta (s : Lanes Bool) : Lanes Bool :=
  let c (x : Fin 5) (z : Fin 64) : Bool := s 0 x z ^^ s 1 x z ^^ s 2 x z ^^ s 3 x z ^^ s 4 x z
  fun y x z => s y x z ^^ (c (x - 1) z ^^ c (x + 1) (z - 1))

def rho (s : Lanes Bool) : Lanes Bool := fun y x => rotLane (s y x) (rhoOffset x y)

def pi (s : Lanes Bool) : Lanes Bool := fun y x => s x (x + 3 * y)

def chi (s : Lanes Bool) : Lanes Bool := fun y x z => s y x z ^^ (!s y (x + 1) z && s y (x + 2) z)

def iota (round : Nat) (s : Lanes Bool) : Lanes Bool :=
  fun y x z => s y x z ^^ (x = 0 && y = 0 && roundBit round z)

def keccakRound (round : Nat) (s : Lanes Bool) : Lanes Bool := iota round (chi (pi (rho (theta s))))

/-- The state after the first `n` rounds. -/
def keccakRounds (n : Nat) (s : Lanes Bool) : Lanes Bool :=
  (List.range n).foldl (fun s round => keccakRound round s) s

end Standard

section Constants

def rotationOffset : Vector Nat 25 :=
  #v[0, 36, 3, 41, 18, 1, 44, 10, 45, 2, 62, 6, 43, 15, 61, 28, 55, 25, 21, 56, 27, 20, 39, 8, 14]

def roundConst : Vector (BitVec 64) 24 :=
  #v[0x0000000000000001, 0x0000000000008082, 0x800000000000808A, 0x8000000080008000,
    0x000000000000808B, 0x0000000080000001, 0x8000000080008081, 0x8000000000008009,
    0x000000000000008A, 0x0000000000000088, 0x0000000080008009, 0x000000008000000A,
    0x000000008000808B, 0x800000000000008B, 0x8000000000008089, 0x8000000000008003,
    0x8000000000008002, 0x8000000000000080, 0x000000000000800A, 0x800000008000000A,
    0x8000000080008081, 0x8000000000008080, 0x0000000080000001, 0x8000000080008008]

/-- The rotation of the lane that lands in row `x` and column `y`. -/
def offsetAt (x y : Fin 5) : Nat := rotationOffset.get ⟨(15 * x + 5 * y + y) % 25, by omega⟩

theorem offsetAt_eq : ∀ x y : Fin 5, offsetAt x y = rhoOffset (y + 3 * x) y % 64 := by decide

theorem roundConst_eq : ∀ (round : Fin 24) (z : Fin 64),
    roundConst[round].getLsbD z = roundBit round z := by
  decide +kernel

end Constants

section Polynomials

variable {R : Type} [CommRing R]

/-- `keccak_forward`: theta, rho and pi, chi, iota. -/
def keccakForward (round : Nat) (s : Lanes R) : Lanes R :=
  let c (x : Fin 5) : Lane R := fun z => s 0 x z + s 1 x z + s 2 x z + s 3 x z + s 4 x z
  let d (x : Fin 5) : Lane R := fun z => c (x + 4) z + rotLane (c (x + 1)) 1 z
  let t : Lanes R := fun y x z => s y x z + d x z
  let b : Lanes R := fun x y => rotLane (t y (x * 3 + y)) (offsetAt x y)
  let rc (z : Fin 64) : R := if (roundConst[round]?.getD 0).getLsbD z then 1 else 0
  fun x y z => (b x (y + 1) z + 1) * b x (y + 2) z + b x y z + if x = 0 ∧ y = 0 then rc z else 0

/-- One sparse pass over the column parities. -/
def parityPass (power : Nat) (parity : Fin 5 → Lane R) : Fin 5 → Lane R := fun x z =>
  parity x z + parity (x + 5 - Fin.ofNat 5 power) z +
    parity (x + Fin.ofNat 5 power) (z + 64 - Fin.ofNat 64 power)

def inverseTheta (s : Lanes R) : Lanes R :=
  let parity (x : Fin 5) : Lane R := fun z => s 0 x z + s 1 x z + s 2 x z + s 3 x z + s 4 x z
  let parity := [1, 2, 4, 8, 16, 32, 128].foldl (fun parity power => parityPass power parity) parity
  fun y x z => s y x z + (parity (x + 4) z + parity (x + 1) (z + 63))

/-- The row of chi's inverse. -/
def inverseChi (s : Fin 5 → R) : Fin 5 → R
  | 0 => s 0 + s 2 + s 4 + s 1 * s 2 + s 1 * s 4 + s 3 * s 4 + s 1 * s 3 * s 4
  | 1 => s 0 + s 1 + s 3 + s 0 * s 2 + s 0 * s 4 + s 2 * s 3 + s 0 * s 2 * s 4
  | 2 => s 1 + s 2 + s 4 + s 0 * s 1 + s 1 * s 3 + s 3 * s 4 + s 0 * s 1 * s 3
  | 3 => s 0 + s 2 + s 3 + s 0 * s 4 + s 1 * s 2 + s 2 * s 4 + s 1 * s 2 * s 4
  | 4 => s 1 + s 3 + s 4 + s 0 * s 1 + s 0 * s 3 + s 2 * s 3 + s 0 * s 2 * s 3

/-- `keccak_backward`. The lane in row `x` and column `y` goes back to row `y` and column
`3x + y`, so the lane of row `y` and column `x` comes from row `2(x - y)`. -/
def keccakBackward (round : Nat) (s : Lanes R) : Lanes R :=
  let rc (z : Fin 64) : R := if (roundConst[round]?.getD 0).getLsbD z then 1 else 0
  let i : Lanes R := fun y x z => s y x z + if y = 0 ∧ x = 0 then rc z else 0
  let c : Lanes R := fun y x z => inverseChi (fun x => i y x z) x
  inverseTheta fun y x => rotLane (c (2 * (x - y)) y) (64 - offsetAt (2 * (x - y)) y)

end Polynomials

section Bits

variable {R : Type} [CommRing R]

/-- A bit as an element. -/
def ofBit (R : Type) [CommRing R] (b : Bool) : R := if b then 1 else 0

@[simp] theorem ofBit_false : ofBit R false = 0 := rfl
@[simp] theorem ofBit_true : ofBit R true = 1 := rfl

theorem ofBit_and (a b : Bool) : ofBit R (a && b) = ofBit R a * ofBit R b := by
  cases a <;> simp

def ofLanes (R : Type) [CommRing R] (s : Lanes Bool) : Lanes R := fun y x z => ofBit R (s y x z)

/-- The constant of a round in the first lane. -/
theorem ofBit_roundConst (round : Fin 24) (x y : Fin 5) (z : Fin 64) :
    (if x = 0 ∧ y = 0 then if (roundConst[round.val]?.getD 0).getLsbD z then (1 : R) else 0 else 0) =
      ofBit R (y = 0 && x = 0 && roundBit round z) := by
  have const : (roundConst[round.val]?.getD 0).getLsbD z = roundBit round z := by
    rw [← roundConst_eq]
    simp
  rw [const]
  by_cases hx : x = 0 <;> by_cases hy : y = 0 <;> simp [hx, hy, ofBit]

theorem rotLane_offsetAt {α : Type} (lane : Lane α) (x y : Fin 5) :
    rotLane lane (offsetAt x y) = rotLane lane (rhoOffset (y + 3 * x) y) := by
  funext z
  rw [rotLane, rotLane, offsetAt_eq]
  congr 2
  exact Fin.ext (Nat.mod_mod _ _)

variable [CharP R 2]

theorem ofBit_xor (a b : Bool) : ofBit R (a ^^ b) = ofBit R a + ofBit R b := by
  cases a <;> cases b <;> simp [CharTwo.add_self_eq_zero]

theorem ofBit_not (a : Bool) : ofBit R (!a) = ofBit R a + 1 := by
  cases a <;> simp [CharTwo.add_self_eq_zero]

theorem keccakForward_round (round : Fin 24) (s : Lanes Bool) :
    keccakForward round (ofLanes R s) = ofLanes R (keccakRound round s) := by
  have back (x : Fin 5) : x - 1 = x + 4 := by omega
  have one : Fin.ofNat 64 1 = 1 := rfl
  have column (x y : Fin 5) : x * 3 + y = y + 3 * x := by omega
  funext x y z
  simp only [keccakForward, keccakRound, iota, chi, pi, rho, theta, ofLanes, ofBit_roundConst,
    rotLane_offsetAt, ofBit_xor, ofBit_and, ofBit_not, column, back]
  simp only [rotLane, ofBit_xor, one]
  ring

omit [CharP R 2] in
theorem inverseChi_map {R' : Type} [CommRing R'] (f : R →+* R') (s : Fin 5 → R) (x : Fin 5) :
    inverseChi (fun x => f (s x)) x = f (inverseChi s x) := by
  fin_cases x <;> simp [inverseChi]

/-- The degree-three inverse of chi, on the 32 rows. -/
theorem inverseChi_bits : ∀ (s : Fin 5 → Bool) (x : Fin 5),
    inverseChi (fun x => ofBit (ZMod 2) (s x ^^ (!s (x + 1) && s (x + 2)))) x =
      ofBit (ZMod 2) (s x) := by
  decide +kernel

theorem ofBit_castHom (b : Bool) : ofBit R b = ZMod.castHom (dvd_refl 2) R (ofBit (ZMod 2) b) := by
  cases b <;> simp

theorem inverseChi_chi (s : Fin 5 → Bool) (x : Fin 5) :
    inverseChi (fun x => ofBit R (s x ^^ (!s (x + 1) && s (x + 2)))) x = ofBit R (s x) := by
  simp only [ofBit_castHom (R := R)]
  rw [inverseChi_map, inverseChi_bits]

section Theta

variable (f : Fin 5 → Lane R)

/-- Squaring a pass doubles its power. -/
theorem parityPass_double (p : Nat) :
    parityPass p (parityPass p f) = parityPass (2 * p) f := by
  have column : Fin.ofNat 5 (2 * p) = Fin.ofNat 5 p + Fin.ofNat 5 p := by
    apply Fin.ext
    simp only [Fin.val_ofNat, Fin.val_add]
    omega
  have bit : Fin.ofNat 64 (2 * p) = Fin.ofNat 64 p + Fin.ofNat 64 p := by
    apply Fin.ext
    simp only [Fin.val_ofNat, Fin.val_add]
    omega
  funext x z
  simp only [parityPass, column, bit]
  generalize Fin.ofNat 5 p = a
  generalize Fin.ofNat 64 p = b
  have left : x + 5 - a + 5 - a = x + 5 - (a + a) := by omega
  have mid : x + 5 - a + a = x := by omega
  have mid' : x + a + 5 - a = x := by omega
  have right : x + a + a = x + (a + a) := by omega
  have low : z + 64 - b + 64 - b = z + 64 - (b + b) := by omega
  rw [left, mid, mid', right, low]
  have cancel (y : R) : y + y = 0 := CharTwo.add_self_eq_zero y
  linear_combination cancel (f (x + 5 - a) z) + cancel (f (x + a) (z + 64 - b)) +
    cancel (f x (z + 64 - b))

/-- The last two passes, powers 64 and 128, undo each other. -/
theorem parityPass_last : parityPass 128 (parityPass 64 f) = f := by
  have cancel (y : R) : y + y = 0 := CharTwo.add_self_eq_zero y
  have zero : Fin.ofNat 64 128 = 0 := rfl
  have zero' : Fin.ofNat 64 64 = 0 := rfl
  have four : Fin.ofNat 5 64 = 4 := rfl
  have three : Fin.ofNat 5 128 = 3 := rfl
  funext x z
  simp only [parityPass, zero, zero', four, three]
  have whole : z + 64 - 0 = z := by omega
  have h₁ : x + 5 - 4 = x + 1 := by omega
  have h₂ : x + 5 - 3 = x + 2 := by omega
  have h₃ : x + 2 + 5 - 4 = x + 3 := by omega
  have h₄ : x + 2 + 4 = x + 1 := by omega
  have h₅ : x + 3 + 5 - 4 = x + 4 := by omega
  have h₆ : x + 3 + 4 = x + 2 := by omega
  rw [whole, whole, h₁, h₂, h₃, h₄, h₅, h₆]
  linear_combination cancel (f (x + 1) z) + cancel (f (x + 2) z) + cancel (f (x + 3) z) +
    cancel (f (x + 4) z)

/-- The seven passes undo the pass that theta makes over the column parities. -/
theorem parityPasses :
    [1, 2, 4, 8, 16, 32, 128].foldl (fun parity power => parityPass power parity)
      (parityPass 1 f) = f := by
  simp only [List.foldl_cons, List.foldl_nil, parityPass_double]
  exact parityPass_last f

end Theta

/-- Theta adds the neighbours' parities five times over to a column's own. -/
theorem parity_theta (s : Lanes Bool) (x : Fin 5) (z : Fin 64) :
    ofBit R (theta s 0 x z) + ofBit R (theta s 1 x z) + ofBit R (theta s 2 x z) +
      ofBit R (theta s 3 x z) + ofBit R (theta s 4 x z) =
    parityPass 1 (fun x z => ofBit R (s 0 x z) + ofBit R (s 1 x z) + ofBit R (s 2 x z) +
      ofBit R (s 3 x z) + ofBit R (s 4 x z)) x z := by
  have cancel (y : R) : y + y = 0 := CharTwo.add_self_eq_zero y
  have left : x + 5 - Fin.ofNat 5 1 = x - 1 := by
    change x + 5 - 1 = x - 1
    omega
  have low : z + 64 - Fin.ofNat 64 1 = z - 1 := by
    change z + 64 - 1 = z - 1
    omega
  have right : x + Fin.ofNat 5 1 = x + 1 := rfl
  simp only [parityPass, theta, ofBit_xor, left, right, low]
  let column (x : Fin 5) (z : Fin 64) : R := ofBit R (s 0 x z) + ofBit R (s 1 x z) +
    ofBit R (s 2 x z) + ofBit R (s 3 x z) + ofBit R (s 4 x z)
  linear_combination 2 * cancel (column (x - 1) z + column (x + 1) (z - 1))

theorem inverseTheta_theta (s : Lanes Bool) :
    inverseTheta (ofLanes R (theta s)) = ofLanes R s := by
  have cancel (y : R) : y + y = 0 := CharTwo.add_self_eq_zero y
  funext y x z
  have parity := funext fun x => funext fun z => parity_theta (R := R) s x z
  have left : x + 4 = x - 1 := by omega
  have low : z + 63 = z - 1 := by omega
  simp only [inverseTheta, ofLanes, parity, parityPasses, left, low]
  simp only [theta, ofBit_xor]
  let column (x : Fin 5) (z : Fin 64) : R := ofBit R (s 0 x z) + ofBit R (s 1 x z) +
    ofBit R (s 2 x z) + ofBit R (s 3 x z) + ofBit R (s 4 x z)
  linear_combination cancel (column (x - 1) z + column (x + 1) (z - 1))

theorem keccakBackward_round (round : Fin 24) (s : Lanes Bool) :
    keccakBackward round (ofLanes R (keccakRound round s)) = ofLanes R s := by
  have cancel (y : R) : y + y = 0 := CharTwo.add_self_eq_zero y
  have unfixed : (fun y x z => ofLanes R (keccakRound round s) y x z +
      if y = 0 ∧ x = 0 then if (roundConst[round.val]?.getD 0).getLsbD z then (1 : R) else 0 else 0) =
      ofLanes R (chi (pi (rho (theta s)))) := by
    funext y x z
    rw [ofBit_roundConst]
    simp only [ofLanes, keccakRound, iota, ofBit_xor]
    linear_combination cancel (ofBit R (x = 0 && y = 0 && roundBit round z))
  have unmixed (y x : Fin 5) (z : Fin 64) :
      inverseChi (fun x => ofLanes R (chi (pi (rho (theta s)))) y x z) x =
        ofBit R (pi (rho (theta s)) y x z) := inverseChi_chi (fun x => pi (rho (theta s)) y x z) x
  have turned : (fun y x => rotLane (fun z => ofBit R (pi (rho (theta s)) (2 * (x - y)) y z))
      (64 - offsetAt (2 * (x - y)) y)) = ofLanes R (theta s) := by
    funext y x z
    have column : y + 3 * (2 * (x - y)) = x := by omega
    have turns : z - Fin.ofNat 64 (64 - rhoOffset x y % 64) - Fin.ofNat 64 (rhoOffset x y) = z := by
      apply Fin.ext
      simp only [Fin.val_sub, Fin.val_ofNat]
      omega
    rw [offsetAt_eq, column]
    simp only [rotLane, pi, rho, column, turns, ofLanes]
  change inverseTheta (fun y x => rotLane (fun z => inverseChi (fun x' => (fun y x z =>
    ofLanes R (keccakRound round s) y x z +
      if y = 0 ∧ x = 0 then if (roundConst[round.val]?.getD 0).getLsbD z then (1 : R) else 0 else 0)
        (2 * (x - y)) x' z) y) (64 - offsetAt (2 * (x - y)) y)) = _
  rw [unfixed]
  simp only [unmixed]
  rw [turned, inverseTheta_theta]

end Bits

section Bijective

theorem ofBit_injective (R : Type) [CommRing R] [Nontrivial R] : Function.Injective (ofBit R) := by
  intro a b same
  cases a <;> cases b <;> simp at same ⊢

theorem ofLanes_injective (R : Type) [CommRing R] [Nontrivial R] :
    Function.Injective (ofLanes R) := by
  intro s t same
  funext y x z
  exact ofBit_injective R (congrFun (congrFun (congrFun same y) x) z)

theorem theta_bijective : Function.Bijective theta := by
  have injective : Function.Injective theta := by
    intro s t same
    apply ofLanes_injective (ZMod 2)
    rw [← inverseTheta_theta s, same, inverseTheta_theta]
  exact ⟨injective, Finite.injective_iff_surjective.mp injective⟩

theorem keccakRound_bijective (round : Fin 24) : Function.Bijective (keccakRound round) := by
  have injective : Function.Injective (keccakRound round) := by
    intro s t same
    apply ofLanes_injective (ZMod 2)
    rw [← keccakBackward_round round s, same, keccakBackward_round]
  exact ⟨injective, Finite.injective_iff_surjective.mp injective⟩

theorem keccakRounds_succ (n : Nat) (s : Lanes Bool) :
    keccakRounds (n + 1) s = keccakRound n (keccakRounds n s) := by
  unfold keccakRounds
  rw [List.range_succ, List.foldl_append, List.foldl_cons, List.foldl_nil]

theorem keccakRounds_bijective {n : Nat} (inside : n ≤ 24) :
    Function.Bijective (keccakRounds n) := by
  induction n with
  | zero => exact Function.bijective_id
  | succ n ih =>
    have step : keccakRounds (n + 1) = keccakRound n ∘ keccakRounds n :=
      funext fun s => keccakRounds_succ n s
    rw [step]
    exact (keccakRound_bijective ⟨n, inside⟩).comp (ih (Nat.le_of_succ_le inside))

variable {R : Type} [CommRing R] [CharP R 2]

/-- Backwards and forwards again. -/
theorem keccakForward_backward (round : Fin 24) (s : Lanes Bool) :
    keccakForward round (keccakBackward round (ofLanes R s)) = ofLanes R s := by
  obtain ⟨t, rfl⟩ := (keccakRound_bijective round).surjective s
  rw [keccakBackward_round, keccakForward_round]

end Bijective

section Shake

open Kkw

/-- The output of SHAKE256 on the concatenated updates. -/
structure Shake256 where
  squeeze : List Byte → (outLen : Nat) → Vector Byte outLen

def shakeAppPrefix : List Byte :=
  chars ['H', 'B', 'S', '-', 'V', 'O', 'L', 'E', '-', 'v', '1']

def shakePrfPrefix : List Byte :=
  chars ['H', 'B', 'S', '-', 'V', 'O', 'L', 'E', '-', 'P', 'R', 'F', '-', 'v', '1']

def shakePrgWots : Byte := 1
def shakePrgUpper : Byte := 2

/-- The length of the domain is one byte; every caller stays below 256. -/
def shakeTh (S : Shake256) (domain data : List Byte) (outLen : Nat) : Vector Byte outLen :=
  S.squeeze (shakeAppPrefix ++ [BitVec.ofNat 8 domain.length] ++ domain ++ data) outLen

def shakeKeyedXof (S : Shake256) (key : Vector Byte 32) (domain : Byte) (data : List Byte)
    (outLen : Nat) : Vector Byte outLen :=
  S.squeeze (shakePrfPrefix ++ [domain] ++ key.toList ++ data) outLen

/-- The hash builders of the shared key pair code over SHAKE256. -/
def xmssHashes (S : Shake256) : XmssHashes where
  hashMessage pkSeed epoch nonce message :=
    shakeTh S (pkSeed ++ single xmssTweakMessage ++ putEpochBe epoch).toList
      (nonce.toList ++ message) 32
  hashChainStep pkSeed epoch input chainIdx pos :=
    shakeTh S (input ++ single xmssTweakChain).toList
      (pkSeed ++ putEpochBe epoch ++ pair chainIdx pos).toList 16
  hashTreeNode pkSeed left right level index :=
    shakeTh S (pkSeed ++ pair xmssTweakTree (byteAt level 0) ++
      Vector.ofFn fun k : Fin 4 => byteAt index k).toList (left ++ right).toList 16
  hashPublicKey pkSeed epoch pkHashes :=
    shakeTh S (pkSeed ++ single xmssTweakLeaf ++ putEpochBe epoch).toList (join pkHashes).toList 16
  wotsGenSk skSeed leafIndex :=
    rows (shakeKeyedXof S skSeed shakePrgWots (putEpochBe leafIndex).toList (xmssWotsLen * 16))
  deriveUpperSiblings skSeed levels := rows (shakeKeyedXof S skSeed shakePrgUpper [] (levels * 16))

def hmDigest (S : Shake256) (com : Vector Byte hmComBytes) : Vector Byte 32 :=
  shakeTh S hmDomD.toList com.toList 32

end Shake

end BlindSig.Voleith
