import Mathlib.RingTheory.AdjoinRoot
import Mathlib.FieldTheory.Finite.Basic
import Mathlib.FieldTheory.Finiteness
import Mathlib.Dynamics.PeriodicPts.Defs
import Mathlib.RingTheory.Polynomial.UniqueFactorization

/-! Fields of a power of two elements by their moduli: when a modulus whose degree is a power of two
is irreducible, and the arithmetic of polynomials over two elements on their coefficient words. -/
namespace BlindSig.BinaryField

open Polynomial

section Irreducible

variable {p : Nat} [prime : Fact p.Prime] {f g : (ZMod p)[X]} {k : Nat}

/-- In the field of an irreducible polynomial the root comes back after as many Frobenius steps as
the polynomial has degrees. -/
theorem root_periodic (irreducible : Irreducible g) :
    AdjoinRoot.root g ^ p ^ g.natDegree = AdjoinRoot.root g := by
  have : Fact (Irreducible g) := ⟨irreducible⟩
  have basis := (AdjoinRoot.powerBasis irreducible.ne_zero).basis
  have finite : Module.Finite (ZMod p) (AdjoinRoot g) :=
    (AdjoinRoot.powerBasis irreducible.ne_zero).finite
  have : Fintype (AdjoinRoot g) := Module.fintypeOfFintype basis
  have card : Fintype.card (AdjoinRoot g) = p ^ g.natDegree := by
    rw [Module.card_eq_pow_finrank (K := ZMod p), ZMod.card,
      (AdjoinRoot.powerBasis irreducible.ne_zero).finrank, AdjoinRoot.powerBasis_dim]
  rw [← card]
  exact FiniteField.pow_card _

/-- A root that comes back after `d` and after `2 ^ (k + 1)` Frobenius steps comes back after `2 ^ k`
if `d` is smaller. -/
theorem periodic_half {R : Type} [CommRing R] [CharP R p] {x : R} {d : Nat} (positive : 0 < d)
    (small : d < 2 ^ (k + 1)) (first : x ^ p ^ d = x) (second : x ^ p ^ 2 ^ (k + 1) = x) :
    x ^ p ^ 2 ^ k = x := by
  have periodic {m : Nat} : Function.IsPeriodicPt (frobenius R p) m x ↔ x ^ p ^ m = x := by
    rw [Function.IsPeriodicPt, Function.IsFixedPt, iterate_frobenius]
  have common := (periodic.mpr first).gcd (periodic.mpr second)
  obtain ⟨e, below, power⟩ := (Nat.dvd_prime_pow Nat.prime_two).mp (Nat.gcd_dvd_right d (2 ^ (k + 1)))
  have less : 2 ^ e < 2 ^ (k + 1) := by
    rw [← power]
    exact Nat.lt_of_le_of_lt (Nat.gcd_le_left _ positive) small
  have half : 2 ^ e ∣ 2 ^ k :=
    Nat.pow_dvd_pow 2 (Nat.le_of_lt_succ ((Nat.pow_lt_pow_iff_right (by decide)).mp less))
  rw [power] at common
  exact periodic.mp (common.trans_dvd half)

/-- A modulus of degree `2 ^ (k + 1)` is irreducible if its root comes back after so many Frobenius
steps, and half of them move it by a unit. -/
theorem irreducible_of_frobenius (degree : f.natDegree = 2 ^ (k + 1))
    (returns : AdjoinRoot.root f ^ p ^ 2 ^ (k + 1) = AdjoinRoot.root f)
    (moves : IsUnit (AdjoinRoot.root f ^ p ^ 2 ^ k - AdjoinRoot.root f)) : Irreducible f := by
  have positive : 0 < f.natDegree := by
    rw [degree]
    exact Nat.two_pow_pos _
  obtain ⟨g, irreducible, divides⟩ := exists_irreducible_of_natDegree_pos positive
  have nonzero : f ≠ 0 := ne_zero_of_natDegree_gt positive
  have whole : f.natDegree ≤ g.natDegree := by
    by_contra smaller
    have : Fact (Irreducible g) := ⟨irreducible⟩
    let project := AdjoinRoot.algHomOfDvd (ZMod p) f g divides
    have root : project (AdjoinRoot.root f) = AdjoinRoot.root g := AdjoinRoot.algHomOfDvd_root ..
    have : CharP (AdjoinRoot g) p := charP_of_injective_algebraMap (algebraMap (ZMod p) _).injective p
    have half : AdjoinRoot.root g ^ p ^ 2 ^ k = AdjoinRoot.root g := by
      apply periodic_half irreducible.natDegree_pos (by omega) (root_periodic irreducible)
      rw [← root, ← map_pow, returns]
    have image := moves.map project
    rw [map_sub, map_pow, root, half, sub_self] at image
    exact not_isUnit_zero image
  have associated := associated_of_dvd_of_natDegree_le divides nonzero whole
  exact associated.irreducible irreducible

end Irreducible

section Eval

variable {R S : Type} [CommRing R] [CommRing S] (α : R)

/-- A polynomial with the given coefficients at a point. -/
def evalBits (n : Nat) (bits : Nat → Bool) : R :=
  ∑ i ∈ Finset.range n, if bits i then α ^ i else 0

variable {α} {n : Nat} {bits bits' : Nat → Bool}

theorem evalBits_congr (same : ∀ i, i < n → bits i = bits' i) :
    evalBits α n bits = evalBits α n bits' := by
  apply Finset.sum_congr rfl
  intro i inside
  rw [same i (Finset.mem_range.mp inside)]

theorem evalBits_succ (n : Nat) (bits : Nat → Bool) :
    evalBits α (n + 1) bits = evalBits α n bits + if bits n then α ^ n else 0 :=
  Finset.sum_range_succ ..

theorem evalBits_xor [CharP R 2] (n : Nat) (bits bits' : Nat → Bool) :
    evalBits α n (fun i => bits i ^^ bits' i) = evalBits α n bits + evalBits α n bits' := by
  rw [evalBits, evalBits, evalBits, ← Finset.sum_add_distrib]
  apply Finset.sum_congr rfl
  intro i _
  cases bits i with
  | false => simp
  | true =>
    cases bits' i with
    | false => simp
    | true => simp [CharTwo.add_self_eq_zero]

theorem evalBits_single {k : Nat} (inside : k < n) :
    evalBits α n (fun i => decide (i = k)) = α ^ k := by
  simp [evalBits, inside]

theorem evalBits_add (p n : Nat) (bits : Nat → Bool) :
    evalBits α (p + n) bits = evalBits α p bits + α ^ p * evalBits α n fun i => bits (p + i) := by
  rw [evalBits, Finset.sum_range_add, evalBits, evalBits, Finset.mul_sum]
  congr 1
  apply Finset.sum_congr rfl
  intro i _
  rw [mul_ite, mul_zero, pow_add]

theorem evalBits_clear (clear : ∀ i, i < n → bits i = false) : evalBits α n bits = 0 := by
  apply Finset.sum_eq_zero
  intro i inside
  rw [clear i (Finset.mem_range.mp inside), if_neg Bool.false_ne_true]

theorem evalBits_shift (p n : Nat) (bits : Nat → Bool) :
    evalBits α (p + n) (fun i => decide (p ≤ i) && bits (i - p)) = α ^ p * evalBits α n bits := by
  rw [evalBits_add, evalBits_clear (fun i inside => by simp [Nat.not_le.mpr inside]), zero_add]
  simp

theorem evalBits_extend {m : Nat} (longer : n ≤ m) (clear : ∀ i, n ≤ i → i < m → bits i = false) :
    evalBits α m bits = evalBits α n bits := by
  obtain ⟨k, rfl⟩ := Nat.exists_eq_add_of_le longer
  rw [evalBits_add, evalBits_clear (n := k), mul_zero, add_zero]
  intro i inside
  exact clear (n + i) (Nat.le_add_right n i) (Nat.add_lt_add_left inside n)

theorem evalBits_blocks (m k : Nat) (bits : Nat → Bool) :
    evalBits α (m * k) bits = ∑ w ∈ Finset.range k, α ^ (m * w) * evalBits α m fun j => bits (m * w + j) := by
  induction k with
  | zero => simp [evalBits]
  | succ k ih => rw [Nat.mul_succ, evalBits_add, ih, Finset.sum_range_succ]

theorem map_evalBits (φ : R →+* S) (n : Nat) (bits : Nat → Bool) :
    φ (evalBits α n bits) = evalBits (φ α) n bits := by
  rw [evalBits, evalBits, map_sum]
  apply Finset.sum_congr rfl
  intro i _
  split
  · exact map_pow φ α i
  · exact map_zero φ

end Eval

section Words

variable {R : Type} [CommRing R] [CharP R 2] {α : R} {n : Nat} {red : BitVec n}

/-- The value of a coefficient word. -/
def packed (α : R) (x : BitVec n) : R := evalBits α n x.getLsbD

/-- Multiplication by the indeterminate modulo `X ^ n + red`. -/
def mulX (red x : BitVec n) : BitVec n := x <<< 1 ^^^ if x.getLsbD (n - 1) then red else 0#n

/-- Multiplication from the top bit of the second factor down. -/
def mul (red x y : BitVec n) : BitVec n :=
  (List.range n).foldl (fun acc i => mulX red acc ^^^ if y.getLsbD (n - 1 - i) then x else 0#n) 0#n

def squares (red x : BitVec n) (k : Nat) : BitVec n :=
  (List.range k).foldl (fun x _ => mul red x x) x

theorem packed_xor (x y : BitVec n) : packed α (x ^^^ y) = packed α x + packed α y :=
  (evalBits_congr fun _ _ => BitVec.getLsbD_xor).trans (evalBits_xor n x.getLsbD y.getLsbD)

omit [CharP R 2] in
theorem packed_zero : packed α 0#n = 0 := by
  simp [packed, evalBits]

omit [CharP R 2] in
theorem packed_twoPow {k : Nat} (inside : k < n) : packed α (BitVec.twoPow n k) = α ^ k := by
  rw [← evalBits_single (α := α) inside]
  apply evalBits_congr
  intro i _
  simp [BitVec.getLsbD_twoPow, inside, eq_comm]

omit [CharP R 2] in
theorem packed_ite (c : Prop) [Decidable c] (x : BitVec n) :
    packed α (if c then x else 0#n) = if c then packed α x else 0 := by
  split
  · rfl
  · exact packed_zero

theorem packed_mulX (reduces : α ^ n = packed α red) (x : BitVec n) :
    packed α (mulX red x) = α * packed α x := by
  cases n with
  | zero => simp [packed, evalBits]
  | succ m =>
    have shifted : packed α (x <<< 1) =
        evalBits α (m + 1) fun i => decide (1 ≤ i) && x.getLsbD (i - 1) := by
      apply evalBits_congr
      intro i inside
      rw [BitVec.getLsbD_shiftLeft, decide_eq_true inside, Bool.true_and]
      by_cases first : i < 1
      · simp [first, Nat.not_le.mpr first]
      · simp [first, Nat.not_lt.mp first]
    have whole : evalBits α (m + 2) (fun i => decide (1 ≤ i) && x.getLsbD (i - 1)) =
        α * packed α x := by
      rw [Nat.add_comm m 2, ← Nat.add_right_comm 1 m 1, Nat.add_assoc]
      rw [evalBits_shift, pow_one, packed]
    rw [evalBits_succ, Nat.add_sub_cancel, reduces] at whole
    rw [mulX, packed_xor, packed_ite, shifted, ← whole]
    simp

theorem packed_mul (reduces : α ^ n = packed α red) (x y : BitVec n) :
    packed α (mul red x y) = packed α x * packed α y := by
  have steps (m : Nat) (few : m ≤ n) : packed α ((List.range m).foldl (fun acc i =>
      mulX red acc ^^^ if y.getLsbD (n - 1 - i) then x else 0#n) 0#n) =
      packed α x * evalBits α m fun j => y.getLsbD (n - m + j) := by
    induction m with
    | zero => simp [packed_zero, evalBits]
    | succ m ih =>
      have lowest : evalBits α (m + 1) (fun j => y.getLsbD (n - (m + 1) + j)) =
          α * evalBits α m (fun j => y.getLsbD (n - m + j)) +
            if y.getLsbD (n - 1 - m) then 1 else 0 := by
        rw [evalBits, Finset.sum_range_succ', evalBits, Finset.mul_sum]
        congr 1
        · apply Finset.sum_congr rfl
          intro j _
          have place : n - (m + 1) + (j + 1) = n - m + j := by omega
          rw [place, mul_ite, mul_zero, pow_succ' α j]
        · rw [pow_zero, Nat.add_zero, Nat.sub_sub, Nat.add_comm 1 m]
      rw [List.range_succ, List.foldl_append, List.foldl_cons, List.foldl_nil, packed_xor,
        packed_mulX reduces, ih (Nat.le_of_succ_le few), packed_ite, lowest]
      split <;> ring
  have all := steps n (Nat.le_refl n)
  rw [Nat.sub_self] at all
  simpa only [mul, packed, Nat.zero_add] using all

theorem packed_squares (reduces : α ^ n = packed α red) (x : BitVec n) (k : Nat) :
    packed α (squares red x k) = packed α x ^ 2 ^ k := by
  induction k with
  | zero => simp [squares]
  | succ k ih =>
    rw [squares, List.range_succ, List.foldl_append, ← squares, List.foldl_cons, List.foldl_nil,
      packed_mul reduces, ih, pow_succ, pow_mul, pow_two]

end Words

section Modulus

variable {n k : Nat} {red : BitVec n}

/-- `X ^ n + red`. -/
noncomputable def modulus (red : BitVec n) : (ZMod 2)[X] := X ^ n + packed X red

theorem coeff_packed (x : BitVec n) (i : Nat) :
    (packed (X : (ZMod 2)[X]) x).coeff i = if x.getLsbD i then 1 else 0 := by
  rw [packed, evalBits, finsetSum_coeff, Finset.sum_eq_single i]
  · split
    · exact coeff_X_pow_self i
    · exact coeff_zero i
  · intro j _ other
    split
    · rw [coeff_X_pow, if_neg other.symm]
    · exact coeff_zero i
  · intro outside
    rw [BitVec.getLsbD_of_ge x i (by simpa using outside)]
    exact coeff_zero i

theorem degree_packed_lt (x : BitVec n) : (packed (X : (ZMod 2)[X]) x).degree < n := by
  rw [degree_lt_iff_coeff_zero]
  intro i high
  rw [coeff_packed, BitVec.getLsbD_of_ge x i high, if_neg Bool.false_ne_true]

theorem degree_modulus (red : BitVec n) : (modulus red).degree = n :=
  (degree_add_eq_left_of_degree_lt (by simpa using degree_packed_lt red)).trans (degree_X_pow n)

theorem natDegree_modulus (red : BitVec n) : (modulus red).natDegree = n :=
  natDegree_eq_of_degree_eq_some (degree_modulus red)

theorem modulus_monic (red : BitVec n) : (modulus red).Monic :=
  monic_X_pow_add (degree_packed_lt red)

theorem mk_packed (f : (ZMod 2)[X]) (x : BitVec n) :
    AdjoinRoot.mk f (packed X x) = packed (AdjoinRoot.root f) x :=
  map_evalBits (AdjoinRoot.mk f) n x.getLsbD

theorem packed_injective (red : BitVec n) :
    Function.Injective (packed (AdjoinRoot.root (modulus red)) : BitVec n → _) := by
  intro x y same
  have vanishes : AdjoinRoot.mk (modulus red) (packed X x - packed X y) = 0 := by
    rw [map_sub, mk_packed, mk_packed, same, sub_self]
  have degree : (packed (X : (ZMod 2)[X]) x - packed X y).degree < (modulus red).degree := by
    rw [degree_modulus]
    exact (degree_sub_le _ _).trans_lt (max_lt (degree_packed_lt x) (degree_packed_lt y))
  have equal := sub_eq_zero.mp (eq_zero_of_dvd_of_degree_lt (AdjoinRoot.mk_eq_zero.mp vanishes) degree)
  apply BitVec.eq_of_getLsbD_eq
  intro i _
  have coefficient := congrArg (coeff · i) equal
  simp only [coeff_packed] at coefficient
  cases hx : x.getLsbD i <;> cases hy : y.getLsbD i <;> simp_all

theorem packed_surjective (red : BitVec n) :
    Function.Surjective (packed (AdjoinRoot.root (modulus red)) : BitVec n → _) := by
  intro a
  let q := AdjoinRoot.modByMonicHom (modulus_monic red) a
  have degree : q.degree < n := by
    obtain ⟨p, rfl⟩ := AdjoinRoot.mk_surjective a
    rw [← degree_modulus red]
    exact degree_modByMonic_lt p (modulus_monic red)
  let bits := List.ofFn fun i : Fin n => decide (q.coeff i = 1)
  let x : BitVec n := (BitVec.ofBoolListLE bits).cast (List.length_ofFn)
  have coefficients : packed X x = q := by
    apply Polynomial.ext
    intro i
    rw [coeff_packed]
    rcases Nat.lt_or_ge i n with low | high
    · have bit : x.getLsbD i = decide (q.coeff i = 1) := by
        rw [BitVec.getLsbD_cast, BitVec.getLsbD_ofBoolListLE]
        simp [bits, low]
      rw [bit]
      generalize q.coeff i = c
      revert c
      decide
    · have beyond : q.degree < i := degree.trans_le (by exact_mod_cast high)
      rw [BitVec.getLsbD_of_ge x i high, coeff_eq_zero_of_degree_lt beyond, if_neg Bool.false_ne_true]
  use x
  rw [← mk_packed, coefficients]
  exact AdjoinRoot.mk_leftInverse (modulus_monic red) a

variable {f : (ZMod 2)[X]} (defines : f = modulus red)

include defines

/-- The words are the residues. -/
theorem packed_bijective :
    Function.Bijective (packed (AdjoinRoot.root f) : BitVec n → AdjoinRoot f) := by
  subst defines
  exact ⟨packed_injective red, packed_surjective red⟩

theorem root_reduces [CharP (AdjoinRoot f) 2] :
    AdjoinRoot.root f ^ n = packed (AdjoinRoot.root f) red := by
  subst defines
  have vanishes : AdjoinRoot.mk (modulus red) (X ^ n + packed X red) = 0 := AdjoinRoot.mk_self
  rw [map_add, map_pow, AdjoinRoot.mk_X, mk_packed] at vanishes
  exact CharTwo.add_eq_zero.mp vanishes

theorem charTwo (positive : 0 < n) : CharP (AdjoinRoot f) 2 := by
  have : Nontrivial (AdjoinRoot f) := by
    apply AdjoinRoot.nontrivial
    rw [defines, degree_modulus]
    exact_mod_cast positive.ne'
  exact charP_of_injective_algebraMap (algebraMap (ZMod 2) _).injective 2

/-- Irreducibility on words: the indeterminate comes back after `n` squarings, and half of them
move it by an invertible word. -/
theorem irreducible_modulus {half inverse : BitVec n} (size : n = 2 ^ (k + 1))
    (forth : squares red (BitVec.twoPow n 1) (2 ^ k) = half)
    (back : squares red half (2 ^ k) = BitVec.twoPow n 1)
    (unit : mul red (half ^^^ BitVec.twoPow n 1) inverse = BitVec.twoPow n 0) :
    Irreducible f := by
  have large : 1 < n := by
    rw [size]
    exact Nat.one_lt_two_pow (Nat.succ_ne_zero k)
  have := charTwo defines (Nat.zero_lt_of_lt large)
  let α := AdjoinRoot.root f
  have indeterminate : packed α (BitVec.twoPow n 1) = α := (packed_twoPow large).trans (pow_one α)
  have one : packed α (BitVec.twoPow n 0) = 1 :=
    (packed_twoPow (Nat.zero_lt_of_lt large)).trans (pow_zero α)
  have first := packed_squares (root_reduces defines) (BitVec.twoPow n 1) (2 ^ k)
  have second := packed_squares (root_reduces defines) half (2 ^ k)
  have inverts := packed_mul (root_reduces defines) (half ^^^ BitVec.twoPow n 1) inverse
  rw [forth, indeterminate] at first
  rw [back, indeterminate, first, ← pow_mul, ← pow_add, ← two_mul, ← pow_succ'] at second
  rw [unit, one, packed_xor, first, indeterminate, ← CharTwo.sub_eq_add] at inverts
  apply irreducible_of_frobenius (k := k) (defines ▸ (natDegree_modulus red).trans size) second.symm
  exact IsUnit.of_mul_eq_one _ inverts.symm

end Modulus

section Fibers

variable {K V W : Type} [Field K] [AddCommGroup V] [Module K V] [Module.Finite K V]
  [AddCommGroup W] [Module K W]

/-- Every value of a linear map onto its target is taken equally often. -/
theorem card_fiber (f : V →ₗ[K] W) (onto : Function.Surjective f) (c : W) :
    Nat.card {v // f v = c} = Nat.card K ^ (Module.finrank K V - Module.finrank K W) := by
  obtain ⟨v₀, rfl⟩ := onto c
  have translate : {v // f v = f v₀} ≃ LinearMap.ker f := by
    apply (Equiv.subRight v₀).subtypeEquiv
    intro v
    simp [sub_eq_zero]
  have dimensions := f.finrank_range_add_finrank_ker
  rw [LinearMap.range_eq_top.mpr onto, finrank_top] at dimensions
  rw [Nat.card_congr translate, Module.natCard_eq_pow_finrank (K := K), ← dimensions,
    Nat.add_sub_cancel_left]

end Fibers

end BlindSig.BinaryField
