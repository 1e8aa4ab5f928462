import BlindSig.Lib.Xor
import Mathlib.Data.Nat.ModEq
import Mathlib.Data.Vector.Basic

/-! The sponge construction on bits over a permutation of the state: padding, absorption of whole
blocks and squeezing, for any rate. -/
namespace BlindSig.Sponge

variable {b : Nat} (f : Vector Bool b → Vector Bool b) (r : Nat)

/-- `pad10*1`: two ones, and between them as many zeros as fill up the block. -/
def pad101 (len : Nat) : List Bool :=
  true :: List.replicate ((r - (len + 2) % r) % r) false ++ [true]

/-- `S ⊕ (block || 0^c)`. -/
def absorbBlock (S : Vector Bool b) (block : List Bool) : Vector Bool b :=
  Vector.ofFn fun j : Fin b => S[j] ^^ block.getD j false

def block (P : List Bool) (i : Nat) : List Bool := (P.drop (i * r)).take r

/-- The state after the first `n` blocks. -/
def absorbed (P : List Bool) (n : Nat) : Vector Bool b :=
  (List.range n).foldl (fun S i => f (absorbBlock S (block r P i))) (Vector.replicate b false)

/-- The first `r` bits of one state after the other, cut off at `d` bits. -/
def squeeze (S : Vector Bool b) (d : Nat) : List Bool :=
  ((List.range (d / r + 1)).flatMap fun k => (f^[k] S).toList.take r).take d

def sponge (N : List Bool) (d : Nat) : List Bool :=
  let P := N ++ pad101 r N.length
  squeeze f r (absorbed f r P (P.length / r)) d

theorem length_pad101 (len : Nat) :
    (pad101 r len).length = (r - (len + 2) % r) % r + 2 := by
  simp [pad101]

/-- Padding ends at the end of a block. -/
theorem padded_length (positive : 0 < r) (len : Nat) :
    r ∣ len + (pad101 r len).length := by
  rw [length_pad101]
  have below := Nat.mod_lt (len + 2) positive
  rcases Nat.eq_zero_or_pos ((len + 2) % r) with whole | part
  · rw [whole, Nat.sub_zero, Nat.mod_self, Nat.zero_add]
    exact Nat.dvd_of_mod_eq_zero whole
  · rw [Nat.mod_eq_of_lt (by omega : r - (len + 2) % r < r)]
    have split := Nat.div_add_mod (len + 2) r
    use (len + 2) / r + 1
    rw [Nat.mul_succ]
    omega

theorem absorbed_succ (P : List Bool) (n : Nat) :
    absorbed f r P (n + 1) = f (absorbBlock (absorbed f r P n) (block r P n)) := by
  rw [absorbed, List.range_succ, List.foldl_append, List.foldl_cons, List.foldl_nil, absorbed]

/-- Output of at most one block is the front of the state. -/
theorem squeeze_short (S : Vector Bool b) {d : Nat} (few : d ≤ r) (inside : r ≤ b) :
    squeeze f r S d = S.toList.take d := by
  rw [squeeze, List.range_succ_eq_map, List.flatMap_cons, Function.iterate_zero_apply,
    List.take_append_of_le_length, List.take_take, Nat.min_eq_left few]
  rw [List.length_take, Vector.length_toList, Nat.min_eq_left inside]
  exact few

end BlindSig.Sponge
