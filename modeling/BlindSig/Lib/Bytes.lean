import BlindSig.Lib.Xor
import Mathlib.Tactic.IntervalCases

/-! Bytes, 32-bit words and their fixed-size buffers, and the operations on them that
respect exclusive-or: shifts, rotations, bit selection, slicing and word loads. -/
namespace BlindSig

abbrev Byte := BitVec 8
abbrev Word := BitVec 32

open XorGroup

/-- `(x >> i) & 1`. -/
def bitAt (x : BitVec w) (i : Nat) : Word := (x >>> i &&& 1).setWidth 32

/-- A truth value as the word 1 or 0. -/
def boolWord (b : Bool) : Word := if b then 1 else 0

/-- `0 - ((x >> i) & 1)`: the bit spread over a whole word. -/
def spreadBit (x : Word) (i : Nat) : Word := 0 - (x >>> i &&& 1)

/-- `(x >> n) | (x << (32 - n))`. -/
def rightRotate (x : Word) (n : Nat) : Word := x >>> n ||| x <<< (32 - n)

/-- The `i`-th byte, least significant first. -/
def byteAt (x : BitVec w) (i : Nat) : Byte := (x >>> (8 * i)).setWidth 8

/-- `b[0] | b[1] << 8 | b[2] << 16 | b[3] << 24`. -/
def le32 (b : Fin 4 → Byte) : Word :=
  (b 0).setWidth 32 ||| (b 1).setWidth 32 <<< 8 ||| (b 2).setWidth 32 <<< 16 |||
    (b 3).setWidth 32 <<< 24

/-- `b[0] << 24 | b[1] << 16 | b[2] << 8 | b[3]`. -/
def be32 (b : Fin 4 → Byte) : Word := le32 (fun i => b (Fin.rev i))

/-- `len` bytes from `off` on. -/
def slice (v : Vector α k) (off len : Nat) (inside : off + len ≤ k) : Vector α len :=
  Vector.ofFn fun i : Fin len => v[off + i]

@[simp] theorem getElem_slice (v : Vector α k) (off len : Nat) (inside : off + len ≤ k)
    (i : Nat) (hi : i < len) : (slice v off len inside)[i] = v[off + i] := by
  simp [slice]

theorem slice_append_left (a : Vector α m) (b : Vector α n) :
    slice (a ++ b) 0 m (by omega) = a := by
  apply Vector.ext
  intro i hi
  simp [hi]

theorem slice_append_right (a : Vector α m) (b : Vector α n) :
    slice (a ++ b) m n (by omega) = b := by
  apply Vector.ext
  intro i hi
  simp

theorem slice_append_front {m n : Nat} (a : Vector α m) (b : Vector α n) (off len : Nat)
    (h : off + len ≤ m) : slice (a ++ b) off len (Nat.le_add_right_of_le h) = slice a off len h := by
  apply Vector.ext
  intro i hi
  have inside : off + i < m := by omega
  simp [inside]

theorem slice_append_back {m n : Nat} (a : Vector α m) (b : Vector α n) (off len : Nat)
    (h : off + len ≤ n) : slice (a ++ b) (m + off) len (by omega) = slice b off len h := by
  apply Vector.ext
  intro i hi
  simp [Nat.add_assoc]

theorem slice_whole (a : Vector α m) : slice a 0 m (Nat.le_of_eq (Nat.zero_add m)) = a := by
  apply Vector.ext
  intro i hi
  simp

theorem slice_slice (v : Vector α k) (off len off' len' : Nat) (h : off + len ≤ k)
    (h' : off' + len' ≤ len) : slice (slice v off len h) off' len' h' =
      slice v (off + off') len' (by omega) := by
  apply Vector.ext
  intro i hi
  simp [Nat.add_assoc]

theorem slice_append_slice (v : Vector α (m + n)) :
    slice v 0 m (by omega) ++ slice v m n (by omega) = v := by
  apply Vector.ext
  intro i hi
  rcases Nat.lt_or_ge i m with low | high
  · simp [low]
  · simp [Vector.getElem_append, Nat.not_lt.mpr high, Nat.add_sub_cancel' high]

theorem toList_slice (v : Vector α k) (off len : Nat) (inside : off + len ≤ k) :
    (slice v off len inside).toList = (v.toList.drop off).take len := by
  apply List.ext_getElem
  · simp
    omega
  · intro i _ _
    simp

/-- A list is its blocks in order. -/
theorem flatMap_blocks (m : Nat) {k : Nat} {l : List α} (size : l.length = k * m) :
    (List.range k).flatMap (fun i => (l.drop (i * m)).take m) = l := by
  induction k generalizing l with
  | zero => simpa [eq_comm] using size
  | succ k ih =>
    have front : (l.take (k * m)).length = k * m := by
      rw [List.length_take, size, Nat.succ_mul]
      omega
    have last : (l.drop (k * m)).take m = l.drop (k * m) := by
      apply List.take_of_length_le
      rw [List.length_drop, size, Nat.succ_mul]
      omega
    have blocks : (List.range k).flatMap (fun i => (l.drop (i * m)).take m) =
        (List.range k).flatMap (fun i => ((l.take (k * m)).drop (i * m)).take m) := by
      apply List.flatMap_congr
      intro i inside
      have below := Nat.mul_le_mul_right m (Nat.succ_le_of_lt (List.mem_range.mp inside))
      rw [Nat.succ_mul] at below
      rw [List.drop_take, List.take_take, Nat.min_eq_left (by omega)]
    rw [List.range_succ, List.flatMap_append, blocks, ih front, List.flatMap_singleton, last,
      List.take_append_drop]

/-- The bytes of a value, least significant first. -/
def leBytes (v : BitVec w) (k : Nat) : Vector Byte k := Vector.ofFn fun i : Fin k => byteAt v i

/-- `b[0] | b[1] << 8 | ...`. -/
def leValue (w : Nat) (b : Vector Byte k) : BitVec w :=
  (List.finRange k).foldl (fun (v : BitVec w) (i : Fin k) => v ||| b[i].setWidth w <<< (8 * i.val)) 0

/-- The rows of `v` one after the other. -/
def join (v : Vector (Vector α m) k) : Vector α (k * m) :=
  Vector.ofFn fun i : Fin (k * m) =>
    getElem (getElem v (i.val / m) (Nat.div_lt_of_lt_mul (Nat.mul_comm k m ▸ i.isLt))) (i.val % m)
      (Nat.mod_lt _ (Nat.pos_of_lt_mul_left i.isLt))

/-- The consecutive rows of length `m`. -/
def rows (v : Vector α (k * m)) : Vector (Vector α m) k :=
  Vector.ofFn fun i : Fin k => slice v (i * m) m (by
    have := Nat.mul_le_mul_right m (Nat.succ_le_of_lt i.isLt)
    rwa [Nat.succ_mul] at this)

theorem slice_join (v : Vector (Vector α m) k) {i : Nat} (hi : i < k) (inside : i * m + m ≤ k * m) :
    slice (join v) (i * m) m inside = v[i] := by
  apply Vector.ext
  intro j hj
  have quotient : (i * m + j) / m = i := by
    rw [Nat.mul_comm, Nat.mul_add_div (Nat.zero_lt_of_lt hj), Nat.div_eq_of_lt hj, Nat.add_zero]
  have remainder : (i * m + j) % m = j := by
    rw [Nat.mul_comm, Nat.mul_add_mod, Nat.mod_eq_of_lt hj]
  simp [join, quotient, remainder]

theorem join_rows (v : Vector α (k * m)) : join (rows v) = v := by
  apply Vector.ext
  intro i hi
  simp [join, rows, Nat.div_add_mod']

/-- A buffer is determined by its rows. -/
theorem eq_of_slices {v w : Vector α (k * m)} (inside : ∀ i : Fin k, i * m + m ≤ k * m)
    (same : ∀ i : Fin k, slice v (i * m) m (inside i) = slice w (i * m) m (inside i)) : v = w := by
  rw [← join_rows v, ← join_rows w, rows, rows]
  simp only [same]

/-- `n` entries written one after the other into an array of `n`. -/
def asVector (n : Nat) (l : List α) : Option (Vector α n) :=
  if h : l.length = n then some ⟨l.toArray, by simpa using h⟩ else none

/-- The four bytes from `off` on as one little-endian word. -/
def loadWord (v : Vector Byte k) (off : Nat) (inside : off + 4 ≤ k) : Word :=
  le32 fun i => v[off + i]

theorem word_of_node (w : Fin 4) : 4 * w.val + 4 ≤ 16 := by omega

theorem word_of_digest (w : Fin 8) : 4 * w.val + 4 ≤ 32 := by omega

/-- `v[4i + j]` is byte `j` of `words[i]`. -/
def storeWords (words : Vector Word k) : Vector Byte (4 * k) :=
  Vector.ofFn fun i : Fin (4 * k) => byteAt (getElem words (i.val / 4) (by omega)) (i.val % 4)

section Bits

@[simp] theorem getLsbD_boolWord (b : Bool) (i : Nat) :
    (boolWord b).getLsbD i = (decide (i = 0) && b) := by
  cases b <;> simp [boolWord, show (1 : Word) = 1#32 from rfl, BitVec.getLsbD_one]

@[simp] theorem getElem_boolWord (b : Bool) (i : Nat) (hi : i < 32) :
    (boolWord b)[i] = (decide (i = 0) && b) := by
  rw [← BitVec.getLsbD_eq_getElem, getLsbD_boolWord]

theorem boolWord_xor (a b : Bool) : boolWord a ^^^ boolWord b = boolWord (a ^^ b) := by
  cases a <;> cases b <;> rfl

theorem and_boolWord (x : Word) (b : Bool) : x &&& boolWord b = boolWord (x.getLsbD 0 && b) := by
  apply BitVec.eq_of_getLsbD_eq
  intro i _
  rcases Nat.eq_zero_or_pos i with rfl | above
  · simp
  · simp [Nat.ne_of_gt above]

theorem bitAt_eq (x : BitVec w) (i : Nat) : bitAt x i = boolWord (x.getLsbD i) := by
  apply BitVec.eq_of_getLsbD_eq
  intro j hj
  have inside : x.getLsbD i = true → 0 < w := fun h => by
    have := BitVec.lt_of_getLsbD h
    omega
  cases h : x.getLsbD i <;> rcases Nat.eq_zero_or_pos j with rfl | above <;>
    simp_all [bitAt, Nat.ne_of_gt]

theorem spreadBit_eq (x : Word) (i : Nat) :
    spreadBit x i = if x.getLsbD i then BitVec.allOnes 32 else 0#32 := by
  have bit : x >>> i &&& 1 = boolWord (x.getLsbD i) := by
    simpa [bitAt] using bitAt_eq x i
  rw [spreadBit, bit]
  cases x.getLsbD i <;> rfl

theorem getLsbD_rightRotate (x : Word) {n i : Nat} (hn : 0 < n) (hn' : n < 32) (hi : i < 32) :
    (rightRotate x n).getLsbD i = x.getLsbD ((i + n) % 32) := by
  rcases Nat.lt_or_ge (i + n) 32 with below | above
  · have : ¬ 32 - n ≤ i := by omega
    simp [rightRotate, hi, Nat.mod_eq_of_lt below, Nat.add_comm n i, this]
  · have wrapped : (i + n) % 32 = i - (32 - n) := by omega
    have high : x.getLsbD (n + i) = false := BitVec.getLsbD_of_ge _ _ (by omega)
    have : ¬ i < 32 - n := by omega
    simp [rightRotate, hi, wrapped, high, this,
      BitVec.getLsbD_eq_getElem (show i - (32 - n) < 32 by omega)]

theorem getLsbD_le32 (b : Fin 4 → Byte) (i : Nat) (hi : i < 32) :
    (le32 b).getLsbD i = (b ⟨i / 8, by omega⟩).getLsbD (i % 8) := by
  interval_cases i <;> simp [le32]

theorem getLsbD_byteAt (x : BitVec w) (i j : Nat) (hj : j < 8) :
    (byteAt x i).getLsbD j = x.getLsbD (8 * i + j) := by
  simp [byteAt, hj]

theorem le32_xor (a b : Fin 4 → Byte) : le32 (fun i => a i ^^^ b i) = le32 a ^^^ le32 b := by
  apply BitVec.eq_of_getLsbD_eq
  intro i hi
  simp only [BitVec.getLsbD_xor, getLsbD_le32 _ _ hi]

theorem byteAt_le32 (b : Fin 4 → Byte) (i : Fin 4) : byteAt (le32 b) i = b i := by
  apply BitVec.eq_of_getLsbD_eq
  intro j hj
  rw [getLsbD_byteAt _ _ _ hj, getLsbD_le32 _ _ (by omega)]
  congr 2
  · ext; simp; omega
  · omega

theorem le32_byteAt (x : Word) : le32 (fun i => byteAt x i) = x := by
  apply BitVec.eq_of_getLsbD_eq
  intro j hj
  rw [getLsbD_le32 _ _ hj, getLsbD_byteAt _ _ _ (by omega), Nat.div_add_mod]

end Bits

namespace XorLinear

theorem ushiftRight (i : Nat) : XorLinear (fun x : BitVec w => x >>> i) := by
  intro a b
  ext
  simp

/-- Reads past the end give zero. -/
theorem getD (i : Nat) : XorLinear (fun v : Vector (BitVec w) k => v[i]?.getD 0) := by
  intro a b
  by_cases inside : i < k
  · simp [inside]
  · simp [inside]

theorem shiftLeft (i : Nat) : XorLinear (fun x : BitVec w => x <<< i) := by
  intro a b
  ext j
  by_cases below : j < i <;> simp [below]

theorem and_const (c : BitVec w) : XorLinear (fun x : BitVec w => x &&& c) := by
  intro a b
  ext
  simp [Bool.and_xor_distrib_right]

theorem setWidth (v : Nat) : XorLinear (fun x : BitVec w => x.setWidth v) := by
  intro a b
  ext j
  by_cases inside : j < w <;> simp [inside]

theorem bitAt (i : Nat) : XorLinear (fun x : BitVec w => bitAt x i) := by
  intro a b
  simp only [bitAt_eq, BitVec.getLsbD_xor, boolWord_xor]

theorem spreadBit (i : Nat) : XorLinear (fun x : Word => spreadBit x i) := by
  intro a b
  simp only [spreadBit_eq, BitVec.getLsbD_xor]
  cases a.getLsbD i <;> cases b.getLsbD i <;> rfl

theorem rightRotate {n : Nat} (hn : 0 < n) (hn' : n < 32) :
    XorLinear (fun x : Word => rightRotate x n) := by
  intro a b
  apply BitVec.eq_of_getLsbD_eq
  intro i hi
  simp only [BitVec.getLsbD_xor, getLsbD_rightRotate _ hn hn' hi]

theorem byteAt (i : Nat) : XorLinear (fun x : BitVec w => byteAt x i) :=
  comp (setWidth 8) (ushiftRight (8 * i))

theorem le32 {A : Type} [XorGroup A] {f : A → Fin 4 → Byte}
    (h : ∀ i, XorLinear (fun a => f a i)) : XorLinear (fun a => le32 (f a)) := by
  intro a b
  apply BitVec.eq_of_getLsbD_eq
  intro i hi
  simp only [BitVec.getLsbD_xor, getLsbD_le32 _ _ hi]
  rw [← BitVec.getLsbD_xor]
  exact congrArg (·.getLsbD (i % 8)) (h _ a b)

theorem be32 {A : Type} [XorGroup A] {f : A → Fin 4 → Byte}
    (h : ∀ i, XorLinear (fun a => f a i)) : XorLinear (fun a => be32 (f a)) :=
  le32 fun i => h (Fin.rev i)

theorem slice {A : Type} [XorGroup A] (off len : Nat) (inside : off + len ≤ k) :
    XorLinear (fun v : Vector A k => slice v off len inside) :=
  ofFn fun _ => getElem _ _

theorem join {A : Type} [XorGroup A] :
    XorLinear (join : Vector (Vector A m) k → _) := by
  intro a b
  ext i hi
  simp [BlindSig.join]

theorem loadWord (off : Nat) (inside : off + 4 ≤ k) :
    XorLinear (fun v : Vector Byte k => loadWord v off inside) :=
  le32 fun _ => getElem _ _

theorem storeWords : XorLinear (storeWords : Vector Word k → _) :=
  ofFn fun i => comp (A := Vector Word k) (B := Word)
    (f := fun words => GetElem.getElem words (i.val / 4) (by omega))
    (byteAt (i.val % 4)) (getElem (i.val / 4) (by omega))

theorem append {A : Type} [XorGroup A] :
    XorLinear (fun p : Vector A k × Vector A m => p.1 ++ p.2) := by
  intro a b
  ext i hi
  simp only [getElem_xor, Vector.getElem_append]
  split <;> simp

end XorLinear

@[simp] theorem loadWord_storeWords (words : Vector Word k) (i : Nat)
    (inside : 4 * i + 4 ≤ 4 * k) :
    loadWord (storeWords words) (4 * i) inside = getElem words i (by omega) := by
  rw [← le32_byteAt (getElem words i (by omega))]
  unfold loadWord
  congr 1
  funext j
  have quotient : (4 * i + j.val) / 4 = i := by omega
  have remainder : (4 * i + j.val) % 4 = j.val := by omega
  simp [storeWords, quotient, remainder]

theorem asVector_eq {l : List α} {v : Vector α n} (same : l = v.toList) : asVector n l = some v := by
  subst same
  simp [asVector, Vector.toList]

section LittleEndian

theorem foldl_finRange {n : Nat} {f : σ → Fin n → σ} (s : Nat → σ)
    (step : ∀ i : Fin n, f (s i) i = s (i + 1)) : (List.finRange n).foldl f (s 0) = s n := by
  induction n with
  | zero => rfl
  | succ n ih =>
    have front := ih (f := fun x i => f x i.castSucc) fun i => step i.castSucc
    rw [List.finRange_succ_last, List.foldl_append, List.foldl_map, front]
    exact step (Fin.last n)

theorem leValue_push (b : Vector Byte k) (x : Byte) :
    leValue w (b.push x) = leValue w b ||| x.setWidth w <<< (8 * k) := by
  simp [leValue, List.finRange_succ_last, List.foldl_append, List.foldl_map, Vector.getElem_push]

theorem getLsbD_leValue (b : Vector Byte k) {j : Nat} (hj : j < w) :
    (leValue w b).getLsbD j = (b[j / 8]?.getD 0).getLsbD (j % 8) := by
  induction k with
  | zero => simp [leValue, Vector.eq_empty]
  | succ k ih =>
    obtain ⟨b, x, rfl⟩ : ∃ (front : Vector Byte k) (last : Byte), b = front.push last :=
      Vector.exists_push
    rw [leValue_push, BitVec.getLsbD_or, ih]
    simp only [BitVec.getLsbD_shiftLeft, BitVec.getLsbD_setWidth, hj, decide_true, Bool.true_and]
    rcases Nat.lt_trichotomy (j / 8) k with low | here | high
    · have below : j < 8 * k := by omega
      simp [Vector.getElem?_push, low, Nat.ne_of_lt low, below]
    · have place : j - 8 * k = j % 8 := by omega
      have inside : j - 8 * k < w := by omega
      have reached : ¬ j < 8 * k := by omega
      simp [here, place, reached, show j % 8 < w by omega]
    · have above : 8 ≤ j - 8 * k := by omega
      have out : x.getLsbD (j - 8 * k) = false := BitVec.getLsbD_of_ge _ _ above
      simp [Vector.getElem?_push, Nat.ne_of_gt high, show ¬ j / 8 < k by omega, out]

theorem leValue_lt (w : Nat) (b : Vector Byte k) : (leValue w b).toNat < 2 ^ (8 * k) := by
  apply Nat.lt_pow_two_of_testBit
  intro j hj
  rcases Nat.lt_or_ge j w with inside | outside
  · have out : b[j / 8]? = none := Vector.getElem?_eq_none (by omega)
    have bit := getLsbD_leValue b inside
    rw [out] at bit
    exact bit.trans (by simp)
  · exact BitVec.getLsbD_of_ge _ _ outside

theorem leValue_leBytes {w k : Nat} (whole : w ≤ 8 * k) (v : BitVec w) :
    leValue w (leBytes v k) = v := by
  apply BitVec.eq_of_getLsbD_eq
  intro j hj
  have inside : j / 8 < k := by omega
  rw [getLsbD_leValue _ hj]
  simp only [leBytes, Vector.getElem?_ofFn, inside, dite_true, Option.getD_some]
  rw [getLsbD_byteAt _ _ _ (Nat.mod_lt _ (by decide)), Nat.div_add_mod]

theorem leBytes_leValue {w k : Nat} (whole : 8 * k ≤ w) (b : Vector Byte k) :
    leBytes (leValue w b) k = b := by
  apply Vector.ext
  intro i hi
  apply BitVec.eq_of_getLsbD_eq
  intro j hj
  have quotient : (8 * i + j) / 8 = i := by omega
  have remainder : (8 * i + j) % 8 = j := by omega
  simp only [leBytes, Vector.getElem_ofFn]
  rw [getLsbD_byteAt _ _ _ hj, getLsbD_leValue _ (by omega), quotient, remainder,
    Vector.getElem?_eq_getElem hi, Option.getD_some]

end LittleEndian

end BlindSig
