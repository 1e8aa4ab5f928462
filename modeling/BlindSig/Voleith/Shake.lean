import BlindSig.Lib.Sponge
import BlindSig.Voleith.NativeAuth

/-! SHAKE256 in the circuit against the sponge of the standard. -/
namespace BlindSig.Voleith

open Kkw Sponge

section Standard

/-- Keccak-f[1600] on a string of bits. -/
def keccakF (s : Vector Bool 1600) : Vector Bool 1600 := flat (keccakRounds 24 (lanes s))

/-- The bits of bytes, each from its lowest bit up. -/
def byteBits (data : List Byte) : List Bool :=
  (List.range (8 * data.length)).map (packedBit data)

/-- SHAKE256: the message, the suffix 1111, and capacity 512. -/
def shake256Bits (message : List Bool) (d : Nat) : List Bool :=
  sponge keccakF rateBits (message ++ [true, true, true, true]) d

def shake256 (data : List Byte) (outLen : Nat) : Vector Byte outLen :=
  Vector.ofFn fun i : Fin outLen => packBits 8 (Vector.ofFn fun j : Fin 8 =>
    (shake256Bits (byteBits data) (8 * outLen)).getD (8 * i + j) false)

/-- `KeccakHash.h`: an instance of SHAKE256 hashes its updates as the standard says. -/
structure KeccakHash extends Shake256 where
  standard : ∀ (data : List Byte) (outLen : Nat), squeeze data outLen = shake256 data outLen

def shake256Raw (S : Shake256) (data : List Byte) (outLen : Nat) : Vector Byte outLen :=
  S.squeeze data outLen

end Standard

section Bits

theorem length_byteBits (data : List Byte) : (byteBits data).length = 8 * data.length := by
  simp [byteBits]

theorem byteBits_append (a b : List Byte) : byteBits (a ++ b) = byteBits a ++ byteBits b := by
  rw [byteBits, List.length_append, Nat.mul_add, List.range_add, List.map_append, List.map_map]
  congr 1
  · apply List.map_congr_left
    intro i inside
    have place : i / 8 < a.length := Nat.div_lt_of_lt_mul (List.mem_range.mp inside)
    simp [packedBit, List.getElem?_append_left place]
  · apply List.map_congr_left
    intro i _
    have quotient : (8 * a.length + i) / 8 = a.length + i / 8 := by omega
    have remainder : (8 * a.length + i) % 8 = i % 8 := by omega
    have beyond : (a ++ b)[a.length + i / 8]? = b[i / 8]? := by
      rw [List.getElem?_append_right (Nat.le_add_right _ _), Nat.add_sub_cancel_left]
    simp [packedBit, quotient, remainder, beyond]

variable {F : Type} [CommRing F] {d : Degree} (n : NativeContext F d)

theorem constant_byteBits {k : Nat} (data : Vector Byte k) :
    (constant n.engine data).toList = byteBits data.toList := by
  apply List.ext_getElem
  · simp [length_byteBits]
  · intro i inside _
    rw [Vector.length_toList] at inside
    have place : i / 8 < k := Nat.div_lt_of_lt_mul inside
    simp [constant, byteBits, packedBit, NativeContext.engine, place]

theorem number_byteBits (v : Nat) :
    (number n.engine v 8).toList = byteBits [BitVec.ofNat 8 v] := by
  apply List.ext_getElem
  · simp [length_byteBits]
  · intro i inside _
    rw [Vector.length_toList] at inside
    have low : i / 8 = 0 := Nat.div_eq_of_lt inside
    simp only [number, byteBits, packedBit, NativeContext.engine, low, Nat.mod_eq_of_lt inside,
      Vector.getElem_toList, Vector.getElem_ofFn, List.getElem_map, List.getElem_range,
      List.getD_cons_zero, BitVec.getLsbD_ofNat]
    simp [inside, show i < 64 by omega]

/-- Digest bits are the bits of the digest bytes. -/
theorem constant_shake256 (data : List Byte) (outLen : Nat) {state : Vector Bool 1600}
    (digest : shake256Bits (byteBits data) (8 * outLen) = state.toList.take (8 * outLen))
    : constant n.engine (shake256 data outLen) =
      Vector.ofFn fun i : Fin (8 * outLen) => state[i.val]?.getD false := by
  apply Vector.ext
  intro i hi
  have low : i % 8 < 8 := Nat.mod_lt i (by decide)
  simp only [constant, shake256, NativeContext.engine, Vector.getElem_ofFn]
  rw [getLsbD_packBits _ low, digest]
  simp [low, Nat.div_add_mod, hi]

end Bits

section Padding

variable {F : Type} [CommRing F] {d : Degree} (n : NativeContext F d)

/-- The suffix byte 0x1f and the flipped last bit are the suffix of the standard and its padding. -/
theorem shakePadded_eq {input : List Bool} (whole : 8 ∣ input.length) :
    shakePadded n.engine input = input ++ [true, true, true, true] ++
      pad101 rateBits (input ++ [true, true, true, true]).length := by
  let zeros := (rateBits - (input ++ (number n.engine 0x1f 8).toList).length % rateBits) % rateBits
  let front := input ++ [true, true, true, true, true] ++ List.replicate (zeros + 2) false
  have fill : (rateBits - ((input ++ [true, true, true, true]).length + 2) % rateBits) % rateBits =
      zeros + 2 := by
    simp only [zeros, rateBits, List.length_append, Vector.length_toList, List.length_cons,
      List.length_nil]
    omega
  have filled : input ++ (number n.engine 0x1f 8).toList ++ List.replicate zeros false =
      front ++ [false] := by
    have suffix : (number n.engine 0x1f 8).toList =
        [true, true, true, true, true] ++ List.replicate 3 false := rfl
    have more : List.replicate (zeros + 2) false ++ [false] = List.replicate (3 + zeros) false := by
      rw [← List.replicate_succ', Nat.add_comm 3 zeros]
    rw [suffix, List.append_assoc, List.append_assoc, List.replicate_append_replicate,
      List.append_assoc, List.append_assoc, more]
  have last : shakePadded n.engine input = front ++ [true] := by
    let whole := input ++ (number n.engine 0x1f 8).toList ++ List.replicate zeros false
    have flipped : shakePadded n.engine input =
        whole.dropLast ++ [whole.getLast?.getD false ^^ true] := rfl
    rw [flipped, show whole = front ++ [false] from filled, List.dropLast_concat, List.getLast?_concat]
    rfl
  rw [last, pad101, fill]
  simp [front]

theorem absorb_eq (padded : List Bool) (i : Nat) (state : Vector Bool 1600) :
    absorb n.engine padded i state = absorbBlock state (block rateBits padded i) := by
  apply Vector.ext
  intro j hj
  simp only [absorb, absorbBlock, block, NativeContext.engine, Vector.getElem_ofFn]
  split
  next front => simp [front]
  next behind => simp [behind]

theorem foldlM_run {σ : Type} {f : σ → Nat → Native σ} {g : σ → Nat → σ}
    (step : ∀ x i s, ∃ s', f x i s = .ok (g x i, s')) (l : List Nat) (x : σ) (s : NativeState) :
    ∃ s', l.foldlM f x s = .ok (l.foldl g x, s') := by
  induction l generalizing x s with
  | nil => exact ⟨s, rfl⟩
  | cons i l ih =>
    obtain ⟨s₁, first⟩ := step x i s
    obtain ⟨s₂, rest⟩ := ih (g x i) s₁
    use s₂
    rw [List.foldlM_cons, Native.bind_ok first, rest, List.foldl_cons]

theorem permuted_whole (state : Vector Bool 1600) : permuted (lanes state) 1600 = keccakF state := by
  apply Vector.ext
  intro i hi
  simp [permuted, keccakF]

/-- The circuit on the bits of any bytes squeezes what the standard does. -/
theorem shake_run (data : List Byte) {outLen : Nat} (few : outLen ≤ 136) (s : NativeState) :
    ∃ s', shake n.engine (byteBits data) outLen s =
      .ok (constant n.engine (shake256 data outLen), s') := by
  let message := byteBits data ++ [true, true, true, true]
  let padded := message ++ pad101 rateBits message.length
  have whole : shakePadded n.engine (byteBits data) = padded :=
    shakePadded_eq n (by rw [length_byteBits]; exact Nat.dvd_mul_right 8 _)
  have blocks : padded.length / rateBits - 1 + 1 = padded.length / rateBits := by
    have full := padded_length rateBits (by decide) message.length
    have some : 0 < padded.length := by simp [padded, pad101]
    rw [← List.length_append] at full
    exact Nat.sub_add_cancel (Nat.div_pos (Nat.le_of_dvd some full) (by decide))
  have step (state : Vector Bool 1600) (i : Nat) (s : NativeState) :
      ∃ s', n.engine.permute (absorb n.engine padded i state) 1600 s =
        .ok (keccakF (absorbBlock state (block rateBits padded i)), s') := by
    rw [absorb_eq, ← permuted_whole]
    exact ⟨_, NativeContext.permute_run n _ 1600 s⟩
  obtain ⟨s₁, front⟩ := foldlM_run step (List.range (padded.length / rateBits - 1))
    (Vector.replicate 1600 false) s
  let state := absorbed keccakF rateBits padded (padded.length / rateBits - 1)
  let final := absorbBlock state (block rateBits padded (padded.length / rateBits - 1))
  have digest : shake256Bits (byteBits data) (8 * outLen) =
      (keccakF final).toList.take (8 * outLen) := by
    have short : 8 * outLen ≤ rateBits := Nat.mul_le_mul_left 8 few
    have last := absorbed_succ keccakF rateBits padded (padded.length / rateBits - 1)
    rw [blocks] at last
    rw [← squeeze_short keccakF rateBits _ short (by decide), ← last]
    rfl
  have start : number n.engine 0 1600 = Vector.replicate 1600 false := by
    apply Vector.ext
    intro i hi
    simp [number, NativeContext.engine]
  rw [constant_shake256 n _ _ digest]
  unfold shake
  rw [whole, start, Native.bind_ok front, absorb_eq]
  exact ⟨_, NativeContext.permute_run n final (8 * outLen) s₁⟩

end Padding

section Agreement

variable {F : Type} [CommRing F] {d : Degree}

/-- The prefix, the length of the domain, the domain and the data are the bits of what the native
hash absorbs. -/
theorem hash_run (n : NativeContext F d) {k len : Nat} (domain : Vector Byte k)
    (data : Vector Byte len) {outLen : Nat} (few : outLen ≤ 136) (s : NativeState) :
    ∃ s', hash n.engine (constant n.engine domain).toList (constant n.engine data).toList outLen s =
      .ok (constant n.engine (shake256 (shakeAppPrefix ++ [BitVec.ofNat 8 k] ++ domain.toList ++
        data.toList) outLen), s') := by
  have prefixed : (Vector.ofFn fun i : Fin 11 => shakeAppPrefix.getD i 0).toList = shakeAppPrefix := by
    decide
  have length : (constant n.engine domain).toList.length / 8 = k := by
    rw [Vector.length_toList, Nat.mul_div_cancel_left k (by decide)]
  unfold hash
  rw [length, number_byteBits, constant_byteBits, constant_byteBits, constant_byteBits, prefixed,
    ← byteBits_append, ← byteBits_append, ← byteBits_append]
  exact shake_run n _ few s

/-- SHAKE256 in the circuit is that of the native hash, on bytes of any length and for digests of
at most one block, and so is the hash under a domain. -/
theorem in_circuit_shake (X : KeccakHash) (n : NativeContext F d) (s : NativeState) {len outLen : Nat}
    (data : Vector Byte len) (few : outLen ≤ 136) :
    (∃ s', shake n.engine (constant n.engine data).toList outLen s =
      .ok (constant n.engine (shake256Raw X.toShake256 data.toList outLen), s')) ∧
    ∀ {k : Nat} (domain : Vector Byte k), k ≤ 255 → ∃ s',
      hash n.engine (constant n.engine domain).toList (constant n.engine data).toList outLen s =
        .ok (constant n.engine (shakeTh X.toShake256 domain.toList data.toList outLen), s') := by
  constructor
  · rw [constant_byteBits, shake256Raw, X.standard]
    exact shake_run n data.toList few s
  · intro k domain _
    rw [shakeTh, X.standard, Vector.length_toList]
    exact hash_run n domain data few s

end Agreement

section Sample

/-- 300 bytes take three blocks, alone and under a domain. -/
theorem in_circuit_shake_blocks :
    let X : KeccakHash := { squeeze := shake256, standard := fun _ _ => rfl }
    let n : NativeContext Gf128 .d16 :=
      { poly := gf128Poly, pomfrit := pomfritWords .d16, leftFirst := fun _ _ => true, check := false }
    let data : Vector Byte 300 := Vector.ofFn fun i => BitVec.ofNat 8 i.val
    (∃ s', shake n.engine (constant n.engine data).toList 64 (nativeStart []) =
      .ok (constant n.engine (shake256Raw X.toShake256 data.toList 64), s')) ∧
    ∃ s', hash n.engine (constant n.engine (Vector.replicate 16 1)).toList
      (constant n.engine data).toList 64 (nativeStart []) =
        .ok (constant n.engine (shakeTh X.toShake256 (Vector.replicate 16 1).toList data.toList 64), s') := by
  intro X n data
  obtain ⟨raw, framed⟩ := in_circuit_shake X n (nativeStart []) data (show 64 ≤ 136 by decide)
  exact ⟨raw, framed (Vector.replicate 16 1) (by decide)⟩

end Sample

end BlindSig.Voleith
