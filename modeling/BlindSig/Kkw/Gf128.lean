import BlindSig.Kkw.Blake3

/-! Polynomial-basis GF(2^128) on 32-bit limbs: a carry-less product bit by bit into 256 bits,
then reduction modulo x^128 + x^7 + x^2 + x + 1 from the top bit down. Over it the Halevi–Micali
commitment with `(n, s, k) = (128, 2, 6)`; its wire encoding is `a || b || y`. -/
namespace BlindSig.Kkw

open XorGroup

/-- `acc ^= word << pos` on 256 bits. -/
def gf128WordShiftXor (acc : Vector Word 8) (word : Word) (pos : Nat) : Vector Word 8 :=
  let v : BitVec 64 := word.setWidth 64 <<< (pos % 32)
  Vector.ofFn fun i : Fin 8 =>
    if i.val = pos / 32 then acc[i] ^^^ v.setWidth 32
    else if i.val = pos / 32 + 1 then acc[i] ^^^ (v >>> 32).setWidth 32
    else acc[i]

/-- `acc[k >> 5] ^= 1u << (k & 31)`. -/
def flipBit (acc : Vector Word 8) (k : Fin 256) : Vector Word 8 :=
  acc.set (k.val / 32) (acc[k.val / 32] ^^^ 1#32 <<< (k.val % 32))

/-- Bit `128 + t` of the accumulator, if set, is folded back by the modulus. -/
def gf128ReduceBit (acc : Vector Word 8) (t : Fin 128) : Vector Word 8 :=
  if acc[(128 + t.val) / 32].getLsbD ((128 + t.val) % 32) then
    flipBit (flipBit (flipBit (flipBit (flipBit acc ⟨128 + t, by omega⟩) ⟨t + 7, by omega⟩)
      ⟨t + 2, by omega⟩) ⟨t + 1, by omega⟩) ⟨t + 0, by omega⟩
  else acc

/-- Limb `w` of the low half of a product. -/
def lowLimb (w : Fin 4) : Fin 8 := ⟨w, by omega⟩

def gf128Reduce (acc : Vector Word 8) : Vector Word 4 :=
  let acc := (List.finRange 128).reverse.foldl gf128ReduceBit acc
  Vector.ofFn fun w : Fin 4 => acc[lowLimb w]

/-- The limb of a factor that bit `j` is in. -/
def limbOf (j : Fin 128) : Fin 4 := ⟨j / 32, by omega⟩

def gf128MulWords (X Y : Vector Word 4) : Vector Word 4 :=
  let acc := (List.finRange 128).foldl (fun acc (j : Fin 128) =>
    if Y[limbOf j].getLsbD (j.val % 32) then
      (List.finRange 4).foldl (fun acc (w : Fin 4) => gf128WordShiftXor acc X[w] (32 * w + j)) acc
    else acc) zeros
  gf128Reduce acc

def gf128Load (b : Vector Byte 16) : Vector Word 4 :=
  Vector.ofFn fun i : Fin 4 => loadWord b (4 * i) (word_of_node i)

def gf128Store (w : Vector Word 4) : Vector Byte 16 := storeWords w

def gf128Mul (x y : Vector Byte 16) : Vector Byte 16 :=
  gf128Store (gf128MulWords (gf128Load x) (gf128Load y))

section Linear

theorem gf128WordShiftXor_linear (pos : Nat) :
    XorLinear fun p : Vector Word 8 × Word => gf128WordShiftXor p.1 p.2 pos := by
  refine XorLinear.ofFn fun i => XorLinear.ite _ ?_ (XorLinear.ite _ ?_ ?_)
  · exact (XorLinear.comp (XorLinear.getElem i i.isLt) XorLinear.fst).xor
      (((XorLinear.setWidth 32).comp ((XorLinear.shiftLeft _).comp (XorLinear.setWidth 64))).comp
        XorLinear.snd)
  · exact (XorLinear.comp (XorLinear.getElem i i.isLt) XorLinear.fst).xor
      (((XorLinear.setWidth 32).comp ((XorLinear.ushiftRight 32).comp
        ((XorLinear.shiftLeft _).comp (XorLinear.setWidth 64)))).comp XorLinear.snd)
  · exact XorLinear.comp (XorLinear.getElem i i.isLt) XorLinear.fst

theorem flipBit_eq (acc : Vector Word 8) (k : Fin 256) :
    flipBit acc k = acc ^^^ flipBit zeros k := by
  apply Vector.ext
  intro i hi
  by_cases here : k.val / 32 = i
  · subst here
    simp [flipBit]
  · simp [flipBit, Vector.getElem_set_ne, here]

theorem gf128ReduceBit_linear (t : Fin 128) : XorLinear (gf128ReduceBit · t) := by
  have correction (acc : Vector Word 8) (a b c d e : Fin 256) :
      flipBit (flipBit (flipBit (flipBit (flipBit acc a) b) c) d) e =
        acc ^^^ flipBit (flipBit (flipBit (flipBit (flipBit zeros a) b) c) d) e := by
    obtain ⟨unit, translates⟩ : ∃ unit : Fin 256 → Vector Word 8,
        ∀ acc k, flipBit acc k = acc ^^^ unit k := ⟨_, flipBit_eq⟩
    simp only [translates, zeros_xor, XorGroup.xor_assoc]
  have translated := XorLinear.xor_if
    (fun acc : Vector Word 8 => acc[(128 + t.val) / 32].getLsbD ((128 + t.val) % 32))
    (fun a b => by simp)
    (flipBit (flipBit (flipBit (flipBit (flipBit zeros ⟨128 + t, by omega⟩)
      ⟨t + 7, by omega⟩) ⟨t + 2, by omega⟩) ⟨t + 1, by omega⟩) ⟨t + 0, by omega⟩)
  intro a b
  simpa only [gf128ReduceBit, ← correction] using translated a b

theorem gf128Reduce_linear : XorLinear gf128Reduce := by
  have loop := XorLinear.foldl gf128ReduceBit_linear (List.finRange 128).reverse
  have limbs : XorLinear fun acc : Vector Word 8 => Vector.ofFn fun w : Fin 4 => acc[lowLimb w] := by
    intro a b
    apply Vector.ext
    intro i hi
    interval_cases i <;> simp
  exact limbs.comp loop

theorem gf128Load_linear : XorLinear gf128Load :=
  XorLinear.ofFn fun i => XorLinear.loadWord (4 * i.val) (by omega)

theorem gf128Store_linear : XorLinear gf128Store := XorLinear.storeWords

end Linear

section Commitment

abbrev hmRBytes : Nat := 96
abbrev hmABytes : Nat := 192
abbrev hmBBytes : Nat := 32
abbrev hmYBytes : Nat := 32
abbrev hmComBytes : Nat := hmABytes + hmBBytes + hmYBytes

def hmDomY : Vector Byte 3 := #v[charByte 'H', charByte 'M', charByte 'y']
def hmDomD : Vector Byte 3 := #v[charByte 'H', charByte 'M', charByte 'd']

def hmY (H : Hasher) (r : Vector Byte hmRBytes) : Vector Byte hmYBytes :=
  th H hmDomY.toList r.toList hmYBytes

/-- `a[k * HM_NONCES + i]`. -/
def hmCoefficient (a : Vector α hmABytes) (k : Fin 2) (i : Fin 6) : Vector α 16 :=
  slice a ((k * 6 + i) * 16) 16 (by simp [hmABytes]; omega)

/-- `r[i]`. -/
def hmNonce (r : Vector α hmRBytes) (i : Fin 6) : Vector α 16 :=
  slice r (i * 16) 16 (by simp [hmRBytes]; omega)

/-- Element `k` of the message digest. -/
def hmMessage (mHat : Vector α 32) (k : Fin 2) : Vector α 16 :=
  slice mHat (k * 16) 16 (by omega)

def hmLines (mHat : Vector Byte 32) (a : Vector Byte hmABytes) (r : Vector Byte hmRBytes) :
    Vector Byte hmBBytes :=
  join (Vector.ofFn fun k : Fin 2 => (List.finRange 6).foldl (fun acc i =>
    acc ^^^ gf128Mul (hmCoefficient a k i) (hmNonce r i)) (hmMessage mHat k))

def hmCommitment (a : Vector α hmABytes) (b : Vector α hmBBytes) (y : Vector α hmYBytes) :
    Vector α hmComBytes := a ++ b ++ y

def hmDigest (H : Hasher) (com : Vector Byte hmComBytes) : Vector Byte 32 :=
  th H hmDomD.toList com.toList 32

/-- The commitment and its digest. -/
def hmCommit (H : Hasher) (mHat : Vector Byte 32) (r : Vector Byte hmRBytes)
    (a : Vector Byte hmABytes) : Vector Byte hmComBytes × Vector Byte 32 :=
  let com := hmCommitment a (hmLines mHat a r) (hmY H r)
  (com, hmDigest H com)

end Commitment

end BlindSig.Kkw
