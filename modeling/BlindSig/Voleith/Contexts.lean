import BlindSig.Lib.PackedBits
import BlindSig.Lib.Parametric
import BlindSig.Voleith.Circuit
import BlindSig.Voleith.Keccak

/-! The two contexts the circuit is evaluated in: natively on bits, which extends the primary bytes
to the whole witness, and authenticated on the bits of a witness, which hands QuickSilver the
constraints. -/
namespace BlindSig.Voleith

section Upstream

/-- `poly128`: bytes are loaded from the low coefficient up, and addition is exclusive-or. -/
structure Poly128 (F : Type) [CommRing F] where
  load : BitVec 128 ≃ F
  load_xor : ∀ a b, load (a ^^^ b) = load a + load b
  load_one : load 1 = 1

namespace Poly128

variable {F : Type} [CommRing F]

theorem load_zero (P : Poly128 F) : P.load 0 = 0 := by
  have double := P.load_xor 0 0
  rw [BitVec.xor_self] at double
  exact left_eq_add.mp double

theorem charTwo (P : Poly128 F) : CharP F 2 := by
  apply CharTwo.of_one_ne_zero_of_two_eq_zero
  · rw [← P.load_one, ← P.load_zero]
    exact P.load.injective.ne (by decide)
  · have double := P.load_xor 1 1
    rw [BitVec.xor_self, P.load_one] at double
    rw [← one_add_one_eq_two, ← double]
    exact P.load_zero

end Poly128

/-- `kProofDegree`. -/
inductive Degree where
  | d16 | d32 | d64
  deriving DecidableEq

def Degree.kKeccakStride : Degree → Nat
  | d16 => 6
  | d32 => 8
  | d64 => 9

def Degree.kKeccakSnapshots (d : Degree) : Nat := 24 / d.kKeccakStride

/-- The bits of a state as lanes. -/
def lanes {α : Type} (v : Vector α 1600) : Lanes α := fun y x z => v[64 * (5 * y.val + x) + z]

/-- The lanes as bits of a state. -/
def flat {α : Type} (s : Lanes α) : Vector α 1600 :=
  Vector.ofFn fun i : Fin 1600 => s ⟨i / 320, by omega⟩ ⟨i / 64 % 5, by omega⟩ ⟨i % 64, by omega⟩

/-- `bits[i] << i`, added up. -/
def packBits (w : Nat) {n : Nat} (bits : Vector Bool n) : BitVec w :=
  (List.finRange n).foldl (fun (x : BitVec w) (i : Fin n) =>
    x ||| (BitVec.ofBool bits[i]).setWidth w <<< i.val) 0

theorem packBits_push {w n : Nat} (v : Vector Bool n) (b : Bool) :
    packBits w (v.push b) = packBits w v ||| (BitVec.ofBool b).setWidth w <<< n := by
  simp [packBits, List.finRange_succ_last, List.foldl_append, List.foldl_map, Vector.getElem_push]

theorem getLsbD_packBits {w n : Nat} (v : Vector Bool n) {i : Nat} (inside : i < w) :
    (packBits w v).getLsbD i = v[i]?.getD false := by
  induction n with
  | zero => simp [packBits, Vector.eq_empty]
  | succ n ih =>
    obtain ⟨v, b, rfl⟩ : ∃ (front : Vector Bool n) (last : Bool), v = front.push last :=
      Vector.exists_push
    rw [packBits_push, BitVec.getLsbD_or, ih]
    rcases Nat.lt_trichotomy i n with low | rfl | high
    · simp [Vector.getElem?_push, low, Nat.ne_of_lt low]
    · simp [inside]
    · have out : i - n ≠ 0 := by omega
      simp [Vector.getElem?_push, Nat.ne_of_gt high, high.not_gt, out]

/-- The words of a state. -/
def packWords (bits : Vector Bool 1600) : Vector (BitVec 64) 25 :=
  Vector.ofFn fun j : Fin 25 => packBits 64 (slice bits (64 * j) 64 (by omega))

/-- The bit of a row of words, and zero behind it. -/
def wordBit {n : Nat} (words : Vector (BitVec 64) n) (i : Nat) : Bool :=
  (words[i / 64]?.getD 0).getLsbD (i % 64)

/-- `pomfrit_permute_trace`: the permuted words, and the trace of the states after every stride of
rounds. -/
structure Pomfrit (d : Degree) where
  permuteTrace : Vector (BitVec 64) 25 → Vector (BitVec 64) 25 × Vector (BitVec 64) 100
  permuted : ∀ (bits : Vector Bool 1600) (i : Fin 1600),
    wordBit (permuteTrace (packWords bits)).1 i = (flat (keccakRounds 24 (lanes bits)))[i]
  traced : ∀ (bits : Vector Bool 1600), ∀ j < d.kKeccakSnapshots, ∀ i : Fin 1600,
    wordBit (permuteTrace (packWords bits)).2 (1600 * j + i) =
      (flat (keccakRounds ((j + 1) * d.kKeccakStride) (lanes bits)))[i]

end Upstream

section Native

variable {F : Type} [CommRing F] {d : Degree}

inductive NativeError where
  | unsatisfiedBooleanConstraint
  | unsatisfiedFieldConstraint
  | outOfRange
  deriving DecidableEq

/-- The witness up to its cursor, and what has been counted. -/
structure NativeState where
  witness : PackedBits
  constraints : Nat
  permutations : Nat

def NativeState.counts (s : NativeState) : Counts :=
  { cursor := s.witness.cursor, constraints := s.constraints, permutations := s.permutations }

/-- What stays the same in a native evaluation. -/
structure NativeContext (F : Type) [CommRing F] (d : Degree) where
  poly : Poly128 F
  pomfrit : Pomfrit d
  leftFirst : (step i : Nat) → Bool
  check : Bool

def NativeContext.validating {F : Type} [CommRing F] {d : Degree} (n : NativeContext F d)
    (check : Bool) : NativeContext F d := { n with check }

abbrev Native := StateT NativeState (Except NativeError)

/-- The constructor: the primary bytes cut off or filled up with zeros. -/
def nativeStart (primary : List Byte) : NativeState where
  witness := .ofBytes (primary.takeD kPrimaryBytes 0)
  constraints := 0
  permutations := 0

namespace NativeContext

def bit (i : Nat) : Native Bool := fun s =>
  if i / 8 < s.witness.bytes.length then .ok (s.witness.bit i, s) else .error .outOfRange

def allocate (value : Bool) : Native Bool :=
  fun s => .ok (value, { s with witness := s.witness.push value })

/-- `constraints += n`. -/
def countConstraints (n : Nat) : Native PUnit :=
  fun s => .ok (⟨⟩, { s with constraints := s.constraints + n })

def countPermutation : Native PUnit :=
  fun s => .ok (⟨⟩, { s with permutations := s.permutations + 1 })

def mul (a b : Bool) : Native Bool := do
  countConstraints 1
  allocate (a && b)

variable (c : NativeContext F d)

def zero (a : Bool) : Native PUnit := do
  countConstraints 1
  if c.check && a then throw .unsatisfiedBooleanConstraint

def zeroField (a : F) : Native PUnit := do
  countConstraints 1
  if c.check && c.poly.load.symm a != 0 then throw .unsatisfiedFieldConstraint

def pack {n : Nat} (bits : Vector Bool n) : F := c.poly.load (packBits 128 bits)

def fieldWitness (a : F) (bits : Nat) : Native (Vector Bool bits) := do
  let out ← Vector.ofFnM fun i : Fin bits => allocate ((c.poly.load.symm a).getLsbD i)
  zeroField c (a + pack c out)
  return out

/-- Bits of words, one after the other. -/
def allocateWords {k : Nat} (words : Vector (BitVec 64) k) (off n : Nat) : Native (Vector Bool n) :=
  Vector.ofFnM fun i : Fin n => allocate (wordBit words (off + i))

/-- With degree 64 the last bits are allocated again, as far as the caller keeps them. -/
def lastBits (d : Degree) (words : Vector (BitVec 64) 25) (state : Vector Bool 1600) (keep : Nat) :
    Native (Vector Bool keep) :=
  match d with
  | .d64 => do
    let state ← allocateWords words 0 keep
    countConstraints keep
    return state
  | _ => pure (Vector.ofFn fun i : Fin keep => state[i.val]?.getD false)

def permute (state : Vector Bool 1600) (keep : Nat) : Native (Vector Bool keep) := do
  let (words, trace) := c.pomfrit.permuteTrace (packWords state)
  let state ← (List.range d.kKeccakSnapshots).foldlM (fun _ j =>
    allocateWords trace (1600 * j) 1600) state
  countConstraints (1600 * d.kKeccakSnapshots)
  let state ← lastBits d words state keep
  countPermutation
  return state

def engine : Engine Native Bool F where
  constant b := b
  bit := bit
  allocate := allocate false
  add a b := a ^^ b
  mul := mul
  leftFirst := c.leftFirst
  zero := zero c
  zeroField := zeroField c
  pack := pack c
  addField a b := a + b
  product a b := a * b
  fieldWitness := fieldWitness c
  permute := permute c
  counts := fun s => .ok (s.counts, s)

end NativeContext

end Native

section Authenticated

/-- Where a constraint comes from. -/
inductive Origin where
  | product | fieldWitness | snapshot | explicit
  deriving DecidableEq

/-- A value that QuickSilver is told to be zero. -/
structure Constraint (A : Type) where
  origin : Origin
  value : A

/-- The counts, and the constraints handed over so far. -/
abbrev Auth (A : Type) := Logged Counts (Constraint A)

/-- What stays the same in an authenticated evaluation: the values of the authenticated bits and the
field's elements among them. -/
structure AuthContext (A : Type) (d : Degree) where
  load : BitVec 128 → A
  witness : Nat → A
  leftFirst : (step i : Nat) → Bool

/-- The evaluation on the bits of a witness. -/
def AuthContext.over {F : Type} [CommRing F] {d : Degree} (P : Poly128 F) (W : Nat → Bool)
    (leftFirst : (step i : Nat) → Bool) : AuthContext F d where
  load := P.load
  witness i := ofBit F (W i)
  leftFirst

/-- The counts before the evaluation. -/
def authStart : Counts := { cursor := kPrimaryBytes * 8, constraints := 0, permutations := 0 }

namespace AuthContext

variable {A : Type} [CommRing A] {d : Degree} (c : AuthContext A d)

def bit (i : Nat) : Auth A A := pure (c.witness i)

def allocate : Auth A A := fun t => ((c.witness t.cursor, { t with cursor := t.cursor + 1 }), [])

/-- `zero`, with the place it is called at. -/
def constrain (origin : Origin) (value : A) : Auth A PUnit :=
  fun t => ((⟨⟩, { t with constraints := t.constraints + 1 }), [{ origin, value }])

def countPermutation : Auth A PUnit :=
  fun t => ((⟨⟩, { t with permutations := t.permutations + 1 }), [])

def mul (a b : A) : Auth A A := do
  let product ← allocate c
  constrain .product (a * b + product)
  return product

def pack {n : Nat} (bits : Vector A n) : A :=
  (List.finRange n).foldl (fun result (i : Fin n) =>
    result + bits[i] * c.load ((1 : BitVec 128) <<< i.val)) (ofBit A false)

def allocateMany (n : Nat) : Auth A (Vector A n) := Vector.ofFnM fun _ : Fin n => allocate c

def fieldWitness (a : A) (bits : Nat) : Auth A (Vector A bits) := do
  let out ← allocateMany c bits
  constrain .fieldWitness (a + pack c out)
  return out

/-- `n` rounds forwards from round `round` on. -/
def forward (round n : Nat) (s : Lanes A) : Lanes A :=
  (List.range n).foldl (fun s k => keccakForward (round + k) s) s

/-- `n` rounds backwards from round `last` on. -/
def backward (last n : Nat) (s : Lanes A) : Lanes A :=
  (List.range n).foldl (fun s k => keccakBackward (last - k) s) s

/-- A new state that leads back over `n` rounds to `forward`. -/
def meet (forward : Lanes A) (last n : Nat) : Auth A (Vector A 1600) := do
  let state ← allocateMany c 1600
  (List.finRange 1600).forM fun i : Fin 1600 =>
    constrain .snapshot ((flat forward)[i] + (flat (backward last n (lanes state)))[i])
  return state

/-- The stride that starts with a round: the first rounds go forwards, the others meet them. -/
def stride (round : Nat) (state : Vector A 1600) : Auth A (Vector A 1600) :=
  match d with
  | .d16 => meet c (forward round 4 (lanes state)) (round + 5) 2
  | .d32 => meet c (forward round 5 (lanes state)) (round + 7) 3
  | .d64 => meet c (forward round 6 (lanes state)) (round + 8) 3

/-- The first `k` strides. -/
def strides (k : Nat) (state : Vector A 1600) : Auth A (Vector A 1600) :=
  (List.range k).foldlM (fun state j => stride c (j * d.kKeccakStride) state) state

/-- Only the digest bits, or the state for another absorption. -/
def commitBits (state : Vector A 1600) (keep : Nat) : Auth A (Vector A keep) :=
  Vector.ofFnM fun i : Fin keep => do
    let b ← allocate c
    constrain .snapshot (state[i.val]?.getD (ofBit A false) + b)
    return b

/-- With degree 64 the last rounds are no whole stride, and only the bits to keep are allocated. -/
def lastBits (state : Vector A 1600) (keep : Nat) : Auth A (Vector A keep) :=
  match d with
  | .d64 => commitBits c (flat (forward 18 6 (lanes state))) keep
  | _ => pure (Vector.ofFn fun i : Fin keep => state[i.val]?.getD (ofBit A false))

def rounds (state : Vector A 1600) (keep : Nat) : Auth A (Vector A keep) := do
  let state ← strides c d.kKeccakSnapshots state
  lastBits c state keep

def permute (state : Vector A 1600) (keep : Nat) : Auth A (Vector A keep) := do
  let state ← rounds c state keep
  countPermutation
  return state

def engine : Engine (Auth A) A A where
  constant := ofBit A
  bit := bit c
  allocate := allocate c
  add a b := a + b
  mul := mul c
  leftFirst := c.leftFirst
  zero := constrain .explicit
  zeroField := constrain .explicit
  pack := pack c
  addField a b := a + b
  product a b := a * b
  fieldWitness := fieldWitness c
  permute := permute c
  counts := fun t => ((t, t), [])

end AuthContext

end Authenticated

section Traced

/-- What the circuit asks of an engine. -/
inductive Operation (Bit Fe : Type) where
  | bit (i : Nat)
  | allocate
  | mul
  | zero (a : Bit)
  | zeroField (a : Fe)
  | fieldWitness (bits : Nat)
  | permute (keep : Nat)

/-- An operation, and the counts after it. -/
structure Event (Bit Fe : Type) where
  operation : Operation Bit Fe
  counts : Counts

variable {m : Type → Type} [Monad m] {Bit Fe α : Type} (e : Engine m Bit Fe)

/-- Perform an operation and note it down. -/
def observe (operation : Operation Bit Fe) (x : m α) : StateT (List (Event Bit Fe)) m α := do
  let a ← StateT.lift x
  let counts ← StateT.lift e.counts
  modify fun events => events ++ [{ operation, counts }]
  return a

/-- The engine that also notes down all operations. -/
def traced : Engine (StateT (List (Event Bit Fe)) m) Bit Fe where
  constant := e.constant
  bit i := observe e (.bit i) (e.bit i)
  allocate := observe e .allocate e.allocate
  add := e.add
  mul a b := observe e .mul (e.mul a b)
  leftFirst := e.leftFirst
  zero a := observe e (.zero a) (e.zero a)
  zeroField a := observe e (.zeroField a) (e.zeroField a)
  pack := e.pack
  addField := e.addField
  product := e.product
  fieldWitness a bits := observe e (.fieldWitness bits) (e.fieldWitness a bits)
  permute state keep := observe e (.permute keep) (e.permute state keep)
  counts := StateT.lift e.counts

end Traced

end BlindSig.Voleith
