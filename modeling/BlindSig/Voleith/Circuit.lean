import BlindSig.Voleith.Keccak

/-! The circuit of the proof, generic in the engine that evaluates it: the commitment opens to the
message, the signature's 99 chain steps are scheduled and hashed, and the Merkle path ends in the
root. -/
namespace BlindSig.Voleith

open Kkw

/-- What an engine has counted so far. -/
structure Counts where
  cursor : Nat
  constraints : Nat
  permutations : Nat
  deriving DecidableEq

/-- An engine, with the compiler's choices: `leftFirst step i` says whether the left one of the two
products that are arguments of one call, at bit `i` of the comparison in a step, is computed
first. -/
structure Engine (m : Type → Type) (Bit Fe : Type) where
  constant : Bool → Bit
  /-- Bit `i` of the witness. -/
  bit : Nat → m Bit
  /-- `allocate(0)`. -/
  allocate : m Bit
  add : Bit → Bit → Bit
  mul : Bit → Bit → m Bit
  leftFirst : (step i : Nat) → Bool
  zero : Bit → m PUnit
  zeroField : Fe → m PUnit
  /-- At most 128 bits. -/
  pack : {n : Nat} → Vector Bit n → Fe
  addField : Fe → Fe → Fe
  product : Fe → Fe → Fe
  fieldWitness : Fe → (bits : Nat) → m (Vector Bit bits)
  /-- The permutation, as far as the caller reads it. -/
  permute : Vector Bit 1600 → (keep : Nat) → m (Vector Bit keep)
  counts : m Counts

structure Statement where
  message : Vector Byte 32
  pkSeed : Vector Byte 16
  root : Vector Byte 16

section Layout

abbrev hmRBytes : Nat := 96
abbrev hmABytes : Nat := 192
abbrev xmssSigBytes : Nat := 1212
abbrev scheduleLen : Nat := 99
abbrev kPrimaryBytes : Nat := hmRBytes + hmABytes + xmssSigBytes + scheduleLen + 42 * 16
abbrev kSigOffset : Nat := hmRBytes + hmABytes
abbrev kScheduleOffset : Nat := kSigOffset + xmssSigBytes
abbrev kEndpointsOffset : Nat := kScheduleOffset + scheduleLen

end Layout

section Circuit

variable {m : Type → Type} {Bit Fe : Type} [Monad m] (e : Engine m Bit Fe)

/-- The bits of constant bytes. -/
def constant {n : Nat} (b : Vector Byte n) : Vector Bit (8 * n) :=
  Vector.ofFn fun i : Fin (8 * n) => e.constant (b[i.val / 8].getLsbD (i % 8))

def number (v bits : Nat) : Vector Bit bits :=
  Vector.ofFn fun i : Fin bits => e.constant (i.val < 64 && (BitVec.ofNat 64 v).getLsbD i)

def input (byteOffset bytes : Nat) : m (Vector Bit (8 * bytes)) :=
  Vector.ofFnM fun i : Fin (8 * bytes) => e.bit (byteOffset * 8 + i)

def invert (b : Bit) : Bit := e.add b (e.constant true)

def equal {n : Nat} (a b : Vector Bit (n + 1)) : m Bit :=
  (List.finRange n).foldlM (fun result i =>
    e.mul result (invert e (e.add a[i.succ] b[i.succ]))) (invert e (e.add a[0] b[0]))

/-- One level: `p` becomes `p(1 - x)` and `p x`, prefixes from `count` on are dropped. -/
def chainLevel (count : Nat) (flags : List Bit) (x : Bit) : m (List Bit) :=
  flags.zipIdx.foldlM (fun next (flag, i) => do
    let one ← e.mul flag x
    let next := next ++ [e.add flag one]
    return if 2 * i + 1 < count then next ++ [one] else next) []

def chainFlags (index : Vector Bit 8) : m (List Bit) := do
  e.zero index[6]
  e.zero index[7]
  [(4 : Fin 5), 3, 2, 1, 0].foldlM (fun flags (bit : Fin 5) =>
    chainLevel e ((42 + (1 <<< bit.val) - 1) >>> bit.val) flags index[bit.val])
      [invert e index[5], index[5]]

/-- Two products that are arguments of one call. -/
def mulTwo (leftFirst : Bool) (left right : Bit × Bit) : m (Bit × Bit) :=
  if leftFirst then do
    let x ← e.mul left.1 left.2
    let y ← e.mul right.1 right.2
    return (x, y)
  else do
    let y ← e.mul right.1 right.2
    let x ← e.mul left.1 left.2
    return (x, y)

/-- The comparison in a step, which only names the compiler's choices. -/
def less (step : Nat) {n : Nat} (a b : Vector Bit n) : m Bit :=
  (List.finRange n).foldlM (fun result (i : Fin n) => do
    let same := invert e (e.add a[i] b[i])
    let (kept, decided) ← mulTwo e (e.leftFirst step i) (same, result) (invert e a[i], b[i])
    return e.add kept decided) (e.constant false)

/-- The sum and the last carry. -/
def addCarry {n : Nat} (a b : Vector Bit n) : m (Vector Bit n × Bit) :=
  (List.finRange n).foldlM (fun (out, carry) (i : Fin n) => do
    let out := setAt out i (e.add (e.add a[i] b[i]) carry)
    let both ← e.mul (e.add a[i] carry) (e.add b[i] carry)
    return (out, e.add both carry)) (Vector.replicate n (e.constant false), e.constant false)

def add {n : Nat} (a b : Vector Bit n) (noOverflow : Bool) : m (Vector Bit n) := do
  let (out, carry) ← addCarry e a b
  if noOverflow then e.zero carry
  return out

def select {n : Nat} (flag : Bit) (yes no : Vector Bit n) : m (Vector Bit n) :=
  Vector.ofFnM fun i : Fin n => do
    let chosen ← e.mul flag (e.add yes[i] no[i])
    return e.add no[i] chosen

abbrev rateBits : Nat := 1088

/-- The input with the suffix of SHAKE and its padding. -/
def shakePadded (input : List Bit) : List Bit :=
  let padded := input ++ (number e 0x1f 8).toList
  let zeros := (rateBits - padded.length % rateBits) % rateBits
  let padded := padded ++ List.replicate zeros (e.constant false)
  padded.dropLast ++ [e.add (padded.getLast?.getD (e.constant false)) (e.constant true)]

/-- Block `block` is added to the front of the state. -/
def absorb (padded : List Bit) (block : Nat) (state : Vector Bit 1600) : Vector Bit 1600 :=
  Vector.ofFn fun i : Fin 1600 =>
    if i < rateBits then e.add state[i] (padded.getD (block * rateBits + i) (e.constant false))
    else state[i]

/-- Every block but the last is followed by a whole permutation. -/
def shake (input : List Bit) (outputBytes : Nat) : m (Vector Bit (8 * outputBytes)) := do
  let padded := shakePadded e input
  let last := padded.length / rateBits - 1
  let state ← (List.range last).foldlM (fun state block =>
    e.permute (absorb e padded block state) 1600) (number e 0 1600)
  e.permute (absorb e padded last state) (8 * outputBytes)

def hash (domain data : List Bit) (out : Nat) : m (Vector Bit (8 * out)) :=
  shake e ((constant e (Vector.ofFn fun i : Fin 11 => shakeAppPrefix.getD i 0)).toList ++
    (number e (domain.length / 8) 8).toList ++ domain ++ data) out

/-- `hash` under a domain of constant bytes. -/
def hashUnder {n : Nat} (domain : Vector Byte n) (data : List Bit) (out : Nat) :
    m (Vector Bit (8 * out)) := hash e (constant e domain).toList data out

def equalField {n : Nat} (a b : Vector Bit n) : m PUnit :=
  e.zeroField (e.addField (e.pack a) (e.pack b))

/-- A flag as a field element. -/
def packBit (b : Bit) : Fe := e.pack #v[b]

/-- `resize` to more bits. -/
def widen {k : Nat} (n : Nat) (v : Vector Bit k) : Vector Bit n :=
  Vector.ofFn fun i : Fin n => v[i.val]?.getD (e.constant false)

/-- Element `i` of a row of elements. -/
def element {n : Nat} (v : Vector Bit n) (i : Nat) (inside : i * 128 + 128 ≤ n) : Vector Bit 128 :=
  slice v (i * 128) 128 inside

/-- The constant terms of the lines, from the lines and the nonces. -/
def openLines (r : Vector Bit (8 * 96)) (a : Vector Bit (8 * 192)) (message : Vector Bit (8 * 32)) :
    m (List Bit) :=
  (List.finRange 2).foldlM (fun b (line : Fin 2) => do
    let term (i : Fin 6) : Fe := e.product (e.pack (element a (6 * line + i) (by omega)))
      (e.pack (element r i (by omega)))
    let sum := [(1 : Fin 6), 2, 3, 4, 5].foldl (fun sum i => e.addField sum (term i)) (term 0)
    let constantTerm ← e.fieldWitness
      (e.addField sum (e.pack (element message line (by omega)))) 128
    return b ++ constantTerm.toList) []

/-- The digest of the commitment. -/
def commitmentDigest (pub : Statement) : m (Vector Bit (8 * 32)) := do
  let r ← input e 0 96
  let a ← input e 96 192
  let b ← openLines e r a (constant e pub.message)
  let y ← hashUnder e hmDomY r.toList 32
  hashUnder e hmDomD (a.toList ++ b ++ y.toList) 32

/-- The digits of the digest, and the tips and ends of the chains. -/
structure Chains (Bit : Type) where
  coords : Vector (Vector Bit 3) 42
  tips : Vector (Vector Bit 128) 42
  ends : Vector (Vector Bit 128) 42

def digits (digest : Vector Bit (8 * 32)) : Vector (Vector Bit 3) 42 :=
  Vector.ofFn fun i : Fin 42 => slice digest (xmssCoordBitPos i) 3 (by
    unfold xmssCoordBitPos xmssDigitsPerWord xmssCoordResBits xmssWotsLen
    split <;> omega)

/-- The digits sum up to 195, and a chain whose digit is 7 ends in its tip. -/
def chains (digest : Vector Bit (8 * 32)) : m (Chains Bit) := do
  let coords := digits digest
  let none : Vector (Vector Bit 128) 42 := Vector.replicate 42 (number e 0 128)
  let (total, tips, ends) ← (List.finRange 42).foldlM (fun (total, tips, ends) (i : Fin 42) => do
    let total ← add e total (widen e 9 coords[i]) false
    let tip ← input e (kSigOffset + 28 + 16 * i) 16
    let chainEnd ← input e (kEndpointsOffset + 16 * i) 16
    let complete ← equal e coords[i] (number e 7 3)
    e.zeroField (e.product (packBit e complete) (e.addField (e.pack tip) (e.pack chainEnd)))
    return (total, tips.set i tip, ends.set i chainEnd)) (number e 0 9, none, none)
  equalField e total (number e 195 9)
  return { coords, tips, ends }

/-- What a step leaves to the next. -/
structure Previous (Bit : Type) where
  index : Vector Bit 8
  pos : Vector Bit 3
  out : Vector Bit 128

/-- The value under the flag that is set. -/
def selected (flags : List Bit) (value : Fin 42 → Fe) : Fe :=
  let term (i : Fin 42) : Fe :=
    e.product (packBit e (flags.getD i (e.constant false))) (value i)
  (List.finRange 41).foldl (fun sum i => e.addField sum (term i.succ)) (term 0)

/-- The schedule does not go down, and leaves a chain only at its end. -/
def checkOrder (step : Nat) (index : Vector Bit 8) (same : Bit) (previous : Previous Bit) :
    m PUnit := do
  let before ← less e step index previous.index
  e.zero before
  e.zeroField (e.product (e.addField (packBit e same) (e.pack (number e 1 1)))
    (e.addField (e.pack previous.pos) (e.pack (number e 7 3))))

/-- The flags of a chain index: exactly one is set. -/
def scheduled (step : Nat) : m (Vector Bit 8 × List Bit) := do
  let index ← input e (kScheduleOffset + step) 1
  let flags ← chainFlags e index
  e.zero (invert e (flags.foldl (fun sum flag => e.add sum flag) (e.constant false)))
  return (index, flags)

/-- Whether the step stays on the chain of the one before. -/
def continues (step : Nat) (index : Vector Bit 8) (previous : Previous Bit) : m Bit :=
  if step = 0 then return e.constant false
  else do
    let same ← equal e index previous.index
    checkOrder e step index same previous
    return same

/-- One application of the chain hash. -/
def chainStep (seed : Vector Bit (8 * 16)) (epochBe : List Bit) (chains : Chains Bit)
    (previous : Previous Bit) (step : Nat) : m (Previous Bit) := do
  let (index, flags) ← scheduled e step
  let same ← continues e step index previous
  let selectedTip := selected e flags fun i => e.pack chains.tips[i]
  let selectedEnd := selected e flags fun i => e.pack chains.ends[i]
  let selectedCoord := selected e flags fun i => e.pack chains.coords[i]
  let coordinate ← e.fieldWitness selectedCoord 3
  let chosen ← select e same previous.pos coordinate
  let position ← add e chosen (number e 1 3) true
  let inNode ← e.fieldWitness (e.addField (e.product (packBit e same)
    (e.addField selectedTip (e.pack previous.out))) selectedTip) 128
  let outNode ← hash e (inNode.toList ++ (number e xmssTweakChain.toNat 8).toList)
    (seed.toList ++ epochBe ++ index.toList ++ (widen e 8 position).toList) 16
  let last ← equal e position (number e 7 3)
  e.zeroField (e.product (packBit e last) (e.addField selectedEnd (e.pack outNode)))
  return { index, pos := position, out := outNode }

/-- One level of the Merkle path. -/
def treeStep (seed : Vector Bit (8 * 16)) (node : Vector Bit 128) (idx : Vector Bit 32)
    (level : Nat) : m (Vector Bit 128 × Vector Bit 32) := do
  let sibling ← input e (kSigOffset + 28 + 42 * 16 + level * 16) 16
  let left ← select e idx[0] sibling node
  let right : Vector Bit 128 := Vector.ofFn fun i : Fin 128 =>
    e.add (e.add left[i] node[i]) sibling[i]
  let idx : Vector Bit 32 := Vector.ofFn fun i : Fin 32 => idx[i.val + 1]?.getD (e.constant false)
  let node ← hash e (seed.toList ++ (number e xmssTweakTree.toNat 8).toList ++
    (number e level 8).toList ++ idx.toList) (left.toList ++ right.toList) 16
  return (node, idx)

/-- The last byte of the witness is filled up with zeros. -/
def padding : m PUnit := do
  let counts ← e.counts
  (List.range ((8 - counts.cursor % 8) % 8)).forM fun _ => do
    let b ← e.allocate
    e.zero b

/-- The bytes of the epoch in the order of the hash, the last one first. -/
def bigEndian (epoch : Vector Bit (8 * 4)) : List Bit :=
  (List.finRange 4).flatMap fun i : Fin 4 => (slice epoch ((3 - i) * 8) 8 (by omega)).toList

/-- Up to the chains: the epoch, and the chains of the digest under the signature's nonce. -/
def opening (pub : Statement) : m (Vector Bit (8 * 4) × Chains Bit) := do
  let d ← commitmentDigest e pub
  let epoch ← input e kSigOffset 4
  let nonce ← input e (kSigOffset + 4) 24
  let digest ← hash e ((constant e pub.pkSeed).toList ++
    (number e xmssTweakMessage.toNat 8).toList ++ bigEndian epoch) (nonce.toList ++ d.toList) 32
  e.zero digest[63]
  e.zero digest[127]
  let chains ← chains e digest
  return (epoch, chains)

/-- Before the first step. -/
def noStep : Previous Bit :=
  { index := number e 0 8, pos := number e 0 3, out := number e 0 128 }

/-- After the last step: the chain is at its end, and the Merkle path leads to the root. -/
def closing (pub : Statement) (epoch : Vector Bit (8 * 4)) (chains : Chains Bit)
    (previous : Previous Bit) : m PUnit := do
  let seed := constant e pub.pkSeed
  equalField e previous.pos (number e 7 3)
  let leaf ← hash e (seed.toList ++ (number e xmssTweakLeaf.toNat 8).toList ++ bigEndian epoch)
    (chains.ends.toList.flatMap Vector.toList) 16
  let (node, _) ← (List.range xmssH).foldlM (fun (node, idx) level =>
    treeStep e seed node idx level) (leaf, epoch)
  equalField e node (constant e pub.root)

def statement (pub : Statement) : m PUnit := do
  let (epoch, chains) ← opening e pub
  let previous ← (List.range scheduleLen).foldlM
    (chainStep e (constant e pub.pkSeed) (bigEndian epoch) chains) (noStep e)
  closing e pub epoch chains previous
  padding e

end Circuit

end BlindSig.Voleith
