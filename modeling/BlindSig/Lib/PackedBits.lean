import BlindSig.Lib.Bytes
import Mathlib.Data.List.GetD

/-! Bits written one after the other into bytes, from the low bit of each byte up. -/
namespace BlindSig

/-- Bit `i` of a row of bytes, and zero behind it. -/
def packedBit (bytes : List Byte) (i : Nat) : Bool := (bytes.getD (i / 8) 0).getLsbD (i % 8)

/-- A row of bytes in which the bits below the cursor are written, and the rest is clear. -/
structure PackedBits where
  bytes : List Byte
  cursor : Nat
  sized : bytes.length = (cursor + 7) / 8
  clear : ∀ i, cursor ≤ i → packedBit bytes i = false

namespace PackedBits

variable {p q r : PackedBits} {b : Bool} {l l' : List Bool} {i : Nat}

def bit (p : PackedBits) (i : Nat) : Bool := packedBit p.bytes i

/-- The cursor in a byte of its own, if it needs one. -/
def grown (p : PackedBits) : List Byte :=
  if p.bytes.length ≤ p.cursor / 8 then p.bytes ++ [0] else p.bytes

theorem length_grown (p : PackedBits) : p.grown.length = p.cursor / 8 + 1 := by
  have sized := p.sized
  unfold grown
  split
  · rw [List.length_append, List.length_singleton]
    omega
  · omega

theorem packedBit_grown (p : PackedBits) (i : Nat) : packedBit p.grown i = p.bit i := by
  unfold grown bit packedBit
  split
  · rcases Nat.lt_trichotomy (i / 8) p.bytes.length with inside | last | outside
    · rw [List.getD_append _ _ _ _ inside]
    · rw [List.getD_append_right _ _ _ _ (Nat.le_of_eq last.symm), last]
      simp
    · rw [List.getD_append_right _ _ _ _ (Nat.le_of_lt outside),
        List.getD_eq_default _ _ (by rw [List.length_singleton]; omega),
        List.getD_eq_default _ _ (Nat.le_of_lt outside)]
  · rfl

/-- `bytes[cursor / 8] |= b << (cursor % 8)`. -/
def pushed (p : PackedBits) (b : Bool) : List Byte :=
  p.grown.modify (p.cursor / 8) fun byte => byte ||| (BitVec.ofBool b).setWidth 8 <<< (p.cursor % 8)

theorem packedBit_pushed (p : PackedBits) (b : Bool) (i : Nat) :
    packedBit (p.pushed b) i = if i = p.cursor then b else p.bit i := by
  have grown := packedBit_grown p i
  unfold packedBit at grown
  unfold packedBit pushed
  rcases eq_or_ne (i / 8) (p.cursor / 8) with same | other
  · have inside : i / 8 < p.grown.length := by
      rw [length_grown]
      omega
    rw [List.getD_eq_getElem _ _ (by simpa using inside), List.getElem_modify, if_pos same.symm,
      BitVec.getLsbD_or, ← List.getD_eq_getElem _ 0 inside, grown]
    rcases eq_or_ne i p.cursor with rfl | apart
    · have clear : p.bit p.cursor = false := p.clear p.cursor (Nat.le_refl _)
      rw [clear, if_pos rfl]
      simp [Nat.mod_lt]
    · rw [if_neg apart, Bool.or_eq_left_iff_imp]
      intro set
      simp at set
      omega
  · rw [List.getD_eq_getElem?_getD, List.getElem?_modify_ne _ _ (Ne.symm other),
      ← List.getD_eq_getElem?_getD, grown, if_neg]
    rintro rfl
    exact other rfl

/-- The next bit. -/
def push (p : PackedBits) (b : Bool) : PackedBits where
  bytes := p.pushed b
  cursor := p.cursor + 1
  sized := by
    rw [pushed, List.length_modify, length_grown]
    omega
  clear i above := by
    rw [packedBit_pushed, if_neg (by omega)]
    exact p.clear i (by omega)

@[simp] theorem cursor_push : (p.push b).cursor = p.cursor + 1 := rfl

theorem bit_push : (p.push b).bit i = if i = p.cursor then b else p.bit i :=
  packedBit_pushed p b i

/-- Whole bytes. -/
def ofBytes (bytes : List Byte) : PackedBits where
  bytes
  cursor := 8 * bytes.length
  sized := by omega
  clear i above := by
    unfold packedBit
    rw [List.getD_eq_default _ _ (by omega)]
    simp

/-- The bits in order. -/
def pushAll (p : PackedBits) (l : List Bool) : PackedBits := l.foldl push p

@[simp] theorem pushAll_nil : p.pushAll [] = p := rfl

theorem pushAll_append : p.pushAll (l ++ l') = (p.pushAll l).pushAll l' := List.foldl_append

@[simp] theorem cursor_pushAll : (p.pushAll l).cursor = p.cursor + l.length := by
  induction l generalizing p with
  | nil => rfl
  | cons b l ih =>
    change ((p.push b).pushAll l).cursor = _
    rw [ih, cursor_push, List.length_cons]
    omega

/-- A later stage keeps the bits written so far. -/
structure Extends (q p : PackedBits) : Prop where
  cursor_le : p.cursor ≤ q.cursor
  bit_eq : ∀ i < p.cursor, q.bit i = p.bit i

theorem Extends.refl (p : PackedBits) : p.Extends p := ⟨Nat.le_refl _, fun _ _ => rfl⟩

theorem Extends.trans (later : r.Extends q) (earlier : q.Extends p) : r.Extends p := by
  constructor
  · exact Nat.le_trans earlier.cursor_le later.cursor_le
  · intro i below
    rw [later.bit_eq i (Nat.lt_of_lt_of_le below earlier.cursor_le), earlier.bit_eq i below]

theorem extends_push : (p.push b).Extends p := by
  constructor
  · exact Nat.le_succ _
  · intro i below
    rw [bit_push, if_neg (Nat.ne_of_lt below)]

theorem extends_pushAll : (p.pushAll l).Extends p := by
  induction l generalizing p with
  | nil => exact Extends.refl p
  | cons b l ih => exact ih.trans extends_push

end PackedBits

section Agreement

variable {W : Nat → Bool} {p q : PackedBits} {b : Bool} {l l' : List Bool} {c : Nat}

/-- A bit string agrees with the bits written. -/
def Agrees (W : Nat → Bool) (p : PackedBits) : Prop := ∀ i < p.cursor, W i = p.bit i

/-- From place `c` on stand the bits of a list. -/
def Stands (W : Nat → Bool) (c : Nat) (l : List Bool) : Prop :=
  ∀ (i : Nat) (inside : i < l.length), W (c + i) = l[i]

theorem agrees_bit (p : PackedBits) : Agrees p.bit p := fun _ _ => rfl

theorem Agrees.earlier (agrees : Agrees W q) (later : q.Extends p) : Agrees W p := by
  intro i below
  rw [agrees i (Nat.lt_of_lt_of_le below later.cursor_le), later.bit_eq i below]

theorem agrees_push : Agrees W (p.push b) ↔ Agrees W p ∧ W p.cursor = b := by
  constructor
  · intro agrees
    constructor
    · exact agrees.earlier PackedBits.extends_push
    · rw [agrees p.cursor (Nat.lt_succ_self _), PackedBits.bit_push, if_pos rfl]
  · rintro ⟨agrees, last⟩ i below
    rw [PackedBits.bit_push]
    rcases eq_or_ne i p.cursor with rfl | apart
    · rw [if_pos rfl, last]
    · rw [if_neg apart]
      exact agrees i (by
        rw [PackedBits.cursor_push] at below
        omega)

theorem stands_nil : Stands W c [] := fun _ inside => absurd inside (Nat.not_lt_zero _)

theorem stands_cons : Stands W c (b :: l) ↔ W c = b ∧ Stands W (c + 1) l := by
  constructor
  · intro stands
    constructor
    · exact stands 0 (Nat.zero_lt_succ _)
    · intro i inside
      have place := stands (i + 1) (Nat.succ_lt_succ inside)
      rwa [List.getElem_cons_succ, Nat.add_comm i, ← Nat.add_assoc] at place
  · rintro ⟨first, stands⟩ i inside
    cases i with
    | zero => exact first
    | succ i =>
      rw [List.getElem_cons_succ, Nat.add_comm i, ← Nat.add_assoc]
      exact stands i (Nat.lt_of_succ_lt_succ inside)

theorem agrees_pushAll : Agrees W (p.pushAll l) ↔ Agrees W p ∧ Stands W p.cursor l := by
  induction l generalizing p with
  | nil => exact (and_iff_left stands_nil).symm
  | cons b l ih =>
    rw [stands_cons, ← and_assoc, ← agrees_push]
    exact ih

theorem stands_append : Stands W c (l ++ l') ↔ Stands W c l ∧ Stands W (c + l.length) l' := by
  induction l generalizing c with
  | nil =>
    rw [List.nil_append, List.length_nil, Nat.add_zero]
    exact (and_iff_right stands_nil).symm
  | cons b l ih =>
    rw [List.cons_append, stands_cons, stands_cons, ih, and_assoc, List.length_cons,
      Nat.add_right_comm c 1, ← Nat.add_assoc]

end Agreement

end BlindSig
