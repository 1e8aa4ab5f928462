import BlindSig.Lib.Bytes

/-! Fixed-width encodings. A cursor is the list of the bytes that are left; a read takes bytes
off its front, or has none left to take. A codec is a writer and the reader that inverts it. -/
namespace BlindSig

/-- The four bytes of a word, least significant first. -/
def le32Bytes (v : Word) : Vector Byte 4 := Vector.ofFn fun i : Fin 4 => byteAt v i

/-- The word whose bytes these are. -/
def le32Word (b : Vector Byte 4) : Word := le32 fun i => b[i]

@[simp] theorem le32Word_le32Bytes (v : Word) : le32Word (le32Bytes v) = v := by
  simp [le32Word, le32Bytes, le32_byteAt]

@[simp] theorem le32Bytes_le32Word (b : Vector Byte 4) : le32Bytes (le32Word b) = b := by
  apply Vector.ext
  intro i hi
  have byte := byteAt_le32 (fun i : Fin 4 => b[i]) ⟨i, hi⟩
  simpa [le32Word, le32Bytes] using byte

/-- `n` bytes at the cursor. -/
def readArray (n : Nat) (p : List Byte) : Option (Vector Byte n × List Byte) :=
  if inside : n ≤ p.length then some (⟨(p.take n).toArray, by simp [inside]⟩, p.drop n) else none

/-- The same for a length that is only known when the program runs. -/
def readSpan (n : Nat) (p : List Byte) : Option (List Byte × List Byte) :=
  if n ≤ p.length then some (p.take n, p.drop n) else none

/-- `for (i = 0; i < k; ++i) out[i] = read(p)`. -/
def readLoop (read : List Byte → Option (α × List Byte)) :
    (k : Nat) → List Byte → Option (Vector α k × List Byte)
  | 0, p => some (#v[], p)
  | k + 1, p => do
    let (out, p) ← readLoop read k p
    let (x, p) ← read p
    return (out.push x, p)

theorem readArray_eq_some {p rest : List Byte} {v : Vector Byte n} :
    readArray n p = some (v, rest) ↔ p = v.toList ++ rest := by
  unfold readArray
  constructor
  · intro h
    split at h
    · obtain ⟨rfl, rfl⟩ := Prod.mk.inj (Option.some.inj h)
      simp [Vector.toList]
    · cases h
  · rintro rfl
    have len : v.toList.length = n := by simp
    have back : (v.toList ++ rest).drop n = rest := List.drop_left' len
    rw [dif_pos (by simp)]
    simp only [Option.some.injEq, Prod.mk.injEq, back, and_true]
    apply Vector.toList_inj.mp
    simp [Vector.toList]

theorem readSpan_eq_some {n : Nat} {p rest s : List Byte} :
    readSpan n p = some (s, rest) ↔ p = s ++ rest ∧ s.length = n := by
  unfold readSpan
  constructor
  · intro h
    split at h
    · obtain ⟨rfl, rfl⟩ := Prod.mk.inj (Option.some.inj h)
      simp [*]
    · cases h
  · rintro ⟨rfl, rfl⟩
    simp

theorem readArray_isSome {p : List Byte} (inside : n ≤ p.length) : (readArray n p).isSome := by
  simp [readArray, inside]

/-- What is written, how many bytes it is, and the reader that takes exactly those bytes. -/
structure Codec (α : Type) where
  width : Nat
  write : α → List Byte
  read : List Byte → Option (α × List Byte)
  length_write : ∀ x, (write x).length = width
  read_eq_some : ∀ {p rest x}, read p = some (x, rest) ↔ p = write x ++ rest
  read_isSome : ∀ {p}, width ≤ p.length → (read p).isSome

attribute [simp] Codec.length_write

namespace Codec

@[simp] theorem read_write (c : Codec α) (x : α) (rest : List Byte) :
    c.read (c.write x ++ rest) = some (x, rest) :=
  c.read_eq_some.mpr rfl

/-- The bytes of a wide enough buffer split at the codec's width. -/
theorem exists_read (c : Codec α) {p : List Byte} (inside : c.width ≤ p.length) :
    ∃ x rest, c.read p = some (x, rest) ∧ p = c.write x ++ rest := by
  obtain ⟨⟨x, rest⟩, taken⟩ := Option.isSome_iff_exists.mp (c.read_isSome inside)
  exact ⟨x, rest, taken, c.read_eq_some.mp taken⟩

/-- Raw bytes. -/
def array (n : Nat) : Codec (Vector Byte n) where
  width := n
  write := Vector.toList
  read := readArray n
  length_write := by simp
  read_eq_some := readArray_eq_some
  read_isSome := readArray_isSome

/-- A little-endian word. -/
def u32 : Codec Word where
  width := 4
  write v := (le32Bytes v).toList
  read p := (readArray 4 p).map fun (b, rest) => (le32Word b, rest)
  length_write := by simp
  read_eq_some {p rest x} := by
    simp only [Option.map_eq_some_iff, Prod.exists, Prod.mk.injEq, readArray_eq_some]
    constructor
    · rintro ⟨b, _, split, rfl, rfl⟩
      simpa using split
    · intro split
      exact ⟨le32Bytes x, rest, split, by simp⟩
  read_isSome inside := by simpa using readArray_isSome inside

/-- A value in as many bytes as it has, least significant first. -/
def little (w k : Nat) (whole : w = 8 * k) : Codec (BitVec w) where
  width := k
  write v := (leBytes v k).toList
  read p := (readArray k p).map fun (b, rest) => (leValue w b, rest)
  length_write := by simp
  read_eq_some {p rest x} := by
    simp only [Option.map_eq_some_iff, Prod.exists, Prod.mk.injEq, readArray_eq_some]
    constructor
    · rintro ⟨b, _, split, rfl, rfl⟩
      rwa [leBytes_leValue (Nat.le_of_eq whole.symm)]
    · intro split
      exact ⟨leBytes x k, rest, split, leValue_leBytes (Nat.le_of_eq whole) x, rfl⟩
  read_isSome inside := by simpa using readArray_isSome inside

/-- One encoding after the other. -/
def seq (c : Codec α) (d : Codec β) : Codec (α × β) where
  width := c.width + d.width
  write x := c.write x.1 ++ d.write x.2
  read p := do
    let (x, p) ← c.read p
    let (y, p) ← d.read p
    return ((x, y), p)
  length_write := by simp
  read_eq_some {p rest x} := by
    obtain ⟨x, y⟩ := x
    constructor
    · intro h
      cases hx : c.read p with
      | none => simp [hx] at h
      | some first =>
        cases hy : d.read first.2 with
        | none => simp [hx, hy] at h
        | some second =>
          simp only [hx, hy, Option.bind_eq_bind, Option.bind_some, Option.pure_def,
            Option.some.injEq, Prod.mk.injEq] at h
          obtain ⟨⟨rfl, rfl⟩, rfl⟩ := h
          rw [c.read_eq_some.mp hx, d.read_eq_some.mp hy, List.append_assoc]
    · rintro rfl
      simp [List.append_assoc]
  read_isSome {p} inside := by
    obtain ⟨x, rest, hx, split⟩ := c.exists_read (Nat.le_of_add_right_le inside)
    have left : d.width ≤ rest.length := by
      simp only [split, List.length_append, c.length_write] at inside
      omega
    obtain ⟨y, rest', hy, _⟩ := d.exists_read left
    simp [hx, hy]

/-- The same bytes for another type. -/
def xmap (c : Codec α) (e : α ≃ β) : Codec β where
  width := c.width
  write y := c.write (e.symm y)
  read p := (c.read p).map fun (x, rest) => (e x, rest)
  length_write := by simp
  read_eq_some {p rest y} := by
    simp only [Option.map_eq_some_iff, Prod.exists, Prod.mk.injEq, c.read_eq_some]
    constructor
    · rintro ⟨x, _, split, rfl, rfl⟩
      simpa using split
    · intro split
      exact ⟨e.symm y, rest, split, by simp⟩
  read_isSome inside := by simpa using c.read_isSome inside

end Codec

theorem readLoop_eq_some (c : Codec α) {k : Nat} {p rest : List Byte} {v : Vector α k} :
    readLoop c.read k p = some (v, rest) ↔ p = v.toList.flatMap c.write ++ rest := by
  induction k generalizing rest with
  | zero =>
    obtain rfl : v = #v[] := Vector.eq_empty
    simp [readLoop]
  | succ k ih =>
    obtain ⟨w, x, rfl⟩ : ∃ (front : Vector α k) (last : α), v = front.push last :=
      Vector.exists_push
    have spread : (w.push x).toList.flatMap c.write = w.toList.flatMap c.write ++ c.write x := by
      simp [Vector.toList_push]
    rw [spread, List.append_assoc]
    constructor
    · intro h
      cases hw : readLoop c.read k p with
      | none => simp [readLoop, hw] at h
      | some first =>
        cases hx : c.read first.2 with
        | none => simp [readLoop, hw, hx] at h
        | some last =>
          simp only [readLoop, hw, hx, Option.bind_eq_bind, Option.bind_some, Option.pure_def,
            Option.some.injEq, Prod.mk.injEq] at h
          obtain ⟨pushed, rfl⟩ := h
          obtain ⟨rfl, rfl⟩ := Vector.push_eq_push.mp pushed
          rw [← c.read_eq_some.mp hx]
          exact ih.mp hw
    · intro split
      simp [readLoop, ih.mpr split]

namespace Codec

theorem length_flatMap_write (c : Codec α) (v : Vector α k) :
    (v.toList.flatMap c.write).length = k * c.width := by
  simp [List.length_flatMap]

/-- `k` encodings in a row. -/
def loop (c : Codec α) (k : Nat) : Codec (Vector α k) where
  width := k * c.width
  write v := v.toList.flatMap c.write
  read := readLoop c.read k
  length_write := c.length_flatMap_write
  read_eq_some := readLoop_eq_some c
  read_isSome {p} inside := by
    induction k with
    | zero => rfl
    | succ k ih =>
      rw [Nat.succ_mul] at inside
      obtain ⟨⟨v, rest⟩, taken⟩ := Option.isSome_iff_exists.mp (ih (by omega))
      have split := congrArg List.length ((readLoop_eq_some c).mp taken)
      rw [List.length_append, c.length_flatMap_write] at split
      obtain ⟨x, rest', last, _⟩ := c.exists_read (p := rest) (by omega)
      simp [readLoop, taken, last]

end Codec

theorem Codec.read_write_all (c : Codec α) (x : α) : c.read (c.write x) = some (x, []) :=
  c.read_eq_some.mpr (List.append_nil _).symm

/-- Why a reader stops: a check of its own, or a read past the end of the buffer. -/
inductive Stop (ε : Type) where
  | check (text : ε)
  | outOfBounds
  deriving DecidableEq, Repr

abbrev Checked (ε : Type) := Except (Stop ε)

def check (c : Prop) [Decidable c] (text : ε) : Checked ε Unit :=
  if c then .ok () else .error (.check text)

def fetch : Option α → Checked ε α
  | some x => .ok x
  | none => .error .outOfBounds

@[simp] theorem check_true {c : Prop} [Decidable c] (h : c) (text : ε) : check c text = .ok () := by
  simp [check, h]

@[simp] theorem check_false {c : Prop} [Decidable c] (h : ¬ c) (text : ε) :
    check c text = .error (.check text) := by
  simp [check, h]

@[simp] theorem fetch_some (x : α) : (fetch (some x) : Checked ε α) = .ok x := rfl
@[simp] theorem fetch_none : (fetch (none : Option α) : Checked ε α) = .error .outOfBounds := rfl

theorem bind_eq_ok {x : Except ε α} {f : α → Except ε β} {r : β} :
    (x >>= f) = .ok r ↔ ∃ a, x = .ok a ∧ f a = .ok r := by
  cases x with
  | ok a => simp [bind, Except.bind]
  | error e => simp [bind, Except.bind]

theorem check_eq_ok {c : Prop} [Decidable c] {text : ε} : check c text = .ok () ↔ c := by
  simp [check]

theorem toOption_eq_some {x : Except ε α} {a : α} : x.toOption = some a ↔ x = .ok a := by
  cases x with
  | ok b => simp [Except.toOption]
  | error e => simp [Except.toOption]

theorem fetch_eq_ok {o : Option α} {x : α} : (fetch o : Checked ε α) = .ok x ↔ o = some x := by
  cases o with
  | none => simp
  | some y => simp

theorem guarded_eq_ok {c : Prop} [Decidable c] {x : α} {e : ε} :
    (if c then .ok x else .error e : Except ε α) = .ok x ↔ c := by
  split <;> simp [*]

section Into

/-- `for (i : l) out[i] = read(p)`. A read past the end stops the loop. -/
def readInto {k : Nat} (read : Fin k → List Byte → Option (α × List Byte)) (stop : Fin k → ε)
    (l : List (Fin k)) (out : Vector α k) (p : List Byte) : Checked ε (Vector α k × List Byte) :=
  l.foldlM (fun (out, p) i =>
    match read i p with
    | some (x, p) => .ok (out.set i x i.isLt, p)
    | none => .error (.check (stop i))) (out, p)

variable {k : Nat} {read : Fin k → List Byte → Option (α × List Byte)} {stop : Fin k → ε}

/-- The loop takes the bytes of the entries one after the other, and leaves the others alone. -/
theorem readInto_eq_ok {write : Fin k → α → List Byte} {valid : Fin k → α → Prop}
    (reads : ∀ i p x rest, read i p = some (x, rest) ↔ p = write i x ++ rest ∧ valid i x)
    {l : List (Fin k)} (distinct : l.Nodup) {out out' : Vector α k} {p rest : List Byte} :
    readInto read stop l out p = .ok (out', rest) ↔
      p = l.flatMap (fun i => write i out'[i]) ++ rest ∧ (∀ i ∈ l, valid i out'[i]) ∧
        ∀ i, i ∉ l → out'[i] = out[i] := by
  induction l generalizing out p with
  | nil =>
    constructor
    · intro stopped
      obtain ⟨rfl, rfl⟩ := Prod.mk.inj (Except.ok.inj stopped)
      exact ⟨rfl, fun _ none => absurd none List.not_mem_nil, fun _ _ => rfl⟩
    · rintro ⟨rfl, -, same⟩
      have whole : out' = out := Vector.ext fun i hi => same ⟨i, hi⟩ List.not_mem_nil
      rw [whole]
      rfl
  | cons i l ih =>
    obtain ⟨apart, distinct⟩ := List.nodup_cons.mp distinct
    have first {x : α} {p' : List Byte} (taken : read i p = some (x, p')) :
        readInto read stop (i :: l) out p = readInto read stop l (out.set i x i.isLt) p' := by
      rw [readInto, List.foldlM_cons]
      simp only [taken]
      rfl
    constructor
    · intro run
      cases taken : read i p with
      | none =>
        rw [readInto, List.foldlM_cons] at run
        simp only [taken] at run
        cases run
      | some found =>
        obtain ⟨x, p'⟩ := found
        rw [first taken, ih distinct] at run
        obtain ⟨split, valids, same⟩ := run
        obtain ⟨front, valid⟩ := (reads i p x p').mp taken
        have here : out'[i] = x := by
          rw [same i apart]
          simp
        refine ⟨?_, ?_, ?_⟩
        · rw [List.flatMap_cons, here, List.append_assoc, ← split, front]
        · intro j member
          rcases List.mem_cons.mp member with rfl | member
          · rwa [here]
          · exact valids j member
        · intro j outside
          have other := List.ne_of_not_mem_cons outside
          rw [same j (List.not_mem_of_not_mem_cons outside)]
          simp [Fin.val_ne_of_ne (Ne.symm other)]
    · rintro ⟨split, valids, same⟩
      rw [List.flatMap_cons, List.append_assoc] at split
      have taken := (reads i p _ _).mpr ⟨split, valids i List.mem_cons_self⟩
      rw [first taken, ih distinct]
      refine ⟨rfl, fun j member => valids j (List.mem_cons_of_mem i member), fun j outside => ?_⟩
      by_cases here : j = i
      · rw [here]
        simp
      · rw [same j (List.not_mem_cons_of_ne_of_not_mem here outside)]
        simp [Fin.val_ne_of_ne (Ne.symm here)]

end Into

section Fill

variable {m k : Nat}

/-- `for (k = 0; ...; k++) out[place[k]] = value[k]`. -/
def fillAt (place : Fin k → Fin m) (value : Fin k → α) (out : Vector α m) : Vector α m :=
  (List.finRange k).foldl (fun out i => out.set (place i) (value i)) out

theorem foldl_set (place : Fin k → Fin m) (value : Fin k → α) (l : List (Fin k)) (out : Vector α m)
    (j : Fin m) : (∃ i ∈ l, place i = j ∧
        (l.foldl (fun out i => out.set (place i) (value i)) out)[j] = value i) ∨
      (∀ i ∈ l, place i ≠ j) ∧ (l.foldl (fun out i => out.set (place i) (value i)) out)[j] = out[j] := by
  induction l generalizing out with
  | nil => exact Or.inr ⟨fun _ none => absurd none List.not_mem_nil, rfl⟩
  | cons i l ih =>
    rw [List.foldl_cons]
    rcases ih (out.set (place i) (value i)) with ⟨i', member, here, last⟩ | ⟨apart, kept⟩
    · exact Or.inl ⟨i', List.mem_cons_of_mem i member, here, last⟩
    · by_cases here : place i = j
      · refine Or.inl ⟨i, List.mem_cons_self, here, ?_⟩
        rw [kept, ← here]
        simp
      · refine Or.inr ⟨?_, ?_⟩
        · intro i' member
          rcases List.mem_cons.mp member with rfl | member
          · exact here
          · exact apart i' member
        · rw [kept]
          simp [Fin.val_ne_of_ne here]

theorem fillAt_at {place : Fin k → Fin m} (inj : Function.Injective place) (value : Fin k → α)
    (out : Vector α m) (i : Fin k) : (fillAt place value out)[place i] = value i := by
  rcases foldl_set place value (List.finRange k) out (place i) with ⟨i', -, here, last⟩ | ⟨apart, -⟩
  · rw [fillAt, last, inj here]
  · exact absurd rfl (apart i (List.mem_finRange i))

theorem fillAt_other {place : Fin k → Fin m} (value : Fin k → α) (out : Vector α m) {j : Fin m}
    (apart : ∀ i, place i ≠ j) : (fillAt place value out)[j] = out[j] := by
  rcases foldl_set place value (List.finRange k) out j with ⟨i', -, here, -⟩ | ⟨-, kept⟩
  · exact absurd here (apart i')
  · exact kept

/-- Writing what stands there, where it does not stand yet. -/
theorem fillAt_eq {place : Fin k → Fin m} {value : Fin k → α} {out whole : Vector α m}
    (hits : ∀ i, value i = whole[place i])
    (misses : ∀ j, (∀ i, place i ≠ j) → out[j] = whole[j]) : fillAt place value out = whole := by
  apply Vector.ext
  intro j hj
  change (fillAt place value out)[(⟨j, hj⟩ : Fin m)] = whole[(⟨j, hj⟩ : Fin m)]
  rcases foldl_set place value (List.finRange k) out ⟨j, hj⟩ with
    ⟨i, -, here, last⟩ | ⟨apart, kept⟩
  · rw [fillAt, last, hits, here]
  · rw [fillAt, kept]
    exact misses ⟨j, hj⟩ fun i => apart i (List.mem_finRange i)

end Fill
end BlindSig
