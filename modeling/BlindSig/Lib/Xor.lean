import Mathlib.Algebra.BigOperators.Fin

/-! Vectors by the indices of their own range, which need no bound; exclusive-or as an abelian group of exponent two, the maps that respect it and
the fold of a finite family. Machine words, fixed-size buffers and pairs of these are
instances; an operation on bits is local to a sharing exactly when it respects `^^^`. -/
namespace BlindSig

section Index

instance finIndex : GetElem (Vector α n) (Fin n) α fun _ _ => True where
  getElem xs i _ := getElem xs i.val i.isLt

@[simp] theorem getElem_fin (xs : Vector α n) (i : Fin n) : xs[i] = getElem xs i.val i.isLt := rfl

/-- `xs[i] = x`. -/
@[reducible] def setAt (xs : Vector α n) (i : Fin n) (x : α) : Vector α n := xs.set i x i.isLt

@[reducible] def single (x : α) : Vector α 1 := #v[x]

@[reducible] def pair (x y : α) : Vector α 2 := #v[x, y]

end Index

class XorGroup (A : Type) extends XorOp A where
  zeros : A
  protected xor_assoc : ∀ a b c : A, a ^^^ b ^^^ c = a ^^^ (b ^^^ c)
  protected xor_comm : ∀ a b : A, a ^^^ b = b ^^^ a
  xor_zeros : ∀ a : A, a ^^^ zeros = a
  protected xor_self : ∀ a : A, a ^^^ a = zeros

namespace XorGroup

variable {A B C : Type} [XorGroup A] [XorGroup B] [XorGroup C]

@[simp] theorem xor_zeros' (a : A) : a ^^^ zeros = a := xor_zeros a
@[simp] theorem zeros_xor (a : A) : zeros ^^^ a = a := by rw [XorGroup.xor_comm, xor_zeros]
@[simp] theorem xor_self' (a : A) : a ^^^ a = zeros := XorGroup.xor_self a

@[simp] theorem xor_xor_cancel_right (a b : A) : a ^^^ b ^^^ b = a := by
  rw [XorGroup.xor_assoc, XorGroup.xor_self, xor_zeros]

@[simp] theorem xor_xor_cancel_left (a b : A) : a ^^^ (a ^^^ b) = b := by
  rw [← XorGroup.xor_assoc, XorGroup.xor_self, zeros_xor]

theorem xor_right_injective (a b c : A) (h : a ^^^ c = b ^^^ c) : a = b := by
  rw [← xor_xor_cancel_right a c, h, xor_xor_cancel_right]

theorem xor_xor_comm (a b c d : A) : a ^^^ b ^^^ (c ^^^ d) = a ^^^ c ^^^ (b ^^^ d) := by
  rw [XorGroup.xor_assoc, XorGroup.xor_assoc, ← XorGroup.xor_assoc b, XorGroup.xor_comm b,
    XorGroup.xor_assoc c]

/-- The additive reading, for the lemmas on finite sums. -/
@[reducible] def toAddCommMonoid : AddCommMonoid A :=
  letI : Add A := ⟨(· ^^^ ·)⟩
  letI : Zero A := ⟨zeros⟩
  { add_assoc := XorGroup.xor_assoc
    zero_add := zeros_xor
    add_zero := xor_zeros
    add_comm := XorGroup.xor_comm
    nsmul := nsmulRec }

instance {w : Nat} : XorGroup (BitVec w) where
  zeros := 0#w
  xor_assoc := BitVec.xor_assoc
  xor_comm := BitVec.xor_comm
  xor_zeros _ := BitVec.xor_zero
  xor_self _ := BitVec.xor_self

instance : XorGroup (A × B) where
  xor a b := (a.1 ^^^ b.1, a.2 ^^^ b.2)
  zeros := (zeros, zeros)
  xor_assoc _ _ _ := Prod.ext (XorGroup.xor_assoc ..) (XorGroup.xor_assoc ..)
  xor_comm _ _ := Prod.ext (XorGroup.xor_comm ..) (XorGroup.xor_comm ..)
  xor_zeros _ := Prod.ext (xor_zeros _) (xor_zeros _)
  xor_self _ := Prod.ext (XorGroup.xor_self _) (XorGroup.xor_self _)

instance {k : Nat} : XorOp (Vector A k) := ⟨Vector.zipWith (· ^^^ ·)⟩

@[simp] theorem getElem_xor (a b : Vector A k) (i : Nat) (h : i < k) :
    (a ^^^ b)[i] = a[i] ^^^ b[i] := Vector.getElem_zipWith h

instance {k : Nat} : XorGroup (Vector A k) where
  zeros := Vector.replicate k zeros
  xor_assoc a b c := by ext; simp [XorGroup.xor_assoc]
  xor_comm a b := by ext i hi; simp [XorGroup.xor_comm a[i]]
  xor_zeros a := by ext; simp
  xor_self a := by ext; simp

@[simp] theorem fst_xor (a b : A × B) : (a ^^^ b).1 = a.1 ^^^ b.1 := rfl
@[simp] theorem snd_xor (a b : A × B) : (a ^^^ b).2 = a.2 ^^^ b.2 := rfl

@[simp] theorem zeros_bitVec : (zeros : BitVec w) = 0#w := rfl

@[simp] theorem getElem_zeros (i : Nat) (h : i < k) :
    (zeros : Vector A k)[i] = zeros := Vector.getElem_replicate h

end XorGroup

open XorGroup

/-- Maps that respect exclusive-or. -/
def XorLinear {A B : Type} [XorGroup A] [XorGroup B] (f : A → B) : Prop :=
  ∀ a b, f (a ^^^ b) = f a ^^^ f b

namespace XorLinear

variable {A B C : Type} [XorGroup A] [XorGroup B] [XorGroup C]

theorem zeros {f : A → B} (h : XorLinear f) : f zeros = XorGroup.zeros := by
  have twice := h XorGroup.zeros XorGroup.zeros
  rw [XorGroup.xor_self] at twice
  rw [twice, XorGroup.xor_self]

protected theorem id : XorLinear (fun a : A => a) := fun _ _ => rfl

theorem comp {g : B → C} {f : A → B} (hg : XorLinear g) (hf : XorLinear f) :
    XorLinear (fun a => g (f a)) := fun a b => (congrArg g (hf a b)).trans (hg _ _)

theorem xor {f g : A → B} (hf : XorLinear f) (hg : XorLinear g) :
    XorLinear (fun a => f a ^^^ g a) := fun a b => by
  simp only [hf a b, hg a b, xor_xor_comm]

theorem fst : XorLinear (fun p : A × B => p.1) := fun _ _ => rfl
theorem snd : XorLinear (fun p : A × B => p.2) := fun _ _ => rfl

theorem xor_pair : XorLinear (fun p : A × A => p.1 ^^^ p.2) := xor fst snd

theorem const_zeros : XorLinear (fun _ : A => (XorGroup.zeros : B)) :=
  fun _ _ => (XorGroup.xor_self _).symm

theorem getElem (i : Nat) (h : i < k) : XorLinear (fun v : Vector A k => v[i]) :=
  fun a b => getElem_xor a b i h

theorem ofFn {f : Fin k → A → B} (h : ∀ i, XorLinear (f i)) :
    XorLinear (fun a => Vector.ofFn (fun i => f i a)) := by
  intro a b
  ext i hi
  simp [h ⟨i, hi⟩ a b]

theorem ite (p : Prop) [Decidable p] {f g : A → B} (hf : XorLinear f) (hg : XorLinear g) :
    XorLinear (fun a => if p then f a else g a) := by
  by_cases hp : p <;> simpa [hp]

/-- A correction by a constant under the control of a linear bit. -/
theorem xor_if (bit : A → Bool) (h : ∀ a b, bit (a ^^^ b) = (bit a ^^ bit b)) (c : A) :
    XorLinear (fun a => if bit a then a ^^^ c else a) := by
  intro a b
  simp only [h]
  cases bit a <;> cases bit b
  · rfl
  · exact XorGroup.xor_assoc a b c
  · change a ^^^ b ^^^ c = a ^^^ c ^^^ b
    rw [XorGroup.xor_assoc, XorGroup.xor_comm b, XorGroup.xor_assoc]
  · change a ^^^ b = a ^^^ c ^^^ (b ^^^ c)
    rw [xor_xor_comm, xor_self', xor_zeros]

theorem foldl {f : B → ι → B} (h : ∀ i, XorLinear (f · i)) (l : List ι) :
    XorLinear (fun b => l.foldl f b) := by
  induction l with
  | nil => exact XorLinear.id
  | cons i l ih => exact comp ih (h i)

end XorLinear

/-- `acc = 0; for i: acc ^= f i`. -/
def xorAll {A : Type} [XorGroup A] {n : Nat} (f : Fin n → A) : A :=
  Fin.foldl n (fun acc i => acc ^^^ f i) zeros

section xorAll

variable {A B : Type} [XorGroup A] [XorGroup B] {n : Nat}

attribute [local instance] toAddCommMonoid in
theorem xorAll_eq_sum (f : Fin n → A) : xorAll f = ∑ i, f i := by
  induction n with
  | zero => rfl
  | succ n ih => rw [xorAll, Fin.foldl_succ_last, Fin.sum_univ_castSucc, ← ih]; rfl

theorem xorAll_zero (f : Fin 0 → A) : xorAll f = zeros := rfl

attribute [local instance] toAddCommMonoid in
/-- Any one summand can be taken out. -/
theorem xorAll_succAbove (f : Fin (n + 1) → A) (e : Fin (n + 1)) :
    xorAll f = f e ^^^ xorAll (fun j => f (e.succAbove j)) := by
  rw [xorAll_eq_sum, xorAll_eq_sum]
  exact Fin.sum_univ_succAbove f e

theorem xorAll_succ (f : Fin (n + 1) → A) : xorAll f = f 0 ^^^ xorAll (fun j => f j.succ) := by
  simpa using xorAll_succAbove f 0

theorem xorAll_map {f : A → B} (h : XorLinear f) (l : Fin n → A) :
    f (xorAll l) = xorAll (fun i => f (l i)) := by
  induction n with
  | zero => exact h.zeros
  | succ n ih => rw [xorAll_succ, h, ih, ← xorAll_succ (fun i => f (l i))]

attribute [local instance] toAddCommMonoid in
theorem xorAll_xor (f g : Fin n → A) :
    xorAll (fun i => f i ^^^ g i) = xorAll f ^^^ xorAll g := by
  simp only [xorAll_eq_sum]
  exact Finset.sum_add_distrib

/-- `for i: acc ^= f i`, from any start. -/
theorem foldl_xor_eq (f : Fin n → A) (a : A) :
    (List.finRange n).foldl (fun acc i => acc ^^^ f i) a = a ^^^ xorAll f := by
  have shift (l : List (Fin n)) (a : A) : l.foldl (fun acc i => acc ^^^ f i) a =
      a ^^^ l.foldl (fun acc i => acc ^^^ f i) zeros := by
    induction l generalizing a with
    | nil => simp
    | cons i l ih => rw [List.foldl_cons, List.foldl_cons, ih, ih (zeros ^^^ f i), zeros_xor,
        XorGroup.xor_assoc]
  rw [shift, xorAll, Fin.foldl_eq_finRange_foldl]

@[simp] theorem xorAll_zeros : xorAll (fun _ : Fin n => (zeros : A)) = zeros := by
  induction n with
  | zero => rfl
  | succ n ih => rw [xorAll_succ, ih, xor_zeros]

/-- Only one summand is left. -/
theorem xorAll_at (f : Fin n → A) (k : Nat) :
    xorAll (fun i => if i.val = k then f i else zeros) = if h : k < n then f ⟨k, h⟩ else zeros := by
  split
  next inside =>
    obtain ⟨m, rfl⟩ := Nat.exists_eq_succ_of_ne_zero (Nat.ne_zero_of_lt inside)
    have apart (j : Fin m) : ((⟨k, inside⟩ : Fin (m + 1)).succAbove j).val ≠ k := by
      intro same
      exact Fin.succAbove_ne _ j (Fin.ext same)
    rw [xorAll_succAbove _ ⟨k, inside⟩]
    simp [apart]
  next outside =>
    have none (i : Fin n) : i.val ≠ k := fun same => outside (same ▸ i.isLt)
    simp [none]

/-- A correction added to one summand is added to the whole. -/
theorem xorAll_single (f : Fin (n + 1) → A) (e : Fin (n + 1)) (c : A) :
    xorAll (fun i => if i = e then f i ^^^ c else f i) = xorAll f ^^^ c := by
  rw [xorAll_succAbove _ e, xorAll_succAbove f e]
  simp only [if_true, Fin.succAbove_ne, if_false]
  rw [XorGroup.xor_assoc, XorGroup.xor_comm c, XorGroup.xor_assoc]

end xorAll

end BlindSig
