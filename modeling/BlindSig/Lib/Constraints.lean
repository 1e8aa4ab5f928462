import Mathlib.Data.List.FinRange

/-! What a circuit says of an assignment. Builder code is read twice: once with wires that are
the values of the words under an assignment, where the words are drawn in the order of their
creation, inner values exist and assertions conjoin; and once with wires that are names, where
only the order of creation is recorded. -/
namespace BlindSig

/-- The public and the private words of a circuit in the order of their creation. -/
structure Assignment (W : Type) where
  inout : Nat → W
  witness : Nat → W

/-- A computation that draws words: what it says, given what the rest of the circuit says of its
result and of the numbers of words drawn. -/
structure Constraints {W : Type} (A : Assignment W) (α : Type) where
  demands : (α → Nat → Nat → Prop) → Nat → Nat → Prop

namespace Constraints

variable {W : Type} {A : Assignment W} {α β : Type}

instance : Monad (Constraints A) where
  pure a := ⟨fun k => k a⟩
  bind m f := ⟨fun k => m.demands fun a => (f a).demands k⟩

instance : LawfulMonad (Constraints A) :=
  LawfulMonad.mk' _ (fun _ => rfl) (fun _ _ => rfl) (fun _ _ _ => rfl)

/-- The next public word. -/
def inout : Constraints A W := ⟨fun k i w => k (A.inout i) (i + 1) w⟩

/-- The next private word. -/
def witness : Constraints A W := ⟨fun k i w => k (A.witness w) i (w + 1)⟩

/-- A value of the circuit's own, related to the wires so far. -/
def inner (R : α → Prop) : Constraints A α := ⟨fun k i w => ∃ a, R a ∧ k a i w⟩

def assert (P : Prop) : Constraints A Unit := ⟨fun k i w => P ∧ k () i w⟩

section Demands

variable (k : β → Nat → Nat → Prop) (i w : Nat)

@[simp] theorem demands_pure (b : β) : (pure b : Constraints A β).demands k i w = k b i w := rfl

@[simp] theorem demands_bind (m : Constraints A α) (f : α → Constraints A β) :
    (m >>= f).demands k i w = m.demands (fun a => (f a).demands k) i w := rfl

@[simp] theorem demands_inout (k : W → Nat → Nat → Prop) :
    (inout : Constraints A W).demands k i w = k (A.inout i) (i + 1) w := rfl

@[simp] theorem demands_witness (k : W → Nat → Nat → Prop) :
    (witness : Constraints A W).demands k i w = k (A.witness w) i (w + 1) := rfl

@[simp] theorem demands_inner (R : β → Prop) :
    (inner R : Constraints A β).demands k i w = ∃ b, R b ∧ k b i w := rfl

@[simp] theorem demands_assert (P : Prop) (k : Unit → Nat → Nat → Prop) :
    (assert P : Constraints A Unit).demands k i w = (P ∧ k () i w) := rfl

end Demands

/-- A computation that says `P`, returns `g` and draws `a` public and `b` private words. -/
def Means (m : Constraints A α) (P : Nat → Nat → Prop) (g : Nat → Nat → α) (a b : Nat) : Prop :=
  ∀ k i w, m.demands k i w ↔ P i w ∧ k (g i w) (i + a) (w + b)

/-- A computation that only draws words. -/
def Draws (m : Constraints A α) (g : Nat → Nat → α) (a b : Nat) : Prop :=
  ∀ k i w, m.demands k i w ↔ k (g i w) (i + a) (w + b)

theorem Draws.means {m : Constraints A α} {g : Nat → Nat → α} {a b : Nat} (draws : m.Draws g a b) :
    m.Means (fun _ _ => True) g a b := by
  intro k i w
  rw [draws k i w]
  simp

/-- A row of computations, each of which draws as many words. -/
theorem means_ofFnM {n a b : Nat} {f : Fin n → Constraints A α} {P : Fin n → Nat → Nat → Prop}
    {g : Fin n → Nat → Nat → α} (each : ∀ j, Means (f j) (P j) (g j) a b) :
    Means (Vector.ofFnM f) (fun i w => ∀ j : Fin n, P j (i + a * j) (w + b * j))
      (fun i w => Vector.ofFn fun j : Fin n => g j (i + a * j) (w + b * j)) (a * n) (b * n) := by
  intro k i w
  induction n with
  | zero => simp [Vector.eq_empty]
  | succ n ih =>
    rw [Vector.ofFnM_succ, demands_bind, ih fun j => each j.castSucc, demands_bind,
      each (Fin.last n), demands_pure]
    simp only [Fin.forall_fin_succ', Vector.ofFn_succ, Fin.val_last, Fin.val_castSucc, Nat.mul_add,
      Nat.mul_one, Nat.add_assoc, and_assoc]
    rfl

theorem draws_ofFnM {n a b : Nat} {f : Fin n → Constraints A α} {g : Fin n → Nat → Nat → α}
    (each : ∀ j, Draws (f j) (g j) a b) :
    Draws (Vector.ofFnM f) (fun i w => Vector.ofFn fun j : Fin n => g j (i + a * j) (w + b * j))
      (a * n) (b * n) := by
  intro k i w
  rw [means_ofFnM (fun j => (each j).means) k i w]
  simp

/-- A loop whose steps only move a value along. -/
theorem demands_foldlM {σ : Type} {f : σ → α → Constraints A σ} {g : σ → α → σ}
    (each : ∀ x a k i w, (f x a).demands k i w ↔ k (g x a) i w) (l : List α) (x : σ)
    (k : σ → Nat → Nat → Prop) (i w : Nat) :
    (l.foldlM f x).demands k i w ↔ k (l.foldl g x) i w := by
  induction l generalizing x with
  | nil => rfl
  | cons a l ih => rw [List.foldlM_cons, demands_bind, each, ih, List.foldl_cons]

/-- A loop of assertions. -/
theorem demands_forM {f : α → Constraints A PUnit} {P : α → Prop}
    (each : ∀ a k i w, (f a).demands k i w ↔ P a ∧ k ⟨⟩ i w) (l : List α)
    (k : PUnit → Nat → Nat → Prop) (i w : Nat) :
    (l.forM f).demands k i w ↔ (∀ a ∈ l, P a) ∧ k ⟨⟩ i w := by
  induction l with
  | nil => simp [List.forM_nil]
  | cons a l ih =>
    rw [List.forM_eq_forM, List.forM_cons, demands_bind, each, ← List.forM_eq_forM, ih,
      List.forall_mem_cons, and_assoc]

/-- The assignment satisfies a circuit with `inouts` public words. -/
def Holds (m : Constraints A α) (inouts : Nat) : Prop := m.demands (fun _ i _ => i = inouts) 0 0

end Constraints

/-- A wire by the place of its word, or one the circuit computes. -/
inductive WireName where
  | inout (j : Nat)
  | witness (j : Nat)
  | inner
  deriving DecidableEq

/-- Building with names: the numbers of words drawn so far. -/
abbrev Layout := StateM (Nat × Nat)

namespace Layout

variable {α : Type}

def inout : Layout WireName := fun (i, w) => (.inout i, (i + 1, w))

def witness : Layout WireName := fun (i, w) => (.witness w, (i, w + 1))

/-- A computation that returns `g` and draws `a` public and `b` private words. -/
def Places (m : Layout α) (g : Nat → Nat → α) (a b : Nat) : Prop :=
  ∀ i w, m (i, w) = (g i w, (i + a, w + b))

theorem places_pure (x : α) : Places (pure x) (fun _ _ => x) 0 0 := fun _ _ => rfl

theorem Places.bind {β : Type} {m : Layout α} {g : Nat → Nat → α} {a b a' b' : Nat}
    {f : α → Layout β} {g' : α → Nat → Nat → β} (first : m.Places g a b)
    (next : ∀ x, (f x).Places (g' x) a' b') :
    Places (m >>= f) (fun i w => g' (g i w) (i + a) (w + b)) (a + a') (b + b') := by
  intro i w
  have run := next (g i w) (i + a) (w + b)
  rw [Nat.add_assoc, Nat.add_assoc] at run
  rw [← run]
  change (match m (i, w) with | (x, s) => f x s) = _
  rw [first i w]

theorem Places.counts {m : Layout α} {g : Nat → Nat → α} {a b a' b' : Nat} (places : m.Places g a b)
    (inouts : a = a') (witnesses : b = b') : m.Places g a' b' := by
  subst inouts witnesses
  exact places

theorem places_ofFnM {n a b : Nat} {f : Fin n → Layout α} {g : Fin n → Nat → Nat → α}
    (each : ∀ j, Places (f j) (g j) a b) :
    Places (Vector.ofFnM f) (fun i w => Vector.ofFn fun j : Fin n => g j (i + a * j) (w + b * j))
      (a * n) (b * n) := by
  induction n with
  | zero =>
    intro i w
    simp [Vector.eq_empty]
    rfl
  | succ n ih =>
    intro i w
    rw [Vector.ofFnM_succ, (ih fun j => each j.castSucc).bind
      fun v => (each (Fin.last n)).bind fun x => places_pure (v.push x)]
    simp only [Vector.ofFn_succ]
    rfl

end Layout

end BlindSig
