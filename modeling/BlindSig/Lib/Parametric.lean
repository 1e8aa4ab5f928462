import BlindSig.Lib.Bytes
import Mathlib.Data.List.FinRange
import Mathlib.Data.List.Forall2

/-! Two readings of one program over an interface of operations: a relation between the
computations of two monads that holds of results and passes along sequences relates the two
readings of every program whose operations it relates. -/
namespace BlindSig

/-- A relation between computations from every relation between their results. -/
structure Lifting (m m' : Type → Type) [Monad m] [Monad m'] where
  rel : {α β : Type} → (α → β → Prop) → m α → m' β → Prop
  pure : ∀ {α β : Type} {R : α → β → Prop} {a : α} {b : β}, R a b → rel R (pure a) (pure b)
  bind : ∀ {α β γ δ : Type} {R : α → β → Prop} {S : γ → δ → Prop} {x : m α} {y : m' β}
    {f : α → m γ} {g : β → m' δ}, rel R x y → (∀ a b, R a b → rel S (f a) (g b)) →
    rel S (x >>= f) (y >>= g)

/-- Rows related place by place. -/
def Rows {α β : Type} {n : Nat} (R : α → β → Prop) (v : Vector α n) (w : Vector β n) : Prop :=
  ∀ i : Fin n, R v[i] w[i]

namespace Rows

variable {α β γ δ : Type} {R : α → β → Prop} {n k : Nat} {v : Vector α n} {w : Vector β n}

theorem getElem (rows : Rows R v w) {i : Nat} (hi : i < n) : R v[i] w[i] := rows ⟨i, hi⟩

theorem ofFn {f : Fin n → α} {g : Fin n → β} (each : ∀ i, R (f i) (g i)) :
    Rows R (Vector.ofFn f) (Vector.ofFn g) := by
  intro i
  simpa using each i

theorem replicate {a : α} {b : β} (same : R a b) :
    Rows R (Vector.replicate n a) (Vector.replicate n b) := by
  intro i
  simpa using same

theorem set {a : α} {b : β} (rows : Rows R v w) (i : Fin n) (same : R a b) :
    Rows R (setAt v i a) (setAt w i b) := by
  intro j
  rcases eq_or_ne i.val j.val with here | other
  · simpa [Vector.getElem_set, here] using same
  · simpa [Vector.getElem_set, other] using rows j

theorem slice (rows : Rows R v w) (off len : Nat) (inside : off + len ≤ n) :
    Rows R (BlindSig.slice v off len inside) (BlindSig.slice w off len inside) :=
  Rows.ofFn fun i : Fin len => rows ⟨off + i, by omega⟩

theorem toList (rows : Rows R v w) : List.Forall₂ R v.toList w.toList := by
  rw [List.forall₂_iff_get]
  constructor
  · simp
  · intro i hi hi'
    simpa using rows ⟨i, by simpa using hi⟩

end Rows

theorem forall₂_getD {α β : Type} {R : α → β → Prop} {l : List α} {l' : List β} {a : α} {b : β}
    (rows : List.Forall₂ R l l') (same : R a b) (i : Nat) : R (l.getD i a) (l'.getD i b) := by
  induction rows generalizing i with
  | nil => simpa using same
  | cons first _ ih =>
    cases i with
    | zero => simpa using first
    | succ i => simpa using ih i

theorem forall₂_zipIdx {α β : Type} {R : α → β → Prop} {l : List α} {l' : List β} {k : Nat}
    (rows : List.Forall₂ R l l') :
    List.Forall₂ (fun p q => R p.1 q.1 ∧ p.2 = q.2) (l.zipIdx k) (l'.zipIdx k) := by
  induction rows generalizing k with
  | nil => exact .nil
  | cons first _ ih => exact .cons ⟨first, rfl⟩ ih

namespace Lifting

variable {m m' : Type → Type} [Monad m] [Monad m'] (L : Lifting m m') {α β γ δ : Type}
  {R : α → β → Prop} {S : γ → δ → Prop}

theorem imp [LawfulMonad m] [LawfulMonad m'] {R' : α → β → Prop} {x : m α} {y : m' β}
    (related : L.rel R x y) (weaker : ∀ a b, R a b → R' a b) : L.rel R' x y := by
  have whole := L.bind related fun a b same => L.pure (weaker a b same)
  rwa [bind_pure, bind_pure] at whole

theorem foldlM {ι : Type} {l : List ι} {f : α → ι → m α} {g : β → ι → m' β} {a : α} {b : β}
    (start : R a b) (step : ∀ i ∈ l, ∀ a b, R a b → L.rel R (f a i) (g b i)) :
    L.rel R (l.foldlM f a) (l.foldlM g b) := by
  induction l generalizing a b with
  | nil => exact L.pure start
  | cons i l ih =>
    rw [List.foldlM_cons, List.foldlM_cons]
    refine L.bind (step i List.mem_cons_self a b start) fun a' b' next => ih next ?_
    intro j member
    exact step j (List.mem_cons_of_mem i member)

/-- A loop along two related lists. -/
theorem foldlM_forall₂ {l : List γ} {l' : List δ} {f : α → γ → m α} {g : β → δ → m' β} {a : α}
    {b : β} (rows : List.Forall₂ S l l') (start : R a b)
    (step : ∀ a b, R a b → ∀ c d, S c d → L.rel R (f a c) (g b d)) :
    L.rel R (l.foldlM f a) (l'.foldlM g b) := by
  induction rows generalizing a b with
  | nil => exact L.pure start
  | cons first _ ih =>
    rw [List.foldlM_cons, List.foldlM_cons]
    exact L.bind (step a b start _ _ first) fun _ _ next => ih next

theorem forM {ι : Type} {l : List ι} {f : ι → m PUnit} {g : ι → m' PUnit}
    (each : ∀ i ∈ l, L.rel (fun _ _ => True) (f i) (g i)) :
    L.rel (fun _ _ => True) (l.forM f) (l.forM g) := by
  induction l with
  | nil => exact L.pure trivial
  | cons i l ih =>
    rw [List.forM_eq_forM, List.forM_eq_forM, List.forM_cons, List.forM_cons]
    exact L.bind (each i List.mem_cons_self) fun _ _ _ =>
      ih fun j member => each j (List.mem_cons_of_mem i member)

/-- A row of computations, each with a relation of its own. -/
theorem ofFnM_each [LawfulMonad m] [LawfulMonad m'] {n : Nat} {f : Fin n → m α} {g : Fin n → m' β}
    (R : Fin n → α → β → Prop) (each : ∀ i, L.rel (R i) (f i) (g i)) :
    L.rel (fun v w => ∀ i : Fin n, R i v[i] w[i]) (Vector.ofFnM f) (Vector.ofFnM g) := by
  induction n with
  | zero =>
    rw [Vector.ofFnM_zero, Vector.ofFnM_zero]
    exact L.pure fun i => i.elim0
  | succ n ih =>
    rw [Vector.ofFnM_succ, Vector.ofFnM_succ]
    refine L.bind (ih (fun i => R i.castSucc) fun i => each i.castSucc) fun v w rows => ?_
    refine L.bind (each (Fin.last n)) fun a b last => L.pure fun i => ?_
    rcases Nat.lt_or_ge i n with inside | outside
    · simpa [Vector.getElem_push, inside] using rows ⟨i, inside⟩
    · obtain rfl : i = Fin.last n := Fin.ext (by
        rw [Fin.val_last]
        omega)
      simpa using last

theorem ofFnM [LawfulMonad m] [LawfulMonad m'] {n : Nat} {f : Fin n → m α} {g : Fin n → m' β}
    (each : ∀ i, L.rel R (f i) (g i)) :
    L.rel (Rows R) (Vector.ofFnM f) (Vector.ofFnM g) :=
  L.ofFnM_each (fun _ => R) each

/-- A loop over the indices, with a relation for each number of rounds. -/
theorem foldlM_finRange {n : Nat} {f : α → Fin n → m α} {g : β → Fin n → m' β}
    (stage : Nat → α → β → Prop) {a : α} {b : β} (start : stage 0 a b)
    (step : ∀ (i : Fin n) a b, stage i a b → L.rel (stage (i + 1)) (f a i) (g b i)) :
    L.rel (stage n) ((List.finRange n).foldlM f a) ((List.finRange n).foldlM g b) := by
  induction n generalizing a b stage with
  | zero => exact L.pure start
  | succ n ih =>
    rw [List.finRange_succ, List.foldlM_cons, List.foldlM_cons]
    refine L.bind (step 0 a b start) fun a' b' next => ?_
    rw [List.foldlM_map, List.foldlM_map]
    exact ih (fun i => stage (i + 1)) next fun i => step i.succ

theorem foldlM_range [LawfulMonad m] [LawfulMonad m'] {n : Nat} {f : α → Nat → m α}
    {g : β → Nat → m' β} (stage : Nat → α → β → Prop) {a : α} {b : β} (start : stage 0 a b)
    (step : ∀ i < n, ∀ a b, stage i a b → L.rel (stage (i + 1)) (f a i) (g b i)) :
    L.rel (stage n) ((List.range n).foldlM f a) ((List.range n).foldlM g b) := by
  induction n with
  | zero => exact L.pure start
  | succ n ih =>
    rw [List.range_succ, List.foldlM_append, List.foldlM_append]
    refine L.bind (ih fun i inside => step i (Nat.lt_succ_of_lt inside)) fun a' b' same => ?_
    rw [List.foldlM_cons, List.foldlM_cons]
    exact L.bind (step n (Nat.lt_succ_self n) a' b' same) fun _ _ last => L.pure last

/-- Computations with a state of their own, when the states stay related. -/
def stateT {σ σ' : Type} (T : σ → σ' → Prop) : Lifting (StateT σ m) (StateT σ' m') where
  rel R x y := ∀ s s', T s s' → L.rel (fun p q => R p.1 q.1 ∧ T p.2 q.2) (x s) (y s')
  pure same s s' states := L.pure ⟨same, states⟩
  bind first next s s' states := by
    refine L.bind (first s s' states) ?_
    rintro ⟨a, s⟩ ⟨b, s'⟩ ⟨same, states⟩
    exact next a b same s s' states

theorem stateT_lift {σ σ' : Type} {T : σ → σ' → Prop} {x : m α} {y : m' β}
    (related : L.rel R x y) : (L.stateT T).rel R (StateT.lift x) (StateT.lift y) :=
  fun _ _ states => L.bind related fun _ _ same => L.pure ⟨same, states⟩

/-- A computation with a state of its own beside the one without: both are what one computation
of pairs says. -/
def erase (σ : Type) (m : Type → Type) [Monad m] [LawfulMonad m] : Lifting (StateT σ m) m where
  rel {α β} R x y := ∀ s, ∃ z : m { p : (α × σ) × β // R p.1.1 p.2 },
    (fun p => p.1.1) <$> z = x s ∧ (fun p => p.1.2) <$> z = y
  pure {α β R a b} same s := ⟨Pure.pure ⟨((a, s), b), same⟩, map_pure _ _, map_pure _ _⟩
  bind {α β γ δ R S x y f g} first next s := by
    obtain ⟨z, left, right⟩ := first s
    choose w left' right' using fun p : { p : (α × σ) × β // R p.1.1 p.2 } =>
      next p.1.1.1 p.1.2 p.2 p.1.1.2
    refine ⟨z >>= w, ?_, ?_⟩
    · rw [map_bind]
      simp only [left']
      change _ = x s >>= fun p => f p.1 p.2
      rw [← left, bind_map_left]
    · rw [map_bind]
      simp only [right']
      rw [← right, bind_map_left]

theorem erase_eq {σ : Type} [LawfulMonad m] {x : StateT σ m α} {y : m α}
    (related : (erase σ m).rel Eq x y) (s : σ) : Prod.fst <$> x s = y := by
  obtain ⟨z, left, right⟩ := related s
  rw [← left, ← right, ← comp_map]
  exact congrArg (· <$> z) (funext fun p => p.2)

end Lifting

/-- Computations with a state, and with a log that only grows. -/
def Logged (σ ω α : Type) := σ → (α × σ) × List ω

namespace Logged

variable {σ ω α β : Type}

instance : Monad (Logged σ ω) where
  pure a := fun s => ((a, s), [])
  bind x f := fun s => ((f (x s).1.1 (x s).1.2).1, (x s).2 ++ (f (x s).1.1 (x s).1.2).2)

theorem pure_apply (a : α) (s : σ) : (pure a : Logged σ ω α) s = ((a, s), []) := rfl

theorem bind_apply (x : Logged σ ω α) (f : α → Logged σ ω β) (s : σ) :
    (x >>= f) s = ((f (x s).1.1 (x s).1.2).1, (x s).2 ++ (f (x s).1.1 (x s).1.2).2) := rfl

theorem map_apply (f : α → β) (x : Logged σ ω α) (s : σ) :
    (f <$> x) s = ((f (x s).1.1, (x s).1.2), (x s).2) := by
  have run : (f <$> x) s = ((f (x s).1.1, (x s).1.2), (x s).2 ++ []) := rfl
  rw [run, List.append_nil]

instance : LawfulMonad (Logged σ ω) := LawfulMonad.mk' _
  (fun x => by
    funext s
    change ((x s).1, (x s).2 ++ []) = x s
    rw [List.append_nil])
  (fun _ _ => rfl)
  (fun x f g => by
    funext s
    simp only [bind_apply, List.append_assoc])

end Logged

end BlindSig
