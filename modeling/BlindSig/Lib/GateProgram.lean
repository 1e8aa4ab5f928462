import Mathlib.Data.List.FinRange
import Mathlib.Data.List.GetD

/-! Straight-line programs over gates: the order of the gates and every index are fixed by
the program text, only wire values flow. A program is run by a step function that sees the
index of the gate and leaves one log entry for it. `Sim` relates two programs gate by gate;
its rules follow the program constructs, and one induction turns a `Sim` and a fact about a
single gate into a fact about whole runs. -/
namespace BlindSig

/-- A program that asks for gates `op x y` and goes on with their results. -/
inductive Prog (Op W : Type) (α : Type) where
  | ret (a : α) : Prog Op W α
  | gate (op : Op) (x y : W) (rest : W → Prog Op W α) : Prog Op W α

namespace Prog

variable {Op W W' W₁ W₂ L L' L₁ L₂ α β γ α' β' ι : Type}

protected def bind : Prog Op W α → (α → Prog Op W β) → Prog Op W β
  | ret a, f => f a
  | gate op x y rest, f => gate op x y (fun z => (rest z).bind f)

instance : Monad (Prog Op W) where
  pure := ret
  bind := Prog.bind

@[simp] theorem pure_eq (a : α) : (pure a : Prog Op W α) = ret a := rfl
@[simp] theorem ret_bind (a : α) (f : α → Prog Op W β) : (ret a >>= f) = f a := rfl
@[simp] theorem gate_bind (op : Op) (x y : W) (rest : W → Prog Op W α) (f : α → Prog Op W β) :
    (gate op x y rest >>= f) = gate op x y (fun z => rest z >>= f) := rfl

theorem id_map' (c : Prog Op W α) : id <$> c = c := by
  induction c with
  | ret a => rfl
  | gate op x y rest ih => exact congrArg (gate op x y) (funext ih)

theorem bind_assoc' (c : Prog Op W α) (f : α → Prog Op W β) (g : β → Prog Op W γ) :
    c >>= f >>= g = c >>= fun a => f a >>= g := by
  induction c with
  | ret a => rfl
  | gate op x y rest ih => exact congrArg (gate op x y) (funext ih)

instance : LawfulMonad (Prog Op W) :=
  LawfulMonad.mk' _ id_map' (fun _ _ => rfl) bind_assoc'

/-- One gate. -/
def op (o : Op) (x y : W) : Prog Op W W := gate o x y ret

/-- `for i < k: v[i] = f(i)`, in this order. -/
def collect : (k : Nat) → (Fin k → Prog Op W α) → Prog Op W (Vector α k)
  | 0, _ => pure #v[]
  | k + 1, f => do
    let v ← collect k (fun i => f i.castSucc)
    let a ← f (Fin.last k)
    pure (v.push a)

section Run

/-- Results and log of a program whose first gate has index `g`. -/
def run (step : Nat → Op → W → W → W × L) : Prog Op W α → Nat → α × List L
  | ret a, _ => (a, [])
  | gate op x y rest, g =>
    let out := step g op x y
    let later := run step (rest out.1) (g + 1)
    (later.1, out.2 :: later.2)

variable (step : Nat → Op → W → W → W × L)

@[simp] theorem run_ret (a : α) (g : Nat) : (ret a : Prog Op W α).run step g = (a, []) := rfl

theorem run_bind (c : Prog Op W α) (f : α → Prog Op W β) (g : Nat) :
    (c >>= f).run step g =
      (((f (c.run step g).1).run step (g + (c.run step g).2.length)).1,
        (c.run step g).2 ++ ((f (c.run step g).1).run step (g + (c.run step g).2.length)).2) := by
  induction c generalizing g with
  | ret a => simp
  | gate op x y rest ih =>
    simp only [gate_bind, run, ih, List.length_cons, List.cons_append]
    rw [Nat.add_right_comm g 1, Nat.add_assoc]

end Run

section Eval

/-- The values alone, with a meaning for each gate. -/
def eval (sem : Op → W → W → W) : Prog Op W α → α
  | ret a => a
  | gate op x y rest => eval sem (rest (sem op x y))

variable (sem : Op → W → W → W)

@[simp] theorem eval_ret (a : α) : (ret a : Prog Op W α).eval sem = a := rfl

@[simp] theorem eval_op (o : Op) (x y : W) : (op o x y).eval sem = sem o x y := rfl

@[simp] theorem eval_bind (c : Prog Op W α) (f : α → Prog Op W β) :
    (c >>= f).eval sem = (f (c.eval sem)).eval sem := by
  induction c with
  | ret a => rfl
  | gate op x y rest ih => exact ih _

@[simp] theorem eval_foldlM (f : β → ι → Prog Op W β) (l : List ι) (b : β) :
    (l.foldlM f b).eval sem = l.foldl (fun b i => (f b i).eval sem) b := by
  induction l generalizing b with
  | nil => rfl
  | cons i l ih => simp [ih]

@[simp] theorem eval_collect (k : Nat) (f : Fin k → Prog Op W α) :
    (collect k f).eval sem = Vector.ofFn (fun i => (f i).eval sem) := by
  induction k with
  | zero => simp [collect]
  | succ k ih =>
    simp only [collect, eval_bind, ih, pure_eq, eval_ret]
    apply Vector.ext
    intro i hi
    rcases Nat.lt_succ_iff_lt_or_eq.mp hi with below | rfl
    · simp [Vector.getElem_push_lt below]
    · simp [Fin.last]

/-- A run whose gates compute `sem` has the values of `eval`. -/
theorem run_fst_of_sem (step : Nat → Op → W → W → W × L)
    (computes : ∀ g op x y, (step g op x y).1 = sem op x y) (c : Prog Op W α) (g : Nat) :
    (c.run step g).1 = c.eval sem := by
  induction c generalizing g with
  | ret a => rfl
  | gate op x y rest ih => simp only [run, eval, ih, computes]

end Eval

/-- The two programs ask for the same `k` gates on related wires, whatever related values
the earlier gates returned, and end in related results. -/
inductive Sim (R : W → W' → Prop) (A : α → α' → Prop) :
    Nat → Prog Op W α → Prog Op W' α' → Prop
  | ret {a a'} : A a a' → Sim R A 0 (ret a) (ret a')
  | gate {k op x y x' y' rest rest'} : R x x' → R y y' →
      (∀ z z', R z z' → Sim R A k (rest z) (rest' z')) →
      Sim R A (k + 1) (gate op x y rest) (gate op x' y' rest')

namespace Sim

variable {R : W → W' → Prop} {A : α → α' → Prop} {B : β → β' → Prop}

theorem pure {a : α} {a' : α'} (h : A a a') :
    Sim R A 0 (Pure.pure a : Prog Op W α) (Pure.pure a' : Prog Op W' α') := .ret h

theorem op (o : Op) {x y : W} {x' y' : W'} (hx : R x x') (hy : R y y') :
    Sim R R 1 (Prog.op o x y) (Prog.op o x' y') :=
  .gate hx hy fun _ _ h => .ret h

theorem count {k m : Nat} {c : Prog Op W α} {c' : Prog Op W' α'} (sim : Sim R A k c c')
    (h : k = m) : Sim R A m c c' := h ▸ sim

theorem bind {k m : Nat} {c : Prog Op W α} {c' : Prog Op W' α'} {f : α → Prog Op W β}
    {f' : α' → Prog Op W' β'} (first : Sim R A k c c')
    (next : ∀ a a', A a a' → Sim R B m (f a) (f' a')) : Sim R B (k + m) (c >>= f) (c' >>= f') := by
  induction first with
  | ret h => simpa using next _ _ h
  | @gate k _ _ _ _ _ _ _ hx hy _ ih =>
    rw [Nat.add_right_comm]
    exact .gate hx hy ih

/-- A last step without gates. -/
theorem bind_pure {k : Nat} {c : Prog Op W α} {c' : Prog Op W' α'} {f : α → β} {f' : α' → β'}
    (first : Sim R A k c c') (next : ∀ a a', A a a' → B (f a) (f' a')) :
    Sim R B k (c >>= fun a => Pure.pure (f a)) (c' >>= fun a => Pure.pure (f' a)) :=
  first.bind fun a a' h => .ret (next a a' h)

theorem foldlM {k : Nat} {f : β → ι → Prog Op W β} {f' : β' → ι → Prog Op W' β'}
    (l : List ι) (body : ∀ i ∈ l, ∀ b b', B b b' → Sim R B k (f b i) (f' b' i))
    {b : β} {b' : β'} (init : B b b') :
    Sim R B (l.length * k) (l.foldlM f b) (l.foldlM f' b') := by
  induction l generalizing b b' with
  | nil => simpa using Sim.pure init
  | cons i l ih =>
    rw [List.length_cons, Nat.succ_mul, Nat.add_comm]
    simp only [List.foldlM_cons]
    exact (body i (by simp) b b' init).bind fun _ _ h =>
      ih (fun j hj => body j (List.mem_cons_of_mem _ hj)) h

/-- `for i < m`. -/
theorem foldFin {k : Nat} (m : Nat) {f : β → Fin m → Prog Op W β} {f' : β' → Fin m → Prog Op W' β'}
    (body : ∀ i b b', B b b' → Sim R B k (f b i) (f' b' i)) {b : β} {b' : β'} (init : B b b') :
    Sim R B (m * k) ((List.finRange m).foldlM f b) ((List.finRange m).foldlM f' b') :=
  (Sim.foldlM _ (fun i _ => body i) init).count (congrArg (· * k) List.length_finRange)

theorem collect {k : Nat} (m : Nat) {f : Fin m → Prog Op W α} {f' : Fin m → Prog Op W' α'}
    (body : ∀ i, Sim R A k (f i) (f' i)) :
    Sim R (fun v v' : Vector _ m => ∀ (i : Nat) (h : i < m), A v[i] v'[i]) (m * k)
      (Prog.collect m f) (Prog.collect m f') := by
  induction m with
  | zero => exact (Sim.pure fun i h => absurd h (Nat.not_lt_zero i)).count (Nat.zero_mul k).symm
  | succ m ih =>
    rw [Nat.succ_mul]
    refine (ih fun i => body i.castSucc).bind fun v v' hv => ?_
    refine (body (Fin.last m)).bind_pure fun a a' ha i hi => ?_
    rcases Nat.lt_succ_iff_lt_or_eq.mp hi with below | rfl
    · simpa [Vector.getElem_push_lt below] using hv i below
    · simpa using ha

end Sim

section Runs

variable {R : W → W' → Prop} {A : α → α' → Prop}

theorem Sim.length_left {k : Nat} {c : Prog Op W α} {c' : Prog Op W' α'} (sim : Sim R A k c c')
    (step : Nat → Op → W → W → W × L) (total : ∀ z, ∃ z', R z z') (g : Nat) :
    (c.run step g).2.length = k := by
  induction sim generalizing g with
  | ret _ => rfl
  | @gate k op x y _ _ _ _ _ _ _ ih =>
    obtain ⟨z', related⟩ := total (step g op x y).1
    simp [run, ih _ z' related]

/-- The log facts `P` of a run that starts at gate `g`. -/
def Holds (P : Nat → L → Prop) (g : Nat) (logs : List L) : Prop :=
  ∀ i l, logs[i]? = some l → P (g + i) l

theorem Holds.head {P : Nat → L → Prop} {g : Nat} {l : L} {logs : List L}
    (h : Holds P g (l :: logs)) : P g l := h 0 l rfl

theorem Holds.tail {P : Nat → L → Prop} {g : Nat} {l : L} {logs : List L}
    (h : Holds P g (l :: logs)) : Holds P (g + 1) logs := fun i m hm => by
  rw [Nat.add_right_comm, Nat.add_assoc]
  exact h (i + 1) m hm

theorem Holds.cons {P : Nat → L → Prop} {g : Nat} {l : L} {logs : List L} (first : P g l)
    (rest : Holds P (g + 1) logs) : Holds P g (l :: logs) := by
  intro i m hm
  match i with
  | 0 => obtain rfl : l = m := by simpa using hm
         exact first
  | i + 1 =>
    have := rest i m hm
    rwa [Nat.add_right_comm, Nat.add_assoc] at this

theorem Holds.nil {P : Nat → L → Prop} {g : Nat} : Holds P g [] := fun _ _ h => by simp at h

/-- Every gate keeps the relation on wires where the first run's log entry satisfies `P`;
then so do whole runs, and the log entries of the two are related by `Q`. -/
theorem Sim.run (step : Nat → Op → W → W → W × L) (step' : Nat → Op → W' → W' → W' × L')
    {P : Nat → L → Prop} {Q : Nat → L × L' → Prop}
    (keeps : ∀ g op x x' y y', R x x' → R y y' → P g (step g op x y).2 →
      R (step g op x y).1 (step' g op x' y').1 ∧ Q g ((step g op x y).2, (step' g op x' y').2))
    {k : Nat} {c : Prog Op W α} {c' : Prog Op W' α'} (sim : Sim R A k c c') (g : Nat)
    (logged : Holds P g (c.run step g).2) :
    A (c.run step g).1 (c'.run step' g).1 ∧ (c.run step g).2.length = k ∧
      (c'.run step' g).2.length = k ∧
      Holds Q g ((c.run step g).2.zip (c'.run step' g).2) := by
  induction sim generalizing g with
  | ret h => exact ⟨h, rfl, rfl, Holds.nil⟩
  | @gate k op x y x' y' rest rest' hx hy _ ih =>
    have gateOk := keeps g op x x' y y' hx hy logged.head
    have later := ih _ _ gateOk.1 (g + 1) logged.tail
    refine ⟨later.1, ?_, ?_, ?_⟩
    · simpa [Prog.run] using later.2.1
    · simpa [Prog.run] using later.2.2.1
    · exact Holds.cons gateOk.2 later.2.2.2

/-- The same with no condition on the log. -/
theorem Sim.run_of_keeps (step : Nat → Op → W → W → W × L)
    (step' : Nat → Op → W' → W' → W' × L') {Q : L × L' → Prop}
    (keeps : ∀ g op x x' y y', R x x' → R y y' →
      R (step g op x y).1 (step' g op x' y').1 ∧ Q ((step g op x y).2, (step' g op x' y').2))
    {k : Nat} {c : Prog Op W α} {c' : Prog Op W' α'} (sim : Sim R A k c c') (g : Nat) :
    A (c.run step g).1 (c'.run step' g).1 ∧ (c.run step g).2.length = k ∧
      (c'.run step' g).2.length = k ∧
      Holds (fun _ => Q) g ((c.run step g).2.zip (c'.run step' g).2) :=
  sim.run step step' (P := fun _ _ => True) (fun g op x x' y y' hx hy _ => keeps g op x x' y y' hx hy) g
    fun _ _ _ => trivial

/-- Two runs that each simulate the same first run, where keeping the relations takes the log
entries of all three; it also tells `Q` of the last log. -/
theorem Sim.run_both {W₁ W₂ L₁ L₂ α₁ α₂ : Type} (step : Nat → Op → W → W → W × L)
    (step₁ : Nat → Op → W₁ → W₁ → W₁ × L₁) (step₂ : Nat → Op → W₂ → W₂ → W₂ × L₂)
    {R₁ : W → W₁ → Prop} {R₂ : W → W₂ → Prop} {A₁ : α → α₁ → Prop} {A₂ : α → α₂ → Prop}
    {P : Nat → L → Prop} {S : Nat → L₁ → Prop} {T Q : Nat → L₂ → Prop}
    (keeps : ∀ g op x y x₁ y₁ x₂ y₂, R₁ x x₁ → R₁ y y₁ → R₂ x x₂ → R₂ y y₂ →
      P g (step g op x y).2 → S g (step₁ g op x₁ y₁).2 → T g (step₂ g op x₂ y₂).2 →
      R₁ (step g op x y).1 (step₁ g op x₁ y₁).1 ∧ R₂ (step g op x y).1 (step₂ g op x₂ y₂).1 ∧
        Q g (step₂ g op x₂ y₂).2)
    {k : Nat} {c : Prog Op W α} {c₁ : Prog Op W₁ α₁} {c₂ : Prog Op W₂ α₂}
    (sim₁ : Sim R₁ A₁ k c c₁) (sim₂ : Sim R₂ A₂ k c c₂) (g : Nat)
    (logged : Holds P g (c.run step g).2) (logged₁ : Holds S g (c₁.run step₁ g).2)
    (logged₂ : Holds T g (c₂.run step₂ g).2) :
    A₁ (c.run step g).1 (c₁.run step₁ g).1 ∧ A₂ (c.run step g).1 (c₂.run step₂ g).1 ∧
      Holds Q g (c₂.run step₂ g).2 := by
  induction sim₁ generalizing c₂ g with
  | ret h₁ =>
    cases sim₂ with
    | ret h₂ => exact ⟨h₁, h₂, Holds.nil⟩
  | gate hx₁ hy₁ _ ih =>
    cases sim₂ with
    | gate hx₂ hy₂ later₂ =>
      obtain ⟨kept₁, kept₂, told⟩ :=
        keeps g _ _ _ _ _ _ _ hx₁ hy₁ hx₂ hy₂ logged.head logged₁.head logged₂.head
      obtain ⟨out₁, out₂, later⟩ :=
        ih _ _ kept₁ (later₂ _ _ kept₂) (g + 1) logged.tail logged₁.tail logged₂.tail
      exact ⟨out₁, out₂, Holds.cons told later⟩

end Runs

end Prog

end BlindSig
