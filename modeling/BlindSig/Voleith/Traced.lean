import BlindSig.Voleith.NativeAuth

/-! The evaluations operation by operation: what the circuit asks of the two contexts is the same at
every point, with the same counts. -/
namespace BlindSig.Voleith

open Kkw

section Traced

variable {m m' : Type → Type} [Monad m] [Monad m'] [LawfulMonad m] [LawfulMonad m']
  {Bit Fe Bit' Fe' : Type} {e : Engine m Bit Fe} {e' : Engine m' Bit' Fe'}

/-- The same operation, on related operands. -/
inductive OperationRel (Rb : Bit → Bit' → Prop) (Rf : Fe → Fe' → Prop) :
    Operation Bit Fe → Operation Bit' Fe' → Prop
  | bit (i : Nat) : OperationRel Rb Rf (.bit i) (.bit i)
  | allocate : OperationRel Rb Rf .allocate .allocate
  | mul : OperationRel Rb Rf .mul .mul
  | zero {a a'} : Rb a a' → OperationRel Rb Rf (.zero a) (.zero a')
  | zeroField {a a'} : Rf a a' → OperationRel Rb Rf (.zeroField a) (.zeroField a')
  | fieldWitness (bits : Nat) : OperationRel Rb Rf (.fieldWitness bits) (.fieldWitness bits)
  | permute (keep : Nat) : OperationRel Rb Rf (.permute keep) (.permute keep)

/-- The same operation with the same counts after it. -/
structure EventRel (Rb : Bit → Bit' → Prop) (Rf : Fe → Fe' → Prop) (x : Event Bit Fe)
    (y : Event Bit' Fe') : Prop where
  operation : OperationRel Rb Rf x.operation y.operation
  counts : x.counts = y.counts

variable {L : Lifting m m'} {Rb : Bit → Bit' → Prop} {Rf : Fe → Fe' → Prop}
  {At : Nat → Bit → Bit' → Prop} {Within : Nat → Fe → Prop}

omit [LawfulMonad m] [LawfulMonad m'] in
theorem observe_rel (counts : L.rel Eq e.counts e'.counts) {α β : Type} {R : α → β → Prop}
    {x : m α} {y : m' β} {op : Operation Bit Fe} {op' : Operation Bit' Fe'}
    (same : OperationRel Rb Rf op op') (related : L.rel R x y) :
    (L.stateT (List.Forall₂ (EventRel Rb Rf))).rel R (observe e op x) (observe e' op' y) := by
  refine Lifting.bind _ (L.stateT_lift related) fun a b result => ?_
  refine Lifting.bind _ (L.stateT_lift counts) ?_
  rintro counts _ rfl
  refine Lifting.bind _ (R := fun _ _ => True) ?_ fun _ _ _ => Lifting.pure _ result
  intro events events' rows
  exact L.pure ⟨trivial, List.rel_append rows (.cons ⟨same, rfl⟩ .nil)⟩

omit [LawfulMonad m] [LawfulMonad m'] in
/-- Related engines note down related operations. -/
theorem traced_rel (sys : EngineRel L e e' Rb Rf At Within) (counts : L.rel Eq e.counts e'.counts) :
    EngineRel (L.stateT (List.Forall₂ (EventRel Rb Rf))) (traced e) (traced e') Rb Rf At Within where
  at_rel := sys.at_rel
  constant := sys.constant
  bit i inside := observe_rel counts (.bit i) (sys.bit i inside)
  add := sys.add
  mul left right := observe_rel counts .mul (sys.mul left right)
  zero same := observe_rel counts (.zero same) (sys.zero same)
  zeroField same := observe_rel counts (.zeroField same) (sys.zeroField same)
  pack := sys.pack
  addField := sys.addField
  product := sys.product
  within_pack := sys.within_pack
  within_add := sys.within_add
  within_flag := sys.within_flag
  within_all := sys.within_all
  fieldWitness few same held := observe_rel counts (.fieldWitness _) (sys.fieldWitness few same held)
  permute keep rows := observe_rel counts (.permute keep) (sys.permute keep rows)

theorem rows_eq {α : Type} {n : Nat} {v w : Vector α n} : Rows Eq v w ↔ v = w := by
  constructor
  · intro rows
    apply Vector.ext
    intro i hi
    exact rows ⟨i, hi⟩
  · rintro rfl i
    rfl

theorem observe_run {α : Type} (op : Operation Bit Fe) (x : m α) (events : List (Event Bit Fe)) :
    observe e op x events = x >>= fun a => e.counts >>= fun counts =>
      pure (a, events ++ [{ operation := op, counts }]) := by
  change ((x >>= fun a => pure (a, events)) >>= fun p =>
    ((e.counts >>= fun counts => pure (counts, p.2)) >>= fun q =>
      (pure (PUnit.unit, q.2 ++ [{ operation := op, counts := q.1 }]) : m _) >>= fun r =>
        pure (p.1, r.2))) = _
  simp only [bind_assoc, pure_bind]

/-- Noting down an operation does not change it. -/
theorem observe_erase (quiet : ∀ {α : Type} (a : α), (e.counts >>= fun _ => pure a) = pure a)
    {α : Type} (op : Operation Bit Fe) (x : m α) :
    (Lifting.erase (List (Event Bit Fe)) m).rel Eq (observe e op x) x := by
  intro events
  refine ⟨x >>= fun a => e.counts >>= fun counts =>
    pure ⟨((a, events ++ [{ operation := op, counts }]), a), rfl⟩, ?_, ?_⟩
  · simp only [map_bind, map_pure]
    exact (observe_run op x events).symm
  · simp only [map_bind, map_pure, quiet, bind_pure]

theorem traced_erase (quiet : ∀ {α : Type} (a : α), (e.counts >>= fun _ => pure a) = pure a) :
    EngineRel (Lifting.erase (List (Event Bit Fe)) m) (traced e) e Eq Eq (fun _ => Eq)
      (fun _ _ => True) where
  at_rel same := same
  constant _ := rfl
  bit i _ := observe_erase quiet _ (e.bit i)
  add left right := by rw [left, right]; rfl
  mul left right := by
    subst left right
    exact observe_erase quiet _ _
  zero same := by
    subst same
    exact Lifting.imp _ (observe_erase quiet _ _) fun _ _ _ => trivial
  zeroField same := by
    subst same
    exact Lifting.imp _ (observe_erase quiet _ _) fun _ _ _ => trivial
  pack rows := by
    rw [rows_eq.mp rows]
    rfl
  addField left right := by rw [left, right]; rfl
  product left right := by rw [left, right]; rfl
  within_pack _ := trivial
  within_add _ _ := trivial
  within_flag _ _ := trivial
  within_all _ := trivial
  fieldWitness _ same _ := by
    subst same
    exact Lifting.imp _ (observe_erase quiet _ _) fun _ _ same => rows_eq.mpr same
  permute keep rows := by
    rw [rows_eq.mp rows]
    exact Lifting.imp _ (observe_erase quiet _ _) fun _ _ same => rows_eq.mpr same

/-- Without the notes, the traced evaluation of the circuit is the evaluation. -/
theorem traced_statement (quiet : ∀ {α : Type} (a : α), (e.counts >>= fun _ => pure a) = pure a)
    (pub : Statement) (events : List (Event Bit Fe)) :
    Prod.fst <$> statement (traced e) pub events = statement e pub := by
  have sys := traced_erase (e := e) quiet
  have allocates := observe_erase quiet .allocate e.allocate
  have counts : (Lifting.erase (List (Event Bit Fe)) m).rel Eq (StateT.lift e.counts) e.counts := by
    intro events
    refine ⟨e.counts >>= fun counts => pure ⟨((counts, events), counts), rfl⟩, ?_, ?_⟩
    · simp only [map_bind, map_pure]
      rfl
    · simp only [map_bind, map_pure, bind_pure]
  have pads : (Lifting.erase (List (Event Bit Fe)) m).rel (fun _ _ => True)
      ((traced e).allocate >>= (traced e).zero) (e.allocate >>= e.zero) :=
    Lifting.bind _ allocates fun _ _ same => sys.zero same
  have whole := sys.statement_rel (sys.compares_of_order rfl) (sys.padding_rel counts pads) pub
  exact Lifting.erase_eq (Lifting.imp _ whole fun _ _ _ => rfl) events

theorem EventRel.imp {Rb' : Bit → Bit' → Prop} {Rf' : Fe → Fe' → Prop} {x : Event Bit Fe}
    {y : Event Bit' Fe'} (bits : ∀ a a', Rb a a' → Rb' a a') (elements : ∀ a a', Rf a a' → Rf' a a')
    (same : EventRel Rb Rf x y) : EventRel Rb' Rf' x y where
  counts := same.counts
  operation := by
    obtain ⟨operation, -⟩ := same
    generalize x.operation = op at operation ⊢
    generalize y.operation = op' at operation ⊢
    cases operation with
    | bit i => exact .bit i
    | allocate => exact .allocate
    | mul => exact .mul
    | zero related => exact .zero (bits _ _ related)
    | zeroField related => exact .zeroField (elements _ _ related)
    | fieldWitness k => exact .fieldWitness k
    | permute k => exact .permute k

end Traced

section Unchecked

variable {F : Type} [CommRing F] {d : Degree}

/-- What succeeds with validation also succeeds without it, and is the same. -/
def relaxed : Lifting Native Native where
  rel R x y := ∀ s r s', x s = .ok (r, s') → ∃ r', R r r' ∧ y s = .ok (r', s')
  pure same s r s' run := by
    cases run
    exact ⟨_, same, rfl⟩
  bind first next s r s' run := by
    obtain ⟨a, s₁, run, rest⟩ := Native.bind_eq_ok.mp run
    obtain ⟨b, same, run'⟩ := first s a s₁ run
    obtain ⟨r', result, rest'⟩ := next a b same s₁ r s' rest
    exact ⟨r', result, (Native.bind_ok run').trans rest'⟩

theorem relaxed_refl {α : Type} (x : Native α) : relaxed.rel Eq x x :=
  fun _ r _ run => ⟨r, rfl, run⟩

variable (n : NativeContext F d)

theorem relaxed_zero (a : Bool) : relaxed.rel (fun _ _ => True) (NativeContext.zero n a)
    (NativeContext.zero (n.validating false) a) := by
  intro s r s' run
  refine ⟨⟨⟩, trivial, ?_⟩
  unfold NativeContext.zero at run ⊢
  rw [NativeContext.count_bind] at run ⊢
  split at run
  · cases run
  · cases run
    rfl

theorem relaxed_zeroField (a : F) : relaxed.rel (fun _ _ => True) (NativeContext.zeroField n a)
    (NativeContext.zeroField (n.validating false) a) := by
  intro s r s' run
  refine ⟨⟨⟩, trivial, ?_⟩
  rw [zeroField_run] at run ⊢
  split at run
  · cases run
  · cases run
    rfl

theorem relaxed_rel : EngineRel relaxed n.engine (n.validating false).engine
    Eq Eq (fun _ => Eq) (fun _ _ => True) where
  at_rel same := same
  constant _ := rfl
  bit i _ := relaxed_refl _
  add left right := by rw [left, right]; rfl
  mul left right := by
    subst left right
    exact relaxed_refl _
  zero same := by
    subst same
    exact relaxed_zero n _
  zeroField same := by
    subst same
    exact relaxed_zeroField n _
  pack rows := by
    rw [rows_eq.mp rows]
    rfl
  addField left right := by rw [left, right]; rfl
  product left right := by rw [left, right]; rfl
  within_pack _ := trivial
  within_add _ _ := trivial
  within_flag _ _ := trivial
  within_all _ := trivial
  fieldWitness _ same _ := by
    subst same
    refine relaxed.bind (relaxed_refl _) ?_
    rintro out _ rfl
    exact relaxed.bind (relaxed_zeroField n _) fun _ _ _ => relaxed.pure (rows_eq.mpr rfl)
  permute keep rows := by
    rw [rows_eq.mp rows]
    exact Lifting.imp _ (relaxed_refl _) fun _ _ same => rows_eq.mpr same

theorem relaxed_statement (pub : Statement) {s s' : NativeState}
    (run : statement n.engine pub s = .ok (⟨⟩, s')) :
    statement (n.validating false).engine pub s = .ok (⟨⟩, s') := by
  have pads : relaxed.rel (fun _ _ => True) (n.engine.allocate >>= n.engine.zero)
      ((n.validating false).engine.allocate >>=
        (n.validating false).engine.zero) :=
    relaxed.bind (relaxed_refl _) fun _ _ same => (relaxed_rel n).zero same
  have whole := (relaxed_rel n).statement_rel ((relaxed_rel n).compares_of_order rfl)
    ((relaxed_rel n).padding_rel (relaxed_refl _) pads) pub
  obtain ⟨⟨⟩, -, run'⟩ := whole s ⟨⟩ s' run
  exact run'

end Unchecked

section Agreement

variable {F : Type} [CommRing F] {d : Degree}

section Evaluates

variable {α β γ : Type} {check : Bool} {W : Nat → Bool} {H : Prop} {R : α → β → Prop} {x : Native α}
  {y : Auth F β} {s s' : NativeState} {r : α}

theorem Evaluates.total (both : Evaluates false W H R x y) (started : Started W s) :
    ∃ r s', x s = .ok (r, s') ∧ s'.witness.Extends s.witness := by
  cases run : x s with
  | error err =>
    have checked := both.unchecked s err started run
    cases checked
  | ok result =>
    obtain ⟨grown, -⟩ := both.grows s result.1 result.2 started run
    exact ⟨result.1, result.2, rfl, grown⟩

theorem Evaluates.follows (both : Evaluates check W H R x y) (started : Started W s)
    (run : x s = .ok (r, s')) (agrees : Agrees W s'.witness) {start : Counts}
    (begins : s.counts = start) :
    ∃ b log, y start = ((b, s'.counts), log) ∧ R r b ∧ (H → Holds check log) := by
  subst begins
  obtain ⟨same, counts, holds⟩ := both.agrees s r s' started run agrees
  rw [← counts]
  exact ⟨_, _, rfl, same, holds⟩

theorem Native.map_run {f : α → γ} {z : Native γ} (mapped : f <$> x = z) (run : x s = .ok (r, s')) :
    z s = .ok (f r, s') := by
  rw [← mapped, map_eq_pure_bind]
  exact Native.bind_ok run

theorem Logged.map_run {σ ω : Type} {u : Logged σ ω α} {f : α → γ} {z : Logged σ ω γ} {t t' : σ}
    {log : List ω} (mapped : f <$> u = z) (run : u t = ((r, t'), log)) : z t = ((f r, t'), log) := by
  rw [← mapped, Logged.map_apply, run]

end Evaluates

theorem nativeStart_cursor (primary : List Byte) :
    (nativeStart primary).witness.cursor = 8 * kPrimaryBytes :=
  congrArg (8 * ·) (List.takeD_length kPrimaryBytes primary 0)

theorem nativeStart_counts (primary : List Byte) : (nativeStart primary).counts = authStart := by
  unfold NativeState.counts
  rw [nativeStart_cursor, Nat.mul_comm]
  rfl

theorem nativeStart_started (primary : List Byte) {s : NativeState}
    (later : s.witness.Extends (nativeStart primary).witness) :
    Started s.witness.bit (nativeStart primary) := by
  have size := nativeStart_cursor primary
  constructor
  · exact Nat.le_of_eq size.symm
  · intro i inside
    exact (later.bit_eq i (Nat.lt_of_lt_of_eq inside size.symm)).symm

variable (n : NativeContext F d)

theorem allocate_evaluates (W : Nat → Bool) (order : (step i : Nat) → Bool) {H : Prop} :
    Evaluates false W H (BitRel F) n.engine.allocate
      (AuthContext.over n.poly W order : AuthContext F d).engine.allocate := by
  refine .of_bits (l := [false]) false 0 0 (fun s => rfl) (fun t => rfl) (fun t stands => ?_)
    (fun _ t _ => ?_) (fun _ checked => nomatch checked) ⟨_, rfl⟩
  · exact congrArg (ofBit F) (stands_cons.mp stands).1
  · exact fun _ none => nomatch none

/-- The traced evaluations without validation. -/
theorem traced_evaluates (W : Nat → Bool) (pub : Statement) :
    Evaluates false W True (fun p q => True ∧ List.Forall₂ (EventRel (BitRel F) Eq) p.2 q.2)
      (statement (traced (n.validating false).engine) pub [])
      (statement (traced (AuthContext.over n.poly W n.leftFirst : AuthContext F d).engine) pub []) := by
  have base := contexts_rel (n.validating false) W n.leftFirst True
  have counts := counts_evaluates (n.validating false) W n.leftFirst True
  have sys := traced_rel base counts
  have pads := Lifting.bind _
    (observe_rel counts .allocate (allocate_evaluates (n.validating false) W n.leftFirst (H := True)))
    fun _ _ same => sys.zero same
  have whole := sys.statement_rel (sys.compares_of_order rfl)
    (sys.padding_rel (Lifting.stateT_lift _ counts) pads) pub
  exact whole [] [] .nil

/-- Without validation the native evaluation does not fail. -/
theorem native_total (pub : Statement) (primary : List Byte) : ∃ events final,
    statement (traced (n.validating false).engine) pub [] (nativeStart primary) =
      .ok ((⟨⟩, events), final) ∧
    statement (n.validating false).engine pub (nativeStart primary) = .ok (⟨⟩, final) ∧
    Started final.witness.bit (nativeStart primary) := by
  have start := nativeStart_started primary (.refl (nativeStart primary).witness)
  obtain ⟨⟨⟨⟩, events⟩, final, run, later⟩ :=
    (traced_evaluates n (nativeStart primary).witness.bit pub).total start
  have erased := traced_statement (e := (n.validating false).engine) (fun _ => rfl) pub []
  exact ⟨events, final, run, Native.map_run erased run, nativeStart_started primary later⟩

/-- The authenticated evaluation on the witness of the native one. -/
theorem auth_follows (pub : Statement) {primary : List Byte} {events : List (Event Bool F)}
    {final : NativeState}
    (run : statement (traced (n.validating false).engine) pub [] (nativeStart primary) =
      .ok ((⟨⟩, events), final)) (started : Started final.witness.bit (nativeStart primary)) :
    ∃ events' log,
      statement (traced (AuthContext.over n.poly final.witness.bit n.leftFirst :
        AuthContext F d).engine) pub [] authStart = (((⟨⟩, events'), final.counts), log) ∧
      List.Forall₂ (EventRel (BitRel F) Eq) events events' ∧ Holds false log := by
  obtain ⟨⟨⟨⟩, events'⟩, log, traceRun, ⟨-, same⟩, holds⟩ :=
    (traced_evaluates n final.witness.bit pub).follows started run (agrees_bit final.witness)
      (nativeStart_counts primary)
  exact ⟨events', log, traceRun, same, holds trivial⟩

end Agreement

end BlindSig.Voleith
