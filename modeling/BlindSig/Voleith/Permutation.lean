import BlindSig.Kkw.Gf128Field
import BlindSig.Voleith.Contexts

/-! The permutation in the two contexts: the native one writes the states after every stride, and
the constraints of the authenticated one say that these are what the witness holds. -/
namespace BlindSig.Voleith

open Kkw

section States

theorem lanes_flat {α : Type} (s : Lanes α) : lanes (flat s) = s := by
  funext y x z
  have row : (64 * (5 * y.val + x.val) + z.val) / 320 = y.val := by omega
  have column : (64 * (5 * y.val + x.val) + z.val) / 64 % 5 = x.val := by omega
  have bit : (64 * (5 * y.val + x.val) + z.val) % 64 = z.val := by omega
  simp [lanes, flat, row, column, bit]

theorem flat_lanes {α : Type} (v : Vector α 1600) : flat (lanes v) = v := by
  apply Vector.ext
  intro i hi
  have place : 64 * (5 * (i / 320) + i / 64 % 5) + i % 64 = i := by omega
  simp [lanes, flat, place]

variable {R : Type} [CommRing R]

/-- The bits of a row as elements. -/
def ofBits (R : Type) [CommRing R] {n : Nat} (v : Vector Bool n) : Vector R n :=
  Vector.ofFn fun i : Fin n => ofBit R v[i]

@[simp] theorem getElem_ofBits {n : Nat} (v : Vector Bool n) (i : Nat) (hi : i < n) :
    (ofBits R v)[i] = ofBit R v[i] := by
  simp [ofBits]

theorem lanes_ofBits (v : Vector Bool 1600) : lanes (ofBits R v) = ofLanes R (lanes v) := by
  funext y x z
  simp [lanes, ofLanes]

theorem flat_ofLanes (s : Lanes Bool) : flat (ofLanes R s) = ofBits R (flat s) := by
  apply Vector.ext
  intro i hi
  simp [flat, ofLanes]

/-- The bits of a witness from a place on. -/
def bitsAt (W : Nat → Bool) (c n : Nat) : Vector Bool n := Vector.ofFn fun i : Fin n => W (c + i)

theorem stands_toList {W : Nat → Bool} {c n : Nat} {v : Vector Bool n} :
    Stands W c v.toList ↔ bitsAt W c n = v := by
  constructor
  · intro stands
    apply Vector.ext
    intro i hi
    have place := stands i (by simpa using hi)
    simpa [bitsAt] using place
  · rintro rfl i inside
    simp [bitsAt]

end States

section Written

/-- The states after every stride. -/
def snapshots (d : Degree) (s : Lanes Bool) (strides : Nat) : List Bool :=
  (List.range strides).flatMap fun j => (flat (keccakRounds ((j + 1) * d.kKeccakStride) s)).toList

/-- The first bits of the permuted state. -/
def permuted (s : Lanes Bool) (keep : Nat) : Vector Bool keep :=
  Vector.ofFn fun i : Fin keep => (flat (keccakRounds 24 s))[i.val]?.getD false

/-- The bits behind the snapshots. -/
def lastWritten (d : Degree) (s : Lanes Bool) (keep : Nat) : List Bool :=
  match d with
  | .d64 => (permuted s keep).toList
  | _ => []

/-- What a permutation leaves in the witness. -/
def written (d : Degree) (s : Lanes Bool) (keep : Nat) : List Bool :=
  snapshots d s d.kKeccakSnapshots ++ lastWritten d s keep

theorem snapshots_succ (d : Degree) (s : Lanes Bool) (k : Nat) :
    snapshots d s (k + 1) =
      snapshots d s k ++ (flat (keccakRounds ((k + 1) * d.kKeccakStride) s)).toList := by
  unfold snapshots
  rw [List.range_succ, List.flatMap_append, List.flatMap_singleton]

@[simp] theorem length_snapshots (d : Degree) (s : Lanes Bool) (k : Nat) :
    (snapshots d s k).length = 1600 * k := by
  induction k with
  | zero => rfl
  | succ k ih =>
    rw [snapshots_succ, List.length_append, ih, Vector.length_toList]
    omega

end Written

section Native

theorem Native.bind_ok {α β : Type} {x : Native α} {f : α → Native β} {s s' : NativeState} {a : α}
    (run : x s = .ok (a, s')) : (x >>= f) s = f a s' := by
  change Except.bind (x s) _ = _
  rw [run]
  rfl

/-- Bits allocated one after the other. -/
theorem NativeContext.allocate_run {n : Nat} (f : Fin n → Bool) (s : NativeState) :
    Vector.ofFnM (fun i => allocate (f i)) s =
      .ok (Vector.ofFn f, { s with witness := s.witness.pushAll (Vector.ofFn f).toList }) := by
  induction n with
  | zero =>
    rw [Vector.ofFnM_zero]
    rfl
  | succ n ih =>
    rw [Vector.ofFnM_succ, Native.bind_ok (ih fun i => f i.castSucc), Vector.ofFn_succ,
      Vector.toList_push, PackedBits.pushAll_append]
    rfl

variable {F : Type} [CommRing F] {d : Degree} (c : NativeContext F d)

theorem NativeContext.snapshots_run (u : Vector Bool 1600) (start : Vector Bool 1600) {k : Nat}
    (inside : k ≤ d.kKeccakSnapshots) (s : NativeState) :
    (List.range k).foldlM (fun _ j => allocateWords (c.pomfrit.permuteTrace (packWords u)).2
        (1600 * j) 1600) start s =
      .ok (if k = 0 then start else flat (keccakRounds (k * d.kKeccakStride) (lanes u)),
        { s with witness := s.witness.pushAll (snapshots d (lanes u) k) }) := by
  induction k with
  | zero => rfl
  | succ k ih =>
    have bits : (Vector.ofFn fun i : Fin 1600 =>
        wordBit (c.pomfrit.permuteTrace (packWords u)).2 (1600 * k + i)) =
        flat (keccakRounds ((k + 1) * d.kKeccakStride) (lanes u)) := by
      apply Vector.ext
      intro i hi
      simpa using c.pomfrit.traced u k inside ⟨i, hi⟩
    have next := allocate_run (fun i : Fin 1600 =>
      wordBit (c.pomfrit.permuteTrace (packWords u)).2 (1600 * k + i))
      { s with witness := s.witness.pushAll (snapshots d (lanes u) k) }
    rw [bits] at next
    rw [List.range_succ, List.foldlM_append, Native.bind_ok (ih (Nat.le_of_succ_le inside)),
      List.foldlM_cons, allocateWords, Native.bind_ok next, if_neg (Nat.succ_ne_zero k),
      snapshots_succ, PackedBits.pushAll_append]
    rfl

theorem NativeContext.lastBits_run (u : Vector Bool 1600) (keep : Nat) (s : NativeState) :
    lastBits d (c.pomfrit.permuteTrace (packWords u)).1
        (flat (keccakRounds (d.kKeccakSnapshots * d.kKeccakStride) (lanes u))) keep s =
      .ok (permuted (lanes u) keep,
        { s with
          witness := s.witness.pushAll (lastWritten d (lanes u) keep)
          constraints := s.constraints + (lastWritten d (lanes u) keep).length }) := by
  have last : (Vector.ofFn fun i : Fin keep =>
      wordBit (c.pomfrit.permuteTrace (packWords u)).1 (0 + i)) = permuted (lanes u) keep := by
    apply Vector.ext
    intro i hi
    rcases Nat.lt_or_ge i 1600 with inside | outside
    · simpa [permuted, inside] using c.pomfrit.permuted u ⟨i, inside⟩
    · have behind : 25 ≤ i / 64 := by omega
      simp [permuted, wordBit, outside, behind]
  cases d with
  | d16 => rfl
  | d32 => rfl
  | d64 =>
    have run := allocate_run (fun i : Fin keep =>
      wordBit (c.pomfrit.permuteTrace (packWords u)).1 (0 + i)) s
    rw [last] at run
    unfold lastBits
    dsimp only
    rw [allocateWords, Native.bind_ok run, lastWritten, Vector.length_toList]
    rfl

/-- The native permutation writes the states and returns the permuted bits. -/
theorem NativeContext.permute_run (u : Vector Bool 1600) (keep : Nat) (s : NativeState) :
    permute c u keep s = .ok (permuted (lanes u) keep,
      { witness := s.witness.pushAll (written d (lanes u) keep)
        constraints := s.constraints + (written d (lanes u) keep).length
        permutations := s.permutations + 1 }) := by
  have run := snapshots_run c u u (Nat.le_refl _) s
  have some : d.kKeccakSnapshots ≠ 0 := by cases d <;> decide
  rw [if_neg some] at run
  have last := lastBits_run c u keep { s with
    witness := s.witness.pushAll (snapshots d (lanes u) d.kKeccakSnapshots)
    constraints := s.constraints + 1600 * d.kKeccakSnapshots }
  have counted : countConstraints (1600 * d.kKeccakSnapshots)
      { s with witness := s.witness.pushAll (snapshots d (lanes u) d.kKeccakSnapshots) } =
      .ok (⟨⟩, { s with
        witness := s.witness.pushAll (snapshots d (lanes u) d.kKeccakSnapshots)
        constraints := s.constraints + 1600 * d.kKeccakSnapshots }) := rfl
  unfold permute
  dsimp only
  rw [Native.bind_ok run, Native.bind_ok counted, Native.bind_ok last,
    written, PackedBits.pushAll_append, List.length_append, length_snapshots, ← Nat.add_assoc]
  rfl

end Native

section Forward

variable {R : Type} [CommRing R] [CharP R 2]

theorem forward_rounds {round n : Nat} (inside : round + n ≤ 24) (s : Lanes Bool) :
    AuthContext.forward round n (ofLanes R (keccakRounds round s)) =
      ofLanes R (keccakRounds (round + n) s) := by
  unfold AuthContext.forward
  induction n with
  | zero => rfl
  | succ n ih =>
    rw [List.range_succ, List.foldl_append, ih (by omega), List.foldl_cons, List.foldl_nil,
      ← Nat.add_assoc, keccakRounds_succ]
    exact keccakForward_round ⟨round + n, by omega⟩ _

theorem backward_rounds (last n : Nat) (inside : last < 24) (enough : n ≤ last + 1)
    (s : Lanes Bool) :
    AuthContext.backward last n (ofLanes R (keccakRounds (last + 1) s)) =
      ofLanes R (keccakRounds (last + 1 - n) s) := by
  unfold AuthContext.backward
  induction n with
  | zero => rfl
  | succ n ih =>
    rw [List.range_succ, List.foldl_append, ih (by omega), List.foldl_cons, List.foldl_nil]
    have before : last + 1 - n = last - n + 1 := by omega
    have after : last + 1 - (n + 1) = last - n := by omega
    rw [before, after, keccakRounds_succ]
    exact keccakBackward_round ⟨last - n, by omega⟩ _

end Forward

section Authenticated

variable {A : Type}

namespace AuthContext

variable {d : Degree} (c : AuthContext A d)

theorem allocateMany_run (n : Nat) (t : Counts) :
    allocateMany c n t =
      ((Vector.ofFn fun i : Fin n => c.witness (t.cursor + i),
        { t with cursor := t.cursor + n }), []) := by
  unfold allocateMany
  induction n with
  | zero =>
    rw [Vector.ofFnM_zero]
    rfl
  | succ n ih =>
    rw [Vector.ofFnM_succ, Logged.bind_apply, ih, Logged.bind_apply, Logged.pure_apply,
      Vector.ofFn_succ]
    rfl

/-- Bits that are allocated with a constraint each. -/
theorem bits_run {n : Nat} {f : Fin n → Auth A A}
    (each : ∀ i t, (f i t).1 = (c.witness t.cursor,
      { t with cursor := t.cursor + 1, constraints := t.constraints + 1 })) (t : Counts) :
    (Vector.ofFnM f t).1 = (Vector.ofFn fun i : Fin n => c.witness (t.cursor + i),
      { t with cursor := t.cursor + n, constraints := t.constraints + n }) := by
  induction n with
  | zero =>
    rw [Vector.ofFnM_zero]
    rfl
  | succ n ih =>
    have front := ih fun i => each i.castSucc
    rw [Vector.ofFnM_succ, Vector.ofFn_succ, Logged.bind_apply, Logged.bind_apply, front,
      each (Fin.last n)]
    rfl

/-- Constraints one after the other. -/
theorem constrain_run {n : Nat} (o : Origin) (value : Fin n → A) (t : Counts) :
    (List.finRange n).forM (fun i => constrain o (value i)) t =
      ((⟨⟩, { t with constraints := t.constraints + n }),
        (List.finRange n).map fun i => { origin := o, value := value i }) := by
  have list (l : List (Fin n)) (t : Counts) : l.forM (fun i => constrain o (value i)) t =
      ((⟨⟩, { t with constraints := t.constraints + l.length }),
        l.map fun i => { origin := o, value := value i }) := by
    induction l generalizing t with
    | nil => rfl
    | cons i l ih =>
      rw [List.forM_eq_forM, List.forM_cons, Logged.bind_apply, ← List.forM_eq_forM, ih,
        List.length_cons, Nat.add_comm l.length, ← Nat.add_assoc]
      rfl
  rw [list, List.length_finRange]

end AuthContext

variable [CommRing A]

/-- All values of a log are zero. -/
def Vanish (log : List (Constraint A)) : Prop := ∀ d ∈ log, d.value = 0

/-- No constraint of a log is one that the circuit states. -/
def Inner (log : List (Constraint A)) : Prop := ∀ d ∈ log, d.origin ≠ .explicit

theorem vanish_nil : Vanish ([] : List (Constraint A)) := fun _ none => nomatch none

theorem vanish_append {l l' : List (Constraint A)} :
    Vanish (l ++ l') ↔ Vanish l ∧ Vanish l' := List.forall_mem_append

theorem vanish_singleton {o : Origin} {a : A} : Vanish [{ origin := o, value := a }] ↔ a = 0 :=
  List.forall_mem_singleton

namespace AuthContext

variable {d : Degree} (c : AuthContext A d)

theorem meet_run (forward : Lanes A) (last n : Nat) (t : Counts) :
    meet c forward last n t =
      ((Vector.ofFn fun i : Fin 1600 => c.witness (t.cursor + i),
        { t with cursor := t.cursor + 1600, constraints := t.constraints + 1600 }),
        (List.finRange 1600).map fun i : Fin 1600 =>
          { origin := .snapshot
            value := (flat forward)[i] + (flat (backward last n (lanes
              (Vector.ofFn fun i : Fin 1600 => c.witness (t.cursor + i)))))[i] }) := by
  unfold meet
  rw [Logged.bind_apply, allocateMany_run, Logged.bind_apply, constrain_run, Logged.pure_apply,
    List.append_nil, List.nil_append]

end AuthContext

/-- The authenticated bits are those of a witness. -/
def AuthContext.Reads {d : Degree} (c : AuthContext A d) (W : Nat → Bool) : Prop :=
  ∀ i, c.witness i = ofBit A (W i)

variable {d : Degree} {c : AuthContext A d} {W : Nat → Bool}

theorem AuthContext.Reads.row (reads : c.Reads W) (cursor n : Nat) :
    (Vector.ofFn fun i : Fin n => c.witness (cursor + i)) = ofBits A (bitsAt W cursor n) := by
  apply Vector.ext
  intro i hi
  simp [bitsAt, reads (cursor + i)]

variable [CharP A 2]

omit [CharP A 2] in
theorem vanish_map {n : Nat} {o : Origin} {value : Fin n → A} :
    Vanish ((List.finRange n).map fun i => { origin := o, value := value i }) ↔
      ∀ i, value i = 0 := by
  unfold Vanish
  rw [List.forall_mem_map]
  constructor
  · intro all i
    exact all i (List.mem_finRange i)
  · intro all i _
    exact all i

omit [CharP A 2] [CommRing A] in
theorem inner_map {n : Nat} {o : Origin} (inner : o ≠ .explicit) {value : Fin n → A} :
    Inner ((List.finRange n).map fun i => { origin := o, value := value i }) := by
  intro d member
  obtain ⟨i, -, rfl⟩ := List.mem_map.mp member
  exact inner

/-- Two rows of bits whose sums are zero are the same. -/
theorem ofBits_add_eq_zero {n : Nat} {v w : Vector Bool n} :
    (∀ i : Fin n, (ofBits A v)[i] + (ofBits A w)[i] = 0) ↔ w = v := by
  have := CharP.nontrivial_of_char_ne_one (v := 2) (R := A) (by decide)
  constructor
  · intro zeros
    apply Vector.ext
    intro i hi
    have zero := zeros ⟨i, hi⟩
    rw [CharTwo.add_eq_zero] at zero
    simpa using (ofBit_injective A (by simpa using zero)).symm
  · rintro rfl i
    exact CharTwo.add_self_eq_zero _

/-- Any bits are those of a state that some rounds lead to. -/
theorem exists_rounds {n : Nat} (inside : n ≤ 24) (u : Vector Bool 1600) :
    ∃ s, flat (keccakRounds n s) = u := by
  obtain ⟨s, reached⟩ := (keccakRounds_bijective inside).surjective (lanes u)
  exact ⟨s, by rw [reached, flat_lanes]⟩

theorem flat_rounds_injective {n : Nat} (inside : n ≤ 24) {s s' : Lanes Bool}
    (same : flat (keccakRounds n s) = flat (keccakRounds n s')) : s = s' := by
  apply (keccakRounds_bijective inside).injective
  rw [← lanes_flat (keccakRounds n s), same, lanes_flat]

/-- A new state meets a state after `round` rounds exactly if it is the one after all rounds. -/
theorem meet_vanish (reads : c.Reads W) {round ahead back : Nat} (inside : round + ahead + back ≤ 24)
    (some : 0 < back) (s : Lanes Bool) (t : Counts) :
    Vanish (AuthContext.meet c (AuthContext.forward round ahead (ofLanes A (keccakRounds round s)))
        (round + ahead + back - 1) back t).2 ↔
      bitsAt W t.cursor 1600 = flat (keccakRounds (round + ahead + back) s) := by
  have := CharP.nontrivial_of_char_ne_one (v := 2) (R := A) (by decide)
  obtain ⟨u, reached⟩ := exists_rounds inside (bitsAt W t.cursor 1600)
  have last : round + ahead + back - 1 + 1 = round + ahead + back := by omega
  have lands : AuthContext.backward (round + ahead + back - 1) back
      (ofLanes A (lanes (bitsAt W t.cursor 1600))) = ofLanes A (keccakRounds (round + ahead) u) := by
    have whole := backward_rounds (R := A) (round + ahead + back - 1) back (by omega) (by omega) u
    rwa [last, ← lanes_flat (keccakRounds (round + ahead + back) u), reached,
      Nat.add_sub_cancel] at whole
  rw [AuthContext.meet_run, vanish_map, reads.row, lanes_ofBits, lands, forward_rounds (by omega),
    flat_ofLanes, flat_ofLanes, ofBits_add_eq_zero, ← reached]
  constructor
  · intro same
    rw [flat_rounds_injective (by omega) same]
  · intro same
    rw [flat_rounds_injective inside same]

/-- A computation that draws bits of the witness: it moves the counts on by as many bits and
constraints, and its constraints, all of them inner ones, say that the bits are `l`. -/
structure Draws {α : Type} (W : Nat → Bool) (x : Auth A α) (t : Counts) (l : List Bool) : Prop where
  counts : (x t).1.2 =
    { t with cursor := t.cursor + l.length, constraints := t.constraints + l.length }
  inner : Inner (x t).2
  vanish : Vanish (x t).2 ↔ Stands W t.cursor l

namespace Draws

variable {α β : Type} {x : Auth A α} {f : α → Auth A β} {t : Counts} {l l' : List Bool}

omit [CharP A 2] in
theorem pure (a : α) : Draws W (pure a : Auth A α) t [] where
  counts := rfl
  inner _ none := nomatch none
  vanish := iff_of_true vanish_nil stands_nil

omit [CharP A 2] in
theorem bind (first : Draws W x t l) (next : Draws W (f (x t).1.1) (x t).1.2 l') :
    Draws W (x >>= f) t (l ++ l') := by
  constructor
  · rw [Logged.bind_apply, next.counts, first.counts, List.length_append, Nat.add_assoc,
      Nat.add_assoc]
  · intro d member
    rcases List.mem_append.mp member with before | after
    · exact first.inner d before
    · exact next.inner d after
  · have place : (x t).1.2.cursor = t.cursor + l.length := by rw [first.counts]
    rw [Logged.bind_apply, vanish_append, first.vanish, next.vanish, stands_append, place]

omit [CharP A 2] in
/-- A row of computations, each of which draws one bit. -/
theorem ofFnM {n : Nat} {f : Fin n → Auth A α} {v : Vector Bool n}
    (each : ∀ i t, Draws W (f i) t [v[i]]) (t : Counts) : Draws W (Vector.ofFnM f) t v.toList := by
  induction n generalizing t with
  | zero =>
    obtain rfl : v = #v[] := Vector.eq_empty
    rw [Vector.ofFnM_zero]
    exact Draws.pure _
  | succ n ih =>
    obtain ⟨v, b, rfl⟩ : ∃ (front : Vector Bool n) (last : Bool), v = front.push last :=
      Vector.exists_push
    rw [Vector.ofFnM_succ, Vector.toList_push]
    refine (ih (fun i t => ?_) t).bind ?_
    · simpa using each i.castSucc t
    · have last := each (Fin.last n)
      simp only [getElem_fin, Fin.val_last, Vector.getElem_push_last] at last
      exact (last _).bind (Draws.pure _)

omit [CharP A 2] in
/-- The same bits, given those before them. -/
theorem congr (draws : Draws W x t l) (size : l.length = l'.length)
    (same : Stands W t.cursor l ↔ Stands W t.cursor l') : Draws W x t l' where
  counts := by rw [draws.counts, size]
  inner := draws.inner
  vanish := draws.vanish.trans same

end Draws

namespace AuthContext

theorem meet_draws (reads : c.Reads W) {round : Nat} (ahead back : Nat) (inside : round + ahead + back ≤ 24)
    (some : 0 < back) (s : Lanes Bool) (t : Counts) :
    Draws W (meet c (forward round ahead (ofLanes A (keccakRounds round s)))
      (round + ahead + back - 1) back) t (flat (keccakRounds (round + ahead + back) s)).toList := by
  constructor
  · rw [meet_run, Vector.length_toList]
  · rw [meet_run]
    apply inner_map
    decide
  · rw [meet_vanish reads inside some s t, stands_toList]

omit [CharP A 2] in
theorem meet_result (reads : c.Reads W) (forward : Lanes A) (last back : Nat) (t : Counts) :
    (meet c forward last back t).1.1 = ofBits A (bitsAt W t.cursor 1600) := by
  rw [meet_run]
  exact reads.row t.cursor 1600

theorem stride_draws (reads : c.Reads W) {round : Nat} (inside : round + d.kKeccakStride ≤ 24)
    (s : Lanes Bool) (t : Counts) :
    Draws W (stride c round (ofBits A (flat (keccakRounds round s)))) t
      (flat (keccakRounds (round + d.kKeccakStride) s)).toList := by
  unfold stride
  rw [lanes_ofBits, lanes_flat]
  cases d with
  | d16 => exact meet_draws reads 4 2 inside (by decide) s t
  | d32 => exact meet_draws reads 5 3 inside (by decide) s t
  | d64 => exact meet_draws reads 6 3 inside (by decide) s t

omit [CharP A 2] in
theorem stride_result (reads : c.Reads W) (round : Nat) (state : Vector A 1600) (t : Counts) :
    (stride c round state t).1.1 = ofBits A (bitsAt W t.cursor 1600) := by
  unfold stride
  cases d with
  | d16 => exact meet_result reads _ _ _ t
  | d32 => exact meet_result reads _ _ _ t
  | d64 => exact meet_result reads _ _ _ t

omit [CharP A 2] in
theorem strides_succ (k : Nat) (state : Vector A 1600) :
    strides c (k + 1) state = strides c k state >>= stride c (k * d.kKeccakStride) := by
  unfold strides
  rw [List.range_succ, List.foldlM_append]
  simp only [List.foldlM_cons, List.foldlM_nil, bind_pure]

/-- The constraints of the strides say that the witness holds the states after each. -/
theorem strides_draws (reads : c.Reads W) (u : Vector Bool 1600) (t : Counts) {k : Nat}
    (inside : k * d.kKeccakStride ≤ 24) :
    Draws W (strides c k (ofBits A u)) t (snapshots d (lanes u) k) ∧
      ∃ reached : Vector Bool 1600, (strides c k (ofBits A u) t).1.1 = ofBits A reached ∧
        (Stands W t.cursor (snapshots d (lanes u) k) →
          reached = flat (keccakRounds (k * d.kKeccakStride) (lanes u))) := by
  induction k with
  | zero =>
    refine ⟨Draws.pure _, u, rfl, fun _ => ?_⟩
    rw [Nat.zero_mul]
    exact (flat_lanes u).symm
  | succ k ih =>
    rw [Nat.succ_mul] at inside
    have fewer : k * d.kKeccakStride ≤ 24 := Nat.le_trans (Nat.le_add_right _ _) inside
    obtain ⟨first, before, result, holds⟩ := ih fewer
    -- Any bits are a state after so many rounds of some state.
    obtain ⟨s, rfl⟩ := exists_rounds fewer before
    have next := stride_draws reads inside s (strides c k (ofBits A u) t).1.2
    have same : Stands W t.cursor (snapshots d (lanes u) k) → s = lanes u := fun stands =>
      flat_rounds_injective fewer (holds stands)
    rw [← result] at next
    rw [strides_succ, snapshots_succ, Nat.succ_mul]
    refine ⟨(first.bind next).congr ?_ ?_, bitsAt W (strides c k (ofBits A u) t).1.2.cursor 1600, ?_,
      fun stands => ?_⟩
    · rw [List.length_append, List.length_append, Vector.length_toList, Vector.length_toList]
    · rw [stands_append, stands_append]
      exact and_congr_right fun stands => by rw [same stands]
    · exact stride_result reads _ _ _
    · have place : (strides c k (ofBits A u) t).1.2.cursor =
          t.cursor + (snapshots d (lanes u) k).length := by rw [first.counts]
      rw [place]
      exact stands_toList.mp (stands_append.mp stands).2

theorem commitBits_draws (reads : c.Reads W) (v : Vector Bool 1600) (keep : Nat) (t : Counts) :
    Draws W (commitBits c (ofBits A v) keep) t
      (Vector.ofFn fun i : Fin keep => v[i.val]?.getD false).toList := by
  have nontrivial := CharP.nontrivial_of_char_ne_one (v := 2) (R := A) (by decide)
  refine Draws.ofFnM (fun i t => ?_) t
  have value : (ofBits A v)[i.val]?.getD (ofBit A false) = ofBit A (v[i.val]?.getD false) := by
    rcases Nat.lt_or_ge i.val 1600 with inside | outside
    · rw [Vector.getElem?_eq_getElem inside, Vector.getElem?_eq_getElem inside]
      exact getElem_ofBits v i.val inside
    · rw [Vector.getElem?_eq_none outside, Vector.getElem?_eq_none outside]
      rfl
  rw [value]
  constructor
  · rfl
  · exact List.forall_mem_singleton.mpr fun same => Origin.noConfusion same
  · change Vanish [{ origin := .snapshot, value := ofBit A _ + c.witness t.cursor }] ↔ _
    rw [vanish_singleton, reads, CharTwo.add_eq_zero, (ofBit_injective A).eq_iff]
    simp [Stands, eq_comm]

omit [CharP A 2] in
theorem commitBits_result (reads : c.Reads W) (state : Vector A 1600) (keep : Nat) (t : Counts) :
    (commitBits c state keep t).1.1 = ofBits A (bitsAt W t.cursor keep) := by
  have run := bits_run (c := c) (f := fun i : Fin keep => do
    let b ← allocate c
    constrain .snapshot (state[i.val]?.getD (ofBit A false) + b)
    return b) (fun _ _ => rfl) t
  exact (congrArg Prod.fst run).trans (reads.row t.cursor keep)

/-- The last bits, from the state after the last whole stride. -/
theorem lastBits_draws (reads : c.Reads W) (s : Lanes Bool) (keep : Nat) (t : Counts) :
    Draws W (lastBits c (ofBits A
        (flat (keccakRounds (d.kKeccakSnapshots * d.kKeccakStride) s))) keep) t
      (lastWritten d s keep) := by
  cases d with
  | d16 => exact Draws.pure _
  | d32 => exact Draws.pure _
  | d64 =>
    have last : flat (forward 18 6 (lanes (ofBits A (flat (keccakRounds 18 s))))) =
        ofBits A (flat (keccakRounds 24 s)) := by
      rw [lanes_ofBits, lanes_flat, forward_rounds (by decide), flat_ofLanes]
    change Draws W (commitBits c (flat (forward 18 6 (lanes (ofBits A
      (flat (keccakRounds 18 s)))))) keep) t _
    rw [last]
    exact commitBits_draws reads _ keep t

omit [CharP A 2] in
theorem lastBits_result (reads : c.Reads W) (s : Lanes Bool) (keep : Nat) (t : Counts)
    (stands : Stands W t.cursor (lastWritten d s keep)) :
    (lastBits c (ofBits A (flat (keccakRounds (d.kKeccakSnapshots * d.kKeccakStride) s))) keep
      t).1.1 = ofBits A (permuted s keep) := by
  have kept (v : Vector Bool 1600) : (Vector.ofFn fun i : Fin keep =>
      (ofBits A v)[i.val]?.getD (ofBit A false)) =
      ofBits A (Vector.ofFn fun i : Fin keep => v[i.val]?.getD false) := by
    apply Vector.ext
    intro i hi
    rcases Nat.lt_or_ge i 1600 with inside | outside
    · simp [inside]
    · simp [outside]
  cases d with
  | d16 => exact kept _
  | d32 => exact kept _
  | d64 =>
    change (commitBits c _ keep t).1.1 = _
    rw [commitBits_result reads]
    exact congrArg (ofBits A) (stands_toList.mp stands)

/-- The constraints of a permutation say that the witness holds what the native one writes. -/
theorem rounds_draws (reads : c.Reads W) (u : Vector Bool 1600) (keep : Nat) (t : Counts) :
    Draws W (rounds c (ofBits A u) keep) t (written d (lanes u) keep) ∧
      (Stands W t.cursor (written d (lanes u) keep) →
        (rounds c (ofBits A u) keep t).1.1 = ofBits A (permuted (lanes u) keep)) := by
  have inside : d.kKeccakSnapshots * d.kKeccakStride ≤ 24 := Nat.div_mul_le_self 24 _
  obtain ⟨first, before, result, holds⟩ := strides_draws reads u t inside
  obtain ⟨s, rfl⟩ := exists_rounds inside before
  have same : Stands W t.cursor (snapshots d (lanes u) d.kKeccakSnapshots) → s = lanes u :=
    fun stands => flat_rounds_injective inside (holds stands)
  have place : (strides c d.kKeccakSnapshots (ofBits A u) t).1.2.cursor =
      t.cursor + (snapshots d (lanes u) d.kKeccakSnapshots).length := by rw [first.counts]
  have next := lastBits_draws reads s keep (strides c d.kKeccakSnapshots (ofBits A u) t).1.2
  have last := lastBits_result reads s keep (strides c d.kKeccakSnapshots (ofBits A u) t).1.2
  rw [← result] at next last
  constructor
  · refine (first.bind next).congr ?_ ?_
    · cases d <;> simp [written, lastWritten]
    · unfold written
      rw [stands_append, stands_append]
      exact and_congr_right fun stands => by rw [same stands]
  · intro stands
    obtain ⟨whole, after⟩ := stands_append.mp stands
    rw [place, same whole] at last
    exact last after

omit [CharP A 2] in
theorem permute_run (v : Vector A 1600) (keep : Nat) (t : Counts) :
    permute c v keep t = (((rounds c v keep t).1.1, { (rounds c v keep t).1.2 with
      permutations := (rounds c v keep t).1.2.permutations + 1 }), (rounds c v keep t).2) := by
  have run : permute c v keep t = (((rounds c v keep t).1.1, { (rounds c v keep t).1.2 with
      permutations := (rounds c v keep t).1.2.permutations + 1 }), (rounds c v keep t).2 ++ []) := rfl
  rw [run, List.append_nil]

end AuthContext

end Authenticated

section Exact

variable {F : Type} [CommRing F]

theorem AuthContext.over_reads {d : Degree} (P : Poly128 F) (W : Nat → Bool)
    (leftFirst : (step i : Nat) → Bool) : (AuthContext.over P W leftFirst : AuthContext F d).Reads W :=
  fun _ => rfl

theorem stands_snapshots {W : Nat → Bool} {c : Nat} {d : Degree} {s : Lanes Bool} {k : Nat} :
    Stands W c (snapshots d s k) ↔ ∀ j < k, ∀ i : Fin 1600, W (c + 1600 * j + i) =
      (flat (keccakRounds ((j + 1) * d.kKeccakStride) s))[i] := by
  induction k with
  | zero =>
    refine iff_of_true stands_nil ?_
    intro j none
    exact absurd none (Nat.not_lt_zero j)
  | succ k ih =>
    rw [snapshots_succ, stands_append, ih, length_snapshots, Nat.forall_lt_succ_right]
    refine and_congr_right fun _ => ?_
    unfold Stands
    constructor
    · intro stands i
      simpa using stands i (by simp)
    · intro places i inside
      simpa using places ⟨i, by simpa using inside⟩

/-- The polynomials are the round and its inverse, and the constraints of a permutation vanish
exactly if the witness holds its states and, with degree 64, its last bits. -/
theorem keccak_constraints_exact (P : Poly128 F) :
    (∀ (round : Fin 24) (s : Lanes Bool),
      keccakForward round (ofLanes F s) = ofLanes F (keccakRound round s) ∧
      keccakBackward round (keccakForward round (ofLanes F s)) = ofLanes F s ∧
      keccakForward round (keccakBackward round (ofLanes F s)) = ofLanes F s) ∧
    (∀ s : Lanes Bool, inverseTheta (ofLanes F (theta s)) = ofLanes F s ∧
      ∃ t, theta t = s ∧ inverseTheta (ofLanes F s) = ofLanes F t) ∧
    ∀ (d : Degree) (W : Nat → Bool) (leftFirst : (step i : Nat) → Bool) (u : Vector Bool 1600)
      (keep : Nat) (t : Counts),
      Vanish (AuthContext.permute (d := d) (.over P W leftFirst) (ofBits F u) keep t).2 ↔
        (∀ j < d.kKeccakSnapshots, ∀ i : Fin 1600, W (t.cursor + 1600 * j + i) =
          (flat (keccakRounds ((j + 1) * d.kKeccakStride) (lanes u)))[i]) ∧
        (d = .d64 → ∀ i : Fin keep, W (t.cursor + 1600 * d.kKeccakSnapshots + i) =
          (flat (keccakRounds 24 (lanes u)))[i.val]?.getD false) := by
  have two := P.charTwo
  refine ⟨fun round s => ⟨keccakForward_round round s, ?_, keccakForward_backward round s⟩,
    fun s => ⟨inverseTheta_theta s, ?_⟩, ?_⟩
  · rw [keccakForward_round, keccakBackward_round]
  · obtain ⟨t, rfl⟩ := theta_bijective.surjective s
    exact ⟨t, rfl, inverseTheta_theta t⟩
  · intro d W leftFirst u keep t
    obtain ⟨draws, -⟩ := AuthContext.rounds_draws (AuthContext.over_reads (d := d) P W leftFirst) u
      keep t
    rw [AuthContext.permute_run, draws.vanish, written, stands_append, stands_snapshots,
      length_snapshots]
    refine and_congr_right fun _ => ?_
    cases d with
    | d16 => exact iff_of_true stands_nil fun other => Degree.noConfusion other
    | d32 => exact iff_of_true stands_nil fun other => Degree.noConfusion other
    | d64 =>
      unfold lastWritten permuted
      rw [stands_toList]
      constructor
      · intro same _ i
        have place := congrArg (fun v => v[i]) same
        simpa [bitsAt] using place
      · intro places
        apply Vector.ext
        intro i hi
        simpa [bitsAt] using places rfl ⟨i, hi⟩

end Exact

section Instances

/-! The upstream parts have instances: the field of 2^128 elements and the permutation on words. -/

noncomputable def gf128Poly : Poly128 Gf128 where
  load := .ofBijective _ (BinaryField.packed_bijective gf128Modulus_eq)
  load_xor := BinaryField.packed_xor
  load_one := by
    have one : (1 : BitVec 128) = BitVec.twoPow 128 0 := by decide +kernel
    rw [one, Equiv.ofBijective_apply, BinaryField.packed_twoPow (by decide), pow_zero]

/-- The bits of the words of a state. -/
def unpackWords (words : Vector (BitVec 64) 25) : Vector Bool 1600 :=
  Vector.ofFn fun i : Fin 1600 => wordBit words i

theorem wordBit_packWords (bits : Vector Bool 1600) {i : Nat} (inside : i < 1600) :
    wordBit (packWords bits) i = bits[i] := by
  have word : i / 64 < 25 := Nat.div_lt_of_lt_mul inside
  have low : i % 64 < 64 := Nat.mod_lt i (by decide)
  rw [wordBit, Vector.getElem?_eq_getElem word, Option.getD_some]
  simp only [packWords, Vector.getElem_ofFn]
  rw [getLsbD_packBits _ low]
  simp [low, Nat.div_add_mod]

theorem unpack_packWords (bits : Vector Bool 1600) : unpackWords (packWords bits) = bits := by
  apply Vector.ext
  intro i hi
  simp [unpackWords, wordBit_packWords bits hi]

/-- The words of the state after each of four strides. -/
def traceWords (d : Degree) (words : Vector (BitVec 64) 25) : Vector (BitVec 64) 100 :=
  Vector.ofFn fun w : Fin 100 => (packWords (flat (keccakRounds ((w.val / 25 + 1) * d.kKeccakStride)
    (lanes (unpackWords words)))))[w.val % 25]

theorem wordBit_traceWords (d : Degree) (bits : Vector Bool 1600) (j : Nat)
    (inside : j < d.kKeccakSnapshots) (i : Fin 1600) :
    wordBit (traceWords d (packWords bits)) (1600 * j + i) =
      (flat (keccakRounds ((j + 1) * d.kKeccakStride) (lanes bits)))[i] := by
  have few : d.kKeccakSnapshots ≤ 4 := by cases d <;> decide
  have word : (1600 * j + i.val) / 64 < 100 := by omega
  have snapshot : (1600 * j + i.val) / 64 / 25 = j := by omega
  have place : (1600 * j + i.val) / 64 % 25 = i.val / 64 := by omega
  have bit : (1600 * j + i.val) % 64 = i.val % 64 := by omega
  have entry := wordBit_packWords (flat (keccakRounds ((j + 1) * d.kKeccakStride) (lanes bits)))
    i.isLt
  rw [wordBit, Vector.getElem?_eq_getElem (by omega : i.val / 64 < 25)] at entry
  rw [wordBit, Vector.getElem?_eq_getElem word, traceWords, Vector.getElem_ofFn, unpack_packWords]
  simp only [snapshot, place, bit]
  exact entry

def pomfritWords (d : Degree) : Pomfrit d where
  permuteTrace words :=
    (packWords (flat (keccakRounds 24 (lanes (unpackWords words)))), traceWords d words)
  permuted bits i := by
    rw [unpack_packWords]
    exact wordBit_packWords _ i.isLt
  traced := wordBit_traceWords d

/-- The state of zeros, with degree 64 and 512 last bits: the constraints vanish on a witness that
holds what it should, and not on its negation. -/
theorem keccak_constraints_zeros :
    let zeros : Vector Bool 1600 := .replicate _ false
    let held (i : Nat) : Bool := (flat (keccakRounds
      (min 24 ((i / 1600 + 1) * Degree.d64.kKeccakStride)) (lanes zeros)))[Fin.ofNat 1600 i]
    let vanish (W : Nat → Bool) : Prop := Vanish (AuthContext.permute (d := .d64)
      (.over gf128Poly W fun _ _ => true) (ofBits Gf128 zeros) 512
      { cursor := 0, constraints := 0, permutations := 0 }).2
    vanish held ∧ ¬ vanish fun i => !held i := by
  intro zeros held vanish
  have exactly (W : Nat → Bool) : vanish W ↔ _ :=
    (keccak_constraints_exact gf128Poly).2.2 .d64 W (fun _ _ => true) zeros 512 _
  have bit (k j : Nat) (rounds : min 24 ((j + 1) * Degree.d64.kKeccakStride) = k) (i : Fin 1600) :
      held (0 + 1600 * j + i) = (flat (keccakRounds k (lanes zeros)))[i] := by
    have snapshot : (0 + 1600 * j + i.val) / 1600 = j := by omega
    have place : Fin.ofNat 1600 (0 + 1600 * j + i.val) = i := Fin.ext (by simp)
    simp only [held, snapshot, place, rounds]
  constructor
  · refine (exactly held).mpr ⟨fun j few i => ?_, fun _ i => ?_⟩
    · refine bit _ j (Nat.min_eq_right ?_) i
      have : j < 2 := few
      simp only [Degree.kKeccakStride]
      omega
    · have inside : i.val < 1600 := Nat.lt_trans i.isLt (by decide)
      rw [Vector.getElem?_eq_getElem inside]
      exact bit 24 2 rfl ⟨i, inside⟩
  · intro negated
    have first := ((exactly _).mp negated).1 0 (by decide) 0
    exact Bool.not_ne_self _ (first.trans (bit 9 0 rfl 0).symm)

end Instances

end BlindSig.Voleith
