import BlindSig.Kkw.Shared
import BlindSig.Lib.FisherYates
import Mathlib.SetTheory.Cardinal.Finite

/-! The expansion of the Fiat–Shamir seed: the generator hands out one stream of bytes, every draw
takes the next of them, and what is drawn is unbiased. -/
namespace BlindSig.Kkw

open FisherYates

section Accepted

variable {w : Nat}

/-- The values below the last multiple of the bound. -/
def acceptLimit (w bound : Nat) : Nat := bound * (2 ^ w / bound)

theorem acceptLimit_eq (w bound : Nat) : acceptLimit w bound = 2 ^ w - 2 ^ w % bound :=
  Nat.eq_sub_of_add_eq (Nat.div_add_mod (2 ^ w) bound)

theorem acceptLimit_le (w bound : Nat) : acceptLimit w bound ≤ 2 ^ w :=
  Nat.mul_div_le (2 ^ w) bound

theorem residue_lt {bound v q : Nat} (below : v < bound) (hq : q < 2 ^ w / bound) :
    bound * q + v < acceptLimit w bound :=
  calc bound * q + v < bound * q + bound := Nat.add_lt_add_left below _
    _ = bound * (q + 1) := (Nat.mul_succ bound q).symm
    _ ≤ bound * (2 ^ w / bound) := Nat.mul_le_mul_left bound hq

/-- The accepted values of one residue, in order. -/
def residueEquiv {bound v : Nat} (below : v < bound) :
    {r : BitVec w // r.toNat < acceptLimit w bound ∧ r.toNat % bound = v} ≃ Fin (2 ^ w / bound) where
  toFun r := ⟨r.val.toNat / bound, Nat.div_lt_of_lt_mul r.property.1⟩
  invFun q := ⟨BitVec.ofNat w (bound * q + v), by
    have small := residue_lt below q.isLt
    have value : (BitVec.ofNat w (bound * q + v)).toNat = bound * q + v :=
      Nat.mod_eq_of_lt (Nat.lt_of_lt_of_le small (acceptLimit_le w bound))
    rw [value, Nat.mul_add_mod, Nat.mod_eq_of_lt below]
    exact ⟨small, rfl⟩⟩
  left_inv r := by
    apply Subtype.ext
    change BitVec.ofNat w (bound * (r.val.toNat / bound) + v) = r.val
    have split := Nat.div_add_mod r.val.toNat bound
    rw [r.property.2] at split
    rw [split, BitVec.ofNat_toNat, BitVec.setWidth_eq]
  right_inv q := by
    apply Fin.ext
    change (BitVec.ofNat w (bound * q.val + v)).toNat / bound = q.val
    have small := Nat.lt_of_lt_of_le (residue_lt below q.isLt) (acceptLimit_le w bound)
    have quotient : (bound * q.val + v) / bound = q.val := by
      rw [Nat.mul_add_div (Nat.zero_lt_of_lt below), Nat.div_eq_of_lt below, Nat.add_zero]
    rw [BitVec.toNat_ofNat, Nat.mod_eq_of_lt small, quotient]

theorem card_residue {bound v : Nat} (below : v < bound) :
    Nat.card {r : BitVec w // r.toNat < acceptLimit w bound ∧ r.toNat % bound = v} =
      2 ^ w / bound := by
  rw [Nat.card_congr (residueEquiv below), Nat.card_fin]

end Accepted

section Stream

variable (H : Hasher) (seedFS : Vector Byte 32)

/-- The block of the generator with a given counter. -/
def prgBlock (c : Nat) : Vector Byte 32 :=
  kkwTh H kkwDomPrg (seedFS ++ putEpochBe (BitVec.ofNat 32 c)).toList

/-- Byte `i` of the stream: the blocks in order, each from its first byte to its last. -/
def prgStream (i : Nat) : Byte := (prgBlock H seedFS (i / 32))[i % 32]?.getD 0

/-- Four bytes of the stream, most significant first. -/
def streamWord (stream : Nat → Byte) (i : Nat) : Word :=
  (List.range 4).foldl (fun (v : Word) k => v <<< 8 ||| (stream (i + k)).setWidth 32) 0

/-- `i` bytes of the stream have been handed out. -/
def PrgAt (i : Nat) (p : PrgCtx) : Prop :=
  ∃ c, p.state = seedFS ∧ p.buf = prgBlock H seedFS c ∧ p.ctr = BitVec.ofNat 32 (c + 1) ∧
    p.pos ≤ 32 ∧ i = 32 * c + p.pos

variable {H seedFS} {i : Nat} {p : PrgCtx}

theorem prgInit_at : PrgAt H seedFS 0 (prgInit H seedFS) :=
  ⟨0, rfl, rfl, rfl, Nat.zero_le _, rfl⟩

theorem prgByte_at (start : PrgAt H seedFS i p) :
    (prgByte H p).1 = prgStream H seedFS i ∧ PrgAt H seedFS (i + 1) (prgByte H p).2 := by
  obtain ⟨c, state, buf, ctr, inside, rfl⟩ := start
  rcases Nat.lt_or_ge p.pos 32 with within | full
  · have quotient : (32 * c + p.pos) / 32 = c := by omega
    have remainder : (32 * c + p.pos) % 32 = p.pos := by omega
    rw [prgByte, if_neg (Nat.not_le.mpr within), prgStream, quotient, remainder, ← buf]
    exact ⟨rfl, c, state, buf, ctr, within, rfl⟩
  · have last : p.pos = 32 := Nat.le_antisymm inside full
    have quotient : (32 * c + p.pos) / 32 = c + 1 := by omega
    have remainder : (32 * c + p.pos) % 32 = 0 := by omega
    have refilled : (prgFill H p).buf = prgBlock H seedFS (c + 1) := by
      rw [prgFill, prgBlock, state, ctr]
    rw [prgByte, if_pos full, prgStream, quotient, remainder, ← refilled]
    refine ⟨rfl, c + 1, state, refilled, ?_, Nat.succ_le_succ (Nat.zero_le _), ?_⟩
    · change p.ctr + 1 = _
      rw [ctr]
      exact (BitVec.ofNat_add (c + 1) 1).symm
    · change 32 * c + p.pos + 1 = 32 * (c + 1) + (0 + 1)
      omega

theorem prgU32_at (start : PrgAt H seedFS i p) :
    (prgU32 H p).1 = streamWord (prgStream H seedFS) i ∧ PrgAt H seedFS (i + 4) (prgU32 H p).2 := by
  have steps (n : Nat) : ∃ q, (List.range n).foldl (fun (s : Word × PrgCtx) _ =>
        (s.1 <<< 8 ||| (prgByte H s.2).1.setWidth 32, (prgByte H s.2).2)) ((0 : Word), p) =
      ((List.range n).foldl (fun (v : Word) k =>
        v <<< 8 ||| (prgStream H seedFS (i + k)).setWidth 32) 0, q) ∧
      PrgAt H seedFS (i + n) q := by
    induction n with
    | zero => exact ⟨p, rfl, start⟩
    | succ n ih =>
      obtain ⟨q, reached, here⟩ := ih
      obtain ⟨byte, next⟩ := prgByte_at here
      rw [List.range_succ, List.foldl_append, List.foldl_append, reached]
      refine ⟨(prgByte H q).2, ?_, next⟩
      simp [byte]
  obtain ⟨q, reached, here⟩ := steps 4
  have whole : prgU32 H p = ((List.range 4).foldl (fun (v : Word) k =>
      v <<< 8 ||| (prgStream H seedFS (i + k)).setWidth 32) 0, q) := reached
  rw [whole]
  exact ⟨rfl, here⟩

/-- A draw at position `i` of the stream: values that are not below the limit are passed over, the
first one below it is taken modulo the bound, and position `i'` is next. -/
def Drawn {w : Nat} (value : Nat → BitVec w) (width limit bound i v i' : Nat) : Prop :=
  ∃ k, (∀ t, t < k → limit ≤ (value (i + width * t)).toNat) ∧
    (value (i + width * k)).toNat < limit ∧ v = (value (i + width * k)).toNat % bound ∧
    i' = i + width * (k + 1)

theorem Drawn.later {w : Nat} {value : Nat → BitVec w} {width limit bound i v i' : Nat}
    (refused : limit ≤ (value i).toNat) (drawn : Drawn value width limit bound (i + width) v i') :
    Drawn value width limit bound i v i' := by
  obtain ⟨k, passed, taken, rfl, rfl⟩ := drawn
  have shift (t : Nat) : i + width + width * t = i + width * (t + 1) := by
    rw [Nat.mul_succ]
    omega
  refine ⟨k + 1, fun t below => ?_, ?_, ?_, shift (k + 1)⟩
  · cases t with
    | zero => exact refused
    | succ t =>
      rw [← shift]
      exact passed t (Nat.lt_of_succ_lt_succ below)
  · rwa [← shift]
  · rw [← shift]

theorem Drawn.lt {w : Nat} {value : Nat → BitVec w} {width limit bound i v i' : Nat}
    (positive : 0 < bound) (drawn : Drawn value width limit bound i v i') : v < bound := by
  obtain ⟨k, -, -, rfl, -⟩ := drawn
  exact Nat.mod_lt _ positive

theorem prgBelow_at {bound fuel : Nat} {v : Nat} {p' : PrgCtx} (start : PrgAt H seedFS i p)
    (drawn : prgBelow H bound fuel p = some (v, p')) : ∃ i', PrgAt H seedFS i' p' ∧
      Drawn (streamWord (prgStream H seedFS)) 4 (2 ^ 32 - 2 ^ 32 % bound) bound i v i' := by
  induction fuel generalizing i p with
  | zero => cases drawn
  | succ fuel ih =>
    obtain ⟨word, next⟩ := prgU32_at start
    simp only [prgBelow, word] at drawn
    split at drawn
    · next refused =>
      obtain ⟨i', reached, later⟩ := ih next drawn
      exact ⟨i', reached, later.later refused⟩
    · next taken =>
      cases drawn
      exact ⟨i + 4, next, 0, nofun, Nat.lt_of_not_le taken, rfl, rfl⟩

theorem prgParty_at {n fuel : Nat} {party : Fin (n + 1)} {p' : PrgCtx} (start : PrgAt H seedFS i p)
    (drawn : prgParty H n fuel p = some (party, p')) : ∃ i', PrgAt H seedFS i' p' ∧
      Drawn (prgStream H seedFS) 1 ((n + 1) * (256 / (n + 1))) (n + 1) i party.val i' := by
  induction fuel generalizing i p with
  | zero => cases drawn
  | succ fuel ih =>
    obtain ⟨byte, next⟩ := prgByte_at start
    simp only [prgParty, byte] at drawn
    split at drawn
    · next refused =>
      obtain ⟨i', reached, later⟩ := ih next drawn
      exact ⟨i', reached, later.later refused⟩
    · next taken =>
      cases drawn
      exact ⟨i + 1, next, 0, nofun, Nat.lt_of_not_le taken, rfl, rfl⟩

/-- The shuffle's draws come one after the other, and its array is the arrangement they make. -/
theorem shuffle_at {M fuel : Nat} {p' : PrgCtx} {arr : Vector (Fin M) M} (n : Nat)
    (start : PrgAt H seedFS 0 p) (run : (List.range n).foldlM (fun (arr, p) i => do
      let (r, p) ← prgBelow H (M - i) fuel p
      pure (arr.swapIfInBounds i (i + r), p)) (Vector.finRange M, p) = some (arr, p')) :
    ∃ draws pos : Nat → Nat, pos 0 = 0 ∧ PrgAt H seedFS (pos n) p' ∧
      (∀ k, k < n → Drawn (streamWord (prgStream H seedFS)) 4 (2 ^ 32 - 2 ^ 32 % (M - k)) (M - k)
        (pos k) (draws k) (pos (k + 1))) ∧
      ∀ k, arr.get k = arrangement M draws n k := by
  induction n generalizing arr p' with
  | zero =>
    cases run
    refine ⟨fun _ => 0, fun _ => 0, rfl, start, nofun, fun k => ?_⟩
    simp [arrangement, Vector.get]
  | succ n ih =>
    rw [List.range_succ, List.foldlM_append] at run
    obtain ⟨⟨front, q⟩, before, last⟩ := Option.bind_eq_some_iff.mp run
    obtain ⟨draws, pos, zero, here, drawn, entries⟩ := ih before
    obtain ⟨⟨back, q'⟩, step, done⟩ := Option.bind_eq_some_iff.mp last
    obtain ⟨⟨r, p''⟩, draw, swapped⟩ := Option.bind_eq_some_iff.mp step
    cases done
    cases swapped
    obtain ⟨i', next, taken⟩ := prgBelow_at here draw
    refine ⟨Function.update draws n r, Function.update pos (n + 1) i', ?_, ?_, ?_, ?_⟩
    · exact zero
    · rwa [Function.update_self]
    · intro k below
      rcases Nat.lt_succ_iff_lt_or_eq.mp below with earlier | rfl
      · rw [Function.update_of_ne (by omega), Function.update_of_ne (by omega),
          Function.update_of_ne (by omega)]
        exact drawn k earlier
      · rw [Function.update_self, Function.update_self, Function.update_of_ne (by omega)]
        exact taken
    · intro k
      rw [get_swapIfInBounds, entries, arrangement_succ, Equiv.Perm.mul_apply, Function.update_self]
      congr 1
      exact arrangement_congr fun l below => (Function.update_of_ne (by omega) ..).symm

/-- What every round of a loop that may stop keeps. -/
theorem foldlM_finRange_some {σ : Type} {n : Nat} {f : σ → Fin n → Option σ} (stage : Nat → σ → Prop)
    {a b : σ} (start : stage 0 a)
    (step : ∀ (i : Fin n) s s', stage i s → f s i = some s' → stage (i + 1) s')
    (run : (List.finRange n).foldlM f a = some b) : stage n b := by
  induction n generalizing a stage with
  | zero =>
    cases run
    exact start
  | succ n ih =>
    rw [List.finRange_succ, List.foldlM_cons] at run
    obtain ⟨next, first, rest⟩ := Option.bind_eq_some_iff.mp run
    rw [List.foldlM_map] at rest
    exact ih (fun i => stage (i + 1)) (step 0 a next start first) (fun i => step i.succ) rest

/-- The hidden parties are drawn one after the other. -/
theorem parties_at {n rounds fuel start : Nat} {p' : PrgCtx} {pOut : Vector (Fin (n + 1)) rounds}
    (first : PrgAt H seedFS start p) (run : (List.finRange rounds).foldlM (fun (pOut, prg) k => do
      let (party, prg) ← prgParty H n fuel prg
      pure (pOut.set k party, prg)) (Vector.replicate rounds 0, p) = some (pOut, p')) :
    ∃ pos : Nat → Nat, pos 0 = start ∧ ∀ k : Fin rounds, Drawn (prgStream H seedFS) 1
      ((n + 1) * (256 / (n + 1))) (n + 1) (pos k) pOut[k].val (pos (k + 1)) := by
  let stage (i : Nat) (s : Vector (Fin (n + 1)) rounds × PrgCtx) : Prop := ∃ pos : Nat → Nat,
    pos 0 = start ∧ PrgAt H seedFS (pos i) s.2 ∧ ∀ k : Fin rounds, k.val < i →
      Drawn (prgStream H seedFS) 1 ((n + 1) * (256 / (n + 1))) (n + 1) (pos k) s.1[k].val (pos (k + 1))
  have whole : stage rounds (pOut, p') := by
    refine foldlM_finRange_some stage ⟨fun _ => start, rfl, first, nofun⟩ ?_ run
    rintro i ⟨row, q⟩ s' ⟨pos, zero, here, drawn⟩ step
    obtain ⟨⟨party, q'⟩, draw, done⟩ := Option.bind_eq_some_iff.mp step
    cases done
    obtain ⟨i', next, taken⟩ := prgParty_at here draw
    refine ⟨Function.update pos (i + 1) i', zero, by rwa [Function.update_self], ?_⟩
    intro k below
    rcases Nat.lt_succ_iff_lt_or_eq.mp below with earlier | last
    · have other : i.val ≠ k.val := Nat.ne_of_gt earlier
      rw [Function.update_of_ne (by omega), Function.update_of_ne (by omega)]
      simpa [Vector.getElem_set, other] using drawn k earlier
    · obtain rfl : k = i := Fin.ext last
      rw [Function.update_of_ne (by omega), Function.update_self]
      simpa using taken
  obtain ⟨pos, zero, -, drawn⟩ := whole
  exact ⟨pos, zero, fun k => drawn k k.isLt⟩

end Stream

section Ending

variable {H : Hasher} {seedFS : Vector Byte 32}

theorem prgBelow_succ (bound fuel : Nat) (p : PrgCtx) : prgBelow H bound (fuel + 1) p =
    if (prgU32 H p).1.toNat ≥ 2 ^ 32 - 2 ^ 32 % bound then prgBelow H bound fuel (prgU32 H p).2
    else some ((prgU32 H p).1.toNat % bound, (prgU32 H p).2) := rfl

theorem prgParty_succ (n fuel : Nat) (p : PrgCtx) : prgParty H n (fuel + 1) p =
    if (prgByte H p).1.toNat ≥ (n + 1) * (256 / (n + 1)) then prgParty H n fuel (prgByte H p).2
    else some (Fin.ofNat (n + 1) (prgByte H p).1.toNat, (prgByte H p).2) := rfl

/-- What a loop returns within some draws it returns within more. -/
theorem prgBelow_more {bound fuel more : Nat} {p : PrgCtx} {out : Nat × PrgCtx}
    (drawn : prgBelow H bound fuel p = some out) (enough : fuel ≤ more) :
    prgBelow H bound more p = some out := by
  induction fuel generalizing p more with
  | zero => cases drawn
  | succ fuel ih =>
    obtain ⟨rest, rfl⟩ := Nat.exists_eq_add_of_lt enough
    rw [prgBelow_succ] at drawn ⊢
    split at drawn
    · next refused =>
      rw [if_pos refused]
      exact ih drawn (Nat.le_add_right ..)
    · next taken =>
      rw [if_neg taken]
      exact drawn

theorem prgParty_more {n fuel more : Nat} {p : PrgCtx} {out : Fin (n + 1) × PrgCtx}
    (drawn : prgParty H n fuel p = some out) (enough : fuel ≤ more) :
    prgParty H n more p = some out := by
  induction fuel generalizing p more with
  | zero => cases drawn
  | succ fuel ih =>
    obtain ⟨rest, rfl⟩ := Nat.exists_eq_add_of_lt enough
    rw [prgParty_succ] at drawn ⊢
    split at drawn
    · next refused =>
      rw [if_pos refused]
      exact ih drawn (Nat.le_add_right ..)
    · next taken =>
      rw [if_neg taken]
      exact drawn

/-- A loop whose rounds may stop: if every round goes on as before, so does the loop. -/
theorem foldlM_some_congr {σ α : Type} {f g : σ → α → Option σ}
    (same : ∀ s a s', f s a = some s' → g s a = some s') {l : List α} {a b : σ}
    (run : l.foldlM f a = some b) : l.foldlM g a = some b := by
  induction l generalizing a with
  | nil => exact run
  | cons x l ih =>
    rw [List.foldlM_cons] at run ⊢
    obtain ⟨next, first, rest⟩ := Option.bind_eq_some_iff.mp run
    exact Option.bind_eq_some_iff.mpr ⟨next, same _ _ _ first, ih rest⟩

/-- A loop ends if from every stage some number of draws leads to the next one. -/
theorem foldlM_ends {σ α : Type} {f : Nat → σ → α → Option σ}
    (more : ∀ {fuel fuel' s a s'}, f fuel s a = some s' → fuel ≤ fuel' → f fuel' s a = some s')
    {l : List α} (stage : Nat → σ → Prop) (step : ∀ (k : Nat) (inside : k < l.length) s, stage k s →
      ∃ fuel s', f fuel s l[k] = some s' ∧ stage (k + 1) s') {a : σ} (start : stage 0 a) :
    ∃ fuel b, l.foldlM (f fuel) a = some b ∧ stage l.length b := by
  induction l generalizing a stage with
  | nil => exact ⟨0, a, rfl, start⟩
  | cons x l ih =>
    obtain ⟨fuel, next, first, here⟩ := step 0 (Nat.succ_pos _) a start
    obtain ⟨fuel', b, rest, reached⟩ := ih (fun k => stage (k + 1))
      (fun k inside => step (k + 1) (Nat.succ_lt_succ inside)) here
    refine ⟨max fuel fuel', b, ?_, reached⟩
    rw [List.foldlM_cons]
    refine Option.bind_eq_some_iff.mpr ⟨next, more first (Nat.le_max_left ..), ?_⟩
    exact foldlM_some_congr (fun s a s' taken => more taken (Nat.le_max_right ..)) rest

theorem shuffle_more {P : Params} {fuel more : Nat} {p : PrgCtx}
    {out : Vector (Fin P.mKkw) P.mKkw × PrgCtx} (shuffled : shuffle H P fuel p = some out)
    (enough : fuel ≤ more) : shuffle H P more p = some out := by
  refine foldlM_some_congr ?_ shuffled
  rintro ⟨arr, q⟩ i out' step
  obtain ⟨drawn, draw, done⟩ := Option.bind_eq_some_iff.mp step
  exact Option.bind_eq_some_iff.mpr ⟨drawn, prgBelow_more draw enough, done⟩

theorem kkwFsExpand_more {P : Params} {fuel more : Nat} {c : Challenge P}
    (expanded : kkwFsExpand H P fuel seedFS = some c) (enough : fuel ≤ more) :
    kkwFsExpand H P more seedFS = some c := by
  obtain ⟨arranged, shuffled, rest⟩ := Option.bind_eq_some_iff.mp expanded
  obtain ⟨drawn, parties, done⟩ := Option.bind_eq_some_iff.mp rest
  refine Option.bind_eq_some_iff.mpr ⟨arranged, shuffle_more shuffled enough, ?_⟩
  refine Option.bind_eq_some_iff.mpr ⟨drawn, foldlM_some_congr ?_ parties, done⟩
  rintro ⟨pOut, q⟩ k out' step
  obtain ⟨drawn, draw, done⟩ := Option.bind_eq_some_iff.mp step
  exact Option.bind_eq_some_iff.mpr ⟨drawn, prgParty_more draw enough, done⟩

variable {i i' : Nat} {p : PrgCtx}

/-- A draw that the stream has a value for ends. -/
theorem prgBelow_ends {bound v : Nat} (start : PrgAt H seedFS i p)
    (drawn : Drawn (streamWord (prgStream H seedFS)) 4 (2 ^ 32 - 2 ^ 32 % bound) bound i v i') :
    ∃ fuel p', prgBelow H bound fuel p = some (v, p') ∧ PrgAt H seedFS i' p' := by
  obtain ⟨k, passed, taken, rfl, rfl⟩ := drawn
  induction k generalizing i p with
  | zero =>
    obtain ⟨word, next⟩ := prgU32_at start
    have accepted : ¬ (streamWord (prgStream H seedFS) i).toNat ≥ 2 ^ 32 - 2 ^ 32 % bound :=
      Nat.not_le.mpr taken
    refine ⟨1, _, ?_, next⟩
    rw [prgBelow_succ, word, if_neg accepted]
    rfl
  | succ k ih =>
    have shift (t : Nat) : i + 4 + 4 * t = i + 4 * (t + 1) := by omega
    obtain ⟨word, next⟩ := prgU32_at start
    have later := ih next (fun t below => by
      rw [shift]
      exact passed (t + 1) (Nat.succ_lt_succ below)) (by rwa [shift])
    obtain ⟨fuel, p', drawn, reached⟩ := later
    rw [shift] at drawn
    rw [shift] at reached
    refine ⟨fuel + 1, p', ?_, reached⟩
    have refused : (streamWord (prgStream H seedFS) i).toNat ≥ 2 ^ 32 - 2 ^ 32 % bound :=
      passed 0 (Nat.succ_pos k)
    rw [prgBelow_succ, word, if_pos refused]
    exact drawn

theorem prgParty_ends {n v : Nat} (start : PrgAt H seedFS i p)
    (drawn : Drawn (prgStream H seedFS) 1 ((n + 1) * (256 / (n + 1))) (n + 1) i v i') :
    ∃ fuel party p', prgParty H n fuel p = some (party, p') ∧ PrgAt H seedFS i' p' := by
  obtain ⟨k, passed, taken, -, rfl⟩ := drawn
  induction k generalizing i p with
  | zero =>
    obtain ⟨byte, next⟩ := prgByte_at start
    have accepted : ¬ (prgStream H seedFS i).toNat ≥ (n + 1) * (256 / (n + 1)) :=
      Nat.not_le.mpr taken
    refine ⟨1, Fin.ofNat (n + 1) (prgStream H seedFS i).toNat, (prgByte H p).2, ?_, next⟩
    rw [prgParty_succ, byte, if_neg accepted]
  | succ k ih =>
    have shift (t : Nat) : i + 1 + 1 * t = i + 1 * (t + 1) := by omega
    obtain ⟨byte, next⟩ := prgByte_at start
    have later := ih next (fun t below => by
      rw [shift]
      exact passed (t + 1) (Nat.succ_lt_succ below)) (by rwa [shift])
    obtain ⟨fuel, party, p', drawn, reached⟩ := later
    rw [shift] at reached
    refine ⟨fuel + 1, party, p', ?_, reached⟩
    have refused : (prgStream H seedFS i).toNat ≥ (n + 1) * (256 / (n + 1)) :=
      passed 0 (Nat.succ_pos k)
    rw [prgParty_succ, byte, if_pos refused]
    exact drawn

/-- Every rejection loop comes to a value that it takes: the loops of the shuffle, then those of
the parties, each from where the one before it stopped. -/
def LoopsEnd (P : Params) (stream : Nat → Byte) : Prop :=
  ∃ pos : Nat → Nat, pos 0 = 0 ∧
    (∀ i : Fin P.numRounds, ∃ v, Drawn (streamWord stream) 4 (2 ^ 32 - 2 ^ 32 % (P.mKkw - i))
      (P.mKkw - i) (pos i) v (pos (i + 1))) ∧
    ∀ k : Fin P.numRounds, ∃ v, Drawn stream 1 (P.parties * (256 / P.parties)) P.parties
      (pos (P.numRounds + k)) v (pos (P.numRounds + k + 1))

theorem shuffle_ends {P : Params} {pos : Nat → Nat} (start : PrgAt H seedFS (pos 0) p)
    (ends : ∀ i : Fin P.numRounds, ∃ v, Drawn (streamWord (prgStream H seedFS)) 4
      (2 ^ 32 - 2 ^ 32 % (P.mKkw - i)) (P.mKkw - i) (pos i) v (pos (i + 1))) :
    ∃ fuel out, shuffle H P fuel p = some out ∧ PrgAt H seedFS (pos P.numRounds) out.2 := by
  have run := foldlM_ends (l := List.range P.numRounds)
    (f := fun fuel (s : Vector (Fin P.mKkw) P.mKkw × PrgCtx) i => do
      let (r, p) ← prgBelow H (P.mKkw - i) fuel s.2
      pure (s.1.swapIfInBounds i (i + r), p))
    (fun taken enough => by
      obtain ⟨drawn, draw, done⟩ := Option.bind_eq_some_iff.mp taken
      exact Option.bind_eq_some_iff.mpr ⟨drawn, prgBelow_more draw enough, done⟩)
    (fun i s => PrgAt H seedFS (pos i) s.2) ?_ (a := (Vector.finRange P.mKkw, p)) start
  · obtain ⟨fuel, out, shuffled, reached⟩ := run
    rw [List.length_range] at reached
    exact ⟨fuel, out, shuffled, reached⟩
  · rintro k inside ⟨arr, q⟩ here
    rw [List.length_range] at inside
    obtain ⟨v, drawn⟩ := ends ⟨k, inside⟩
    obtain ⟨fuel, q', draw, next⟩ := prgBelow_ends here drawn
    refine ⟨fuel, (arr.swapIfInBounds k (k + v), q'), ?_, next⟩
    rw [List.getElem_range]
    exact Option.bind_eq_some_iff.mpr ⟨(v, q'), draw, rfl⟩

theorem parties_ends {n rounds start : Nat} {pos : Nat → Nat}
    (first : PrgAt H seedFS (pos start) p) (ends : ∀ k : Fin rounds, ∃ v, Drawn (prgStream H seedFS) 1
      ((n + 1) * (256 / (n + 1))) (n + 1) (pos (start + k)) v (pos (start + k + 1))) :
    ∃ fuel out, (List.finRange rounds).foldlM (fun (pOut, prg) k => do
      let (party, prg) ← prgParty H n fuel prg
      pure (pOut.set k party, prg)) ((Vector.replicate rounds 0 : Vector (Fin (n + 1)) rounds), p) =
        some out := by
  have run := foldlM_ends (l := List.finRange rounds)
    (f := fun fuel (s : Vector (Fin (n + 1)) rounds × PrgCtx) (k : Fin rounds) => do
      let (party, prg) ← prgParty H n fuel s.2
      pure (s.1.set k party, prg))
    (fun taken enough => by
      obtain ⟨drawn, draw, done⟩ := Option.bind_eq_some_iff.mp taken
      exact Option.bind_eq_some_iff.mpr ⟨drawn, prgParty_more draw enough, done⟩)
    (fun k s => PrgAt H seedFS (pos (start + k)) s.2) ?_ (a := (Vector.replicate rounds 0, p)) first
  · obtain ⟨fuel, out, drawn, -⟩ := run
    exact ⟨fuel, out, drawn⟩
  · rintro k inside ⟨pOut, q⟩ here
    rw [List.length_finRange] at inside
    obtain ⟨v, drawn⟩ := ends ⟨k, inside⟩
    obtain ⟨fuel, party, q', draw, next⟩ := prgParty_ends here drawn
    refine ⟨fuel, _, Option.bind_eq_some_iff.mpr ⟨(party, q'), draw, rfl⟩, next⟩

/-- If every loop comes to a value that it takes, some number of draws is enough. -/
theorem kkwFsExpand_ends {P : Params} (ends : LoopsEnd P (prgStream H seedFS)) :
    ∃ fuel c, kkwFsExpand H P fuel seedFS = some c := by
  obtain ⟨pos, zero, words, bytes⟩ := ends
  obtain ⟨fuel, arranged, shuffled, here⟩ := shuffle_ends (zero ▸ prgInit_at) words
  obtain ⟨fuel', drawn, parties⟩ := parties_ends here bytes
  let c : Challenge P := ⟨sortInts (Vector.ofFn fun k : Fin P.numRounds =>
    arranged.1.get ⟨k, Nat.lt_trans k.isLt P.rounds_lt⟩), drawn.1⟩
  refine ⟨max fuel fuel', c, ?_⟩
  refine Option.bind_eq_some_iff.mpr ⟨arranged, shuffle_more shuffled (Nat.le_max_left ..), ?_⟩
  refine Option.bind_eq_some_iff.mpr ⟨drawn, foldlM_some_congr ?_ parties, rfl⟩
  rintro ⟨pOut, q⟩ k out' step
  obtain ⟨drawn, draw, done⟩ := Option.bind_eq_some_iff.mp step
  exact Option.bind_eq_some_iff.mpr ⟨drawn, prgParty_more draw (Nat.le_max_right ..), done⟩

end Ending

section Sorting

variable {m k : Nat}

theorem sortInts_perm (v : Vector (Fin m) k) : (sortInts v).toList.Perm v.toList := by
  have sorted : (sortInts v).toList = v.toList.mergeSort (· ≤ ·) := rfl
  rw [sorted]
  exact List.mergeSort_perm ..

/-- Different entries end up in strictly increasing order. -/
theorem sortInts_strict {v : Vector (Fin m) k} (distinct : v.toList.Nodup) (i j : Fin k)
    (below : i < j) : (sortInts v)[i] < (sortInts v)[j] := by
  have ordered : (sortInts v).toList.Pairwise fun a b => decide (a ≤ b) = true := by
    refine List.pairwise_mergeSort ?_ ?_ v.toList
    · intro a b c first second
      exact decide_eq_true (le_trans (of_decide_eq_true first) (of_decide_eq_true second))
    · intro a b
      simpa using le_total a b
  have apart : (sortInts v).toList.Nodup := (sortInts_perm v).nodup_iff.mpr distinct
  have strict := ordered.and apart
  have pair := List.pairwise_iff_getElem.mp strict i j (by simp) (by simp) below
  simp only [Vector.getElem_toList] at pair
  exact lt_of_le_of_ne (of_decide_eq_true pair.1) pair.2

end Sorting

section Result

variable {P : Params}

/-- A challenge is made of draws from the stream. -/
theorem kkwFsExpand_drawn {H : Hasher} {fuel : Nat} {seedFS : Vector Byte 32} {c : Challenge P}
    (expanded : kkwFsExpand H P fuel seedFS = some c) :
    (∀ i j : Fin P.numRounds, i < j → c.cOut[i] < c.cOut[j]) ∧
      ∃ (draws : Draws P.mKkw P.numRounds) (pos : Nat → Nat), pos 0 = 0 ∧
        (∀ i : Fin P.numRounds, Drawn (streamWord (prgStream H seedFS)) 4
          (2 ^ 32 - 2 ^ 32 % (P.mKkw - i)) (P.mKkw - i) (pos i) (draws i).val (pos (i + 1))) ∧
        (∀ k : Fin P.numRounds, Drawn (prgStream H seedFS) 1 (P.parties * (256 / P.parties)) P.parties
          (pos (P.numRounds + k)) c.pOut[k].val (pos (P.numRounds + k + 1))) ∧
        c.cOut = sortInts (Vector.ofFn (select P.rounds_lt.le draws)) ∧
        c.cOut.toList.toFinset = Finset.univ.map (select P.rounds_lt.le draws) := by
  obtain ⟨⟨arr, prg⟩, shuffled, rest⟩ := Option.bind_eq_some_iff.mp expanded
  obtain ⟨⟨pOut, last⟩, parties, done⟩ := Option.bind_eq_some_iff.mp rest
  cases done
  obtain ⟨numbers, pos, zero, here, drawn, entries⟩ := shuffle_at P.numRounds prgInit_at shuffled
  obtain ⟨pos', first, drawn'⟩ := parties_at here parties
  have left (i : Fin P.numRounds) : 0 < P.mKkw - i := by
    have few := P.rounds_lt
    omega
  let draws : Draws P.mKkw P.numRounds := fun i =>
    ⟨numbers i, (drawn i i.isLt).lt (left i)⟩
  have selected : (Vector.ofFn fun k : Fin P.numRounds =>
      arr.get ⟨k, Nat.lt_trans k.isLt P.rounds_lt⟩) = Vector.ofFn (select P.rounds_lt.le draws) := by
    have same : arrangement P.mKkw numbers P.numRounds = arrangement P.mKkw draws.at P.numRounds :=
      arrangement_congr fun k below => (draws.at_of_lt below).symm
    congr 1
    funext k
    rw [entries, same]
    rfl
  have distinct : (Vector.ofFn (select P.rounds_lt.le draws)).toList.Nodup := by
    rw [Vector.toList_ofFn]
    exact List.nodup_ofFn.mpr (select P.rounds_lt.le draws).injective
  rw [selected]
  -- The parties' positions go on where the shuffle's end.
  let joined (i : Nat) : Nat := if i ≤ P.numRounds then pos i else pos' (i - P.numRounds)
  have early {i : Nat} (inside : i ≤ P.numRounds) : joined i = pos i := if_pos inside
  have late (k : Nat) : joined (P.numRounds + k) = pos' k := by
    rcases Nat.eq_zero_or_pos k with rfl | some
    · exact (early (Nat.le_refl _)).trans first.symm
    · have outside : ¬ P.numRounds + k ≤ P.numRounds := by omega
      exact (if_neg outside).trans (congrArg pos' (Nat.add_sub_cancel_left ..))
  refine ⟨sortInts_strict distinct, draws, joined, (early (Nat.zero_le _)).trans zero, ?_, ?_, rfl,
    ?_⟩
  · intro i
    rw [early (Nat.le_of_lt i.isLt), early i.isLt]
    exact drawn i i.isLt
  · intro k
    rw [late, Nat.add_assoc, late]
    exact drawn' k
  · apply Finset.ext
    intro x
    rw [List.mem_toFinset, (sortInts_perm _).mem_iff, Vector.toList_ofFn, List.mem_ofFn,
      Finset.mem_map]
    simp

/-- A challenge is returned exactly where the loops end. -/
theorem kkwFsExpand_isSome {H : Hasher} {seedFS : Vector Byte 32} :
    LoopsEnd P (prgStream H seedFS) ↔ ∃ fuel c, kkwFsExpand H P fuel seedFS = some c := by
  constructor
  · exact kkwFsExpand_ends
  · rintro ⟨fuel, c, expanded⟩
    obtain ⟨-, draws, pos, zero, words, bytes, -⟩ := kkwFsExpand_drawn expanded
    exact ⟨pos, zero, fun i => ⟨_, words i⟩, fun k => ⟨_, bytes k⟩⟩

end Result

/-- Where the rejection loops end, and only there, a challenge is returned, the same for any larger
number of draws allowed. It is well formed, its draws take the bytes of the stream in order and no
draw prefers a value; the draws of the shuffle correspond to the ordered selections, so that every
set of instances has the same number of them. -/
theorem fs_expand_uniform (P : Params) :
    (∀ H seedFS, (LoopsEnd P (prgStream H seedFS) ↔ ∃ fuel c, kkwFsExpand H P fuel seedFS = some c) ∧
      ∀ fuel c, kkwFsExpand H P fuel seedFS = some c → ∀ more, fuel ≤ more →
        kkwFsExpand H P more seedFS = some c) ∧
    (∀ H fuel seedFS c, kkwFsExpand H P fuel seedFS = some c →
      (∀ i j : Fin P.numRounds, i < j → c.cOut[i] < c.cOut[j]) ∧
      ∃ (draws : Draws P.mKkw P.numRounds) (pos : Nat → Nat), pos 0 = 0 ∧
        (∀ i : Fin P.numRounds, Drawn (streamWord (prgStream H seedFS)) 4
          (2 ^ 32 - 2 ^ 32 % (P.mKkw - i)) (P.mKkw - i) (pos i) (draws i).val (pos (i + 1))) ∧
        (∀ k : Fin P.numRounds, Drawn (prgStream H seedFS) 1 (P.parties * (256 / P.parties)) P.parties
          (pos (P.numRounds + k)) c.pOut[k].val (pos (P.numRounds + k + 1))) ∧
        c.cOut = sortInts (Vector.ofFn (select P.rounds_lt.le draws)) ∧
        c.cOut.toList.toFinset = Finset.univ.map (select P.rounds_lt.le draws)) ∧
    (∀ bound v, v < bound → Nat.card {r : Word //
      r.toNat < 2 ^ 32 - 2 ^ 32 % bound ∧ r.toNat % bound = v} = 2 ^ 32 / bound) ∧
    (∀ party, party < P.parties → Nat.card {r : Byte //
      r.toNat < P.parties * (256 / P.parties) ∧ r.toNat % P.parties = party} = 256 / P.parties) ∧
    Function.Bijective (select P.rounds_lt.le : Draws P.mKkw P.numRounds → _) ∧
    ∀ C : Finset (Fin P.mKkw), C.card = P.numRounds →
      Fintype.card {draws : Draws P.mKkw P.numRounds //
        Finset.univ.map (select P.rounds_lt.le draws) = C} = P.numRounds.factorial := by
  refine ⟨fun H seedFS => ⟨kkwFsExpand_isSome, fun fuel c expanded more => kkwFsExpand_more expanded⟩,
    fun H fuel seedFS c => kkwFsExpand_drawn, ?_, fun party below => card_residue (w := 8) below,
    select_bijective P.rounds_lt.le, fun C size => card_select_eq P.rounds_lt.le size⟩
  intro bound v below
  rw [← acceptLimit_eq]
  exact card_residue below

/-- Parameters whose number of parties rejects every other byte. -/
def sampleParams : Params where
  others := 128
  mKkw := 12
  numRounds := 5
  grindW := 3
  others_ge := by decide
  others_le := by decide
  rounds_lt := by decide
  grindW_lt := by decide

/-- The challenge of the zero seed: ten bytes are refused on the way, up to five in a row, and the
bytes come from two blocks. -/
theorem fs_expand_uniform_sample :
    LoopsEnd sampleParams (prgStream singleChunkBlake3.toHasher (Vector.replicate 32 0)) ∧
    ∃ c : Challenge sampleParams, (∀ more, 6 ≤ more →
      kkwFsExpand singleChunkBlake3.toHasher sampleParams more (Vector.replicate 32 0) = some c) ∧
      (∀ i j : Fin sampleParams.numRounds, i < j → c.cOut[i] < c.cOut[j]) ∧
      c.pOut.toList.map Fin.val = [21, 49, 25, 36, 6] := by
  obtain ⟨returned, drawn, -⟩ := fs_expand_uniform sampleParams
  obtain ⟨ends, more⟩ := returned singleChunkBlake3.toHasher (Vector.replicate 32 0)
  have shown : (kkwFsExpand singleChunkBlake3.toHasher sampleParams 6 (Vector.replicate 32 0)).map
      (fun c => c.pOut.toList.map Fin.val) = some [21, 49, 25, 36, 6] := by decide +kernel
  obtain ⟨c, expanded, parties⟩ := Option.map_eq_some_iff.mp shown
  exact ⟨ends.mpr ⟨6, c, expanded⟩, c, more 6 c expanded, (drawn _ _ _ _ expanded).1, parties⟩

end BlindSig.Kkw
