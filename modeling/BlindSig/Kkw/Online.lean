import BlindSig.Kkw.Shared

/-! The online phase: what the verifier recomputes of one opened instance. A run on the
prover's messages recomputes the prover's run; and two runs with different hidden parties
that recompute one matrix of broadcasts pin the prover's run down, whoever sent them. -/
namespace BlindSig.Kkw

open XorGroup Prog

section Verify

/-- `z`: the revealed seeds, the masked witness, the hidden party's broadcasts. -/
structure ZProof (n : Nat) where
  ke : Vector Seed n
  xOffset : Witness
  aux : Vector Word ySize
  msgsE : Vector Word ySize
  comHidden : Vector Byte 32
  rJ : Vector Byte 32
  deriving DecidableEq

/-- What `verify` computes, with the broadcasts it recomputes on the way. -/
structure Verified (n : Nat) where
  error : Bool
  zhOut : Vector Word 8
  sSlots : Vector (Vector Word ySize) n
  hPrime : Vector Byte 32

variable {n : Nat}

def verify (H : Hasher) (mHat : Vector Byte 32) (pkSeed : PkSeed)
    (yp : Vector (Vector Word 8) (n + 1)) (e : Fin (n + 1)) (z : ZProof n) : Verified n :=
  let result := verifierRun mHat pkSeed z.xOffset (z.ke.map (expandXshare H))
    (z.ke.map (expandTape H)) e z.msgsE z.aux
  let sSlots := Vector.ofFn fun j : Fin n => column result.2 fun l => l[j]
  { error := ypError result.1 e yp
    zhOut := result.1.map Masked.h
    sSlots := sSlots
    hPrime := recomputeHPrimeVerify H e z.xOffset sSlots z.msgsE z.rJ }

/-- `ke[q] = seeds[orig]`: everything but the entry of party `e`. -/
def others (e : Fin (n + 1)) (v : Vector α (n + 1)) : Vector α n :=
  Vector.ofFn fun q : Fin n => v[orig q e]

/-- The auxiliary words that the proof has room for: none if party 0 is hidden. -/
def shownAux (e : Fin (n + 1)) (aux : Vector Word ySize) : Vector Word ySize :=
  if e.val ≠ 0 then aux else Vector.replicate _ 0

/-- What the prover sends of an instance whose party `e` stays hidden. -/
def onlineProof (e : Fin (n + 1)) (seeds : Vector Seed (n + 1)) (dPub : Witness)
    (aux : Vector Word ySize) (s : Vector (Vector Word ySize) (n + 1))
    (comHidden rJ : Vector Byte 32) : ZProof n where
  ke := others e seeds
  xOffset := dPub
  aux := shownAux e aux
  msgsE := computeMsgsE e s
  comHidden := comHidden
  rJ := rJ

@[simp] theorem others_get (e : Fin (n + 1)) (v : Vector α (n + 1)) (j : Fin n) :
    (others e v)[j] = v[e.succAbove j] := by
  simp [others, orig_eq]

theorem others_map (e : Fin (n + 1)) (v : Vector α (n + 1)) (f : α → β) :
    (others e v).map f = others e (v.map f) := by
  apply Vector.ext
  intro j hj
  simp [others]

theorem shownAux_of_ne {e : Fin (n + 1)} (shown : e ≠ 0) (aux : Vector Word ySize) :
    shownAux e aux = aux :=
  if_pos fun first => shown (Fin.ext first)

end Verify

section Step

variable {n : Nat} {e e' : Fin (n + 1)} {x y : Mw (n + 1)} {x₁ y₁ x₂ y₂ : Mw n}
  (tapes : Vector Tape (n + 1)) (g : Nat) (op : Gate)

/-- One gate on the prover's message. -/
theorem verifierStep_view (hx : (MaskRel.view e).rel x x₁) (hy : (MaskRel.view e).rel y y₁)
    {msgsE aux : Vector Word ySize}
    (message : wordAt msgsE g = (proverStep tapes g op x y).2.s[e])
    (corrects : e ≠ 0 → wordAt aux g = (proverStep tapes g op x y).2.aux) :
    (MaskRel.view e).rel (proverStep tapes g op x y).1
        (verifierStep (others e tapes) e msgsE aux g op x₁ y₁).1 ∧
      SlotsAgree e (fun i => (proverStep tapes g op x y).2.s[i])
        (verifierStep (others e tapes) e msgsE aux g op x₁ y₁).2 := by
  cases op with
  | and =>
    simp only [proverStep, mpcAND, verifierStep, mpcANDVerify, others_get] at *
    rw [message]
    exact ⟨andGate_view hx hy _ _ corrects, andGate_slots hx hy _ _ _ corrects⟩
  | add =>
    simp only [proverStep, mpcADD, verifierStep, mpcADDVerify, others_get] at *
    rw [message]
    exact addGate_view hx hy _ _ corrects

/-- Broadcasts that two runs with different hidden parties recompute are the prover's. -/
theorem verifierStep_twoViews (distinct : e ≠ e') (hx₁ : (MaskRel.view e).rel x x₁)
    (hy₁ : (MaskRel.view e).rel y y₁) (hx₂ : (MaskRel.view e').rel x x₂)
    (hy₂ : (MaskRel.view e').rel y y₂) {msgsE msgsE' aux aux' : Vector Word ySize}
    {s : Fin (n + 1) → Word} (message : wordAt msgsE g = s e) (message' : wordAt msgsE' g = s e')
    (corrects : e ≠ 0 → wordAt aux g = (proverStep tapes g op x y).2.aux)
    (corrects' : e' ≠ 0 → wordAt aux' g = (proverStep tapes g op x y).2.aux)
    (agree : SlotsAgree e s (verifierStep (others e tapes) e msgsE aux g op x₁ y₁).2)
    (agree' : SlotsAgree e' s (verifierStep (others e' tapes) e' msgsE' aux' g op x₂ y₂).2) :
    s = fun i => (proverStep tapes g op x y).2.s[i] := by
  cases op with
  | and =>
    simp only [proverStep, mpcAND, verifierStep, mpcANDVerify, others_get, message,
      message'] at *
    exact andGate_twoViews distinct hx₁ hy₁ hx₂ hy₂ _ _ corrects corrects' agree agree'
  | add =>
    simp only [proverStep, mpcADD, verifierStep, mpcADDVerify, others_get, message,
      message'] at *
    exact addGate_twoViews distinct hx₁ hy₁ hx₂ hy₂ _ _ corrects corrects' agree agree'

end Step

section Runs

variable {n : Nat} {e e' : Fin (n + 1)} {mHat : Vector Byte 32} {pkSeed : PkSeed} {dPub : Witness}
  {lam : Vector Witness (n + 1)} {tapes : Vector Tape (n + 1)}

theorem shareWitness_view (e : Fin (n + 1)) (dPub : Witness) (lam : Vector Witness (n + 1)) :
    (MaskRel.view e).rel (shareWitness dPub lam) (shareWitness dPub (others e lam)) := by
  constructor
  · rfl
  · intro j
    exact (others_get e lam j).symm

theorem circuit_view (e : Fin (n + 1)) (mHat : Vector Byte 32) (pkSeed : PkSeed) (dPub : Witness)
    (lam : Vector Witness (n + 1)) : Sim (MaskRel.view e).rel (MaskRel.view e).vec ySize
      (circuit mHat pkSeed (shareWitness dPub lam))
      (verifyCircuit mHat pkSeed (shareWitness dPub (others e lam))) := by
  rw [verifyCircuit_eq]
  exact circuit_sim (MaskRel.view e) ((MaskRel.view e).const _) ((MaskRel.view e).const _)
    (shareWitness_view e dPub lam)

/-- The prover's auxiliary words, where a verifier is shown them. -/
theorem proverRun_shownAux (e : Fin (n + 1)) {aux : Vector Word ySize}
    (same : (buildingViews mHat pkSeed dPub lam tapes).aux = aux) :
    Holds (fun g l => e ≠ 0 → wordAt (shownAux e aux) g = l.aux) 0
      (proverRun mHat pkSeed dPub lam tapes).2 := by
  rw [buildingViews] at same
  have entries := holds_of_column proverRun_length same
  intro g l hl shown
  rw [shownAux_of_ne shown]
  exact (entries g l hl).symm

/-- The verifier's run passes through the gates of the prover's. -/
theorem verifierRun_length (msgsE aux : Vector Word ySize) :
    (verifierRun mHat pkSeed dPub (others e lam) (others e tapes) e msgsE aux).2.length = ySize := by
  have sim : Sim (MaskRel.sameMasks n).rel (MaskRel.sameMasks n).vec ySize
      (circuit mHat pkSeed (shareWitness dPub (others e lam)))
      (circuit mHat pkSeed (shareWitness dPub (others e lam))) :=
    circuit_sim (MaskRel.sameMasks n) (fun _ => rfl) (fun _ => rfl) fun _ => rfl
  rw [verifierRun, verifyCircuit_eq]
  exact sim.length_left (verifierStep (others e tapes) e msgsE aux) (fun z => ⟨z, fun _ => rfl⟩) 0

/-- On the prover's own messages the verifier's wires and slots follow the prover's. -/
theorem verifierRun_view (e : Fin (n + 1)) (mHat : Vector Byte 32) (pkSeed : PkSeed)
    (dPub : Witness) (lam : Vector Witness (n + 1)) (tapes : Vector Tape (n + 1)) :
    let views := buildingViews mHat pkSeed dPub lam tapes
    let result := verifierRun mHat pkSeed dPub (others e lam) (others e tapes) e views.s[e]
      (shownAux e views.aux)
    (MaskRel.view e).vec (proverRun mHat pkSeed dPub lam tapes).1 result.1 ∧
      Holds (fun _ p => SlotsAgree e (fun i => p.1.s[i]) p.2) 0
        ((proverRun mHat pkSeed dPub lam tapes).2.zip result.2) := by
  intro views result
  have message : Holds (fun g l => l.s[e] = wordAt views.s[e] g) 0
      (proverRun mHat pkSeed dPub lam tapes).2 :=
    holds_of_column proverRun_length (buildingViews_s_eq mHat pkSeed dPub lam tapes e).symm
  have corrects : Holds (fun g l => e ≠ 0 → wordAt (shownAux e views.aux) g = l.aux) 0
      (proverRun mHat pkSeed dPub lam tapes).2 := proverRun_shownAux e rfl
  have run := (circuit_view e mHat pkSeed dPub lam).run (proverStep tapes)
    (verifierStep (others e tapes) e views.s[e] (shownAux e views.aux))
    (P := fun g l => wordAt views.s[e] g = l.s[e] ∧
      (e ≠ 0 → wordAt (shownAux e views.aux) g = l.aux))
    (Q := fun _ p => SlotsAgree e (fun i => p.1.s[i]) p.2)
    (fun g op x x' y y' hx hy logged => verifierStep_view tapes g op hx hy logged.1 logged.2) 0
    fun i l hl => ⟨(message i l hl).symm, corrects i l hl⟩
  obtain ⟨outputs, -, -, slots⟩ := run
  exact ⟨outputs, slots⟩

/-- Two runs with different hidden parties that recompute the rows of one matrix both follow
the prover's run. -/
theorem verifierRun_twoViews (distinct : e ≠ e') (s : Vector (Vector Word ySize) (n + 1))
    {aux : Vector Word ySize} (same : (buildingViews mHat pkSeed dPub lam tapes).aux = aux)
    (slots : ∀ j : Fin n, column (verifierRun mHat pkSeed dPub (others e lam) (others e tapes) e
      s[e] (shownAux e aux)).2 (fun l => l[j]) = s[e.succAbove j])
    (slots' : ∀ j : Fin n, column (verifierRun mHat pkSeed dPub (others e' lam) (others e' tapes) e'
      s[e'] (shownAux e' aux)).2 (fun l => l[j]) = s[e'.succAbove j]) :
    (MaskRel.view e).vec (proverRun mHat pkSeed dPub lam tapes).1 (verifierRun mHat pkSeed dPub
        (others e lam) (others e tapes) e s[e] (shownAux e aux)).1 ∧
      (MaskRel.view e').vec (proverRun mHat pkSeed dPub lam tapes).1 (verifierRun mHat pkSeed dPub
        (others e' lam) (others e' tapes) e' s[e'] (shownAux e' aux)).1 := by
  have agree (e : Fin (n + 1)) (slots : ∀ j : Fin n, column (verifierRun mHat pkSeed dPub
      (others e lam) (others e tapes) e s[e] (shownAux e aux)).2 (fun l => l[j]) =
        s[e.succAbove j]) :
      Holds (fun g l => SlotsAgree e (fun i => wordAt s[i] g) l) 0 (verifierRun mHat pkSeed dPub
        (others e lam) (others e tapes) e s[e] (shownAux e aux)).2 :=
    fun g l hl j => holds_of_column (verifierRun_length ..) (slots j) g l hl
  have corrects (e : Fin (n + 1)) := proverRun_shownAux e same
  have run := (circuit_view e mHat pkSeed dPub lam).run_both (proverStep tapes)
    (verifierStep (others e tapes) e s[e] (shownAux e aux))
    (verifierStep (others e' tapes) e' s[e'] (shownAux e' aux))
    (P := fun g l => (e ≠ 0 → wordAt (shownAux e aux) g = l.aux) ∧
      (e' ≠ 0 → wordAt (shownAux e' aux) g = l.aux))
    (S := fun g l => SlotsAgree e (fun i => wordAt s[i] g) l)
    (T := fun g l => SlotsAgree e' (fun i => wordAt s[i] g) l) (Q := fun _ _ => True)
    (fun g op x y x₁ y₁ x₂ y₂ hx₁ hy₁ hx₂ hy₂ shown agree agree' => by
      have broadcasts := verifierStep_twoViews tapes g op distinct hx₁ hy₁ hx₂ hy₂
        (s := fun i => wordAt s[i] g) rfl rfl shown.1 shown.2 agree agree'
      refine ⟨?_, ?_, trivial⟩
      · exact (verifierStep_view tapes g op hx₁ hy₁ (congrFun broadcasts e) shown.1).1
      · exact (verifierStep_view tapes g op hx₂ hy₂ (congrFun broadcasts e') shown.2).1)
    (circuit_view e' mHat pkSeed dPub lam) 0
    (fun i l hl => ⟨corrects e i l hl, corrects e' i l hl⟩) (agree e slots) (agree e' slots')
  exact ⟨run.1, run.2.1⟩

theorem ypError_eq_false (out : Vector (Mw n) 8) (e : Fin (n + 1))
    (yp : Vector (Vector Word 8) (n + 1)) : ypError out e yp = false ↔
      ∀ (j : Fin n) (w : Fin 8), out[w].l j = yp[e.succAbove j][w] := by
  rw [ypError, List.any_eq_false]
  constructor
  · intro rows j w
    have row := rows j (List.mem_finRange j)
    rw [Bool.not_eq_true, List.any_eq_false] at row
    have word := row w (List.mem_finRange w)
    simpa [orig_eq] using word
  · intro rows j _
    rw [Bool.not_eq_true, List.any_eq_false]
    intro w _
    simpa [orig_eq] using rows j w

/-- What the outputs of a run in the view say: the public words, and the other parties' rows. -/
theorem outputs_view {out : Vector (Mw (n + 1)) 8} {out' : Vector (Mw n) 8}
    (related : (MaskRel.view e).vec out out') : out'.map Masked.h = out.map Masked.h ∧
      ∀ yp : Vector (Vector Word 8) (n + 1), ypError out' e yp = false ↔
        ∀ j : Fin n, yp[e.succAbove j] = out.map fun word => word.l (e.succAbove j) := by
  constructor
  · apply Vector.ext
    intro w hw
    simp [(related w hw).1]
  · intro yp
    rw [ypError_eq_false]
    constructor
    · intro rows j
      apply Vector.ext
      intro w hw
      rw [Vector.getElem_map, (related w hw).2 j]
      exact (rows j ⟨w, hw⟩).symm
    · intro rows j w
      rw [rows j, getElem_fin, getElem_fin, Vector.getElem_map, (related w w.isLt).2 j]

end Runs

section Results

variable {n : Nat} {e e' : Fin (n + 1)} {H : Hasher}

/-- The run that `verify` makes of what the prover sends. -/
def openedRun (H : Hasher) (mHat : Vector Byte 32) (pkSeed : PkSeed) (seeds : Vector Seed (n + 1))
    (dPub : Witness) (aux : Vector Word ySize) (s : Vector (Vector Word ySize) (n + 1))
    (e : Fin (n + 1)) : Vector (Mw n) 8 × List (Vector Word n) :=
  verifierRun mHat pkSeed dPub (others e (seeds.map (expandXshare H)))
    (others e (seeds.map (expandTape H))) e s[e] (shownAux e aux)

theorem verify_onlineProof (mHat : Vector Byte 32) (pkSeed : PkSeed) (seeds : Vector Seed (n + 1))
    (dPub : Witness) (aux : Vector Word ySize) (s : Vector (Vector Word ySize) (n + 1))
    (yp : Vector (Vector Word 8) (n + 1)) (e : Fin (n + 1)) (comHidden rJ : Vector Byte 32) :
    let result := openedRun H mHat pkSeed seeds dPub aux s e
    let sSlots := Vector.ofFn fun j : Fin n => column result.2 fun l => l[j]
    verify H mHat pkSeed yp e (onlineProof e seeds dPub aux s comHidden rJ) =
      { error := ypError result.1 e yp
        zhOut := result.1.map Masked.h
        sSlots := sSlots
        hPrime := recomputeHPrimeVerify H e dPub sSlots (computeMsgsE e s) rJ } := by
  simp only [verify, onlineProof, others_map, computeMsgsE, getElem_fin, openedRun]

theorem sSlots_eq_others {L : Vector (Vector Word ySize) (n + 1)} {logs : List (Vector Word n)}
    (slots : ∀ j : Fin n, column logs (fun l => l[j]) = L[e.succAbove j]) :
    (Vector.ofFn fun j : Fin n => column logs fun l => l[j]) = others e L := by
  apply Vector.ext
  intro j hj
  rw [Vector.getElem_ofFn]
  exact (slots ⟨j, hj⟩).trans (others_get e L ⟨j, hj⟩).symm

/-- The slots of a run in the view are the other parties' rows. -/
theorem column_slots {logs : List (GateLog (n + 1))} {slots : List (Vector Word n)}
    (length : logs.length = slots.length)
    (agree : Holds (fun _ p => SlotsAgree e (fun i => p.1.s[i]) p.2) 0 (logs.zip slots))
    (j : Fin n) : column slots (fun l => l[j]) =
      column logs fun l => l.s[e.succAbove j] :=
  (column_congr length fun g p hp => (agree g p hp j).symm).symm

/-- On the prover's own messages the verifier recomputes the prover's run. -/
theorem verify_buildingViews (mHat : Vector Byte 32) (pkSeed : PkSeed) (dPub : Witness)
    (seeds : Vector Seed (n + 1)) (e : Fin (n + 1)) (comHidden rJ : Vector Byte 32) :
    let views := buildingViews mHat pkSeed dPub (seeds.map (expandXshare H))
      (seeds.map (expandTape H))
    verify H mHat pkSeed views.yp e (onlineProof e seeds dPub views.aux views.s comHidden rJ) =
      { error := false
        zhOut := views.zhOut
        sSlots := others e views.s
        hPrime := computeHPrime H dPub views.s rJ } := by
  intro views
  obtain ⟨outputs, slots⟩ := verifierRun_view e mHat pkSeed dPub (seeds.map (expandXshare H))
    (seeds.map (expandTape H))
  have length : (openedRun H mHat pkSeed seeds dPub views.aux views.s e).2.length = ySize :=
    verifierRun_length ..
  have lengthP : (proverRun mHat pkSeed dPub (seeds.map (expandXshare H))
    (seeds.map (expandTape H))).2.length = ySize := proverRun_length
  rw [verify_onlineProof]
  change (MaskRel.view e).vec _ (openedRun H mHat pkSeed seeds dPub views.aux views.s e).1 at outputs
  change Holds _ 0 (List.zip _ (openedRun H mHat pkSeed seeds dPub views.aux views.s e).2) at slots
  have rows : ∀ i : Fin (n + 1), views.s[i] = column (proverRun mHat pkSeed dPub
      (seeds.map (expandXshare H)) (seeds.map (expandTape H))).2 fun l => l.s[i] :=
    fun i => buildingViews_s_eq ..
  have masks : ∀ i : Fin (n + 1), views.yp[i] = (proverRun mHat pkSeed dPub
      (seeds.map (expandXshare H)) (seeds.map (expandTape H))).1.map fun word => word.l i :=
    fun i => buildingViews_yp_eq ..
  have zh : views.zhOut = (proverRun mHat pkSeed dPub (seeds.map (expandXshare H))
    (seeds.map (expandTape H))).1.map Masked.h := rfl
  generalize openedRun H mHat pkSeed seeds dPub views.aux views.s e = result at *
  generalize proverRun mHat pkSeed dPub (seeds.map (expandXshare H)) (seeds.map (expandTape H)) =
    prover at *
  have sSlots : (Vector.ofFn fun j : Fin n => column result.2 fun l => l[j]) = others e views.s :=
    sSlots_eq_others fun j =>
      (column_slots (lengthP.trans length.symm) slots j).trans (rows (e.succAbove j)).symm
  have accepted := ((outputs_view outputs).2 views.yp).mpr fun j => masks (e.succAbove j)
  rw [sSlots, accepted, (outputs_view outputs).1, zh,
    recomputeHPrimeVerify_eq H e dPub views.s (fun j => others_get e views.s j)]

/-- Whatever the witness and whichever party is hidden, a run of the verifier on what the prover
has computed ends without an error, with the prover's output words, every other party's broadcasts
and the prover's `h'`. -/
theorem verifier_simulates_prover (H : Hasher) (mHat : Vector Byte 32) (pkSeed : PkSeed) (x : Witness)
    (seeds : Vector Seed (n + 1)) (e : Fin (n + 1)) (comHidden rJ : Vector Byte 32) :
    let lam := seeds.map (expandXshare H)
    let dPub := xorShares x lam
    let views := buildingViews mHat pkSeed dPub lam (seeds.map (expandTape H))
    let z : ZProof n :=
      { ke := others e seeds
        xOffset := dPub
        aux := if e.val ≠ 0 then views.aux else Vector.replicate _ 0
        msgsE := views.s[e]
        comHidden := comHidden
        rJ := rJ }
    let run := verify H mHat pkSeed views.yp e z
    run.error = false ∧ run.zhOut = views.zhOut ∧
      (∀ (j : Fin n) (g : Fin ySize), run.sSlots[j][g] = views.s[orig j e][g]) ∧
      run.hPrime = computeHPrime H dPub views.s rJ := by
  intro lam dPub views z run
  have simulated : run = _ :=
    verify_buildingViews (H := H) mHat pkSeed dPub seeds e comHidden rJ
  clear_value run
  subst simulated
  refine ⟨rfl, rfl, fun j g => ?_, rfl⟩
  have slot : (others e views.s)[j] = views.s[orig j e] := others_get e views.s j
  exact congrArg (fun row : Vector Word ySize => row[g]) slot

/-- Rows that both of two views accept are the prover's output masks. -/
theorem rows_twoViews {out : Vector (Mw (n + 1)) 8} (distinct : e ≠ e')
    {yp : Vector (Vector Word 8) (n + 1)}
    (rows : ∀ j : Fin n, yp[e.succAbove j] = out.map fun word => word.l (e.succAbove j))
    (rows' : ∀ j : Fin n, yp[e'.succAbove j] = out.map fun word => word.l (e'.succAbove j)) :
    yp = Vector.ofFn fun i => out.map fun word => word.l i := by
  have row (i : Fin (n + 1)) : yp[i] = out.map fun word => word.l i := by
    by_cases hidden : i = e
    · obtain ⟨j, rfl⟩ := Fin.exists_succAbove_eq (show i ≠ e' by rw [hidden]; exact distinct)
      exact rows' j
    · obtain ⟨j, rfl⟩ := Fin.exists_succAbove_eq hidden
      exact rows j
  apply Vector.ext
  intro i hi
  rw [Vector.getElem_ofFn]
  exact row ⟨i, hi⟩

/-- Two runs that recompute the rows of one matrix follow the prover's run. -/
theorem openedRun_twoViews (distinct : e ≠ e') (mHat : Vector Byte 32) (pkSeed : PkSeed)
    (seeds : Vector Seed (n + 1)) (dPub : Witness) (s : Vector (Vector Word ySize) (n + 1))
    (slots : (Vector.ofFn fun j : Fin n => column (openedRun H mHat pkSeed seeds dPub
      (computeAuxFromSeeds H seeds).1 s e).2 fun l => l[j]) = others e s)
    (slots' : (Vector.ofFn fun j : Fin n => column (openedRun H mHat pkSeed seeds dPub
      (computeAuxFromSeeds H seeds).1 s e').2 fun l => l[j]) = others e' s) :
    let out := (proverRun mHat pkSeed dPub (seeds.map (expandXshare H))
      (seeds.map (expandTape H))).1
    (MaskRel.view e).vec out (openedRun H mHat pkSeed seeds dPub
        (computeAuxFromSeeds H seeds).1 s e).1 ∧
      (MaskRel.view e').vec out (openedRun H mHat pkSeed seeds dPub
        (computeAuxFromSeeds H seeds).1 s e').1 := by
  have columns (e : Fin (n + 1)) {logs : List (Vector Word n)} (slots : (Vector.ofFn fun j : Fin n =>
      column logs fun l => l[j]) = others e s) (j : Fin n) :
      column logs (fun l => l[j]) = s[e.succAbove j] := by
    rw [← others_get e s j, ← slots]
    simp
  have sameAux := (congrArg Prod.fst (computeAuxFromSeeds_eq (H := H) seeds mHat pkSeed dPub)).symm
  exact verifierRun_twoViews distinct s sameAux (columns e slots) (columns e' slots')

/-- Two accepting runs on the same broadcasts with different hidden parties output what the
prover's run outputs; if they also accept the output masks, then the unmasked witness
satisfies the circuit. -/
theorem special_soundness (seeds : Vector Seed (n + 1)) (mHat : Vector Byte 32) (pkSeed : PkSeed)
    (dPub : Witness) (s : Vector (Vector Word ySize) (n + 1)) (yp : Vector (Vector Word 8) (n + 1))
    (comHidden comHidden' rJ : Vector Byte 32) (distinct : e ≠ e') :
    let lam := seeds.map (expandXshare H)
    let aux := (computeAuxFromSeeds H seeds).1
    let views := buildingViews mHat pkSeed dPub lam (seeds.map (expandTape H))
    let run := verify H mHat pkSeed yp e (onlineProof e seeds dPub aux s comHidden rJ)
    let run' := verify H mHat pkSeed yp e' (onlineProof e' seeds dPub aux s comHidden' rJ)
    run.sSlots = others e s → run'.sSlots = others e' s →
      run.zhOut = views.zhOut ∧ run'.zhOut = views.zhOut ∧
      ∀ pubout, run.error = false → run'.error = false → unmasked run.zhOut yp = pubout →
        yp = views.yp ∧ plainOutput mHat pkSeed (xorShares dPub lam) = pubout := by
  intro lam aux views run run' slots slots'
  have unmasks : unmasked views.zhOut views.yp = plainOutput mHat pkSeed (xorShares dPub lam) :=
    unmasked_buildingViews mHat pkSeed dPub lam (seeds.map (expandTape H))
  have runEq : run = _ := verify_onlineProof mHat pkSeed seeds dPub aux s yp e comHidden rJ
  have runEq' : run' = _ := verify_onlineProof mHat pkSeed seeds dPub aux s yp e' comHidden' rJ
  have follow := openedRun_twoViews (H := H) distinct mHat pkSeed seeds dPub s
  have viewsYp : views.yp = Vector.ofFn fun i => (proverRun mHat pkSeed dPub lam
    (seeds.map (expandTape H))).1.map fun word => word.l i := rfl
  have viewsZh : views.zhOut = (proverRun mHat pkSeed dPub lam
    (seeds.map (expandTape H))).1.map Masked.h := rfl
  change _ → _ → (MaskRel.view e).vec (proverRun mHat pkSeed dPub lam _).1
    (openedRun H mHat pkSeed seeds dPub aux s e).1 ∧ (MaskRel.view e').vec _
      (openedRun H mHat pkSeed seeds dPub aux s e').1 at follow
  generalize openedRun H mHat pkSeed seeds dPub aux s e = result at *
  generalize openedRun H mHat pkSeed seeds dPub aux s e' = result' at *
  generalize (proverRun mHat pkSeed dPub lam (seeds.map (expandTape H))).1 = out at *
  generalize plainOutput mHat pkSeed (xorShares dPub lam) = plain at *
  clear_value views run run'
  subst runEq runEq'
  obtain ⟨related, related'⟩ := follow slots slots'
  obtain ⟨zh, rows⟩ := outputs_view related
  obtain ⟨zh', rows'⟩ := outputs_view related'
  refine ⟨zh.trans viewsZh.symm, zh'.trans viewsZh.symm, fun pubout accepts accepts' public' => ?_⟩
  have masks : yp = views.yp := by
    rw [viewsYp]
    exact rows_twoViews distinct ((rows yp).mp accepts) ((rows' yp).mp accepts')
  constructor
  · exact masks
  · rw [← public', ← unmasks, masks, viewsZh]
    exact congrArg (unmasked · views.yp) zh.symm

/-- Four parties that send what the prover sends, the first or the last of them hidden. -/
theorem special_soundness_honest :
    let seeds : Vector Seed 4 := Vector.ofFn fun i => Vector.replicate 32 (BitVec.ofNat 8 i.val)
    let lam := seeds.map (expandXshare singleChunkBlake3.toHasher)
    let views := buildingViews (Vector.replicate 32 0) (Vector.replicate 16 0)
      (Vector.replicate wEnd 0) lam (seeds.map (expandTape singleChunkBlake3.toHasher))
    let run (e : Fin 4) := verify singleChunkBlake3.toHasher (Vector.replicate 32 0)
      (Vector.replicate 16 0) views.yp e (onlineProof e seeds (Vector.replicate wEnd 0)
        (computeAuxFromSeeds singleChunkBlake3.toHasher seeds).1 views.s (Vector.replicate 32 0)
        (Vector.replicate 32 0))
    (run 0).zhOut = views.zhOut ∧ (run 3).zhOut = views.zhOut ∧
      plainOutput (Vector.replicate 32 0) (Vector.replicate 16 0)
        (xorShares (Vector.replicate wEnd 0) lam) = unmasked views.zhOut views.yp := by
  intro seeds lam views run
  have honest (e : Fin 4) := verify_buildingViews (H := singleChunkBlake3.toHasher)
    (Vector.replicate 32 0) (Vector.replicate 16 0) (Vector.replicate wEnd 0) seeds e
    (Vector.replicate 32 0) (Vector.replicate 32 0)
  have aux := congrArg Prod.fst (computeAuxFromSeeds_eq (H := singleChunkBlake3.toHasher) seeds
    (Vector.replicate 32 0) (Vector.replicate 16 0) (Vector.replicate wEnd 0))
  have sound := special_soundness (H := singleChunkBlake3.toHasher) seeds (Vector.replicate 32 0)
    (Vector.replicate 16 0) (Vector.replicate wEnd 0) views.s views.yp (Vector.replicate 32 0)
    (Vector.replicate 32 0) (Vector.replicate 32 0) (show (0 : Fin 4) ≠ 3 by decide)
  clear_value seeds
  simp only [run, views, lam, aux, honest, true_implies] at sound ⊢
  obtain ⟨-, -, extract⟩ := sound
  exact ⟨trivial, trivial, (extract _ rfl).2⟩

end Results

end BlindSig.Kkw
