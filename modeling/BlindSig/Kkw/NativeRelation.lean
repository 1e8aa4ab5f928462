import BlindSig.Kkw.NativeCircuit

/-! The schedule that the prover writes into its witness, and the relation that the circuit decides:
it arrives at the public output exactly on a valid signature with such a schedule. -/
namespace BlindSig.Kkw

section Schedule

/-- `input[W_SCHEDULE_OFF + slot++] = ci`. With all slots taken the call gives up, and leaves what
it has written. -/
def scheduleSlot (s : Witness × Nat) (ci : Fin xmssWotsLen) : Except Witness (Witness × Nat) :=
  if s.2 = wScheduleLen then .error s.1
  else .ok (s.1.setIfInBounds (wScheduleOff + s.2) (BitVec.ofNat 8 ci), s.2 + 1)

/-- One slot for each position from the coordinate of a chain on. -/
def scheduleChain (coords : Vector Byte xmssWotsLen) (s : Witness × Nat) (ci : Fin xmssWotsLen) :
    Except Witness (Witness × Nat) :=
  (List.range' coords[ci].toNat (xmssWotsMaxSteps - coords[ci].toNat)).foldlM
    (fun s _ => scheduleSlot s ci) s

/-- The two loops over the chains and their positions. -/
def writeSchedule (input : Witness) (coords : Vector Byte xmssWotsLen) : Witness × Bool :=
  match (List.finRange xmssWotsLen).foldlM (scheduleChain coords) (input, 0) with
  | .error left => (left, false)
  | .ok (left, slot) => (left, slot == wScheduleLen)

/-- The witness as the call leaves it, and its result. -/
def kkwBuildSchedule (H : Hasher) (input : Witness) (mHat : Vector Byte 32) (pkSeed : PkSeed) :
    Witness × Bool :=
  let d := (hmCommit H mHat (witnessR input) (witnessA input)).2
  let epoch := (List.finRange 4).foldl (fun (epoch : Word) (b : Fin 4) =>
    epoch <<< 8 ||| (witnessEpoch input)[b].setWidth 32) 0
  let mh := xmssHashMessage H pkSeed epoch (witnessNonce input) d.toList
  let drawn := xmssExtractCoords mh
  if drawn.2 = false then (input, false) else writeSchedule input drawn.1

theorem epoch_shifts (b : Fin 4 → Byte) :
    (List.finRange 4).foldl (fun (epoch : Word) i => epoch <<< 8 ||| (b i).setWidth 32) 0 = be32 b := by
  have joined (p q r s : Word) : ((((0 : Word) <<< 8 ||| p) <<< 8 ||| q) <<< 8 ||| r) <<< 8 ||| s =
      s ||| r <<< 8 ||| q <<< 16 ||| p <<< 24 := by
    simp only [BitVec.shiftLeft_or_distrib, ← BitVec.shiftLeft_add]
    rw [show (0 : Word) <<< (8 + 8 + 8 + 8) = 0#32 from rfl, BitVec.zero_or, BitVec.or_comm _ s,
      BitVec.or_comm _ (r <<< 8), BitVec.or_comm (p <<< _), BitVec.or_assoc, BitVec.or_assoc]
  exact joined _ _ _ _

/-- The chains by the slots they take. -/
def slots (coords : Vector Byte xmssWotsLen) : List (Fin xmssWotsLen) :=
  (List.finRange xmssWotsLen).flatMap fun ci =>
    List.replicate (xmssWotsMaxSteps - coords[ci].toNat) ci

theorem foldlM_flatMap {m : Type → Type} [Monad m] [LawfulMonad m] {σ α β : Type} (f : σ → β → m σ)
    (g : α → List β) (l : List α) (s : σ) :
    (l.flatMap g).foldlM f s = l.foldlM (fun s a => (g a).foldlM f s) s := by
  induction l generalizing s with
  | nil => rfl
  | cons a l ih =>
    rw [List.flatMap_cons, List.foldlM_append, List.foldlM_cons]
    exact bind_congr fun s => ih s

theorem scheduleChain_eq (coords : Vector Byte xmssWotsLen) (s : Witness × Nat) (ci : Fin xmssWotsLen) :
    scheduleChain coords s ci =
      (List.replicate (xmssWotsMaxSteps - coords[ci].toNat) ci).foldlM scheduleSlot s := by
  have slots := List.map_const' (l := List.range' coords[ci].toNat
    (xmssWotsMaxSteps - coords[ci].toNat)) (b := ci)
  rw [List.length_range'] at slots
  rw [scheduleChain, ← slots, List.foldlM_map]

theorem schedule_loops (coords : Vector Byte xmssWotsLen) (s : Witness × Nat) :
    (List.finRange xmssWotsLen).foldlM (scheduleChain coords) s = (slots coords).foldlM scheduleSlot s := by
  rw [slots, foldlM_flatMap]
  simp only [← scheduleChain_eq]

/-- A list of chains stands in the slots from `slot` on, and the rest is as it was. -/
structure Filled (x y : Witness) (slot : Nat) (l : List (Fin xmssWotsLen)) : Prop where
  kept : ∀ (i : Nat) (h : i < wEnd), i < wScheduleOff + slot ∨ wScheduleOff + slot + l.length ≤ i →
    y[i] = x[i]
  taken : ∀ (k : Nat) (hk : k < l.length) (h : wScheduleOff + (slot + k) < wEnd),
    y[wScheduleOff + (slot + k)] = BitVec.ofNat 8 l[k]

theorem schedule_fills (l : List (Fin xmssWotsLen)) (x : Witness) (slot : Nat)
    (fits : slot + l.length ≤ wScheduleLen) :
    ∃ y, l.foldlM scheduleSlot (x, slot) = .ok (y, slot + l.length) ∧ Filled x y slot l := by
  induction l generalizing x slot with
  | nil => exact ⟨x, rfl, fun _ _ _ => rfl, fun k hk => absurd hk (Nat.not_lt_zero k)⟩
  | cons ci l ih =>
    rw [List.length_cons] at fits
    have room : slot ≠ wScheduleLen := by omega
    obtain ⟨y, run, filled⟩ := ih (x.setIfInBounds (wScheduleOff + slot) (BitVec.ofNat 8 ci)) (slot + 1)
      (by omega)
    refine ⟨y, ?_, ?_, ?_⟩
    · rw [List.foldlM_cons, scheduleSlot, if_neg room, List.length_cons]
      have total : slot + (l.length + 1) = slot + 1 + l.length := by omega
      rw [total]
      exact run
    · intro i inside apart
      rw [List.length_cons] at apart
      rw [filled.kept i inside (by omega), Vector.getElem_setIfInBounds_ne]
      omega
    · intro k hk inside
      cases k with
      | zero =>
        have first := filled.kept (wScheduleOff + (slot + 0)) inside (by omega)
        rw [first]
        simp
      | succ k =>
        have later := filled.taken k (Nat.lt_of_succ_lt_succ hk) (by omega)
        have place : slot + (k + 1) = slot + 1 + k := by omega
        simp only [place, List.getElem_cons_succ]
        exact later

theorem schedule_overflows (l : List (Fin xmssWotsLen)) (x : Witness) (slot : Nat)
    (inside : slot ≤ wScheduleLen) (beyond : wScheduleLen < slot + l.length) :
    ∃ y, l.foldlM scheduleSlot (x, slot) = .error y := by
  induction l generalizing x slot with
  | nil => exact absurd beyond (by simpa using inside)
  | cons ci l ih =>
    rw [List.length_cons] at beyond
    rw [List.foldlM_cons, scheduleSlot]
    by_cases full : slot = wScheduleLen
    · rw [if_pos full]
      exact ⟨x, rfl⟩
    · rw [if_neg full]
      exact ih _ _ (by omega) (by omega)

theorem writeSchedule_accepts (x : Witness) (coords : Vector Byte xmssWotsLen) :
    (writeSchedule x coords).2 = true ↔ (slots coords).length = wScheduleLen := by
  rw [writeSchedule, schedule_loops]
  by_cases fits : (slots coords).length ≤ wScheduleLen
  · obtain ⟨y, run, -⟩ := schedule_fills (slots coords) x 0 (by rwa [Nat.zero_add])
    rw [run]
    simp only [Nat.zero_add, beq_iff_eq]
  · have beyond : wScheduleLen < 0 + (slots coords).length := by omega
    obtain ⟨y, run⟩ := schedule_overflows (slots coords) x 0 (Nat.zero_le _) beyond
    rw [run]
    simp only [Bool.false_eq_true, false_iff]
    omega

theorem writeSchedule_filled (x : Witness) {coords : Vector Byte xmssWotsLen}
    (full : (slots coords).length = wScheduleLen) :
    Filled x (writeSchedule x coords).1 0 (slots coords) := by
  obtain ⟨y, run, filled⟩ := schedule_fills (slots coords) x 0 (by rw [Nat.zero_add, full])
  rw [writeSchedule, schedule_loops, run]
  exact filled

/-- The steps that all chains have left. -/
theorem length_slots (mh : Vector Byte 32) : (slots (xmssExtractCoords mh).1).length +
    coordSum (xmssExtractCoords mh).1 = wScheduleLen + xmssTargetSum := by
  have each (ci : Fin xmssWotsLen) : xmssWotsMaxSteps - (xmssExtractCoords mh).1[ci].toNat +
      (xmssExtractCoords mh).1[ci].toNat = xmssWotsMaxSteps := Nat.sub_add_cancel (coord_le mh ci)
  have taken : (slots (xmssExtractCoords mh).1).length =
      ∑ ci : Fin xmssWotsLen, (xmssWotsMaxSteps - (xmssExtractCoords mh).1[ci].toNat) := by
    rw [slots, List.length_flatMap, Fin.sum_univ_def]
    simp only [List.length_replicate]
  rw [taken, coordSum_eq, ← Finset.sum_add_distrib]
  simp only [each, Finset.sum_const, Finset.card_univ, Fintype.card_fin]
  rfl

theorem count_slots (coords : Vector Byte xmssWotsLen) (ci : Fin xmssWotsLen) :
    (slots coords).countP (fun c => c.val = ci.val) = xmssWotsMaxSteps - coords[ci].toNat := by
  have same (c : Fin xmssWotsLen) : c.val = ci.val ↔ c = ci := Fin.ext_iff.symm
  rw [slots, List.countP_flatMap, ← Fin.sum_univ_def]
  simp only [Function.comp_def, List.countP_replicate, decide_eq_true_eq, same]
  rw [Finset.sum_ite_eq' Finset.univ ci, if_pos (Finset.mem_univ ci)]

theorem filled_scheduled {coords : Vector Byte xmssWotsLen} {x y : Witness}
    (filled : Filled x y 0 (slots coords)) (full : (slots coords).length = wScheduleLen) :
    Scheduled coords y := by
  have byte (step : Fin wScheduleLen) : (scheduleByte y step).toNat =
      ((slots coords).get (Fin.cast full.symm step)).val := by
    have taken := filled.taken step (by rw [full]; exact step.isLt) (by
      rw [Nat.zero_add]
      exact (schedulePosition step).isLt)
    have place : wScheduleOff + (0 + step.val) = (schedulePosition step).val :=
      congrArg (wScheduleOff + ·) (Nat.zero_add step.val)
    simp only [place] at taken
    have small : (slots coords)[step.val].val < 2 ^ 8 :=
      Nat.lt_trans (Fin.isLt _) (by decide)
    have read : scheduleByte y step = y[(schedulePosition step).val] := rfl
    rw [read, taken, BitVec.toNat_ofNat, Nat.mod_eq_of_lt small]
    rfl
  constructor
  · intro step
    rw [byte]
    exact Fin.isLt _
  · intro ci
    have read : (List.finRange wScheduleLen).map (fun step => (scheduleByte y step).toNat) =
        (slots coords).map Fin.val := by
      apply List.ext_getElem
      · rw [List.length_map, List.length_map, List.length_finRange, full]
      · intro k hk hk'
        rw [List.getElem_map, List.getElem_map, byte, List.get_eq_getElem]
        simp
    have all : (List.finRange wScheduleLen).take wScheduleLen = List.finRange wScheduleLen :=
      List.take_of_length_le (by rw [List.length_finRange])
    have counted := congrArg (List.countP fun i : Nat => i = ci.val) read
    rw [List.countP_map, List.countP_map] at counted
    rw [← count_slots coords ci, usedSteps, all]
    exact counted

end Schedule

section Frame

variable {x y : Witness} (kept : ∀ (i : Nat) (h : i < wEnd), i < wScheduleOff → y[i] = x[i])
include kept

theorem slice_kept (off len : Nat) (h : off + len ≤ wEnd) (before : off + len ≤ wScheduleOff) :
    slice y off len h = slice x off len h := by
  apply Vector.ext
  intro i hi
  simp only [slice, Vector.getElem_ofFn]
  exact kept (off + i) (by omega) (by omega)

theorem epochOf_kept : epochOf y = epochOf x := by
  rw [epochOf, slice_kept kept _ _ _ (by decide), epochOf]

theorem witnessNonce_kept : witnessNonce y = witnessNonce x := slice_kept kept _ _ _ (by decide)

theorem witnessSig_kept : witnessSig y = witnessSig x := by
  have path : witnessPath y = witnessPath x :=
    congrArg Vector.ofFn (funext fun level => slice_kept kept _ _ _ (by
      have := level.isLt
      unfold xmssH at this
      unfold wPathOff wScheduleOff
      omega))
  have tips : chainTip y = chainTip x :=
    funext fun ci => slice_kept kept _ _ _ (by
      have := ci.isLt
      unfold xmssWotsLen at this
      unfold wSigOff wScheduleOff
      omega)
  rw [witnessSig, epochOf_kept kept, path, tips, witnessNonce_kept kept, witnessSig]

theorem witnessDigest_kept (H : Blake3) (mHat : Vector Byte 32) :
    witnessDigest H mHat y = witnessDigest H mHat x := by
  have r : witnessR y = witnessR x := slice_kept kept _ _ _ (by decide)
  have a : witnessA y = witnessA x := slice_kept kept _ _ _ (by decide)
  rw [witnessDigest, r, a, witnessDigest]

theorem witnessHash_kept (H : Blake3) (mHat : Vector Byte 32) (pkSeed : PkSeed) :
    witnessHash H mHat pkSeed y = witnessHash H mHat pkSeed x := by
  rw [witnessHash, epochOf_kept kept, witnessNonce_kept kept, witnessDigest_kept kept, witnessHash]

end Frame

section Native

variable (H : Blake3) (mHat : Vector Byte 32) (pkSeed : PkSeed)

theorem kkwBuildSchedule_eq (x : Witness) : kkwBuildSchedule H.toHasher x mHat pkSeed =
    if (xmssExtractCoords (witnessHash H mHat pkSeed x)).2 = false then (x, false)
    else writeSchedule x (xmssExtractCoords (witnessHash H mHat pkSeed x)).1 := by
  have epoch : (List.finRange 4).foldl (fun (epoch : Word) (b : Fin 4) =>
      epoch <<< 8 ||| (witnessEpoch x)[b].setWidth 32) 0 = epochOf x :=
    epoch_shifts fun b => (witnessEpoch x)[b]
  rw [kkwBuildSchedule, epoch]
  rfl

/-- The schedule is whole when the steps left are as many as the slots, which is when the digits
add up to the target. -/
theorem kkwBuildSchedule_accepts (x : Witness) :
    (kkwBuildSchedule H.toHasher x mHat pkSeed).2 = true ↔
      (xmssExtractCoords (witnessHash H mHat pkSeed x)).2 = true ∧
        coordSum (xmssExtractCoords (witnessHash H mHat pkSeed x)).1 = xmssTargetSum := by
  have steps := length_slots (witnessHash H mHat pkSeed x)
  rw [kkwBuildSchedule_eq]
  cases (xmssExtractCoords (witnessHash H mHat pkSeed x)).2 with
  | false => simp
  | true =>
    rw [if_neg (by decide), writeSchedule_accepts]
    simp only [true_and]
    omega

theorem kkwBuildSchedule_scheduled (x : Witness)
    (accepted : (kkwBuildSchedule H.toHasher x mHat pkSeed).2 = true) :
    (∀ (i : Nat) (h : i < wEnd), i < wScheduleOff →
      (kkwBuildSchedule H.toHasher x mHat pkSeed).1[i] = x[i]) ∧
    Scheduled (xmssExtractCoords (witnessHash H mHat pkSeed
      (kkwBuildSchedule H.toHasher x mHat pkSeed).1)).1 (kkwBuildSchedule H.toHasher x mHat pkSeed).1 := by
  obtain ⟨ok, sum⟩ := (kkwBuildSchedule_accepts H mHat pkSeed x).mp accepted
  have steps := length_slots (witnessHash H mHat pkSeed x)
  have full : (slots (xmssExtractCoords (witnessHash H mHat pkSeed x)).1).length = wScheduleLen := by
    omega
  have loops := kkwBuildSchedule_eq H mHat pkSeed x
  rw [ok, if_neg (by decide)] at loops
  have filled := writeSchedule_filled x full
  have kept : ∀ (i : Nat) (h : i < wEnd), i < wScheduleOff →
      (writeSchedule x (xmssExtractCoords (witnessHash H mHat pkSeed x)).1).1[i] = x[i] :=
    fun i h before => filled.kept i h (Or.inl before)
  rw [loops, witnessHash_kept kept]
  exact ⟨kept, filled_scheduled filled full⟩

/-- The masked circuit arrives at the public output exactly on the witnesses that hold a valid
signature and a schedule of its chains, and `kkw_build_schedule` writes that schedule whenever the
digest passes its checks. -/
theorem circuit_native_relation (root : Node) (x : Witness) :
    (∀ {n : Nat} (lam : Vector Witness (n + 1)) (tapes : Vector Tape (n + 1)),
      unmasked (buildingViews mHat pkSeed (xorShares x lam) lam tapes).zhOut
          (buildingViews mHat pkSeed (xorShares x lam) lam tapes).yp = buildPubout root ↔
        xmssVerify H.toHasher pkSeed root (witnessDigest H mHat x).toList (witnessSig x) = true ∧
          Scheduled (xmssExtractCoords (witnessHash H mHat pkSeed x)).1 x) ∧
    ((kkwBuildSchedule H.toHasher x mHat pkSeed).2 = true ↔
      (xmssExtractCoords (witnessHash H mHat pkSeed x)).2 = true ∧
        coordSum (xmssExtractCoords (witnessHash H mHat pkSeed x)).1 = xmssTargetSum) ∧
    ((kkwBuildSchedule H.toHasher x mHat pkSeed).2 = true →
      (∀ (i : Nat) (h : i < wEnd), i < wScheduleOff →
        (kkwBuildSchedule H.toHasher x mHat pkSeed).1[i] = x[i]) ∧
      Scheduled (xmssExtractCoords (witnessHash H mHat pkSeed
        (kkwBuildSchedule H.toHasher x mHat pkSeed).1)).1
          (kkwBuildSchedule H.toHasher x mHat pkSeed).1) := by
  refine ⟨fun lam tapes => ?_, kkwBuildSchedule_accepts H mHat pkSeed x,
    kkwBuildSchedule_scheduled H mHat pkSeed x⟩
  rw [unmasked_buildingViews, xorShares_xorShares, plainOutput_eq_buildPubout]

end Native

end BlindSig.Kkw
