import BlindSig.Kkw.Circuits

/-! Running the circuit: `buildingViews` with all parties, `verify` with the hidden party's
broadcasts taken from the proof. Arrays of words are hashed as they lie in memory, little
endian. Allocation does not fail. -/
namespace BlindSig.Kkw

open XorGroup Prog

abbrev Seed := Vector Byte 32

/-- The bytes of an array of words in memory. -/
def wordBytes {k : Nat} (words : Vector Word k) : List Byte := (storeWords words).toList

/-- The bytes of an array of rows in memory. -/
def rowBytes {m k : Nat} (rows : Vector (Vector Word k) m) : List Byte :=
  rows.toList.flatMap wordBytes

section HPrime

def kkwDomHprime : List Char := ['K', 'K', 'W', 'h', 'p', 'r', 'i', 'm', 'e']

/-- `blake3_th_update` over the parts, then `blake3_th_final`. -/
def kkwThParts (H : Hasher) (dom : List Char) (parts : List (List Byte)) : Vector Byte 32 :=
  (blake3ThFinal H (parts.foldl blake3ThUpdate (blake3ThInit (chars dom))) 32).getD
    (Vector.replicate 32 0)

/-- The cut into parts does not matter. -/
theorem kkwThParts_eq (H : Hasher) (dom : List Char) (parts : List (List Byte)) :
    kkwThParts H dom parts = kkwTh H dom parts.flatten := by
  rw [kkwThParts, foldl_blake3ThUpdate]
  rfl

def computeHPrime {N : Nat} (H : Hasher) (dPub : Witness) (s : Vector (Vector Word ySize) N)
    (rJ : Vector Byte 32) : Vector Byte 32 :=
  kkwThParts H kkwDomHprime [dPub.toList, rowBytes s, rJ.toList]

def computeMsgsE {N : Nat} (e : Fin N) (s : Vector (Vector Word ySize) N) : Vector Word ySize :=
  s[e]

/-- The slot of a party that is not hidden. -/
theorem slot_succAbove {n : Nat} (e : Fin (n + 1)) (j : Fin n) (slots : Vector α n) (d : α) :
    slots[if (e.succAbove j).val < e.val then (e.succAbove j).val
      else (e.succAbove j).val - 1]?.getD d = slots[j] := by
  rcases Nat.lt_or_ge j.val e.val with before | after
  · rw [Fin.succAbove_of_castSucc_lt _ _ (Fin.lt_def.mpr before)]
    simp [before]
  · rw [Fin.succAbove_of_le_castSucc _ _ (Fin.le_def.mpr after)]
    simp [show ¬ j.val + 1 < e.val by omega]

/-- The row of party `p`: the hidden party's message, or its slot. -/
def slotRow {n : Nat} (e : Fin (n + 1)) (slots : Vector (Vector Word ySize) n)
    (msgsE : Vector Word ySize) (p : Fin (n + 1)) : Vector Word ySize :=
  if p.val = e.val then msgsE
  else slots[if p.val < e.val then p.val else p.val - 1]?.getD (Vector.replicate _ 0)

def recomputeHPrimeVerify {n : Nat} (H : Hasher) (e : Fin (n + 1)) (dPub : Witness)
    (slots : Vector (Vector Word ySize) n) (msgsE : Vector Word ySize) (rJ : Vector Byte 32) :
    Vector Byte 32 :=
  kkwThParts H kkwDomHprime ([dPub.toList] ++
    (List.finRange (n + 1)).map (fun p => wordBytes (slotRow e slots msgsE p)) ++ [rJ.toList])

/-- With the message of the hidden party the rows are complete. -/
theorem slotRow_eq {n : Nat} (e : Fin (n + 1)) (s : Vector (Vector Word ySize) (n + 1))
    {slots : Vector (Vector Word ySize) n} (agree : ∀ j : Fin n, slots[j] = s[e.succAbove j])
    (p : Fin (n + 1)) : slotRow e slots (computeMsgsE e s) p = s[p] := by
  by_cases hidden : p = e
  · simp [slotRow, hidden, computeMsgsE]
  · obtain ⟨j, rfl⟩ := Fin.exists_succAbove_eq hidden
    rw [← agree j, slotRow, if_neg fun h => hidden (Fin.ext h)]
    exact slot_succAbove e j slots _

/-- On the rows of one matrix the verifier hashes what the prover hashed. -/
theorem recomputeHPrimeVerify_eq {n : Nat} (H : Hasher) (e : Fin (n + 1)) (dPub : Witness)
    (s : Vector (Vector Word ySize) (n + 1)) {slots : Vector (Vector Word ySize) n}
    (agree : ∀ j : Fin n, slots[j] = s[e.succAbove j]) (rJ : Vector Byte 32) :
    recomputeHPrimeVerify H e dPub slots (computeMsgsE e s) rJ = computeHPrime H dPub s rJ := by
  rw [recomputeHPrimeVerify, computeHPrime, kkwThParts_eq, kkwThParts_eq]
  have rowsEq : (List.finRange (n + 1)).map (fun p => wordBytes (slotRow e slots (computeMsgsE e s) p)) =
      s.toList.map wordBytes := by
    apply List.ext_getElem
    · simp
    · intro i _ _
      simp [slotRow_eq e s agree]
  rw [rowsEq]
  simp [rowBytes, List.flatMap_def]

end HPrime

section BuildingViews

/-- Entry `g` of an array that gate `g` wrote from its log entry. -/
def column {L : Type} (logs : List L) (f : L → Word) : Vector Word ySize :=
  Vector.ofFn fun g : Fin ySize => (logs[g.val]?.map f).getD 0

theorem getElem_column {L : Type} (logs : List L) (f : L → Word) (g : Nat) (hg : g < ySize) :
    (column logs f)[g] = (logs[g]?.map f).getD 0 := by
  simp [column]

attribute [irreducible] column

/-- What `building_views` writes, without `h'`. -/
@[ext] structure Views (N : Nat) where
  zhOut : Vector Word 8
  yp : Vector (Vector Word 8) N
  aux : Vector Word ySize
  s : Vector (Vector Word ySize) N
  gates : Nat
  deriving DecidableEq

variable {N : Nat}

/-- The masked witness `d_pub` with the parties' shares. -/
def shareWitness (dPub : Witness) (lam : Vector Witness N) : Masked N Witness := ⟨dPub, lam⟩

/-- The masked output words and one log entry for each gate. -/
def proverRun (mHat : Vector Byte 32) (pkSeed : PkSeed) (dPub : Witness) (lam : Vector Witness N)
    (tapes : Vector Tape N) : Vector (Mw N) 8 × List (GateLog N) :=
  (circuit mHat pkSeed (shareWitness dPub lam)).run (proverStep tapes) 0

def buildingViews (mHat : Vector Byte 32) (pkSeed : PkSeed) (dPub : Witness)
    (lam : Vector Witness N) (tapes : Vector Tape N) : Views N :=
  let result := proverRun mHat pkSeed dPub lam tapes
  { zhOut := result.1.map Masked.h
    yp := Vector.ofFn fun i => result.1.map fun word => word.l i
    aux := column result.2 fun l => l.aux
    s := Vector.ofFn fun i : Fin N => column result.2 fun l => l.s[i]
    gates := result.2.length }

/-- `v = zh[w]; for p: v ^= yp[p][w]`. -/
def unmasked (zhOut : Vector Word 8) (yp : Vector (Vector Word 8) N) : Vector Word 8 :=
  Vector.ofFn fun w : Fin 8 => (List.finRange N).foldl (fun v p => v ^^^ yp[p][w]) zhOut[w]

/-- `memcpy(dbuf, input); for p: dbuf ^= lam[p]`, from the witness to its masked form or back. -/
def xorShares (input : Witness) (lam : Vector Witness N) : Witness :=
  (List.finRange N).foldl (fun d p => d ^^^ lam[p]) input

/-- The output words of the circuit on a witness in the clear. -/
def plainOutput (mHat : Vector Byte 32) (pkSeed : PkSeed) (x : Witness) : Vector Word 8 :=
  ((circuit mHat pkSeed (Masked.const x : Masked 0 Witness)).eval gateSem).map Masked.h

end BuildingViews

section Verify

variable {n : Nat}

/-- The masked output words and one column of slots for each gate. -/
def verifierRun (mHat : Vector Byte 32) (pkSeed : PkSeed) (dPub : Witness) (lam : Vector Witness n)
    (tapes : Vector Tape n) (e : Fin (n + 1)) (msgsE aux : Vector Word ySize) :
    Vector (Mw n) 8 × List (Vector Word n) :=
  (verifyCircuit mHat pkSeed (shareWitness dPub lam)).run (verifierStep tapes e msgsE aux) 0

/-- A visible party's output share differs from its row. -/
def ypError (out : Vector (Mw n) 8) (e : Fin (n + 1)) (yp : Vector (Vector Word 8) (n + 1)) :
    Bool :=
  (List.finRange n).any fun j => (List.finRange 8).any fun w =>
    (out[w] : Mw n).l j != yp[orig j e][w]

end Verify

section Runs

variable {N : Nat} {mHat mHat' : Vector Byte 32} {pkSeed pkSeed' : PkSeed} {dPub dPub' : Witness}
  {lam : Vector Witness N} {tapes : Vector Tape N}

theorem column_congr {L L' : Type} {logs : List L} {logs' : List L'} {f : L → Word} {h : L' → Word}
    (length : logs.length = logs'.length)
    (same : Holds (fun _ p => f p.1 = h p.2) 0 (logs.zip logs')) :
    column logs f = column logs' h := by
  apply Vector.ext
  intro g hg
  rw [getElem_column, getElem_column]
  rcases Nat.lt_or_ge g logs.length with inside | outside
  · have inside' : g < logs'.length := length ▸ inside
    have entry := same g (logs[g], logs'[g]) (by simp [inside, inside'])
    simp [inside, inside', entry]
  · have outside' : logs'.length ≤ g := length ▸ outside
    simp [List.getElem?_eq_none outside, List.getElem?_eq_none outside']

section Fields

variable (mHat pkSeed dPub lam tapes)

theorem buildingViews_zhOut_eq : (buildingViews mHat pkSeed dPub lam tapes).zhOut =
    (proverRun mHat pkSeed dPub lam tapes).1.map Masked.h := rfl

theorem buildingViews_yp_eq (i : Fin N) : (buildingViews mHat pkSeed dPub lam tapes).yp[i] =
    (proverRun mHat pkSeed dPub lam tapes).1.map fun word => word.l i := by
  simp [buildingViews]

theorem buildingViews_aux_eq : (buildingViews mHat pkSeed dPub lam tapes).aux =
    column (proverRun mHat pkSeed dPub lam tapes).2 fun l => l.aux := rfl

theorem buildingViews_s_eq (i : Fin N) : (buildingViews mHat pkSeed dPub lam tapes).s[i] =
    column (proverRun mHat pkSeed dPub lam tapes).2 fun l => l.s[i] := by
  simp [buildingViews]

end Fields

/-- The entries of a column that is known. -/
theorem holds_of_column {L : Type} {logs : List L} {f : L → Word} {words : Vector Word ySize}
    (length : logs.length = ySize) (same : column logs f = words) :
    Holds (fun g l => f l = wordAt words g) 0 logs := by
  intro g l hl
  obtain ⟨inside, rfl⟩ := List.getElem?_eq_some_iff.mp hl
  have hg : g < ySize := length ▸ inside
  rw [← same, wordAt, Nat.zero_add, Vector.getElem?_eq_getElem hg, getElem_column]
  simp [inside]

/-- Every run of the prover passes through exactly `ySize` gates. -/
theorem proverRun_length : (proverRun mHat pkSeed dPub lam tapes).2.length = ySize := by
  have sim : Sim (MaskRel.sameMasks N).rel (MaskRel.sameMasks N).vec ySize
      (circuit mHat pkSeed (shareWitness dPub lam)) (circuit mHat pkSeed (shareWitness dPub lam)) :=
    circuit_sim (MaskRel.sameMasks N) (fun _ => rfl) (fun _ => rfl) fun _ => rfl
  rw [proverRun]
  exact sim.length_left (proverStep tapes) (fun z => ⟨z, fun _ => rfl⟩) 0

/-- The output masks and the auxiliary words do not depend on the public data. -/
theorem proverRun_masks :
    (∀ (w : Nat) (h : w < 8) (i : Fin N), (proverRun mHat pkSeed dPub lam tapes).1[w].l i =
        (proverRun mHat' pkSeed' dPub' lam tapes).1[w].l i) ∧
      Holds (fun _ p => p.1.aux = p.2.aux) 0 ((proverRun mHat pkSeed dPub lam tapes).2.zip
        (proverRun mHat' pkSeed' dPub' lam tapes).2) := by
  have zeroMasks {A : Type} [XorGroup A] (c c' : A) :
      (MaskRel.sameMasks N).rel (Masked.const c) (Masked.const c') := fun i => by simp
  have witness : (MaskRel.sameMasks N).rel (shareWitness dPub lam) (shareWitness dPub' lam) :=
    fun _ => rfl
  have sim := circuit_sim (MaskRel.sameMasks N) (zeroMasks mHat mHat') (zeroMasks pkSeed pkSeed')
    witness
  obtain ⟨out, -, -, logs⟩ := sim.run_of_keeps (proverStep tapes) (proverStep tapes)
    (Q := fun p => p.1.aux = p.2.aux) (fun g op x x' y y' hx hy => proverStep_masks tapes g op hx hy) 0
  rw [proverRun, proverRun]
  exact ⟨out, logs⟩

theorem buildingViews_aux :
    (buildingViews mHat pkSeed dPub lam tapes).aux =
      (buildingViews mHat' pkSeed' dPub' lam tapes).aux := by
  rw [buildingViews, buildingViews]
  exact column_congr (proverRun_length.trans proverRun_length.symm) proverRun_masks.2

theorem buildingViews_yp :
    (buildingViews mHat pkSeed dPub lam tapes).yp =
      (buildingViews mHat' pkSeed' dPub' lam tapes).yp := by
  rw [buildingViews, buildingViews]
  apply Vector.ext
  intro i hi
  apply Vector.ext
  intro w hw
  simp only [Vector.getElem_ofFn, Vector.getElem_map]
  exact proverRun_masks.1 w hw ⟨i, hi⟩

theorem shareWitness_plain : (shareWitness dPub lam).plain = xorShares dPub lam :=
  (foldl_xor_eq _ _).symm

theorem xorShares_xorShares (x : Witness) (lam : Vector Witness N) :
    xorShares (xorShares x lam) lam = x := by
  simp only [xorShares, foldl_xor_eq, xor_xor_cancel_right]

end Runs

section Plain

variable {n : Nat}

/-- Unmasked, the output is what the circuit computes on the witness behind the shares. -/
theorem unmasked_buildingViews (mHat : Vector Byte 32) (pkSeed : PkSeed) (dPub : Witness)
    (lam : Vector Witness (n + 1)) (tapes : Vector Tape (n + 1)) :
    unmasked (buildingViews mHat pkSeed dPub lam tapes).zhOut
        (buildingViews mHat pkSeed dPub lam tapes).yp =
      plainOutput mHat pkSeed (xorShares dPub lam) := by
  have shares : (MaskRel.unmasking (n + 1) 0).rel (shareWitness dPub lam)
      (Masked.const (xorShares dPub lam)) := by
    change (shareWitness dPub lam).plain = (Masked.const _ : Masked 0 Witness).plain
    rw [shareWitness_plain, Masked.plain_const]
  have sim : Sim (MaskRel.unmasking (n + 1) 0).rel (MaskRel.unmasking (n + 1) 0).vec ySize
      (circuit mHat pkSeed (shareWitness dPub lam))
      (circuit mHat pkSeed (Masked.const (xorShares dPub lam))) :=
    circuit_sim _ ((MaskRel.unmasking _ _).const _) ((MaskRel.unmasking _ _).const _) shares
  have clear := (unmasked_run tapes 0 sim).1
  apply Vector.ext
  intro w hw
  have word : ((proverRun mHat pkSeed dPub lam tapes).1[w]).plain = _ := clear w hw
  rw [Masked.plain_zero] at word
  rw [buildingViews, plainOutput, unmasked, Vector.getElem_map, ← word, Vector.getElem_ofFn,
    foldl_xor_eq, Masked.plain]
  simp

end Plain

end BlindSig.Kkw
