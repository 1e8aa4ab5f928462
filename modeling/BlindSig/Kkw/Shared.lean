import BlindSig.Kkw.Views

/-! Seeds and their expansion, the commitments to the preprocessing, and the Fiat–Shamir
challenge. Rejection sampling loops take a bound on the number of draws and fail when it is
used up; allocation does not fail. -/
namespace BlindSig.Kkw

/-- The compile-time parameters, with what the source asserts of them. -/
structure Params where
  /-- `N_PARTIES - 1`. -/
  others : Nat
  mKkw : Nat
  numRounds : Nat
  grindW : Nat
  others_ge : 3 ≤ others
  others_le : others ≤ 255
  rounds_lt : numRounds < mKkw
  grindW_lt : grindW < 30

abbrev Params.parties (P : Params) : Nat := P.others + 1

/-- The parameters of a build without options. -/
def defaultParams : Params where
  others := 3
  mKkw := 189
  numRounds := 57
  grindW := 16
  others_ge := by decide
  others_le := by decide
  rounds_lt := by decide
  grindW_lt := by decide

section Domains

def kkwDomPpcom : List Char := ['K', 'K', 'W', 'p', 'p', 'c', 'o', 'm']
def kkwDomHj : List Char := ['K', 'K', 'W', 'h', 'j']
def kkwDomHout : List Char := ['K', 'K', 'W', 'h', 'o', 'u', 't']
def kkwDomHstar1 : List Char := ['K', 'K', 'W', 'h', 's', 't', 'a', 'r', '1']
def kkwDomHstar2 : List Char := ['K', 'K', 'W', 'h', 's', 't', 'a', 'r', '2']
def kkwDomHstar3 : List Char := ['K', 'K', 'W', 'h', 's', 't', 'a', 'r', '3']
def kkwDomHstar : List Char := ['K', 'K', 'W', 'h', 's', 't', 'a', 'r']
def kkwDomFs : List Char := ['K', 'K', 'W', 'f', 's']
def kkwDomGrind : List Char := ['K', 'K', 'W', 'g', 'r', 'i', 'n', 'd']
def kkwDomPrg : List Char := ['K', 'K', 'W', 'p', 'r', 'g']
def kkwDomMhat : List Char := ['K', 'K', 'W', 'm', 'h', 'a', 't']

def blake3XofDomKkwTape : List Char :=
  ['b', 'l', 'i', 'n', 'd', '-', 'm', 's', 's', ' ', 'K', 'K', 'W', ' ', 't', 'a', 'p', 'e', ' ',
    'e', 'x', 'p', 'a', 'n', 's', 'i', 'o', 'n', ' ', 'v', '1']

def blake3XofDomKkwSeeds : List Char :=
  ['b', 'l', 'i', 'n', 'd', '-', 'm', 's', 's', ' ', 'K', 'K', 'W', ' ', 'p', 'a', 'r', 't', 'y',
    '-', 's', 'e', 'e', 'd', ' ', 'e', 'x', 'p', 'a', 'n', 's', 'i', 'o', 'n', ' ', 'v', '1']

def blake3XofDomKkwXshare : List Char :=
  ['b', 'l', 'i', 'n', 'd', '-', 'm', 's', 's', ' ', 'K', 'K', 'W', ' ', 'w', 'i', 't', 'n', 'e',
    's', 's', '-', 'm', 'a', 's', 'k', ' ', 'e', 'x', 'p', 'a', 'n', 's', 'i', 'o', 'n', ' ', 'v',
    '1']

end Domains

variable (H : Hasher)

section Preprocessing

variable {N : Nat}

def expandTape (seed : Seed) : Tape := blake3KeyedXof H seed blake3XofDomKkwTape [] tapeSize

def expandSeedStar (seedStar : Seed) (N : Nat) : Vector Seed N :=
  rows (blake3KeyedXof H seedStar blake3XofDomKkwSeeds [] (N * 32))

def expandXshare (seed : Seed) : Witness := blake3KeyedXof H seed blake3XofDomKkwXshare [] wEnd

/-- The commitment of a party; the one of party 0 covers the auxiliary words if given. -/
def preprocComParty (party : Nat) (seed : Seed) (aux : Option (Vector Word ySize)) :
    Vector Byte 32 :=
  kkwThParts H kkwDomPpcom ([[BitVec.ofNat 8 party], seed.toList] ++
    match aux with
    | some words => if party = 0 then [wordBytes words] else []
    | none => [])

def preprocCommitInstance (seeds : Vector Seed N) (aux : Vector Word ySize) : Vector Byte 32 :=
  let coms : Vector (Vector Byte 32) N := Vector.ofFn fun i : Fin N =>
    preprocComParty H i seeds[i] (some aux)
  kkwTh H kkwDomHj (coms.toList.flatMap Vector.toList)

def hOut (yp : Vector (Vector Word 8) N) : Vector Byte 32 := kkwTh H kkwDomHout (rowBytes yp)

/-- The auxiliary words and `H(yp)` of a run on zero data. -/
def computeAuxFromSeeds (seeds : Vector Seed N) : Vector Word ySize × Vector Byte 32 :=
  let views := buildingViews (Vector.replicate 32 0) (Vector.replicate 16 0)
    (Vector.replicate wEnd 0) (seeds.map (expandXshare H)) (seeds.map (expandTape H))
  (views.aux, hOut H views.yp)

variable {H}

/-- The run on zero data has the preprocessing of every run. -/
theorem computeAuxFromSeeds_eq (seeds : Vector Seed N) (mHat : Vector Byte 32) (pkSeed : PkSeed)
    (dPub : Witness) : computeAuxFromSeeds H seeds =
      ((buildingViews mHat pkSeed dPub (seeds.map (expandXshare H)) (seeds.map (expandTape H))).aux,
        hOut H (buildingViews mHat pkSeed dPub (seeds.map (expandXshare H))
          (seeds.map (expandTape H))).yp) := by
  rw [computeAuxFromSeeds]
  exact Prod.ext buildingViews_aux (congrArg (hOut H) buildingViews_yp)

/-- Any two runs on the same seeds write all of the same auxiliary array and the same output
masks, and the preprocessing run returns that array and the hash of these masks. -/
theorem preprocessing_independent (seeds : Vector Seed N) (mHat mHat' : Vector Byte 32)
    (pkSeed pkSeed' : PkSeed) (dPub dPub' : Witness) :
    let views := buildingViews mHat pkSeed dPub (seeds.map (expandXshare H))
      (seeds.map (expandTape H))
    let views' := buildingViews mHat' pkSeed' dPub' (seeds.map (expandXshare H))
      (seeds.map (expandTape H))
    views.gates = ySize ∧ views'.gates = ySize ∧ views.aux = views'.aux ∧ views.yp = views'.yp ∧
      computeAuxFromSeeds H seeds = (views.aux, hOut H views.yp) :=
  ⟨proverRun_length, proverRun_length, buildingViews_aux, buildingViews_yp,
    computeAuxFromSeeds_eq seeds mHat pkSeed dPub⟩

variable (H)

end Preprocessing

section Challenge

structure PrgCtx where
  state : Vector Byte 32
  ctr : Word
  buf : Vector Byte 32
  pos : Nat

def prgFill (p : PrgCtx) : PrgCtx :=
  { p with
    buf := kkwTh H kkwDomPrg (p.state ++ putEpochBe p.ctr).toList
    ctr := p.ctr + 1
    pos := 0 }

def prgInit (seed : Vector Byte 32) : PrgCtx :=
  prgFill H { state := seed, ctr := 0, buf := Vector.replicate 32 0, pos := 0 }

/-- One byte, from a fresh buffer where the old one is used up. -/
def prgByte (p : PrgCtx) : Byte × PrgCtx :=
  let p := if p.pos ≥ 32 then prgFill H p else p
  (p.buf[p.pos]?.getD 0, { p with pos := p.pos + 1 })

def prgU32 (p : PrgCtx) : Word × PrgCtx :=
  (List.range 4).foldl (fun (v, p) _ =>
    let (byte, p) := prgByte H p
    (v <<< 8 ||| byte.setWidth 32, p)) (0, p)

/-- A uniform number below `bound`, within `fuel` draws. -/
def prgBelow (bound : Nat) : Nat → PrgCtx → Option (Nat × PrgCtx)
  | 0, _ => none
  | fuel + 1, p =>
    let limit := 2 ^ 32 - 2 ^ 32 % bound
    let (r, p) := prgU32 H p
    if r.toNat ≥ limit then prgBelow bound fuel p else some (r.toNat % bound, p)

/-- A uniform party, within `fuel` draws. -/
def prgParty (n : Nat) : Nat → PrgCtx → Option (Fin (n + 1) × PrgCtx)
  | 0, _ => none
  | fuel + 1, p =>
    let threshold := (n + 1) * (256 / (n + 1))
    let (val, p) := prgByte H p
    if val.toNat ≥ threshold then prgParty n fuel p else some (Fin.ofNat (n + 1) val.toNat, p)

def blindMsgDigest (msg : List Byte) : Vector Byte 32 := kkwTh H kkwDomMhat msg

/-- `h_star` over the hashes of all instances, as prover and verifier compute it. -/
def hStar {M : Nat} (hJAll hPrimeAll hOutAll : Vector (Vector Byte 32) M) : Vector Byte 32 :=
  let hVal := kkwTh H kkwDomHstar1 (hJAll.toList.flatMap Vector.toList)
  let hPrimeVal := kkwTh H kkwDomHstar2 (hPrimeAll.toList.flatMap Vector.toList)
  let hOutVal := kkwTh H kkwDomHstar3 (hOutAll.toList.flatMap Vector.toList)
  kkwTh H kkwDomHstar (hVal ++ hPrimeVal ++ hOutVal).toList

def kkwFsPrefix (msg : Vector Byte 32) (pubout : Vector Word 8) (pkSeed : PkSeed)
    (nonce hStar : Vector Byte 32) : Vector Byte 32 :=
  kkwTh H kkwDomFs (msg ++ join (pubout.map putEpochBe) ++ pkSeed ++ nonce ++ hStar).toList

/-- The challenge seed, and whether its `W` lowest bits are clear. -/
def kkwFsSeed (P : Params) (hPre : Vector Byte 32) (ctr : Word) : Vector Byte 32 × Bool :=
  let seedFS := kkwTh H kkwDomGrind (hPre ++ putEpochBe ctr).toList
  (seedFS, (List.range P.grindW).all fun b => !(seedFS[31 - b / 8]?.getD 0).getLsbD (b % 8))

/-- The instances to open, in order, and the party that each of them hides. -/
structure Challenge (P : Params) where
  cOut : Vector (Fin P.mKkw) P.numRounds
  pOut : Vector (Fin P.parties) P.numRounds

/-- The first `NUM_ROUNDS` steps of a Fisher–Yates shuffle. -/
def shuffle (P : Params) (fuel : Nat) (p : PrgCtx) :
    Option (Vector (Fin P.mKkw) P.mKkw × PrgCtx) :=
  (List.range P.numRounds).foldlM (fun (arr, p) i => do
    let (r, p) ← prgBelow H (P.mKkw - i) fuel p
    pure (arr.swapIfInBounds i (i + r), p)) (Vector.finRange P.mKkw, p)

def sortInts {m k : Nat} (v : Vector (Fin m) k) : Vector (Fin m) k :=
  ⟨(v.toList.mergeSort (· ≤ ·)).toArray, by simp⟩

def kkwFsExpand (P : Params) (fuel : Nat) (seedFS : Vector Byte 32) : Option (Challenge P) := do
  let (arr, prg) ← shuffle H P fuel (prgInit H seedFS)
  let cOut : Vector (Fin P.mKkw) P.numRounds :=
    Vector.ofFn fun k => arr.get ⟨k, Nat.lt_trans k.isLt P.rounds_lt⟩
  let (pOut, _) ← (List.finRange P.numRounds).foldlM (fun (pOut, prg) k => do
    let (party, prg) ← prgParty H P.others fuel prg
    pure (pOut.set k party, prg))
    ((Vector.replicate P.numRounds 0 : Vector (Fin P.parties) P.numRounds), prg)
  pure { cOut := sortInts cOut, pOut := pOut }

end Challenge

end BlindSig.Kkw
