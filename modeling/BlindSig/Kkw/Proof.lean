import BlindSig.Kkw.FsExpand
import BlindSig.Kkw.HashCalls
import BlindSig.Kkw.Online

/-! The proof as a file: what `kkw_prove` computes and writes, what `kkw_verify` reads and checks.
Allocation and writing do not fail, and `randombytes_fill` fails when the drawn bytes end. -/
namespace BlindSig.Kkw

section Layout

/-- What the proof carries of an opened round besides the challenge. -/
structure Round (n : Nat) where
  yp : Vector (Vector Word 8) (n + 1)
  z : ZProof n
  deriving DecidableEq

def wordsCodec (k : Nat) : Codec (Vector Word k) := Codec.u32.loop k

def proofMagic : Vector Byte 4 := #v[charByte 'K', charByte 'K', charByte 'W', charByte '2']

def proofHeader (P : Params) : Vector Word 5 :=
  #v[BitVec.ofNat 32 P.parties, BitVec.ofNat 32 P.mKkw, BitVec.ofNat 32 P.numRounds,
    BitVec.ofNat 32 ySize, BitVec.ofNat 32 P.grindW]

/-- `magic || hdr`. -/
def headerCodec : Codec (Vector Byte 4 × Vector Word 5) := (Codec.array 4).seq (wordsCodec 5)

/-- `seed_star || h_prime` of an instance that stays closed. -/
def closedCodec : Codec (Seed × Vector Byte 32) := (Codec.array 32).seq (Codec.array 32)

/-- `com_hidden || yp || ke || x_offset`. -/
def openingCodec (n : Nat) : Codec (Vector Byte 32 × Vector (Vector Word 8) (n + 1) ×
    Vector Seed n × Witness) :=
  (Codec.array 32).seq (((wordsCodec 8).loop (n + 1)).seq (((Codec.array 32).loop n).seq
    (Codec.array wEnd)))

/-- `msgs_e || r_j`. -/
def closingCodec : Codec (Vector Word ySize × Vector Byte 32) := (wordsCodec ySize).seq (Codec.array 32)

variable {n : Nat}

/-- The auxiliary words stand in the file unless party 0 is hidden. -/
def writeRound (e : Fin (n + 1)) (r : Round n) : List Byte :=
  (openingCodec n).write (r.z.comHidden, r.yp, r.z.ke, r.z.xOffset) ++
    (if e.val ≠ 0 then (wordsCodec ySize).write r.z.aux else []) ++
    closingCodec.write (r.z.msgsE, r.z.rJ)

def readAux (e : Fin (n + 1)) (p : List Byte) : Option (Vector Word ySize × List Byte) :=
  if e.val ≠ 0 then (wordsCodec ySize).read p else some (Vector.replicate _ 0, p)

def readRound (e : Fin (n + 1)) (p : List Byte) : Option (Round n × List Byte) := do
  let ((comHidden, yp, ke, xOffset), p) ← (openingCodec n).read p
  let (aux, p) ← readAux e p
  let ((msgsE, rJ), p) ← closingCodec.read p
  return ({ yp, z := { ke, xOffset, aux, msgsE, comHidden, rJ } }, p)

theorem readAux_eq_some (e : Fin (n + 1)) (p rest : List Byte) (aux : Vector Word ySize) :
    readAux e p = some (aux, rest) ↔
      p = (if e.val ≠ 0 then (wordsCodec ySize).write aux else []) ++ rest ∧
        (e.val = 0 → aux = Vector.replicate _ 0) := by
  rw [readAux]
  by_cases first : e.val = 0
  · rw [if_neg (not_not.mpr first), if_neg (not_not.mpr first), Option.some.injEq, Prod.mk.injEq,
      List.nil_append]
    constructor
    · rintro ⟨zeros, rfl⟩
      exact ⟨rfl, fun _ => zeros.symm⟩
    · rintro ⟨rfl, zeros⟩
      exact ⟨(zeros first).symm, rfl⟩
  · rw [if_pos first, if_pos first, Codec.read_eq_some]
    exact ⟨fun split => ⟨split, fun zero => absurd zero first⟩, And.left⟩

theorem readRound_eq_some (e : Fin (n + 1)) (p : List Byte) (r : Round n) (rest : List Byte) :
    readRound e p = some (r, rest) ↔
      p = writeRound e r ++ rest ∧ (e.val = 0 → r.z.aux = Vector.replicate _ 0) := by
  simp only [readRound, Option.bind_eq_bind, Option.bind_eq_some_iff, Option.pure_def,
    Option.some.injEq, Prod.mk.injEq, Prod.exists, Codec.read_eq_some, readAux_eq_some]
  constructor
  · rintro ⟨comHidden, yp, ke, xOffset, p₁, rfl, aux, p₂, ⟨rfl, none⟩, msgsE, rJ, p₃, rfl, rfl, rfl⟩
    refine ⟨?_, none⟩
    rw [writeRound]
    simp only [List.append_assoc]
  · rintro ⟨rfl, none⟩
    rw [writeRound, List.append_assoc, List.append_assoc]
    exact ⟨r.z.comHidden, r.yp, r.z.ke, r.z.xOffset, _, rfl, r.z.aux, _, ⟨rfl, none⟩, r.z.msgsE,
      r.z.rJ, _, rfl, rfl, rfl⟩

end Layout

section Challenge

variable {P : Params}

/-- `in_C[j]`. -/
def inC (c : Challenge P) (j : Fin P.mKkw) : Bool := c.cOut.toList.contains j

/-- The instances that stay closed, in order. -/
def closed (c : Challenge P) : List (Fin P.mKkw) := (List.finRange P.mKkw).filter fun j => !inC c j

theorem inC_iff {c : Challenge P} {j : Fin P.mKkw} : inC c j = true ↔ ∃ k : Fin P.numRounds, c.cOut[k] = j := by
  rw [inC, List.contains_iff_mem, Vector.mem_toList_iff, Vector.mem_iff_getElem]
  constructor
  · rintro ⟨k, hk, here⟩
    exact ⟨⟨k, hk⟩, here⟩
  · rintro ⟨k, here⟩
    exact ⟨k, k.isLt, here⟩

theorem mem_closed {c : Challenge P} {j : Fin P.mKkw} : j ∈ closed c ↔
    ∀ k : Fin P.numRounds, c.cOut[k] ≠ j := by
  rw [closed, List.mem_filter, Bool.not_eq_true', ← Bool.not_eq_true, inC_iff, not_exists]
  exact and_iff_right (List.mem_finRange j)

theorem closed_nodup (c : Challenge P) : (closed c).Nodup := (List.nodup_finRange _).filter _

/-- The bound on draws stands for a loop that does not end. -/
def grind (H : Hasher) (P : Params) (hPre : Vector Byte 32) :
    Nat → Word → Option (Word × Vector Byte 32)
  | 0, _ => none
  | fuel + 1, ctr =>
    let (seedFS, ok) := kkwFsSeed H P hPre ctr
    if ok then some (ctr, seedFS) else grind H P hPre fuel (ctr + 1)

theorem grind_eq_some {H : Hasher} {hPre seedFS : Vector Byte 32} {fuel : Nat} {start ctr : Word}
    (found : grind H P hPre fuel start = some (ctr, seedFS)) :
    kkwFsSeed H P hPre ctr = (seedFS, true) := by
  induction fuel generalizing start with
  | zero => cases found
  | succ fuel ih =>
    rw [grind] at found
    generalize drawn : kkwFsSeed H P hPre start = attempt at found
    obtain ⟨seed, ok⟩ := attempt
    cases ok with
    | true =>
      obtain ⟨rfl, rfl⟩ := Prod.mk.inj (Option.some.inj found)
      exact drawn
    | false => exact ih found

end Challenge

section File

variable {P : Params}

/-- What stands in a proof, with the challenge that its first fields make. -/
structure ProofData (P : Params) where
  nonce : Vector Byte 32
  hStar : Vector Byte 32
  ctr : Word
  challenge : Challenge P
  closed : Vector (Seed × Vector Byte 32) P.mKkw
  rounds : Vector (Round P.others) P.numRounds

/-- The sections whose layout depends on the challenge. -/
def writeBody (c : Challenge P) (stay : Vector (Seed × Vector Byte 32) P.mKkw)
    (rounds : Vector (Round P.others) P.numRounds) : List Byte :=
  (closed c).flatMap (fun j => closedCodec.write stay[j]) ++
    (List.finRange P.numRounds).flatMap fun k => writeRound c.pOut[k] rounds[k]

def writeProof (d : ProofData P) : List Byte :=
  headerCodec.write (proofMagic, proofHeader P) ++ (Codec.array 32).write d.nonce ++
    (Codec.array 32).write d.hStar ++ Codec.u32.write d.ctr ++
    writeBody d.challenge d.closed d.rounds

/-- The messages of `kkw_verify`, and a challenge that takes more draws than the bound. -/
inductive VerifyText where
  | readHeader
  | badMagic
  | parameterMismatch (hdr : Vector Word 5)
  | readNonce
  | readHStar
  | readCtr
  | grinding
  | endless
  | readPreprocessing (j : Nat)
  | readOnline
  | trailingData
  | circuitCheck
  | circuitOutput (round word : Nat)
  | hStarMismatch
  deriving DecidableEq

/-- Zeroed memory. -/
def emptyRound (n : Nat) : Round n where
  yp := Vector.replicate _ (Vector.replicate _ 0)
  z :=
    { ke := Vector.replicate _ (Vector.replicate _ 0)
      xOffset := Vector.replicate _ 0
      aux := Vector.replicate _ 0
      msgsE := Vector.replicate _ 0
      comHidden := Vector.replicate _ 0
      rJ := Vector.replicate _ 0 }

def emptyClosed : Seed × Vector Byte 32 := (Vector.replicate _ 0, Vector.replicate _ 0)

def readBody (c : Challenge P) (p : List Byte) : Checked VerifyText
    ((Vector (Seed × Vector Byte 32) P.mKkw × Vector (Round P.others) P.numRounds) × List Byte) := do
  let (stay, p) ← readInto (fun _ => closedCodec.read) (fun j => .readPreprocessing j) (closed c)
    (Vector.replicate _ emptyClosed) p
  let (rounds, p) ← readInto (fun k => readRound c.pOut[k]) (fun _ => .readOnline)
    (List.finRange P.numRounds) (Vector.replicate _ (emptyRound _)) p
  return ((stay, rounds), p)

/-- Entries that the file has no room for are zero. -/
structure AsRead (c : Challenge P) (stay : Vector (Seed × Vector Byte 32) P.mKkw)
    (rounds : Vector (Round P.others) P.numRounds) : Prop where
  closed : ∀ j : Fin P.mKkw, j ∉ closed c → stay[j] = emptyClosed
  aux : ∀ k : Fin P.numRounds, c.pOut[k].val = 0 → rounds[k].z.aux = Vector.replicate _ 0

theorem readBody_eq_ok {c : Challenge P} {stay : Vector (Seed × Vector Byte 32) P.mKkw}
    {rounds : Vector (Round P.others) P.numRounds} {p rest : List Byte} :
    readBody c p = .ok ((stay, rounds), rest) ↔
      p = writeBody c stay rounds ++ rest ∧ AsRead c stay rounds := by
  have closedReads : ∀ (_ : Fin P.mKkw) (p : List Byte) x rest, closedCodec.read p = some (x, rest) ↔
      p = closedCodec.write x ++ rest ∧ True := by
    intro _ p x rest
    rw [Codec.read_eq_some, and_true]
  have roundReads (k : Fin P.numRounds) := readRound_eq_some c.pOut[k]
  have all : (List.finRange P.numRounds).Nodup := List.nodup_finRange _
  have blank (j : Fin P.mKkw) : (Vector.replicate P.mKkw emptyClosed)[j] = emptyClosed := by simp
  rw [readBody]
  constructor
  · intro run
    obtain ⟨⟨stay', p₁⟩, preprocessing, run⟩ := bind_eq_ok.mp run
    obtain ⟨⟨rounds', p₂⟩, online, run⟩ := bind_eq_ok.mp run
    obtain ⟨⟨rfl, rfl⟩, rfl⟩ := (Prod.mk.inj (Except.ok.inj run)).imp_left Prod.mk.inj
    rw [readInto_eq_ok closedReads (closed_nodup c)] at preprocessing
    rw [readInto_eq_ok roundReads all] at online
    obtain ⟨front, -, kept⟩ := preprocessing
    obtain ⟨back, zeros, -⟩ := online
    refine ⟨?_, fun j opened => (kept j opened).trans (blank j),
      fun k => zeros k (List.mem_finRange k)⟩
    rw [front, back, writeBody, List.append_assoc]
  · rintro ⟨rfl, read⟩
    rw [writeBody, List.append_assoc]
    refine bind_eq_ok.mpr ⟨(stay, _), (readInto_eq_ok closedReads (closed_nodup c)).mpr
      ⟨rfl, fun _ _ => trivial, fun j opened => (read.closed j opened).trans (blank j).symm⟩, ?_⟩
    refine bind_eq_ok.mpr ⟨(rounds, rest), (readInto_eq_ok roundReads all).mpr
      ⟨rfl, fun k _ => read.aux k, fun k outside => absurd (List.mem_finRange k) outside⟩, rfl⟩

end File

section Verify

variable (H : Hasher) (P : Params) (mHat : Vector Byte 32) (pkSeed : PkSeed)

/-- A failed read stops with its message. -/
def readOr (text : VerifyText) : Option α → Checked VerifyText α
  | some x => .ok x
  | none => .error (.check text)

theorem readOr_eq_ok {text : VerifyText} {o : Option α} {x : α} :
    readOr text o = .ok x ↔ o = some x := by
  cases o with
  | none => simp [readOr]
  | some y => simp [readOr]

/-- Header, challenge and body of the file. -/
def readProof (fuel : Nat) (pubout : Vector Word 8) (proof : List Byte) :
    Checked VerifyText (ProofData P) := do
  let ((magic, hdr), p) ← readOr .readHeader (headerCodec.read proof)
  check (magic = proofMagic) .badMagic
  check (hdr = proofHeader P) (.parameterMismatch hdr)
  let (nonce, p) ← readOr .readNonce ((Codec.array 32).read p)
  let (hStar, p) ← readOr .readHStar ((Codec.array 32).read p)
  let (ctr, p) ← readOr .readCtr (Codec.u32.read p)
  let drawn := kkwFsSeed H P (kkwFsPrefix H mHat pubout pkSeed nonce hStar) ctr
  check (drawn.2 = true) .grinding
  let c ← readOr .endless (kkwFsExpand H P fuel drawn.1)
  let ((stay, rounds), p) ← readBody c p
  check (p = []) .trailingData
  return { nonce, hStar, ctr, challenge := c, closed := stay, rounds }

/-- The hashes of an instance that is opened by its seed. -/
def closedHashes (seedStar : Seed) : Vector Byte 32 × Vector Byte 32 :=
  let seeds := expandSeedStar H seedStar P.parties
  let (aux, hOut) := computeAuxFromSeeds H seeds
  (preprocCommitInstance H seeds aux, hOut)

variable {P} {n : Nat}

/-- The commitments of an online instance; the one of the hidden party is in the proof. -/
def roundComs (e : Fin (n + 1)) (z : ZProof n) : Vector (Vector Byte 32) (n + 1) :=
  Vector.ofFn fun p => if p.val = e.val then z.comHidden
    else preprocComParty H p (z.ke[if p.val < e.val then p.val else p.val - 1]?.getD (.replicate _ 0))
      (if p.val = 0 then some z.aux else none)

/-- The run of `verify` on round `k`. -/
def verifyRound (d : ProofData P) (k : Fin P.numRounds) : Verified P.others :=
  verify H mHat pkSeed d.rounds[k].yp d.challenge.pOut[k] d.rounds[k].z

def hJAll (d : ProofData P) : Vector (Vector Byte 32) P.mKkw :=
  fillAt (fun k : Fin P.numRounds => d.challenge.cOut[k])
    (fun k => kkwTh H kkwDomHj ((roundComs H d.challenge.pOut[k] d.rounds[k].z).toList.flatMap
      Vector.toList))
    (Vector.ofFn fun j : Fin P.mKkw =>
      if inC d.challenge j then .replicate _ 0 else (closedHashes H P d.closed[j].1).1)

def hPrimeAll (d : ProofData P) : Vector (Vector Byte 32) P.mKkw :=
  fillAt (fun k : Fin P.numRounds => d.challenge.cOut[k])
    (fun k => (verifyRound H mHat pkSeed d k).hPrime) (d.closed.map Prod.snd)

def hOutAll (d : ProofData P) : Vector (Vector Byte 32) P.mKkw :=
  fillAt (fun k : Fin P.numRounds => d.challenge.cOut[k]) (fun k => hOut H d.rounds[k].yp)
    (Vector.ofFn fun j : Fin P.mKkw =>
      if inC d.challenge j then .replicate _ 0 else (closedHashes H P d.closed[j].1).2)

/-- `h_star` as the verifier recomputes it. -/
def hStarCheck (d : ProofData P) : Vector Byte 32 :=
  hStar H (hJAll H d) (hPrimeAll H mHat pkSeed d) (hOutAll H d)

def checkProof (pubout : Vector Word 8) (d : ProofData P) : Checked VerifyText Unit := do
  check (∀ k, (verifyRound H mHat pkSeed d k).error = false) .circuitCheck
  (List.finRange P.numRounds).forM fun k => (List.finRange 8).forM fun w =>
    check ((unmasked (verifyRound H mHat pkSeed d k).zhOut d.rounds[k].yp)[w] = pubout[w])
      (.circuitOutput k w)
  check (hStarCheck H mHat pkSeed d = d.hStar) .hStarMismatch

/-- The challenge seed of a proof. -/
def fsSeed (pubout : Vector Word 8) (d : ProofData P) : Vector Byte 32 × Bool :=
  kkwFsSeed H P (kkwFsPrefix H mHat pubout pkSeed d.nonce d.hStar) d.ctr

variable (P)

def kkwVerify (fuel : Nat) (proof : List Byte) (pubout : Vector Word 8) : Checked VerifyText Unit := do
  let d ← readProof H P mHat pkSeed fuel pubout proof
  checkProof H mHat pkSeed pubout d

variable {H P mHat pkSeed}

theorem forM_eq_ok {ι : Type} {l : List ι} {step : ι → Checked ε Unit} :
    l.forM step = .ok () ↔ ∀ i ∈ l, step i = .ok () := by
  induction l with
  | nil => exact ⟨fun _ _ none => absurd none List.not_mem_nil, fun _ => rfl⟩
  | cons i l ih =>
    rw [List.forM_eq_forM, List.forM_cons, bind_eq_ok]
    rw [List.forM_eq_forM] at ih
    rw [List.forall_mem_cons, ← ih]
    exact ⟨fun ⟨_, here, later⟩ => ⟨here, later⟩, fun ⟨here, later⟩ => ⟨(), here, later⟩⟩

/-- What an accepted proof is. -/
theorem checkProof_eq_ok {pubout : Vector Word 8} {d : ProofData P} :
    checkProof H mHat pkSeed pubout d = .ok () ↔
      (∀ k, (verifyRound H mHat pkSeed d k).error = false) ∧
      (∀ k : Fin P.numRounds,
        unmasked (verifyRound H mHat pkSeed d k).zhOut d.rounds[k].yp = pubout) ∧
      hStarCheck H mHat pkSeed d = d.hStar := by
  have words (k : Fin P.numRounds) : ((List.finRange 8).forM fun w => check
      ((unmasked (verifyRound H mHat pkSeed d k).zhOut d.rounds[k].yp)[w] = pubout[w])
      (VerifyText.circuitOutput k w)) = .ok () ↔
      unmasked (verifyRound H mHat pkSeed d k).zhOut d.rounds[k].yp = pubout := by
    rw [forM_eq_ok]
    simp only [check_eq_ok, List.mem_finRange, true_implies]
    exact ⟨fun same => Vector.ext fun w hw => same ⟨w, hw⟩, fun same w => by rw [same]⟩
  rw [checkProof]
  constructor
  · intro passed
    obtain ⟨_, errors, passed⟩ := bind_eq_ok.mp passed
    obtain ⟨_, outputs, last⟩ := bind_eq_ok.mp passed
    refine ⟨check_eq_ok.mp errors, fun k => ?_, check_eq_ok.mp last⟩
    exact (words k).mp (forM_eq_ok.mp outputs k (List.mem_finRange k))
  · rintro ⟨errors, outputs, last⟩
    refine bind_eq_ok.mpr ⟨(), check_eq_ok.mpr errors, bind_eq_ok.mpr ⟨(), ?_, check_eq_ok.mpr last⟩⟩
    exact forM_eq_ok.mpr fun k _ => (words k).mpr (outputs k)

/-- What is read: a written proof whose counter passes and whose challenge is the one of its first
fields. -/
theorem readProof_eq_ok {fuel : Nat} {pubout : Vector Word 8} {proof : List Byte} {d : ProofData P} :
    readProof H P mHat pkSeed fuel pubout proof = .ok d ↔
      proof = writeProof d ∧ AsRead d.challenge d.closed d.rounds ∧
      (fsSeed H mHat pkSeed pubout d).2 = true ∧
      kkwFsExpand H P fuel (fsSeed H mHat pkSeed pubout d).1 = some d.challenge := by
  rw [readProof]
  constructor
  · intro run
    obtain ⟨⟨⟨magic, hdr⟩, p₁⟩, header, run⟩ := bind_eq_ok.mp run
    obtain ⟨_, isMagic, run⟩ := bind_eq_ok.mp run
    obtain ⟨_, isHeader, run⟩ := bind_eq_ok.mp run
    obtain ⟨⟨nonce, p₂⟩, nonceRead, run⟩ := bind_eq_ok.mp run
    obtain ⟨⟨hStar, p₃⟩, hStarRead, run⟩ := bind_eq_ok.mp run
    obtain ⟨⟨ctr, p₄⟩, ctrRead, run⟩ := bind_eq_ok.mp run
    obtain ⟨_, passes, run⟩ := bind_eq_ok.mp run
    obtain ⟨c, expanded, run⟩ := bind_eq_ok.mp run
    obtain ⟨⟨⟨stay, rounds⟩, p₅⟩, body, run⟩ := bind_eq_ok.mp run
    obtain ⟨_, trailing, run⟩ := bind_eq_ok.mp run
    obtain rfl := Except.ok.inj run
    rw [readOr_eq_ok, Codec.read_eq_some] at header nonceRead hStarRead ctrRead
    obtain ⟨rfl, read⟩ := readBody_eq_ok.mp body
    obtain rfl := check_eq_ok.mp isMagic
    obtain rfl := check_eq_ok.mp isHeader
    obtain rfl := check_eq_ok.mp trailing
    refine ⟨?_, read, check_eq_ok.mp passes, readOr_eq_ok.mp expanded⟩
    rw [header, nonceRead, hStarRead, ctrRead, writeProof]
    simp only [List.append_assoc, List.append_nil]
  · rintro ⟨rfl, read, passes, expanded⟩
    rw [writeProof]
    simp only [List.append_assoc]
    refine bind_eq_ok.mpr ⟨_, readOr_eq_ok.mpr (headerCodec.read_write _ _), ?_⟩
    refine bind_eq_ok.mpr ⟨(), check_true rfl _, bind_eq_ok.mpr ⟨(), check_true rfl _, ?_⟩⟩
    refine bind_eq_ok.mpr ⟨_, readOr_eq_ok.mpr ((Codec.array 32).read_write _ _), ?_⟩
    refine bind_eq_ok.mpr ⟨_, readOr_eq_ok.mpr ((Codec.array 32).read_write _ _), ?_⟩
    refine bind_eq_ok.mpr ⟨_, readOr_eq_ok.mpr (Codec.u32.read_write _ _), ?_⟩
    refine bind_eq_ok.mpr ⟨(), check_true passes _, ?_⟩
    refine bind_eq_ok.mpr ⟨_, readOr_eq_ok.mpr expanded, ?_⟩
    refine bind_eq_ok.mpr ⟨((d.closed, d.rounds), []), readBody_eq_ok.mpr
      ⟨(List.append_nil _).symm, read⟩, ?_⟩
    exact bind_eq_ok.mpr ⟨(), check_true rfl _, rfl⟩

/-- The files that `kkw_verify` accepts. -/
theorem kkwVerify_eq_ok {fuel : Nat} {pubout : Vector Word 8} {proof : List Byte} :
    kkwVerify H P mHat pkSeed fuel proof pubout = .ok () ↔
      ∃ d, readProof H P mHat pkSeed fuel pubout proof = .ok d ∧
        checkProof H mHat pkSeed pubout d = .ok () := bind_eq_ok

end Verify

section Prove

variable (H : Hasher) (P : Params) (mHat : Vector Byte 32) (pkSeed : PkSeed)

/-- An instance of pass 1. -/
structure Instance (N : Nat) where
  seeds : Vector Seed N
  dPub : Witness
  views : Views N

/-- `expand_instance_into`, and the run of `building_views`. -/
def expandInstance (N : Nat) (input : Witness) (seedStar : Seed) : Instance N :=
  let seeds := expandSeedStar H seedStar N
  let lam := seeds.map (expandXshare H)
  let tapes := seeds.map (expandTape H)
  let dPub := xorShares input lam
  { seeds, dPub, views := buildingViews mHat pkSeed dPub lam tapes }

/-- What is sent of an opened instance. -/
def openRound {n : Nat} (I : Instance (n + 1)) (rJ : Vector Byte 32) (e : Fin (n + 1)) : Round n where
  yp := I.views.yp
  z := onlineProof e I.seeds I.dPub I.views.aux I.views.s
    (preprocComParty H e I.seeds[e] (if e.val = 0 then some I.views.aux else none)) rJ

/-- The messages of `kkw_prove`, a schedule that is refused before it, and a challenge that takes
more draws than the bound. -/
inductive ProveText where
  | schedule
  | random
  | pass1
  | randomNonce
  | endless
  deriving DecidableEq

def drawOr (text : ProveText) : Option α → Checked ProveText α
  | some x => .ok x
  | none => .error (.check text)

theorem drawOr_eq_ok {text : ProveText} {o : Option α} {x : α} :
    drawOr text o = .ok x ↔ o = some x := by
  cases o with
  | none => simp [drawOr]
  | some y => simp [drawOr]

/-- The first loop over the instances. -/
def passOne (input : Witness) (seedStars : Vector Seed P.mKkw) :
    Vector (Instance P.parties) P.mKkw :=
  seedStars.map (expandInstance H mHat pkSeed P.parties input)

variable {P}

def proverHPrimes (instances : Vector (Instance P.parties) P.mKkw)
    (rAll : Vector (Vector Byte 32) P.mKkw) : Vector (Vector Byte 32) P.mKkw :=
  Vector.ofFn fun j : Fin P.mKkw => computeHPrime H instances[j].dPub instances[j].views.s rAll[j]

def proverHStar (instances : Vector (Instance P.parties) P.mKkw)
    (rAll : Vector (Vector Byte 32) P.mKkw) : Vector Byte 32 :=
  hStar H (instances.map fun I => preprocCommitInstance H I.seeds I.views.aux)
    (proverHPrimes H instances rAll) (instances.map fun I => hOut H I.views.yp)

/-- The fields that are written under a challenge. -/
def proofData (instances : Vector (Instance P.parties) P.mKkw) (seedStars : Vector Seed P.mKkw)
    (rAll : Vector (Vector Byte 32) P.mKkw) (nonce : Vector Byte 32) (ctr : Word) (c : Challenge P) :
    ProofData P where
  nonce := nonce
  hStar := proverHStar H instances rAll
  ctr := ctr
  challenge := c
  closed := Vector.ofFn fun j : Fin P.mKkw => (seedStars[j], (proverHPrimes H instances rAll)[j])
  rounds := Vector.ofFn fun k : Fin P.numRounds =>
    openRound H instances[c.cOut[k]] rAll[c.cOut[k]] c.pOut[k]

variable (P)

def kkwProve (fuel : Nat) (input : Witness) (pubout : Vector Word 8) (random : List Byte) :
    Checked ProveText (List Byte) := do
  let (seedStars, random) ← drawOr .random (((Codec.array 32).loop P.mKkw).read random)
  let (rAll, random) ← drawOr .random (((Codec.array 32).loop P.mKkw).read random)
  let instances := passOne H P mHat pkSeed input seedStars
  check (∀ j : Fin P.mKkw, unmasked instances[j].views.zhOut instances[j].views.yp = pubout) .pass1
  let (nonce, _) ← drawOr .randomNonce ((Codec.array 32).read random)
  let hPre := kkwFsPrefix H mHat pubout pkSeed nonce (proverHStar H instances rAll)
  let (ctr, seedFS) ← drawOr .endless (grind H P hPre fuel 0)
  let c ← drawOr .endless (kkwFsExpand H P fuel seedFS)
  return writeProof (proofData H instances seedStars rAll nonce ctr c)

variable {H P mHat pkSeed}

section Honest

variable {n : Nat} (input : Witness) (seedStar : Seed) (rJ : Vector Byte 32)

/-- An opened instance in the verifier's hands. -/
theorem verify_openRound (e : Fin (n + 1)) :
    let I := expandInstance H mHat pkSeed (n + 1) input seedStar
    verify H mHat pkSeed (openRound H I rJ e).yp e (openRound H I rJ e).z =
      { error := false
        zhOut := I.views.zhOut
        sSlots := others e I.views.s
        hPrime := computeHPrime H I.dPub I.views.s rJ } :=
  verify_buildingViews mHat pkSeed _ (expandSeedStar H seedStar (n + 1)) e _ rJ

/-- The entry of a party that is not hidden. -/
theorem others_slot {e p : Fin (n + 1)} (shown : p ≠ e) (v : Vector α (n + 1)) (d : α) :
    (others e v)[if p.val < e.val then p.val else p.val - 1]?.getD d = v[p] := by
  obtain ⟨j, rfl⟩ := Fin.exists_succAbove_eq shown
  rw [slot_succAbove, others_get]

theorem preprocComParty_some (party : Nat) (seed : Seed) (aux : Vector Word ySize) :
    preprocComParty H party seed (if party = 0 then some aux else none) =
      preprocComParty H party seed (some aux) := by
  by_cases first : party = 0
  · rw [if_pos first]
  · rw [if_neg first, preprocComParty, preprocComParty]
    simp [first]

/-- The commitments that the verifier puts together are those of the prover. -/
theorem roundComs_openRound (I : Instance (n + 1)) (e : Fin (n + 1)) :
    roundComs H e (openRound H I rJ e).z = Vector.ofFn fun p : Fin (n + 1) =>
      preprocComParty H p I.seeds[p] (some I.views.aux) := by
  refine congrArg Vector.ofFn (funext fun p => ?_)
  by_cases hidden : p = e
  · subst hidden
    rw [if_pos rfl]
    exact preprocComParty_some p I.seeds[p] I.views.aux
  · rw [if_neg fun same => hidden (Fin.ext same), ← preprocComParty_some p]
    congr 1
    · exact others_slot hidden I.seeds _
    · by_cases first : p.val = 0
      · rw [if_pos first, if_pos first]
        have shown : e ≠ 0 := fun zero => hidden ((Fin.ext first : p = 0).trans zero.symm)
        exact congrArg some (shownAux_of_ne shown I.views.aux)
      · rw [if_neg first, if_neg first]

theorem closedHashes_expanded (mHat : Vector Byte 32) (pkSeed : PkSeed) (input : Witness)
    (seedStar : Seed) :
    closedHashes H P seedStar =
      let I := expandInstance H mHat pkSeed P.parties input seedStar
      (preprocCommitInstance H I.seeds I.views.aux, hOut H I.views.yp) := by
  have run := computeAuxFromSeeds_eq (H := H) (expandSeedStar H seedStar P.parties) mHat pkSeed
    (xorShares input ((expandSeedStar H seedStar P.parties).map (expandXshare H)))
  rw [closedHashes, run]
  rfl

end Honest

section Complete

variable {input : Witness} {seedStars : Vector Seed P.mKkw} {rAll : Vector (Vector Byte 32) P.mKkw}
  {nonce : Vector Byte 32} {ctr : Word} {c : Challenge P}

/-- A proof as it comes back from the file. -/
def asRead (d : ProofData P) : ProofData P :=
  { d with closed := Vector.ofFn fun j : Fin P.mKkw =>
      if inC d.challenge j then emptyClosed else d.closed[j] }

theorem not_inC {j : Fin P.mKkw} (apart : ∀ k : Fin P.numRounds, c.cOut[k] ≠ j) :
    ¬ inC c j = true := fun opened => (inC_iff.mp opened).elim apart

theorem writeBody_asRead (d : ProofData P) : writeBody d.challenge (asRead d).closed (asRead d).rounds =
    writeBody d.challenge d.closed d.rounds := by
  have stay : (closed d.challenge).flatMap (fun j => closedCodec.write (asRead d).closed[j]) =
      (closed d.challenge).flatMap fun j => closedCodec.write d.closed[j] := by
    refine List.flatMap_congr fun j member => ?_
    have outside : ¬ inC d.challenge j = true := not_inC (mem_closed.mp member)
    simp [asRead, outside]
  rw [writeBody, stay]
  rfl

theorem writeProof_asRead (d : ProofData P) : writeProof (asRead d) = writeProof d := by
  have body := writeBody_asRead d
  rw [writeProof, writeProof, ← body]
  rfl

theorem asRead_spec (d : ProofData P)
    (aux : ∀ k : Fin P.numRounds, d.challenge.pOut[k].val = 0 → d.rounds[k].z.aux = Vector.replicate _ 0) :
    AsRead d.challenge (asRead d).closed d.rounds where
  closed j opened := by
    have inside : inC d.challenge j = true := by
      rw [mem_closed, not_forall_not] at opened
      exact inC_iff.mpr opened
    simp [asRead, inside]
  aux := aux

section Recomputed

theorem map_fin {m : Nat} (f : α → β) (v : Vector α m) (j : Fin m) : (v.map f)[j] = f v[j] := by
  simp

theorem ofFn_fin {m : Nat} (f : Fin m → α) (j : Fin m) : (Vector.ofFn f)[j] = f j := by
  simp

variable (input seedStars rAll nonce ctr c)

/-- The data that the verifier reads of an honest proof. -/
def honestData (H : Hasher) (mHat : Vector Byte 32) (pkSeed : PkSeed) : ProofData P :=
  asRead (proofData H (passOne H P mHat pkSeed input seedStars) seedStars rAll nonce ctr c)

theorem honest_round (k : Fin P.numRounds) :
    (honestData input seedStars rAll nonce ctr c H mHat pkSeed).rounds[k] =
      openRound H (expandInstance H mHat pkSeed P.parties input seedStars[c.cOut[k]])
        rAll[c.cOut[k]] c.pOut[k] := by
  simp [honestData, asRead, proofData, passOne]

theorem honest_closed {j : Fin P.mKkw} (apart : ∀ k : Fin P.numRounds, c.cOut[k] ≠ j) :
    (honestData input seedStars rAll nonce ctr c H mHat pkSeed).closed[j] =
      (seedStars[j], (proverHPrimes H (passOne H P mHat pkSeed input seedStars) rAll)[j]) := by
  have outside : ¬ inC c j = true := not_inC apart
  simp [honestData, asRead, proofData, outside]

theorem verifyRound_honest (k : Fin P.numRounds) :
    let I := expandInstance H mHat pkSeed P.parties input seedStars[c.cOut[k]]
    verifyRound H mHat pkSeed (honestData input seedStars rAll nonce ctr c H mHat pkSeed) k =
      { error := false
        zhOut := I.views.zhOut
        sSlots := others c.pOut[k] I.views.s
        hPrime := computeHPrime H I.dPub I.views.s rAll[c.cOut[k]] } := by
  rw [verifyRound, honest_round]
  exact verify_openRound input seedStars[c.cOut[k]] rAll[c.cOut[k]] c.pOut[k]

theorem passOne_get (j : Fin P.mKkw) : (passOne H P mHat pkSeed input seedStars)[j] =
    expandInstance H mHat pkSeed P.parties input seedStars[j] := by
  simp [passOne]

theorem hJAll_honest : hJAll H (honestData input seedStars rAll nonce ctr c H mHat pkSeed) =
    (passOne H P mHat pkSeed input seedStars).map fun I =>
      preprocCommitInstance H I.seeds I.views.aux := by
  refine fillAt_eq (fun k => ?_) fun j apart => ?_
  · rw [honest_round, map_fin, passOne_get]
    exact congrArg (fun coms : Vector (Vector Byte 32) P.parties =>
      kkwTh H kkwDomHj (coms.toList.flatMap Vector.toList)) (roundComs_openRound _ _ _)
  · have outside : ¬ inC c j = true := not_inC apart
    rw [ofFn_fin, map_fin, passOne_get, honest_closed input seedStars rAll nonce ctr c apart]
    exact (if_neg outside).trans
      (congrArg Prod.fst (closedHashes_expanded mHat pkSeed input seedStars[j]))

theorem hPrimeAll_honest :
    hPrimeAll H mHat pkSeed (honestData input seedStars rAll nonce ctr c H mHat pkSeed) =
      proverHPrimes H (passOne H P mHat pkSeed input seedStars) rAll := by
  refine fillAt_eq (fun k => ?_) fun j apart => ?_
  · rw [verifyRound_honest, proverHPrimes, ofFn_fin, passOne_get]
    rfl
  · rw [map_fin, honest_closed input seedStars rAll nonce ctr c apart]

theorem hOutAll_honest : hOutAll H (honestData input seedStars rAll nonce ctr c H mHat pkSeed) =
    (passOne H P mHat pkSeed input seedStars).map fun I => hOut H I.views.yp := by
  refine fillAt_eq (fun k => ?_) fun j apart => ?_
  · rw [honest_round, map_fin, passOne_get]
    rfl
  · have outside : ¬ inC c j = true := not_inC apart
    rw [ofFn_fin, map_fin, passOne_get, honest_closed input seedStars rAll nonce ctr c apart]
    exact (if_neg outside).trans
      (congrArg Prod.snd (closedHashes_expanded mHat pkSeed input seedStars[j]))

/-- Whatever the challenge, the verifier recomputes the prover's `h_star`. -/
theorem hStarCheck_honest :
    hStarCheck H mHat pkSeed (honestData input seedStars rAll nonce ctr c H mHat pkSeed) =
      proverHStar H (passOne H P mHat pkSeed input seedStars) rAll := by
  rw [hStarCheck, hJAll_honest, hPrimeAll_honest, hOutAll_honest, proverHStar]

theorem honest_asRead (H : Hasher) (mHat : Vector Byte 32) (pkSeed : PkSeed) :
    AsRead c (honestData input seedStars rAll nonce ctr c H mHat pkSeed).closed
      (honestData input seedStars rAll nonce ctr c H mHat pkSeed).rounds := by
  refine asRead_spec (proofData H (passOne H P mHat pkSeed input seedStars) seedStars rAll nonce ctr c)
    fun k first => ?_
  have sent : (honestData input seedStars rAll nonce ctr c H mHat pkSeed).rounds[k] = _ :=
    honest_round input seedStars rAll nonce ctr c k
  change (honestData input seedStars rAll nonce ctr c H mHat pkSeed).rounds[k].z.aux = _
  rw [sent]
  exact if_neg (not_not.mpr first)

/-- Once the outputs are right, the verifier accepts whatever the challenge. -/
theorem checkProof_honest {pubout : Vector Word 8}
    (outputs : ∀ j : Fin P.mKkw,
      unmasked (passOne H P mHat pkSeed input seedStars)[j].views.zhOut
        (passOne H P mHat pkSeed input seedStars)[j].views.yp = pubout) :
    checkProof H mHat pkSeed pubout (honestData input seedStars rAll nonce ctr c H mHat pkSeed) =
      .ok () := by
  refine checkProof_eq_ok.mpr ⟨fun k => ?_, fun k => ?_, ?_⟩
  · rw [verifyRound_honest]
  · have output := outputs c.cOut[k]
    rw [passOne_get] at output
    rw [verifyRound_honest, honest_round]
    exact output
  · exact hStarCheck_honest input seedStars rAll nonce ctr c

end Recomputed

/-- A proof that the prover has written is accepted, also where the verifier may draw longer. -/
theorem kkwVerify_kkwProve {fuel fuel' : Nat} {pubout : Vector Word 8} {random bytes : List Byte}
    (longer : fuel ≤ fuel')
    (proved : kkwProve H P mHat pkSeed fuel input pubout random = .ok bytes) :
    kkwVerify H P mHat pkSeed fuel' bytes pubout = .ok () := by
  obtain ⟨⟨seedStars, random₁⟩, _, proved⟩ := bind_eq_ok.mp proved
  obtain ⟨⟨rAll, random₂⟩, _, proved⟩ := bind_eq_ok.mp proved
  obtain ⟨_, outputs, proved⟩ := bind_eq_ok.mp proved
  obtain ⟨⟨nonce, random₃⟩, _, proved⟩ := bind_eq_ok.mp proved
  obtain ⟨⟨ctr, seedFS⟩, found, proved⟩ := bind_eq_ok.mp proved
  obtain ⟨c, expanded, proved⟩ := bind_eq_ok.mp proved
  obtain rfl := Except.ok.inj proved
  have seed := grind_eq_some (drawOr_eq_ok.mp found)
  refine kkwVerify_eq_ok.mpr ⟨honestData input seedStars rAll nonce ctr c H mHat pkSeed,
    readProof_eq_ok.mpr ⟨(writeProof_asRead _).symm,
      honest_asRead input seedStars rAll nonce ctr c H mHat pkSeed, congrArg Prod.snd seed, ?_⟩,
    checkProof_honest input seedStars rAll nonce ctr c (check_eq_ok.mp outputs)⟩
  have draws : (fsSeed H mHat pkSeed pubout
      (honestData input seedStars rAll nonce ctr c H mHat pkSeed)).1 = seedFS := congrArg Prod.fst seed
  rw [draws]
  exact kkwFsExpand_more (drawOr_eq_ok.mp expanded) longer

end Complete

end Prove

section Success

variable {H : Hasher} {P : Params} {mHat : Vector Byte 32} {pkSeed : PkSeed} {input : Witness}
  {seedStars : Vector Seed P.mKkw} {rAll : Vector (Vector Byte 32) P.mKkw} {nonce : Vector Byte 32}

/-- Unmasked, every instance has the output of the witness. -/
theorem passOne_output (j : Fin P.mKkw) :
    unmasked (passOne H P mHat pkSeed input seedStars)[j].views.zhOut
      (passOne H P mHat pkSeed input seedStars)[j].views.yp = plainOutput mHat pkSeed input := by
  rw [passOne_get]
  have output := unmasked_buildingViews mHat pkSeed
    (xorShares input ((expandSeedStar H seedStars[j] P.parties).map (expandXshare H)))
    ((expandSeedStar H seedStars[j] P.parties).map (expandXshare H))
    ((expandSeedStar H seedStars[j] P.parties).map (expandTape H))
  rw [xorShares_xorShares] at output
  exact output

/-- A prover whose witness has the public output stops for lack of randomness or of a challenge
only. -/
theorem kkwProve_eq {pubout : Vector Word 8} (output : plainOutput mHat pkSeed input = pubout)
    (fuel : Nat) (rest : List Byte) :
    kkwProve H P mHat pkSeed fuel input pubout (((Codec.array 32).loop P.mKkw).write seedStars ++
      (((Codec.array 32).loop P.mKkw).write rAll ++ ((Codec.array 32).write nonce ++ rest))) =
    (do
      let instances := passOne H P mHat pkSeed input seedStars
      let hPre := kkwFsPrefix H mHat pubout pkSeed nonce (proverHStar H instances rAll)
      let (ctr, seedFS) ← drawOr .endless (grind H P hPre fuel 0)
      let c ← drawOr .endless (kkwFsExpand H P fuel seedFS)
      return writeProof (proofData H instances seedStars rAll nonce ctr c)) := by
  have outputs : ∀ j : Fin P.mKkw, unmasked (passOne H P mHat pkSeed input seedStars)[j].views.zhOut
      (passOne H P mHat pkSeed input seedStars)[j].views.yp = pubout :=
    fun j => (passOne_output j).trans output
  rw [kkwProve, Codec.read_write]
  simp only [drawOr, bind, Except.bind, Codec.read_write]
  rw [check_true outputs]

end Success

end BlindSig.Kkw
