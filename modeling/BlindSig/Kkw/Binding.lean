import BlindSig.Kkw.Proof

/-! Why a proof has one body for its first fields: every field of it is hashed into `h_star`, one way
or another. -/
namespace BlindSig.Kkw

section Calls

variable {P : Params} (H : Hasher) (mHat : Vector Byte 32) (pkSeed : PkSeed)

/-- The commitment of a party; the one of party 0 covers the auxiliary words. -/
def comCall (party : Fin P.parties) (seed : Seed) (aux : Vector Word ySize) : ThCall P :=
  if party.val = 0 then .ppcomAux seed aux else .ppcom party seed

/-- For an instance that is opened by its seed. -/
def closedCalls (seedStar : Seed) : List (ThCall P) :=
  let seeds := expandSeedStar H seedStar P.parties
  let aux := (computeAuxFromSeeds H seeds).1
  .hj (Vector.ofFn fun p : Fin P.parties => preprocComParty H p seeds[p] (some aux)) ::
    (List.finRange P.parties).map fun p => comCall p seeds[p] aux

/-- For round `k`; nothing is hashed for the hidden party alone. -/
def openedCalls (d : ProofData P) (k : Fin P.numRounds) : List (ThCall P) :=
  let e := d.challenge.pOut[k]
  let z := d.rounds[k].z
  let sSlots := (verifyRound H mHat pkSeed d k).sSlots
  .hj (roundComs H e z) :: .hPrime z.xOffset (Vector.ofFn (slotRow e sSlots z.msgsE)) z.rJ ::
    .hOut d.rounds[k].yp :: (List.finRange P.others).map fun q => comCall (e.succAbove q) z.ke[q] z.aux

/-- Over all instances. -/
def finalCalls (d : ProofData P) : List (ThCall P) :=
  let hVal : ThCall P := .hStar1 (hJAll H d)
  let hPrimeVal : ThCall P := .hStar2 (hPrimeAll H mHat pkSeed d)
  let hOutVal : ThCall P := .hStar3 (hOutAll H d)
  [hVal, hPrimeVal, hOutVal, .hStar (hVal.out H 32) (hPrimeVal.out H 32) (hOutVal.out H 32)]

/-- The calls of the tweakable hash on the way from the fields of a proof to `h_star`. The hash of
the output masks of an instance that is opened by its seed is left out. -/
def verifierCalls (d : ProofData P) : List (ThCall P) :=
  finalCalls H mHat pkSeed d ++ ((closed d.challenge).flatMap (fun j => closedCalls H d.closed[j].1) ++
    (List.finRange P.numRounds).flatMap (openedCalls H mHat pkSeed d))

/-- No collision between two verifications: of calls of the tweakable hash in one domain, and of the
seeds of the instances that are opened by them. -/
structure CollisionFree (d d' : ProofData P) : Prop where
  th : ∀ a ∈ verifierCalls H mHat pkSeed d, ∀ b ∈ verifierCalls H mHat pkSeed d', a.domain = b.domain →
    H.deriveKey a.framed 32 = H.deriveKey b.framed 32 → a.framed = b.framed
  xof : ∀ j ∈ closed d.challenge, ∀ j' ∈ closed d'.challenge,
    H.keyed d.closed[j].1 XofCall.kkwSeeds.input (P.parties * 32) =
      H.keyed d'.closed[j'].1 XofCall.kkwSeeds.input (P.parties * 32) → d.closed[j].1 = d'.closed[j'].1

end Calls

section Members

variable {P : Params} {H : Hasher} {mHat : Vector Byte 32} {pkSeed : PkSeed} {d d' : ProofData P}

/-- Equal outputs come from equal calls. -/
theorem CollisionFree.call (free : CollisionFree H mHat pkSeed d d') {a b : ThCall P}
    (ours : a ∈ verifierCalls H mHat pkSeed d) (theirs : b ∈ verifierCalls H mHat pkSeed d')
    (domains : a.domain = b.domain) (same : a.out H 32 = b.out H 32) : a = b := by
  have calls := (hashCalls H P).out
  rw [calls a 32 (by decide), calls b 32 (by decide)] at same
  exact ThCall.framed_injective (free.th a ours b theirs domains same)

theorem preprocComParty_comCall (party : Fin P.parties) (seed : Seed) (aux : Vector Word ySize) :
    preprocComParty H party seed (some aux) = (comCall party seed aux).out H 32 := by
  refine ((hashCalls H P).ppcom party seed (some aux)).trans ?_
  by_cases first : party.val = 0
  · simp only [comCall, if_pos first]
  · simp only [comCall, if_neg first]

theorem comCall_domain (party : Fin P.parties) (seed : Seed) (aux : Vector Word ySize) :
    (comCall party seed aux).domain = chars kkwDomPpcom := by
  by_cases first : party.val = 0
  · rw [comCall, if_pos first]
    rfl
  · rw [comCall, if_neg first]
    rfl

theorem comCall_inj {party : Fin P.parties} {seed seed' : Seed} {aux aux' : Vector Word ySize}
    (same : comCall party seed aux = comCall party seed' aux') :
    seed = seed' ∧ (party.val = 0 → aux = aux') := by
  by_cases first : party.val = 0
  · rw [comCall, comCall, if_pos first, if_pos first] at same
    obtain ⟨seeds, words⟩ := ThCall.ppcomAux.inj same
    exact ⟨seeds, fun _ => words⟩
  · rw [comCall, comCall, if_neg first, if_neg first] at same
    exact ⟨(ThCall.ppcom.inj same).2, fun zero => absurd zero first⟩

theorem mem_final {a : ThCall P} (member : a ∈ finalCalls H mHat pkSeed d) :
    a ∈ verifierCalls H mHat pkSeed d := List.mem_append_left _ member

theorem mem_closedCalls {j : Fin P.mKkw} (stays : j ∈ closed d.challenge) {a : ThCall P}
    (member : a ∈ closedCalls H d.closed[j].1) : a ∈ verifierCalls H mHat pkSeed d :=
  List.mem_append_right _ (List.mem_append_left _ (List.mem_flatMap.mpr ⟨j, stays, member⟩))

theorem mem_openedCalls {k : Fin P.numRounds} {a : ThCall P}
    (member : a ∈ openedCalls H mHat pkSeed d k) : a ∈ verifierCalls H mHat pkSeed d :=
  List.mem_append_right _ (List.mem_append_right _
    (List.mem_flatMap.mpr ⟨k, List.mem_finRange k, member⟩))

/-- The commitment that the verifier puts in for a party that is not hidden. -/
theorem roundComs_succAbove (e : Fin P.parties) (z : ZProof P.others) (q : Fin P.others) :
    (roundComs H e z)[e.succAbove q] = (comCall (e.succAbove q) z.ke[q] z.aux).out H 32 := by
  have shown : (e.succAbove q).val ≠ e.val := fun same => Fin.succAbove_ne e q (Fin.ext same)
  rw [roundComs, ofFn_fin, if_neg shown, slot_succAbove, preprocComParty_some]
  exact preprocComParty_comCall _ _ _

theorem roundComs_hidden (e : Fin P.parties) (z : ZProof P.others) :
    (roundComs H e z)[e] = z.comHidden := by
  rw [roundComs, ofFn_fin, if_pos rfl]

end Members

attribute [ext] ZProof Round

section Bound

variable {P : Params} {H : Hasher} {mHat : Vector Byte 32} {pkSeed : PkSeed} {d d' : ProofData P}

/-- What is hashed into `h_star`. -/
theorem hashes_bound (free : CollisionFree H mHat pkSeed d d')
    (same : hStarCheck H mHat pkSeed d = hStarCheck H mHat pkSeed d') :
    hJAll H d = hJAll H d' ∧ hPrimeAll H mHat pkSeed d = hPrimeAll H mHat pkSeed d' ∧
      hOutAll H d = hOutAll H d' := by
  have members (d : ProofData P) : ∀ a ∈ finalCalls H mHat pkSeed d, a ∈ verifierCalls H mHat pkSeed d :=
    fun a => mem_final
  simp only [finalCalls, List.forall_mem_cons] at members
  obtain ⟨one, two, three, four, -⟩ := members d
  obtain ⟨one', two', three', four', -⟩ := members d'
  rw [hStarCheck, hStarCheck, (hashCalls H P).hStar, (hashCalls H P).hStar] at same
  obtain ⟨hVals, hPrimeVals, hOutVals⟩ :=
    ThCall.hStar.inj (free.call four four' (by simp only [ThCall.domain]) same)
  exact ⟨ThCall.hStar1.inj (free.call one one' (by simp only [ThCall.domain]) hVals),
    ThCall.hStar2.inj (free.call two two' (by simp only [ThCall.domain]) hPrimeVals),
    ThCall.hStar3.inj (free.call three three' (by simp only [ThCall.domain]) hOutVals)⟩

/-! The entries of an instance in the three lists. -/

theorem hJAll_opened (distinct : Function.Injective fun k : Fin P.numRounds => d.challenge.cOut[k])
    (k : Fin P.numRounds) : (hJAll H d)[d.challenge.cOut[k]] =
      (ThCall.hj (roundComs H d.challenge.pOut[k] d.rounds[k].z) : ThCall P).out H 32 :=
  fillAt_at distinct _ _ k

theorem hPrimeAll_opened (distinct : Function.Injective fun k : Fin P.numRounds => d.challenge.cOut[k])
    (k : Fin P.numRounds) : (hPrimeAll H mHat pkSeed d)[d.challenge.cOut[k]] =
      (ThCall.hPrime d.rounds[k].z.xOffset (Vector.ofFn (slotRow d.challenge.pOut[k]
        (verifyRound H mHat pkSeed d k).sSlots d.rounds[k].z.msgsE)) d.rounds[k].z.rJ : ThCall P).out H 32 :=
  (fillAt_at distinct _ _ k).trans ((hashCalls H P).hPrimeVerify _ _ _ _ _)

theorem hOutAll_opened (distinct : Function.Injective fun k : Fin P.numRounds => d.challenge.cOut[k])
    (k : Fin P.numRounds) : (hOutAll H d)[d.challenge.cOut[k]] =
      (ThCall.hOut d.rounds[k].yp : ThCall P).out H 32 :=
  fillAt_at distinct _ _ k

theorem hJAll_closed {j : Fin P.mKkw} (stays : j ∈ closed d.challenge) : (hJAll H d)[j] =
    preprocCommitInstance H (expandSeedStar H d.closed[j].1 P.parties)
      (computeAuxFromSeeds H (expandSeedStar H d.closed[j].1 P.parties)).1 := by
  have apart := mem_closed.mp stays
  refine (fillAt_other _ _ apart).trans ?_
  rw [ofFn_fin]
  exact if_neg (not_inC apart)

theorem hPrimeAll_closed {j : Fin P.mKkw} (stays : j ∈ closed d.challenge) :
    (hPrimeAll H mHat pkSeed d)[j] = d.closed[j].2 := by
  refine (fillAt_other _ _ (mem_closed.mp stays)).trans ?_
  rw [map_fin]

/-- The seed of an instance goes through the seeds of its parties. -/
theorem closed_bound (free : CollisionFree H mHat pkSeed d d') {j : Fin P.mKkw}
    (stays : j ∈ closed d.challenge) (stays' : j ∈ closed d'.challenge)
    (commitments : hJAll H d = hJAll H d')
    (hPrimes : hPrimeAll H mHat pkSeed d = hPrimeAll H mHat pkSeed d') : d.closed[j] = d'.closed[j] := by
  have hj := hJAll_closed (H := H) stays
  rw [commitments, hJAll_closed stays', (hashCalls H P).hj, (hashCalls H P).hj] at hj
  have members (d : ProofData P) (stays : j ∈ closed d.challenge) :
      ∀ a ∈ closedCalls H d.closed[j].1, a ∈ verifierCalls H mHat pkSeed d := fun a => mem_closedCalls stays
  simp only [closedCalls, List.forall_mem_cons] at members
  obtain ⟨whole, parts⟩ := members d stays
  obtain ⟨whole', parts'⟩ := members d' stays'
  have coms := ThCall.hj.inj (free.call whole whole' (by simp only [ThCall.domain]) hj.symm)
  have seeds : expandSeedStar H d.closed[j].1 P.parties = expandSeedStar H d'.closed[j].1 P.parties := by
    apply Vector.ext
    intro i hi
    let p : Fin P.parties := ⟨i, hi⟩
    have com := congrArg (fun v : Vector (Vector Byte 32) P.parties => v[p]) coms
    simp only [ofFn_fin] at com
    rw [preprocComParty_comCall, preprocComParty_comCall] at com
    have here (seed : Seed) (aux : Vector Word ySize) := comCall_domain p seed aux
    exact (comCall_inj (free.call (parts _ (List.mem_map_of_mem (List.mem_finRange p)))
      (parts' _ (List.mem_map_of_mem (List.mem_finRange p))) ((here _ _).trans (here _ _).symm) com)).1
  have stars : d.closed[j].1 = d'.closed[j].1 := by
    rw [(hashCalls H P).seeds, (hashCalls H P).seeds] at seeds
    exact free.xof j stays j stays' (Function.LeftInverse.injective join_rows seeds)
  have last : (hPrimeAll H mHat pkSeed d)[j] = d.closed[j].2 := hPrimeAll_closed stays
  rw [hPrimes, hPrimeAll_closed stays'] at last
  exact Prod.ext stars last.symm

/-- The seeds and the auxiliary words of a round go through the commitments of the parties, the
words and the witness that are sent through the hash of the transcript. -/
theorem round_bound (free : CollisionFree H mHat pkSeed d d') (challenge : d.challenge = d'.challenge)
    (distinct : Function.Injective fun k : Fin P.numRounds => d.challenge.cOut[k])
    (read : AsRead d.challenge d.closed d.rounds) (read' : AsRead d'.challenge d'.closed d'.rounds)
    (commitments : hJAll H d = hJAll H d')
    (hPrimes : hPrimeAll H mHat pkSeed d = hPrimeAll H mHat pkSeed d')
    (hOuts : hOutAll H d = hOutAll H d') (k : Fin P.numRounds) : d.rounds[k] = d'.rounds[k] := by
  have distinct' : Function.Injective fun k : Fin P.numRounds => d'.challenge.cOut[k] :=
    challenge ▸ distinct
  have members (d : ProofData P) :
      ∀ a ∈ openedCalls H mHat pkSeed d k, a ∈ verifierCalls H mHat pkSeed d := fun a => mem_openedCalls
  simp only [openedCalls, List.forall_mem_cons] at members
  obtain ⟨hj, hPrime, hOut, parts⟩ := members d
  obtain ⟨hj', hPrime', hOut', parts'⟩ := members d'
  have hidden : d'.challenge.pOut[k] = d.challenge.pOut[k] := by rw [challenge]
  have zeros := read.aux k
  have zeros' := read'.aux k
  have commitment := hJAll_opened (H := H) distinct' k
  have transcript : (hPrimeAll H mHat pkSeed d')[d'.challenge.cOut[k]] = _ := hPrimeAll_opened distinct' k
  have output := hOutAll_opened (H := H) distinct' k
  rw [← challenge] at commitment transcript output
  rw [← commitments, hJAll_opened distinct] at commitment
  rw [← hPrimes, hPrimeAll_opened distinct] at transcript
  rw [← hOuts, hOutAll_opened distinct] at output
  rw [hidden] at hj' hPrime' parts' zeros'
  have coms := ThCall.hj.inj (free.call hj hj' (by simp only [ThCall.domain]) commitment)
  obtain ⟨offsets, rows, randoms⟩ :=
    ThCall.hPrime.inj (free.call hPrime hPrime' (by simp only [ThCall.domain]) transcript)
  have masks := ThCall.hOut.inj (free.call hOut hOut' (by simp only [ThCall.domain]) output)
  generalize d.challenge.pOut[k] = e at *
  have slot (q : Fin P.others) : d.rounds[k].z.ke[q] = d'.rounds[k].z.ke[q] ∧
      ((e.succAbove q).val = 0 → d.rounds[k].z.aux = d'.rounds[k].z.aux) := by
    have com := congrArg (fun v : Vector (Vector Byte 32) P.parties => v[e.succAbove q]) coms
    simp only [roundComs_succAbove] at com
    have here (seed : Seed) (aux : Vector Word ySize) := comCall_domain (e.succAbove q) seed aux
    exact comCall_inj (free.call (parts _ (List.mem_map_of_mem (List.mem_finRange q)))
      (parts' _ (List.mem_map_of_mem (List.mem_finRange q))) ((here _ _).trans (here _ _).symm) com)
  have seeds : d.rounds[k].z.ke = d'.rounds[k].z.ke := Vector.ext fun q hq => (slot ⟨q, hq⟩).1
  have words : d.rounds[k].z.aux = d'.rounds[k].z.aux := by
    by_cases first : e.val = 0
    · rw [zeros first, zeros' first]
    · obtain ⟨q, zero⟩ := Fin.exists_succAbove_eq (show (0 : Fin P.parties) ≠ e from
        fun same => first (congrArg Fin.val same).symm)
      exact (slot q).2 (congrArg Fin.val zero)
  have hiddenCom := congrArg (fun v : Vector (Vector Byte 32) P.parties => v[e]) coms
  simp only [roundComs_hidden] at hiddenCom
  have messages := congrArg (fun v : Vector (Vector Word ySize) P.parties => v[e]) rows
  simp only [ofFn_fin, slotRow, if_true] at messages
  exact Round.ext masks (ZProof.ext seeds offsets words messages hiddenCom randoms)

/-- Two proofs with one challenge and one `h_star` have the same body. -/
theorem body_bound (free : CollisionFree H mHat pkSeed d d') (challenge : d.challenge = d'.challenge)
    (distinct : Function.Injective fun k : Fin P.numRounds => d.challenge.cOut[k])
    (read : AsRead d.challenge d.closed d.rounds) (read' : AsRead d'.challenge d'.closed d'.rounds)
    (same : hStarCheck H mHat pkSeed d = hStarCheck H mHat pkSeed d') :
    d.closed = d'.closed ∧ d.rounds = d'.rounds := by
  obtain ⟨commitments, hPrimes, hOuts⟩ := hashes_bound free same
  constructor
  · apply Vector.ext
    intro i hi
    let j : Fin P.mKkw := ⟨i, hi⟩
    change d.closed[j] = d'.closed[j]
    by_cases stays : j ∈ closed d.challenge
    · exact closed_bound free stays (challenge ▸ stays) commitments hPrimes
    · rw [read.closed j stays, read'.closed j (challenge ▸ stays)]
  · apply Vector.ext
    intro i hi
    exact round_bound free challenge distinct read read' commitments hPrimes hOuts ⟨i, hi⟩

end Bound

section Fields

/-- `nonce || h_star || ctr`, behind the header. -/
def proofFields (proof : List Byte) : List Byte := (proof.drop 24).take 68

def fieldsCodec : Codec (Vector Byte 32 × Vector Byte 32 × Word) :=
  (Codec.array 32).seq ((Codec.array 32).seq Codec.u32)

variable {P : Params}

theorem proofFields_writeProof (d : ProofData P) :
    proofFields (writeProof d) = fieldsCodec.write (d.nonce, d.hStar, d.ctr) := by
  have whole : writeProof d = headerCodec.write (proofMagic, proofHeader P) ++
      (fieldsCodec.write (d.nonce, d.hStar, d.ctr) ++ writeBody d.challenge d.closed d.rounds) := by
    simp only [writeProof, fieldsCodec, Codec.seq, List.append_assoc]
  have header : (headerCodec.write (proofMagic, proofHeader P)).length = 24 := headerCodec.length_write _
  have fields : (fieldsCodec.write (d.nonce, d.hStar, d.ctr)).length = 68 := fieldsCodec.length_write _
  rw [proofFields, whole, List.drop_left' header, List.take_left' fields]

theorem proofFields_inj {d d' : ProofData P}
    (agree : proofFields (writeProof d) = proofFields (writeProof d')) :
    d.nonce = d'.nonce ∧ d.hStar = d'.hStar ∧ d.ctr = d'.ctr := by
  rw [proofFields_writeProof, proofFields_writeProof] at agree
  have read := fieldsCodec.read_write (d.nonce, d.hStar, d.ctr) []
  rw [agree, Codec.read_write] at read
  obtain ⟨nonces, rest⟩ := Prod.mk.inj (Prod.mk.inj (Option.some.inj read)).1
  obtain ⟨hStars, ctrs⟩ := Prod.mk.inj rest
  exact ⟨nonces.symm, hStars.symm, ctrs.symm⟩

end Fields

/-- The instances of a challenge that are opened differ. -/
theorem opened_distinct {H : Hasher} {P : Params} {fuel : Nat} {seedFS : Vector Byte 32} {c : Challenge P}
    (expanded : kkwFsExpand H P fuel seedFS = some c) :
    Function.Injective fun k : Fin P.numRounds => c.cOut[k] :=
  StrictMono.injective fun i j => (kkwFsExpand_drawn expanded).1 i j

section Binding

variable (H : Hasher) (P : Params) (mHat : Vector Byte 32) (pkSeed : PkSeed)

/-- An accepted proof is the only one with its nonce, its `h_star` and its counter, as far as the
hashes on both ways to `h_star` do not collide. -/
theorem proof_bound (fuel : Nat) (pubout : Vector Word 8) {proof proof' : List Byte}
    (accepted : kkwVerify H P mHat pkSeed fuel proof pubout = .ok ())
    (agree : proofFields proof' = proofFields proof)
    (free : ∀ d d', readProof H P mHat pkSeed fuel pubout proof = .ok d →
      readProof H P mHat pkSeed fuel pubout proof' = .ok d' → CollisionFree H mHat pkSeed d d') :
    kkwVerify H P mHat pkSeed fuel proof' pubout = .ok () ↔ proof' = proof := by
  constructor
  · intro accepted'
    obtain ⟨d, read, checked⟩ := kkwVerify_eq_ok.mp accepted
    obtain ⟨d', read', checked'⟩ := kkwVerify_eq_ok.mp accepted'
    have apart := free d d' read read'
    obtain ⟨rfl, asRead, -, expanded⟩ := readProof_eq_ok.mp read
    obtain ⟨rfl, asRead', -, expanded'⟩ := readProof_eq_ok.mp read'
    obtain ⟨nonces, hStars, ctrs⟩ := proofFields_inj agree
    have seeds : fsSeed H mHat pkSeed pubout d' = fsSeed H mHat pkSeed pubout d := by
      rw [fsSeed, fsSeed, nonces, hStars, ctrs]
    rw [seeds, expanded] at expanded'
    have challenge := Option.some.inj expanded'
    have recomputed := (checkProof_eq_ok.mp checked).2.2
    have recomputed' := (checkProof_eq_ok.mp checked').2.2
    obtain ⟨stay, rounds⟩ := body_bound apart challenge (opened_distinct expanded) asRead asRead'
      (recomputed.trans (hStars.symm.trans recomputed'.symm))
    rw [writeProof, writeProof, nonces, hStars, ctrs, challenge, stay, rounds]
  · rintro rfl
    exact accepted

end Binding

section Echo

/-! A hasher that shows what it hashes, and a proof under it. -/

/-- The first bytes of the data, of a transcript the last 32. The seed of an instance is the one of
each of its parties, and masks and tapes are zero. -/
def echoHasher : Hasher where
  deriveKey m len :=
    let data := m.drop (4 + (m.headD 0).toNat)
    let shown := if (m.drop 4).take (m.headD 0).toNat = chars kkwDomHprime then
      data.drop (data.length - 32) else data
    Vector.ofFn fun i : Fin len => shown.getD i 0
  keyed key m len :=
    if m.length = XofCall.kkwSeeds.size then Vector.ofFn fun i : Fin len => key.toList.getD (i % 32) 0
    else Vector.replicate _ 0

variable {P : Params}

theorem frame_head {n : Nat} (short : n ≤ 28) (rest : List Byte) :
    (((frame n).toList ++ rest).headD 0).toNat = n := by
  have head : ((frame n).toList ++ rest).headD 0 = byteAt (BitVec.ofNat 32 n) 0 := rfl
  rw [head, byteAt]
  simp
  omega

theorem echo_out (c : ThCall P) : c.out echoHasher 32 = Vector.ofFn fun i : Fin 32 =>
    (if c.domain = chars kkwDomHprime then c.data.drop (c.data.length - 32) else c.data).getD i 0 := by
  have behind : c.framed.drop 4 = c.domain ++ c.data := by
    rw [ThCall.framed, List.append_assoc]
    exact List.drop_left' rfl
  have data : c.framed.drop (4 + c.domain.length) = c.data := by
    rw [← List.drop_drop, behind, List.drop_left]
  have head : (c.framed.headD 0).toNat = c.domain.length := by
    rw [ThCall.framed, List.append_assoc]
    exact frame_head c.length_domain _
  rw [(hashCalls echoHasher P).out c 32 (by decide)]
  simp only [echoHasher, head, data, behind, List.take_left]

theorem echo_data {c : ThCall P} (other : c.domain ≠ chars kkwDomHprime) {front : Vector Byte 32}
    {rest : List Byte} (split : c.data = front.toList ++ rest) : c.out echoHasher 32 = front := by
  rw [echo_out, if_neg other, split]
  apply Vector.ext
  intro i hi
  simp [List.getD_eq_getElem?_getD, List.getElem?_append_left]

theorem echo_hPrime (dPub : Witness) (s : Vector (Vector Word ySize) P.parties) (rJ : Vector Byte 32) :
    (ThCall.hPrime dPub s rJ : ThCall P).out echoHasher 32 = rJ := by
  have last : ((dPub.toList ++ rowBytes s ++ rJ.toList).drop
      ((dPub.toList ++ rowBytes s ++ rJ.toList).length - 32)) = rJ.toList := by
    rw [List.length_append, Vector.length_toList, Nat.add_sub_cancel, List.drop_left]
  rw [echo_out]
  simp only [ThCall.domain, ThCall.data, if_true, last]
  apply Vector.ext
  intro i hi
  simp [List.getD_eq_getElem?_getD]

/-- A list of hashes shows its first entry. -/
theorem flatMap_front {n : Nat} (v : Vector (Vector Byte 32) n) (hn : 0 < n) :
    ∃ rest, v.toList.flatMap Vector.toList = v[0].toList ++ rest := by
  obtain ⟨first, rest, split⟩ := List.exists_cons_of_length_pos (l := v.toList) (by simpa using hn)
  have head : v[0] = first := by
    have entry : v.toList[0]? = some v[0] := by simp
    rw [split] at entry
    exact (Option.some.inj entry).symm
  rw [split, head]
  exact ⟨_, rfl⟩

theorem echo_hj (coms : Vector (Vector Byte 32) P.parties) :
    (ThCall.hj coms : ThCall P).out echoHasher 32 = coms[0] := by
  obtain ⟨rest, data⟩ := flatMap_front coms (Nat.succ_pos _)
  have other : (ThCall.hj coms : ThCall P).domain ≠ chars kkwDomHprime := by
    rw [ThCall.domain]
    decide
  exact echo_data other data

theorem echo_hStar1 (hJs : Vector (Vector Byte 32) P.mKkw) {j : Fin P.mKkw} (zero : j.val = 0) :
    (ThCall.hStar1 hJs : ThCall P).out echoHasher 32 = hJs[j] := by
  obtain ⟨rest, data⟩ := flatMap_front hJs (Nat.zero_lt_of_lt j.isLt)
  have other : (ThCall.hStar1 hJs : ThCall P).domain ≠ chars kkwDomHprime := by
    rw [ThCall.domain]
    decide
  rw [getElem_fin]
  simp only [zero]
  exact echo_data other data

theorem echo_hStar (hVal hPrimeVal hOutVal : Vector Byte 32) :
    (ThCall.hStar hVal hPrimeVal hOutVal : ThCall P).out echoHasher 32 = hVal := by
  have data : (ThCall.hStar hVal hPrimeVal hOutVal : ThCall P).data =
      hVal.toList ++ (hPrimeVal.toList ++ hOutVal.toList) := by
    rw [ThCall.data, Vector.toList_append, Vector.toList_append, List.append_assoc]
  have other : (ThCall.hStar hVal hPrimeVal hOutVal : ThCall P).domain ≠ chars kkwDomHprime := by
    rw [ThCall.domain]
    decide
  exact echo_data other data

theorem echo_fs (msg : Vector Byte 32) (pubout : Vector Word 8) (pkSeed : PkSeed)
    (nonce hStarVal : Vector Byte 32) : kkwFsPrefix echoHasher msg pubout pkSeed nonce hStarVal = msg := by
  have data : (ThCall.fs msg pubout pkSeed nonce hStarVal : ThCall defaultParams).data = msg.toList ++
      ((join (pubout.map putEpochBe)).toList ++ (pkSeed.toList ++ (nonce.toList ++ hStarVal.toList))) := by
    simp only [ThCall.data, Vector.toList_append, List.append_assoc]
  have other : (ThCall.fs msg pubout pkSeed nonce hStarVal : ThCall defaultParams).domain ≠
      chars kkwDomHprime := by
    rw [ThCall.domain]
    decide
  exact echo_data other data

theorem echo_grind (hPre : Vector Byte 32) (ctr : Word) :
    (kkwFsSeed echoHasher P hPre ctr).1 = hPre := by
  have data : (ThCall.grind hPre ctr : ThCall P).data = hPre.toList ++ (putEpochBe ctr).toList :=
    Vector.toList_append
  have other : (ThCall.grind hPre ctr : ThCall P).domain ≠ chars kkwDomHprime := by
    rw [ThCall.domain]
    decide
  exact ((hashCalls echoHasher P).grind hPre ctr).trans (echo_data other data)

theorem keyed_seeds (seed : Seed) (len : Nat) : echoHasher.keyed seed XofCall.kkwSeeds.input len =
    Vector.ofFn fun i : Fin len => seed.toList.getD (i % 32) 0 := by
  have sized := XofCall.length_input .kkwSeeds
  simp only [echoHasher, sized, if_true]

theorem keyed_other {c : XofCall} (other : c.size ≠ XofCall.kkwSeeds.size) (seed : Seed) (len : Nat) :
    echoHasher.keyed seed c.input len = Vector.replicate _ 0 := by
  rw [← XofCall.length_input] at other
  simp only [echoHasher, if_neg other]

theorem echo_seeds (star : Seed) (N : Nat) :
    expandSeedStar echoHasher star N = Vector.replicate N star := by
  rw [(hashCalls echoHasher defaultParams).seeds, keyed_seeds]
  apply Vector.ext
  intro p hp
  apply Vector.ext
  intro i hi
  have place : (p * 32 + i) % 32 = i := by omega
  simp [rows, place, List.getD_eq_getElem?_getD, hi]

/-- The masked witness of every instance. -/
def echoPub (N : Nat) (input : Witness) : Witness := xorShares input (.replicate N (.replicate _ 0))

def echoViews (N : Nat) (mHat : Vector Byte 32) (pkSeed : PkSeed) (input : Witness) : Views N :=
  buildingViews mHat pkSeed (echoPub N input) (.replicate N (.replicate _ 0)) (.replicate N (.replicate _ 0))

def echoInstance (N : Nat) (mHat : Vector Byte 32) (pkSeed : PkSeed) (input : Witness) (star : Seed) :
    Instance N where
  seeds := .replicate N star
  dPub := echoPub N input
  views := echoViews N mHat pkSeed input

theorem expandInstance_echo (N : Nat) (mHat : Vector Byte 32) (pkSeed : PkSeed) (input : Witness)
    (star : Seed) : expandInstance echoHasher mHat pkSeed N input star =
      echoInstance N mHat pkSeed input star := by
  have xshare (seed : Seed) : expandXshare echoHasher seed = Vector.replicate _ 0 :=
    ((hashCalls echoHasher defaultParams).xshare seed).trans (keyed_other (by decide) seed _)
  have tape (seed : Seed) : expandTape echoHasher seed = Vector.replicate _ 0 :=
    ((hashCalls echoHasher defaultParams).tape seed).trans (keyed_other (by decide) seed _)
  simp only [expandInstance, echo_seeds, Vector.map_replicate, xshare, tape, echoInstance, echoPub,
    echoViews]

theorem comCall_data (party : Fin P.parties) (seed : Seed) (aux : Vector Word ySize) :
    ∃ rest, (comCall party seed aux).data = BitVec.ofNat 8 party :: (seed.toList ++ rest) := by
  by_cases first : party.val = 0
  · rw [comCall, if_pos first, first]
    exact ⟨wordBytes aux, rfl⟩
  · rw [comCall, if_neg first]
    exact ⟨[], by rw [List.append_nil]; rfl⟩

/-- The seed of an instance shows in its first byte. -/
def starOf (b : Byte) : Seed := Vector.ofFn fun i : Fin 32 => if i.val = 0 then b else 0

def outByte (out : Vector Byte 32) (i : Nat) : Byte := out.toList.getD i 0

/-- A commitment shows its party and its instance. -/
theorem echo_comCall (party : Fin P.parties) (b : Byte) (aux : Vector Word ySize) :
    outByte ((comCall party (starOf b) aux).out echoHasher 32) 0 = BitVec.ofNat 8 party ∧
      outByte ((comCall party (starOf b) aux).out echoHasher 32) 1 = b := by
  have other : (comCall party (starOf b) aux).domain ≠ chars kkwDomHprime := by
    rw [comCall_domain]
    decide
  obtain ⟨rest, data⟩ := comCall_data party (starOf b) aux
  rw [echo_out, if_neg other, data]
  constructor
  · simp [outByte]
  · simp [outByte, starOf, List.getD_eq_getElem?_getD]

end Echo

section Sample

variable {P : Params} (mHat : Vector Byte 32) (pkSeed : PkSeed) (input : Witness)

/-- The commitment of party 0. -/
def echoCom (P : Params) (star : Seed) : Vector Byte 32 :=
  preprocComParty echoHasher 0 star (some (echoViews P.parties mHat pkSeed input).aux)

/-- The commitments to an instance, with `first` for the one of party 0. -/
def echoComs (star : Seed) (first : Vector Byte 32) : Vector (Vector Byte 32) P.parties :=
  Vector.ofFn fun p : Fin P.parties => if p.val = 0 then first
    else preprocComParty echoHasher p star (some (echoViews P.parties mHat pkSeed input).aux)

/-- The proof with another commitment for the hidden party of round `k`. -/
def retouch (d : ProofData P) (k : Fin P.numRounds) (com : Vector Byte 32) : ProofData P :=
  { d with rounds := Vector.ofFn fun l : Fin P.numRounds =>
      { d.rounds[l] with z :=
        { d.rounds[l].z with comHidden := if l = k then com else d.rounds[l].z.comHidden } } }

/-- The call that shows this output, in the proof `d` or with another commitment in its round `k`. -/
def shownCall (d : ProofData P) (k : Fin P.numRounds) : Purpose → Vector Byte 32 → ThCall P
  | .ppcom, out =>
    if inside : (outByte out 0).toNat < P.parties then
      comCall ⟨(outByte out 0).toNat, inside⟩ (starOf (outByte out 1))
        (echoViews P.parties mHat pkSeed input).aux
    else .hOut (echoViews P.parties mHat pkSeed input).yp
  | .hj, out =>
    .hj (echoComs mHat pkSeed input (starOf (if outByte out 0 = 0 then outByte out 1 else 0)) out)
  | .hPrime, out => .hPrime (echoPub P.parties input) (echoViews P.parties mHat pkSeed input).s out
  | .hStar1, out => .hStar1 (hJAll echoHasher (retouch d k out))
  | .hStar2, _ => .hStar2 (hPrimeAll echoHasher mHat pkSeed d)
  | .hStar3, _ => .hStar3 (hOutAll echoHasher d)
  | .hStar, out =>
    .hStar out ((ThCall.hStar2 (hPrimeAll echoHasher mHat pkSeed d) : ThCall P).out echoHasher 32)
      ((ThCall.hStar3 (hOutAll echoHasher d) : ThCall P).out echoHasher 32)
  | _, _ => .hOut (echoViews P.parties mHat pkSeed input).yp

/-- What the verifier reads of the honest proof. -/
structure Echoed (d : ProofData P) : Prop where
  closed : ∀ j ∈ closed d.challenge, d.closed[j].1 = starOf (BitVec.ofNat 8 j)
  rounds : ∀ k : Fin P.numRounds, ∃ rJ, d.rounds[k] = openRound echoHasher
    (echoInstance P.parties mHat pkSeed input (starOf (BitVec.ofNat 8 d.challenge.cOut[k]))) rJ
    d.challenge.pOut[k]

variable {mHat pkSeed input} {d : ProofData P} {k : Fin P.numRounds} {com : Vector Byte 32}

theorem retouch_challenge : (retouch d k com).challenge = d.challenge := rfl

theorem retouch_round (l : Fin P.numRounds) : (retouch d k com).rounds[l] =
    { d.rounds[l] with z :=
      { d.rounds[l].z with comHidden := if l = k then com else d.rounds[l].z.comHidden } } :=
  ofFn_fin _ _

theorem verifyRound_retouch (H : Hasher) (l : Fin P.numRounds) :
    verifyRound H mHat pkSeed (retouch d k com) l = verifyRound H mHat pkSeed d l := by
  rw [verifyRound, retouch_round]
  rfl

theorem hPrimeAll_retouch (H : Hasher) :
    hPrimeAll H mHat pkSeed (retouch d k com) = hPrimeAll H mHat pkSeed d := by
  rw [hPrimeAll]
  simp only [verifyRound_retouch]
  rfl

theorem hOutAll_retouch (H : Hasher) : hOutAll H (retouch d k com) = hOutAll H d := by
  rw [hOutAll]
  simp only [retouch_round]
  rfl

theorem comCall_purpose (party : Fin P.parties) (seed : Seed) (aux : Vector Word ySize) :
    (comCall party seed aux).purpose = .ppcom := by
  by_cases first : party.val = 0
  · rw [comCall, if_pos first]
    rfl
  · rw [comCall, if_neg first]
    rfl

theorem shown_comCall (party : Fin P.parties) (b : Byte) :
    let a := comCall party (starOf b) (echoViews P.parties mHat pkSeed input).aux
    shownCall mHat pkSeed input d k a.purpose (a.out echoHasher 32) = a := by
  intro a
  have few := P.others_le
  have inside : party.val < P.others + 1 := party.isLt
  obtain ⟨first, second⟩ := echo_comCall party b (echoViews P.parties mHat pkSeed input).aux
  have name : (outByte (a.out echoHasher 32) 0).toNat = party.val := by
    rw [first, BitVec.toNat_ofNat]
    omega
  have within : (outByte (a.out echoHasher 32) 0).toNat < P.parties := by
    rw [name]
    exact party.isLt
  have same : (⟨(outByte (a.out echoHasher 32) 0).toNat, within⟩ : Fin P.parties) = party := Fin.ext name
  rw [comCall_purpose, shownCall, dif_pos within, same, second]

variable (mHat pkSeed input) in
theorem echoCom_bytes (P : Params) (b : Byte) : outByte (echoCom mHat pkSeed input P (starOf b)) 0 = 0 ∧
    outByte (echoCom mHat pkSeed input P (starOf b)) 1 = b := by
  have call : echoCom mHat pkSeed input P (starOf b) = (comCall (0 : Fin P.parties) (starOf b)
      (echoViews P.parties mHat pkSeed input).aux).out echoHasher 32 := preprocComParty_comCall 0 _ _
  rw [call]
  exact echo_comCall 0 b _

/-- The commitments to an instance, also where the first of them has been replaced in instance 0. -/
theorem shown_hj {b : Byte} {first : Vector Byte 32}
    (told : first = echoCom mHat pkSeed input P (starOf b) ∨ outByte first 0 ≠ 0 ∧ b = 0) :
    let a : ThCall P := .hj (echoComs mHat pkSeed input (starOf b) first)
    shownCall mHat pkSeed input d k a.purpose (a.out echoHasher 32) = a := by
  intro a
  have shown : a.out echoHasher 32 = first := by
    rw [echo_hj, echoComs, Vector.getElem_ofFn]
    exact if_pos rfl
  have name : (if outByte first 0 = 0 then outByte first 1 else 0) = b := by
    rcases told with rfl | ⟨other, rfl⟩
    · obtain ⟨zero, name⟩ := echoCom_bytes mHat pkSeed input P b
      rw [if_pos zero, name]
    · exact if_neg other
  rw [shown]
  simp only [a, ThCall.purpose, shownCall, name]

/-- The commitments of an instance as they are. -/
theorem echoComs_same (star : Seed) : echoComs mHat pkSeed input star (echoCom mHat pkSeed input P star) =
    Vector.ofFn fun p : Fin P.parties =>
      preprocComParty echoHasher p star (some (echoViews P.parties mHat pkSeed input).aux) := by
  refine congrArg Vector.ofFn (funext fun p => ?_)
  by_cases first : p.val = 0
  · rw [if_pos first, first]
    rfl
  · rw [if_neg first]

variable (mHat pkSeed input) in
theorem echo_aux (star : Seed) :
    (computeAuxFromSeeds echoHasher (expandSeedStar echoHasher star P.parties)).1 =
      (echoViews P.parties mHat pkSeed input).aux := by
  have run := computeAuxFromSeeds_eq (H := echoHasher) (expandSeedStar echoHasher star P.parties) mHat
    pkSeed (xorShares input ((expandSeedStar echoHasher star P.parties).map (expandXshare echoHasher)))
  have views := congrArg Instance.views (expandInstance_echo P.parties mHat pkSeed input star)
  rw [run]
  exact congrArg Views.aux views

/-- The calls for an instance that is opened by its seed. -/
theorem shown_closed (b : Byte) : ∀ a ∈ closedCalls (P := P) echoHasher (starOf b),
    shownCall mHat pkSeed input d k a.purpose (a.out echoHasher 32) = a := by
  have entry (p : Fin P.parties) : (expandSeedStar echoHasher (starOf b) P.parties)[p] = starOf b := by
    rw [echo_seeds]
    simp
  simp only [closedCalls, entry, echo_aux mHat pkSeed input, ← echoComs_same, List.forall_mem_cons,
    List.forall_mem_map]
  exact ⟨shown_hj (Or.inl rfl), fun p _ => shown_comCall p b⟩

theorem roundComs_replaced (H : Hasher) {n : Nat} (e : Fin (n + 1)) (z : ZProof n) (com : Vector Byte 32) :
    roundComs H e { z with comHidden := com } = Vector.ofFn fun p : Fin (n + 1) =>
      if p.val = e.val then com else (roundComs H e z)[p] := by
  refine congrArg Vector.ofFn (funext fun p => ?_)
  by_cases hidden : p.val = e.val
  · rw [if_pos hidden, if_pos hidden]
  · rw [if_neg hidden, if_neg hidden, roundComs, ofFn_fin, if_neg hidden]

theorem comCall_shownAux (e : Fin P.parties) (q : Fin P.others) (seed : Seed) (aux : Vector Word ySize) :
    comCall (e.succAbove q) seed (shownAux e aux) = comCall (e.succAbove q) seed aux := by
  by_cases zero : e = 0
  · subst zero
    have later : (Fin.succAbove (0 : Fin P.parties) q).val ≠ 0 := by simp
    rw [comCall, comCall, if_neg later, if_neg later]
  · rw [shownAux_of_ne zero]

theorem echo_roundComs (honest : Echoed mHat pkSeed input d) (l : Fin P.numRounds) :
    roundComs echoHasher d.challenge.pOut[l] d.rounds[l].z =
      echoComs mHat pkSeed input (starOf (BitVec.ofNat 8 d.challenge.cOut[l]))
        (echoCom mHat pkSeed input P (starOf (BitVec.ofNat 8 d.challenge.cOut[l]))) := by
  obtain ⟨rJ, sent⟩ := honest.rounds l
  rw [sent, roundComs_openRound, echoComs_same]
  simp only [echoInstance, getElem_fin, Vector.getElem_replicate]

/-- Where party 0 is hidden its commitment is the one that is sent. -/
theorem echo_replaced (honest : Echoed mHat pkSeed input d) (hidden : d.challenge.pOut[k] = 0) :
    roundComs echoHasher d.challenge.pOut[k] (retouch d k com).rounds[k].z =
      echoComs mHat pkSeed input (starOf (BitVec.ofNat 8 d.challenge.cOut[k])) com := by
  rw [retouch_round, if_pos rfl, roundComs_replaced, echo_roundComs honest, hidden]
  refine congrArg Vector.ofFn (funext fun p => ?_)
  by_cases first : p.val = 0
  · rw [if_pos first]
    exact if_pos first
  · rw [if_neg first, echoComs, ofFn_fin, if_neg first]
    exact if_neg first

theorem echo_sent (honest : Echoed mHat pkSeed input d) (hidden : d.challenge.pOut[k] = 0) :
    d.rounds[k].z.comHidden =
      echoCom mHat pkSeed input P (starOf (BitVec.ofNat 8 d.challenge.cOut[k])) := by
  rw [← roundComs_hidden (H := echoHasher) d.challenge.pOut[k], echo_roundComs honest, hidden, echoComs,
    ofFn_fin]
  exact if_pos rfl

/-- The calls for round `l`. -/
theorem shown_opened (honest : Echoed mHat pkSeed input d) (hidden : d.challenge.pOut[k] = 0)
    (told : com = d.rounds[k].z.comHidden ∨ outByte com 0 ≠ 0 ∧ d.challenge.cOut[k].val = 0)
    (l : Fin P.numRounds) : ∀ a ∈ openedCalls echoHasher mHat pkSeed (retouch d k com) l,
      shownCall mHat pkSeed input d k a.purpose (a.out echoHasher 32) = a := by
  obtain ⟨rJ, sent⟩ := honest.rounds l
  have run : verifyRound echoHasher mHat pkSeed (retouch d k com) l =
      verifyRound echoHasher mHat pkSeed d l := verifyRound_retouch echoHasher l
  have slots : (verifyRound echoHasher mHat pkSeed d l).sSlots =
      others d.challenge.pOut[l] (echoViews P.parties mHat pkSeed input).s := by
    rw [verifyRound, sent, ← expandInstance_echo]
    refine (congrArg Verified.sSlots (verify_openRound input _ rJ _)).trans ?_
    rw [expandInstance_echo]
    rfl
  have rows : Vector.ofFn (slotRow d.challenge.pOut[l] (verifyRound echoHasher mHat pkSeed d l).sSlots
      d.rounds[l].z.msgsE) = (echoViews P.parties mHat pkSeed input).s := by
    rw [slots, sent]
    apply Vector.ext
    intro p hp
    rw [Vector.getElem_ofFn]
    exact slotRow_eq _ _ (fun j => others_get _ _ j) ⟨p, hp⟩
  have commitments : ∃ first, roundComs echoHasher d.challenge.pOut[l] (retouch d k com).rounds[l].z =
        echoComs mHat pkSeed input (starOf (BitVec.ofNat 8 d.challenge.cOut[l])) first ∧
      (first = echoCom mHat pkSeed input P (starOf (BitVec.ofNat 8 d.challenge.cOut[l])) ∨
        outByte first 0 ≠ 0 ∧ BitVec.ofNat 8 d.challenge.cOut[l] = 0) := by
    by_cases same : l = k
    · subst same
      refine ⟨com, echo_replaced honest hidden, ?_⟩
      rcases told with rfl | ⟨other, zero⟩
      · exact Or.inl (echo_sent honest hidden)
      · right
        rw [zero]
        exact ⟨other, rfl⟩
    · refine ⟨_, ?_, Or.inl rfl⟩
      rw [retouch_round, if_neg same]
      exact echo_roundComs honest l
  obtain ⟨first, replaced, told⟩ := commitments
  have offset : d.rounds[l].z.xOffset = echoPub P.parties input := by
    rw [sent]
    rfl
  have masks : d.rounds[l].yp = (echoViews P.parties mHat pkSeed input).yp := by
    rw [sent]
    rfl
  have words : d.rounds[l].z.aux =
      shownAux d.challenge.pOut[l] (echoViews P.parties mHat pkSeed input).aux := by
    rw [sent]
    rfl
  have seeds (q : Fin P.others) : d.rounds[l].z.ke[q] = starOf (BitVec.ofNat 8 d.challenge.cOut[l]) := by
    rw [sent]
    exact (others_get _ _ q).trans (by simp [echoInstance])
  simp only [openedCalls, run, List.forall_mem_cons, List.forall_mem_map]
  refine ⟨?_, ?_, ?_, fun q _ => ?_⟩
  · have whole := shown_hj (k := k) (d := d) told
    rw [← replaced] at whole
    exact whole
  · simp only [retouch_round, retouch_challenge, rows, offset, ThCall.purpose, echo_hPrime, shownCall]
  · simp only [retouch_round, masks, ThCall.purpose, shownCall]
  · simp only [retouch_round, retouch_challenge, seeds, words, comCall_shownAux]
    exact shown_comCall _ _

/-- The calls over all instances: the first hash shows the commitment in instance 0. -/
theorem shown_final (honest : Echoed mHat pkSeed input d) (hidden : d.challenge.pOut[k] = 0) (zero : d.challenge.cOut[k].val = 0)
    (distinct : Function.Injective fun k : Fin P.numRounds => d.challenge.cOut[k]) :
    ∀ a ∈ finalCalls echoHasher mHat pkSeed (retouch d k com),
      shownCall mHat pkSeed input d k a.purpose (a.out echoHasher 32) = a := by
  have front : (hJAll echoHasher (retouch d k com))[d.challenge.cOut[k]] = com := by
    refine (hJAll_opened (d := retouch d k com) distinct k).trans ?_
    rw [retouch_challenge, echo_replaced honest hidden, echo_hj, echoComs, Vector.getElem_ofFn]
    exact if_pos rfl
  have shown := echo_hStar1 (hJAll echoHasher (retouch d k com)) zero
  rw [front] at shown
  simp only [finalCalls, List.forall_mem_cons, hPrimeAll_retouch, hOutAll_retouch, ThCall.purpose, shownCall,
    shown, echo_hStar, List.not_mem_nil, false_implies, implies_true, and_self]

theorem shown_all (honest : Echoed mHat pkSeed input d) (hidden : d.challenge.pOut[k] = 0)
    (zero : d.challenge.cOut[k].val = 0)
    (distinct : Function.Injective fun k : Fin P.numRounds => d.challenge.cOut[k])
    (told : com = d.rounds[k].z.comHidden ∨ outByte com 0 ≠ 0) :
    ∀ a ∈ verifierCalls echoHasher mHat pkSeed (retouch d k com),
      shownCall mHat pkSeed input d k a.purpose (a.out echoHasher 32) = a := by
  intro a member
  rcases List.mem_append.mp member with final | member
  · exact shown_final honest hidden zero distinct a final
  rcases List.mem_append.mp member with stay | opened
  · obtain ⟨j, stays, inside⟩ := List.mem_flatMap.mp stay
    have star : (retouch d k com).closed[j].1 = starOf (BitVec.ofNat 8 j) := honest.closed j stays
    rw [star] at inside
    exact shown_closed _ a inside
  · obtain ⟨l, -, inside⟩ := List.mem_flatMap.mp opened
    exact shown_opened honest hidden (told.imp_right fun other => ⟨other, zero⟩) l a inside

/-- Under this hasher no two calls of the two verifications collide. -/
theorem echo_free (honest : Echoed mHat pkSeed input d) (hidden : d.challenge.pOut[k] = 0)
    (zero : d.challenge.cOut[k].val = 0)
    (distinct : Function.Injective fun k : Fin P.numRounds => d.challenge.cOut[k])
    (other : outByte com 0 ≠ 0) :
    CollisionFree echoHasher mHat pkSeed (retouch d k d.rounds[k].z.comHidden) (retouch d k com) where
  th a ours b theirs domains same := by
    have calls := (hashCalls echoHasher P).out
    have purposes := congrArg ThCall.purposeOf domains
    rw [ThCall.purposeOf_domain, ThCall.purposeOf_domain] at purposes
    rw [← calls a 32 (by decide), ← calls b 32 (by decide)] at same
    rw [← shown_all honest hidden zero distinct (Or.inl rfl) a ours,
      ← shown_all honest hidden zero distinct (Or.inr other) b theirs, Option.some.inj purposes, same]
  xof j _ j' _ same := by
    have seeds := congrArg (rows (k := P.parties) (m := 32)) same
    rw [← (hashCalls echoHasher P).seeds, ← (hashCalls echoHasher P).seeds, echo_seeds,
      echo_seeds] at seeds
    have first := congrArg (fun v : Vector Seed P.parties => v[0]) seeds
    simpa using first

/-- The instances that the shuffle brings to the front are opened. -/
theorem shuffle_opened {H : Hasher} {fuel : Nat} {seedFS : Vector Byte 32} {c : Challenge P}
    {arr : Vector (Fin P.mKkw) P.mKkw} {prg : PrgCtx} (expanded : kkwFsExpand H P fuel seedFS = some c)
    (shuffled : shuffle H P fuel (prgInit H seedFS) = some (arr, prg)) (i : Fin P.numRounds) :
    ∃ k : Fin P.numRounds, c.cOut[k] = arr.get ⟨i, Nat.lt_trans i.isLt P.rounds_lt⟩ := by
  obtain ⟨⟨arr', prg'⟩, shuffled', rest⟩ := Option.bind_eq_some_iff.mp expanded
  obtain ⟨rfl, rfl⟩ := Prod.mk.inj (Option.some.inj (shuffled'.symm.trans shuffled))
  obtain ⟨⟨pOut, last⟩, -, done⟩ := Option.bind_eq_some_iff.mp rest
  cases done
  have member : arr'.get ⟨i, Nat.lt_trans i.isLt P.rounds_lt⟩ ∈ (sortInts (Vector.ofFn
      fun k : Fin P.numRounds => arr'.get ⟨k, Nat.lt_trans k.isLt P.rounds_lt⟩)).toList := by
    rw [(sortInts_perm _).mem_iff, Vector.mem_toList_iff, Vector.mem_ofFn]
    exact ⟨i, rfl⟩
  rw [Vector.mem_toList_iff, Vector.mem_iff_getElem] at member
  obtain ⟨k, hk, here⟩ := member
  exact ⟨⟨k, hk⟩, here⟩

/-- The generator shows its state, so that nothing is swapped and party 0 is hidden in every round. -/
theorem echo_challenge : ∃ c, kkwFsExpand echoHasher defaultParams 1 (.replicate _ 0) = some c ∧
    ∃ k : Fin defaultParams.numRounds, c.pOut[k] = 0 ∧ c.cOut[k].val = 0 := by
  have parties : (kkwFsExpand echoHasher defaultParams 1 (.replicate _ 0)).map
      (fun c => c.pOut.toList.map Fin.val) = some (List.replicate 57 0) := by decide +kernel
  have swaps : (shuffle echoHasher defaultParams 1 (prgInit echoHasher (.replicate _ 0))).map
      (fun out => (out.1.get ⟨0, by decide⟩).val) = some 0 := by decide +kernel
  obtain ⟨c, expanded, hidden⟩ := Option.map_eq_some_iff.mp parties
  obtain ⟨⟨arr, prg⟩, shuffled, kept⟩ := Option.map_eq_some_iff.mp swaps
  obtain ⟨k, here⟩ := shuffle_opened expanded shuffled ⟨0, by decide⟩
  refine ⟨c, expanded, k, ?_, (congrArg Fin.val here).trans kept⟩
  have member : c.pOut[k].val ∈ c.pOut.toList.map Fin.val :=
    List.mem_map_of_mem (Vector.mem_toList_iff.mpr (Vector.getElem_mem k.isLt))
  rw [hidden] at member
  exact Fin.ext (List.eq_of_mem_replicate member)

/-- The seeds of the instances, and the bytes that blind their transcripts. -/
def echoStars : Vector Seed defaultParams.mKkw := Vector.ofFn fun j => starOf (BitVec.ofNat 8 j)

def echoData (mHat : Vector Byte 32) (pkSeed : PkSeed) (input : Witness) (c : Challenge defaultParams) :
    ProofData defaultParams :=
  honestData input echoStars echoStars (.replicate _ 7) 0 c echoHasher mHat pkSeed

theorem echoed (mHat : Vector Byte 32) (pkSeed : PkSeed) (input : Witness) (c : Challenge defaultParams) :
    Echoed mHat pkSeed input (echoData mHat pkSeed input c) where
  closed j stays := by
    have entry : (echoData mHat pkSeed input c).closed[j] = _ :=
      honest_closed input echoStars echoStars (.replicate _ 7) 0 c (mem_closed.mp stays)
    rw [entry]
    exact ofFn_fin _ j
  rounds k := by
    have entry : (echoData mHat pkSeed input c).rounds[k] = _ :=
      honest_round input echoStars echoStars (.replicate _ 7) 0 c k
    have star : echoStars[c.cOut[k]] = starOf (BitVec.ofNat 8 c.cOut[k]) := ofFn_fin _ _
    rw [expandInstance_echo, star] at entry
    exact ⟨_, entry⟩

theorem retouch_same (d : ProofData P) (k : Fin P.numRounds) :
    retouch d k d.rounds[k].z.comHidden = d := by
  have rounds : (retouch d k d.rounds[k].z.comHidden).rounds = d.rounds := by
    apply Vector.ext
    intro l hl
    refine (retouch_round (d := d) (k := k) ⟨l, hl⟩).trans ?_
    by_cases same : (⟨l, hl⟩ : Fin P.numRounds) = k
    · rw [if_pos same, ← same]
      rfl
    · rw [if_neg same]
      rfl
  exact congrArg (fun rounds => { d with rounds }) rounds

theorem read_retouch {fuel : Nat} {pubout : Vector Word 8} (k : Fin P.numRounds) (com : Vector Byte 32)
    (read : readProof echoHasher P mHat pkSeed fuel pubout (writeProof d) = .ok d) :
    readProof echoHasher P mHat pkSeed fuel pubout (writeProof (retouch d k com)) =
      .ok (retouch d k com) := by
  obtain ⟨-, asRead, passes, expanded⟩ := readProof_eq_ok.mp read
  refine readProof_eq_ok.mpr ⟨rfl, ⟨asRead.closed, fun l first => ?_⟩, passes, expanded⟩
  rw [retouch_round]
  exact asRead.aux l first

theorem proofFields_retouch (d : ProofData P) (k : Fin P.numRounds) (com : Vector Byte 32) :
    proofFields (writeProof (retouch d k com)) = proofFields (writeProof d) := by
  rw [proofFields_writeProof, proofFields_writeProof, retouch]

theorem retouch_ne (honest : Echoed mHat pkSeed input d) (hidden : d.challenge.pOut[k] = 0)
    (other : outByte com 0 ≠ 0) : retouch d k com ≠ d := by
  intro same
  have replaced : d.rounds[k].z.comHidden = com := by
    conv_lhs => rw [← same, retouch_round, if_pos rfl]
  rw [echo_sent honest hidden] at replaced
  rw [← replaced] at other
  exact other (echoCom_bytes mHat pkSeed input P _).1

/-- The challenge seed is the digest of the message; a zero digest passes. -/
theorem echo_fsSeed (pkSeed : PkSeed) (pubout : Vector Word 8) (d : ProofData P) :
    fsSeed echoHasher (.replicate _ 0) pkSeed pubout d = (.replicate _ 0, true) := by
  have seed : (fsSeed echoHasher (.replicate _ 0) pkSeed pubout d).1 = .replicate _ 0 :=
    (echo_grind _ _).trans (echo_fs _ _ _ _ _)
  refine Prod.ext seed ?_
  have bits : (fsSeed echoHasher (.replicate _ 0) pkSeed pubout d).2 = (List.range P.grindW).all fun b =>
      !((fsSeed echoHasher (.replicate _ 0) pkSeed pubout d).1[31 - b / 8]?.getD 0).getLsbD (b % 8) := rfl
  rw [bits, seed, List.all_eq_true]
  intro b _
  have inside : 31 - b / 8 < 32 := by omega
  rw [Vector.getElem?_eq_getElem inside]
  simp

/-- An accepted proof at the program's default parameters. -/
theorem echo_proof (pkSeed : PkSeed) (input : Witness) :
    ∃ (d : ProofData defaultParams) (k : Fin defaultParams.numRounds),
    Echoed (.replicate _ 0) pkSeed input d ∧ d.challenge.pOut[k] = 0 ∧ d.challenge.cOut[k].val = 0 ∧
    (Function.Injective fun k : Fin defaultParams.numRounds => d.challenge.cOut[k]) ∧
    readProof echoHasher defaultParams (.replicate _ 0) pkSeed 1
      (plainOutput (.replicate _ 0) pkSeed input) (writeProof d) = .ok d ∧
    checkProof echoHasher (.replicate _ 0) pkSeed (plainOutput (.replicate _ 0) pkSeed input) d = .ok () := by
  obtain ⟨c, expanded, k, hidden, zero⟩ := echo_challenge
  refine ⟨echoData (.replicate _ 0) pkSeed input c, k, echoed _ _ _ _, hidden, zero,
    opened_distinct expanded, ?_, ?_⟩
  · refine readProof_eq_ok.mpr ⟨rfl, honest_asRead _ _ _ _ _ _ _ _ _, ?_, ?_⟩
    · rw [echo_fsSeed]
    · rw [echo_fsSeed]
      exact expanded
  · exact checkProof_honest input echoStars echoStars (.replicate _ 7) 0 c fun j => passOne_output j

/-- With another commitment for a hidden party, an accepted proof of the program's default parameters
is rejected. -/
theorem proof_bound_retouched : ∃ proof proof',
    kkwVerify echoHasher defaultParams (.replicate _ 0) (.replicate _ 1) 1 proof
      (plainOutput (.replicate _ 0) (.replicate _ 1) (.replicate _ 2)) = .ok () ∧
    proofFields proof' = proofFields proof ∧ proof' ≠ proof ∧
    kkwVerify echoHasher defaultParams (.replicate _ 0) (.replicate _ 1) 1 proof'
      (plainOutput (.replicate _ 0) (.replicate _ 1) (.replicate _ 2)) ≠ .ok () := by
  obtain ⟨d, k, honest, hidden, zero, distinct, read, checked⟩ :=
    echo_proof (.replicate _ 1) (.replicate _ 2)
  have other : outByte (.replicate _ 1) 0 ≠ 0 := by decide
  have read' := read_retouch k (.replicate _ 1) read
  have accepted := kkwVerify_eq_ok.mpr ⟨d, read, checked⟩
  have differ : writeProof (retouch d k (.replicate _ 1)) ≠ writeProof d := by
    intro same
    rw [same, read] at read'
    exact retouch_ne honest hidden other (Except.ok.inj read').symm
  have agree := proofFields_retouch d k (.replicate _ 1)
  have bound := proof_bound echoHasher defaultParams (.replicate _ 0) (.replicate _ 1) 1 _ accepted agree
    fun d₁ d₂ read₁ read₂ => by
      obtain rfl := Except.ok.inj (read.symm.trans read₁)
      obtain rfl := Except.ok.inj (read'.symm.trans read₂)
      have free := echo_free honest hidden zero distinct other
      rwa [retouch_same] at free
  exact ⟨writeProof d, _, accepted, agree, differ, fun more => differ (bound.mp more)⟩

end Sample

end BlindSig.Kkw
