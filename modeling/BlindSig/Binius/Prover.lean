import BlindSig.Binius.Statement
import BlindSig.Kkw.Blake3
import BlindSig.Kkw.Gf128

/-! The prover's side of the statement circuit: the words it fills in, after the checks of the
single-signer and the multi-signer user and of the `prove` command. -/
namespace BlindSig.Binius

/-- The builder whose wires are names. -/
def names (K : Nat) : CircuitBuilder Layout WireName K where
  addInout := Layout.inout
  addWitness := Layout.witness
  addConstant64 _ := pure .inner
  band _ _ := pure .inner
  bor _ _ := pure .inner
  bxor _ _ := pure .inner
  shr _ _ := pure .inner
  shl _ _ := pure .inner
  bmul _ _ _ _ := pure (.inner, .inner)
  assertEq _ _ := pure ⟨⟩
  blake3Fixed _ _ := pure (Vector.replicate 8 .inner)
  circuitXmssVerify _ _ _ _ _ := pure ⟨⟩

section Populate

variable {Wire : Type} [DecidableEq Wire] {K n : Nat}

/-- The words of a `WitnessFiller`. -/
abbrev Filler (Wire : Type) := Wire → Word64

/-- `w[wire] = word` for every wire of a row. -/
def fillWords (w : Filler Wire) (wires : List Wire) (words : List Word64) : Filler Wire :=
  (wires.zip words).foldl (fun w (wire, word) => Function.update w wire word) w

def Blake3RevealR.populate (g : Blake3RevealR Wire) (w : Filler Wire) (r : Nonces) : Filler Wire :=
  (g.r.zip r).toList.foldl (fun w (wires, b) =>
    fillWords w wires.toList (bytes16ToWords b).toList) w

variable (U : CircuitCrates)

def BlindCommitGadget.populate (g : BlindCommitGadget Wire) (w : Filler Wire) (msg : List Byte)
    (com : HmCommitment) (r : Nonces) (domainParam : PublicParam) : Filler Wire :=
  let w := fillWords w g.mHat.toList (bytes32ToWords (blake3256 U.toCrates msg)).toList
  let w := (List.finRange nLines).foldl (fun w (k : Fin nLines) =>
    let w := (List.finRange nNonce).foldl (fun w (i : Fin nNonce) =>
      fillWords w g.comA[k][i].toList (bytes16ToWords com.a[k][i]).toList) w
    fillWords w g.comB[k].toList (bytes16ToWords com.b[k]).toList) w
  let w := fillWords w g.domainParam.toList (bytes16ToWords domainParam).toList
  g.revealR.populate w r

def XmssSignature.toUpstream (sig : XmssSignature) : BiXmssSignature where
  randomness := sig.randomness
  chainTips := sig.chainTips
  merklePath := sig.merklePath

/-- `Word::from_u64` of the epoch. -/
def epochWord (sig : XmssSignature) : Word64 := sig.epoch.setWidth 64

def XmssVerifyGadget.populate (g : XmssVerifyGadget Wire U.signatureWires) (w : Filler Wire)
    (sig : XmssSignature) : Filler Wire :=
  let w := Function.update w g.epoch (epochWord sig)
  fillWords w g.signature.toList (U.signatureWords sig.toUpstream).toList

/-- The two assertions on the signatures panic, and so does `signatures[0]` of none. -/
def XmssMultisigVerifyGadget.populate (g : XmssMultisigVerifyGadget Wire U.signatureWires n)
    (w : Filler Wire) (signatures : List XmssSignature) : Option (Filler Wire) := do
  guard (signatures.length = n)
  let first ← signatures[0]?
  guard (∀ s ∈ signatures, s.epoch = first.epoch)
  let w := Function.update w g.epoch (epochWord first)
  return (g.perSigner.toList.zip signatures).foldl (fun w (wires, sig) =>
    fillWords w wires.toList (U.signatureWords sig.toUpstream).toList) w

end Populate

section User

abbrev blindCommitInouts : Nat := nDigestWords + nFeWords

inductive BlindMultiSigError where
  | epochMismatch (expected got : Word) (signer : Nat)
  | wrongSignerCount (expected got : Nat)
  deriving DecidableEq

variable {Wire : Type} [DecidableEq Wire] (U : CircuitCrates)

/-- `User::prove` up to the fill. Without a commitment it panics. -/
def userProve (setup : CircuitFields Wire U.signatureWires) (state : Option UserState)
    (xmssSignature : XmssSignature) : Checked BlindMultiSigError (Filler Wire) := do
  let state ← fetch state
  let filler := setup.commit.populate U (fun _ => 0) state.opening.msg state.com state.opening.r
    xmssSignature.publicParam
  let filler := setup.xmssVerify.populate U filler xmssSignature
  return fillWords filler ((setup.inoutWires.drop blindCommitInouts).take nFeWords)
    (bytes16ToWords xmssSignature.root).toList

/-- `MultiUser::prove` up to the fill. -/
def multiUserProve {n : Nat} (setup : CircuitFieldsMulti Wire U.signatureWires n)
    (state : Option UserState) (signatures : List XmssSignature) :
    Checked BlindMultiSigError (Filler Wire) := do
  check (signatures.length = n) (.wrongSignerCount n signatures.length)
  let first ← fetch signatures[0]?
  signatures.zipIdx.forM fun (s, i) =>
    check (s.epoch = first.epoch) (.epochMismatch first.epoch s.epoch i)
  let state ← fetch state
  let filler := setup.commit.populate U (fun _ => 0) state.opening.msg state.com state.opening.r
    first.publicParam
  let filler ← fetch (setup.xmssMulti.populate U filler signatures)
  return signatures.zipIdx.foldl (fun filler (sig, j) =>
    fillWords filler ((setup.inoutWires.drop (blindCommitInouts + nFeWords * j)).take nFeWords)
      (bytes16ToWords sig.root).toList) filler

/-- The public words of a filled circuit, in the order of their creation. -/
def inoutsOf (filler : Filler WireName) (inouts : Nat) : List Word64 :=
  (List.range inouts).map fun j => filler (.inout j)

end User

section Names

variable {K : Nat}

/-- The names of `n` public words. -/
def inoutNames (i n : Nat) : Vector WireName n := Vector.ofFn fun j : Fin n => .inout (i + j)

/-- The names of `n` private words. -/
def witnessNames (w n : Nat) : Vector WireName n := Vector.ofFn fun j : Fin n => .witness (w + j)

theorem places_addInouts (n : Nat) :
    (addInouts (names K) n).Places (fun i _ => inoutNames i n) n 0 := by
  have each : ∀ _ : Fin n, ((names K).addInout).Places (fun i _ => .inout i) 1 0 := fun _ _ _ => rfl
  simpa [addInouts, inoutNames] using Layout.places_ofFnM each

theorem places_addWitnesses (n : Nat) :
    (addWitnesses (names K) n).Places (fun _ w => witnessNames w n) 0 n := by
  have each : ∀ _ : Fin n, ((names K).addWitness).Places (fun _ w => .witness w) 0 1 :=
    fun _ _ _ => rfl
  simpa [addWitnesses, witnessNames] using Layout.places_ofFnM each

/-- A loop of computations that draw nothing draws nothing. -/
theorem foldlM_pure_of {σ α : Type} {f : σ → α → Layout σ} {g : σ → α → σ}
    (each : ∀ x a, f x a = pure (g x a)) (l : List α) (x : σ) :
    l.foldlM f x = pure (l.foldl g x) := by
  have same : f = fun x a => pure (g x a) := funext fun x => funext (each x)
  rw [same, List.foldlM_pure]

theorem splitWords_names (words : List WireName) :
    splitWords (names K) words = pure (words.foldl (fun out _ => out ++ [.inner, .inner]) []) :=
  foldlM_pure_of (fun _ _ => rfl) words []

theorem combineBlake3Digest_names (out : Vector WireName 8) :
    combineBlake3Digest (names K) out = pure (Vector.replicate 4 .inner) := by
  simp [combineBlake3Digest, names, Vector.ofFnM_succ]
  rfl

theorem hmAffineCheck_names (a r : Vector (GhashWires WireName) nNonce)
    (bTerm mHat : GhashWires WireName) : hmAffineCheck (names K) a r bTerm mHat = pure ⟨⟩ := by
  have loop := foldlM_pure_of (f := fun (acc : WireName × WireName) (i : Fin nNonce) => do
      let (productLo, productHi) ← (names K).bmul a[i][0] a[i][1] r[i][0] r[i][1]
      let lo ← (names K).bxor acc.1 productLo
      let hi ← (names K).bxor acc.2 productHi
      return (lo, hi)) (g := fun _ _ => (.inner, .inner)) (fun _ _ => rfl) (List.finRange nNonce)
      (bTerm[0], bTerm[1])
  rw [hmAffineCheck, loop]
  rfl

/-- The names of the elements from word `w` of the witness on. -/
def nonceNames (w : Nat) : Vector (GhashWires WireName) nNonce :=
  Vector.ofFn fun i : Fin nNonce => witnessNames (w + nFeWords * i) nFeWords

def lineNames (w : Nat) : Vector (Vector (GhashWires WireName) nNonce) nLines :=
  Vector.ofFn fun k : Fin nLines => nonceNames (w + 12 * k)

def termNames (w : Nat) : Vector (GhashWires WireName) nLines :=
  Vector.ofFn fun k : Fin nLines => witnessNames (w + nFeWords * k) nFeWords

def commitNames (i w : Nat) : BlindCommitGadget WireName where
  mHat := inoutNames i nDigestWords
  comA := lineNames w
  comB := termNames (w + 24)
  domainParam := inoutNames (i + 4) nFeWords
  revealR := { r := nonceNames (w + 28), yHat := Vector.replicate 8 .inner }
  comD := Vector.replicate 4 .inner

theorem places_nonceNames :
    (Vector.ofFnM fun _ : Fin nNonce => addWitnesses (names K) nFeWords).Places
      (fun _ w => nonceNames w) 0 12 :=
  Layout.places_ofFnM fun _ : Fin nNonce => places_addWitnesses nFeWords

theorem places_revealR : (Blake3RevealR.new (names K)).Places
    (fun _ w => { r := nonceNames w, yHat := Vector.replicate 8 .inner }) 0 12 := by
  have placed := (places_nonceNames (K := K)).bind fun r => Layout.places_pure
    ({ r, yHat := Vector.replicate 8 .inner } : Blake3RevealR WireName)
  simp only [Blake3RevealR.new, splitWords_names, pure_bind]
  exact placed

theorem places_blindCommit : (BlindCommitGadget.new (names K)).Places commitNames 6 40 := by
  have lines : (Vector.ofFnM fun _ : Fin nLines => Vector.ofFnM fun _ : Fin nNonce =>
      addWitnesses (names K) nFeWords).Places (fun _ w => lineNames w) 0 24 :=
    Layout.places_ofFnM fun _ : Fin nLines => places_nonceNames
  have terms : (Vector.ofFnM fun _ : Fin nLines => addWitnesses (names K) nFeWords).Places
      (fun _ w => termNames w) 0 4 :=
    Layout.places_ofFnM fun _ : Fin nLines => places_addWitnesses nFeWords
  have checks (f : Fin 2 → Layout PUnit) (quiet : ∀ k, f k = pure ⟨⟩) :
      (List.finRange nLines).forM f = pure ⟨⟩ := by
    have same : f = fun _ => pure ⟨⟩ := funext quiet
    rw [same]
    rfl
  simp only [BlindCommitGadget.new, splitWords_names, combineBlake3Digest_names,
    checks _ fun _ => hmAffineCheck_names _ _ _ _, pure_bind]
  exact (places_addInouts nDigestWords).bind fun mHat => (places_addInouts nFeWords).bind
    fun domainParam => lines.bind fun comA => terms.bind fun comB => places_revealR.bind
      fun revealR => Layout.places_pure (BlindCommitGadget.mk mHat comA comB domainParam revealR
        (Vector.replicate 4 .inner))

theorem places_buildCircuit : (buildCircuit (names K)).Places (fun i w =>
    { commit := commitNames i w
      xmssVerify := { epoch := .witness (w + 40), signature := witnessNames (w + 41) K }
      inoutWires := (commitNames i w).inoutWires ++ (inoutNames (i + 6) nFeWords).toList })
    8 (41 + K) := by
  have epoch : ((names K).addWitness).Places (fun _ w => .witness w) 0 1 := fun _ _ => rfl
  have tips := places_addWitnesses (K := K) K
  have placed := (places_blindCommit (K := K)).bind fun commit =>
    (places_addInouts (K := K) nFeWords).bind fun root => epoch.bind fun e =>
      tips.bind fun signature => Layout.places_pure
        (CircuitFields.mk commit (XmssVerifyGadget.mk e signature) (commit.inoutWires ++ root.toList))
  exact placed.counts rfl (by omega)

theorem places_buildCircuitMulti (n : Nat) : (buildCircuitMulti (names K) n).Places (fun i w =>
    { commit := commitNames i w
      xmssMulti := { perSigner := Vector.ofFn fun j : Fin n => witnessNames (w + 41 + K * j) K
                     epoch := .witness (w + 40) }
      inoutWires := (commitNames i w).inoutWires ++
        (Vector.ofFn fun j : Fin n => inoutNames (i + 6 + nFeWords * j) nFeWords).toList.flatMap
          Vector.toList })
    (6 + nFeWords * n) (41 + K * n) := by
  have epoch : ((names K).addWitness).Places (fun _ w => .witness w) 0 1 := fun _ _ => rfl
  have roots := Layout.places_ofFnM fun _ : Fin n => places_addInouts (K := K) nFeWords
  have signer (param root : Vector WireName nFeWords) (message : Vector WireName nDigestWords)
      (epoch : WireName) : Layout.Places (do
        let signature ← addWitnesses (names K) K
        (names K).circuitXmssVerify param root message epoch signature
        return signature) (fun _ w => witnessNames w K) 0 K := places_addWitnesses K
  have placed := (places_blindCommit (K := K)).bind fun commit => epoch.bind fun e =>
    roots.bind fun roots => (Layout.places_ofFnM fun j : Fin n =>
      signer commit.domainParam roots[j] commit.comD e).bind fun perSigner => Layout.places_pure
        (CircuitFieldsMulti.mk commit (XmssMultisigVerifyGadget.mk perSigner e)
          (commit.inoutWires ++ roots.toList.flatMap Vector.toList))
  have inouts : 6 + (0 + (nFeWords * n + (0 * n + 0))) = 6 + nFeWords * n := by omega
  have witnesses : 40 + (1 + (0 * n + (K * n + 0))) = 41 + K * n := by omega
  have counted := placed.counts inouts witnesses
  simp only [Nat.zero_mul, Nat.add_zero] at counted
  exact counted

end Names

section Fill

variable {w w' : Filler WireName}

/-- The public words of two fillers. -/
def SameInouts (w w' : Filler WireName) : Prop := ∀ j, w (.inout j) = w' (.inout j)

/-- No wire of a row is public. -/
def Secret (wires : List WireName) : Prop := ∀ x ∈ wires, ∀ j, x ≠ .inout j

theorem SameInouts.trans {w'' : Filler WireName} (first : SameInouts w w')
    (second : SameInouts w' w'') : SameInouts w w'' := fun j => (first j).trans (second j)

theorem sameInouts_foldl {α : Type} {f : Filler WireName → α → Filler WireName} {l : List α}
    (each : ∀ w, ∀ a ∈ l, SameInouts (f w a) w) : SameInouts (l.foldl f w) w := by
  induction l generalizing w with
  | nil => exact fun _ => rfl
  | cons a l ih =>
    have rest := ih (w := f w a) fun w b member => each w b (List.mem_cons_of_mem a member)
    exact rest.trans (each w a List.mem_cons_self)

theorem sameInouts_update {x : WireName} (secret : ∀ j, x ≠ .inout j) (word : Word64) :
    SameInouts (Function.update w x word) w := by
  intro j
  rw [Function.update_of_ne (Ne.symm (secret j))]

theorem sameInouts_fillWords {wires : List WireName} (secret : Secret wires)
    (words : List Word64) : SameInouts (fillWords w wires words) w := by
  apply sameInouts_foldl
  intro w pair member
  exact sameInouts_update (secret pair.1 (List.of_mem_zip member).1) pair.2

theorem SameInouts.fillWords (same : SameInouts w w') (wires : List WireName)
    (words : List Word64) : SameInouts (fillWords w wires words) (fillWords w' wires words) := by
  induction wires generalizing w w' words with
  | nil => exact same
  | cons x wires ih =>
    cases words with
    | nil => exact same
    | cons word words =>
      apply ih
      intro j
      change Function.update w x word (.inout j) = Function.update w' x word (.inout j)
      by_cases here : x = .inout j
      · simp [here]
      · rw [Function.update_of_ne (Ne.symm here), Function.update_of_ne (Ne.symm here), same j]

theorem fillWords_append {wires : List WireName} {words : List Word64}
    (sizes : wires.length = words.length) (wires' : List WireName) (words' : List Word64) :
    fillWords (fillWords w wires words) wires' words' =
      fillWords w (wires ++ wires') (words ++ words') := by
  rw [fillWords, fillWords, fillWords, List.zip_append sizes, List.foldl_append]

/-- Filling all public wires in the order of their creation. -/
theorem inoutsOf_fillWords (words : List Word64) :
    inoutsOf (fillWords w ((List.range words.length).map .inout) words) words.length = words := by
  induction words using List.reverseRecOn with
  | nil => rfl
  | append_singleton words word ih =>
    rw [List.length_append, List.length_singleton, List.range_succ, List.map_append,
      ← fillWords_append (by simp), inoutsOf, List.range_succ, List.map_append]
    congr 1
    · conv_rhs => rw [← ih, inoutsOf]
      apply List.map_congr_left
      intro j member
      have other : WireName.inout j ≠ .inout words.length := by
        have := List.mem_range.mp member
        simp only [ne_eq, WireName.inout.injEq]
        omega
      exact Function.update_of_ne other _ _
    · simp [fillWords]

end Fill

section Filled

variable (U : CircuitCrates) {w : Filler WireName}

theorem secret_witnessNames (place n : Nat) : Secret (witnessNames place n).toList := by
  intro x member
  rw [witnessNames, Vector.toList_ofFn, List.mem_ofFn] at member
  obtain ⟨j, rfl⟩ := member
  intro j'
  simp

/-- The commitment gadget fills the digest of the message and the parameter in. -/
theorem sameInouts_commit (msg : List Byte) (com : HmCommitment) (r : Nonces)
    (domainParam : PublicParam) :
    SameInouts ((commitNames 0 0).populate U w msg com r domainParam)
      (fillWords w (commitNames 0 0).inoutWires
        (buildBlindCommitPublicWords U.toCrates msg domainParam)) := by
  have nonces (v : Filler WireName) (place : Nat) : SameInouts
      (Blake3RevealR.populate { r := nonceNames place, yHat := Vector.replicate 8 .inner } v r) v := by
    apply sameInouts_foldl
    rintro v ⟨wires, b⟩ member
    apply sameInouts_fillWords
    rw [Vector.toList_zip] at member
    have row := (List.of_mem_zip member).1
    rw [nonceNames, Vector.toList_ofFn, List.mem_ofFn] at row
    obtain ⟨i, rfl⟩ := row
    exact secret_witnessNames _ _
  have lines (v : Filler WireName) : SameInouts ((List.finRange nLines).foldl
      (fun w (k : Fin nLines) =>
        let w := (List.finRange nNonce).foldl (fun w (i : Fin nNonce) =>
          fillWords w (lineNames 0)[k][i].toList (bytes16ToWords com.a[k][i]).toList) w
        fillWords w (termNames 24)[k].toList (bytes16ToWords com.b[k]).toList) v) v := by
    apply sameInouts_foldl
    intro v k _
    refine (sameInouts_fillWords ?_ _).trans (sameInouts_foldl fun v i _ => sameInouts_fillWords ?_ _)
    · simp only [termNames, getElem_fin, Vector.getElem_ofFn]
      exact secret_witnessNames _ _
    · simp only [lineNames, nonceNames, getElem_fin, Vector.getElem_ofFn]
      exact secret_witnessNames _ _
  refine (nonces _ 28).trans ?_
  refine ((lines _).fillWords _ _).trans ?_
  rw [fillWords_append (by simp)]
  exact fun _ => rfl

theorem toList_inoutNames (i n : Nat) :
    (inoutNames i n).toList = (List.range' i n).map WireName.inout := by
  rw [inoutNames, Vector.toList_ofFn, List.ofFn_eq_map, List.range'_eq_map_range,
    ← List.map_coe_finRange_eq_range, List.map_map, List.map_map]
  rfl

theorem flatMap_inoutNames (i n : Nat) :
    (Vector.ofFn fun j : Fin n => inoutNames (i + nFeWords * j) nFeWords).toList.flatMap
      Vector.toList = (List.range' i (nFeWords * n)).map WireName.inout := by
  induction n with
  | zero => rfl
  | succ n ih =>
    rw [Vector.ofFn_succ, Vector.toList_push, List.flatMap_append]
    simp only [Fin.val_castSucc]
    rw [ih, Nat.mul_succ, ← List.range'_append_1, List.map_append]
    simp [toList_inoutNames]

/-- The public wires of the circuits in the order of their creation. -/
theorem range_inoutNames (n : Nat) :
    (commitNames 0 0).inoutWires ++ (List.range' 6 (nFeWords * n)).map .inout =
      (List.range (6 + nFeWords * n)).map WireName.inout := by
  have front : (commitNames 0 0).inoutWires = (List.range' 0 6).map WireName.inout := by
    rw [BlindCommitGadget.inoutWires, commitNames, toList_inoutNames, toList_inoutNames]
    rfl
  rw [front, ← List.map_append, List.range'_append_1, List.range_eq_range']

/-- The roots are filled in after the commitment's words. -/
theorem inoutsOf_roots {msg : List Byte} {pkSeed : PublicParam} (roots : List Digest)
    (committed : SameInouts w (fillWords (fun _ => 0) (commitNames 0 0).inoutWires
      (buildBlindCommitPublicWords U.toCrates msg pkSeed))) :
    inoutsOf (fillWords w ((List.range' 6 (nFeWords * roots.length)).map .inout)
      (roots.flatMap fun root => (bytes16ToWords root).toList)) (6 + nFeWords * roots.length) =
      buildPublicInputsMulti U.toCrates msg pkSeed roots := by
  have size : (commitNames 0 0).inoutWires.length =
      (buildBlindCommitPublicWords U.toCrates msg pkSeed).length := by
    simp [BlindCommitGadget.inoutWires, buildBlindCommitPublicWords]
  have same := committed.fillWords ((List.range' 6 (nFeWords * roots.length)).map .inout)
    (roots.flatMap fun root => (bytes16ToWords root).toList)
  rw [fillWords_append size, range_inoutNames] at same
  have total := length_buildPublicInputsMulti U msg pkSeed roots
  have read := inoutsOf_fillWords (w := fun _ => 0)
    (buildPublicInputsMulti U.toCrates msg pkSeed roots)
  rw [total] at read
  conv_rhs => rw [← read]
  exact List.map_congr_left fun j _ => same j

theorem sameInouts_signature (v : Filler WireName) (place : Nat) (sig : XmssSignature) :
    SameInouts (fillWords v (witnessNames place U.signatureWires).toList
      (U.signatureWords sig.toUpstream).toList) v := sameInouts_fillWords (secret_witnessNames _ _) _

theorem sameInouts_epoch (v : Filler WireName) (place : Nat) (word : Word64) :
    SameInouts (Function.update v (.witness place) word) v := sameInouts_update (by simp) word

/-- Where `prove` writes the root of signer `j`. -/
theorem rootWires {n j : Nat} (hj : j < n) :
    (((commitNames 0 0).inoutWires ++ (List.range' 6 (nFeWords * n)).map WireName.inout).drop
      (blindCommitInouts + nFeWords * j)).take nFeWords =
        (List.range' (6 + nFeWords * j) nFeWords).map .inout := by
  rw [range_inoutNames, ← List.map_drop, ← List.map_take, List.range_eq_range', List.drop_range',
    List.take_range'_of_length_ge (by simp only [nFeWords, blindCommitInouts, nDigestWords]; omega)]
  simp [blindCommitInouts, nDigestWords, nFeWords]

/-- `User::prove` fills in the words of a verifier with the signature's keys. -/
theorem userProve_inouts {state : Option UserState} {sig : XmssSignature}
    {filler : Filler WireName} {inouts witnesses : Nat}
    {setup : CircuitFields WireName U.signatureWires}
    (built : buildCircuit (names U.signatureWires) (0, 0) = (setup, (inouts, witnesses)))
    (proves : userProve U setup state sig = .ok filler) :
    ∃ s, state = some s ∧ inoutsOf filler inouts =
      buildPublicInputs U.toCrates s.opening.msg sig.publicParam sig.root := by
  rw [places_buildCircuit 0 0] at built
  cases built
  cases state with
  | none => cases proves
  | some s =>
    cases proves
    have committed := (sameInouts_signature U _ 41 sig).trans ((sameInouts_epoch _ 40 (epochWord sig)).trans
      (sameInouts_commit U (w := fun _ => 0) s.opening.msg s.com s.opening.r sig.publicParam))
    have filled := inoutsOf_roots U [sig.root] committed
    refine ⟨s, rfl, ?_⟩
    have wires := rootWires (n := 1) Nat.zero_lt_one
    simp only [Nat.mul_zero, Nat.add_zero, Nat.mul_one] at wires
    change inoutsOf _ 8 = _ at filled
    simpa [buildPublicInputs, buildPublicInputsMulti, toList_inoutNames, wires,
      XmssVerifyGadget.populate] using filled

/-- The roots, one after the other. -/
theorem foldl_roots (roots : List Digest) :
    roots.zipIdx.foldl (fun filler (root, j) => fillWords filler
      ((List.range' (6 + nFeWords * j) nFeWords).map WireName.inout) (bytes16ToWords root).toList) w =
      fillWords w ((List.range' 6 (nFeWords * roots.length)).map .inout)
        (roots.flatMap fun root => (bytes16ToWords root).toList) := by
  induction roots using List.reverseRecOn with
  | nil => rfl
  | append_singleton roots root ih =>
    have sizes : ((List.range' 6 (nFeWords * roots.length)).map WireName.inout).length =
        (roots.flatMap fun root => (bytes16ToWords root).toList).length := by
      simp [List.length_flatMap, Nat.mul_comm]
    rw [List.zipIdx_append, List.foldl_append, ih, List.length_append, List.length_singleton,
      Nat.mul_succ, ← List.range'_append_1, List.map_append, List.flatMap_append,
      ← fillWords_append sizes]
    simp

/-- The signatures' wires are private. -/
theorem sameInouts_signatures {n : Nat} {w signed : Filler WireName} {sigs : List XmssSignature}
    (populated : XmssMultisigVerifyGadget.populate U
      { perSigner := Vector.ofFn fun j : Fin n => witnessNames (0 + 41 + U.signatureWires * j)
          U.signatureWires
        epoch := .witness (0 + 40) } w sigs = some signed) : SameInouts signed w := by
  simp only [XmssMultisigVerifyGadget.populate, Option.bind_eq_bind, Option.bind_eq_some_iff,
    Option.pure_def, Option.some.injEq] at populated
  obtain ⟨_, _, first, _, _, _, rfl⟩ := populated
  refine (sameInouts_foldl ?_).trans (sameInouts_epoch _ _ _)
  rintro v ⟨wires, sig⟩ member
  have row := (List.of_mem_zip member).1
  rw [Vector.toList_ofFn, List.mem_ofFn] at row
  obtain ⟨j, rfl⟩ := row
  exact sameInouts_signature U _ _ _

/-- `MultiUser::prove` fills in the words of a verifier with the signatures' keys, the parameter
that of the first. -/
theorem multiUserProve_inouts {n : Nat} {state : Option UserState} {sigs : List XmssSignature}
    {filler : Filler WireName} {inouts witnesses : Nat}
    {setup : CircuitFieldsMulti WireName U.signatureWires n}
    (built : buildCircuitMulti (names U.signatureWires) n (0, 0) = (setup, (inouts, witnesses)))
    (proves : multiUserProve U setup state sigs = .ok filler) :
    ∃ s first, state = some s ∧ sigs[0]? = some first ∧ inoutsOf filler inouts =
      buildPublicInputsMulti U.toCrates s.opening.msg first.publicParam (sigs.map (·.root)) := by
  rw [places_buildCircuitMulti n 0 0] at built
  cases built
  obtain ⟨_, counted, proves⟩ := bind_eq_ok.mp proves
  obtain rfl := check_eq_ok.mp counted
  obtain ⟨first, head, proves⟩ := bind_eq_ok.mp proves
  obtain ⟨_, _, proves⟩ := bind_eq_ok.mp proves
  obtain ⟨s, committed, proves⟩ := bind_eq_ok.mp proves
  obtain ⟨signed, populated, proves⟩ := bind_eq_ok.mp proves
  have filled := inoutsOf_roots U (sigs.map (·.root))
    ((sameInouts_signatures U (fetch_eq_ok.mp populated)).trans
      (sameInouts_commit U s.opening.msg s.com s.opening.r first.publicParam))
  refine ⟨s, first, fetch_eq_ok.mp committed, fetch_eq_ok.mp head, ?_⟩
  rw [← filled, ← foldl_roots, List.length_map, Nat.zero_add]
  cases proves
  congr 1
  rw [List.zipIdx_map, List.foldl_map]
  apply List.foldl_ext
  rintro v ⟨sig, j⟩ member
  obtain ⟨_, inside, _⟩ := List.mem_zipIdx member
  have wires := rootWires (n := sigs.length) (j := j) (by omega)
  rw [← flatMap_inoutNames] at wires
  simp only [wires, Prod.map]
  rfl

end Filled

section Session

variable {Rng : Type} (U : CircuitCrates) (X : Upstream Rng)

inductive ProveError where
  | notASignature
  | signerCount (sigs roots : Nat)
  | rootDiffers (i : Nat)
  | prover (e : Stop BlindMultiSigError)
  deriving DecidableEq

/-- `cmd_prove`, from the files it reads to the public words. -/
def cmdProve (state : UserState) (roots : List Digest) (pkSeed : PublicParam)
    (sigBytes : List Byte) : Checked ProveError (List Word64) := do
  let d := comDigest U.toCrates state.com
  let read := readXmssSigs X sigBytes pkSeed d
  check read.isSome .notASignature
  let sigs ← fetch read
  check (sigs.length = roots.length) (.signerCount sigs.length roots.length)
  (sigs.zip roots).zipIdx.forM fun ((sig, root), i) => check (sig.root = root) (.rootDiffers i)
  if roots.length = 1 then
    let (setup, (inouts, _)) := buildCircuit (names U.signatureWires) (0, 0)
    let sig ← fetch sigs[0]?
    let filler ← (userProve U setup (some state) sig).mapError fun e => .check (.prover e)
    return inoutsOf filler inouts
  else
    let (setup, (inouts, _)) := buildCircuitMulti (names U.signatureWires) roots.length (0, 0)
    let filler ← (multiUserProve U setup (some state) sigs).mapError fun e => .check (.prover e)
    return inoutsOf filler inouts

/-- The public words of `cmd_verify` under the same `signer_pub.bin`. -/
def cmdVerifyWords (roots : List Digest) (pkSeed : PublicParam) (msg : List Byte) : List Word64 :=
  match roots with
  | [root] => buildPublicInputs U.toCrates msg pkSeed root
  | _ => buildPublicInputsMulti U.toCrates msg pkSeed roots

theorem mapError_eq_ok {ε ε' α : Type} {x : Except ε α} {f : ε → ε'} {a : α} :
    x.mapError f = .ok a ↔ x = .ok a := by
  cases x <;> simp [Except.mapError]

/-- A loop of checks that passes has passed each. -/
theorem forM_check {α ε : Type} {l : List α} {c : α → Prop} [DecidablePred c] (text : α → ε)
    (passed : (l.forM fun a => check (c a) (text a)) = .ok ⟨⟩) : ∀ a ∈ l, c a := by
  induction l with
  | nil => simp
  | cons a l ih =>
    obtain ⟨_, here, rest⟩ := bind_eq_ok.mp passed
    intro b member
    rcases List.mem_cons.mp member with rfl | later
    · exact check_eq_ok.mp here
    · exact ih rest b later

theorem cmdProve_words {state : UserState} {roots : List Digest} {pkSeed : PublicParam}
    {sigBytes : List Byte} {words : List Word64}
    (proves : cmdProve U X state roots pkSeed sigBytes = .ok words) :
    words = cmdVerifyWords U roots pkSeed state.opening.msg := by
  obtain ⟨_, _, parsed⟩ := bind_eq_ok.mp proves
  obtain ⟨sigs, read, expanded⟩ := bind_eq_ok.mp parsed
  obtain ⟨_, counted, compared⟩ := bind_eq_ok.mp expanded
  obtain ⟨_, matched, entered⟩ := bind_eq_ok.mp compared
  clear proves parsed expanded compared
  have sizes := check_eq_ok.mp counted
  have params := readXmssSigs_param X (fetch_eq_ok.mp read)
  have same : sigs.map (·.root) = roots := by
    apply List.ext_getElem (by simpa using sizes)
    intro i hi hi'
    rw [List.length_map] at hi
    have pair : ((sigs[i], roots[i]), i) ∈ (sigs.zip roots).zipIdx := by
      rw [List.mem_zipIdx_iff_getElem?]
      simp [hi, hi']
    rw [List.getElem_map]
    exact forM_check (c := fun x : (XmssSignature × Digest) × Nat => x.1.1.root = x.1.2)
      (fun x => ProveError.rootDiffers x.2) matched _ pair
  have head {sig : XmssSignature} (first : sigs[0]? = some sig) : sig.publicParam = pkSeed :=
    params sig (List.mem_of_getElem? first)
  split at entered
  · next one =>
    rcases built : buildCircuit (names U.signatureWires) (0, 0) with ⟨setup, inouts, witnesses⟩
    rw [built] at entered
    obtain ⟨sig, first, proved⟩ := bind_eq_ok.mp entered
    obtain ⟨filler, filled, returned⟩ := bind_eq_ok.mp proved
    obtain ⟨s, own, words⟩ := userProve_inouts U built (mapError_eq_ok.mp filled)
    have keys := head (fetch_eq_ok.mp first)
    have heads := congrArg (·[0]?) same
    rw [List.getElem?_map, fetch_eq_ok.mp first] at heads
    obtain ⟨root, rfl⟩ := List.length_eq_one_iff.mp one
    have rootEq : sig.root = root := by simpa using heads
    cases own
    cases returned
    rw [words, keys, rootEq]
    rfl
  · next several =>
    rcases built : buildCircuitMulti (names U.signatureWires) roots.length (0, 0) with
      ⟨setup, inouts, witnesses⟩
    rw [built] at entered
    obtain ⟨filler, filled, returned⟩ := bind_eq_ok.mp entered
    obtain ⟨s, sig, own, first, words⟩ := multiUserProve_inouts U built (mapError_eq_ok.mp filled)
    cases own
    cases returned
    rw [words, head first, same]
    unfold cmdVerifyWords
    split
    · simp at several
    · rfl

theorem forM_check_ok {α ε : Type} {l : List α} {c : α → Prop} [DecidablePred c] (text : α → ε)
    (holds : ∀ a ∈ l, c a) : (l.forM fun a => check (c a) (text a)) = .ok ⟨⟩ := by
  induction l with
  | nil => rfl
  | cons a l ih =>
    rw [List.forM_eq_forM, List.forM_cons, check_true (holds a List.mem_cons_self)]
    exact ih fun b member => holds b (List.mem_cons_of_mem a member)

/-- Signatures at one epoch are not stopped by the user's checks. -/
theorem multiUserProve_ok {n : Nat} (setup : CircuitFieldsMulti WireName U.signatureWires n)
    (s : UserState) {sigs : List XmssSignature} {first : XmssSignature} (counted : sigs.length = n)
    (head : sigs[0]? = some first) (epochs : ∀ sig ∈ sigs, sig.epoch = first.epoch) :
    ∃ filler, multiUserProve U setup (some s) sigs = .ok filler := by
  have each := forM_check_ok (l := sigs.zipIdx) (c := fun x => x.1.epoch = first.epoch)
    (fun x => BlindMultiSigError.epochMismatch first.epoch x.1.epoch x.2) (by
      rintro ⟨sig, i⟩ member
      obtain ⟨_, _, place⟩ := List.mem_zipIdx member
      exact epochs sig (place ▸ List.getElem_mem _))
  have populated (w : Filler WireName) : ∃ signed, setup.xmssMulti.populate U w sigs = some signed := by
    simp only [XmssMultisigVerifyGadget.populate, guard, if_pos counted, head, Option.bind_eq_bind,
      Option.bind_some, Option.pure_def]
    rw [if_pos epochs]
    exact ⟨_, rfl⟩
  obtain ⟨signed, filled⟩ := populated (setup.commit.populate U (fun _ => 0) s.opening.msg s.com
    s.opening.r first.publicParam)
  simp only [multiUserProve, check_true counted, head, fetch_some, bind, Except.bind, each, filled]
  exact ⟨_, rfl⟩

/-- A file of signatures under the keys of `signer_pub.bin`, all at one epoch, is not stopped. -/
theorem cmdProve_ok {state : UserState} {pkSeed : PublicParam} {sigBytes : List Byte}
    {sigs : List XmssSignature} {first : XmssSignature}
    (read : readXmssSigs X sigBytes pkSeed (comDigest U.toCrates state.com) = some sigs)
    (head : sigs[0]? = some first) (epochs : ∀ sig ∈ sigs, sig.epoch = first.epoch) :
    ∃ words, cmdProve U X state (sigs.map (·.root)) pkSeed sigBytes = .ok words := by
  have counted : sigs.length = (sigs.map (·.root)).length := by simp
  have matched := forM_check_ok (l := (sigs.zip (sigs.map (·.root))).zipIdx)
    (c := fun x => x.1.1.root = x.1.2) (fun x => ProveError.rootDiffers x.2) (by
      rintro ⟨⟨sig, root⟩, i⟩ member
      obtain ⟨_, _, place⟩ := List.mem_zipIdx member
      simp only [List.getElem_zip, List.getElem_map, Prod.mk.injEq] at place
      exact (congrArg XmssSignature.root place.1).trans place.2.symm)
  simp only [cmdProve, read, Option.isSome_some, check_true, check_true counted, fetch_some, bind,
    Except.bind, matched]
  split
  · rcases built : buildCircuit (names U.signatureWires) (0, 0) with ⟨setup, inouts, witnesses⟩
    simp only [head, fetch_some]
    exact ⟨_, rfl⟩
  · rcases built : buildCircuitMulti (names U.signatureWires) (sigs.map (·.root)).length (0, 0) with
      ⟨setup, inouts, witnesses⟩
    obtain ⟨filler, proved⟩ := multiUserProve_ok U setup state counted head epochs
    simp only [built, proved]
    exact ⟨_, rfl⟩

/-- For every number of signers the circuit under the verifier's words says that the witness
opens a commitment to the message whose digest every signer signed at one epoch, and a prover that
gets past its checks fills in the verifier's words. -/
theorem statement_circuit (enforces : U.Enforces) :
    (∀ n, 0 < n → ∀ msg pkSeed (roots : Vector Digest n) witness,
      Satisfies (buildPublicInputsMulti U.toCrates msg pkSeed roots.toList) witness
        (fun A => buildCircuitMulti (constraints U A) n) ↔ Witnessed U msg pkSeed roots witness) ∧
    (∀ msg pkSeed root witness,
      Satisfies (buildPublicInputs U.toCrates msg pkSeed root) witness
        (fun A => buildCircuit (constraints U A)) ↔ Witnessed U msg pkSeed #v[root] witness) ∧
    (∀ n state sigs filler setup inouts witnesses,
      buildCircuitMulti (names U.signatureWires) n (0, 0) = (setup, (inouts, witnesses)) →
      multiUserProve U setup state sigs = .ok filler →
        ∃ s first, state = some s ∧ sigs[0]? = some first ∧ inoutsOf filler inouts =
          buildPublicInputsMulti U.toCrates s.opening.msg first.publicParam (sigs.map (·.root))) ∧
    (∀ state sig filler setup inouts witnesses,
      buildCircuit (names U.signatureWires) (0, 0) = (setup, (inouts, witnesses)) →
      userProve U setup state sig = .ok filler →
        ∃ s, state = some s ∧ inoutsOf filler inouts =
          buildPublicInputs U.toCrates s.opening.msg sig.publicParam sig.root) ∧
    ∀ state roots pkSeed sigBytes words,
      cmdProve U X state roots pkSeed sigBytes = .ok words →
        words = cmdVerifyWords U roots pkSeed state.opening.msg := by
  refine ⟨?_, ?_, ?_, ?_, ?_⟩
  · intro n some msg pkSeed roots witness
    exact satisfies_buildCircuitMulti U enforces some msg pkSeed roots witness
  · intro msg pkSeed root witness
    exact satisfies_buildCircuit U enforces msg pkSeed root witness
  · intro n state sigs filler setup inouts witnesses built proves
    exact multiUserProve_inouts U built proves
  · intro state sig filler setup inouts witnesses built proves
    exact userProve_inouts U built proves
  · intro state roots pkSeed sigBytes words proves
    exact cmdProve_words U X proves

end Session

section Sample

/-! Crates to compute with: BLAKE3 on messages of one chunk, the GHASH product, and XMSS over the
additive hash functions. -/

/-- The hash of a message of one chunk. -/
def chunkHash (message : List Byte) : Vector Byte 32 :=
  let blocks := max 1 (Kkw.nblocks message.length)
  let flags (b : Nat) : Word := (if b = 0 then Kkw.blake3ChunkStart else 0) |||
    if b + 1 = blocks then Kkw.blake3ChunkEnd ||| Kkw.blake3Root else 0
  Kkw.outputBytes ((List.range blocks).foldl (fun cv b =>
    Kkw.blake3Compress cv (Kkw.blockWords message b) 0
      (BitVec.ofNat 32 (Kkw.blockLen message.length b)) (flags b)) Kkw.b3Iv) 32

def ghashProduct (x y : BitVec 128) : BitVec 128 :=
  fieldFromBytes (Kkw.gf128Mul (leBytes x 16) (leBytes y 16))

/-- Three words of randomness, then the tips and the path. -/
abbrev sampleWires : Nat := 3 + (2 * wotsLen + 2 * logLifetime)

def sampleSignature (v : Vector Word64 sampleWires) : BiXmssSignature where
  randomness := (leBytes v[0] 8 ++ leBytes v[1] 8 ++ leBytes v[2] 8 : Vector Byte 24)
  chainTips := Vector.ofFn fun i : Fin wotsLen =>
    feOfWords (slice v (3 + 2 * i) 2 (by simp only [sampleWires, wotsLen]; omega))
  merklePath := Vector.ofFn fun i : Fin logLifetime =>
    feOfWords (slice v (3 + 2 * wotsLen + 2 * i) 2 (by
      simp only [sampleWires, logLifetime]; omega))

def sampleWords (sig : BiXmssSignature) : Vector Word64 sampleWires :=
  (Vector.ofFn fun i : Fin 3 => leValue 64 (slice sig.randomness (8 * i) 8 (by omega))) ++
    ((sig.chainTips.map bytes16ToWords).flatten ++ (sig.merklePath.map bytes16ToWords).flatten)

/-- The epochs of the scheme. -/
def sampleEpoch (w : Word64) : Option Word := if w.toNat < 2 ^ 32 then some (w.setWidth 32) else none

def sampleVerify (root : Digest) (param : PublicParam) (message : Message) (sig : BiXmssSignature)
    (epoch : Word) : Bool :=
  (xmssExpand additive param epoch sig.randomness sig.chainTips sig.merklePath message).any
    fun expanded => expanded.root == root

def sample : CircuitCrates where
  blake3 := chunkHash
  ghashMul := ghashProduct
  signatureWires := sampleWires
  bmul a₀ a₁ b₀ b₁ out := out.2 ++ out.1 = ghashProduct (a₁ ++ a₀) (b₁ ++ b₀)
  blake3Fixed words len out :=
    out = digestWires (chunkHash ((words.flatMap fun w => (leBytes w 4).toList).take len))
  circuitXmssVerify param root message epoch signature := ∃ p r m, param = bytes16ToWords p ∧
    root = bytes16ToWords r ∧ message = bytes32ToWords m ∧ ∃ e, sampleEpoch epoch = some e ∧
      sampleVerify r p m (sampleSignature signature) e = true
  epochOf := sampleEpoch
  signatureOf := sampleSignature
  signatureWords := sampleWords
  xmssVerify := sampleVerify

theorem bytes16ToWords_inj {p p' : Vector Byte 16} (same : bytes16ToWords p = bytes16ToWords p') :
    p = p' := by
  rw [← feOfWords_bytes16ToWords p, same, feOfWords_bytes16ToWords]

theorem bytes32ToWords_inj {m m' : Vector Byte 32} (same : bytes32ToWords m = bytes32ToWords m') :
    m = m' := by
  apply Vector.ext
  intro i hi
  have word := congrArg (fun v : Vector Word64 4 => leBytes v[i / 8] 8) same
  simp only [bytes32ToWords, Vector.getElem_ofFn] at word
  rw [leBytes_leValue (Nat.le_refl 64), leBytes_leValue (Nat.le_refl 64)] at word
  have byte := congrArg (fun v : Vector Byte 8 => v[i % 8]) word
  simpa [Nat.div_add_mod] using byte

theorem sample_enforces : sample.Enforces where
  bmul_iff _ _ _ _ _ := Iff.rfl
  blake3Fixed_iff _ _ _ _ _ := Iff.rfl
  circuitXmssVerify_iff param root message epoch signature := by
    constructor
    · rintro ⟨p, r, m, sameParam, sameRoot, sameMessage, accepted⟩
      rw [bytes16ToWords_inj sameParam, bytes16ToWords_inj sameRoot,
        bytes32ToWords_inj sameMessage]
      exact accepted
    · intro accepted
      exact ⟨param, root, message, rfl, rfl, rfl, accepted⟩

/-- A commitment to the empty message, a session of two signers at epoch 1. -/
def sampleState : UserState where
  opening := { msg := [], r := .replicate _ (.replicate _ 1) }
  com := { a := .replicate _ (.replicate _ (.replicate _ 2)), b := .replicate _ (.replicate _ 3)
           y := .replicate _ 4 }

/-- The signers' replies, told apart by their chain tips. -/
def sampleReply (tip : Byte) : XmssSignature where
  epoch := 1
  publicParam := .replicate _ 5
  randomness := .replicate _ 6
  chainTips := .replicate _ (.replicate _ tip)
  merklePath := .replicate _ (.replicate _ 7)
  root := .replicate _ 0

/-- Replies of any number of signers get through the checks of `prove`. -/
theorem sampleReplies_prove (tip : Byte) (tips : List Byte) : ∃ roots words,
    roots.length = tips.length + 1 ∧ cmdProve sample additive sampleState roots (.replicate _ 5)
      (writeXmssSigs ((tip :: tips).map sampleReply)) = .ok words := by
  have expands (tip : Byte) : ∃ root, xmssExpand additive (.replicate _ 5) (sampleReply tip).epoch
      (sampleReply tip).randomness (sampleReply tip).chainTips (sampleReply tip).merklePath
      (comDigest sample.toCrates sampleState.com) = some { sampleReply tip with root } := ⟨_, rfl⟩
  choose root expands using expands
  have read := readXmssSigs_write additive (List.cons_ne_nil (sampleReply tip) (tips.map sampleReply))
    (.replicate _ 5) (comDigest sample.toCrates sampleState.com)
  rw [← List.map_cons, List.mapM_map] at read
  have expanded (l : List Byte) : l.mapM (fun tip => xmssExpand additive (.replicate _ 5)
      (sampleReply tip).epoch (sampleReply tip).randomness (sampleReply tip).chainTips
      (sampleReply tip).merklePath (comDigest sample.toCrates sampleState.com)) =
        some (l.map fun tip => { sampleReply tip with root := root tip }) := by
    induction l with
    | nil => rfl
    | cons tip l ih =>
      rw [List.mapM_cons, ih, expands]
      rfl
  obtain ⟨words, proves⟩ := cmdProve_ok sample additive (read.trans (expanded _)) rfl (by simp [sampleReply])
  exact ⟨_, words, by simp, proves⟩

/-- One signer and two: the circuits of the sample crates, and sessions that `prove` gets through. -/
theorem statement_circuit_sample :
    ((∀ witness, Satisfies (buildPublicInputs sample.toCrates [] (.replicate _ 5) (.replicate _ 0))
        witness (fun A => buildCircuit (constraints sample A)) ↔
        Witnessed sample [] (.replicate _ 5) #v[.replicate _ 0] witness) ∧
      ∃ root, cmdProve sample additive sampleState [root] (.replicate _ 5)
          (writeXmssSigs [sampleReply 8]) =
        .ok (buildPublicInputs sample.toCrates [] (.replicate _ 5) root)) ∧
    (∀ witness, Satisfies (buildPublicInputsMulti sample.toCrates [] (.replicate _ 5)
        [.replicate _ 0, .replicate _ 1]) witness
        (fun A => buildCircuitMulti (constraints sample A) 2) ↔
      Witnessed sample [] (.replicate _ 5) #v[.replicate _ 0, .replicate _ 1] witness) ∧
    ∃ roots, roots.length = 2 ∧
      cmdProve sample additive sampleState roots (.replicate _ 5)
          (writeXmssSigs [sampleReply 8, sampleReply 9]) =
        .ok (cmdVerifyWords sample roots (.replicate _ 5) []) := by
  obtain ⟨multi, alone, _, _, session⟩ := statement_circuit sample additive sample_enforces
  obtain ⟨roots₁, words₁, length₁, proves₁⟩ := sampleReplies_prove 8 []
  obtain ⟨roots₂, words₂, length₂, proves₂⟩ := sampleReplies_prove 8 [9]
  obtain ⟨root, rfl⟩ := List.length_eq_one_iff.mp length₁
  rw [List.map_cons, List.map_nil] at proves₁
  rw [List.map_cons, List.map_cons, List.map_nil] at proves₂
  refine ⟨⟨alone [] (.replicate _ 5) (.replicate _ 0), root, ?_⟩,
    multi 2 Nat.zero_lt_two [] (.replicate _ 5) #v[.replicate _ 0, .replicate _ 1], roots₂, length₂, ?_⟩
  · rw [proves₁, session sampleState [root] _ _ _ proves₁]
    rfl
  · rw [proves₂, session sampleState roots₂ _ _ _ proves₂]
    rfl

end Sample

end BlindSig.Binius
