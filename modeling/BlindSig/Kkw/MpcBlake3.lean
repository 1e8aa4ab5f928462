import BlindSig.Lib.GateProgram
import BlindSig.Kkw.Blake3
import BlindSig.Kkw.MpcProve

/-! The masked BLAKE3 compression and the masked tweakable hash. The source writes these
functions twice, for the `N` parties of the prover and the `N - 1` of the verifier; here the
number of parties is a parameter. -/
namespace BlindSig.Kkw

open XorGroup Prog

abbrev Circuit (n : Nat) := Prog Gate (Mw n)

variable {n n' : Nat}

def gateAnd (x y : Mw n) : Circuit n (Mw n) := Prog.op Gate.and x y

def gateAdd (x y : Mw n) : Circuit n (Mw n) := Prog.op Gate.add x y

section Circuit

def b3G (v : Vector (Mw n) 16) (a b c d : Fin 16) (x y : Mw n) :
    Circuit n (Vector (Mw n) 16) := do
  let t ← gateAdd v[a] v[b]
  let z ← gateAdd t x
  let v := setAt v a z
  let v := setAt v d (mpcRIGHTROTATE (mpcXOR v[d] v[a]) 16)
  let z ← gateAdd v[c] v[d]
  let v := setAt v c z
  let v := setAt v b (mpcRIGHTROTATE (mpcXOR v[b] v[c]) 12)
  let t ← gateAdd v[a] v[b]
  let z ← gateAdd t y
  let v := setAt v a z
  let v := setAt v d (mpcRIGHTROTATE (mpcXOR v[d] v[a]) 8)
  let z ← gateAdd v[c] v[d]
  let v := setAt v c z
  pure (setAt v b (mpcRIGHTROTATE (mpcXOR v[b] v[c]) 7))

/-- The state before the rounds: `cv`, then known words. -/
def mpcStart (cv : Vector (Mw n) 8) (blockLen flags : Word) : Vector (Mw n) 16 :=
  let masked : Vector (Mw n) 8 := (startTail 0 0 blockLen flags).map mwConst
  cv ++ masked

def mpcBlake3Rounds (m v : Vector (Mw n) 16) : Circuit n (Vector (Mw n) 16) :=
  (List.range 7).foldlM (fun v r => roundCalls.foldlM (fun v call =>
    b3G v call.a call.b call.c call.d m[(roundSchedule r)[call.x]] m[(roundSchedule r)[call.y]]) v) v

def mpcBlake3Compress (cv : Vector (Mw n) 8) (m : Vector (Mw n) 16) (blockLen flags : Word) :
    Circuit n (Vector (Mw n) 8) := do
  let v ← mpcBlake3Rounds m (mpcStart cv blockLen flags)
  pure (Vector.ofFn fun i : Fin 8 => mpcXOR v[lowHalf i] v[highHalf i])

/-- Circuit inputs have public sizes that fit one chunk. -/
def blake3ThMpcValidSizes (domLen dataLen outLen : Nat) : Bool :=
  domLen ≤ blake3ThMaxDomain ∧ dataLen ≤ blake3ChunkLen - blake3ThFrameLen - domLen ∧
    outLen ≤ blake3OutLen

/-- Byte `i` of `LE32(domain_len) || domain || data`, then zeros; the length is public. -/
def blake3ThMpcByte {dl kl : Nat} (domain : Vector Byte dl) (data : Vector Byte kl)
    (maskShare : Bool) (i : Nat) : Byte :=
  if i < blake3ThFrameLen then if maskShare then 0 else byteAt (BitVec.ofNat 32 dl) i
  else if i < blake3ThFrameLen + dl then domain[i - blake3ThFrameLen]?.getD 0
  else data[i - blake3ThFrameLen - dl]?.getD 0

def blake3ThMpcWord {dl kl : Nat} (domain : Vector Byte dl) (data : Vector Byte kl) (off : Nat)
    (maskShare : Bool) : Word :=
  le32 fun b => blake3ThMpcByte domain data maskShare (off + b)

/-- Word `off / 4` of the framed message. -/
def framedWord {dl kl : Nat} (dom : Masked n (Vector Byte dl)) (data : Masked n (Vector Byte kl))
    (off : Nat) : Mw n :=
  Masked.of (blake3ThMpcWord dom.h data.h off false)
    fun p => blake3ThMpcWord (dom.l p) (data.l p) off true

/-- The chaining values of the framed message. -/
def mpcChunk {dl kl : Nat} (dom : Masked n (Vector Byte dl)) (data : Masked n (Vector Byte kl)) :
    Circuit n (Vector (Mw n) 8) :=
  let framedLen := blake3ThFrameLen + dl + kl
  (List.range (nblocks framedLen)).foldlM (fun cv b =>
    mpcBlake3Compress cv
      (Vector.ofFn fun w : Fin 16 => framedWord dom data (b * blake3BlockLen + w * 4))
      (BitVec.ofNat 32 (blockLen framedLen b)) (blockFlags framedLen b))
    (blake3ThContextKey.map mwConst)

def mpcBlake3Th {dl kl : Nat} (dom : Masked n (Vector Byte dl)) (data : Masked n (Vector Byte kl))
    (outLen : Nat) : Circuit n (Option (Masked n (Vector Byte outLen))) :=
  if !blake3ThMpcValidSizes dl kl outLen then pure none
  else do
    let cv ← mpcChunk dom data
    pure (some ((Masked.collect cv).map (outputBytes · outLen)))

/-- The same for sizes as the source has them: a refused call leaves the output as it is. -/
def mpcBlake3ThCall (domLen dataLen outLen : Int) (dom : Masked n (Vector Byte domLen.toNat))
    (data : Masked n (Vector Byte dataLen.toNat)) (out : Masked n (Vector Byte outLen.toNat)) :
    Circuit n (Bool × Masked n (Vector Byte outLen.toNat)) := do
  if domLen < 0 ∨ dataLen < 0 ∨ outLen < 0 then pure (false, out)
  else
    match ← mpcBlake3Th dom data outLen.toNat with
    | none => pure (false, out)
    | some out => pure (true, out)

/-- Callers ignore the status: the output they go on with. -/
def mpcTh {dl kl : Nat} (dom : Masked n (Vector Byte dl)) (data : Masked n (Vector Byte kl))
    (outLen : Nat) : Circuit n (Masked n (Vector Byte outLen)) := do
  let out ← mpcBlake3Th dom data outLen
  pure (out.getD (Masked.const zeros))

end Circuit

section Sim

variable (r : MaskRel n n')

theorem gateAnd_sim {x y : Mw n} {x' y' : Mw n'} (hx : r.rel x x') (hy : r.rel y y') :
    Sim r.rel r.rel 1 (gateAnd x y) (gateAnd x' y') := Sim.op Gate.and hx hy

theorem gateAdd_sim {x y : Mw n} {x' y' : Mw n'} (hx : r.rel x x') (hy : r.rel y y') :
    Sim r.rel r.rel 1 (gateAdd x y) (gateAdd x' y') := Sim.op Gate.add hx hy

theorem mpcXOR_rel {x y : Mw n} {x' y' : Mw n'} (hx : r.rel x x') (hy : r.rel y y') :
    r.rel (mpcXOR x y) (mpcXOR x' y') := r.map₂ XorLinear.xor_pair hx hy

/-- One half of `g` after its additions: rotate the sum of two state words. -/
theorem rotate_rel {v : Vector (Mw n) 16} {v' : Vector (Mw n') 16} (hv : r.vec v v') (i j : Fin 16)
    {k : Nat} (hk : 0 < k) (hk' : k < 32) :
    r.vec (v.set i (mpcRIGHTROTATE (mpcXOR v[i] v[j]) k))
      (v'.set i (mpcRIGHTROTATE (mpcXOR v'[i] v'[j]) k)) :=
  hv.set i i.isLt (r.map (XorLinear.rightRotate hk hk') (mpcXOR_rel r (hv i i.isLt) (hv j j.isLt)))

theorem b3G_sim {v : Vector (Mw n) 16} {v' : Vector (Mw n') 16} (hv : r.vec v v')
    (a b c d : Fin 16) {x y : Mw n} {x' y' : Mw n'} (hx : r.rel x x') (hy : r.rel y y') :
    Sim r.rel r.vec 6 (b3G v a b c d x y) (b3G v' a b c d x' y') := by
  refine Sim.count (k := 1 + (1 + (1 + (1 + (1 + 1))))) ?_ rfl
  refine (gateAdd_sim r (hv a a.isLt) (hv b b.isLt)).bind fun t t' ht => ?_
  refine (gateAdd_sim r ht hx).bind fun z z' hz => ?_
  have hv := rotate_rel r (hv.set a a.isLt hz) d a (k := 16) (by omega) (by omega)
  refine (gateAdd_sim r (hv c c.isLt) (hv d d.isLt)).bind fun z z' hz => ?_
  have hv := rotate_rel r (hv.set c c.isLt hz) b c (k := 12) (by omega) (by omega)
  refine (gateAdd_sim r (hv a a.isLt) (hv b b.isLt)).bind fun t t' ht => ?_
  refine (gateAdd_sim r ht hy).bind fun z z' hz => ?_
  have hv := rotate_rel r (hv.set a a.isLt hz) d a (k := 8) (by omega) (by omega)
  refine (gateAdd_sim r (hv c c.isLt) (hv d d.isLt)).bind_pure fun z z' hz => ?_
  exact rotate_rel r (hv.set c c.isLt hz) b c (k := 7) (by omega) (by omega)

theorem mpcBlake3Rounds_sim {m v : Vector (Mw n) 16} {m' v' : Vector (Mw n') 16}
    (hm : r.vec m m') (hv : r.vec v v') :
    Sim r.rel r.vec 336 (mpcBlake3Rounds m v) (mpcBlake3Rounds m' v') := by
  refine (Sim.foldlM (List.range 7) (fun round _ v v' hv => ?_) hv).count (k := 7 * 48) rfl
  refine (Sim.foldlM roundCalls (fun call _ v v' hv => ?_) hv).count (k := 8 * 6) rfl
  exact b3G_sim r hv _ _ _ _ (hm _ _) (hm _ _)

theorem mpcBlake3Compress_sim {cv : Vector (Mw n) 8} {cv' : Vector (Mw n') 8}
    {m : Vector (Mw n) 16} {m' : Vector (Mw n') 16} (hcv : r.vec cv cv') (hm : r.vec m m')
    (blockLen flags : Word) :
    Sim r.rel r.vec 336 (mpcBlake3Compress cv m blockLen flags)
      (mpcBlake3Compress cv' m' blockLen flags) := by
  have start : r.vec (mpcStart cv blockLen flags) (mpcStart cv' blockLen flags) :=
    hcv.append fun i _ => by
      rw [Vector.getElem_map, Vector.getElem_map]
      exact r.const _
  refine (mpcBlake3Rounds_sim r hm start).bind_pure fun v v' hv => ?_
  exact MaskRel.vec.ofFn fun i => mpcXOR_rel r (hv _ _) (hv _ _)

/-- The message word without its length prefix is linear in the message. -/
theorem blake3ThMpcWord_linear {dl kl : Nat} (off : Nat) :
    XorLinear fun p : Vector Byte dl × Vector Byte kl => blake3ThMpcWord p.1 p.2 off true := by
  refine XorLinear.le32 fun b => ?_
  unfold blake3ThMpcByte
  refine XorLinear.ite _ ?_ (XorLinear.ite _ ?_ ?_)
  · exact XorLinear.const_zeros
  · exact (XorLinear.getD _).comp XorLinear.fst
  · exact (XorLinear.getD _).comp XorLinear.snd

/-- The length prefix as it appears in the word at `off`. -/
def framePrefix (dl off : Nat) : Word :=
  le32 fun b => if off + b.val < blake3ThFrameLen then byteAt (BitVec.ofNat 32 dl) (off + b) else 0

theorem blake3ThMpcWord_public {dl kl : Nat} (domain : Vector Byte dl) (data : Vector Byte kl)
    (off : Nat) : blake3ThMpcWord domain data off false =
      blake3ThMpcWord domain data off true ^^^ framePrefix dl off := by
  unfold blake3ThMpcWord framePrefix
  rw [← le32_xor]
  congr 1
  funext b
  by_cases inFrame : off + b.val < blake3ThFrameLen <;> simp [blake3ThMpcByte, inFrame]

theorem framedWord_rel {dl kl : Nat} {dom : Masked n (Vector Byte dl)}
    {dom' : Masked n' (Vector Byte dl)} {data : Masked n (Vector Byte kl)}
    {data' : Masked n' (Vector Byte kl)} (hdom : r.rel dom dom') (hdata : r.rel data data')
    (off : Nat) : r.rel (framedWord dom data off) (framedWord dom' data' off) := by
  have split (m : Nat) (dom : Masked m (Vector Byte dl)) (data : Masked m (Vector Byte kl)) :
      framedWord dom data off = (Masked.map₂ (fun a b => blake3ThMpcWord a b off true) dom data).xorPublic
        (framePrefix dl off) :=
    Masked.ext (by simp [framedWord, Masked.xorPublic, blake3ThMpcWord_public])
      (by simp [framedWord, Masked.xorPublic])
  rw [split, split]
  exact r.xorPublic _ (r.map₂ (blake3ThMpcWord_linear off) hdom hdata)

theorem outputBytes_linear (outLen : Nat) :
    XorLinear fun words : Vector Word 8 => outputBytes words outLen :=
  XorLinear.ofFn fun _ => (XorLinear.byteAt _).comp (XorLinear.getD _)

/-- The gates of one masked tweakable hash. -/
def thGates (dl kl : Nat) : Nat := nblocks (blake3ThFrameLen + dl + kl) * 336

theorem mpcChunk_sim {dl kl : Nat} {dom : Masked n (Vector Byte dl)}
    {dom' : Masked n' (Vector Byte dl)} {data : Masked n (Vector Byte kl)}
    {data' : Masked n' (Vector Byte kl)} (hdom : r.rel dom dom') (hdata : r.rel data data') :
    Sim r.rel r.vec (thGates dl kl) (mpcChunk dom data) (mpcChunk dom' data') := by
  refine (Sim.foldlM _ (fun b _ cv cv' hcv => ?_) ?_).count (k := (List.range _).length * 336) ?_
  · exact mpcBlake3Compress_sim r hcv (MaskRel.vec.ofFn fun w => framedWord_rel r hdom hdata _) _ _
  · intro i _
    rw [Vector.getElem_map, Vector.getElem_map]
    exact r.const _
  · rw [List.length_range, thGates]

theorem mpcTh_sim {dl kl outLen : Nat} (valid : blake3ThMpcValidSizes dl kl outLen = true)
    {dom : Masked n (Vector Byte dl)} {dom' : Masked n' (Vector Byte dl)}
    {data : Masked n (Vector Byte kl)} {data' : Masked n' (Vector Byte kl)} (hdom : r.rel dom dom')
    (hdata : r.rel data data') :
    Sim r.rel r.rel (thGates dl kl) (mpcTh dom data outLen) (mpcTh dom' data' outLen) := by
  unfold mpcTh mpcBlake3Th
  simp only [valid, Bool.not_true, Bool.false_eq_true, if_false, bind_assoc]
  refine (mpcChunk_sim r hdom hdata).bind_pure fun cv cv' hcv => ?_
  exact r.map (outputBytes_linear outLen) (r.collect hcv)

end Sim

section Plain

/-- Without parties only the public words are left. -/
theorem h_getElem {k : Nat} (v : Vector (Mw 0) k) (i : Nat) (hi : i < k) :
    v[i].h = getElem (v.map Masked.h) i hi := by
  rw [Vector.getElem_map]

theorem eval_b3G (v : Vector (Mw 0) 16) (a b c d : Fin 16) (x y : Mw 0) :
    ((b3G v a b c d x y).eval gateSem).map Masked.h =
      g (v.map Masked.h) a b c d x.h y.h := by
  simp only [b3G, gateAdd, eval_bind, eval_op, gateSem, pure_eq, eval_ret, Vector.map_set,
    mpcRIGHTROTATE, mpcXOR, Masked.map_h, Masked.map₂_h, Masked.const_h, getElem_fin, h_getElem, g]

theorem map_mpcStart (cv : Vector (Mw 0) 8) (blockLen flags : Word) :
    (mpcStart cv blockLen flags).map Masked.h = cv.map Masked.h ++
      startTail 0 0 blockLen flags := by
  rw [mpcStart, Vector.map_append, Vector.map_map]
  exact congrArg (cv.map Masked.h ++ ·) (Vector.ext fun i hi => by simp [mwConst])

theorem eval_mpcBlake3Rounds (m v : Vector (Mw 0) 16) :
    ((mpcBlake3Rounds m v).eval gateSem).map Masked.h =
      blake3Rounds (m.map Masked.h) (v.map Masked.h) := by
  simp only [mpcBlake3Rounds, blake3Rounds, eval_foldlM]
  refine (List.foldl_hom (Vector.map Masked.h) fun v r => ?_).symm
  refine List.foldl_hom (Vector.map Masked.h) fun v call => ?_
  rw [eval_b3G]
  simp [getElem_fin]

theorem eval_mpcBlake3Compress (cv : Vector (Mw 0) 8) (m : Vector (Mw 0) 16)
    (blockLen flags : Word) :
    ((mpcBlake3Compress cv m blockLen flags).eval gateSem).map Masked.h =
      blake3Compress (cv.map Masked.h) (m.map Masked.h) 0 blockLen flags := by
  have rounds := eval_mpcBlake3Rounds m (mpcStart cv blockLen flags)
  rw [map_mpcStart] at rounds
  unfold mpcBlake3Compress blake3Compress
  rw [show BitVec.setWidth 32 (0 : BitVec 64) = 0 from rfl,
    show BitVec.setWidth 32 ((0 : BitVec 64) >>> 32) = 0 from rfl]
  dsimp only
  rw [← rounds]
  apply Vector.ext
  intro i hi
  simp [mpcXOR]

/-- The framed message. -/
def framed {dl kl : Nat} (domain : Vector Byte dl) (data : Vector Byte kl) : List Byte :=
  (frame dl).toList ++ domain.toList ++ data.toList

theorem framed_length {dl kl : Nat} (domain : Vector Byte dl) (data : Vector Byte kl) :
    (framed domain data).length = blake3ThFrameLen + dl + kl := by
  simp [framed, Nat.add_assoc]

theorem blake3ThMpcByte_eq {dl kl : Nat} (domain : Vector Byte dl) (data : Vector Byte kl)
    (i : Nat) : blake3ThMpcByte domain data false i = (framed domain data).getD i 0 := by
  rw [List.getD_eq_getElem?_getD, framed]
  unfold blake3ThMpcByte
  rcases Nat.lt_or_ge i 4 with inFrame | afterFrame
  · simp [inFrame, frame, Nat.lt_add_right]
  · rcases Nat.lt_or_ge i (4 + dl) with inDomain | inData
    · simp [Nat.not_lt.mpr afterFrame, inDomain, List.getElem?_append, show i - 4 < dl by omega]
    · simp [Nat.not_lt.mpr afterFrame, Nat.not_lt.mpr inData, List.getElem?_append, Nat.sub_sub,
        show ¬ i - 4 < dl by omega]

theorem map_framedWord {dl kl : Nat} (dom : Masked 0 (Vector Byte dl))
    (data : Masked 0 (Vector Byte kl)) (b : Nat) :
    (Vector.ofFn fun w : Fin 16 => framedWord dom data (b * blake3BlockLen + w * 4)).map Masked.h =
      blockWords (framed dom.h data.h) b := by
  apply Vector.ext
  intro w hw
  simp [framedWord, blockWords, blake3ThMpcWord, blake3ThMpcByte_eq]

theorem eval_mpcChunk {dl kl : Nat} (dom : Masked 0 (Vector Byte dl))
    (data : Masked 0 (Vector Byte kl)) :
    ((mpcChunk dom data).eval gateSem).map Masked.h = chunkOutput (framed dom.h data.h) := by
  have key : (blake3ThContextKey.map mwConst).map (Masked.h (n := 0)) = blake3ThContextKey := by
    apply Vector.ext
    intro i hi
    simp [mwConst]
  rw [mpcChunk, chunkOutput, eval_foldlM, framed_length]
  conv_rhs => rw [← key]
  refine (List.foldl_hom (Vector.map Masked.h) fun cv b => ?_).symm
  rw [eval_mpcBlake3Compress, map_framedWord]

/-- Without parties the masked hash is the native one. -/
theorem eval_mpcTh (H : Blake3) {dl kl outLen : Nat}
    (valid : blake3ThMpcValidSizes dl kl outLen = true) (dom : Masked 0 (Vector Byte dl))
    (data : Masked 0 (Vector Byte kl)) :
    ((mpcTh dom data outLen).eval gateSem).h =
      th H.toHasher dom.h.toList data.h.toList outLen := by
  obtain ⟨domFits, dataFits, outFits⟩ := of_decide_eq_true valid
  have length := framed_length dom.h data.h
  have native : th H.toHasher dom.h.toList data.h.toList outLen =
      outputBytes (chunkOutput (framed dom.h data.h)) outLen := by
    rw [th_eq _ _ _ _ (by simpa using domFits) outFits, Vector.length_toList]
    refine H.single_chunk _ _ (fun empty => ?_) (?_ : (framed dom.h data.h).length ≤ _) outFits
    · have : (framed dom.h data.h).length = 0 := congrArg List.length empty
      simp only [blake3ThFrameLen] at length
      omega
    · simp only [blake3ThFrameLen, blake3ChunkLen, blake3ThMaxDomain] at length domFits dataFits ⊢
      omega
  unfold mpcTh mpcBlake3Th
  simp only [valid, Bool.not_true, Bool.false_eq_true, if_false, eval_bind, pure_eq, eval_ret,
    Option.getD_some, Masked.map_h, Masked.collect_h, eval_mpcChunk, native]

end Plain

section Run

variable (tapes : Vector Tape (n + 1)) (g : Nat)

/-- Behind the masks of a run stands the evaluation without masks. -/
theorem unmasked_run {α α' : Type} {B : α → α' → Prop} {k : Nat} {c : Circuit (n + 1) α}
    {c' : Circuit 0 α'} (sim : Sim (MaskRel.unmasking (n + 1) 0).rel B k c c') :
    B (c.run (proverStep tapes) g).1 (c'.eval gateSem) ∧ (c.run (proverStep tapes) g).2.length = k := by
  obtain ⟨related, length, -, -⟩ := sim.run_of_keeps (proverStep tapes)
    (fun _ op x y => (gateSem op x y, ())) (Q := fun _ => True)
    (fun g op x x' y y' hx hy => ⟨plain_proverStep tapes g op hx hy, trivial⟩) g
  rw [run_fst_of_sem gateSem _ fun _ _ _ _ => rfl] at related
  exact ⟨related, length⟩

/-- On any masks and tapes the chaining values are those of the message behind them. -/
theorem run_mpcChunk {dl kl : Nat} (dom : Masked (n + 1) (Vector Byte dl))
    (data : Masked (n + 1) (Vector Byte kl)) :
    ((mpcChunk dom data).run (proverStep tapes) g).1.map Masked.plain =
        chunkOutput (framed dom.plain data.plain) ∧
      ((mpcChunk dom data).run (proverStep tapes) g).2.length = thGates dl kl := by
  have behind {A : Type} [XorGroup A] (x : Masked (n + 1) A) :
      (MaskRel.unmasking (n + 1) 0).rel x (Masked.const x.plain) := (Masked.plain_const x.plain).symm
  have sim := mpcChunk_sim (MaskRel.unmasking (n + 1) 0) (behind dom) (behind data)
  obtain ⟨words, length⟩ := unmasked_run tapes g sim
  have clear := eval_mpcChunk (Masked.const dom.plain) (Masked.const data.plain)
  rw [Masked.const_h, Masked.const_h] at clear
  constructor
  · rw [← clear]
    apply Vector.ext
    intro w hw
    rw [Vector.getElem_map, Vector.getElem_map, ← Masked.plain_zero]
    exact words w hw
  · exact length

section Call

variable {domLen dataLen outLen : Int} (dom : Masked (n + 1) (Vector Byte domLen.toNat))
  (data : Masked (n + 1) (Vector Byte dataLen.toNat)) (out : Masked (n + 1) (Vector Byte outLen.toNat))

theorem validSizes_iff : (0 ≤ domLen ∧ domLen ≤ 28 ∧ 0 ≤ dataLen ∧ dataLen ≤ 1020 - domLen ∧
    0 ≤ outLen ∧ outLen ≤ 32) ↔ ¬ (domLen < 0 ∨ dataLen < 0 ∨ outLen < 0) ∧
      blake3ThMpcValidSizes domLen.toNat dataLen.toNat outLen.toNat = true := by
  rw [blake3ThMpcValidSizes, decide_eq_true_iff]
  change _ ↔ _ ∧ domLen.toNat ≤ 28 ∧ dataLen.toNat ≤ 1024 - 4 - domLen.toNat ∧ outLen.toNat ≤ 32
  omega

theorem mpcBlake3ThCall_valid (whole : ¬ (domLen < 0 ∨ dataLen < 0 ∨ outLen < 0))
    (sizes : blake3ThMpcValidSizes domLen.toNat dataLen.toNat outLen.toNat = true) :
    mpcBlake3ThCall domLen dataLen outLen dom data out = mpcChunk dom data >>= fun cv =>
      pure (true, (Masked.collect cv).map (outputBytes · outLen.toNat)) := by
  rw [mpcBlake3ThCall, if_neg whole, mpcBlake3Th, sizes]
  simp only [Bool.not_true, Bool.false_eq_true, if_false, bind_assoc, pure_eq, ret_bind]

theorem mpcBlake3ThCall_invalid (refused : ¬ (¬ (domLen < 0 ∨ dataLen < 0 ∨ outLen < 0) ∧
      blake3ThMpcValidSizes domLen.toNat dataLen.toNat outLen.toNat = true)) :
    mpcBlake3ThCall domLen dataLen outLen dom data out = pure (false, out) := by
  unfold mpcBlake3ThCall
  split
  · rfl
  · next whole =>
    have sizes : ¬ blake3ThMpcValidSizes domLen.toNat dataLen.toNat outLen.toNat = true :=
      fun valid => refused ⟨whole, valid⟩
    rw [mpcBlake3Th, if_pos (by simpa using sizes)]
    rfl

end Call

/-- The masked hash is the native one for all sizes it takes, and refuses all others untouched. -/
theorem mpc_hash_exact (domLen dataLen outLen : Int) (dom : Masked (n + 1) (Vector Byte domLen.toNat))
    (data : Masked (n + 1) (Vector Byte dataLen.toNat))
    (out : Masked (n + 1) (Vector Byte outLen.toNat)) :
    let result := (mpcBlake3ThCall domLen dataLen outLen dom data out).run (proverStep tapes) g
    if 0 ≤ domLen ∧ domLen ≤ 28 ∧ 0 ≤ dataLen ∧ dataLen ≤ 1020 - domLen ∧ 0 ≤ outLen ∧ outLen ≤ 32 then
      result.1.1 = true ∧
      result.1.2.plain = outputBytes (chunkOutput (framed dom.plain data.plain)) outLen.toNat ∧
      result.2.length = 336 * nblocks (4 + domLen.toNat + dataLen.toNat)
    else result.1 = (false, out) ∧ result.2 = [] := by
  intro result
  split
  · next valid =>
    obtain ⟨whole, sizes⟩ := validSizes_iff.mp valid
    obtain ⟨words, length⟩ := run_mpcChunk tapes g dom data
    have ran : result = ((true, (Masked.collect ((mpcChunk dom data).run (proverStep tapes) g).1).map
        (outputBytes · outLen.toNat)), ((mpcChunk dom data).run (proverStep tapes) g).2) := by
      simp only [result, mpcBlake3ThCall_valid dom data out whole sizes, run_bind, pure_eq, run_ret,
        List.append_nil]
    rw [ran]
    refine ⟨rfl, ?_, ?_⟩
    · rw [Masked.plain_map (outputBytes_linear _), Masked.plain_collect, words]
    · rw [length, thGates, Nat.mul_comm]
  · next refused =>
    have ran : result = ((false, out), []) := by
      simp only [result, mpcBlake3ThCall_invalid dom data out (mt validSizes_iff.mpr refused), pure_eq,
        run_ret]
    rw [ran]
    exact ⟨rfl, rfl⟩

end Run

end BlindSig.Kkw
