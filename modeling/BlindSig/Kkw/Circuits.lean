import BlindSig.Kkw.PooledChains
import BlindSig.Kkw.MpcVerify
import BlindSig.Kkw.Gf128

/-! The circuit of the statement: the commitment opening, the message hash, the pooled
chains, the leaf hash, 32 tree levels and the codeword checks. `buildingViews` runs it with
all parties, `verify` with all but the hidden one. -/
namespace BlindSig.Kkw

open XorGroup Prog

variable {n n' : Nat}

section Commitment

def mpcGf128Mul (X Y : Vector (Mw n) 4) : Circuit n (Vector (Mw n) 4) := do
  let acc ← (List.finRange 128).foldlM (fun acc (j : Fin 128) =>
    let mask := Y[limbOf j].map (spreadBit · (j.val % 32))
    (List.finRange 4).foldlM (fun acc (w : Fin 4) => do
      let mwout ← gateAnd mask X[w]
      pure (Masked.map₂ (gf128WordShiftXor · · (32 * w + j)) acc mwout)) acc)
    (Masked.const zeros)
  let red := acc.map gf128Reduce
  pure (Vector.ofFn fun w : Fin 4 => red.map (·[w]))

/-- The four words of a field element that is a local function of the witness. -/
def loadElt (d : Masked n Witness) (elt : Witness → Vector Byte 16) : Vector (Mw n) 4 :=
  Vector.ofFn fun w : Fin 4 => d.map fun x => (gf128Load (elt x))[w]

def witnessR (x : Vector α wEnd) : Vector α hmRBytes := slice x wROff hmRBytes (by decide)

def witnessA (x : Vector α wEnd) : Vector α hmABytes := slice x wAOff hmABytes (by decide)

/-- One line `b_k = m_k + Σ a_ki r_i` of the opening. -/
def mpcHmLine (mHat : Vector Byte 32) (d : Masked n Witness) (line : Fin 2) :
    Circuit n (Masked n (Vector Byte 16)) := do
  let acc ← (List.finRange 6).foldlM (fun acc idx => do
    let P ← mpcGf128Mul (loadElt d fun x => hmCoefficient (witnessA x) line idx)
      (loadElt d fun x => hmNonce (witnessR x) idx)
    pure (Vector.ofFn fun w : Fin 4 => mpcXOR acc[w] P[w])) (Vector.replicate 4 (mwConst 0))
  let Mk := gf128Load (hmMessage mHat line)
  let acc : Vector (Mw n) 4 := Vector.ofFn fun w : Fin 4 => (acc[w] : Mw n).xorPublic Mk[w]
  pure ((Masked.collect acc).map gf128Store)

/-- The digest of the commitment that the witness opens. -/
def mpcHmCommit (mHat : Vector Byte 32) (d : Masked n Witness) :
    Circuit n (Masked n (Vector Byte 32)) := do
  let ysh ← mpcTh (Masked.const hmDomY) (d.map witnessR) 32
  let lines ← Prog.collect 2 (mpcHmLine mHat d)
  let bsh := (Masked.collect lines).map join
  let sec : Masked n (Vector Byte hmComBytes) :=
    Masked.map₂ (fun ab y => hmCommitment ab.1 ab.2 y) (Masked.map₂ Prod.mk (d.map witnessA) bsh) ysh
  mpcTh (Masked.const hmDomD) sec 32

end Commitment

section Xmss

def witnessEpoch (x : Vector α wEnd) : Vector α 4 := slice x wLeafidxOff 4 leafidx_inside

def witnessNonce (x : Vector α wEnd) : Vector α 24 := slice x wNonceOff 24 (by decide)

/-- `pk_seed || tweak || epoch`. -/
def mpcEpochDomain (pkSeed : PkSeed) (tweak : Byte) (d : Masked n Witness) :
    Masked n (Vector Byte 21) :=
  Masked.map₂ (· ++ ·) (Masked.map₂ (· ++ ·) (Masked.const pkSeed) (Masked.const #v[tweak]))
    (d.map witnessEpoch)

def mpcHashMessage (pkSeed : PkSeed) (d : Masked n Witness) (dsh : Masked n (Vector Byte 32)) :
    Circuit n (Masked n (Vector Byte 32)) :=
  let sec : Masked n (Vector Byte 56) := Masked.map₂ (· ++ ·) (d.map witnessNonce) dsh
  mpcTh (mpcEpochDomain pkSeed xmssTweakMessage d) sec 32

def mpcHashPublicKey (pkSeed : PkSeed) (d : Masked n Witness) (pkh : Masked n (Vector Byte 672)) :
    Circuit n (Masked n Node) :=
  mpcTh (mpcEpochDomain pkSeed xmssTweakLeaf d) pkh 16

def shr32 (v : Word) (k : Nat) : Word := if k ≥ 32 then 0 else v >>> k

/-- `idx` little-endian. -/
def putIdxLe (idx : Word) : Vector Byte 4 := Vector.ofFn fun k : Fin 4 => byteAt idx k

/-- The leaf index, most significant byte first. -/
def leafIndexWord (x : Witness) : Word := be32 fun i => (witnessEpoch x)[i]

def maskFromBit (sel : Mw n) : Mw n := sel.map fun s => 0 - (s &&& 1)

def witnessSibling (x : Vector α wEnd) (level : Fin xmssH) : Vector α 16 :=
  slice x (wPathOff + level * 16) 16 (by
    have := level.isLt
    unfold xmssH at this
    unfold wPathOff wEnd
    omega)

/-- Word `w` of the ordered pair of children. -/
def mpcSwap (mask : Mw n) (node sib : Masked n Node) (w : Fin 4) : Circuit n (Mw n × Mw n) := do
  let nd := node.map (xmssNodeLoadWord · w)
  let sb := sib.map (xmssNodeLoadWord · w)
  let t := mpcXOR nd sb
  let mt ← gateAnd mask t
  pure (mpcXOR nd mt, mpcXOR sb mt)

def mpcTreeLevel (pkSeed : PkSeed) (d : Masked n Witness) (node : Masked n Node)
    (level : Fin xmssH) : Circuit n (Masked n Node) := do
  let li := d.map leafIndexWord
  let sib := d.map (witnessSibling · level)
  let mask := maskFromBit (li.map fun l : Word => l >>> level.val &&& 1)
  let pairs ← Prog.collect 4 (mpcSwap mask node sib)
  let left := (Masked.collect (pairs.map Prod.fst)).map xmssNodeStoreWords
  let right := (Masked.collect (pairs.map Prod.snd)).map xmssNodeStoreWords
  let dom : Masked n (Vector Byte 22) :=
    Masked.map₂ (· ++ ·) (Masked.map₂ (· ++ ·) (Masked.const pkSeed)
      (Masked.const #v[xmssTweakTree, BitVec.ofNat 8 level]))
      (li.map fun l => putIdxLe (shr32 l (level + 1)))
  let sec : Masked n (Vector Byte 32) := Masked.map₂ (· ++ ·) left right
  mpcTh dom sec 16

def mhCoordBits (mh : Masked n (Vector Byte 32)) (ci : Fin xmssWotsLen) :
    Vector (Mw n) xmssCoordResBits := Vector.ofFn fun k => mh.map (mhBit · (coordBit ci k))

/-- Coordinate `ci` of the digest. -/
def mhCoord (h : Vector Byte 32) (ci : Fin xmssWotsLen) : Word :=
  (List.finRange xmssCoordResBits).foldl (fun out k =>
    out ||| (mhBit h (coordBit ci k) &&& 1) <<< k.val) 0

def mhLeftover (h : Vector Byte 32) : Word := mhBit h 63 ||| mhBit h 127 <<< 1

def mpcCoordSum (mh : Masked n (Vector Byte 32)) : Circuit n (Mw n) :=
  (List.finRange xmssWotsLen).foldlM (fun acc ci => gateAdd acc (mh.map (mhCoord · ci))) (mwConst 0)

end Xmss

/-- The masked output: the root, the sum of the coordinates, the unused digest bits, the check
word of the chains, and a zero. -/
@[irreducible] def circuit (mHat : Vector Byte 32) (pkSeed : PkSeed) (d : Masked n Witness) :
    Circuit n (Vector (Mw n) 8) := do
  let dsh ← mpcHmCommit mHat d
  let mh ← mpcHashMessage pkSeed d dsh
  let (pkh, poolCheck) ← poolChains d pkSeed mh
  let node ← mpcHashPublicKey pkSeed d pkh
  let node ← (List.finRange xmssH).foldlM (mpcTreeLevel pkSeed d) node
  let acc ← mpcCoordSum mh
  let leftover := mh.map mhLeftover
  let root : Vector (Mw n) 4 := Vector.ofFn fun w : Fin 4 => node.map (xmssNodeLoadWord · w)
  let checks : Vector (Mw n) 4 := #v[acc, leftover, poolCheck, mwConst 0]
  pure (root ++ checks)

section Verifier

/-! The members that `verify` has of its own, for the `n` parties it sees. -/

abbrev Mwv (n : Nat) := Mw n

def mwvConst (K : Word) : Mwv n := mwConst K

def mpcXORV (x y : Mwv n) : Mwv n := mpcXOR x y

def mpcRIGHTROTATEV (x : Mwv n) (k : Nat) : Mwv n := mpcRIGHTROTATE x k

def b3GV (v : Vector (Mwv n) 16) (a b c d : Fin 16) (x y : Mwv n) : Circuit n (Vector (Mwv n) 16) :=
  b3G v a b c d x y

def mpcBlake3CompressVerify (cv : Vector (Mwv n) 8) (m : Vector (Mwv n) 16) (blockLen flags : Word) :
    Circuit n (Vector (Mwv n) 8) := mpcBlake3Compress cv m blockLen flags

/-- As `verify` calls it, without a look at the status. -/
def mpcBlake3ThVerify {dl kl : Nat} (dom : Masked n (Vector Byte dl))
    (data : Masked n (Vector Byte kl)) (outLen : Nat) : Circuit n (Masked n (Vector Byte outLen)) :=
  mpcTh dom data outLen

def mpcGf128MulVerify (X Y : Vector (Mwv n) 4) : Circuit n (Vector (Mwv n) 4) := mpcGf128Mul X Y

def maskFromBitV (sel : Mwv n) : Mwv n := maskFromBit sel

def mhCoordBitsV (mh : Masked n (Vector Byte 32)) (ci : Fin xmssWotsLen) :
    Vector (Mwv n) xmssCoordResBits := mhCoordBits mh ci

def mhCoordV (mh : Masked n (Vector Byte 32)) (ci : Fin xmssWotsLen) : Mwv n := mh.map (mhCoord · ci)

def poolVChains (d : Masked n Witness) (pkSeed : PkSeed) (mh : Masked n (Vector Byte 32)) :
    Circuit n (Masked n (Vector Byte 672) × Mwv n) := poolChains d pkSeed mh

def verifyHmLine (mHat : Vector Byte 32) (d : Masked n Witness) (line : Fin 2) :
    Circuit n (Masked n (Vector Byte 16)) := do
  let acc ← (List.finRange 6).foldlM (fun acc idx => do
    let P ← mpcGf128MulVerify (loadElt d fun x => hmCoefficient (witnessA x) line idx)
      (loadElt d fun x => hmNonce (witnessR x) idx)
    pure (Vector.ofFn fun w : Fin 4 => mpcXORV acc[w] P[w])) (Vector.replicate 4 (mwvConst 0))
  let Mk := gf128Load (hmMessage mHat line)
  let acc : Vector (Mwv n) 4 := Vector.ofFn fun w : Fin 4 => (acc[w] : Mwv n).xorPublic Mk[w]
  pure ((Masked.collect acc).map gf128Store)

def verifyHmCommit (mHat : Vector Byte 32) (d : Masked n Witness) :
    Circuit n (Masked n (Vector Byte 32)) := do
  let ysh ← mpcBlake3ThVerify (Masked.const hmDomY) (d.map witnessR) 32
  let lines ← Prog.collect 2 (verifyHmLine mHat d)
  let bsh := (Masked.collect lines).map join
  let sec : Masked n (Vector Byte hmComBytes) :=
    Masked.map₂ (fun ab y => hmCommitment ab.1 ab.2 y) (Masked.map₂ Prod.mk (d.map witnessA) bsh) ysh
  mpcBlake3ThVerify (Masked.const hmDomD) sec 32

def verifySwap (mask : Mwv n) (node sib : Masked n Node) (w : Fin 4) : Circuit n (Mwv n × Mwv n) := do
  let nd := node.map (xmssNodeLoadWord · w)
  let sb := sib.map (xmssNodeLoadWord · w)
  let t := mpcXORV nd sb
  let mt ← gateAnd mask t
  pure (mpcXORV nd mt, mpcXORV sb mt)

def verifyTreeLevel (pkSeed : PkSeed) (d : Masked n Witness) (node : Masked n Node)
    (level : Fin xmssH) : Circuit n (Masked n Node) := do
  let li := d.map leafIndexWord
  let sib := d.map (witnessSibling · level)
  let mask := maskFromBitV (li.map fun l : Word => l >>> level.val &&& 1)
  let pairs ← Prog.collect 4 (verifySwap mask node sib)
  let left := (Masked.collect (pairs.map Prod.fst)).map xmssNodeStoreWords
  let right := (Masked.collect (pairs.map Prod.snd)).map xmssNodeStoreWords
  let dom : Masked n (Vector Byte 22) :=
    Masked.map₂ (· ++ ·) (Masked.map₂ (· ++ ·) (Masked.const pkSeed)
      (Masked.const #v[xmssTweakTree, BitVec.ofNat 8 level]))
      (li.map fun l => putIdxLe (shr32 l (level + 1)))
  let sec : Masked n (Vector Byte 32) := Masked.map₂ (· ++ ·) left right
  mpcBlake3ThVerify dom sec 16

/-- The circuit as `verify` writes it out. -/
def verifyCircuit (mHat : Vector Byte 32) (pkSeed : PkSeed) (d : Masked n Witness) :
    Circuit n (Vector (Mwv n) 8) := do
  let dsh ← verifyHmCommit mHat d
  let sec : Masked n (Vector Byte 56) := Masked.map₂ (· ++ ·) (d.map witnessNonce) dsh
  let mh ← mpcBlake3ThVerify (mpcEpochDomain pkSeed xmssTweakMessage d) sec 32
  let (pkh, poolCheck) ← poolVChains d pkSeed mh
  let node ← mpcBlake3ThVerify (mpcEpochDomain pkSeed xmssTweakLeaf d) pkh 16
  let node ← (List.finRange xmssH).foldlM (verifyTreeLevel pkSeed d) node
  let sum ← (List.finRange xmssWotsLen).foldlM (fun sum ci => gateAdd sum (mhCoordV mh ci)) (mwvConst 0)
  let leftover := mh.map mhLeftover
  let root : Vector (Mwv n) 4 := Vector.ofFn fun w : Fin 4 => node.map (xmssNodeLoadWord · w)
  let checks : Vector (Mwv n) 4 := #v[sum, leftover, poolCheck, mwvConst 0]
  pure (root ++ checks)

/-- The two texts are one circuit. -/
theorem verifyCircuit_eq (mHat : Vector Byte 32) (pkSeed : PkSeed) (d : Masked n Witness) :
    verifyCircuit mHat pkSeed d = circuit mHat pkSeed d := by
  rw [circuit]
  rfl

end Verifier

section Sim

variable (r : MaskRel n n')

theorem mpcGf128Mul_sim {X Y : Vector (Mw n) 4} {X' Y' : Vector (Mw n') 4} (hX : r.vec X X')
    (hY : r.vec Y Y') : Sim r.rel r.vec 512 (mpcGf128Mul X Y) (mpcGf128Mul X' Y') := by
  refine Sim.bind_pure (A := r.rel) (k := 128 * (4 * 1)) ?_ fun acc acc' hacc => ?_
  · refine Sim.foldFin 128 (fun j acc acc' hacc => ?_) (r.const _)
    refine Sim.foldFin 4 (fun w acc acc' hacc => ?_) hacc
    refine (gateAnd_sim r (r.map (XorLinear.spreadBit _) (hY _ _)) (hX w w.isLt)).bind_pure
      fun _ _ hout => ?_
    exact r.map₂ (gf128WordShiftXor_linear _) hacc hout
  · exact MaskRel.vec.ofFn fun w => r.map (XorLinear.getElem _ _) (r.map gf128Reduce_linear hacc)

variable {mHat mHat' : Vector Byte 32} {pkSeed pkSeed' : PkSeed} {d : Masked n Witness}
  {d' : Masked n' Witness}

theorem loadElt_rel (hd : r.rel d d') (elt : Witness → Vector Byte 16) (linear : XorLinear elt) :
    r.vec (loadElt d elt) (loadElt d' elt) :=
  MaskRel.vec.ofFn fun w =>
    r.map ((XorLinear.getElem _ w.isLt).comp (gf128Load_linear.comp linear)) hd

theorem mpcHmLine_sim (hm : r.rel (Masked.const mHat) (Masked.const mHat')) (hd : r.rel d d')
    (line : Fin 2) :
    Sim r.rel r.rel 3072 (mpcHmLine mHat d line) (mpcHmLine mHat' d' line) := by
  refine Sim.bind_pure (A := r.vec) (k := 6 * 512) ?_ fun acc acc' hacc => ?_
  · refine Sim.foldFin 6 (fun idx acc acc' hacc => ?_) (MaskRel.vec.replicate (r.const 0))
    have hA := loadElt_rel r hd (fun x => hmCoefficient (witnessA x) line idx)
      ((XorLinear.slice _ _ _).comp (XorLinear.slice _ _ _))
    have hR := loadElt_rel r hd (fun x => hmNonce (witnessR x) idx)
      ((XorLinear.slice _ _ _).comp (XorLinear.slice _ _ _))
    exact (mpcGf128Mul_sim r hA hR).bind_pure fun P P' hP =>
      MaskRel.vec.ofFn fun w => mpcXOR_rel r (hacc w w.isLt) (hP w w.isLt)
  · refine r.map gf128Store_linear (r.collect (MaskRel.vec.ofFn fun w => ?_))
    refine r.xorPublic' (r.const_map (f := fun m => (gf128Load (hmMessage m line))[w]) ?_ hm)
      (hacc w w.isLt)
    exact (XorLinear.getElem _ w.isLt).comp (gf128Load_linear.comp (XorLinear.slice _ _ _))

theorem mpcHmCommit_sim (hm : r.rel (Masked.const mHat) (Masked.const mHat')) (hd : r.rel d d') :
    Sim r.rel r.rel (672 + (6144 + 1680)) (mpcHmCommit mHat d) (mpcHmCommit mHat' d') := by
  have hr := r.map (f := witnessR) (XorLinear.slice _ _ _) hd
  have ha := r.map (f := witnessA) (XorLinear.slice _ _ _) hd
  have commitment : XorLinear fun p : (Vector Byte hmABytes × Vector Byte hmBBytes) ×
      Vector Byte hmYBytes => hmCommitment p.1.1 p.1.2 p.2 := by
    intro a b
    exact (congrArg (· ++ (a ^^^ b).2) (XorLinear.append a.1 b.1)).trans
      (XorLinear.append (a.1.1 ++ a.1.2, a.2) (b.1.1 ++ b.1.2, b.2))
  refine ((mpcTh_sim r (by decide) (r.const _) hr).count (by decide)).bind fun ysh ysh' hysh => ?_
  refine ((Sim.collect 2 (mpcHmLine_sim r hm hd)).count (by decide)).bind fun lines lines' hlines => ?_
  have hbsh := r.map XorLinear.join (r.collect hlines)
  refine (mpcTh_sim r (by decide) (r.const _) ?_).count (by decide)
  exact r.map₂ commitment (r.pair ha hbsh) hysh

theorem mpcEpochDomain_rel (hpk : r.rel (Masked.const pkSeed) (Masked.const pkSeed'))
    (hd : r.rel d d') (tweak : Byte) :
    r.rel (mpcEpochDomain pkSeed tweak d) (mpcEpochDomain pkSeed' tweak d') :=
  r.map₂ XorLinear.append (r.map₂ XorLinear.append hpk (r.const _))
    (r.map (f := witnessEpoch) (XorLinear.slice _ _ _) hd)

theorem mpcHashMessage_sim (hpk : r.rel (Masked.const pkSeed) (Masked.const pkSeed'))
    (hd : r.rel d d') {dsh : Masked n (Vector Byte 32)} {dsh' : Masked n' (Vector Byte 32)}
    (hdsh : r.rel dsh dsh') :
    Sim r.rel r.rel 672 (mpcHashMessage pkSeed d dsh) (mpcHashMessage pkSeed' d' dsh') :=
  (mpcTh_sim r (by decide) (mpcEpochDomain_rel r hpk hd _) (r.map₂ XorLinear.append
    (r.map (f := witnessNonce) (XorLinear.slice _ _ _) hd) hdsh)).count (by decide)

theorem mpcHashPublicKey_sim (hpk : r.rel (Masked.const pkSeed) (Masked.const pkSeed'))
    (hd : r.rel d d') {pkh : Masked n (Vector Byte 672)} {pkh' : Masked n' (Vector Byte 672)}
    (hpkh : r.rel pkh pkh') :
    Sim r.rel r.rel 3696 (mpcHashPublicKey pkSeed d pkh) (mpcHashPublicKey pkSeed' d' pkh') :=
  (mpcTh_sim r (by decide) (mpcEpochDomain_rel r hpk hd _) hpkh).count (by decide)

theorem shr32_linear (k : Nat) : XorLinear (shr32 · k) :=
  XorLinear.ite _ XorLinear.const_zeros (XorLinear.ushiftRight k)

theorem putIdxLe_linear : XorLinear putIdxLe := XorLinear.ofFn fun _ => XorLinear.byteAt _

theorem leafIndexWord_linear : XorLinear leafIndexWord :=
  XorLinear.be32 fun i => (XorLinear.getElem _ i.isLt).comp (XorLinear.slice _ _ _)

theorem levelMask_linear (level : Nat) :
    XorLinear fun l : Word => 0 - ((l >>> level &&& 1) &&& 1) := by
  have collapse (l : Word) : 0 - ((l >>> level &&& 1) &&& 1) = spreadBit l level := by
    rw [BitVec.and_assoc, BitVec.and_self, spreadBit]
  intro a b
  simp only [collapse]
  exact XorLinear.spreadBit level a b

theorem mpcSwap_sim {mask : Mw n} {mask' : Mw n'} (hmask : r.rel mask mask') {node sib : Masked n Node}
    {node' sib' : Masked n' Node} (hnode : r.rel node node') (hsib : r.rel sib sib') (w : Fin 4) :
    Sim r.rel (fun p p' => r.rel p.1 p'.1 ∧ r.rel p.2 p'.2) 1 (mpcSwap mask node sib w)
      (mpcSwap mask' node' sib' w) := by
  have hnd := r.map (xmssNodeLoadWord_linear w) hnode
  have hsb := r.map (xmssNodeLoadWord_linear w) hsib
  exact (gateAnd_sim r hmask (mpcXOR_rel r hnd hsb)).bind_pure fun _ _ hmt =>
    ⟨mpcXOR_rel r hnd hmt, mpcXOR_rel r hsb hmt⟩

theorem mpcTreeLevel_sim (hpk : r.rel (Masked.const pkSeed) (Masked.const pkSeed'))
    (hd : r.rel d d') {node : Masked n Node} {node' : Masked n' Node} (hnode : r.rel node node')
    (level : Fin xmssH) :
    Sim r.rel r.rel 340 (mpcTreeLevel pkSeed d node level) (mpcTreeLevel pkSeed' d' node' level) := by
  have hli := r.map leafIndexWord_linear hd
  have hsib := r.map (f := (witnessSibling · level)) (XorLinear.slice _ _ _) hd
  have hmask : r.rel (maskFromBit ((d.map leafIndexWord).map fun l : Word => l >>> level.val &&& 1))
      (maskFromBit ((d'.map leafIndexWord).map fun l : Word => l >>> level.val &&& 1)) := by
    have fused (m : Nat) (l : Mw m) : maskFromBit (l.map fun l : Word => l >>> level.val &&& 1) =
        l.map fun l : Word => 0 - ((l >>> level.val &&& 1) &&& 1) :=
      Masked.ext rfl (by simp [maskFromBit])
    rw [fused, fused]
    exact r.map (levelMask_linear level) hli
  refine Sim.count (k := 4 * 1 + 336) ?_ rfl
  refine (Sim.collect 4 (mpcSwap_sim r hmask hnode hsib)).bind fun v v' hv => ?_
  have hfst : r.rel (Masked.collect (v.map Prod.fst)) (Masked.collect (v'.map Prod.fst)) :=
    r.collect fun w hw => by simpa using (hv w hw).1
  have hsnd : r.rel (Masked.collect (v.map Prod.snd)) (Masked.collect (v'.map Prod.snd)) :=
    r.collect fun w hw => by simpa using (hv w hw).2
  have hpair := r.map₂ XorLinear.append (r.map xmssNodeStoreWords_linear hfst)
    (r.map xmssNodeStoreWords_linear hsnd)
  refine (mpcTh_sim r (by decide) ?_ hpair).count (by decide)
  exact r.map₂ XorLinear.append (r.map₂ XorLinear.append hpk (r.const _))
    (r.map (putIdxLe_linear.comp (shr32_linear _)) hli)

/-- Bits in different places: their disjunction is their exclusive-or. -/
theorem mhCoord_eq (h : Vector Byte 32) (ci : Fin xmssWotsLen) :
    mhCoord h ci = mhBit h (coordBit ci 0) ^^^ mhBit h (coordBit ci 1) <<< 1 ^^^
      mhBit h (coordBit ci 2) <<< 2 := by
  have fold : mhCoord h ci = ((0 ||| (mhBit h (coordBit ci 0) &&& 1) <<< 0) |||
      (mhBit h (coordBit ci 1) &&& 1) <<< 1) ||| (mhBit h (coordBit ci 2) &&& 1) <<< 2 := rfl
  rw [fold]
  simp only [mhBit, bitAt_eq]
  generalize h[hashByte (coordBit ci 0)].getLsbD _ = a, h[hashByte (coordBit ci 1)].getLsbD _ = b,
    h[hashByte (coordBit ci 2)].getLsbD _ = c
  revert a b c
  decide

theorem mhCoord_linear (ci : Fin xmssWotsLen) : XorLinear (mhCoord · ci) := by
  have bits := (((mhBit_linear (coordBit ci 0))).xor
    ((XorLinear.shiftLeft 1).comp (mhBit_linear (coordBit ci 1)))).xor
    ((XorLinear.shiftLeft 2).comp (mhBit_linear (coordBit ci 2)))
  intro a b
  simp only [mhCoord_eq]
  exact bits a b

theorem mhLeftover_linear : XorLinear mhLeftover := by
  have disjoint (h : Vector Byte 32) : mhLeftover h = mhBit h 63 ^^^ mhBit h 127 <<< 1 := by
    simp only [mhLeftover, mhBit, bitAt_eq]
    generalize h[hashByte 63].getLsbD _ = a, h[hashByte 127].getLsbD _ = b
    revert a b
    decide
  have bits := (mhBit_linear 63).xor ((XorLinear.shiftLeft 1).comp (mhBit_linear 127))
  intro a b
  simp only [disjoint]
  exact bits a b

theorem mpcCoordSum_sim {mh : Masked n (Vector Byte 32)} {mh' : Masked n' (Vector Byte 32)}
    (hmh : r.rel mh mh') : Sim r.rel r.rel 42 (mpcCoordSum mh) (mpcCoordSum mh') := by
  refine Sim.foldFin (k := 1) xmssWotsLen (fun ci _ _ hacc => ?_) (r.const 0)
  exact gateAdd_sim r hacc (r.map (mhCoord_linear ci) hmh)

/-- The circuit keeps every relation on sharings that its inputs satisfy, and has exactly the
declared number of gates. -/
theorem circuit_sim (hm : r.rel (Masked.const mHat) (Masked.const mHat'))
    (hpk : r.rel (Masked.const pkSeed) (Masked.const pkSeed')) (hd : r.rel d d') :
    Sim r.rel r.vec ySize (circuit mHat pkSeed d) (circuit mHat' pkSeed' d') := by
  refine Sim.count (k := (672 + (6144 + 1680)) + (672 + ((99 * 711 + 11) + (3696 + (32 * 340 + 42)))))
    ?_ (by simp)
  rw [circuit, circuit]
  refine (mpcHmCommit_sim r hm hd).bind fun dsh dsh' hdsh => ?_
  refine (mpcHashMessage_sim r hpk hd hdsh).bind fun mh mh' hmh => ?_
  refine (poolChains_sim r hd hpk hmh).bind fun p p' hp => ?_
  refine (mpcHashPublicKey_sim r hpk hd hp.1).bind fun leaf leaf' hleaf => ?_
  refine (Sim.foldFin 32 (fun level node node' hnode => mpcTreeLevel_sim r hpk hd hnode level)
    hleaf).bind fun node node' hnode => ?_
  refine (mpcCoordSum_sim r hmh).bind_pure fun acc acc' hacc => ?_
  refine MaskRel.vec.append (MaskRel.vec.ofFn fun w => r.map (xmssNodeLoadWord_linear w) hnode) ?_
  intro i hi
  interval_cases i
  · exact hacc
  · exact r.map mhLeftover_linear hmh
  · exact hp.2
  · exact r.const 0

end Sim

end BlindSig.Kkw
