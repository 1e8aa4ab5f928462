import BlindSig.Kkw.MpcBlake3
import BlindSig.Kkw.Xmss

/-! The pooled WOTS+ chains: 99 steps share one chain evaluator. A private schedule byte
selects the chain of a step by a one-hot mask, packed byte counters hold the chain positions,
and a check word collects every irregularity. The template is instantiated for the prover's
and the verifier's number of parties. -/
namespace BlindSig.Kkw

open XorGroup Prog

section Layout

/-! Secret witness: `r || a || leaf_index || nonce || WOTS tips || auth path || schedule`. -/

abbrev wROff : Nat := 0
abbrev wAOff : Nat := 96
abbrev wLeafidxOff : Nat := 288
abbrev wNonceOff : Nat := 292
abbrev wSigOff : Nat := 316
abbrev wPathOff : Nat := 988
abbrev wScheduleOff : Nat := 1500
abbrev wScheduleLen : Nat := xmssWotsLen * xmssWotsMaxSteps - xmssTargetSum
abbrev wEnd : Nat := 1599

theorem leafidx_inside : wLeafidxOff + 4 ≤ wEnd := by decide

end Layout

abbrev Witness := Vector Byte wEnd

variable {n n' : Nat}

section Template

/-- `(buf[j / 8] >> (j % 8)) & 1` as a word. -/
def mhBit (buf : Vector Byte 32) (j : Fin 256) : Word := bitAt buf[hashByte j] (j.val % 8)

def poolOrInto (x y : Mw n) : Circuit n (Mw n) := do
  let t ← gateAnd x y
  pure (mpcXOR (mpcXOR x y) t)

def poolBitmask (x : Mw n) (bit : Nat) : Mw n := x.map (spreadBit · bit)

def poolParity (x : Word) : Word :=
  let x := x ^^^ x >>> 16
  let x := x ^^^ x >>> 8
  let x := x ^^^ x >>> 4
  let x := x ^^^ x >>> 2
  let x := x ^^^ x >>> 1
  x &&& 1

abbrev poolGroups : Nat := (xmssWotsLen + 3) / 4

/-- The packed word of chain `ci`'s counter. -/
def laneGroup (ci : Fin xmssWotsLen) : Fin poolGroups :=
  ⟨ci.val / 4, Nat.div_lt_of_lt_mul (Nat.lt_trans ci.isLt (by decide))⟩

structure PoolState (n : Nat) where
  nodes : Vector (Vector (Mw n) 4) xmssWotsLen
  positions : Vector (Mw n) poolGroups
  check : Mw n

/-- The lane of chain `ci` starts at its digest coordinate. -/
def initialPositions (mh : Masked n (Vector Byte 32)) : Vector (Mw n) poolGroups :=
  (List.finRange xmssWotsLen).foldl (fun positions ci =>
    (List.finRange xmssCoordResBits).foldl (fun positions b =>
      positions.set (laneGroup ci) (mpcXOR positions[laneGroup ci]
        (mh.map fun h => mhBit h (coordBit ci b) <<< (8 * (ci.val % 4) + b.val)))) positions)
    (Vector.replicate _ (mwConst 0))

def initialPool (d : Masked n Witness) (mh : Masked n (Vector Byte 32)) : PoolState n where
  nodes := Vector.ofFn fun ci : Fin xmssWotsLen => Vector.ofFn fun w : Fin 4 =>
    d.map fun x => loadWord x (wSigOff + ci * 16 + 4 * w) (by
      have := ci.isLt
      unfold xmssWotsLen at this
      unfold wSigOff wEnd
      omega)
  positions := initialPositions mh
  check := mwConst 0

/-- Lane `i` holds whether bit `b` of the candidate index `32 * g + i` is clear. -/
def lanePattern (g b : Nat) : Word :=
  (List.range 32).foldl (fun pattern lane =>
    pattern ||| (1 ^^^ BitVec.ofNat 32 ((32 * g + lane) >>> b) &&& 1) <<< lane) 0

/-- Lane `i` tests bit `b` of the schedule byte against the candidate `32 * g + i`. -/
def laneMatch (idx : Mw n) (g b : Nat) : Mw n :=
  (poolBitmask idx b).xorPublic (lanePattern g b)

/-- Each bit lane tests equality to one candidate index, all eight bits. -/
def poolOnehot (idx : Mw n) (g : Nat) : Circuit n (Mw n) :=
  (List.range 7).foldlM (fun onehot b => gateAnd onehot (laneMatch idx g (b + 1)))
    (laneMatch idx g 0)

def poolMasks (onehot : Vector (Mw n) 2) : Vector (Mw n) xmssWotsLen :=
  Vector.ofFn fun ci : Fin xmssWotsLen =>
    poolBitmask (onehot.get ⟨ci.val / 32,
      Nat.div_lt_of_lt_mul (Nat.lt_trans ci.isLt (by decide))⟩) (ci.val % 32)

def poolSelect (masks : Vector (Mw n) xmssWotsLen) (nodes : Vector (Vector (Mw n) 4) xmssWotsLen) :
    Circuit n (Vector (Mw n) 4) :=
  Prog.collect 4 fun w => (List.finRange xmssWotsLen).foldlM (fun selected ci => do
    let t ← gateAnd masks[ci] nodes[ci][w]
    pure (mpcXOR selected t)) (mwConst 0)

/-- The lanes of group `g` that belong to a chain, with their masks. -/
def foldLanes (masks : Vector (Mw n) xmssWotsLen) (g : Fin poolGroups) (f : Nat → Word → Word) :
    Mw n :=
  (List.finRange 4).foldl (fun acc (lane : Fin 4) =>
    if inside : 4 * g.val + lane.val < xmssWotsLen then
      mpcXOR acc (masks[4 * g.val + lane.val].map (f lane))
    else acc) (mwConst 0)

/-- Count the selected chain's lane up, and fetch the word of its group. -/
def poolCount (masks : Vector (Mw n) xmssWotsLen) (positions : Vector (Mw n) poolGroups) :
    Circuit n (Vector (Mw n) poolGroups × Mw n) :=
  (List.finRange poolGroups).foldlM (fun (positions, position) g => do
    let increment := foldLanes masks g fun lane m => (m &&& 1) <<< (8 * lane)
    let groupMask := foldLanes masks g fun _ m => m
    let counted ← gateAdd positions[g] increment
    let t ← gateAnd groupMask counted
    pure (positions.set g counted, mpcXOR position t)) (positions, mwConst 0)

/-- Select the byte within the chosen group with two conditional shifts. -/
def poolShift (idx position : Mw n) : Circuit n (Mw n) :=
  ([1, 0] : List Nat).foldlM (fun position b => do
    let delta := mpcXOR position (position.map fun p : Word => p >>> (8 <<< b))
    let t ← gateAnd (poolBitmask idx b) delta
    pure (mpcXOR position t)) position

def poolChainHash (d : Masked n Witness) (pkSeed : PkSeed) (idx position : Mw n)
    (selected : Vector (Mw n) 4) : Circuit n (Masked n Node) :=
  let dom : Masked n (Vector Byte 17) :=
    Masked.map₂ (· ++ ·) ((Masked.collect selected).map xmssNodeStoreWords)
      (Masked.const (single xmssTweakChain))
  let epoch : Masked n (Vector Byte 4) := d.map (slice · wLeafidxOff 4 leafidx_inside)
  let tw : Masked n (Vector Byte 22) :=
    Masked.map₂ (· ++ ·) (Masked.map₂ (· ++ ·) (Masked.const pkSeed) epoch)
      (Masked.map₂ (fun i p => #v[byteAt i 0, byteAt p 0]) idx position)
  mpcTh dom tw 16

def poolUpdate (masks : Vector (Mw n) xmssWotsLen) (selected : Vector (Mw n) 4)
    (h : Masked n Node) (nodes : Vector (Vector (Mw n) 4) xmssWotsLen) :
    Circuit n (Vector (Vector (Mw n) 4) xmssWotsLen) := do
  let columns ← Prog.collect 4 fun w =>
    let delta := mpcXOR selected[w] (h.map (xmssNodeLoadWord · w))
    Prog.collect xmssWotsLen fun ci => do
      let t ← gateAnd masks[ci] delta
      pure (mpcXOR nodes[ci][w] t)
  pure (Vector.ofFn fun ci : Fin xmssWotsLen => Vector.ofFn fun w : Fin 4 => columns[w][ci])

/-- The place of a step's schedule byte in the witness. -/
def schedulePosition (step : Fin wScheduleLen) : Fin wEnd :=
  ⟨wScheduleOff + step.val, by
    have := step.isLt
    unfold wScheduleLen xmssWotsLen xmssWotsMaxSteps xmssTargetSum at this
    unfold wScheduleOff wEnd
    omega⟩

/-- The schedule byte of a step. -/
def scheduleIndex (d : Masked n Witness) (step : Fin wScheduleLen) : Mw n :=
  d.map fun x => (x.get (schedulePosition step)).setWidth 32

def poolStep (d : Masked n Witness) (pkSeed : PkSeed) (state : PoolState n)
    (step : Fin wScheduleLen) : Circuit n (PoolState n) := do
  let idx := scheduleIndex d step
  let low ← poolOnehot idx 0
  let high ← poolOnehot idx 1
  let high := high.map (· &&& 0x3ff)
  let invalid := ((mpcXOR low high).map poolParity).xorPublic 1
  let check ← poolOrInto state.check invalid
  let masks := poolMasks #v[low, high]
  let selected ← poolSelect masks state.nodes
  let (positions, position) ← poolCount masks state.positions
  let position ← poolShift idx position
  let h ← poolChainHash d pkSeed idx position selected
  let nodes ← poolUpdate masks selected h state.nodes
  pure ⟨nodes, positions, check⟩

/-- Every lane must have arrived at the last position. -/
def poolFinish (state : PoolState n) : Circuit n (Mw n) :=
  (List.finRange poolGroups).foldlM (fun check g =>
    poolOrInto check ((List.range 4).foldl (fun p lane =>
      if 4 * g.val + lane < xmssWotsLen then
        p.xorPublic (BitVec.ofNat 32 xmssWotsMaxSteps <<< (8 * lane))
      else p) state.positions[g])) state.check

/-- The public-key hashes and the check word. -/
def poolChains (d : Masked n Witness) (pkSeed : PkSeed) (mh : Masked n (Vector Byte 32)) :
    Circuit n (Masked n (Vector Byte 672) × Mw n) := do
  let state ← (List.finRange wScheduleLen).foldlM (poolStep d pkSeed) (initialPool d mh)
  let check ← poolFinish state
  let pkh := (Masked.collect (state.nodes.map fun node =>
    (Masked.collect node).map xmssNodeStoreWords)).map join
  pure (pkh, check)

end Template

section Sim

variable (r : MaskRel n n')

theorem poolOrInto_sim {x y : Mw n} {x' y' : Mw n'} (hx : r.rel x x') (hy : r.rel y y') :
    Sim r.rel r.rel 1 (poolOrInto x y) (poolOrInto x' y') :=
  (gateAnd_sim r hx hy).bind_pure fun _ _ ht => mpcXOR_rel r (mpcXOR_rel r hx hy) ht

theorem poolBitmask_rel {x : Mw n} {x' : Mw n'} (hx : r.rel x x') (bit : Nat) :
    r.rel (poolBitmask x bit) (poolBitmask x' bit) := r.map (XorLinear.spreadBit bit) hx

theorem poolParity_linear : XorLinear poolParity := by
  have layer (k : Nat) : XorLinear fun x : Word => x ^^^ x >>> k :=
    XorLinear.xor XorLinear.id (XorLinear.ushiftRight k)
  exact (XorLinear.and_const 1).comp ((layer 1).comp ((layer 2).comp ((layer 4).comp
    ((layer 8).comp (layer 16)))))

theorem mhBit_linear (j : Fin 256) : XorLinear (mhBit · j) :=
  (XorLinear.bitAt _).comp (XorLinear.getElem _ _)

structure PoolState.Rel (state : PoolState n) (state' : PoolState n') : Prop where
  nodes : ∀ (ci : Nat) (h : ci < xmssWotsLen), r.vec state.nodes[ci] state'.nodes[ci]
  positions : r.vec state.positions state'.positions
  check : r.rel state.check state'.check

theorem initialPositions_rel {mh : Masked n (Vector Byte 32)} {mh' : Masked n' (Vector Byte 32)}
    (hmh : r.rel mh mh') : r.vec (initialPositions mh) (initialPositions mh') := by
  refine List.foldl_rel (r := r.vec) (MaskRel.vec.replicate (r.const 0)) fun ci _ ps ps' hps => ?_
  refine List.foldl_rel (r := r.vec) hps fun b _ ps ps' hps => ?_
  exact hps.set _ _ (mpcXOR_rel r (hps _ _)
    (r.map ((XorLinear.shiftLeft _).comp (mhBit_linear _)) hmh))

theorem initialPool_rel {d : Masked n Witness} {d' : Masked n' Witness} (hd : r.rel d d')
    {mh : Masked n (Vector Byte 32)} {mh' : Masked n' (Vector Byte 32)} (hmh : r.rel mh mh') :
    (initialPool d mh).Rel r (initialPool d' mh') where
  nodes ci hci := by
    simp only [initialPool, Vector.getElem_ofFn]
    exact MaskRel.vec.ofFn fun w => r.map (XorLinear.loadWord _ _) hd
  positions := initialPositions_rel r hmh
  check := r.const 0

theorem poolOnehot_sim {idx : Mw n} {idx' : Mw n'} (hidx : r.rel idx idx') (g : Nat) :
    Sim r.rel r.rel 7 (poolOnehot idx g) (poolOnehot idx' g) := by
  have lane (b : Nat) : r.rel (laneMatch idx g b) (laneMatch idx' g b) :=
    r.xorPublic _ (poolBitmask_rel r hidx b)
  exact (Sim.foldlM (List.range 7) (fun b _ x x' hx => gateAnd_sim r hx (lane (b + 1)))
    (lane 0)).count (k := 7 * 1) rfl

theorem poolMasks_rel {onehot : Vector (Mw n) 2} {onehot' : Vector (Mw n') 2}
    (h : r.vec onehot onehot') : r.vec (poolMasks onehot) (poolMasks onehot') :=
  MaskRel.vec.ofFn fun _ => poolBitmask_rel r (h _ _) _

variable {masks : Vector (Mw n) xmssWotsLen} {masks' : Vector (Mw n') xmssWotsLen}
  {nodes : Vector (Vector (Mw n) 4) xmssWotsLen} {nodes' : Vector (Vector (Mw n') 4) xmssWotsLen}

theorem poolSelect_sim (hmasks : r.vec masks masks')
    (hnodes : ∀ (ci : Nat) (h : ci < xmssWotsLen), r.vec nodes[ci] nodes'[ci]) :
    Sim r.rel r.vec 168 (poolSelect masks nodes) (poolSelect masks' nodes') := by
  refine (Sim.collect 4 fun w => ?_).count (k := 4 * 42) rfl
  refine Sim.foldFin (k := 1) xmssWotsLen (fun ci x x' hx => ?_) (r.const 0)
  exact (gateAnd_sim r (hmasks ci ci.isLt) (hnodes ci ci.isLt w w.isLt)).bind_pure
    fun _ _ ht => mpcXOR_rel r hx ht

theorem foldLanes_rel (hmasks : r.vec masks masks') (g : Fin poolGroups) {f : Nat → Word → Word}
    (linear : ∀ lane, XorLinear (f lane)) :
    r.rel (foldLanes masks g f) (foldLanes masks' g f) := by
  refine List.foldl_rel (r := r.rel) (r.const 0) fun lane _ x x' hx => ?_
  split
  · exact mpcXOR_rel r hx (r.map (linear lane) (hmasks _ _))
  · exact hx

theorem poolCount_sim (hmasks : r.vec masks masks') {positions : Vector (Mw n) poolGroups}
    {positions' : Vector (Mw n') poolGroups} (hpositions : r.vec positions positions') :
    Sim r.rel (fun p p' => r.vec p.1 p'.1 ∧ r.rel p.2 p'.2) 22 (poolCount masks positions)
      (poolCount masks' positions') := by
  refine Sim.foldFin (k := 1 + 1) poolGroups (fun g p p' hp => ?_) ⟨hpositions, r.const 0⟩
  have increment := foldLanes_rel r hmasks g (f := fun lane m => (m &&& 1) <<< (8 * lane))
    fun lane => (XorLinear.shiftLeft _).comp (XorLinear.and_const 1)
  have groupMask := foldLanes_rel r hmasks g (f := fun _ m => m) fun _ => XorLinear.id
  refine (gateAdd_sim r (hp.1 g g.isLt) increment).bind fun _ _ hcounted => ?_
  exact (gateAnd_sim r groupMask hcounted).bind_pure fun _ _ ht =>
    ⟨hp.1.set g g.isLt hcounted, mpcXOR_rel r hp.2 ht⟩

theorem poolShift_sim {idx position : Mw n} {idx' position' : Mw n'} (hidx : r.rel idx idx')
    (hposition : r.rel position position') :
    Sim r.rel r.rel 2 (poolShift idx position) (poolShift idx' position') := by
  refine (Sim.foldlM [1, 0] (fun b _ p p' hp => ?_) hposition).count (k := 2 * 1) rfl
  have delta := mpcXOR_rel r hp (r.map (XorLinear.ushiftRight (8 <<< b)) hp)
  exact (gateAnd_sim r (poolBitmask_rel r hidx b) delta).bind_pure fun _ _ ht =>
    mpcXOR_rel r hp ht

theorem xmssNodeStoreWords_linear : XorLinear xmssNodeStoreWords := XorLinear.storeWords

theorem xmssNodeLoadWord_linear (w : Fin 4) : XorLinear (xmssNodeLoadWord · w) :=
  XorLinear.loadWord _ _

theorem poolChainHash_sim {d : Masked n Witness} {d' : Masked n' Witness} (hd : r.rel d d')
    {pkSeed pkSeed' : PkSeed} (hpk : r.rel (Masked.const pkSeed) (Masked.const pkSeed'))
    {idx position : Mw n} {idx' position' : Mw n'} (hidx : r.rel idx idx')
    (hposition : r.rel position position') {selected : Vector (Mw n) 4}
    {selected' : Vector (Mw n') 4} (hselected : r.vec selected selected') :
    Sim r.rel r.rel 336 (poolChainHash d pkSeed idx position selected)
      (poolChainHash d' pkSeed' idx' position' selected') := by
  have bytes : XorLinear fun p : Word × Word => #v[byteAt p.1 0, byteAt p.2 0] := by
    intro a b
    apply Vector.ext
    intro i hi
    rw [getElem_xor]
    interval_cases i
    · exact XorLinear.byteAt 0 a.1 b.1
    · exact XorLinear.byteAt 0 a.2 b.2
  refine (mpcTh_sim r (by decide) ?_ ?_).count (by decide)
  · exact r.map₂ XorLinear.append (r.map xmssNodeStoreWords_linear (r.collect hselected)) (r.const _)
  · exact r.map₂ XorLinear.append
      (r.map₂ XorLinear.append hpk (r.map (XorLinear.slice _ _ _) hd))
      (r.map₂ bytes hidx hposition)

theorem poolUpdate_sim (hmasks : r.vec masks masks') {selected : Vector (Mw n) 4}
    {selected' : Vector (Mw n') 4} (hselected : r.vec selected selected') {h : Masked n Node}
    {h' : Masked n' Node} (hh : r.rel h h')
    (hnodes : ∀ (ci : Nat) (h : ci < xmssWotsLen), r.vec nodes[ci] nodes'[ci]) :
    Sim r.rel (fun v v' => ∀ (ci : Nat) (h : ci < xmssWotsLen), r.vec v[ci] v'[ci]) 168
      (poolUpdate masks selected h nodes) (poolUpdate masks' selected' h' nodes') := by
  refine Sim.bind_pure (k := 4 * 42) (A := fun v v' => ∀ (w : Nat) (_ : w < 4), r.vec v[w] v'[w])
    (Sim.collect 4 fun w => ?_) fun columns columns' hcolumns ci hci => ?_
  · have delta := mpcXOR_rel r (hselected w w.isLt) (r.map (xmssNodeLoadWord_linear w) hh)
    refine Sim.collect (k := 1) xmssWotsLen fun ci => ?_
    exact (gateAnd_sim r (hmasks ci ci.isLt) delta).bind_pure fun _ _ ht =>
      mpcXOR_rel r (hnodes ci ci.isLt w w.isLt) ht
  · simp only [Vector.getElem_ofFn]
    exact MaskRel.vec.ofFn fun w => hcolumns w w.isLt ci hci

theorem poolStep_sim {d : Masked n Witness} {d' : Masked n' Witness} (hd : r.rel d d')
    {pkSeed pkSeed' : PkSeed} (hpk : r.rel (Masked.const pkSeed) (Masked.const pkSeed'))
    {state : PoolState n} {state' : PoolState n'} (hstate : state.Rel r state')
    (step : Fin wScheduleLen) :
    Sim r.rel (PoolState.Rel r) 711 (poolStep d pkSeed state step)
      (poolStep d' pkSeed' state' step) := by
  refine Sim.count (k := 7 + (7 + (1 + (168 + (22 + (2 + (336 + 168))))))) ?_ (by simp)
  have hidx : r.rel (scheduleIndex d step) (scheduleIndex d' step) :=
    r.map ((XorLinear.setWidth 32).comp (XorLinear.getElem _ _)) hd
  refine (poolOnehot_sim r hidx 0).bind fun low low' hlow => ?_
  refine (poolOnehot_sim r hidx 1).bind fun high high' hhigh => ?_
  have hhigh := r.map (XorLinear.and_const (0x3ff : Word)) hhigh
  have invalid := r.xorPublic 1 (r.map poolParity_linear (mpcXOR_rel r hlow hhigh))
  refine (poolOrInto_sim r hstate.check invalid).bind fun check check' hcheck => ?_
  have hmasks : r.vec (poolMasks #v[low, high.map (· &&& 0x3ff)])
      (poolMasks #v[low', high'.map (· &&& 0x3ff)]) := by
    apply poolMasks_rel r
    intro i hi
    interval_cases i
    · exact hlow
    · exact hhigh
  refine (poolSelect_sim r hmasks hstate.nodes).bind fun selected selected' hselected => ?_
  refine (poolCount_sim r hmasks hstate.positions).bind fun p p' hp => ?_
  refine (poolShift_sim r hidx hp.2).bind fun position position' hposition => ?_
  refine (poolChainHash_sim r hd hpk hidx hposition hselected).bind fun h h' hh => ?_
  refine (poolUpdate_sim r hmasks hselected hh hstate.nodes).bind_pure fun nodes nodes' hnodes => ?_
  exact ⟨hnodes, hp.1, hcheck⟩

theorem poolFinish_sim {state : PoolState n} {state' : PoolState n'} (hstate : state.Rel r state') :
    Sim r.rel r.rel 11 (poolFinish state) (poolFinish state') := by
  refine Sim.foldFin (k := 1) poolGroups (fun g x x' hx => ?_) hstate.check
  refine poolOrInto_sim r hx (List.foldl_rel (r := r.rel) (hstate.positions g g.isLt)
    fun lane _ p p' hp => ?_)
  split
  · exact r.xorPublic _ hp
  · exact hp

theorem poolChains_sim {d : Masked n Witness} {d' : Masked n' Witness} (hd : r.rel d d')
    {pkSeed pkSeed' : PkSeed} (hpk : r.rel (Masked.const pkSeed) (Masked.const pkSeed'))
    {mh : Masked n (Vector Byte 32)} {mh' : Masked n' (Vector Byte 32)} (hmh : r.rel mh mh') :
    Sim r.rel (fun p p' => r.rel p.1 p'.1 ∧ r.rel p.2 p'.2) (99 * 711 + 11)
      (poolChains d pkSeed mh) (poolChains d' pkSeed' mh') := by
  refine Sim.bind (A := PoolState.Rel r) ?_ fun state state' hstate => ?_
  · exact Sim.foldFin (k := 711) wScheduleLen (fun step s s' hs => poolStep_sim r hd hpk hs step)
      (initialPool_rel r hd hmh)
  · refine (poolFinish_sim r hstate).bind_pure fun check check' hcheck => ⟨?_, hcheck⟩
    refine r.map XorLinear.join (r.collect fun ci hci => ?_)
    simp only [Vector.getElem_map]
    exact r.map xmssNodeStoreWords_linear (r.collect (hstate.nodes ci hci))

end Sim

end BlindSig.Kkw
