import BlindSig.Lib.Parametric
import BlindSig.Voleith.Circuit

/-! Two engines whose operations are related, one clause for each, evaluate the circuit to related
results. -/
namespace BlindSig.Voleith

open Kkw

/-- A relation between two engines: between the bits, the elements of the field, and the bits of the
primary part at their places. `Within n` are elements that `n` bits hold. -/
structure EngineRel {m m' : Type → Type} [Monad m] [Monad m'] {Bit Fe Bit' Fe' : Type}
    (L : Lifting m m') (e : Engine m Bit Fe) (e' : Engine m' Bit' Fe') (Rb : Bit → Bit' → Prop)
    (Rf : Fe → Fe' → Prop) (At : Nat → Bit → Bit' → Prop) (Within : Nat → Fe → Prop) : Prop where
  at_rel : ∀ {i b b'}, At i b b' → Rb b b'
  constant : ∀ v, Rb (e.constant v) (e'.constant v)
  bit : ∀ i < 8 * kPrimaryBytes, L.rel (At i) (e.bit i) (e'.bit i)
  add : ∀ {a a' b b'}, Rb a a' → Rb b b' → Rb (e.add a b) (e'.add a' b')
  mul : ∀ {a a' b b'}, Rb a a' → Rb b b' → L.rel Rb (e.mul a b) (e'.mul a' b')
  zero : ∀ {a a'}, Rb a a' → L.rel (fun _ _ => True) (e.zero a) (e'.zero a')
  zeroField : ∀ {a a'}, Rf a a' → L.rel (fun _ _ => True) (e.zeroField a) (e'.zeroField a')
  pack : ∀ {n : Nat} {v : Vector Bit n} {v' : Vector Bit' n}, Rows Rb v v' →
    Rf (e.pack v) (e'.pack v')
  addField : ∀ {a a' b b'}, Rf a a' → Rf b b' → Rf (e.addField a b) (e'.addField a' b')
  product : ∀ {a a' b b'}, Rf a a' → Rf b b' → Rf (e.product a b) (e'.product a' b')
  within_pack : ∀ {n : Nat} (v : Vector Bit n), Within n (e.pack v)
  within_add : ∀ {n a b}, Within n a → Within n b → Within n (e.addField a b)
  within_flag : ∀ {n a} (b : Bit), Within n a → Within n (e.product (packBit e b) a)
  within_all : ∀ a, Within 128 a
  fieldWitness : ∀ {n a a'}, n ≤ 128 → Rf a a' → Within n a →
    L.rel (Rows Rb) (e.fieldWitness a n) (e'.fieldWitness a' n)
  permute : ∀ {v v'} (keep : Nat), Rows Rb v v' →
    L.rel (Rows Rb) (e.permute v keep) (e'.permute v' keep)

namespace EngineRel

set_option linter.unusedSectionVars false

variable {m m' : Type → Type} [Monad m] [Monad m'] [LawfulMonad m] [LawfulMonad m']
  {Bit Fe Bit' Fe' : Type} {L : Lifting m m'} {e : Engine m Bit Fe} {e' : Engine m' Bit' Fe'}
  {Rb : Bit → Bit' → Prop} {Rf : Fe → Fe' → Prop} {At : Nat → Bit → Bit' → Prop}
  {Within : Nat → Fe → Prop} (sys : EngineRel L e e' Rb Rf At Within)

include sys

section Gadgets

variable {n : Nat} {a b : Vector Bit n} {a' b' : Vector Bit' n}

theorem constant_rows (v : Vector Byte n) :
    Rows Rb (Voleith.constant e v) (Voleith.constant e' v) := Rows.ofFn fun _ => sys.constant _

theorem number_rows (v bits : Nat) : Rows Rb (number e v bits) (number e' v bits) :=
  Rows.ofFn fun _ => sys.constant _

theorem invert_rel {x : Bit} {x' : Bit'} (same : Rb x x') : Rb (invert e x) (invert e' x') :=
  sys.add same (sys.constant true)

/-- Bytes of the primary part, each bit at its place. -/
theorem input_at (byteOffset bytes : Nat) (inside : byteOffset + bytes ≤ kPrimaryBytes) :
    L.rel (fun v w => ∀ i : Fin (8 * bytes), At (byteOffset * 8 + i) v[i] w[i])
      (input e byteOffset bytes) (input e' byteOffset bytes) :=
  L.ofFnM_each _ fun i => sys.bit (byteOffset * 8 + i) (by omega)

theorem input_rel (byteOffset bytes : Nat) (inside : byteOffset + bytes ≤ kPrimaryBytes) :
    L.rel (Rows Rb) (input e byteOffset bytes) (input e' byteOffset bytes) :=
  L.imp (sys.input_at byteOffset bytes inside) fun _ _ places i => sys.at_rel (places i)

theorem equal_rel {a b : Vector Bit (n + 1)} {a' b' : Vector Bit' (n + 1)} (left : Rows Rb a a')
    (right : Rows Rb b b') : L.rel Rb (equal e a b) (equal e' a' b') :=
  L.foldlM (sys.invert_rel (sys.add (left 0) (right 0))) fun i _ _ _ same =>
    sys.mul same (sys.invert_rel (sys.add (left i.succ) (right i.succ)))

theorem chainLevel_rel (count : Nat) {flags : List Bit} {flags' : List Bit'} {x : Bit} {x' : Bit'}
    (rows : List.Forall₂ Rb flags flags') (same : Rb x x') :
    L.rel (List.Forall₂ Rb) (chainLevel e count flags x) (chainLevel e' count flags' x') := by
  refine L.foldlM_forall₂ (forall₂_zipIdx rows) .nil ?_
  rintro next next' sofar ⟨flag, i⟩ ⟨flag', _⟩ ⟨flags, rfl⟩
  refine L.bind (sys.mul flags same) fun one one' product => L.pure ?_
  have left : List.Forall₂ Rb (next ++ [e.add flag one]) (next' ++ [e'.add flag' one']) :=
    List.rel_append sofar (.cons (sys.add flags product) .nil)
  split
  · exact List.rel_append left (.cons product .nil)
  · exact left

theorem chainFlags_rel {index : Vector Bit 8} {index' : Vector Bit' 8} (rows : Rows Rb index index') :
    L.rel (List.Forall₂ Rb) (chainFlags e index) (chainFlags e' index') := by
  refine L.bind (sys.zero (rows 6)) fun _ _ _ => L.bind (sys.zero (rows 7)) fun _ _ _ => ?_
  refine L.foldlM (.cons (sys.invert_rel (rows 5)) (.cons (rows 5) .nil)) fun bit _ _ _ flags => ?_
  exact sys.chainLevel_rel _ flags (rows.getElem (by omega))

theorem addCarry_rel (left : Rows Rb a a') (right : Rows Rb b b') :
    L.rel (fun p q => Rows Rb p.1 q.1 ∧ Rb p.2 q.2) (addCarry e a b) (addCarry e' a' b') := by
  refine L.foldlM ⟨Rows.replicate (sys.constant false), sys.constant false⟩ ?_
  rintro i - ⟨out, carry⟩ ⟨out', carry'⟩ ⟨outs, carries⟩
  refine L.bind (sys.mul (sys.add (left i) carries) (sys.add (right i) carries)) ?_
  intro both both' products
  exact L.pure ⟨outs.set i (sys.add (sys.add (left i) (right i)) carries),
    sys.add products carries⟩

theorem add_rel (left : Rows Rb a a') (right : Rows Rb b b') (noOverflow : Bool) :
    L.rel (Rows Rb) (Voleith.add e a b noOverflow) (Voleith.add e' a' b' noOverflow) := by
  refine L.bind (sys.addCarry_rel left right) ?_
  rintro ⟨out, carry⟩ ⟨out', carry'⟩ ⟨outs, carries⟩
  cases noOverflow with
  | false => exact L.pure outs
  | true => exact L.bind (sys.zero carries) fun _ _ _ => L.pure outs

theorem select_rel {flag : Bit} {flag' : Bit'} (flags : Rb flag flag') (yes : Rows Rb a a')
    (no : Rows Rb b b') : L.rel (Rows Rb) (select e flag a b) (select e' flag' a' b') :=
  L.ofFnM fun i => L.bind (sys.mul flags (sys.add (yes i) (no i))) fun _ _ chosen =>
    L.pure (sys.add (no i) chosen)

theorem equalField_rel (left : Rows Rb a a') (right : Rows Rb b b') :
    L.rel (fun _ _ => True) (equalField e a b) (equalField e' a' b') :=
  sys.zeroField (sys.addField (sys.pack left) (sys.pack right))

theorem packBit_rel {x : Bit} {x' : Bit'} (same : Rb x x') : Rf (packBit e x) (packBit e' x') :=
  sys.pack fun i => by simpa using same

theorem widen_rows (k : Nat) (rows : Rows Rb a a') : Rows Rb (widen e k a) (widen e' k a') := by
  refine Rows.ofFn fun i => ?_
  rcases Nat.lt_or_ge i n with inside | outside
  · rw [Vector.getElem?_eq_getElem inside, Vector.getElem?_eq_getElem inside]
    exact rows ⟨i, inside⟩
  · rw [Vector.getElem?_eq_none outside, Vector.getElem?_eq_none outside]
    exact sys.constant false

end Gadgets

section Hash

variable {input domain data : List Bit} {input' domain' data' : List Bit'}

theorem shakePadded_rel (rows : List.Forall₂ Rb input input') :
    List.Forall₂ Rb (shakePadded e input) (shakePadded e' input') := by
  have suffixed := List.rel_append rows (sys.number_rows 0x1f 8).toList
  have zeros (k : Nat) : List.Forall₂ Rb (List.replicate k (e.constant false))
      (List.replicate k (e'.constant false)) := by
    induction k with
    | zero => exact .nil
    | succ k ih => exact .cons (sys.constant false) ih
  have padded := List.rel_append suffixed (zeros ((rateBits -
    (input ++ (number e 0x1f 8).toList).length % rateBits) % rateBits))
  dsimp only [shakePadded]
  rw [← suffixed.length_eq]
  rw [List.dropLast_eq_take, List.dropLast_eq_take, List.getLast?_eq_getElem?,
    List.getLast?_eq_getElem?, ← List.getD_eq_getElem?_getD, ← List.getD_eq_getElem?_getD,
    ← padded.length_eq]
  have last := forall₂_getD padded (sys.constant false)
  exact List.rel_append (List.forall₂_take _ padded)
    (.cons (sys.add (last _) (sys.constant true)) .nil)

theorem absorb_rows {padded : List Bit} {padded' : List Bit'} {state : Vector Bit 1600}
    {state' : Vector Bit' 1600} (blocks : List.Forall₂ Rb padded padded') (block : Nat)
    (states : Rows Rb state state') :
    Rows Rb (absorb e padded block state) (absorb e' padded' block state') := by
  refine Rows.ofFn fun i => ?_
  split
  · exact sys.add (states i) (forall₂_getD blocks (sys.constant false) _)
  · exact states i

theorem shake_rel (rows : List.Forall₂ Rb input input') (outputBytes : Nat) :
    L.rel (Rows Rb) (shake e input outputBytes) (shake e' input' outputBytes) := by
  have padded := sys.shakePadded_rel rows
  dsimp only [shake]
  rw [← padded.length_eq]
  refine L.bind (L.foldlM (sys.number_rows 0 1600) fun block _ state state' states =>
    sys.permute 1600 (sys.absorb_rows padded block states)) fun state state' states => ?_
  exact sys.permute _ (sys.absorb_rows padded _ states)

theorem hash_rel (domains : List.Forall₂ Rb domain domain') (rows : List.Forall₂ Rb data data')
    (out : Nat) : L.rel (Rows Rb) (hash e domain data out) (hash e' domain' data' out) := by
  unfold hash
  rw [← domains.length_eq]
  refine sys.shake_rel (List.rel_append (List.rel_append (List.rel_append ?_ ?_) domains) rows) out
  · exact (sys.constant_rows _).toList
  · exact (sys.number_rows _ _).toList

end Hash

section Statement

theorem element_rows {n : Nat} {v : Vector Bit n} {v' : Vector Bit' n} (rows : Rows Rb v v')
    (i : Nat) (inside : i * 128 + 128 ≤ n) : Rows Rb (element v i inside) (element v' i inside) :=
  rows.slice (i * 128) 128 inside

theorem openLines_rel {r : Vector Bit (8 * 96)} {r' : Vector Bit' (8 * 96)}
    {a : Vector Bit (8 * 192)} {a' : Vector Bit' (8 * 192)} {message : Vector Bit (8 * 32)}
    {message' : Vector Bit' (8 * 32)} (nonces : Rows Rb r r') (lines : Rows Rb a a')
    (messages : Rows Rb message message') :
    L.rel (List.Forall₂ Rb) (openLines e r a message) (openLines e' r' a' message') := by
  refine L.foldlM .nil fun line _ b b' sofar => ?_
  have terms (i : Fin 6) := sys.product (sys.pack (sys.element_rows lines (6 * line + i) (by omega)))
    (sys.pack (sys.element_rows nonces i (by omega)))
  have sums := List.foldl_rel (l := [1, 2, 3, 4, 5]) (r := Rf) (terms 0)
    fun i _ _ _ sum => sys.addField sum (terms i)
  have messageParts := sys.pack (sys.element_rows messages line (by omega))
  refine L.bind (sys.fieldWitness (Nat.le_refl _) (sys.addField sums messageParts) (sys.within_all _)) ?_
  intro term term' constantTerms
  exact L.pure (List.rel_append sofar constantTerms.toList)

theorem hashUnder_rel {n : Nat} (domain : Vector Byte n) {data : List Bit} {data' : List Bit'}
    (rows : List.Forall₂ Rb data data') (out : Nat) :
    L.rel (Rows Rb) (hashUnder e domain data out) (hashUnder e' domain data' out) :=
  sys.hash_rel (sys.constant_rows domain).toList rows out

theorem commitmentDigest_rel (pub : Statement) :
    L.rel (Rows Rb) (commitmentDigest e pub) (commitmentDigest e' pub) := by
  refine L.bind (sys.input_rel 0 96 (by decide)) fun r r' nonces => ?_
  refine L.bind (sys.input_rel 96 192 (by decide)) fun a a' lines => ?_
  refine L.bind (sys.openLines_rel nonces lines (sys.constant_rows _)) fun b b' terms => ?_
  refine L.bind (sys.hashUnder_rel hmDomY nonces.toList 32) fun y y' hashes => ?_
  exact sys.hashUnder_rel hmDomD
    (List.rel_append (List.rel_append lines.toList terms) hashes.toList) 32

/-- The same chains. -/
structure ChainsRel (Rb : Bit → Bit' → Prop) (c : Chains Bit) (c' : Chains Bit') : Prop where
  coords : Rows (Rows Rb) c.coords c'.coords
  tips : Rows (Rows Rb) c.tips c'.tips
  ends : Rows (Rows Rb) c.ends c'.ends

theorem chains_rel {digest : Vector Bit (8 * 32)} {digest' : Vector Bit' (8 * 32)}
    (rows : Rows Rb digest digest') :
    L.rel (ChainsRel Rb) (chains e digest) (chains e' digest') := by
  have coords : Rows (Rows Rb) (digits digest) (digits digest') :=
    Rows.ofFn fun i => rows.slice _ _ _
  have none : Rows (Rows Rb) (Vector.replicate 42 (number e 0 128))
      (Vector.replicate 42 (number e' 0 128)) := Rows.replicate (sys.number_rows 0 128)
  refine L.bind (L.foldlM (R := fun p q => Rows Rb p.1 q.1 ∧ Rows (Rows Rb) p.2.1 q.2.1 ∧
    Rows (Rows Rb) p.2.2 q.2.2) ⟨sys.number_rows 0 9, none, none⟩ ?_) ?_
  · rintro i - ⟨total, tips, ends⟩ ⟨total', tips', ends'⟩ ⟨totals, tipRows, endRows⟩
    refine L.bind (sys.add_rel totals (sys.widen_rows 9 (coords i)) false) fun _ _ totals => ?_
    refine L.bind (sys.input_rel _ _ (by
      unfold kPrimaryBytes kSigOffset hmRBytes hmABytes xmssSigBytes scheduleLen
      omega)) fun tip tip' tipBits => ?_
    refine L.bind (sys.input_rel _ _ (by
      unfold kPrimaryBytes kEndpointsOffset kScheduleOffset kSigOffset hmRBytes hmABytes
        xmssSigBytes scheduleLen
      omega)) fun chainEnd chainEnd' endBits => ?_
    refine L.bind (sys.equal_rel (coords i) (sys.number_rows 7 3)) fun _ _ complete => ?_
    refine L.bind (sys.zeroField (sys.product (sys.packBit_rel complete)
      (sys.addField (sys.pack tipBits) (sys.pack endBits)))) fun _ _ _ => ?_
    exact L.pure ⟨totals, tipRows.set i tipBits, endRows.set i endBits⟩
  · rintro ⟨total, tips, ends⟩ ⟨total', tips', ends'⟩ ⟨totals, tipRows, endRows⟩
    refine L.bind (sys.equalField_rel totals (sys.number_rows 195 9)) fun _ _ _ => ?_
    exact L.pure ⟨coords, tipRows, endRows⟩

theorem selected_rel {flags : List Bit} {flags' : List Bit'} {value : Fin 42 → Fe}
    {value' : Fin 42 → Fe'} (rows : List.Forall₂ Rb flags flags')
    (values : ∀ i, Rf (value i) (value' i)) :
    Rf (selected e flags value) (selected e' flags' value') := by
  have terms (i : Fin 42) := sys.product (sys.packBit_rel
    (forall₂_getD rows (sys.constant false) i.val)) (values i)
  unfold selected
  refine List.foldl_rel (r := Rf) (terms 0) ?_
  exact fun i _ _ _ sum => sys.addField sum (terms i.succ)

theorem selected_within {n : Nat} (flags : List Bit) {value : Fin 42 → Fe}
    (values : ∀ i, Within n (value i)) : Within n (selected e flags value) := by
  have terms (i : Fin 42) := sys.within_flag (flags.getD i.val (e.constant false)) (values i)
  exact List.foldlRecOn (motive := Within n) _ _ (terms 0) fun _ sum i _ =>
    sys.within_add sum (terms i.succ)

/-- Before step `step`: the index is the byte of the schedule of the step before. -/
structure PreviousRel (Rb : Bit → Bit' → Prop) (At : Nat → Bit → Bit' → Prop) (step : Nat)
    (p : Previous Bit) (p' : Previous Bit') : Prop where
  index : Rows Rb p.index p'.index
  pos : Rows Rb p.pos p'.pos
  out : Rows Rb p.out p'.out
  place : ∀ before, step = before + 1 → ∀ i : Fin 8,
    At ((kScheduleOffset + before) * 8 + i) p.index[i] p'.index[i]

theorem noStep_rel : PreviousRel Rb At 0 (noStep e) (noStep e') where
  index := sys.number_rows 0 8
  pos := sys.number_rows 0 3
  out := sys.number_rows 0 128
  place _ step := nomatch step

/-- The index of a step with its flags. -/
theorem scheduled_rel (step : Nat) (inside : step < scheduleLen) :
    L.rel (fun p q => (∀ i : Fin 8, At ((kScheduleOffset + step) * 8 + i) p.1[i] q.1[i]) ∧
        List.Forall₂ Rb p.2 q.2) (scheduled e step) (scheduled e' step) := by
  have place : kScheduleOffset + step + 1 ≤ kPrimaryBytes := by
    unfold kPrimaryBytes kScheduleOffset kSigOffset hmRBytes hmABytes xmssSigBytes
    omega
  refine L.bind (sys.input_at (kScheduleOffset + step) 1 place) fun index index' places => ?_
  have rows : Rows Rb index index' := fun i => sys.at_rel (places i)
  refine L.bind (sys.chainFlags_rel rows) fun flags flags' flagRows => ?_
  have sum : Rb (flags.foldl (fun sum flag => e.add sum flag) (e.constant false))
      (flags'.foldl (fun sum flag => e'.add sum flag) (e'.constant false)) := by
    refine List.rel_foldl ?_ (sys.constant false) flagRows
    intro sum sum' sums flag flag' same
    exact sys.add sums same
  refine L.bind (sys.zero (sys.invert_rel sum)) fun _ _ _ => ?_
  exact L.pure ⟨places, flagRows⟩

/-- The comparison of a step's index with the one before. -/
def Compares (L : Lifting m m') (e : Engine m Bit Fe) (e' : Engine m' Bit' Fe')
    (Rb : Bit → Bit' → Prop) (At : Nat → Bit → Bit' → Prop) : Prop :=
  ∀ (before : Nat) (a b : Vector Bit 8) (a' b' : Vector Bit' 8), before + 1 < scheduleLen →
    (∀ i : Fin 8, At ((kScheduleOffset + (before + 1)) * 8 + i) a[i] a'[i]) →
    (∀ i : Fin 8, At ((kScheduleOffset + before) * 8 + i) b[i] b'[i]) →
    L.rel Rb (less e (before + 1) a b) (less e' (before + 1) a' b')

variable (compares : Compares L e e' Rb At)

include compares

theorem continues_rel (step : Nat) (inside : step < scheduleLen) {index : Vector Bit 8} {index' : Vector Bit' 8}
    {previous : Previous Bit} {previous' : Previous Bit'}
    (places : ∀ i : Fin 8, At ((kScheduleOffset + step) * 8 + i) index[i] index'[i])
    (before : PreviousRel Rb At step previous previous') :
    L.rel Rb (continues e step index previous) (continues e' step index' previous') := by
  have rows : Rows Rb index index' := fun i => sys.at_rel (places i)
  cases step with
  | zero => exact L.pure (sys.constant false)
  | succ step =>
    refine L.bind (sys.equal_rel rows before.index) fun same same' sames => ?_
    refine L.bind ?_ fun _ _ (_ : True) => L.pure sames
    refine L.bind (compares step _ _ _ _ inside places (before.place step rfl)) fun _ _ lower => ?_
    refine L.bind (sys.zero lower) fun _ _ _ => ?_
    exact sys.zeroField (sys.product (sys.addField (sys.packBit_rel sames)
      (sys.pack (sys.number_rows 1 1)))
      (sys.addField (sys.pack before.pos) (sys.pack (sys.number_rows 7 3))))

theorem chainStep_rel {seed : Vector Bit (8 * 16)} {seed' : Vector Bit' (8 * 16)}
    {epochBe : List Bit} {epochBe' : List Bit'} {chains : Chains Bit} {chains' : Chains Bit'}
    (seeds : Rows Rb seed seed') (epochs : List.Forall₂ Rb epochBe epochBe')
    (same : ChainsRel Rb chains chains') (step : Nat) (inside : step < scheduleLen)
    (previous : Previous Bit) (previous' : Previous Bit')
    (before : PreviousRel Rb At step previous previous') :
    L.rel (PreviousRel Rb At (step + 1)) (chainStep e seed epochBe chains previous step)
      (chainStep e' seed' epochBe' chains' previous' step) := by
  refine L.bind (sys.scheduled_rel step inside) ?_
  rintro ⟨index, flags⟩ ⟨index', flags'⟩ ⟨places, flagRows⟩
  have indices : Rows Rb index index' := fun i => sys.at_rel (places i)
  refine L.bind (sys.continues_rel compares step inside places before) fun stays stays' kept => ?_
  have tip := sys.selected_rel flagRows fun i => sys.pack (same.tips i)
  have chainEnd := sys.selected_rel flagRows fun i => sys.pack (same.ends i)
  have coord := sys.selected_rel flagRows fun i => sys.pack (same.coords i)
  have held := sys.selected_within flags fun i => sys.within_pack chains.coords[i]
  refine L.bind (sys.fieldWitness (by decide) coord held) fun _ _ coordinate => ?_
  refine L.bind (sys.select_rel kept before.pos coordinate) fun _ _ chosen => ?_
  refine L.bind (sys.add_rel chosen (sys.number_rows 1 3) true) fun position position' positions => ?_
  have link := sys.addField (sys.product (sys.packBit_rel kept)
    (sys.addField tip (sys.pack before.out))) tip
  refine L.bind (sys.fieldWitness (Nat.le_refl _) link (sys.within_all _)) fun inNode inNode' inNodes => ?_
  have domain := List.rel_append inNodes.toList (sys.number_rows xmssTweakChain.toNat 8).toList
  have data := List.rel_append (List.rel_append (List.rel_append seeds.toList epochs)
    indices.toList) (sys.widen_rows 8 positions).toList
  refine L.bind (sys.hash_rel domain data 16) fun outNode outNode' outNodes => ?_
  refine L.bind (sys.equal_rel positions (sys.number_rows 7 3)) fun last last' ends => ?_
  refine L.bind (sys.zeroField (sys.product (sys.packBit_rel ends)
    (sys.addField chainEnd (sys.pack outNodes)))) fun _ _ _ => L.pure ?_
  constructor
  · exact indices
  · exact positions
  · exact outNodes
  · rintro _ ⟨⟩ i
    exact places i

omit compares

theorem treeStep_rel {seed : Vector Bit (8 * 16)} {seed' : Vector Bit' (8 * 16)}
    {node : Vector Bit 128} {node' : Vector Bit' 128} {idx : Vector Bit 32}
    {idx' : Vector Bit' 32} (seeds : Rows Rb seed seed') (nodes : Rows Rb node node')
    (indices : Rows Rb idx idx') (level : Nat) (inside : level < xmssH) :
    L.rel (fun p q => Rows Rb p.1 q.1 ∧ Rows Rb p.2 q.2) (treeStep e seed node idx level)
      (treeStep e' seed' node' idx' level) := by
  refine L.bind (sys.input_rel _ _ (by
    unfold kPrimaryBytes kSigOffset hmRBytes hmABytes xmssSigBytes scheduleLen
    unfold xmssH at inside
    omega)) fun sibling sibling' siblings => ?_
  refine L.bind (sys.select_rel (indices 0) siblings nodes) fun left left' lefts => ?_
  have rights : Rows Rb
      (Vector.ofFn fun i : Fin 128 => e.add (e.add left[i] node[i]) sibling[i])
      (Vector.ofFn fun i : Fin 128 => e'.add (e'.add left'[i] node'[i]) sibling'[i]) :=
    Rows.ofFn fun i => sys.add (sys.add (lefts i) (nodes i)) (siblings i)
  have shifted : Rows Rb
      (Vector.ofFn fun i : Fin 32 => idx[i.val + 1]?.getD (e.constant false))
      (Vector.ofFn fun i : Fin 32 => idx'[i.val + 1]?.getD (e'.constant false)) := by
    refine Rows.ofFn fun i => ?_
    rcases Nat.lt_or_ge (i.val + 1) 32 with more | last
    · rw [Vector.getElem?_eq_getElem more, Vector.getElem?_eq_getElem more]
      exact indices ⟨i + 1, more⟩
    · rw [Vector.getElem?_eq_none last, Vector.getElem?_eq_none last]
      exact sys.constant false
  have domain := List.rel_append (List.rel_append (List.rel_append seeds.toList
    (sys.number_rows xmssTweakTree.toNat 8).toList) (sys.number_rows level 8).toList)
    shifted.toList
  refine L.bind (sys.hash_rel domain (List.rel_append lefts.toList rights.toList) 16) ?_
  intro _ _ parents
  exact L.pure ⟨parents, shifted⟩

theorem bigEndian_rel {epoch : Vector Bit (8 * 4)} {epoch' : Vector Bit' (8 * 4)}
    (rows : Rows Rb epoch epoch') : List.Forall₂ Rb (bigEndian epoch) (bigEndian epoch') := by
  refine List.rel_flatMap (R := Eq) (List.forall₂_eq_eq_eq ▸ rfl) ?_
  rintro i _ rfl
  exact (rows.slice ((3 - i) * 8) 8 (by omega)).toList

theorem opening_rel (pub : Statement) :
    L.rel (fun p q => Rows Rb p.1 q.1 ∧ ChainsRel Rb p.2 q.2) (opening e pub) (opening e' pub) := by
  refine L.bind (sys.commitmentDigest_rel pub) fun d d' digests => ?_
  refine L.bind (sys.input_rel kSigOffset 4 (by decide)) fun epoch epoch' epochs => ?_
  refine L.bind (sys.input_rel (kSigOffset + 4) 24 (by decide)) fun nonce nonce' nonces => ?_
  have domain := List.rel_append (List.rel_append (sys.constant_rows pub.pkSeed).toList
    (sys.number_rows xmssTweakMessage.toNat 8).toList) (sys.bigEndian_rel epochs)
  refine L.bind (sys.hash_rel domain (List.rel_append nonces.toList digests.toList) 32) ?_
  intro digest digest' codewords
  refine L.bind (sys.zero (codewords 63)) fun _ _ _ => ?_
  refine L.bind (sys.zero (codewords 127)) fun _ _ _ => ?_
  refine L.bind (sys.chains_rel codewords) fun chains chains' same => ?_
  exact L.pure ⟨epochs, same⟩

theorem closing_rel (pub : Statement) {epoch : Vector Bit (8 * 4)} {epoch' : Vector Bit' (8 * 4)}
    {chains : Chains Bit} {chains' : Chains Bit'} {previous : Previous Bit}
    {previous' : Previous Bit'} (epochs : Rows Rb epoch epoch') (same : ChainsRel Rb chains chains')
    (positions : Rows Rb previous.pos previous'.pos) :
    L.rel (fun _ _ => True) (closing e pub epoch chains previous)
      (closing e' pub epoch' chains' previous') := by
  have seeds := sys.constant_rows pub.pkSeed
  refine L.bind (sys.equalField_rel positions (sys.number_rows 7 3)) fun _ _ _ => ?_
  have domain := List.rel_append (List.rel_append seeds.toList
    (sys.number_rows xmssTweakLeaf.toNat 8).toList) (sys.bigEndian_rel epochs)
  have ends : List.Forall₂ Rb (chains.ends.toList.flatMap Vector.toList)
      (chains'.ends.toList.flatMap Vector.toList) :=
    List.rel_flatMap same.ends.toList fun _ _ rows => Rows.toList rows
  refine L.bind (sys.hash_rel domain ends 16) fun leaf leaf' leaves => ?_
  refine L.bind (L.foldlM (R := fun p q => Rows Rb p.1 q.1 ∧ Rows Rb p.2 q.2) ⟨leaves, epochs⟩ ?_) ?_
  · rintro level inside ⟨node, idx⟩ ⟨node', idx'⟩ ⟨nodes, indices⟩
    exact sys.treeStep_rel seeds nodes indices level (List.mem_range.mp inside)
  · rintro ⟨node, idx⟩ ⟨node', idx'⟩ ⟨nodes, -⟩
    exact sys.equalField_rel nodes (sys.constant_rows pub.root)

/-- The circuit, given its comparisons and its padding. -/
theorem statement_rel (compares : Compares L e e' Rb At)
    (pad : L.rel (fun _ _ => True) (padding e) (padding e')) (pub : Statement) :
    L.rel (fun _ _ => True) (statement e pub) (statement e' pub) := by
  refine L.bind (sys.opening_rel pub) ?_
  rintro ⟨epoch, chains⟩ ⟨epoch', chains'⟩ ⟨epochs, same⟩
  refine L.bind (L.foldlM_range (PreviousRel Rb At) sys.noStep_rel fun step inside previous
    previous' before => sys.chainStep_rel compares (sys.constant_rows pub.pkSeed)
      (sys.bigEndian_rel epochs) same step inside previous previous' before) ?_
  intro previous previous' last
  exact L.bind (sys.closing_rel pub epochs same last.pos) fun _ _ _ => pad

end Statement

section Primitives

/-- Comparisons in the same order. -/
theorem compares_of_order (order : e.leftFirst = e'.leftFirst) : Compares L e e' Rb At := by
  intro before a b a' b' _ left right
  refine L.foldlM (sys.constant false) fun i _ result result' same => ?_
  have rowsA := sys.at_rel (left i)
  have rowsB := sys.at_rel (right i)
  have equalBits := sys.invert_rel (sys.add rowsA rowsB)
  refine L.bind (R := fun p q => Rb p.1 q.1 ∧ Rb p.2 q.2) ?_ ?_
  · rw [order]
    unfold mulTwo
    split
    · refine L.bind (sys.mul equalBits same) fun _ _ kept => ?_
      exact L.bind (sys.mul (sys.invert_rel rowsA) rowsB) fun _ _ decided => L.pure ⟨kept, decided⟩
    · refine L.bind (sys.mul (sys.invert_rel rowsA) rowsB) fun _ _ decided => ?_
      exact L.bind (sys.mul equalBits same) fun _ _ kept => L.pure ⟨kept, decided⟩
  · rintro ⟨kept, decided⟩ ⟨kept', decided'⟩ ⟨keeps, decides⟩
    exact L.pure (sys.add keeps decides)

/-- Padding with bits that are zero. -/
theorem padding_rel (counts : L.rel Eq e.counts e'.counts)
    (bits : L.rel (fun _ _ => True) (e.allocate >>= e.zero) (e'.allocate >>= e'.zero)) :
    L.rel (fun _ _ => True) (padding e) (padding e') := by
  refine L.bind counts ?_
  rintro counts _ rfl
  exact L.forM fun _ _ => bits

end Primitives

end EngineRel

end BlindSig.Voleith
