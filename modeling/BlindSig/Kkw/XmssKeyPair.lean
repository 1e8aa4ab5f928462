import BlindSig.Kkw.Xmss
import BlindSig.Lib.Codec
import BlindSig.Lib.MerkleTraversal

/-! The XMSS key pair of the C sources: WOTS+ signing, the two-level traversal and the cached
bottom subtree. Allocation does not fail in the model; `randombytes_fill` fails when the list
of its results ends. -/
namespace BlindSig.Kkw

abbrev xmssSubtreeH : Nat := 16

namespace XmssHashes

variable (X : XmssHashes)

section Tree

/-- The tree under a key: WOTS+ leaves, nodes tagged by level and index. -/
def tree (skSeed : Vector Byte 32) (pkSeed : PkSeed) : TreeHash Node where
  leaf epoch := X.hashPublicKey pkSeed epoch
    (X.wotsPkFromSk pkSeed epoch (X.wotsGenSk skSeed epoch))
  node level index left right :=
    X.hashTreeNode pkSeed left right (BitVec.ofNat 32 level) index

@[simp] theorem tree_node (skSeed : Vector Byte 32) (pkSeed : PkSeed) (level : Nat)
    (index : Word) (left right : Node) :
    (X.tree skSeed pkSeed).node level index left right =
      X.hashTreeNode pkSeed left right (BitVec.ofNat 32 level) index := rfl

def buildSubtree (skSeed : Vector Byte 32) (pkSeed : PkSeed) (s : Word) (subtreeH : Nat) :
    Option (List (List Node)) :=
  (X.tree skSeed pkSeed).buildSubtree s.toNat subtreeH

def buildTop (skSeed : Vector Byte 32) (pkSeed : PkSeed) (roots : List Node)
    (subtreeH topH : Nat) : Option (List (List Node)) :=
  (X.tree skSeed pkSeed).buildTop roots subtreeH topH

def climbUpper (pkSeed : PkSeed) (realRoot : Node) (height : Nat) (upper : Vector Node k) : Node :=
  (List.finRange k).foldl (fun node (i : Fin k) =>
    X.hashTreeNode pkSeed node upper[i] (BitVec.ofNat 32 (height + i)) 0) realRoot

end Tree

end XmssHashes

/-- `upper` holds the siblings above the real height. -/
structure XmssKeypair where
  skSeed : Vector Byte 32
  pkSeed : PkSeed
  height : Nat
  subtreeH : Nat
  top : List (List Node)
  bottom : List (List Node)
  cachedSubtree : Nat
  upper : List Node
  root : Node

namespace XmssKeypair

def capacity (kp : XmssKeypair) : Nat := 1 <<< kp.height

end XmssKeypair

namespace XmssHashes

variable (X : XmssHashes)

def keypairNewSplit (skSeed : Vector Byte 32) (pkSeed : PkSeed) (height subtreeH : Nat) :
    Checked Unit XmssKeypair := do
  check (1 ≤ height ∧ height ≤ xmssH) ()
  check (1 ≤ subtreeH ∧ subtreeH ≤ height) ()
  let topH := height - subtreeH
  let (bottom, roots) ← fetch ((List.range (1 <<< topH)).foldlM (fun x s => do
    let bottom ← X.buildSubtree skSeed pkSeed (BitVec.ofNat 32 s) subtreeH
    let root ← readNode bottom subtreeH 0
    return (bottom, x.2 ++ [root])) ([], []))
  let cachedSubtree := if topH = 0 then 0 else 1 <<< topH - 1
  let top ← fetch (X.buildTop skSeed pkSeed roots subtreeH topH)
  let upper := X.deriveUpperSiblings skSeed (xmssH - height)
  let realRoot ← fetch (readNode top topH 0)
  let root := X.climbUpper pkSeed realRoot height upper
  return { skSeed, pkSeed, height, subtreeH, top, bottom, cachedSubtree, root,
           upper := upper.toList }

/-- Rebuilds the bottom subtree unless the one of this leaf is there already. -/
def loadSubtree (kp : XmssKeypair) (s : Nat) : Checked Unit XmssKeypair :=
  if kp.cachedSubtree ≠ s then do
    let bottom ← fetch (X.buildSubtree kp.skSeed kp.pkSeed (BitVec.ofNat 32 s) kp.subtreeH)
    return { kp with bottom, cachedSubtree := s }
  else return kp

/-- The signature and the key pair after the call; a refusal leaves the key pair as it is. -/
def keypairSign (kp : XmssKeypair) (leafIndex : Word) (message : List Byte)
    (nonces : List Nonce) : Checked Unit (XmssSig × XmssKeypair) := do
  check (leafIndex.toNat < kp.capacity) ()
  match X.grindNonce kp.pkSeed leafIndex message nonces with
  | none => .error (.check ())
  | some (nonce, coords) =>
    let sk := X.wotsGenSk kp.skSeed leafIndex
    let sigHashes := X.wotsSign kp.pkSeed leafIndex sk coords
    let s := leafIndex.toNat >>> kp.subtreeH
    let kp ← X.loadSubtree kp s
    let real ← fetch (siblings kp.height kp.subtreeH kp.bottom kp.top s leafIndex.toNat)
    let upper ← fetch ((List.range (xmssH - kp.height)).mapM (kp.upper[·]?))
    let authPath ← fetch (asVector xmssH (real ++ upper))
    return ({ leafIndex, nonce, sigHashes, authPath }, kp)

theorem keypairSign_leafIndex {kp kp' : XmssKeypair} {leafIndex : Word} {message : List Byte}
    {nonces : List Nonce} {sig : XmssSig}
    (signed : X.keypairSign kp leafIndex message nonces = .ok (sig, kp')) :
    sig.leafIndex = leafIndex := by
  unfold keypairSign at signed
  obtain ⟨_, _, signed⟩ := bind_eq_ok.mp signed
  split at signed
  · cases signed
  · obtain ⟨_, _, signed⟩ := bind_eq_ok.mp signed
    obtain ⟨_, _, signed⟩ := bind_eq_ok.mp signed
    obtain ⟨_, _, signed⟩ := bind_eq_ok.mp signed
    obtain ⟨_, _, signed⟩ := bind_eq_ok.mp signed
    obtain ⟨rfl, _⟩ := Prod.mk.inj (Except.ok.inj signed)
    rfl

end XmssHashes

section Wots

/-- A coordinate has three bits. -/
theorem coord_le (hash : Vector Byte 32) (i : Fin xmssWotsLen) :
    (xmssExtractCoords hash).1[i].toNat ≤ xmssWotsMaxSteps := by
  have bits (a b c : Bool) : ((0 : Byte) ||| (BitVec.ofBool a).setWidth 8 <<< 0 |||
      (BitVec.ofBool b).setWidth 8 <<< 1 ||| (BitVec.ofBool c).setWidth 8 <<< 2).toNat ≤ 7 := by
    cases a <;> cases b <;> cases c <;> decide
  have range : List.finRange xmssCoordResBits = [0, 1, 2] := rfl
  simp only [xmssExtractCoords, getElem_fin, Vector.getElem_ofFn, range, List.foldl_cons,
    List.foldl_nil]
  exact bits _ _ _

namespace Chains

variable {α : Type} (step : PkSeed → Word → α → Byte → Byte → α)

/-- The chain to `coord` and on from there is the whole chain. -/
theorem hashChainMulti_rest (pkSeed : PkSeed) (epoch : Word) (start : α) (chainIdx coord : Byte)
    (inside : coord.toNat ≤ xmssWotsMaxSteps) :
    hashChainMulti step pkSeed epoch (hashChainMulti step pkSeed epoch start chainIdx 0 coord) chainIdx
        coord (BitVec.ofNat 8 xmssWotsMaxSteps - coord) =
      hashChainMulti step pkSeed epoch start chainIdx 0 (BitVec.ofNat 8 xmssWotsMaxSteps) := by
  have rest : (BitVec.ofNat 8 xmssWotsMaxSteps - coord).toNat = xmssWotsMaxSteps - coord.toNat := by
    rw [BitVec.toNat_sub_of_le (BitVec.le_def.mpr inside)]
    rfl
  have whole : (BitVec.ofNat 8 xmssWotsMaxSteps).toNat =
      coord.toNat + (xmssWotsMaxSteps - coord.toNat) := by
    rw [Nat.add_sub_cancel' inside]
    rfl
  simp only [hashChainMulti, rest]
  rw [whole, List.range_add, List.foldl_append, List.foldl_map]
  congr 1
  funext cur i
  congr 2
  simp [BitVec.ofNat_add]

theorem wotsPkFromSig_sign (pkSeed : PkSeed) (epoch : Word) (sk : Vector α xmssWotsLen)
    (coords : Vector Byte xmssWotsLen)
    (inside : ∀ i : Fin xmssWotsLen, coords[i].toNat ≤ xmssWotsMaxSteps) :
    wotsPkFromSig step pkSeed epoch (wotsSign step pkSeed epoch sk coords) coords =
      wotsPkFromSk step pkSeed epoch sk := by
  apply Vector.ext
  intro i hi
  have chain := hashChainMulti_rest step pkSeed epoch sk[i] (BitVec.ofNat 8 i) coords[i]
    (inside ⟨i, hi⟩)
  -- A coordinate of 0 or 7 makes one of the two parts a plain copy.
  have sign : (wotsSign step pkSeed epoch sk coords)[i] =
      hashChainMulti step pkSeed epoch sk[i] (BitVec.ofNat 8 i) 0 coords[i] := by
    simp only [wotsSign, Vector.getElem_ofFn, getElem_fin]
    split
    · next zero => simp [zero, hashChainMulti]
    · rfl
  simp only [wotsPkFromSig, wotsPkFromSk, Vector.getElem_ofFn, getElem_fin, sign]
  split
  · next zero =>
    rw [← chain, zero]
    simp [hashChainMulti]
  · exact chain

end Chains

namespace XmssHashes

variable (X : XmssHashes)

theorem wotsPkFromSig_sign (pkSeed : PkSeed) (epoch : Word) (sk : Vector Node xmssWotsLen)
    (coords : Vector Byte xmssWotsLen)
    (inside : ∀ i : Fin xmssWotsLen, coords[i].toNat ≤ xmssWotsMaxSteps) :
    X.wotsPkFromSig pkSeed epoch (X.wotsSign pkSeed epoch sk coords) coords =
      X.wotsPkFromSk pkSeed epoch sk :=
  Chains.wotsPkFromSig_sign X.hashChainStep pkSeed epoch sk coords inside

/-- What a nonce that ended the search satisfies. -/
theorem grindNonce_eq_some {pkSeed : PkSeed} {epoch : Word} {message : List Byte}
    {nonces : List Nonce} {nonce : Nonce} {coords : Vector Byte xmssWotsLen}
    (found : X.grindNonce pkSeed epoch message nonces = some (nonce, coords)) :
    xmssExtractCoords (X.hashMessage pkSeed epoch nonce message) = (coords, true) ∧
      coordSum coords = xmssTargetSum := by
  induction nonces with
  | nil => cases found
  | cons first rest ih =>
    rw [grindNonce] at found
    generalize extracted :
      xmssExtractCoords (X.hashMessage pkSeed epoch first message) = drawn at found
    obtain ⟨drawn, ok⟩ := drawn
    cases ok with
    | false => exact ih found
    | true =>
      by_cases sum : coordSum drawn = xmssTargetSum
      · simp only [Bool.not_true, Bool.false_eq_true, if_false, sum, if_true, Option.some.injEq,
          Prod.mk.injEq] at found
        obtain ⟨rfl, rfl⟩ := found
        exact ⟨extracted, sum⟩
      · simp only [Bool.not_true, Bool.false_eq_true, if_false, sum] at found
        exact ih found

end XmssHashes

end Wots

section Climb

namespace XmssHashes

variable (X : XmssHashes)

/-- The verifier's walk is a climb in the tree of any key over these hashes. -/
theorem walkAuthPath_eq (skSeed : Vector Byte 32) (pkSeed : PkSeed) (leaf : Node)
    (leafIndex : Word) (authPath : Vector Node xmssH) (path : Nat → Node)
    (same : ∀ h : Fin xmssH, authPath[h] = path h) :
    X.walkAuthPath pkSeed leaf leafIndex authPath =
      (X.tree skSeed pkSeed).climb path leafIndex.toNat leaf xmssH := by
  have walk := foldl_finRange (n := xmssH)
    (f := fun (x : Node × Word) h =>
      (if x.2 &&& 1 = 0 then
        X.hashTreeNode pkSeed x.1 authPath[h] (BitVec.ofNat 32 h) (x.2 >>> 1)
      else X.hashTreeNode pkSeed authPath[h] x.1 (BitVec.ofNat 32 h) (x.2 >>> 1), x.2 >>> 1))
    (fun h => ((X.tree skSeed pkSeed).climb path leafIndex.toNat leaf h, leafIndex >>> h))
    fun h => by
      have parent : leafIndex >>> (h.val + 1) = BitVec.ofNat 32 (leafIndex.toNat >>> (h.val + 1)) :=
        BitVec.eq_of_toNat_eq (by
          rw [BitVec.toNat_ofNat, Nat.mod_eq_of_lt
            (Nat.lt_of_le_of_lt (Nat.shiftRight_le _ _) leafIndex.isLt)]
          simp)
      have bit : leafIndex >>> h.val &&& 1 = 0 ↔ (leafIndex.toNat >>> h.val) % 2 = 0 := by
        rw [← BitVec.toNat_inj]
        simp [Nat.and_one_is_mod]
      simp only [TreeHash.climb, tree_node, ← BitVec.shiftRight_add, bit, same, ← parent]
  rw [BitVec.ushiftRight_zero] at walk
  rw [walkAuthPath]
  exact congrArg Prod.fst walk

theorem climbUpper_eq (skSeed : Vector Byte 32) (pkSeed : PkSeed) (realRoot : Node)
    (height : Nat) (upper : Vector Node k) (path : Nat → Node)
    (same : ∀ i : Fin k, upper[i] = path (height + i)) :
    X.climbUpper pkSeed realRoot height upper =
      (X.tree skSeed pkSeed).climbLeft path height realRoot k := by
  have climb := foldl_finRange (n := k) (f := fun node (i : Fin k) =>
      X.hashTreeNode pkSeed node upper[i] (BitVec.ofNat 32 (height + i)) 0)
    ((X.tree skSeed pkSeed).climbLeft path height realRoot) fun i => by
      simp only [TreeHash.climbLeft, tree_node, same]
  exact climb

end XmssHashes

end Climb

section Honest

namespace XmssHashes

variable (X : XmssHashes) (skSeed : Vector Byte 32) (pkSeed : PkSeed) (height : Nat)

/-- The root of a key: the real tree and the derived siblings above it. -/
def treeRoot : Node :=
  X.climbUpper pkSeed ((X.tree skSeed pkSeed).value height 0) height
    (X.deriveUpperSiblings skSeed (xmssH - height))

/-- The sibling at level `h` on the way from a leaf to that root. -/
def sibling (leafIndex : Word) (h : Nat) : Node :=
  if h < height then (X.tree skSeed pkSeed).value h ((leafIndex.toNat >>> h) ^^^ 1)
  else (X.deriveUpperSiblings skSeed (xmssH - height))[h - height]?.getD (.replicate _ 0)

/-- The signature of a leaf under a nonce: a function of the key material only. -/
def signature (leafIndex : Word) (nonce : Nonce) (coords : Vector Byte xmssWotsLen) : XmssSig where
  leafIndex
  nonce
  sigHashes := X.wotsSign pkSeed leafIndex (X.wotsGenSk skSeed leafIndex) coords
  authPath := Vector.ofFn fun h : Fin xmssH => X.sibling skSeed pkSeed height leafIndex h

theorem leaf_eq (leafIndex : Word) :
    (X.tree skSeed pkSeed).value 0 leafIndex.toNat =
      X.hashPublicKey pkSeed leafIndex
        (X.wotsPkFromSk pkSeed leafIndex (X.wotsGenSk skSeed leafIndex)) := by
  simp [TreeHash.value, tree]

/-- The siblings of a leaf below the capacity lead to the root. -/
theorem walk_signature {height : Nat} (le : height ≤ xmssH) {leafIndex : Word}
    (inside : leafIndex.toNat < 2 ^ height) :
    X.walkAuthPath pkSeed ((X.tree skSeed pkSeed).value 0 leafIndex.toNat) leafIndex
      (Vector.ofFn fun h : Fin xmssH => X.sibling skSeed pkSeed height leafIndex h) =
      X.treeRoot skSeed pkSeed height := by
  have real : ∀ h < height, X.sibling skSeed pkSeed height leafIndex h =
      (X.tree skSeed pkSeed).value h ((leafIndex.toNat >>> h) ^^^ 1) := fun h hh => if_pos hh
  have above : ∀ i : Fin (xmssH - height), (X.deriveUpperSiblings skSeed (xmssH - height))[i] =
      X.sibling skSeed pkSeed height leafIndex (height + i) := fun i => by
    simp [sibling]
  have total : height + (xmssH - height) = xmssH := Nat.add_sub_cancel' le
  rw [X.walkAuthPath_eq skSeed pkSeed _ _ _ (X.sibling skSeed pkSeed height leafIndex) (by simp),
    ← total, TreeHash.climb_root _ _ inside real, treeRoot,
    X.climbUpper_eq skSeed pkSeed _ _ _ _ above]

/-- A signature made with an accepted nonce verifies. -/
theorem verify_signature {height : Nat} (le : height ≤ xmssH) {leafIndex : Word}
    (inside : leafIndex.toNat < 2 ^ height) {message : List Byte} {nonce : Nonce}
    {coords : Vector Byte xmssWotsLen}
    (extracted : xmssExtractCoords (X.hashMessage pkSeed leafIndex nonce message) = (coords, true))
    (sum : coordSum coords = xmssTargetSum) :
    X.verify pkSeed (X.treeRoot skSeed pkSeed height) message
      (X.signature skSeed pkSeed height leafIndex nonce coords) = true := by
  have small : ∀ i : Fin xmssWotsLen, coords[i].toNat ≤ xmssWotsMaxSteps := fun i => by
    have := coord_le (X.hashMessage pkSeed leafIndex nonce message) i
    rwa [extracted] at this
  simp only [verify, signature, extracted, Bool.not_true, Bool.false_eq_true, if_false, sum,
    ne_eq, not_true_eq_false]
  rw [X.wotsPkFromSig_sign _ _ _ _ small, ← leaf_eq, X.walk_signature skSeed pkSeed le inside]
  exact beq_self_eq_true _

end XmssHashes

end Honest

section KeyPair

namespace XmssHashes

variable (X : XmssHashes)

/-- The invariant of a key pair: both stored parts are those of its tree. -/
structure Valid (kp : XmssKeypair) : Prop where
  height_le : kp.height ≤ xmssH
  subtreeH_le : kp.subtreeH ≤ kp.height
  top : kp.top = topLevels (X.tree kp.skSeed kp.pkSeed) kp.height kp.subtreeH
  bottom : kp.bottom = bottomLevels (X.tree kp.skSeed kp.pkSeed) kp.subtreeH kp.cachedSubtree
  upper : kp.upper = (X.deriveUpperSiblings kp.skSeed (xmssH - kp.height)).toList
  root : kp.root = X.treeRoot kp.skSeed kp.pkSeed kp.height

theorem keypairNewSplit_valid (skSeed : Vector Byte 32) (pkSeed : PkSeed) {height subtreeH : Nat}
    (inside : 1 ≤ height ∧ height ≤ xmssH) (split : 1 ≤ subtreeH ∧ subtreeH ≤ height) :
    ∃ kp, X.keypairNewSplit skSeed pkSeed height subtreeH = .ok kp ∧ X.Valid kp ∧
      kp.skSeed = skSeed ∧ kp.pkSeed = pkSeed ∧ kp.height = height := by
  let T := X.tree skSeed pkSeed
  let last (s : Nat) : List (List Node) := if s = 0 then [] else bottomLevels T subtreeH (s - 1)
  have loop := foldlM_range (f := fun (x : List (List Node) × List Node) s => do
      let bottom ← X.buildSubtree skSeed pkSeed (BitVec.ofNat 32 s) subtreeH
      let root ← readNode bottom subtreeH 0
      return (bottom, x.2 ++ [root]))
    (fun s => (last s, (List.range s).map (T.value subtreeH))) (2 ^ (height - subtreeH))
    fun s hs => by
      have short : s < 2 ^ 32 := Nat.lt_of_lt_of_le hs
        (Nat.pow_le_pow_right (by decide) (Nat.le_trans (Nat.sub_le _ _) inside.2))
      have built : X.buildSubtree skSeed pkSeed (BitVec.ofNat 32 s) subtreeH =
          some (bottomLevels T subtreeH s) := by
        rw [buildSubtree, BitVec.toNat_ofNat, Nat.mod_eq_of_lt short]
        exact buildSubtree_eq T s subtreeH
      have root : readNode (bottomLevels T subtreeH s) subtreeH 0 = some (T.value subtreeH s) := by
        rw [bottomLevels, readNode_filled _ (Nat.le_refl _) (Nat.two_pow_pos _)]
        simp
      simp [built, root, last, List.range_succ]
  have start : (last 0, (List.range 0).map (T.value subtreeH)) = ([], []) := rfl
  have nonempty : 2 ^ (height - subtreeH) ≠ 0 := Nat.ne_of_gt (Nat.two_pow_pos _)
  have realRoot : readNode (topLevels T height subtreeH) (height - subtreeH) 0 =
      some (T.value height 0) := by
    rw [topLevels, readNode_filled _ (Nat.le_refl _) (Nat.two_pow_pos _),
      Nat.add_sub_cancel' split.2]
  rw [start] at loop
  have cached : (if height - subtreeH = 0 then 0 else 2 ^ (height - subtreeH) - 1) =
      2 ^ (height - subtreeH) - 1 := by
    split
    · next zero => simp [zero]
    · rfl
  let kp : XmssKeypair :=
    { skSeed, pkSeed, height, subtreeH, top := topLevels T height subtreeH,
      bottom := bottomLevels T subtreeH (2 ^ (height - subtreeH) - 1),
      cachedSubtree := 2 ^ (height - subtreeH) - 1,
      upper := (X.deriveUpperSiblings skSeed (xmssH - height)).toList,
      root := X.treeRoot skSeed pkSeed height }
  refine ⟨kp, ?_, ⟨inside.2, split.2, rfl, rfl, rfl, rfl⟩, rfl, rfl, rfl⟩
  rw [keypairNewSplit, check_true inside, check_true split]
  simp only [Nat.one_shiftLeft, loop, fetch_some]
  simp only [buildTop, bind, Except.bind, last, nonempty, if_false, cached]
  rw [buildTop_eq]
  simp only [fetch_some, T, realRoot]
  rfl

theorem loadSubtree_eq {kp : XmssKeypair} (valid : X.Valid kp) {s : Nat} (short : s < 2 ^ 32) :
    X.loadSubtree kp s = .ok { kp with
      bottom := bottomLevels (X.tree kp.skSeed kp.pkSeed) kp.subtreeH s, cachedSubtree := s } := by
  unfold loadSubtree
  by_cases cached : kp.cachedSubtree = s
  · subst cached
    rw [if_neg (not_not.mpr rfl), ← valid.bottom]
    rfl
  · have built : X.buildSubtree kp.skSeed kp.pkSeed (BitVec.ofNat 32 s) kp.subtreeH =
        some (bottomLevels (X.tree kp.skSeed kp.pkSeed) kp.subtreeH s) := by
      rw [buildSubtree, BitVec.toNat_ofNat, Nat.mod_eq_of_lt short]
      exact buildSubtree_eq _ _ _
    rw [if_pos cached, built]
    rfl

/-- The path a signature stores: the real siblings, then the derived ones. -/
theorem authPath_eq {kp : XmssKeypair} (valid : X.Valid kp) (leafIndex : Word) :
    asVector xmssH ((List.range kp.height).map (fun h =>
      (X.tree kp.skSeed kp.pkSeed).value h ((leafIndex.toNat >>> h) ^^^ 1)) ++ kp.upper) =
      some (Vector.ofFn fun h : Fin xmssH =>
        X.sibling kp.skSeed kp.pkSeed kp.height leafIndex h) := by
  apply asVector_eq
  have total : kp.height + (xmssH - kp.height) = xmssH := Nat.add_sub_cancel' valid.height_le
  apply List.ext_getElem
  · simp [valid.upper, total]
  intro h _ inside
  have hh : h < xmssH := by simpa using inside
  simp only [Vector.getElem_toList, Vector.getElem_ofFn, valid.upper, sibling]
  by_cases real : h < kp.height
  · rw [List.getElem_append_left (by simpa using real), if_pos real]
    simp
  · rw [List.getElem_append_right (by simpa using real), if_neg real]
    have above : h - kp.height < xmssH - kp.height := by omega
    simp [above]

/-- One call: a leaf below the capacity and an accepted nonce give the signature of that leaf,
whatever was cached before. -/
theorem keypairSign_eq {kp : XmssKeypair} (valid : X.Valid kp) (leafIndex : Word)
    (message : List Byte) (nonces : List Nonce) :
    X.keypairSign kp leafIndex message nonces =
      if leafIndex.toNat < 2 ^ kp.height then
        match X.grindNonce kp.pkSeed leafIndex message nonces with
        | none => .error (.check ())
        | some (nonce, coords) =>
          let s := leafIndex.toNat >>> kp.subtreeH
          .ok (X.signature kp.skSeed kp.pkSeed kp.height leafIndex nonce coords,
            { kp with bottom := bottomLevels (X.tree kp.skSeed kp.pkSeed) kp.subtreeH s,
                      cachedSubtree := s })
      else .error (.check ()) := by
  have capacity : kp.capacity = 2 ^ kp.height := Nat.one_shiftLeft _
  rw [keypairSign, capacity]
  by_cases inside : leafIndex.toNat < 2 ^ kp.height
  · rw [check_true inside, if_pos inside]
    simp only [bind, Except.bind]
    cases X.grindNonce kp.pkSeed leafIndex message nonces with
    | none => rfl
    | some drawn =>
      obtain ⟨nonce, coords⟩ := drawn
      have short : leafIndex.toNat >>> kp.subtreeH < 2 ^ 32 :=
        Nat.lt_of_le_of_lt (Nat.shiftRight_le _ _) leafIndex.isLt
      have real := siblings_eq (X.tree kp.skSeed kp.pkSeed) valid.subtreeH_le inside leafIndex.isLt
      have upper : (List.range (xmssH - kp.height)).mapM (kp.upper[·]?) = some kp.upper := by
        have length : kp.upper.length = xmssH - kp.height := by simp [valid.upper]
        rw [← length]
        exact mapM_getElem kp.upper
      simp only [X.loadSubtree_eq valid short, valid.top, real, fetch_some, upper,
        X.authPath_eq valid leafIndex]
      rfl
  · rw [check_false inside, if_neg inside]
    rfl

/-- The key material a call leaves alone. -/
structure SameKey (kp kp' : XmssKeypair) : Prop where
  skSeed : kp'.skSeed = kp.skSeed
  pkSeed : kp'.pkSeed = kp.pkSeed
  height : kp'.height = kp.height
  root : kp'.root = kp.root

theorem SameKey.trans {kp kp' kp'' : XmssKeypair} (first : SameKey kp kp')
    (second : SameKey kp' kp'') : SameKey kp kp'' where
  skSeed := second.skSeed.trans first.skSeed
  pkSeed := second.pkSeed.trans first.pkSeed
  height := second.height.trans first.height
  root := second.root.trans first.root

/-- What a returned signature is: a function of the key, the leaf, the message and the nonce. -/
theorem keypairSign_ok {kp kp' : XmssKeypair} (valid : X.Valid kp) {leafIndex : Word}
    {message : List Byte} {nonces : List Nonce} {sig : XmssSig}
    (signed : X.keypairSign kp leafIndex message nonces = .ok (sig, kp')) :
    X.Valid kp' ∧ SameKey kp kp' ∧ X.verify kp.pkSeed kp.root message sig = true ∧
      sig = X.signature kp.skSeed kp.pkSeed kp.height leafIndex sig.nonce
        (xmssExtractCoords (X.hashMessage kp.pkSeed leafIndex sig.nonce message)).1 := by
  rw [X.keypairSign_eq valid] at signed
  split at signed
  case isFalse => cases signed
  case isTrue inside =>
    generalize found : X.grindNonce kp.pkSeed leafIndex message nonces = drawn at signed
    obtain _ | ⟨nonce, coords⟩ := drawn
    · cases signed
    · obtain ⟨rfl, rfl⟩ := Prod.mk.inj (Except.ok.inj signed)
      obtain ⟨extracted, sum⟩ := X.grindNonce_eq_some found
      constructor
      · exact ⟨valid.height_le, valid.subtreeH_le, valid.top, rfl, valid.upper, valid.root⟩
      constructor
      · exact ⟨rfl, rfl, rfl, rfl⟩
      constructor
      · rw [valid.root]
        exact X.verify_signature _ _ valid.height_le inside extracted sum
      · have coords : (xmssExtractCoords (X.hashMessage kp.pkSeed leafIndex nonce message)).1 =
          coords := by rw [extracted]
        exact congrArg _ coords.symm

theorem keypairSign_isOk {kp : XmssKeypair} (valid : X.Valid kp) {leafIndex : Word}
    {message : List Byte} {nonces : List Nonce} :
    (∃ result, X.keypairSign kp leafIndex message nonces = .ok result) ↔
      leafIndex.toNat < 2 ^ kp.height ∧
        ∃ found, X.grindNonce kp.pkSeed leafIndex message nonces = some found := by
  rw [X.keypairSign_eq valid]
  split
  case isTrue inside =>
    cases X.grindNonce kp.pkSeed leafIndex message nonces with
    | none => simp
    | some found => simp [inside]
  case isFalse outside => simp [outside]

theorem keypairSign_inBounds {kp : XmssKeypair} (valid : X.Valid kp) (leafIndex : Word)
    (message : List Byte) (nonces : List Nonce) :
    X.keypairSign kp leafIndex message nonces ≠ .error .outOfBounds := by
  rw [X.keypairSign_eq valid]
  split
  · cases X.grindNonce kp.pkSeed leafIndex message nonces <;> simp
  · simp

structure SignCall where
  leafIndex : Word
  message : List Byte
  nonces : List Nonce

/-- Calls one after the other; a call that returns 0 leaves the key pair as it is. -/
def keypairSigns (kp : XmssKeypair) : List SignCall → Checked Unit XmssKeypair
  | [] => .ok kp
  | call :: calls =>
    match X.keypairSign kp call.leafIndex call.message call.nonces with
    | .ok (_, kp) => keypairSigns kp calls
    | .error (.check _) => keypairSigns kp calls
    | .error .outOfBounds => .error .outOfBounds

theorem keypairSigns_valid (calls : List SignCall) {kp : XmssKeypair} (valid : X.Valid kp) :
    ∃ kp', X.keypairSigns kp calls = .ok kp' ∧ X.Valid kp' ∧ SameKey kp kp' := by
  induction calls generalizing kp with
  | nil => exact ⟨kp, rfl, valid, rfl, rfl, rfl, rfl⟩
  | cons call calls ih =>
    have bounds := X.keypairSign_inBounds valid call.leafIndex call.message call.nonces
    rw [keypairSigns]
    generalize result : X.keypairSign kp call.leafIndex call.message call.nonces = step at bounds
    match step with
    | .ok (sig, next) =>
      obtain ⟨valid', same, _, _⟩ := X.keypairSign_ok valid result
      obtain ⟨kp', ran, valid'', same'⟩ := ih valid'
      exact ⟨kp', ran, valid'', same.trans same'⟩
    | .error (.check _) => exact ih valid
    | .error .outOfBounds => exact absurd rfl bounds

/-- A call signs a leaf below the capacity as soon as a nonce is found. Every signature of a key pair
verifies under its root and is the one signature of its leaf, message and nonce, whatever the split
and the calls before; no read is out of range. -/
theorem keypair_signatures (skSeed : Vector Byte 32) (pkSeed : PkSeed) (height subtreeH : Nat)
    (inside : 1 ≤ height ∧ height ≤ xmssH) (split : 1 ≤ subtreeH ∧ subtreeH ≤ height) :
    ∃ kp, X.keypairNewSplit skSeed pkSeed height subtreeH = .ok kp ∧
      kp.root = X.treeRoot skSeed pkSeed height ∧
      ∀ calls, ∃ kp', X.keypairSigns kp calls = .ok kp' ∧ kp'.root = kp.root ∧
        ∀ leafIndex message nonces,
          (2 ^ height ≤ leafIndex.toNat →
            X.keypairSign kp' leafIndex message nonces = .error (.check ())) ∧
          X.keypairSign kp' leafIndex message nonces ≠ .error .outOfBounds ∧
          ((∃ result, X.keypairSign kp' leafIndex message nonces = .ok result) ↔
            leafIndex.toNat < 2 ^ height ∧
              ∃ found, X.grindNonce pkSeed leafIndex message nonces = some found) ∧
          ∀ sig kp'', X.keypairSign kp' leafIndex message nonces = .ok (sig, kp'') →
            X.verify pkSeed kp.root message sig = true ∧
            sig = X.signature skSeed pkSeed height leafIndex sig.nonce
              (xmssExtractCoords (X.hashMessage pkSeed leafIndex sig.nonce message)).1 := by
  obtain ⟨kp, built, valid, rfl, rfl, rfl⟩ := X.keypairNewSplit_valid skSeed pkSeed inside split
  refine ⟨kp, built, valid.root, fun calls => ?_⟩
  obtain ⟨kp', ran, valid', same⟩ := X.keypairSigns_valid calls valid
  refine ⟨kp', ran, same.root, fun leafIndex message nonces => ⟨fun full => ?_,
    X.keypairSign_inBounds valid' _ _ _, ?_, fun sig kp'' signed => ?_⟩⟩
  · rw [X.keypairSign_eq valid', same.height, if_neg (Nat.not_lt.mpr full)]
  · rw [← same.height, ← same.pkSeed]
    exact X.keypairSign_isOk valid'
  · obtain ⟨_, _, verified, honest⟩ := X.keypairSign_ok valid' signed
    rw [same.pkSeed, same.root] at verified
    rw [same.skSeed, same.pkSeed, same.height] at honest
    exact ⟨verified, honest⟩

end XmssHashes

/-- A digest whose 42 digits add up to 195. -/
def sampleDigest : Vector Byte 32 :=
  Vector.ofFn fun i : Fin 32 => if i.val = 7 then 0x7f else if i.val < 10 then 0xff
    else if i.val = 10 then 0x1b else 0

/-- A nonce from its number. -/
def sampleNonce (n : Nat) : Nonce := Vector.ofFn fun i : Fin 24 => BitVec.ofNat 8 (n / 256 ^ i.val)

/-- A key of eight leaves in two subtrees signs in the first one and then in the second one. -/
theorem keypair_signatures_two_subtrees :
    ∃ X kp sig₁ kp₁ sig₂ kp₂, X = xmssHashes singleChunkBlake3.toHasher ∧
      X.keypairNewSplit (.replicate _ 1) (.replicate _ 2) 3 2 = .ok kp ∧
      X.keypairSign kp 1 [1] [sampleNonce 0, sampleNonce 24885] = .ok (sig₁, kp₁) ∧
      X.verify (.replicate _ 2) kp.root [1] sig₁ = true ∧
      X.keypairSign kp₁ 6 [3] [sampleNonce 24208] = .ok (sig₂, kp₂) ∧
      X.verify (.replicate _ 2) kp.root [3] sig₂ = true := by
  let X := xmssHashes singleChunkBlake3.toHasher
  have found₁ : (X.grindNonce (.replicate _ 2) 1 [1] [sampleNonce 0, sampleNonce 24885]).isSome := by
    decide +kernel
  have found₂ : (X.grindNonce (.replicate _ 2) 6 [3] [sampleNonce 24208]).isSome := by decide +kernel
  obtain ⟨kp, built, -, runs⟩ := X.keypair_signatures (.replicate _ 1) (.replicate _ 2) 3 2
    ⟨by decide, by decide⟩ ⟨by decide, by decide⟩
  obtain ⟨_, ⟨⟩, -, calls⟩ := runs []
  obtain ⟨-, -, signs, verifies⟩ := calls 1 [1] [sampleNonce 0, sampleNonce 24885]
  obtain ⟨⟨sig₁, kp₁⟩, signed₁⟩ := signs.mpr ⟨by decide, Option.isSome_iff_exists.mp found₁⟩
  obtain ⟨kp', ran, -, calls'⟩ := runs [⟨1, [1], [sampleNonce 0, sampleNonce 24885]⟩]
  simp only [XmssHashes.keypairSigns, signed₁] at ran
  obtain rfl := Except.ok.inj ran
  obtain ⟨-, -, signs', verifies'⟩ := calls' 6 [3] [sampleNonce 24208]
  obtain ⟨⟨sig₂, kp₂⟩, signed₂⟩ := signs'.mpr ⟨by decide, Option.isSome_iff_exists.mp found₂⟩
  exact ⟨X, kp, sig₁, kp₁, sig₂, kp₂, rfl, built, signed₁, (verifies _ _ signed₁).1, signed₂,
    (verifies' _ _ signed₂).1⟩

end KeyPair

end BlindSig.Kkw
