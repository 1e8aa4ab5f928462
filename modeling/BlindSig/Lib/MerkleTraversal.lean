import BlindSig.Lib.Bytes
import Mathlib.Data.Nat.Bitwise
import Mathlib.Tactic.Ring

/-! A Merkle tree kept in two parts: the levels of one bottom subtree, rebuilt on demand, and
the levels above all bottom subtrees. Reads of both are checked; the authentication path read
off them is the one of the whole tree. -/
namespace BlindSig

/-- The hashes of a tree. The tweaks of a node are the level of its children and its index. -/
structure TreeHash (α : Type) where
  leaf : Word → α
  node : Nat → Word → α → α → α

section Indices

/-- `a - b` on 64-bit words. -/
def sub64 (a b : Nat) : Nat := (a + 2 ^ 64 - b) % 2 ^ 64

theorem sub64_eq {a b : Nat} (h : b ≤ a) (ha : a < 2 ^ 64) : sub64 a b = a - b := by
  unfold sub64
  omega

theorem xor_one (n : Nat) : n ^^^ 1 = 2 * (n / 2) + (1 - n % 2) := by
  have half : (n ^^^ 1) / 2 = n / 2 := by simp [Nat.xor_div_two]
  have low : (n ^^^ 1) % 2 = 1 - n % 2 := by
    rw [Nat.xor_mod_two_eq]
    omega
  omega

theorem shiftRight_step (i h : Nat) : i >>> h = 2 * (i >>> (h + 1)) + (i >>> h) % 2 := by
  rw [Nat.shiftRight_succ]
  omega

theorem shiftRight_eq_zero {i height : Nat} (inside : i < 2 ^ height) (h : Nat) :
    i >>> (height + h) = 0 := by
  rw [Nat.shiftRight_eq_div_pow]
  exact Nat.div_eq_of_lt (Nat.lt_of_lt_of_le inside (Nat.pow_le_pow_right (by decide)
    (Nat.le_add_right _ _)))

/-- The sibling of a node lies in the same block of `2 ^ (e + 1)`. -/
theorem xor_one_div (n e : Nat) : (n ^^^ 1) / 2 ^ (e + 1) = n / 2 ^ (e + 1) := by
  have half : (n ^^^ 1) / 2 = n / 2 := by simp [Nat.xor_div_two]
  rw [Nat.pow_succ', ← Nat.div_div_eq_div_mul, half, Nat.div_div_eq_div_mul]

theorem foldlM_range {f : σ → Nat → Option σ} (s : Nat → σ) (n : Nat)
    (step : ∀ h < n, f (s h) h = some (s (h + 1))) :
    (List.range n).foldlM f (s 0) = some (s n) := by
  induction n with
  | zero => rfl
  | succ n ih =>
    rw [List.range_succ, List.foldlM_append, ih fun h hh => step h (Nat.lt_succ_of_lt hh)]
    simp [step n (Nat.lt_succ_self n)]

theorem mapM_range {f : Nat → Option α} (v : Nat → α) (n : Nat)
    (read : ∀ j < n, f j = some (v j)) :
    (List.range n).mapM f = some ((List.range n).map v) := by
  induction n with
  | zero => rfl
  | succ n ih =>
    rw [List.range_succ, List.mapM_append, ih fun j hj => read j (Nat.lt_succ_of_lt hj)]
    simp [read n (Nat.lt_succ_self n)]

theorem mapM_getElem (l : List α) : (List.range l.length).mapM (l[·]?) = some l := by
  cases l with
  | nil => rfl
  | cons x xs =>
    rw [mapM_range ((x :: xs).getD · x) _ fun j hj => by
      rw [List.getElem?_eq_getElem hj, List.getD_eq_getElem _ _ hj]]
    congr 1
    apply List.ext_getElem
    · simp
    · intro i _ hi
      rw [List.getElem_map, List.getElem_range, List.getD_eq_getElem _ _ hi]

end Indices

namespace TreeHash

variable (T : TreeHash α)

/-- Node `i` of level `h` of the whole tree. -/
def value : Nat → Nat → α
  | 0, i => T.leaf (BitVec.ofNat 32 i)
  | h + 1, i => T.node h (BitVec.ofNat 32 i) (value h (2 * i)) (value h (2 * i + 1))

/-- `h` steps up from node `x` in place of leaf `i`. -/
def climb (path : Nat → α) (i : Nat) (x : α) : Nat → α
  | 0 => x
  | h + 1 =>
    let index := BitVec.ofNat 32 (i >>> (h + 1))
    if (i >>> h) % 2 = 0 then T.node h index (climb path i x h) (path h)
    else T.node h index (path h) (climb path i x h)

/-- `k` steps up the left border from a node of level `height`. -/
def climbLeft (path : Nat → α) (height : Nat) (x : α) : Nat → α
  | 0 => x
  | k + 1 => T.node (height + k) 0 (climbLeft path height x k) (path (height + k))

theorem climb_value (path : Nat → α) (i h : Nat)
    (siblings : ∀ g < h, path g = T.value g ((i >>> g) ^^^ 1)) :
    T.climb path i (T.value 0 i) h = T.value h (i >>> h) := by
  induction h with
  | zero => rfl
  | succ h ih =>
    have below := shiftRight_step i h
    have sibling := xor_one (i >>> h)
    rw [climb, ih fun g hg => siblings g (Nat.lt_succ_of_lt hg), siblings h (Nat.lt_succ_self h),
      value]
    split
    · rw [show i >>> h = 2 * (i >>> (h + 1)) by omega, xor_one]
      congr 2
      omega
    · rw [show (i >>> h) ^^^ 1 = 2 * (i >>> (h + 1)) by omega,
        show i >>> h = 2 * (i >>> (h + 1)) + 1 by omega]

/-- Above its height a leaf is always on the left. -/
theorem climb_above (path : Nat → α) {i height : Nat} (inside : i < 2 ^ height) (x : α) (k : Nat) :
    T.climb path i x (height + k) = T.climbLeft path height (T.climb path i x height) k := by
  induction k with
  | zero => rfl
  | succ k ih =>
    have here : i >>> (height + k) = 0 := shiftRight_eq_zero inside k
    have next : i >>> (height + k + 1) = 0 := shiftRight_eq_zero inside (k + 1)
    rw [← Nat.add_assoc, climb, here, next, if_pos rfl, ih]
    rfl

/-- The siblings of a leaf lead to the root of the tree, and then along the left border. -/
theorem climb_root (path : Nat → α) {i height : Nat} (inside : i < 2 ^ height)
    (siblings : ∀ g < height, path g = T.value g ((i >>> g) ^^^ 1)) (k : Nat) :
    T.climb path i (T.value 0 i) (height + k) = T.climbLeft path height (T.value height 0) k := by
  have root : i >>> height = 0 := shiftRight_eq_zero inside 0
  rw [T.climb_above path inside, T.climb_value path i height siblings, root]

end TreeHash

section Levels

/-- The node `j` of level `h`, if both exist. -/
def readNode (levels : List (List α)) (h j : Nat) : Option α := levels[h]?.bind (·[j]?)

/-- A level from the one below, with the hash of node `j` given its children. -/
def buildLevel (prev : List α) (n : Nat) (f : Nat → α → α → α) : Option (List α) :=
  (List.range n).mapM fun j => do
    let left ← prev[2 * j]?
    let right ← prev[2 * j + 1]?
    return f j left right

/-- `h` levels over `row`, in a tree of `w` levels. -/
def buildLevels (w : Nat) (f : Nat → Nat → α → α → α) (row : List α) :
    Nat → Option (List (List α))
  | 0 => some [row]
  | h + 1 => do
    let levels ← buildLevels w f row h
    let prev ← levels[h]?
    let level ← buildLevel prev (1 <<< (w - (h + 1))) (f (h + 1))
    return levels ++ [level]

theorem buildLevels_congr {f g : Nat → Nat → α → α → α} (same : ∀ h j, f (h + 1) j = g (h + 1) j)
    (w : Nat) (row : List α) (h : Nat) : buildLevels w f row h = buildLevels w g row h := by
  have funs (h : Nat) : f (h + 1) = g (h + 1) := funext (same h)
  induction h with
  | zero => rfl
  | succ h ih => rw [buildLevels, buildLevels, ih, funs]

/-- The levels up to `h` when node `j` of level `g` is `v g j`. -/
def filled (w : Nat) (v : Nat → Nat → α) (h : Nat) : List (List α) :=
  (List.range (h + 1)).map fun g => (List.range (2 ^ (w - g))).map (v g)

theorem readNode_filled {w h g j : Nat} (v : Nat → Nat → α) (hg : g ≤ h) (hj : j < 2 ^ (w - g)) :
    readNode (filled w v h) g j = some (v g j) := by
  have level : (filled w v h)[g]? = some ((List.range (2 ^ (w - g))).map (v g)) := by
    simp [filled, Nat.lt_succ_of_le hg]
  simp [readNode, level, hj]

theorem buildLevels_eq {w : Nat} {f : Nat → Nat → α → α → α} (v : Nat → Nat → α)
    (step : ∀ h < w, ∀ j < 2 ^ (w - (h + 1)),
      v (h + 1) j = f (h + 1) j (v h (2 * j)) (v h (2 * j + 1))) (h : Nat) (hh : h ≤ w) :
    buildLevels w f ((List.range (2 ^ w)).map (v 0)) h = some (filled w v h) := by
  induction h with
  | zero => rfl
  | succ h ih =>
    have last : (filled w v h)[h]? = some ((List.range (2 ^ (w - h))).map (v h)) := by
      simp [filled]
    have width : 2 ^ (w - h) = 2 * 2 ^ (w - (h + 1)) := by
      rw [← Nat.pow_succ']
      congr 1
      omega
    have level : buildLevel ((List.range (2 ^ (w - h))).map (v h)) (1 <<< (w - (h + 1)))
        (f (h + 1)) = some ((List.range (2 ^ (w - (h + 1)))).map (v (h + 1))) := by
      rw [buildLevel, Nat.one_shiftLeft]
      refine mapM_range _ _ fun j hj => ?_
      have left : ((List.range (2 ^ (w - h))).map (v h))[2 * j]? = some (v h (2 * j)) := by
        simp [show 2 * j < 2 ^ (w - h) by omega]
      have right : ((List.range (2 ^ (w - h))).map (v h))[2 * j + 1]? =
          some (v h (2 * j + 1)) := by
        simp [show 2 * j + 1 < 2 ^ (w - h) by omega]
      simp [left, right, step h (by omega) j hj]
    rw [buildLevels, ih (by omega)]
    simp only [Option.bind_eq_bind, Option.bind_some, last, level, Option.pure_def]
    simp [filled, List.range_succ]

end Levels

section Build

variable (T : TreeHash α)

/-- The levels of the bottom subtree `s`, from its leaves. -/
def TreeHash.buildSubtree (s subtreeH : Nat) : Option (List (List α)) :=
  buildLevels subtreeH
    (fun h j => T.node (h - 1) (BitVec.ofNat 32 (s <<< (subtreeH - h) + j)))
    ((List.range (1 <<< subtreeH)).map fun j => T.leaf (BitVec.ofNat 32 (s <<< subtreeH + j)))
    subtreeH

/-- The levels above the bottom subtrees, from their roots. -/
def TreeHash.buildTop (roots : List α) (subtreeH topH : Nat) : Option (List (List α)) :=
  buildLevels topH (fun r i => T.node (subtreeH + r - 1) (BitVec.ofNat 32 i)) roots topH

/-- The bottom subtree `s` of the whole tree. -/
def bottomLevels (subtreeH s : Nat) : List (List α) :=
  filled subtreeH (fun h j => T.value h (s * 2 ^ (subtreeH - h) + j)) subtreeH

/-- The levels of the whole tree from `subtreeH` to `height`. -/
def topLevels (height subtreeH : Nat) : List (List α) :=
  filled (height - subtreeH) (fun r j => T.value (subtreeH + r) j) (height - subtreeH)

theorem buildSubtree_eq (s subtreeH : Nat) :
    T.buildSubtree s subtreeH = some (bottomLevels T subtreeH s) := by
  rw [TreeHash.buildSubtree, Nat.one_shiftLeft]
  have leaves : (List.range (2 ^ subtreeH)).map
      (fun j => T.leaf (BitVec.ofNat 32 (s <<< subtreeH + j))) =
      (List.range (2 ^ subtreeH)).map (fun j => T.value 0 (s * 2 ^ (subtreeH - 0) + j)) := by
    simp [TreeHash.value, Nat.shiftLeft_eq]
  rw [leaves]
  refine buildLevels_eq (fun h j => T.value h (s * 2 ^ (subtreeH - h) + j)) ?_ subtreeH
    (Nat.le_refl _)
  intro h hh j _
  have double : s * 2 ^ (subtreeH - h) = 2 * (s * 2 ^ (subtreeH - (h + 1))) := by
    rw [show subtreeH - h = subtreeH - (h + 1) + 1 by omega, Nat.pow_succ]
    ring
  simp only [TreeHash.value, Nat.add_sub_cancel, Nat.shiftLeft_eq, double]
  congr 2 <;> ring

theorem buildTop_eq {height subtreeH : Nat} :
    T.buildTop ((List.range (2 ^ (height - subtreeH))).map (T.value subtreeH)) subtreeH
      (height - subtreeH) = some (topLevels T height subtreeH) := by
  refine buildLevels_eq (fun r j => T.value (subtreeH + r) j) ?_ _ (Nat.le_refl _)
  intro r _ j _
  rfl

end Build

section Path

/-- One level of the bottom subtree `s`: its sibling, and the index shifted. -/
def bottomStep (bottom : List (List α)) (subtreeH s : Nat) (x : Nat × List α) (h : Nat) :
    Option (Nat × List α) := do
  let base := s <<< (subtreeH - h)
  let sibling ← readNode bottom h (sub64 (x.1 ^^^ 1) base)
  return (x.1 >>> 1, x.2 ++ [sibling])

/-- One level above the bottom subtrees. -/
def topStep (top : List (List α)) (x : Nat × List α) (r : Nat) : Option (Nat × List α) := do
  let sibling ← readNode top r (x.1 ^^^ 1)
  return (x.1 >>> 1, x.2 ++ [sibling])

/-- The siblings of `leaf` in the bottom subtree `s`, then in the levels above. -/
def siblings (height subtreeH : Nat) (bottom top : List (List α)) (s leaf : Nat) :
    Option (List α) := do
  let low ← (List.range subtreeH).foldlM (bottomStep bottom subtreeH s) (leaf, [])
  let high ← (List.range (height - subtreeH)).foldlM (topStep top) low
  return high.2

variable (T : TreeHash α)

/-- Where the sibling of a node stands in its bottom subtree. -/
theorem sibling_in_subtree {leaf subtreeH h : Nat} (hh : h < subtreeH) (short : leaf < 2 ^ 32) :
    let base := leaf >>> subtreeH <<< (subtreeH - h)
    sub64 ((leaf >>> h) ^^^ 1) base < 2 ^ (subtreeH - h) ∧
      base + sub64 ((leaf >>> h) ^^^ 1) base = (leaf >>> h) ^^^ 1 := by
  obtain ⟨e, depth⟩ : ∃ e, subtreeH - h = e + 1 := ⟨subtreeH - h - 1, by omega⟩
  have block : ((leaf >>> h) ^^^ 1) / 2 ^ (e + 1) = leaf >>> subtreeH := by
    rw [xor_one_div, Nat.shiftRight_eq_div_pow, Nat.div_div_eq_div_mul, ← Nat.pow_add,
      Nat.shiftRight_eq_div_pow]
    congr 2
    omega
  have parts := Nat.div_add_mod ((leaf >>> h) ^^^ 1) (2 ^ (e + 1))
  have below := Nat.mod_lt ((leaf >>> h) ^^^ 1) (Nat.two_pow_pos (e + 1))
  have small : (leaf >>> h) ^^^ 1 < 2 ^ 64 := by
    have := Nat.shiftRight_le leaf h
    have := xor_one (leaf >>> h)
    omega
  intro base
  have baseEq : base = 2 ^ (e + 1) * (leaf >>> subtreeH) := by
    simp only [base, depth, Nat.shiftLeft_eq, Nat.mul_comm]
  rw [block] at parts
  rw [depth, sub64_eq (by omega) small]
  omega

theorem siblings_eq {height subtreeH leaf : Nat} (le : subtreeH ≤ height)
    (inside : leaf < 2 ^ height) (short : leaf < 2 ^ 32) :
    siblings height subtreeH (bottomLevels T subtreeH (leaf >>> subtreeH))
      (topLevels T height subtreeH) (leaf >>> subtreeH) leaf =
      some ((List.range height).map fun h => T.value h ((leaf >>> h) ^^^ 1)) := by
  let path (h : Nat) : List α := (List.range h).map fun h => T.value h ((leaf >>> h) ^^^ 1)
  have grow (h : Nat) : path (h + 1) = path h ++ [T.value h ((leaf >>> h) ^^^ 1)] := by
    simp [path, List.range_succ]
  have lower := foldlM_range (fun h => (leaf >>> h, path h)) subtreeH
    (f := bottomStep (bottomLevels T subtreeH (leaf >>> subtreeH)) subtreeH (leaf >>> subtreeH))
    fun h hh => by
      obtain ⟨below, place⟩ := sibling_in_subtree hh short
      have read := readNode_filled (w := subtreeH)
        (fun h j => T.value h ((leaf >>> subtreeH) * 2 ^ (subtreeH - h) + j))
        (Nat.le_of_lt hh) below
      rw [← Nat.shiftLeft_eq, place] at read
      simp [bottomStep, bottomLevels, read, grow, Nat.shiftRight_succ]
  have upper := foldlM_range (fun r => (leaf >>> (subtreeH + r), path (subtreeH + r)))
    (height - subtreeH) (f := topStep (topLevels T height subtreeH)) fun r hr => by
      have below : (leaf >>> (subtreeH + r)) ^^^ 1 < 2 ^ (height - subtreeH - r) := by
        obtain ⟨e, depth⟩ : ∃ e, height - subtreeH - r = e + 1 :=
          ⟨height - subtreeH - r - 1, by omega⟩
        have block := xor_one_div (leaf >>> (subtreeH + r)) e
        rw [Nat.shiftRight_eq_div_pow, Nat.div_div_eq_div_mul, ← Nat.pow_add,
          show subtreeH + r + (e + 1) = height by omega, Nat.div_eq_of_lt inside] at block
        rw [depth, Nat.shiftRight_eq_div_pow]
        exact (Nat.div_eq_zero_iff_lt (Nat.two_pow_pos _)).mp block
      have read := readNode_filled (w := height - subtreeH)
        (fun r j => T.value (subtreeH + r) j) (Nat.le_of_lt hr) below
      have next := grow (subtreeH + r)
      simp [topStep, topLevels, read, ← Nat.add_assoc, next, Nat.shiftRight_succ]
  have start : path 0 = [] := rfl
  have total : subtreeH + (height - subtreeH) = height := Nat.add_sub_cancel' le
  simp only [Nat.shiftRight_zero, start] at lower
  simp only [Nat.add_zero, total] at upper
  simp [siblings, lower, upper, path]

end Path

end BlindSig
