import Mathlib.Logic.Function.Basic
import Mathlib.Tactic.Ring

/-! Binary Merkle trees over any compression: the nodes, the way up from a leaf along its siblings,
and what a way that ends in a node of the tree says of its start when no two of the pairs that are
compressed collide. -/
namespace BlindSig.MerkleTree

variable {D : Type} (compress : D → D → D)

/-- Node `i` at height `h`. -/
def node (leaves : Nat → D) : Nat → Nat → D
  | 0, i => leaves i
  | h + 1, i => compress (node leaves h (2 * i)) (node leaves h (2 * i + 1))

/-- The index of the other child of the parent. -/
def beside (i : Nat) : Nat := if i % 2 = 0 then i + 1 else i - 1

/-- The children of a parent, from the one at index `i` and its sibling. -/
def pairOf (i : Nat) (x sibling : D) : D × D := if i % 2 = 0 then (x, sibling) else (sibling, x)

/-- Up from `x` at index `i`, with a sibling for every step. -/
def climb : List D → Nat → D → D
  | [], _, x => x
  | sibling :: path, i, x =>
    climb path (i / 2) (compress (pairOf i x sibling).1 (pairOf i x sibling).2)

/-- The siblings of `k` steps up from node `i` at height `h`. -/
def siblings (leaves : Nat → D) : Nat → Nat → Nat → List D
  | _, 0, _ => []
  | h, k + 1, i => node compress leaves h (beside i) :: siblings leaves (h + 1) k (i / 2)

/-- The pairs that are compressed on the way up. -/
def climbed : List D → Nat → D → List (D × D)
  | [], _, _ => []
  | sibling :: path, i, x => pairOf i x sibling ::
    climbed path (i / 2) (compress (pairOf i x sibling).1 (pairOf i x sibling).2)

/-- The pairs that are compressed below node `i` at a height. -/
def compressed (leaves : Nat → D) : Nat → Nat → List (D × D)
  | 0, _ => []
  | h + 1, i => (node compress leaves h (2 * i), node compress leaves h (2 * i + 1)) ::
    (compressed leaves h (2 * i) ++ compressed leaves h (2 * i + 1))

/-- No pair of the one list collides with another one of the other list. -/
def Free (pairs pairs' : List (D × D)) : Prop :=
  ∀ p ∈ pairs, ∀ q ∈ pairs', compress p.1 p.2 = compress q.1 q.2 → p = q

variable {compress} {leaves leaves' : Nat → D}

theorem Free.mono {pairs pairs' few few' : List (D × D)} (free : Free compress pairs pairs')
    (sub : few ⊆ pairs) (sub' : few' ⊆ pairs') : Free compress few few' :=
  fun p hp q hq same => free p (sub hp) q (sub' hq) same

@[simp] theorem length_siblings (h k i : Nat) : (siblings compress leaves h k i).length = k := by
  induction k generalizing h i with
  | zero => rfl
  | succ k ih => rw [siblings, List.length_cons, ih]

/-- Only the leaves below a node count. -/
theorem node_congr {h n i : Nat} (same : ∀ j < 2 ^ (h + n), leaves j = leaves' j)
    (inside : i < 2 ^ n) : node compress leaves h i = node compress leaves' h i := by
  induction h generalizing n i with
  | zero => exact same i (by rwa [Nat.zero_add])
  | succ h ih =>
    have same' : ∀ j < 2 ^ (h + (n + 1)), leaves j = leaves' j := by
      rw [← Nat.add_assoc, Nat.add_right_comm]
      exact same
    have below : 2 * i + 1 < 2 ^ (n + 1) := by
      rw [Nat.pow_succ]
      omega
    rw [node, node, ih same' (Nat.lt_of_succ_lt below), ih same' below]

theorem siblings_congr {h k n i : Nat} (same : ∀ j < 2 ^ (h + k + n), leaves j = leaves' j)
    (inside : i < 2 ^ (k + n)) :
    siblings compress leaves h k i = siblings compress leaves' h k i := by
  induction k generalizing h i with
  | zero => rfl
  | succ k ih =>
    have size : 2 ^ (k + 1 + n) = 2 * 2 ^ (k + n) := by
      rw [Nat.add_right_comm, Nat.pow_succ']
    have other : beside i < 2 ^ (k + 1 + n) := by
      rw [beside]
      split <;> omega
    rw [siblings, siblings, node_congr (by rwa [← Nat.add_assoc, ← Nat.add_assoc]) other,
      ih (by rwa [Nat.add_right_comm h 1 k]) (by omega)]

/-- The children of a parent, in their places. -/
theorem pairOf_beside (h i : Nat) :
    pairOf i (node compress leaves h i) (node compress leaves h (beside i)) =
      (node compress leaves h (2 * (i / 2)), node compress leaves h (2 * (i / 2) + 1)) := by
  rw [pairOf, beside]
  rcases Nat.mod_two_eq_zero_or_one i with even | odd
  · rw [if_pos even, if_pos even, show 2 * (i / 2) = i by omega]
  · have here : ¬ i % 2 = 0 := by omega
    rw [if_neg here, if_neg here, show 2 * (i / 2) = i - 1 by omega, show i - 1 + 1 = i by omega]

variable (compress leaves) in
theorem climb_siblings (h k i : Nat) :
    climb compress (siblings compress leaves h k i) i (node compress leaves h i) =
      node compress leaves (h + k) (i / 2 ^ k) := by
  induction k generalizing h i with
  | zero => simp [siblings, climb]
  | succ k ih =>
    have parent := ih (h + 1) (i / 2)
    rw [Nat.div_div_eq_div_mul, ← Nat.pow_succ', Nat.succ_add] at parent
    rw [siblings, climb, pairOf_beside]
    exact parent

/-- The nodes over a level of nodes. -/
theorem node_node (h k i : Nat) :
    node compress (node compress leaves h) k i = node compress leaves (h + k) i := by
  induction k generalizing i with
  | zero => rfl
  | succ k ih => rw [node, ih, ih, ← Nat.add_assoc, node]

variable (compress leaves) in
/-- The children of every node below another one are among its pairs. -/
theorem children_mem (h e j : Nat) :
    (node compress leaves h (2 * j), node compress leaves h (2 * j + 1)) ∈
      compressed compress leaves (h + 1 + e) (j / 2 ^ e) := by
  induction e generalizing j with
  | zero => simp [compressed]
  | succ e ih =>
    have half : j / 2 ^ e / 2 = j / 2 ^ (e + 1) := by
      rw [Nat.div_div_eq_div_mul, Nat.pow_succ]
    have below := ih j
    rw [← Nat.add_assoc, compressed, ← half]
    apply List.mem_cons_of_mem
    rw [List.mem_append]
    rcases Nat.mod_two_eq_zero_or_one (j / 2 ^ e) with even | odd
    · left
      rwa [show 2 * (j / 2 ^ e / 2) = j / 2 ^ e by omega]
    · right
      rwa [show 2 * (j / 2 ^ e / 2) + 1 = j / 2 ^ e by omega]

variable (compress leaves) in
/-- The pairs of the levels above a level of nodes are pairs of the tree. -/
theorem compressed_node (h k i : Nat) :
    compressed compress (node compress leaves h) k i ⊆ compressed compress leaves (h + k) i := by
  induction k generalizing i with
  | zero => simp [compressed]
  | succ k ih =>
    rw [compressed, ← Nat.add_assoc, compressed, node_node, node_node]
    apply List.cons_subset_cons
    exact List.append_subset.mpr ⟨fun p hp => List.mem_append_left _ (ih _ hp),
      fun p hp => List.mem_append_right _ (ih _ hp)⟩

theorem leaves_of_node {k i : Nat}
    (free : Free compress (compressed compress leaves k i) (compressed compress leaves' k i))
    (same : node compress leaves k i = node compress leaves' k i) :
    ∀ j, 2 ^ k * i ≤ j → j < 2 ^ k * (i + 1) → leaves j = leaves' j := by
  induction k generalizing i with
  | zero =>
    intro j low high
    obtain rfl : j = i := by omega
    exact same
  | succ k ih =>
    intro j low high
    obtain ⟨left, right⟩ := Prod.mk.inj
      (free _ List.mem_cons_self _ List.mem_cons_self same)
    have double (m : Nat) : 2 ^ (k + 1) * m = 2 ^ k * (2 * m) := by
      rw [Nat.pow_succ, Nat.mul_assoc]
    rw [double] at low high
    rcases Nat.lt_or_ge j (2 ^ k * (2 * i + 1)) with front | back
    · refine ih (free.mono ?_ ?_) left j low front
      · exact fun p hp => List.mem_cons_of_mem _ (List.mem_append_left _ hp)
      · exact fun p hp => List.mem_cons_of_mem _ (List.mem_append_left _ hp)
    · refine ih (free.mono ?_ ?_) right j back high
      · exact fun p hp => List.mem_cons_of_mem _ (List.mem_append_right _ hp)
      · exact fun p hp => List.mem_cons_of_mem _ (List.mem_append_right _ hp)

/-- Trees of one root have the same leaves. -/
theorem leaves_of_root {k : Nat}
    (free : Free compress (compressed compress leaves k 0) (compressed compress leaves' k 0))
    (same : node compress leaves k 0 = node compress leaves' k 0) :
    ∀ j < 2 ^ k, leaves j = leaves' j := by
  intro j inside
  exact leaves_of_node free same j (by simp) (by simpa using inside)

/-- A way that ends in the node over its start starts at that node. -/
theorem start_of_climb {path : List D} {h e i : Nat} {x : D} (inside : i < 2 ^ (path.length + e))
    (free : Free compress (climbed compress path i x)
      (compressed compress leaves (h + path.length + e) 0))
    (reached : climb compress path i x =
      node compress leaves (h + path.length) (i / 2 ^ path.length)) :
    x = node compress leaves h i := by
  induction path generalizing h i x with
  | nil => simpa [climb] using reached
  | cons sibling path ih =>
    have raised : h + (path.length + 1) = h + 1 + path.length := by omega
    have half : i / 2 < 2 ^ (path.length + e) := by
      rw [List.length_cons, Nat.add_right_comm, Nat.pow_succ] at inside
      omega
    rw [climb, List.length_cons, Nat.pow_succ', ← Nat.div_div_eq_div_mul, raised] at reached
    rw [List.length_cons, raised, climbed] at free
    have parent := ih half (free.mono (List.subset_cons_self _ _) (List.Subset.refl _)) reached
    have member := children_mem compress leaves h (path.length + e) (i / 2)
    rw [Nat.div_eq_of_lt half, ← Nat.add_assoc] at member
    have pairs := free _ List.mem_cons_self _ member parent
    rw [← pairOf_beside, pairOf, pairOf] at pairs
    split at pairs
    · exact (Prod.mk.inj pairs).1
    · exact (Prod.mk.inj pairs).2

end BlindSig.MerkleTree
