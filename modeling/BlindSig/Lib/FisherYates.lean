import Mathlib.Data.Fintype.CardEmbedding
import Mathlib.Data.Nat.Factorial.BigOperators
import Mathlib.Algebra.BigOperators.Fin
import Mathlib.GroupTheory.Perm.Basic

/-! A partial shuffle: the first `τ` steps of Fisher–Yates on `M` entries, step `i` swapping entry
`i` with one of the entries from `i` on. The draws and the ordered selections correspond. -/
namespace BlindSig.FisherYates

variable {M : Nat}

/-- The exchange of two positions, if both are there. -/
def swapAt (M i j : Nat) : Equiv.Perm (Fin M) :=
  if inside : i < M ∧ j < M then Equiv.swap ⟨i, inside.1⟩ ⟨j, inside.2⟩ else 1

/-- Where the entries stand after `i` steps. -/
def arrangement (M : Nat) (draws : Nat → Nat) (i : Nat) : Equiv.Perm (Fin M) :=
  (List.range i).foldl (fun σ k => σ * swapAt M k (k + draws k)) 1

theorem arrangement_succ (draws : Nat → Nat) (i : Nat) :
    arrangement M draws (i + 1) = arrangement M draws i * swapAt M i (i + draws i) := by
  rw [arrangement, List.range_succ, List.foldl_append]
  rfl

theorem arrangement_congr {draws draws' : Nat → Nat} {i : Nat}
    (same : ∀ k, k < i → draws k = draws' k) : arrangement M draws i = arrangement M draws' i := by
  induction i with
  | zero => rfl
  | succ i ih =>
    rw [arrangement_succ, arrangement_succ, ih fun k below => same k (Nat.lt_succ_of_lt below),
      same i (Nat.lt_succ_self i)]

theorem swapAt_left {i j : Nat} (hi : i < M) (hj : j < M) : swapAt M i j ⟨i, hi⟩ = ⟨j, hj⟩ := by
  rw [swapAt, dif_pos ⟨hi, hj⟩, Equiv.swap_apply_left]

theorem swapAt_below {i j : Nat} {k : Fin M} (hi : k.val < i) (hj : k.val < j) :
    swapAt M i j k = k := by
  unfold swapAt
  split
  · apply Equiv.swap_apply_of_ne_of_ne
    · exact fun same => Nat.ne_of_lt hi (congrArg Fin.val same)
    · exact fun same => Nat.ne_of_lt hj (congrArg Fin.val same)
  · rfl

/-- An array whose entries are exchanged if both are there. -/
theorem get_swapIfInBounds {α : Type} (v : Vector α M) (i j : Nat) (k : Fin M) :
    (v.swapIfInBounds i j).get k = v.get (swapAt M i j k) := by
  obtain ⟨xs, size⟩ := v
  subst size
  have entry := Array.getElem_swapIfInBounds (i := i) (j := j) (k := k.val)
    (show k.val < (xs.swapIfInBounds i j).size by simp)
  refine Eq.trans entry ?_
  by_cases inside : i < xs.size ∧ j < xs.size
  · have moved : swapAt xs.size i j k = if k = ⟨i, inside.1⟩ then ⟨j, inside.2⟩ else
        if k = ⟨j, inside.2⟩ then ⟨i, inside.1⟩ else k := by
      rw [swapAt, dif_pos inside, Equiv.swap_apply_def]
    rw [moved]
    by_cases left : k.val = i
    · rw [dif_pos ⟨left, inside.2⟩, if_pos (Fin.ext left)]
      rfl
    · rw [dif_neg fun both => left both.1, if_neg fun same => left (congrArg Fin.val same)]
      by_cases right : k.val = j
      · rw [dif_pos ⟨right, inside.1⟩, if_pos (Fin.ext right)]
        rfl
      · rw [dif_neg fun both => right both.1, if_neg fun same => right (congrArg Fin.val same)]
        rfl
  · have kept : swapAt xs.size i j k = k := by
      rw [swapAt, dif_neg inside]
      rfl
    have bound := k.isLt
    rw [kept, dif_neg (by omega), dif_neg (by omega)]
    rfl

/-- Position `k` is settled by step `k`. -/
theorem arrangement_settled {draws : Nat → Nat} {k τ : Nat} (below : k < τ)
    (inside : k + draws k < M) : arrangement M draws τ ⟨k, Nat.lt_of_le_of_lt (Nat.le_add_right _ _) inside⟩ =
      arrangement M draws k ⟨k + draws k, inside⟩ := by
  induction τ with
  | zero => exact absurd below (Nat.not_lt_zero k)
  | succ τ ih =>
    rw [arrangement_succ, Equiv.Perm.mul_apply]
    rcases Nat.lt_succ_iff_lt_or_eq.mp below with earlier | rfl
    · rw [swapAt_below earlier (Nat.lt_of_lt_of_le earlier (Nat.le_add_right _ _)), ih earlier]
    · rw [swapAt_left]

/-- Different draws select differently. -/
theorem draws_determined {draws draws' : Nat → Nat} {τ : Nat}
    (inside : ∀ k, k < τ → k + draws k < M) (inside' : ∀ k, k < τ → k + draws' k < M)
    (same : ∀ (k : Fin M), k.val < τ → arrangement M draws τ k = arrangement M draws' τ k) :
    ∀ k, k < τ → draws k = draws' k := by
  intro k
  induction k using Nat.strongRecOn with
  | ind k ih =>
    intro below
    have earlier : arrangement M draws k = arrangement M draws' k :=
      arrangement_congr fun l hl => ih l hl (Nat.lt_trans hl below)
    have settled := arrangement_settled below (inside k below)
    have settled' := arrangement_settled below (inside' k below)
    rw [same _ below, settled', earlier] at settled
    have position := congrArg Fin.val ((arrangement M draws' k).injective settled)
    exact (Nat.add_left_cancel position).symm

/-- One draw for each step, below the number of entries that are left. -/
abbrev Draws (M τ : Nat) := (i : Fin τ) → Fin (M - i.val)

section Select

variable {τ : Nat}

/-- The draws as numbers. -/
def Draws.at (draws : Draws M τ) (k : Nat) : Nat :=
  if below : k < τ then (draws ⟨k, below⟩).val else 0

theorem Draws.at_of_lt (draws : Draws M τ) {k : Nat} (below : k < τ) :
    draws.at k = (draws ⟨k, below⟩).val := dif_pos below

theorem Draws.inside (draws : Draws M τ) (k : Nat) (below : k < τ) : k + draws.at k < M := by
  have bound := (draws ⟨k, below⟩).isLt
  rw [draws.at_of_lt below]
  exact Nat.add_lt_of_lt_sub' bound

/-- The ordered selection that the draws make. -/
def select (few : τ ≤ M) (draws : Draws M τ) : Fin τ ↪ Fin M where
  toFun k := arrangement M draws.at τ (k.castLE few)
  inj' _ _ same := Fin.castLE_injective few ((arrangement M draws.at τ).injective same)

theorem select_injective (few : τ ≤ M) : Function.Injective (select few : Draws M τ → _) := by
  intro draws draws' same
  have agree (k : Fin M) (below : k.val < τ) :
      arrangement M draws.at τ k = arrangement M draws'.at τ k :=
    DFunLike.congr_fun same ⟨k.val, below⟩
  have equal := draws_determined draws.inside draws'.inside agree
  funext i
  apply Fin.ext
  have entry := equal i.val i.isLt
  rwa [draws.at_of_lt i.isLt, draws'.at_of_lt i.isLt] at entry

theorem card_draws : Fintype.card (Draws M τ) = M.descFactorial τ := by
  rw [Fintype.card_pi, Nat.descFactorial_eq_prod_range]
  simp only [Fintype.card_fin]
  exact Fin.prod_univ_eq_prod_range (fun i => M - i) τ

/-- Draws and ordered selections correspond. -/
theorem select_bijective (few : τ ≤ M) : Function.Bijective (select few : Draws M τ → _) := by
  rw [Fintype.bijective_iff_injective_and_card]
  constructor
  · exact select_injective few
  · rw [card_draws, Fintype.card_embedding_eq, Fintype.card_fin, Fintype.card_fin]

/-- The ordered selections of a set are its enumerations. -/
def enumerations {C : Finset (Fin M)} (size : C.card = τ) :
    {f : Fin τ ↪ Fin M // Finset.univ.map f = C} ≃ (Fin τ ↪ C) where
  toFun f := ⟨fun k => ⟨f.val k, by
      have member := Finset.mem_map_of_mem f.val (Finset.mem_univ k)
      rwa [f.property] at member⟩,
    fun _ _ same => f.val.injective (congrArg Subtype.val same)⟩
  invFun g := ⟨g.trans (.subtype _), by
    apply Finset.eq_of_subset_of_card_le
    · intro x member
      obtain ⟨k, -, rfl⟩ := Finset.mem_map.mp member
      exact (g k).property
    · rw [Finset.card_map, Finset.card_univ, Fintype.card_fin, size]⟩
  left_inv _ := rfl
  right_inv _ := rfl

/-- Every set of `τ` entries is selected by `τ!` draw vectors. -/
theorem card_select_eq (few : τ ≤ M) {C : Finset (Fin M)} (size : C.card = τ) :
    Fintype.card {draws : Draws M τ // Finset.univ.map (select few draws) = C} = τ.factorial := by
  have bySelection := (Equiv.ofBijective _ (select_bijective few)).subtypeEquiv
    (p := fun draws => Finset.univ.map (select few draws) = C) (q := fun f => Finset.univ.map f = C)
    fun _ => Iff.rfl
  rw [Fintype.card_congr (bySelection.trans (enumerations size)), Fintype.card_embedding_eq,
    Fintype.card_fin, Fintype.card_coe, size, Nat.descFactorial_self]

end Select

end BlindSig.FisherYates
