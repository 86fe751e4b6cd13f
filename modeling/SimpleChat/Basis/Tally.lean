import Mathlib.Algebra.BigOperators.Group.Finset.Basic
import Mathlib.Algebra.Order.BigOperators.Group.Finset
import Mathlib.Data.Fintype.Basic
import Mathlib.Data.Fintype.BigOperators

/-! Counting the threads of a finite family that satisfy a test. A step of one
thread replaces one entry of the family, so every count moves by one entry. -/
namespace Basis

open scoped BigOperators
open Function (update)

variable {ι : Type*} [Fintype ι] {σ : Type*}

def tally (weight : σ → Nat) (family : ι → σ) : Nat := ∑ i, weight (family i)

section Members
variable (weight : σ → Nat) (family : ι → σ)

theorem tallyMember (i : ι) : weight (family i) ≤ tally weight family :=
  Finset.single_le_sum (f := fun j => weight (family j)) (fun _ _ => Nat.zero_le _) (Finset.mem_univ i)

theorem tallyPair {i j : ι} (different : i ≠ j) :
    weight (family i) + weight (family j) ≤ tally weight family := by
  classical
  have part : ∑ k ∈ {i, j}, weight (family k) ≤ ∑ k, weight (family k) :=
    Finset.sum_le_sum_of_subset (Finset.subset_univ _)
  rwa [Finset.sum_pair different] at part

theorem tallyZero : tally weight family = 0 ↔ ∀ i, weight (family i) = 0 := by
  simp [tally, Finset.sum_eq_zero_iff]

theorem tallyPos : 0 < tally weight family ↔ ∃ i, 0 < weight (family i) := by
  rw [Nat.pos_iff_ne_zero, ne_eq, tallyZero, not_forall]
  exact exists_congr (fun i => Nat.pos_iff_ne_zero.symm)

theorem tallyCard (small : ∀ x, weight x ≤ 1) : tally weight family = (Finset.univ.filter (fun i => weight (family i) = 1)).card := by
  rw [tally, Finset.card_filter]
  refine Finset.sum_congr rfl (fun i _ => ?_)
  have bound := small (family i)
  split <;> omega

end Members

section Moves
variable [DecidableEq ι] {weight : σ → Nat} {family : ι → σ} {i : ι} {next : σ}

omit [Fintype ι] in
theorem movedCases {j : ι} {place : σ} (here : update family i next j = place) :
    (j = i ∧ next = place) ∨ (j ≠ i ∧ family j = place) := by
  by_cases same : j = i
  · subst j
    exact .inl ⟨rfl, by rwa [Function.update_self] at here⟩
  · exact .inr ⟨same, by rwa [Function.update_of_ne same] at here⟩

theorem tallyUpdate (weight : σ → Nat) (family : ι → σ) (i : ι) (next : σ) :
    tally weight (update family i next) + weight (family i) = tally weight family + weight next := by
  have moved : tally weight (update family i next) = ∑ j, update (weight ∘ family) i (weight next) j := by
    rw [← Function.comp_update]; rfl
  have split : weight (family i) + ∑ j ∈ Finset.univ \ {i}, weight (family j) = tally weight family := by
    rw [Finset.sdiff_singleton_eq_erase]
    exact Finset.add_sum_erase Finset.univ (fun j => weight (family j)) (Finset.mem_univ i)
  rw [moved, Finset.sum_update_of_mem (Finset.mem_univ i)]
  simp only [Function.comp_apply]
  omega

theorem tallySame (same : weight next = weight (family i)) :
    tally weight (update family i next) = tally weight family := by
  have moved := tallyUpdate weight family i next
  omega

theorem tallyEnter (before : weight (family i) = 0) (after : weight next = 1) :
    tally weight (update family i next) = tally weight family + 1 := by
  have moved := tallyUpdate weight family i next
  omega

theorem tallyLeave (before : weight (family i) = 1) (after : weight next = 0) :
    tally weight (update family i next) + 1 = tally weight family := by
  have moved := tallyUpdate weight family i next
  omega

end Moves
end Basis
