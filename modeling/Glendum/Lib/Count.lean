import Mathlib.Algebra.BigOperators.Fin
import Mathlib.Algebra.Order.BigOperators.Group.Finset

/-!
# Counting threads by the place where they are

A fixed number of threads, each at a place of its program. A counter that threads raise when
they come into a region, and lower when they leave it, has the number of threads inside.

* `total_update` — a sum over the threads, when one of them moves;
* `countAt_update` — so the number of threads in a region;
* `countAt_eq_all`, `countAt_eq_none` — what the counter tells at its two ends.
-/

namespace Machine

variable {n : Nat} {A : Type*}

/-- The sum of the weights of the places where the threads are. -/
def total (w : A → Nat) (pc : Fin n → A) : Nat := ∑ i, w (pc i)

/-- The number of threads in a region. -/
def countAt (r : A → Bool) (pc : Fin n → A) : Nat := ∑ i, if r (pc i) = true then 1 else 0

variable {w : A → Nat} {r : A → Bool} {pc : Fin n → A} {i : Fin n} {a : A}

/-- One place of the sum changes from the old value to the new one. -/
theorem total_update : total w (Function.update pc i a) + w (pc i) = total w pc + w a := by
  have hMem : i ∈ Finset.univ := Finset.mem_univ i
  -- the other threads stay where they are
  have hRest : ∀ j ∈ Finset.univ.erase i, w (Function.update pc i a j) = w (pc j) := by
    intro j hj
    rw [Function.update_of_ne (Finset.ne_of_mem_erase hj)]
  have hNew := Finset.add_sum_erase Finset.univ (fun j => w (Function.update pc i a j)) hMem
  have hOld := Finset.add_sum_erase Finset.univ (fun j => w (pc j)) hMem
  rw [Finset.sum_congr rfl hRest, Function.update_self] at hNew
  unfold total
  omega

/-- A larger weight gives a larger sum. -/
theorem total_le {w' : A → Nat} (h : ∀ a, w a ≤ w' a) : total w pc ≤ total w' pc :=
  Finset.sum_le_sum fun i _ => h (pc i)

/-- The move of one process changes the count by what it was and what it is. -/
theorem countAt_update : countAt r (Function.update pc i a) + (if r (pc i) = true then 1 else 0) =
    countAt r pc + (if r a = true then 1 else 0) :=
  total_update (w := fun a => if r a = true then 1 else 0)

/-- There are no more than `n` processes to count. -/
theorem countAt_le (r : A → Bool) (pc : Fin n → A) : countAt r pc ≤ n := by
  have hEach : ∀ i ∈ Finset.univ, (if r (pc i) = true then 1 else 0) ≤ 1 := by
    intro i _
    split
    · exact Nat.le_refl 1
    · exact Nat.zero_le 1
  have hSum := Finset.sum_le_card_nsmul Finset.univ _ 1 hEach
  rw [Finset.card_univ, Fintype.card_fin, smul_eq_mul, Nat.mul_one] at hSum
  exact hSum

/-- None is counted when the test fails for all. -/
theorem countAt_eq_none : countAt r pc = 0 ↔ ∀ i, r (pc i) = false := by
  unfold countAt
  rw [Finset.sum_eq_zero_iff]
  refine ⟨fun h i => ?_, fun h i _ => ?_⟩
  · have hZero := h i (Finset.mem_univ i)
    by_contra hIn
    rw [if_pos (Bool.eq_true_of_not_eq_false hIn)] at hZero
    exact absurd hZero Nat.one_ne_zero
  · rw [h i]
    rfl

/-- All are counted when the test holds of all. -/
theorem countAt_eq_all : countAt r pc = n ↔ ∀ i, r (pc i) = true := by
  constructor
  · intro h i
    by_contra hOut
    -- with one thread outside there are fewer than there are threads
    have hStrict : countAt r pc < n := by
      unfold countAt
      have hLt : ∑ j, (if r (pc j) = true then 1 else 0) < ∑ _j : Fin n, 1 := by
        refine Finset.sum_lt_sum (fun j _ => ?_) ⟨i, Finset.mem_univ i, ?_⟩
        · split
          · exact Nat.le_refl 1
          · exact Nat.zero_le 1
        · rw [if_neg hOut]
          exact Nat.zero_lt_one
      rw [Finset.sum_const, Finset.card_univ, Fintype.card_fin, smul_eq_mul, Nat.mul_one] at hLt
      exact hLt
    omega
  · intro h
    unfold countAt
    have hOne : ∀ i ∈ Finset.univ, (if r (pc i) = true then 1 else 0) = 1 := fun i _ => if_pos (h i)
    rw [Finset.sum_congr rfl hOne, Finset.sum_const, Finset.card_univ, Fintype.card_fin, smul_eq_mul,
      Nat.mul_one]

end Machine
