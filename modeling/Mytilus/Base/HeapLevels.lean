import Mathlib.Algebra.BigOperators.Intervals
import Mathlib.Data.Nat.Log
import Mytilus.Base.Heap

/-!
# How deep a binary heap is

`levels n i` is how many times one can go down to a child from index `i` of a heap of
`n` entries.  It is at most the binary logarithm of `n`, and over all indices it
adds up to at most `n`, so building a heap from the last inner node down takes
linear time.
-/

namespace Heap

def levels (n i : ℕ) : ℕ := Nat.log 2 (n / (i + 1))

variable {n i c m : ℕ}

/-- Going down to a child uses up one level. -/
theorem levels_child (h : Child i c) (hi : 2 * i + 1 < n) : levels n c + 1 ≤ levels n i := by
  have hc : 2 * (i + 1) ≤ c + 1 := by
    unfold Child at h
    omega
  have htwo : 2 ≤ n / (i + 1) := by
    rw [Nat.le_div_iff_mul_le (Nat.succ_pos i)]
    omega
  have hpos : 0 < Nat.log 2 (n / (i + 1)) := Nat.log_pos one_lt_two htwo
  calc levels n c + 1
      ≤ Nat.log 2 (n / (2 * (i + 1))) + 1 :=
        Nat.succ_le_succ (Nat.log_mono_right (Nat.div_le_div_left hc (by omega)))
    _ = Nat.log 2 (n / (i + 1) / 2) + 1 := by rw [Nat.div_div_eq_div_mul, Nat.mul_comm]
    _ = levels n i := by rw [Nat.log_div_base, Nat.sub_add_cancel hpos, levels]

@[simp] theorem levels_zero (n : ℕ) : levels n 0 = Nat.log 2 n := by simp [levels]

/-- Of the indices, the first half has one level more than in a heap of half the size. -/
theorem levels_le_half (n i : ℕ) :
    levels n i ≤ (if i < n / 2 then 1 else 0) + levels (n / 2) i := by
  split_ifs with hi
  · have hhalf : levels (n / 2) i = Nat.log 2 (n / (i + 1)) - 1 := by
      rw [levels, Nat.div_div_eq_div_mul, Nat.mul_comm, ← Nat.div_div_eq_div_mul, Nat.log_div_base]
    rw [hhalf, levels]
    omega
  · have hsmall : n / (i + 1) < 2 := by
      rw [Nat.div_lt_iff_lt_mul (Nat.succ_pos i)]
      omega
    rw [levels, Nat.log_of_lt hsmall]
    omega

theorem sum_levels_le (n m : ℕ) : ∑ i ∈ Finset.range m, levels n i ≤ n := by
  induction n using Nat.strong_induction_on with
  | _ n ih =>
      rcases Nat.eq_zero_or_pos n with rfl | hpos
      · simp [levels]
      · -- half of the entries have a child, and their levels are those of half the heap
        have hinner : ∑ i ∈ Finset.range m, (if i < n / 2 then 1 else 0) ≤ n / 2 := by
          rw [Finset.sum_boole, Nat.cast_id]
          calc ((Finset.range m).filter (· < n / 2)).card
              ≤ (Finset.range (n / 2)).card :=
                Finset.card_le_card fun i hi => by simpa using (Finset.mem_filter.mp hi).2
            _ = n / 2 := Finset.card_range _
        calc ∑ i ∈ Finset.range m, levels n i
            ≤ ∑ i ∈ Finset.range m, ((if i < n / 2 then 1 else 0) + levels (n / 2) i) :=
              Finset.sum_le_sum fun i _ => levels_le_half n i
          _ = ∑ i ∈ Finset.range m, (if i < n / 2 then 1 else 0) +
                ∑ i ∈ Finset.range m, levels (n / 2) i := Finset.sum_add_distrib
          _ ≤ n / 2 + n / 2 := add_le_add hinner (ih _ (Nat.div_lt_self hpos one_lt_two))
          _ ≤ n := by omega

end Heap
