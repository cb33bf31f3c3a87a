import Mathlib.Tactic
import Mathlib.Algebra.Order.Ring.GeomSum

/-!
# Linear congruential generators

One step `x ↦ (a * x + c) mod M` of a generator, the closed form of its
iterates, and when two generators that start together stay together.
-/

namespace Lcg

/-- One step of the generator with multiplier `a`, addend `c` and modulus `M`. -/
def step (M a c x : ℕ) : ℕ := (a * x + c) % M

variable {M a c x : ℕ}

theorem step_lt (hM : 0 < M) : step M a c x < M := Nat.mod_lt _ hM

theorem iterate_lt (hM : 0 < M) (hx : x < M) (k : ℕ) : (step M a c)^[k] x < M := by
  cases k with
  | zero => exact hx
  | succ k =>
      rw [Function.iterate_succ_apply']
      exact step_lt hM

/-! ## The closed form -/

theorem iterate_modEq (k : ℕ) :
    (step M a c)^[k] x ≡ a ^ k * x + c * ∑ i ∈ Finset.range k, a ^ i [MOD M] := by
  induction k with
  | zero =>
      rw [Finset.range_zero, Finset.sum_empty, mul_zero, add_zero, pow_zero, one_mul]
      exact Nat.ModEq.refl x
  | succ k ih =>
      have hsum : ∑ i ∈ Finset.range (k + 1), a ^ i = a * ∑ i ∈ Finset.range k, a ^ i + 1 := by
        rw [Finset.sum_range_succ', Finset.mul_sum, pow_zero]
        simp only [pow_succ, mul_comm]
      have hstep : step M a c ((step M a c)^[k] x) ≡ a * (step M a c)^[k] x + c [MOD M] :=
        Nat.mod_modEq _ _
      have hmul := (ih.mul_left a).add_right c
      rw [Function.iterate_succ_apply', hsum]
      convert hstep.trans hmul using 1
      ring

/-- The `k`-th iterate in closed form. -/
theorem iterate_eq (hM : 0 < M) (ha : 2 ≤ a) (hx : x < M) (k : ℕ) :
    (step M a c)^[k] x = (a ^ k * x + c * ((a ^ k - 1) / (a - 1))) % M := by
  rw [← Nat.geomSum_eq ha k, ← Nat.mod_eq_of_lt (iterate_lt hM hx k)]
  exact iterate_modEq k

/-! ## Two generators from one start -/

/-- When two generators with one modulus take a point to the same one. -/
theorem step_eq_step_iff {a' c' : ℕ} :
    step M a c x = step M a' c' x ↔ (M : ℤ) ∣ (a - a') * x + (c - c') := by
  have hmod : step M a c x = step M a' c' x ↔ a' * x + c' ≡ a * x + c [MOD M] := eq_comm
  rw [hmod, ← Int.natCast_modEq_iff, Int.modEq_iff_dvd]
  push_cast
  ring_nf

/-- Two generators that agree on a set closed under one of them have the same
iterates from every point of it. -/
theorem iterate_congr {M' a' c' : ℕ} {P : ℕ → Prop} (hclosed : ∀ y, P y → P (step M a c y))
    (hagree : ∀ y, P y → step M a c y = step M' a' c' y) (hx : P x) (k : ℕ) :
    (step M a c)^[k] x = (step M' a' c')^[k] x := by
  induction k generalizing x with
  | zero => rfl
  | succ k ih =>
      rw [Function.iterate_succ_apply, Function.iterate_succ_apply, ← hagree x hx]
      exact ih (hclosed x hx)

end Lcg
