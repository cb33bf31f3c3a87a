import Mathlib.Tactic
import Mathlib.Dynamics.PeriodicPts.Lemmas
import Mathlib.NumberTheory.Multiplicity
import Mytilus.Base.Lcg

/-!
# Full period

A map that goes through all of `0, ..., N - 1` before it returns takes every
property as often as there are numbers that have it (`card_filter_iterate`).
A congruential generator modulo a power of two is such a map as soon as its
multiplier is 1 modulo 4 and its addend odd (`Lcg.iterate_eq_self_iff`).
-/

namespace FullPeriod

open Finset Function

/-! ## Counting along a permutation -/

variable {N : ℕ} {P : ℕ → Prop} [DecidablePred P]

/-- A permutation of an initial segment keeps the number of points with a property. -/
theorem card_filter_of_injOn {τ : ℕ → ℕ} (hmaps : ∀ n < N, τ n < N)
    (hinj : Set.InjOn τ (Set.Iio N)) :
    #{n ∈ range N | P (τ n)} = #{y ∈ range N | P y} := by
  have hinjOn : Set.InjOn τ (range N) := by rwa [coe_range]
  have himage : (range N).image τ = range N := by
    refine eq_of_subset_of_card_le (image_subset_iff.mpr fun n hn => ?_) ?_
    · exact mem_range.mpr (hmaps n (mem_range.mp hn))
    · rw [card_image_of_injOn hinjOn]
  have hfilter : {y ∈ range N | P y} = {n ∈ range N | P (τ n)}.image τ := by
    rw [← filter_image, himage]
  rw [hfilter, card_image_of_injOn]
  exact hinjOn.mono (coe_subset.mpr (filter_subset _ _))

/-- Along a full period every property is met as often as there are points with it. -/
theorem card_filter_iterate {f : ℕ → ℕ} {x : ℕ} (hperiod : minimalPeriod f x = N)
    (hlt : ∀ n, f^[n] x < N) : #{n ∈ range N | P (f^[n] x)} = #{y ∈ range N | P y} := by
  refine card_filter_of_injOn (fun n _ => hlt n) ?_
  have hinj := iterate_injOn_Iio_minimalPeriod (f := f) (x := x)
  rwa [hperiod] at hinj

/-- The numbers with a given quotient. -/
theorem card_div_eq {a b v : ℕ} (hb : 0 < b) (hv : v < a) :
    #{y ∈ range (a * b) | y / b = v} = b := by
  have hset : {y ∈ range (a * b) | y / b = v} = Ico (v * b) (v * b + b) := by
    ext y
    rw [mem_filter, mem_range, mem_Ico, Nat.div_eq_iff hb]
    have hle : v * b + b ≤ a * b := by
      rw [← Nat.succ_mul]
      exact Nat.mul_le_mul_right b hv
    omega
  rw [hset, Nat.card_Ico, Nat.add_sub_cancel_left]

theorem card_eq_self {N v : ℕ} (hv : v < N) : #{y ∈ range N | y = v} = 1 := by
  rw [filter_eq', if_pos (mem_range.mpr hv), card_singleton]

/-- How often a value is in the list of the first values of a function. -/
theorem count_map_range {β : Type*} [DecidableEq β] (g : ℕ → β) (v : β) (N : ℕ) :
    ((List.range N).map g).count v = #{n ∈ range N | g n = v} := by
  rw [List.count_eq_countP, List.countP_map, List.countP_eq_length_filter]
  have hlist : #{n ∈ range N | g n = v} =
      ((List.range N).filter fun n => decide (g n = v)).length := rfl
  rw [hlist]
  congr 1

end FullPeriod

namespace Lcg

open Finset Function

variable {a c x k : ℕ}

/-! ## When a generator returns -/

/-- The sum of the first powers of the multiplier has the twos of their number. -/
theorem two_pow_dvd_geomSum_iff (ha : a % 4 = 1) (n : ℕ) :
    2 ^ k ∣ ∑ i ∈ range n, a ^ i ↔ 2 ^ k ∣ n := by
  rcases Nat.lt_or_ge 1 a with hlt | hle
  · obtain ⟨s, hs⟩ : ∃ s : ℤ, s = ∑ i ∈ range n, (a : ℤ) ^ i := ⟨_, rfl⟩
    have hcast : ((∑ i ∈ range n, a ^ i : ℕ) : ℤ) = s := by rw [hs]; push_cast; rfl
    have hgeom : s * (a - 1) = a ^ n - 1 ^ n := by rw [hs, geom_sum_mul, one_pow]
    have hpow : emultiplicity 2 ((a : ℤ) ^ n - 1 ^ n) =
        emultiplicity 2 ((a : ℤ) - 1) + emultiplicity (2 : ℤ) n :=
      Int.two_pow_sub_pow' n (by omega) (by omega)
    have hfinite : emultiplicity (2 : ℤ) ((a : ℤ) - 1) ≠ ⊤ := by
      rw [← finiteMultiplicity_iff_emultiplicity_ne_top, Int.finiteMultiplicity_iff]
      omega
    rw [← hgeom, emultiplicity_mul Int.prime_two, add_comm] at hpow
    have hsum : emultiplicity 2 s = emultiplicity (2 : ℤ) n :=
      ENat.add_right_injective_of_ne_top hfinite hpow
    rw [← Int.natCast_dvd_natCast, hcast, ← Int.natCast_dvd_natCast, Nat.cast_pow, Nat.cast_ofNat,
      pow_dvd_iff_le_emultiplicity, hsum, ← pow_dvd_iff_le_emultiplicity]
  · obtain rfl : a = 1 := by omega
    simp

/-- **A generator with multiplier 1 modulo 4 and odd addend comes back to its
start exactly at the multiples of its modulus.** -/
theorem iterate_eq_self_iff (ha : a % 4 = 1) (hc : c % 2 = 1) (hx : x < 2 ^ k) (n : ℕ) :
    (step (2 ^ k) a c)^[n] x = x ↔ 2 ^ k ∣ n := by
  obtain ⟨S, hS⟩ : ∃ S, S = ∑ i ∈ range n, a ^ i := ⟨_, rfl⟩
  have hclosed : (step (2 ^ k) a c)^[n] x ≡ a ^ n * x + c * S [MOD 2 ^ k] := by
    rw [hS]
    exact iterate_modEq n
  have hgeom : (S : ℤ) * (a - 1) = a ^ n - 1 := by
    rw [hS, ← geom_sum_mul]
    push_cast
    rfl
  have hmodEq : (step (2 ^ k) a c)^[n] x = x ↔ x ≡ a ^ n * x + c * S [MOD 2 ^ k] := by
    constructor
    · intro h
      rwa [h] at hclosed
    · intro h
      exact (hclosed.trans h.symm).eq_of_lt_of_lt (iterate_lt (by positivity) hx n) hx
  -- the distance to the start is the sum times an odd number
  have hdistance : ((a ^ n * x + c * S : ℕ) : ℤ) - x = S * ((a - 1) * x + c) := by
    push_cast
    linear_combination -(x : ℤ) * hgeom
  have hodd : IsCoprime ((2 : ℤ) ^ k) ((a - 1) * x + c) := by
    refine (Int.isCoprime_two_left.mpr ?_).pow_left
    have heven : Even ((a : ℤ) - 1) := Int.even_iff.mpr (by omega)
    exact (heven.mul_right _).add_odd (Int.odd_iff.mpr (by omega))
  -- so only the sum decides, and it is a multiple of `2 ^ k` when `n` is
  have hcancel : (2 : ℤ) ^ k ∣ S * ((a - 1) * x + c) ↔ (2 : ℤ) ^ k ∣ S :=
    ⟨hodd.dvd_of_dvd_mul_right, fun h => h.mul_right _⟩
  rw [hmodEq, Nat.modEq_iff_dvd, hdistance, Nat.cast_pow, Nat.cast_ofNat, hcancel,
    ← two_pow_dvd_geomSum_iff ha n, ← hS, ← Int.natCast_dvd_natCast, Nat.cast_pow, Nat.cast_ofNat]

theorem minimalPeriod_eq (ha : a % 4 = 1) (hc : c % 2 = 1) (hx : x < 2 ^ k) :
    minimalPeriod (step (2 ^ k) a c) x = 2 ^ k :=
  eq_of_forall_dvd fun n => isPeriodicPt_iff_minimalPeriod_dvd.symm.trans
    (iterate_eq_self_iff ha hc hx n)

/-- Over a full period of states a generator takes every property as often as there
are states with it. -/
theorem card_filter_iterate (ha : a % 4 = 1) (hc : c % 2 = 1) (hx : x < 2 ^ k) (P : ℕ → Prop)
    [DecidablePred P] :
    #{n ∈ range (2 ^ k) | P ((step (2 ^ k) a c)^[n] x)} = #{y ∈ range (2 ^ k) | P y} :=
  FullPeriod.card_filter_iterate (minimalPeriod_eq ha hc hx) (iterate_lt (by positivity) hx)

end Lcg
