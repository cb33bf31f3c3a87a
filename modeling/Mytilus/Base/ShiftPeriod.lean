import Mytilus.Base.BinaryPolynomial
import Mathlib.Algebra.Polynomial.AlgebraMap
import Mathlib.RingTheory.Ideal.Quotient.Operations

/-!
# Periods of recurrent sequences

A polynomial acts on sequences with the shift in place of its variable.  Modulo
the polynomials that annihilate a sequence the variable becomes a point `root s`
whose powers tell the periods: the sequence has period `p` exactly when
`root s ^ p = 1`.  A recurrence of the sequence is an equation for `root s`, so
the periods of a linear feedback register follow from the order of a root of its
polynomial (`period_iff_of_certificate`).
-/

namespace ShiftPeriod

open Polynomial

noncomputable section

/-! ## The ring of a sequence -/

section Ring

variable {K : Type*} [CommRing K]

def shift (K : Type*) [CommRing K] : (ℕ → K) →ₗ[K] (ℕ → K) := LinearMap.funLeft K K Nat.succ

theorem shift_pow_apply (p : ℕ) (s : ℕ → K) (t : ℕ) : (shift K ^ p) s t = s (t + p) := by
  induction p generalizing t with
  | zero => rfl
  | succ p ih =>
      have hstep : (shift K ^ (p + 1)) s t = (shift K ^ p) s (t + 1) := by
        rw [pow_succ']
        rfl
      rw [hstep, ih]
      congr 1
      omega

/-- The polynomials that annihilate a sequence. -/
def relations (s : ℕ → K) : Ideal K[X] where
  carrier := {f | aeval (shift K) f s = 0}
  add_mem' := by
    intro f g (hf : aeval (shift K) f s = 0) (hg : aeval (shift K) g s = 0)
    change aeval (shift K) (f + g) s = 0
    rw [map_add, LinearMap.add_apply, hf, hg, add_zero]
  zero_mem' := by
    change aeval (shift K) 0 s = 0
    rw [map_zero, LinearMap.zero_apply]
  smul_mem' := by
    intro c f (hf : aeval (shift K) f s = 0)
    change aeval (shift K) (c * f) s = 0
    rw [map_mul, Module.End.mul_apply, hf, map_zero]

theorem mem_relations {s : ℕ → K} {f : K[X]} : f ∈ relations s ↔ aeval (shift K) f s = 0 := Iff.rfl

/-- The variable modulo the relations of the sequence. -/
def root (s : ℕ → K) : K[X] ⧸ relations s := Ideal.Quotient.mk _ X

variable {s : ℕ → K}

/-- The powers of the root tell the periods. -/
theorem root_pow_eq_one_iff {p : ℕ} : root s ^ p = 1 ↔ ∀ t, s (t + p) = s t := by
  have hmk : root s ^ p = 1 ↔ X ^ p - 1 ∈ relations s := by
    rw [root, ← map_pow, ← map_one (Ideal.Quotient.mk (relations s)), Ideal.Quotient.eq]
  have haction : ∀ t, aeval (shift K) (X ^ p - 1 : K[X]) s t = s (t + p) - s t := by
    intro t
    rw [map_sub, map_pow, aeval_X, map_one, LinearMap.sub_apply, Pi.sub_apply, shift_pow_apply]
    rfl
  rw [hmk, mem_relations, funext_iff]
  refine forall_congr' fun t => ?_
  rw [haction, Pi.zero_apply, sub_eq_zero]

/-- A recurrence with two terms. -/
theorem root_pow_eq_add {n k : ℕ} (h : ∀ t, s (t + n) = s t + s (t + k)) :
    root s ^ n = 1 + root s ^ k := by
  have haction : ∀ t, aeval (shift K) (X ^ n - (1 + X ^ k) : K[X]) s t = s (t + n) - (s t + s (t + k)) := by
    intro t
    rw [map_sub, map_add, map_pow, map_pow, aeval_X, map_one, LinearMap.sub_apply,
      LinearMap.add_apply, Pi.sub_apply, Pi.add_apply, shift_pow_apply, shift_pow_apply]
    rfl
  rw [root, ← map_pow, ← map_pow, ← map_one (Ideal.Quotient.mk (relations s)), ← map_add,
    Ideal.Quotient.eq, mem_relations]
  funext t
  rw [haction, h, sub_self, Pi.zero_apply]

theorem nontrivial_of_ne_zero {t : ℕ} (h : s t ≠ 0) : Nontrivial (K[X] ⧸ relations s) := by
  refine Ideal.Quotient.nontrivial_iff.mpr fun htop => h ?_
  have hone : (1 : K[X]) ∈ relations s := htop ▸ Submodule.mem_top
  rw [mem_relations, map_one] at hone
  exact congrFun hone t

end Ring

end

/-! ## Linear feedback registers -/

open BinaryPolynomial

/-- The low coefficients of the polynomial `X ^ n + X ^ k + 1`. -/
def trinomial (n k : ℕ) : BitVec n := 1#n ^^^ (1#n <<< k)

/-- **The periods of a linear feedback register with two taps** are the multiples
of the order that a certificate of its polynomial shows, from every start but zero. -/
theorem period_iff_of_certificate {s : ℕ → ZMod 2} {n k N : ℕ} (hk : k < n)
    (hrecurrence : ∀ t, s (t + n) = s t + s (t + k)) {t : ℕ} (hne : s t ≠ 0) (hpos : 0 < N)
    (hN : N < 2 ^ n) {inverses : List (ℕ × BitVec n)}
    (hprimes : ∀ q, q.Prime → q ∣ N → q ∈ inverses.map Prod.fst)
    (hcertificate : Certificate (trinomial n k) N inverses) (p : ℕ) :
    (∀ t, s (t + p) = s t) ↔ N ∣ p := by
  have hnontrivial := nontrivial_of_ne_zero hne
  have htwo : (2 : (ZMod 2)[X] ⧸ relations s) = 0 := by
    have hbase : (2 : (ZMod 2)[X]) = 0 := by
      rw [← map_ofNat (C : ZMod 2 →+* (ZMod 2)[X]) 2, show (2 : ZMod 2) = 0 from rfl, map_zero]
    rw [← map_ofNat (Ideal.Quotient.mk (relations s)) 2, hbase, map_zero]
  -- the recurrence says that the shift is a root of the trinomial
  have hroot : root s ^ n = value (root s) (trinomial n k) := by
    have hone := value_one_shiftLeft (α := root s) (Nat.zero_lt_of_lt hk)
    rw [BitVec.shiftLeft_zero, pow_zero] at hone
    rw [trinomial, value_xor htwo, hone, value_one_shiftLeft hk]
    exact root_pow_eq_add hrecurrence
  have horder := orderOf_eq_of_certificate htwo hroot (Nat.zero_lt_of_lt hk) hpos hN hprimes
    hcertificate
  rw [← root_pow_eq_one_iff, ← orderOf_dvd_iff_pow_eq_one, horder]

end ShiftPeriod
