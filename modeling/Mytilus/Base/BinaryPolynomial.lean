import Mathlib.Tactic
import Mathlib.GroupTheory.OrderOfElement

/-!
# Binary polynomials modulo one of degree `n`

A residue is the word of its `n` coefficients.  The operations are computed on
words and hold of the values in any commutative ring of characteristic two, at
any point `α` where `α ^ n` is the value of the word `low`, that is, at a root of
the polynomial whose leading coefficient is one and whose others are those of
`low`.

`orderOf_eq_of_certificate` turns a computation on words into the multiplicative
order of such a point.
-/

namespace BinaryPolynomial

open Finset

variable {A : Type*} [CommRing A] {n : ℕ}

/-! ## Words and their values -/

/-- The value at `α` of the polynomial with the bits of `a` as coefficients. -/
def value (α : A) (a : BitVec n) : A := ∑ i ∈ range n, ((a.getLsbD i).toNat : A) * α ^ i

section Values

variable {α : A}

theorem value_zero : value α 0#n = 0 := by
  simp [value]

theorem value_xor (htwo : (2 : A) = 0) (a b : BitVec n) :
    value α (a ^^^ b) = value α a + value α b := by
  have hbit : ∀ x y : Bool, ((x ^^ y).toNat : A) = x.toNat + y.toNat := by
    intro x y
    cases x <;> cases y <;> simp [one_add_one_eq_two, htwo]
  rw [value, value, value, ← sum_add_distrib]
  refine sum_congr rfl fun i _ => ?_
  rw [BitVec.getLsbD_xor, hbit, add_mul]

/-- The word with one bit. -/
theorem value_one_shiftLeft {k : ℕ} (hk : k < n) : value α (1#n <<< k) = α ^ k := by
  rw [value, sum_eq_single k]
  · simp [hk]
  · intro i _ hne
    have hbit : (1#n <<< k).getLsbD i = false := by
      rw [BitVec.getLsbD_shiftLeft]
      rcases Nat.lt_or_gt_of_ne hne with hlt | hgt
      · simp [hlt]
      · simp [BitVec.getLsbD_one, show i - k ≠ 0 by omega]
    rw [hbit]
    simp
  · exact fun hnot => absurd (mem_range.mpr hk) hnot

/-- Shifting multiplies by `α`, but for the bit that is shifted out. -/
theorem value_shiftLeft_one (a : BitVec n) :
    value α (a <<< 1) + (a.msb.toNat : A) * α ^ n = α * value α a := by
  cases n with
  | zero => simp [value, BitVec.of_length_zero]
  | succ n =>
      have hlow : (a <<< 1).getLsbD 0 = false := by simp
      have hbits : ∀ i < n, (a <<< 1).getLsbD (i + 1) = a.getLsbD i := by
        intro i hi
        rw [BitVec.getLsbD_shiftLeft, decide_eq_true (by omega), Nat.add_sub_cancel]
        simp
      have hmsb : a.msb = a.getLsbD n := by
        rw [BitVec.msb_eq_getLsbD_last, Nat.add_sub_cancel]
      rw [value, value, sum_range_succ', sum_range_succ, hlow, hmsb, mul_add, mul_sum]
      have hsum : ∑ i ∈ range n, (((a <<< 1).getLsbD (i + 1)).toNat : A) * α ^ (i + 1) =
          ∑ i ∈ range n, α * (((a.getLsbD i).toNat : A) * α ^ i) := by
        refine sum_congr rfl fun i hi => ?_
        rw [hbits i (mem_range.mp hi)]
        ring
      rw [hsum, Bool.toNat_false, Nat.cast_zero, zero_mul, add_zero]
      ring

end Values

/-! ## Operations on residues -/

section Operations

variable (low : BitVec n)

def mulX (a : BitVec n) : BitVec n := if a.msb then (a <<< 1) ^^^ low else a <<< 1

/-- The product with the `k` low coefficients of `b`. -/
def mulFrom : (k : ℕ) → (a b : BitVec n) → BitVec n
  | 0, _, _ => 0
  | k + 1, a, b => (if b.getLsbD 0 then a else 0) ^^^ mulFrom k (mulX low a) (b >>> 1)

def mul (a b : BitVec n) : BitVec n := mulFrom low n a b

/-- The power of the variable with an exponent of `k` bits. -/
def power : (k e : ℕ) → BitVec n
  | 0, _ => 1
  | k + 1, e =>
      let root := power k (e / 2)
      let square := mul low root root
      if e % 2 = 1 then mulX low square else square

end Operations

section Correctness

variable {α : A} {low : BitVec n} (htwo : (2 : A) = 0) (hroot : α ^ n = value α low)

include htwo hroot

theorem value_mulX (a : BitVec n) : value α (mulX low a) = α * value α a := by
  have hshift := value_shiftLeft_one (α := α) a
  unfold mulX
  by_cases hmsb : a.msb
  · rw [if_pos hmsb, value_xor htwo, ← hshift, hmsb, hroot]
    simp
  · rw [if_neg hmsb, ← hshift, Bool.eq_false_of_not_eq_true hmsb]
    simp

theorem value_mulFrom (k : ℕ) (a b : BitVec n) :
    value α (mulFrom low k a b) =
      value α a * ∑ i ∈ range k, ((b.getLsbD i).toNat : A) * α ^ i := by
  induction k generalizing a b with
  | zero => rw [mulFrom, range_zero, sum_empty, mul_zero]; exact value_zero
  | succ k ih =>
      have hfirst : value α (if b.getLsbD 0 then a else 0) = value α a * ((b.getLsbD 0).toNat : A) := by
        cases b.getLsbD 0 with
        | false => simpa using value_zero
        | true => simp
      have hrest : ∑ i ∈ range k, ((b.getLsbD (i + 1)).toNat : A) * α ^ (i + 1) =
          α * ∑ i ∈ range k, (((b >>> 1).getLsbD i).toNat : A) * α ^ i := by
        rw [mul_sum]
        refine sum_congr rfl fun i _ => ?_
        rw [BitVec.getLsbD_ushiftRight, Nat.add_comm 1 i]
        ring
      rw [mulFrom, value_xor htwo, ih, value_mulX htwo hroot, hfirst, sum_range_succ', hrest]
      ring

theorem value_mul (a b : BitVec n) : value α (mul low a b) = value α a * value α b :=
  value_mulFrom htwo hroot n a b

theorem value_power (hn : 0 < n) {k e : ℕ} (he : e < 2 ^ k) : value α (power low k e) = α ^ e := by
  induction k generalizing e with
  | zero =>
      obtain rfl : e = 0 := by omega
      have hone := value_one_shiftLeft (α := α) hn
      rwa [BitVec.shiftLeft_zero] at hone
  | succ k ih =>
      have hhalf : e / 2 < 2 ^ k := by omega
      have hsquare : value α (mul low (power low k (e / 2)) (power low k (e / 2))) = α ^ (2 * (e / 2)) := by
        rw [value_mul htwo hroot, ih hhalf]
        ring
      -- one step of square and multiply, for the lowest bit of the exponent
      rw [power]
      by_cases hodd : e % 2 = 1
      · simp only [if_pos hodd]
        rw [value_mulX htwo hroot, hsquare, ← pow_succ']
        congr 1
        omega
      · simp only [if_neg hodd]
        rw [hsquare]
        congr 1
        omega

end Correctness

/-! ## The order of a root -/

/-- What shows that a root has order `N`: its `N`-th power is one, and for every
prime divisor `q` of `N`, listed with an inverse, its `N / q`-th power differs
from one by an invertible element. -/
def Certificate (low : BitVec n) (N : ℕ) (inverses : List (ℕ × BitVec n)) : Prop :=
  power low n N = 1 ∧
    ∀ entry ∈ inverses, mul low entry.2 (power low n (N / entry.1) ^^^ 1) = 1

/-! ## Computation

The same operations on the numbers of the words, for certificates with exponents
of many bits. -/

section Numbers

variable (n) in
def mulXNumber (low a : ℕ) : ℕ := bif (2 ^ n).ble (2 * a) then (2 * a - 2 ^ n) ^^^ low else 2 * a

variable (n) in
def mulFromNumber (low : ℕ) : (k a b : ℕ) → ℕ
  | 0, _, _ => 0
  | k + 1, a, b =>
      (bif (b % 2).beq 1 then a else 0) ^^^ mulFromNumber low k (mulXNumber n low a) (b / 2)

variable (n) in
def powerNumber (low : ℕ) : (k e : ℕ) → ℕ
  | 0, _ => 1 % 2 ^ n
  | k + 1, e =>
      let root := powerNumber low k (e / 2)
      let square := mulFromNumber n low n root root
      bif (e % 2).beq 1 then mulXNumber n low square else square

variable (low : BitVec n)

theorem toNat_mulX (a : BitVec n) : (mulX low a).toNat = mulXNumber n low.toNat a.toNat := by
  have hlt := a.isLt
  have hshift : (a <<< 1).toNat = 2 * a.toNat % 2 ^ n := by
    rw [BitVec.toNat_shiftLeft, Nat.shiftLeft_eq, pow_one, mul_comm]
  simp only [mulX, mulXNumber, Bool.cond_eq_ite, Nat.ble_eq]
  cases hmsb : a.msb with
  | false =>
      have hsmall : 2 * a.toNat < 2 ^ n := BitVec.msb_eq_false_iff_two_mul_lt.mp hmsb
      rw [if_neg Bool.false_ne_true, if_neg (not_le.mpr hsmall), hshift, Nat.mod_eq_of_lt hsmall]
  | true =>
      have hlarge : 2 ^ n ≤ 2 * a.toNat := BitVec.msb_eq_true_iff_two_mul_ge.mp hmsb
      have hmod : 2 * a.toNat % 2 ^ n = 2 * a.toNat - 2 ^ n := by
        rw [Nat.mod_eq_sub_mod hlarge, Nat.mod_eq_of_lt (by omega)]
      rw [if_pos rfl, if_pos hlarge, BitVec.toNat_xor, hshift, hmod]

theorem toNat_mulFrom (k : ℕ) (a b : BitVec n) :
    (mulFrom low k a b).toNat = mulFromNumber n low.toNat k a.toNat b.toNat := by
  induction k generalizing a b with
  | zero => simp [mulFrom, mulFromNumber]
  | succ k ih =>
      have hfirst : (if b.getLsbD 0 then a else 0).toNat =
          bif (b.toNat % 2).beq 1 then a.toNat else 0 := by
        simp only [Bool.cond_eq_ite, Nat.beq_eq, BitVec.getLsbD, Nat.testBit_zero,
          decide_eq_true_eq]
        split_ifs <;> rfl
      rw [mulFrom, mulFromNumber, BitVec.toNat_xor, ih, toNat_mulX, hfirst,
        BitVec.toNat_ushiftRight, Nat.shiftRight_one]

theorem toNat_power (k e : ℕ) : (power low k e).toNat = powerNumber n low.toNat k e := by
  induction k generalizing e with
  | zero => simp [power, powerNumber]
  | succ k ih =>
      have hsquare := toNat_mulFrom low n (power low k (e / 2)) (power low k (e / 2))
      rw [ih] at hsquare
      simp only [power, powerNumber, Bool.cond_eq_ite, Nat.beq_eq]
      by_cases hodd : e % 2 = 1
      · simp [hodd, mul, toNat_mulX, hsquare]
      · simp [hodd, mul, hsquare]

variable {low}

/-- A certificate may be checked on the numbers. -/
theorem Certificate.of_numbers {N : ℕ} {inverses : List (ℕ × BitVec n)}
    (hone : powerNumber n low.toNat n N = 1 % 2 ^ n)
    (hinverses : ∀ entry ∈ inverses, mulFromNumber n low.toNat n entry.2.toNat
      (powerNumber n low.toNat n (N / entry.1) ^^^ 1 % 2 ^ n) = 1 % 2 ^ n) :
    Certificate low N inverses := by
  have hnumber : (1 : BitVec n).toNat = 1 % 2 ^ n := BitVec.toNat_ofNat ..
  refine ⟨BitVec.eq_of_toNat_eq ?_, fun entry hentry => BitVec.eq_of_toNat_eq ?_⟩
  · rw [toNat_power, hone, hnumber]
  · rw [mul, toNat_mulFrom, BitVec.toNat_xor, toNat_power, hnumber, hinverses entry hentry]

end Numbers

theorem orderOf_eq_of_certificate [Nontrivial A] {α : A} {low : BitVec n} (htwo : (2 : A) = 0)
    (hroot : α ^ n = value α low) (hn : 0 < n) {N : ℕ} (hpos : 0 < N) (hN : N < 2 ^ n)
    {inverses : List (ℕ × BitVec n)}
    (hprimes : ∀ q, q.Prime → q ∣ N → q ∈ inverses.map Prod.fst)
    (hcertificate : Certificate low N inverses) : orderOf α = N := by
  have hone : value α (1 : BitVec n) = 1 := by
    have hshift := value_one_shiftLeft (α := α) hn
    rwa [BitVec.shiftLeft_zero, pow_zero] at hshift
  refine orderOf_eq_of_pow_and_pow_div_prime hpos ?_ fun q hq hdvd hpow => ?_
  · rw [← value_power htwo hroot hn hN, hcertificate.1, hone]
  · obtain ⟨entry, hentry, rfl⟩ := List.mem_map.mp (hprimes q hq hdvd)
    have hinverse := congrArg (value α) (hcertificate.2 entry hentry)
    have hlt : N / entry.1 < 2 ^ n := lt_of_le_of_lt (Nat.div_le_self _ _) hN
    rw [value_mul htwo hroot, value_xor htwo, value_power htwo hroot hn hlt, hpow, hone,
      one_add_one_eq_two, htwo, mul_zero] at hinverse
    exact zero_ne_one hinverse

end BinaryPolynomial
