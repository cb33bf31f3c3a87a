import Mytilus.Base.Lcg

/-!
# `rand` and `srand`

The 64-bit generator behind `rand`, against the output sequence of the original:
`seed = s - 1` in 32-bit arithmetic, then `seed = a * seed + 1` in 64-bit
arithmetic and `seed >> 33` as the result.  The port subtracts after widening
the seed, which is the same for every seed but zero; `rand_eq_upstream_iff` says
that zero is the only seed whose sequence differs.
-/

namespace Mytilus.Prng.Rand

/-- `RAND_SEED` -/
abbrev Seed := BitVec 64

def multiplier : ℕ := 6364136223846793005

/-- `void srand(unsigned s)`; the old seed is overwritten. -/
def srand (s : BitVec 32) (_seed : Seed) : Seed := s.setWidth 64 - 1

/-- `int rand(void)`: the value returned and the seed left behind. -/
def rand (seed : Seed) : BitVec 32 × Seed :=
  let seed := BitVec.ofNat 64 multiplier * seed + 1
  ((seed >>> 33).setWidth 32, seed)

/-- The seed after `k` calls of `rand`. -/
def seedAfter (k : ℕ) (seed : Seed) : Seed := (fun seed => (rand seed).2)^[k] seed

/-- The value of the `k`-th call, counted from one. -/
def nthRand (k : ℕ) (seed : Seed) : BitVec 32 := (rand (seedAfter (k - 1) seed)).1

/-- The state of the original's generator `k` calls after `srand(s)`. -/
def upstream (s : BitVec 32) (k : ℕ) : ℕ := (Lcg.step (2 ^ 64) multiplier 1)^[k] (s - 1).toNat

/-! ## One call, then any number -/

theorem rand_seed_toNat (seed : Seed) :
    (rand seed).2.toNat = Lcg.step (2 ^ 64) multiplier 1 seed.toNat := by
  unfold rand Lcg.step
  rw [BitVec.toNat_add, BitVec.toNat_mul, BitVec.toNat_ofNat]
  simp [multiplier]

theorem rand_value_toInt (seed : Seed) : (rand seed).1.toInt = (rand seed).2.toNat / 2 ^ 33 := by
  have hshift : (rand seed).1.toNat = (rand seed).2.toNat / 2 ^ 33 := by
    change (((rand seed).2 >>> 33).setWidth 32).toNat = _
    rw [BitVec.toNat_setWidth, BitVec.toNat_ushiftRight, Nat.shiftRight_eq_div_pow]
    have hlt := (rand seed).2.isLt
    omega
  have hlt := (rand seed).2.isLt
  rw [BitVec.toInt_eq_toNat_of_lt (by omega), hshift]
  rfl

theorem seedAfter_toNat (k : ℕ) (seed : Seed) :
    (seedAfter k seed).toNat = (Lcg.step (2 ^ 64) multiplier 1)^[k] seed.toNat := by
  induction k with
  | zero => rfl
  | succ k ih =>
      unfold seedAfter at ih ⊢
      rw [Function.iterate_succ_apply', Function.iterate_succ_apply', rand_seed_toNat, ih]

/-- The `k`-th value is the high half, bar one bit, of the `k`-th state. -/
theorem nthRand_toInt {k : ℕ} (hk : 1 ≤ k) (seed : Seed) :
    (nthRand k seed).toInt = (Lcg.step (2 ^ 64) multiplier 1)^[k] seed.toNat / 2 ^ 33 := by
  obtain ⟨k, rfl⟩ := Nat.exists_eq_add_of_le' hk
  rw [nthRand, rand_value_toInt, rand_seed_toNat, Nat.add_sub_cancel, seedAfter_toNat,
    ← Function.iterate_succ_apply' (Lcg.step (2 ^ 64) multiplier 1)]

theorem upstream_eq (s : BitVec 32) (k : ℕ) :
    upstream s k =
      (multiplier ^ k * (s - 1).toNat + (multiplier ^ k - 1) / (multiplier - 1)) % 2 ^ 64 := by
  have hstart : (s - 1).toNat < 2 ^ 64 := (s - 1).isLt.trans (by norm_num)
  rw [upstream, Lcg.iterate_eq (by norm_num) (by norm_num [multiplier]) hstart, one_mul]

/-! ## Against the original -/

/-- Widening before or after the subtraction matters only at zero. -/
theorem srand_toNat {s : BitVec 32} (hs : s ≠ 0) (seed : Seed) :
    (srand s seed).toNat = (s - 1).toNat := by
  have hpos : s.toNat ≠ 0 := fun h => hs (BitVec.eq_of_toNat_eq h)
  have hlt := s.isLt
  unfold srand
  simp only [BitVec.toNat_sub, BitVec.toNat_setWidth, BitVec.ofNat_eq_ofNat, BitVec.toNat_ofNat]
  omega

/-- **The sequence after `srand(s)` is the original's exactly when `s` is not
zero**, whatever seed was in place before. -/
theorem rand_eq_upstream_iff (old : Seed) (s : BitVec 32) :
    (∀ k, 1 ≤ k → (nthRand k (srand s old)).toInt = upstream s k / 2 ^ 33 ∧
      upstream s k =
        (multiplier ^ k * (s - 1).toNat + (multiplier ^ k - 1) / (multiplier - 1)) % 2 ^ 64) ↔
      s ≠ 0 := by
  constructor
  · intro h hzero
    subst hzero
    have hfirst : (nthRand 1 (srand 0 0)).toInt = upstream 0 1 / 2 ^ 33 := (h 1 le_rfl).1
    exact absurd hfirst (by decide)
  · intro hs k hk
    refine ⟨?_, upstream_eq s k⟩
    rw [nthRand_toInt hk, srand_toNat hs old, upstream]

/-- The first value after `srand(0)` is not the original's. -/
theorem rand_after_srand_zero :
    (nthRand 1 (srand 0 0)).toInt ≠ upstream 0 1 / 2 ^ 33 := by
  decide

end Mytilus.Prng.Rand
