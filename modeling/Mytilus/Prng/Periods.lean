import Mytilus.Base.FullPeriod
import Mytilus.Prng.Rand
import Mytilus.Prng.RandR
import Mytilus.Prng.RandomRuns

/-!
# The congruential generators have full period

`rand_r`, `rand` and `random` on a buffer of degree 0 each step a congruential
generator modulo a power of two whose constants pass the full-period test.  What
they return over a full period is therefore equidistributed: the values are
quotients of the states, and for `rand_r` of the states in another order.

`lcgs_full_period` states it for the three of them.  For `random` it starts in any
state of degree 0 that a run of the family reaches, by way of the bank
(`Sim.lcg_of_degree_zero`), and says that `initstate` makes such states.
-/

namespace Mytilus.Prng

open Finset

/-! ## `rand_r` -/

namespace RandR

open Memory

variable {seed : Addr} {m : Memory}

/-- The seed word is back exactly after the multiples of `2 ^ 32` calls. -/
theorem seedAt_afterCalls_eq_iff (k : ℕ) :
    seedAt (afterCalls seed m k) seed = seedAt m seed ↔ 2 ^ 32 ∣ k := by
  rw [seedAt_afterCalls]
  exact Lcg.iterate_eq_self_iff (by norm_num) (by norm_num) seedAt_lt k

/-- Over `2 ^ 32` calls every value is returned twice. -/
theorem card_value {v : ℕ} (hv : v < 2 ^ 31) :
    #{k ∈ range (2 ^ 32) | (randR seed (afterCalls seed m k)).1.toInt = v} = 2 := by
  obtain ⟨x, hx⟩ : ∃ x, x = Lcg.step (2 ^ 32) 1103515245 12345 (seedAt m seed) := ⟨_, rfl⟩
  have hlt : x < 2 ^ 32 := hx ▸ Lcg.step_lt (by norm_num)
  have hvalue : ∀ k, (randR seed (afterCalls seed m k)).1.toInt = v ↔
      (temper (BitVec.ofNat 32 ((Lcg.step (2 ^ 32) 1103515245 12345)^[k] x))).toNat / 2 = v := by
    intro k
    rw [randR_toInt, seedAt_randR, seedAt_afterCalls, Nat.cast_inj, hx,
      ← Function.iterate_succ_apply' (Lcg.step (2 ^ 32) 1103515245 12345),
      Function.iterate_succ_apply]
  simp only [hvalue]
  rw [Lcg.card_filter_iterate (by norm_num) (by norm_num) hlt
    fun y => (temper (BitVec.ofNat 32 y)).toNat / 2 = v]
  exact card_temper_half hv

end RandR

/-! ## `rand` -/

namespace Rand

theorem seedAfter_eq_iff (seed : Seed) (k : ℕ) : seedAfter k seed = seed ↔ 2 ^ 64 ∣ k := by
  rw [← BitVec.toNat_inj, seedAfter_toNat]
  exact Lcg.iterate_eq_self_iff (by norm_num [multiplier]) (by norm_num) seed.isLt k

/-- Over `2 ^ 64` calls every value is returned `2 ^ 33` times. -/
theorem card_value (seed : Seed) {v : ℕ} (hv : v < 2 ^ 31) :
    #{k ∈ range (2 ^ 64) | (nthRand (k + 1) seed).toInt = v} = 2 ^ 33 := by
  obtain ⟨x, hx⟩ : ∃ x, x = Lcg.step (2 ^ 64) multiplier 1 seed.toNat := ⟨_, rfl⟩
  have hlt : x < 2 ^ 64 := hx ▸ Lcg.step_lt (by norm_num)
  have hvalue : ∀ k, (nthRand (k + 1) seed).toInt = v ↔
      (Lcg.step (2 ^ 64) multiplier 1)^[k] x / 2 ^ 33 = v := by
    intro k
    rw [nthRand_toInt (Nat.le_add_left 1 k), Function.iterate_succ_apply, ← hx]
    norm_cast
  simp only [hvalue]
  rw [Lcg.card_filter_iterate (by norm_num [multiplier]) (by norm_num) hlt fun y => y / 2 ^ 33 = v,
    show 2 ^ 64 = 2 ^ 31 * 2 ^ 33 by norm_num]
  exact FullPeriod.card_div_eq (by norm_num) hv

end Rand

/-! ## `random` on a buffer of degree 0 -/

namespace Random

theorem lcg31_toNat (x : BitVec 32) :
    (lcg31 x).toNat = Lcg.step (2 ^ 31) 1103515245 12345 x.toNat := by
  rw [lcg31, BitVec.toNat_and, BitVec.toNat_add, BitVec.toNat_mul, Lcg.step]
  have hmask : (0x7fffffff : BitVec 32).toNat = 2 ^ 31 - 1 := rfl
  have hmultiplier : (1103515245 : BitVec 32).toNat = 1103515245 := rfl
  have haddend : (12345 : BitVec 32).toNat = 12345 := rfl
  rw [hmask, hmultiplier, haddend, Nat.and_two_pow_sub_one_eq_mod]
  omega

theorem lcg31_iterate_toNat (x : BitVec 32) (k : ℕ) :
    (lcg31^[k] x).toNat = (Lcg.step (2 ^ 31) 1103515245 12345)^[k] x.toNat := by
  induction k with
  | zero => rfl
  | succ k ih => rw [Function.iterate_succ_apply', Function.iterate_succ_apply', lcg31_toNat, ih]

/-- Over `2 ^ 31` calls every value is returned once. -/
theorem count_lcg {b : Bank} {x : BitVec 32} (hb : b.gen b.active = .lcg x) {v : ℕ}
    (hv : v < 2 ^ 31) :
    (b.calls (List.replicate (2 ^ 31) .random)).1.count (.long (BitVec.ofNat 64 v)) = 1 := by
  obtain ⟨y, hy⟩ : ∃ y, y = Lcg.step (2 ^ 31) 1103515245 12345 x.toNat := ⟨_, rfl⟩
  have hlt : y < 2 ^ 31 := hy ▸ Lcg.step_lt (by norm_num)
  have hvalue : ∀ k, Reply.long ((b.gen b.active).after k).next.1 = .long (BitVec.ofNat 64 v) ↔
      (Lcg.step (2 ^ 31) 1103515245 12345)^[k] y = v := by
    intro k
    have hnext : ((b.gen b.active).after k).next.1 = (lcg31^[k + 1] x).setWidth 64 := by
      rw [hb, after_lcg, Function.iterate_succ_apply']
      rfl
    have hsmall : (Lcg.step (2 ^ 31) 1103515245 12345)^[k] y < 2 ^ 31 :=
      Lcg.iterate_lt (by norm_num) hlt k
    rw [Reply.long.injEq, hnext, ← BitVec.toNat_inj, BitVec.toNat_setWidth, lcg31_iterate_toNat,
      BitVec.toNat_ofNat, Function.iterate_succ_apply, ← hy]
    omega
  rw [Bank.calls_random, FullPeriod.count_map_range]
  simp only [hvalue]
  rw [Lcg.card_filter_iterate (by norm_num) (by norm_num) hlt fun y => y = v]
  exact FullPeriod.card_eq_self hv

/-- The generator of a buffer of degree 0. -/
theorem Sim.lcg_of_degree_zero {table : Addr} {s : Store} {b : Bank} (h : Sim table s b)
    (hn : s.n = 0) : ∃ x, b.gen b.active = .lcg x := by
  have hposition := h.position
  cases hgen : b.gen b.active with
  | lcg x => exact ⟨x, rfl⟩
  | lagged g =>
      rw [hgen] at hposition
      have hzero : g.d.n = 0 := by rw [← hposition.1, hn]; rfl
      have hcases := g.d.cases
      omega

/-- `initstate` with 8 to 31 bytes leaves a state of degree 0. -/
theorem degree_zero_of_initstate {table : Addr} {mem : Memory} (hload : Loaded table mem)
    {cs : List Call} (hcs : (Bank.start table).Allowed cs) {seed : BitVec 32} {p : Addr}
    {size : BitVec 64} (hlo : 8 ≤ size) (hhi : size < 32) (hroom : p.toNat + size.toNat ≤ 2 ^ 64) :
    ∃ rs s, runCalls table (cs ++ [.initstate seed p size]) (start mem) = some (rs, s) ∧ s.n = 0 := by
  have hallowed : (Bank.start table).Allowed (cs ++ [.initstate seed p size]) :=
    Bank.allowed_append.mpr ⟨hcs, fun _ => hroom, trivial⟩
  obtain ⟨s, hrun, hsim⟩ := (sim_start hload).runCalls hallowed
  refine ⟨_, s, hrun, ?_⟩
  have hdegree : degreeOf size.toNat = none := if_pos (by bv_omega)
  have hgen : ((Bank.start table).calls (cs ++ [.initstate seed p size])).2.gen
      ((Bank.start table).calls (cs ++ [.initstate seed p size])).2.active = .lcg seed := by
    have hbig : ¬ size < 8 := by bv_omega
    simp only [Bank.calls_append, Bank.calls, Bank.call, if_neg hbig, hdegree]
    exact Bank.gen_install_self p _ _
  have hposition := hsim.position
  rw [hgen] at hposition
  exact BitVec.eq_of_toNat_eq hposition.1

end Random

/-! ## All three -/

/-- **The congruential generators have full period and equidistributed values.**
For every seed word and memory around it, `rand_r` restores the word exactly at
the multiples of `2 ^ 32` calls and returns each value twice in between; for
every `RAND_SEED`, `rand` restores it exactly at the multiples of `2 ^ 64` calls
and returns each value `2 ^ 33` times; and after any calls that end on a state of
degree 0, as `initstate` with 8 to 31 bytes does, the next `2 ^ 31` calls of
`random` return each value once. -/
theorem lcgs_full_period :
    (∀ (seed : Addr) (m : Memory),
      (∀ k, RandR.seedAt (RandR.afterCalls seed m k) seed = RandR.seedAt m seed ↔ 2 ^ 32 ∣ k) ∧
      ∀ v : ℕ, v < 2 ^ 31 →
        #{k ∈ range (2 ^ 32) | (RandR.randR seed (RandR.afterCalls seed m k)).1.toInt = v} = 2) ∧
    (∀ seed : Rand.Seed,
      (∀ k, Rand.seedAfter k seed = seed ↔ 2 ^ 64 ∣ k) ∧
      ∀ v : ℕ, v < 2 ^ 31 →
        #{k ∈ range (2 ^ 64) | (Rand.nthRand (k + 1) seed).toInt = v} = 2 ^ 33) ∧
    ∀ (table : Addr) (mem : Memory) (cs : List Random.Call), Random.Loaded table mem →
      (Random.Bank.start table).Allowed cs →
      (∀ (seed : BitVec 32) (p : Addr) (size : BitVec 64), 8 ≤ size → size < 32 →
        p.toNat + size.toNat ≤ 2 ^ 64 → ∃ rs s,
          Random.runCalls table (cs ++ [.initstate seed p size]) (Random.start mem) =
            some (rs, s) ∧ s.n = 0) ∧
      ∀ rs s, Random.runCalls table cs (Random.start mem) = some (rs, s) → s.n = 0 →
        ∃ vs s', Random.runCalls table (List.replicate (2 ^ 31) .random) s = some (vs, s') ∧
          ∀ v : ℕ, v < 2 ^ 31 → vs.count (.long (BitVec.ofNat 64 v)) = 1 := by
  refine ⟨fun seed m => ⟨RandR.seedAt_afterCalls_eq_iff, fun v => RandR.card_value⟩,
    fun seed => ⟨Rand.seedAfter_eq_iff seed, fun v => Rand.card_value seed⟩,
    fun table mem cs hload hcs => ⟨fun seed p size => Random.degree_zero_of_initstate hload hcs,
      fun rs s hrun hn => ?_⟩⟩
  obtain ⟨s₁, hrun₁, hsim⟩ := (Random.sim_start hload).runCalls hcs
  obtain ⟨-, rfl⟩ := Prod.mk.inj (Option.some.inj (hrun.symm.trans hrun₁))
  -- the bank's generator behind a state of degree 0 is the congruential one
  obtain ⟨x, hgen⟩ := hsim.lcg_of_degree_zero hn
  obtain ⟨s', hruns, -⟩ := hsim.runCalls (Random.Bank.allowed_random _ (2 ^ 31))
  exact ⟨_, s', hruns, fun v => Random.count_lcg hgen⟩

/-- A table at `0x1000` and a state of 8 bytes at `0x2000`. -/
theorem lcgs_full_period_eight_bytes :
    ∃ rs s vs s',
      Random.runCalls 0x1000 [.initstate 5 0x2000 8] (Random.start (Random.image 0x1000)) =
        some (rs, s) ∧
      Random.runCalls 0x1000 (List.replicate (2 ^ 31) .random) s = some (vs, s') ∧
      vs.count (.long 7) = 1 := by
  have hload := Random.loaded_image 0x1000 (by decide)
  obtain ⟨rs, s, hrun, hn⟩ := (lcgs_full_period.2.2 0x1000 _ [] hload trivial).1 5 0x2000 8
    (by decide) (by decide) (by decide)
  obtain ⟨vs, s', hruns, hcount⟩ := (lcgs_full_period.2.2 0x1000 _ [.initstate 5 0x2000 8] hload
    (by decide)).2 rs s hrun hn
  exact ⟨rs, s, vs, s', hrun, hruns, hcount 7 (by norm_num)⟩

end Mytilus.Prng
