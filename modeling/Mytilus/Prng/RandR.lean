import Mytilus.Base.FullPeriod
import Mytilus.Base.Memory
import Mytilus.Base.XorShift

/-!
# `rand_r`

A 32-bit congruential generator on a seed word that the caller owns.  The word
is mixed by `temper` before half of it is returned; `temper` is a permutation,
so every result comes from exactly two words.
-/

namespace Mytilus.Prng.RandR

open Memory

/-- `fn temper(mut x: u32) -> u32` -/
def temper (x : BitVec 32) : BitVec 32 :=
  let x := x ^^^ (x >>> 11)
  let x := x ^^^ ((x <<< 7) &&& 0x9d2c5680)
  let x := x ^^^ ((x <<< 15) &&& 0xefc60000)
  let x := x ^^^ (x >>> 18)
  x

/-- `int rand_r(unsigned *seed)`: the value returned and the memory left behind. -/
def randR (seed : Addr) (m : Memory) : BitVec 32 × Memory :=
  let s : BitVec 32 := readLE m seed 4
  let s := s * 1103515245 + 12345
  (temper s / 2, writeLE m seed 4 s)

/-- The memory after `k` calls. -/
def afterCalls (seed : Addr) (m : Memory) (k : ℕ) : Memory := (fun m => (randR seed m).2)^[k] m

/-- The seed word as a number. -/
def seedAt (m : Memory) (seed : Addr) : ℕ := (readLE m seed 4).toNat

/-! ## One call, then any number -/

section Calls

variable {seed : Addr} {m : Memory}

theorem seedAt_lt : seedAt m seed < 2 ^ 32 := (readLE m seed 4).isLt

theorem seedAt_randR :
    seedAt (randR seed m).2 seed = Lcg.step (2 ^ 32) 1103515245 12345 (seedAt m seed) := by
  have hwritten : readLE (randR seed m).2 seed 4 = readLE m seed 4 * 1103515245#32 + 12345#32 :=
    readLE_writeLE_self m seed _ (by norm_num)
  rw [seedAt, hwritten, BitVec.toNat_add, BitVec.toNat_mul, Lcg.step, seedAt]
  simp only [BitVec.toNat_ofNat, Nat.mul_comm]
  omega

theorem seedAt_afterCalls (k : ℕ) : seedAt (afterCalls seed m k) seed =
    (Lcg.step (2 ^ 32) 1103515245 12345)^[k] (seedAt m seed) := by
  induction k with
  | zero => rfl
  | succ k ih =>
      unfold afterCalls at ih ⊢
      rw [Function.iterate_succ_apply', Function.iterate_succ_apply', seedAt_randR, ih]

/-- A call returns half of the word it leaves behind, mixed. -/
theorem randR_toInt :
    (randR seed m).1.toInt =
      ((temper (BitVec.ofNat 32 (seedAt (randR seed m).2 seed))).toNat / 2 : ℕ) := by
  obtain ⟨s, hs⟩ : ∃ s : BitVec 32, s = readLE m seed 4 * 1103515245#32 + 12345#32 := ⟨_, rfl⟩
  have hwritten : readLE (randR seed m).2 seed 4 = s := by
    rw [hs]
    exact readLE_writeLE_self m seed _ (by norm_num)
  have hvalue : (randR seed m).1 = temper s / 2 := by rw [hs]; rfl
  have hhalf : (temper s / 2).toNat = (temper s).toNat / 2 := BitVec.toNat_udiv
  rw [seedAt, hwritten, BitVec.ofNat_toNat, BitVec.setWidth_eq, hvalue,
    BitVec.toInt_eq_toNat_of_lt (by omega), hhalf]

end Calls

/-! ## Mixing -/

theorem temper_injective : Function.Injective temper :=
  (XorShift.shiftRight_injective (by norm_num)).comp <|
    (XorShift.shiftLeft_and_injective (by norm_num) _).comp <|
      (XorShift.shiftLeft_and_injective (by norm_num) _).comp <|
        XorShift.shiftRight_injective (by norm_num)

/-- Two words are mixed to each pair of numbers with one half. -/
theorem card_temper_half {v : ℕ} (hv : v < 2 ^ 31) :
    ((Finset.range (2 ^ 32)).filter fun y => (temper (BitVec.ofNat 32 y)).toNat / 2 = v).card = 2 := by
  have hinj : Set.InjOn (fun y => (temper (BitVec.ofNat 32 y)).toNat) (Set.Iio (2 ^ 32)) := by
    intro y hy z hz h
    have hofNat := temper_injective (BitVec.eq_of_toNat_eq h)
    have hmod := congrArg BitVec.toNat hofNat
    rwa [BitVec.toNat_ofNat, BitVec.toNat_ofNat, Nat.mod_eq_of_lt hy, Nat.mod_eq_of_lt hz] at hmod
  rw [FullPeriod.card_filter_of_injOn (P := fun z => z / 2 = v) (fun y _ => BitVec.isLt _) hinj,
    show 2 ^ 32 = 2 ^ 31 * 2 by norm_num]
  exact FullPeriod.card_div_eq (by norm_num) hv

end Mytilus.Prng.RandR
