import Mytilus.Base.Memory

/-!
# The byte loops of `mem.rs`

`memcpy` and `memset` as the host build has them: one byte a round, upwards.
Each loop is followed by what it has patched after any number of rounds.
-/

namespace Mytilus.Str

open Memory

/-! ## `memcpy` -/

/-- `while i < n { *d.add(i) = *s.add(i); i += 1; }` -/
def memcpyLoop (d s : Addr) (n i : ℕ) (m : Memory) : Memory :=
  if i < n then memcpyLoop d s n (i + 1) (m.write (ptrAdd d i) (m (ptrAdd s i))) else m
termination_by n - i

/-- `void *memcpy(void *dest, const void *src, size_t n)`: the returned pointer and the memory. -/
def memcpy (dest src : Addr) (n : BitVec 64) (m : Memory) : Addr × Memory :=
  (dest, memcpyLoop dest src n.toNat 0 m)

/-- The byte of the source that `memcpy` puts at offset `k` of the destination. -/
def sourceByte (m : Memory) (src : Addr) (k : ℕ) : Byte := m (ptrAdd src k)

/-- The loop copies the source as it was, if it never falls behind the destination. -/
theorem memcpyLoop_patched_of_ahead {d s : Addr} {n : ℕ} {m₀ : Memory} (hn : n ≤ 2 ^ 64)
    (hahead : ∀ i < n, i ≤ offset d (ptrAdd s i)) (i : ℕ) (m : Memory) (hi : i ≤ n)
    (h : Patched d (sourceByte m₀ s) (Set.Iio i) m₀ m) :
    Patched d (sourceByte m₀ s) (Set.Iio n) m₀ (memcpyLoop d s n i m) := by
  fun_induction memcpyLoop d s n i m with
  | case1 i m hlt ih =>
      apply ih hlt
      -- the byte has not been written over, being ahead of what has
      have hsource : m (ptrAdd s i) = sourceByte m₀ s i :=
        (h _).2 fun hmem => absurd (hahead i hlt) (not_le.mpr hmem)
      refine (h.write (by omega) hsource).congr_set fun k _ => ?_
      simp only [Set.mem_insert_iff, Set.mem_Iio]
      omega
  | case2 i m hge =>
      obtain rfl : i = n := by omega
      exact h

/-- The regions may also be separate. -/
theorem memcpyLoop_patched {d s : Addr} {n : ℕ} {m₀ : Memory} (hn : n ≤ 2 ^ 64)
    (hsep : Separate d n s n) (i : ℕ) (m : Memory) (hi : i ≤ n)
    (h : Patched d (sourceByte m₀ s) (Set.Iio i) m₀ m) :
    Patched d (sourceByte m₀ s) (Set.Iio n) m₀ (memcpyLoop d s n i m) := by
  refine memcpyLoop_patched_of_ahead hn (fun i hi => not_lt.mp fun hlt => ?_) i m hi h
  exact hsep _ (lt_trans hlt hi) (within_ptrAdd hi hn)

/-- **`memcpy` copies the region and nothing else.** -/
theorem memcpy_patched {dest src : Addr} {n : BitVec 64} (m : Memory)
    (hsep : Separate dest n.toNat src n.toNat) :
    Patched dest (sourceByte m src) (Set.Iio n.toNat) m (memcpy dest src n m).2 :=
  memcpyLoop_patched n.isLt.le hsep 0 m (Nat.zero_le _)
    ((Patched.refl dest _ m).congr_set fun k _ => by simp)

/-! ## `memset` -/

/-- `while i < n { *d.add(i) = byte; i += 1; }` -/
def memsetLoop (d : Addr) (byte : Byte) (n i : ℕ) (m : Memory) : Memory :=
  if i < n then memsetLoop d byte n (i + 1) (m.write (ptrAdd d i) byte) else m
termination_by n - i

/-- `void *memset(void *dest, int c, size_t n)`: the returned pointer and the memory. -/
def memset (dest : Addr) (c : BitVec 32) (n : BitVec 64) (m : Memory) : Addr × Memory :=
  (dest, memsetLoop dest (c.setWidth 8) n.toNat 0 m)

theorem memsetLoop_patched {d : Addr} {byte : Byte} {n : ℕ} {m₀ : Memory} (hn : n ≤ 2 ^ 64)
    (i : ℕ) (m : Memory) (hi : i ≤ n) (h : Patched d (fun _ => byte) (Set.Iio i) m₀ m) :
    Patched d (fun _ => byte) (Set.Iio n) m₀ (memsetLoop d byte n i m) := by
  fun_induction memsetLoop d byte n i m with
  | case1 i m hlt ih =>
      apply ih hlt
      refine (h.write (by omega) rfl).congr_set fun k _ => ?_
      simp only [Set.mem_insert_iff, Set.mem_Iio]
      omega
  | case2 i m hge =>
      obtain rfl : i = n := by omega
      exact h

/-- **`memset` fills the region and nothing else.** -/
theorem memset_patched (dest : Addr) (c : BitVec 32) (n : BitVec 64) (m : Memory) :
    Patched dest (fun _ => c.setWidth 8) (Set.Iio n.toNat) m (memset dest c n m).2 :=
  memsetLoop_patched n.isLt.le 0 m (Nat.zero_le _)
    ((Patched.refl dest _ m).congr_set fun k _ => by simp)

end Mytilus.Str
