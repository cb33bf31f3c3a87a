import Mytilus.Str.Mem

/-!
# `memmove`

The loop that copies upwards is that of `memcpy`.  It may run when the source
lies ahead of the destination: a byte is read before the destination comes to it.
Downwards it is the other way round.  `memmove_patched` makes that argument once, and
`memmove_moves` says what it comes to: the destination has the source as it was,
however the two overlap.
-/

namespace Mytilus.Str

open Memory

/-- `while i > 0 { i -= 1; *d.add(i) = *s.add(i); }` -/
def memmoveDown (d s : Addr) : (i : ℕ) → Memory → Memory
  | 0, m => m
  | i + 1, m => memmoveDown d s i (m.write (ptrAdd d i) (m (ptrAdd s i)))

/-- `void *memmove(void *dest, const void *src, size_t n)` -/
def memmove (dest src : Addr) (n : BitVec 64) (m : Memory) : Addr × Memory :=
  if dest < src then
    (dest, memcpyLoop dest src n.toNat 0 m)
  else if src < dest then
    (dest, memmoveDown dest src n.toNat m)
  else
    (dest, m)

section Directions

variable {d s : Addr} {n : ℕ}

/-- A source above the destination is ahead of it. -/
theorem le_offset_of_lt (hlt : d < s) (hs : s.toNat + n ≤ 2 ^ 64) {i : ℕ} (hi : i < n) :
    i ≤ offset d (ptrAdd s i) := by
  unfold offset ptrAdd
  bv_omega

/-- A byte of a source below the destination is not among those above it there. -/
theorem not_mem_Ioo_of_lt (hlt : s < d) (hs : s.toNat + n ≤ 2 ^ 64) (hd : d.toNat + n ≤ 2 ^ 64)
    {i : ℕ} (hi : i < n) : offset d (ptrAdd s i) < i ∨ n ≤ offset d (ptrAdd s i) := by
  unfold offset ptrAdd
  bv_omega

theorem memmoveDown_patched {m₀ : Memory} (hn : n ≤ 2 ^ 64)
    (hbehind : ∀ i < n, offset d (ptrAdd s i) ∉ Set.Ioo i n) (i : ℕ) (m : Memory) (hi : i ≤ n)
    (h : Patched d (sourceByte m₀ s) (Set.Ico i n) m₀ m) :
    Patched d (sourceByte m₀ s) (Set.Iio n) m₀ (memmoveDown d s i m) := by
  induction i generalizing m with
  | zero => exact h.congr_set fun k _ => by simp
  | succ i ih =>
      apply ih _ (Nat.le_of_succ_le hi)
      have hsource : m (ptrAdd s i) = sourceByte m₀ s i := (h _).2 (hbehind i hi)
      refine (h.write (by omega) hsource).congr_set fun k _ => ?_
      simp only [Set.mem_insert_iff, Set.mem_Ico]
      omega

end Directions

/-- `memmove` returns its destination. -/
theorem memmove_fst (dest src : Addr) (n : BitVec 64) (m : Memory) :
    (memmove dest src n m).1 = dest := by
  unfold memmove
  split_ifs <;> rfl

/-- `memmove` puts the source as it was at each offset, and changes nothing else. -/
theorem memmove_patched {dest src : Addr} {n : BitVec 64} (m : Memory)
    (hdest : dest.toNat + n.toNat ≤ 2 ^ 64) (hsrc : src.toNat + n.toNat ≤ 2 ^ 64) :
    Patched dest (sourceByte m src) (Set.Iio n.toNat) m (memmove dest src n m).2 := by
  have hempty : Patched dest (sourceByte m src) ∅ m m := .refl dest _ m
  unfold memmove
  split_ifs with hlt hgt
  · refine memcpyLoop_patched_of_ahead n.isLt.le (fun j hj => le_offset_of_lt hlt hsrc hj) 0 m
      (Nat.zero_le _) (hempty.congr_set fun k _ => by simp)
  · refine memmoveDown_patched n.isLt.le (fun j hj hmem => ?_) _ m le_rfl
      (hempty.congr_set fun k _ => by simp)
    exact (not_mem_Ioo_of_lt hgt hsrc hdest hj).elim hmem.1.not_gt hmem.2.not_ge
  · -- the regions are one: each byte is already the one due
    obtain rfl : dest = src := BitVec.le_antisymm (BitVec.not_lt.mp hgt) (BitVec.not_lt.mp hlt)
    exact fun a => ⟨fun _ => by rw [sourceByte, ptrAdd_offset], fun _ => rfl⟩

/-- **`memmove` copies the region as it was, however the two overlap.** -/
theorem memmove_moves (dest src : Addr) (n : BitVec 64) (m : Memory)
    (hdest : dest.toNat + n.toNat ≤ 2 ^ 64) (hsrc : src.toNat + n.toNat ≤ 2 ^ 64) :
    (memmove dest src n m).1 = dest ∧
      (∀ k < n.toNat, (memmove dest src n m).2 (ptrAdd dest k) = m (ptrAdd src k)) ∧
      SameOutside dest n.toNat m (memmove dest src n m).2 := by
  have hpatched := memmove_patched m hdest hsrc
  refine ⟨memmove_fst dest src n m, fun k hk => ?_, fun a ha => (hpatched a).2 ha⟩
  have hbyte := (hpatched (ptrAdd dest k)).1
  rw [offset_ptrAdd (by omega)] at hbyte
  exact hbyte hk

/-- Seven bytes, two places up. -/
theorem memmove_moves_up_two :
    (memmove 0x1002 0x1000 7 fun a => a.setWidth 8).1 = 0x1002 ∧
      (∀ k < 7, (memmove 0x1002 0x1000 7 fun a => a.setWidth 8).2 (ptrAdd 0x1002 k) =
        (ptrAdd 0x1000 k).setWidth 8) ∧
      SameOutside 0x1002 7 (fun a => a.setWidth 8)
        (memmove 0x1002 0x1000 7 fun a => a.setWidth 8).2 :=
  memmove_moves 0x1002 0x1000 7 (fun a => a.setWidth 8) (by decide) (by decide)

end Mytilus.Str
