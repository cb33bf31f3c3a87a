import Mytilus.Str.Strcpy

/-!
# `stpncpy` and `strncpy`

The first loop copies until it has copied a terminator or the count is used up;
at a terminator it leaves pointer and count as they are, and the second loop
fills what is left with zeros, that terminator's place included.
-/

namespace Mytilus.Str.Checked

open Memory Mapped

/-- `while n > 0 { *d = *s; if *s == 0 { break; } d = d.add(1); s = s.add(1); n -= 1; }`:
what becomes of `d`, `n` and the memory. -/
def copyLoop : ℕ → Addr → Addr → Mapped → Option (Addr × ℕ × Mapped)
  | 0, d, _, m => some (d, 0, m)
  | n + 1, d, s, m => do
      let copied ← copyByte d s m
      if copied.1 = 0 then return (d, n + 1, copied.2)
      else copyLoop n (ptrAdd d 1) (ptrAdd s 1) copied.2

/-- `while i < n { *d.add(i) = 0; i += 1; }` -/
def zeroLoop (d : Addr) (n i : ℕ) (m : Mapped) : Option Mapped :=
  if i < n then do
    let m ← m.store (ptrAdd d i) 0
    zeroLoop d n (i + 1) m
  else
    return m
termination_by n - i

/-- `char *__stpncpy(char *d, const char *s, size_t n)`, and `stpncpy`, which forwards to it. -/
def stpncpy (d s : Addr) (n : BitVec 64) (m : Mapped) : Option (Addr × Mapped) := do
  let copied ← copyLoop n.toNat d s m
  let m ← zeroLoop copied.1 copied.2.1 0 copied.2.2
  return (copied.1, m)

/-- `char *strncpy(char *d, const char *s, size_t n)` -/
def strncpy (d s : Addr) (n : BitVec 64) (m : Mapped) : Option (Addr × Mapped) := do
  let out ← stpncpy d s n m
  return (d, out.2)

section Loops

variable {m : Mapped} {d s : Addr} {n : ℕ} {xs : List Byte}

/-- The number of bytes that a copy of at most `n` reads of a string. -/
def bytesRead (n : ℕ) (xs : List Byte) : ℕ := min n (xs.length + 1)

/-- The copied bytes are the source's, and there may be a terminator after them. -/
theorem copyLoop_eq (hs : CutAt m s n xs) (hd : Room m d n) (hsep : Apart d n s (bytesRead n xs))
    (hn : n ≤ 2 ^ 64) :
    ∃ zs m', copyLoop n d s m = some (ptrAdd d xs.length, n - xs.length, m') ∧ Wrote d zs m m' ∧
      zs.take xs.length = xs ∧ xs.length ≤ zs.length ∧ zs.length ≤ n := by
  induction n generalizing m d s xs with
  | zero =>
      obtain rfl : xs = [] := hs
      refine ⟨[], m, ?_, .nil d m, rfl, le_rfl, le_rfl⟩
      rw [copyLoop, List.length_nil, ptrAdd_zero]
  | succ n ih =>
      cases xs with
      | nil =>
          have hnul : m.read s = some 0 := hs
          have hone : bytesRead (n + 1) [] = 0 + 1 := by simp [bytesRead]
          rw [hone] at hsep
          obtain ⟨m', hcopy, hwrote⟩ := copyByte_eq hnul hd hsep
          refine ⟨[0], m', ?_, hwrote, rfl, Nat.zero_le 1, by simp⟩
          rw [copyLoop, bind_of_some _ hcopy, if_pos rfl, List.length_nil, ptrAdd_zero]
          rfl
      | cons x xs =>
          obtain ⟨hx, hne, hrest⟩ := hs
          have hread : bytesRead (n + 1) (x :: xs) = bytesRead n xs + 1 := by
            simp [bytesRead, Nat.succ_min_succ]
          rw [hread] at hsep
          obtain ⟨m₁, hcopy, hwrote⟩ := copyByte_eq hx hd hsep
          have hrest' : CutAt m₁ (ptrAdd s 1) n xs := by
            refine hrest.congr fun i hi hin => ?_
            rw [ptrAdd_one_ptrAdd]
            exact hsep.read_eq hwrote (by simp) (by unfold bytesRead; omega)
          obtain ⟨zs, m', hloop, hwrote', htake, hle, hlen⟩ :=
            ih hrest' (hd.tail hwrote) (hsep.tail hn) (by omega)
          refine ⟨x :: zs, m', ?_, hwrote.cons hwrote' (by omega), ?_, Nat.succ_le_succ hle,
            Nat.succ_le_succ hlen⟩
          · rw [copyLoop, bind_of_some _ hcopy, if_neg hne, hloop, ptrAdd_one_ptrAdd,
              List.length_cons, Nat.add_sub_add_right]
          · rw [List.length_cons, List.take_succ_cons, htake]

theorem zeroLoop_eq (hd : Room m d n) :
    ∃ m', zeroLoop d n 0 m = some m' ∧ Wrote d (List.replicate n 0) m m' := by
  have hlen : (List.replicate n (0 : Byte)).length = n := List.length_replicate
  refine exists_wrote_loop (zeroLoop d n) _ (fun i b hb m => ?_) (fun m => ?_) ?_
  · rw [List.getElem?_replicate] at hb
    split_ifs at hb with hi
    obtain rfl : 0 = b := Option.some.inj hb
    rw [zeroLoop, if_pos hi]
  · rw [hlen, zeroLoop, if_neg (lt_irrefl n)]
    rfl
  · rwa [hlen]

/-- The bytes of the source up to its terminator, and zeros after them. -/
theorem stpncpy_eq {n : BitVec 64} (hs : CutAt m s n.toNat xs) (hd : Room m d n.toNat)
    (hsep : Apart d n.toNat s (bytesRead n.toNat xs)) :
    ∃ m', stpncpy d s n m = some (ptrAdd d xs.length, m') ∧ strncpy d s n m = some (d, m') ∧
      Wrote d (xs ++ List.replicate (n.toNat - xs.length) 0) m m' := by
  have hn : n.toNat ≤ 2 ^ 64 := n.isLt.le
  have hlen := hs.length_le
  obtain ⟨zs, m₁, hcopy, hwrote, htake, hle, hzs⟩ := copyLoop_eq hs hd hsep hn
  have hroom : Room m₁ (ptrAdd d xs.length) (n.toNat - xs.length) := by
    intro k hk
    rw [ptrAdd_ptrAdd]
    exact hwrote.isSome (hd _ (by omega))
  obtain ⟨m', hzero, hwrote'⟩ := zeroLoop_eq hroom
  have hcount : (List.replicate (n.toNat - xs.length) (0 : Byte)).length = n.toNat - xs.length :=
    List.length_replicate
  have hall := hwrote.trans hwrote' hle (by omega) (by omega)
  rw [htake] at hall
  have hstpncpy : stpncpy d s n m = some (ptrAdd d xs.length, m') := by
    rw [stpncpy, bind_of_some _ hcopy, bind_of_some _ hzero]
    rfl
  refine ⟨m', hstpncpy, ?_, hall⟩
  rw [strncpy, bind_of_some _ hstpncpy]
  rfl

end Loops

/-- **`stpncpy` fills the destination.**  It holds the bytes of the source up to its
terminator, and zeros after them; nothing else is written, and nothing is read
past the terminator or the count. -/
theorem stpncpy_fills (m : Mapped) (d s : Addr) (n : BitVec 64) (xs : List Byte)
    (hs : CutAt m s n.toNat xs) (hd : Room m d n.toNat)
    (hsep : Apart d n.toNat s (bytesRead n.toNat xs)) :
    ∃ m', stpncpy d s n m = some (ptrAdd d xs.length, m') ∧ strncpy d s n m = some (d, m') ∧
      Wrote d (xs ++ List.replicate (n.toNat - xs.length) 0) m m' ∧
      ((∃ k < n.toNat, m'.read (ptrAdd d k) = some 0) ↔
        ∃ k < n.toNat, m.read (ptrAdd s k) = some 0) := by
  obtain ⟨m', hstpncpy, hstrncpy, hfilled⟩ := stpncpy_eq hs hd hsep
  refine ⟨m', hstpncpy, hstrncpy, hfilled, ?_⟩
  obtain ⟨hbytes, hzeros⟩ := bytesAt_append.mp hfilled.bytes
  have hcut : CutAt m' d n.toNat xs := by
    refine cutAt_iff.mpr ⟨hbytes, hs.ne_zero, hs.length_le, fun hlt => ?_⟩
    -- the first of the zeros stands behind the copied bytes
    obtain ⟨k, hk⟩ := Nat.exists_eq_succ_of_ne_zero (Nat.sub_ne_zero_of_lt hlt)
    rw [hk] at hzeros
    exact hzeros.1
  rw [hcut.nul_iff, hs.nul_iff]

/-- The string `"a"` at `0x1000`, and three bytes at `0x2000`. -/
def stringAndRoom : Mapped :=
  view (fun a => if a = 0x1000 then 97 else if a = 0x1001 then 0 else 255)
    fun a => Within 0x1000 2 a ∨ Within 0x2000 3 a

theorem stpncpy_fills_three :
    ∃ m', stpncpy 0x2000 0x1000 3 stringAndRoom = some (0x2001, m') ∧
      strncpy 0x2000 0x1000 3 stringAndRoom = some (0x2000, m') ∧
      Wrote 0x2000 [97, 0, 0] stringAndRoom m' ∧
      ((∃ k < 3, m'.read (ptrAdd 0x2000 k) = some 0) ↔
        ∃ k < 3, stringAndRoom.read (ptrAdd 0x1000 k) = some 0) :=
  stpncpy_fills stringAndRoom 0x2000 0x1000 3 [97] ⟨rfl, by decide, rfl⟩
    (by unfold Room; decide) (by unfold Apart; decide)

end Mytilus.Str.Checked
