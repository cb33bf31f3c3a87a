import Mytilus.Base.Mapped

/-!
# `stpcpy` and `strcpy`

Each round of the copying loops stores a byte of the source and then reads it
from the source again, to see whether it was the terminator; the byte is still
there if the destination does not overlap the source.
-/

namespace Mytilus.Str.Checked

open Memory Mapped

/-- `*d = *s;`, and what `*s` is then. -/
def copyByte (d s : Addr) (m : Mapped) : Option (Byte × Mapped) := do
  let b ← m.read s
  let m ← m.store d b
  let b ← m.read s
  return (b, m)

/-- `loop { *d = *s; if *s == 0 { return d; } d = d.add(1); s = s.add(1); }` -/
def stpcpyLoop : ℕ → Addr → Addr → Mapped → Option (Addr × Mapped)
  | 0, _, _, _ => none
  | k + 1, d, s, m => do
      let copied ← copyByte d s m
      if copied.1 = 0 then return (d, copied.2)
      else stpcpyLoop k (ptrAdd d 1) (ptrAdd s 1) copied.2

/-- `char *__stpcpy(char *d, const char *s)`, and `stpcpy`, which forwards to it. -/
def stpcpy (d s : Addr) (m : Mapped) : Option (Addr × Mapped) := stpcpyLoop scanSteps d s m

/-- `char *strcpy(char *d, const char *s)` -/
def strcpy (d s : Addr) (m : Mapped) : Option (Addr × Mapped) := do
  let out ← stpcpy d s m
  return (d, out.2)

section Copies

variable {m m' : Mapped} {d s : Addr} {n k : ℕ} {b : Byte} {xs : List Byte}

theorem copyByte_eq (hb : m.read s = some b) (hd : Room m d (n + 1))
    (hsep : Apart d (n + 1) s (k + 1)) :
    ∃ m', copyByte d s m = some (b, m') ∧ Wrote d [b] m m' := by
  have hmapped := hd 0 (Nat.succ_pos n)
  rw [ptrAdd_zero] at hmapped
  obtain ⟨m', hstore, hwrote⟩ := exists_store hmapped b
  have hsame := hsep.read_eq hwrote (Nat.succ_le_succ (Nat.zero_le n)) (Nat.succ_pos k)
  rw [ptrAdd_zero, hb] at hsame
  refine ⟨m', ?_, hwrote⟩
  rw [copyByte, bind_of_some _ hb, bind_of_some _ hstore, bind_of_some _ hsame]
  rfl

theorem stpcpyLoop_eq (hs : StringAt m s xs) (hd : Room m d (xs.length + 1))
    (hsep : Apart d (xs.length + 1) s (xs.length + 1)) (hlen : xs.length < 2 ^ 64)
    (hk : xs.length < k) :
    ∃ m', stpcpyLoop k d s m = some (ptrAdd d xs.length, m') ∧ Wrote d (xs ++ [0]) m m' := by
  induction xs generalizing m d s k with
  | nil =>
      obtain ⟨k, rfl⟩ := exists_round hk
      have hnul : m.read s = some 0 := hs
      obtain ⟨m', hcopy, hwrote⟩ := copyByte_eq hnul hd hsep
      refine ⟨m', ?_, hwrote⟩
      rw [stpcpyLoop, bind_of_some _ hcopy, if_pos rfl, List.length_nil, ptrAdd_zero]
      rfl
  | cons x xs ih =>
      obtain ⟨k, rfl⟩ := exists_round hk
      obtain ⟨hx, hne, hrest⟩ := hs
      rw [List.length_cons] at hlen
      obtain ⟨m₁, hcopy, hwrote⟩ := copyByte_eq hx hd hsep
      -- the byte just stored is none of those still to be read
      have hrest' : StringAt m₁ (ptrAdd s 1) xs := by
        refine hrest.congr fun i hi => ?_
        rw [ptrAdd_one_ptrAdd]
        exact hsep.read_eq hwrote (by simp) (by simpa using hi)
      obtain ⟨m', hloop, hwrote'⟩ := ih hrest' (hd.tail hwrote) (hsep.tail (by simpa using hlen))
        (by omega) (Nat.lt_of_succ_lt_succ hk)
      refine ⟨m', ?_, hwrote.cons hwrote' (by simp; omega)⟩
      rw [stpcpyLoop, bind_of_some _ hcopy, if_neg hne, hloop, ptrAdd_one_ptrAdd,
        List.length_cons]

/-- `stpcpy` returns a pointer to the terminator it has written. -/
theorem stpcpy_eq (hs : StringAt m s xs) (hd : Room m d (xs.length + 1))
    (hsep : Apart d (xs.length + 1) s (xs.length + 1)) :
    ∃ m', stpcpy d s m = some (ptrAdd d xs.length, m') ∧ Wrote d (xs ++ [0]) m m' :=
  stpcpyLoop_eq hs hd hsep hs.length_lt hs.length_lt

end Copies

end Mytilus.Str.Checked
