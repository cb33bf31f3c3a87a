import Mytilus.Base.Mapped
import Mytilus.Str.Span

/-!
# `strlen` and `strchrnul` in partly mapped memory

The functions of `Span.lean` that read strings, once more in a memory that
faults, to tell which bytes they read.  Where they return, they return what they
do in the whole of memory.
-/

namespace Mytilus.Str.Checked

open Memory Mapped

/-- `while *s.add(n) != 0 { n += 1; }` -/
def strlenLoop (m : Mapped) (s : Addr) : ℕ → BitVec 64 → Option (BitVec 64)
  | 0, _ => none
  | k + 1, n => do
      let b ← m.read (s + n)
      if b ≠ 0 then strlenLoop m s k (n + 1) else return n

/-- `size_t strlen(const char *s)` -/
def strlen (m : Mapped) (s : Addr) : Option (BitVec 64) := strlenLoop m s scanSteps 0

/-- `while i < n && *s.add(i) != 0 { i += 1; }` -/
def strnlenLoop (m : Mapped) (s : Addr) (n i : ℕ) : Option ℕ :=
  if i < n then do
    let b ← m.read (ptrAdd s i)
    if b ≠ 0 then strnlenLoop m s n (i + 1) else return i
  else
    return i
termination_by n - i

/-- `size_t strnlen(const char *s, size_t n)` -/
def strnlen (m : Mapped) (s : Addr) (n : BitVec 64) : Option (BitVec 64) := do
  let i ← strnlenLoop m s n.toNat 0
  return BitVec.ofNat 64 i

/-- `char *__strchrnul(const char *s, int c)` -/
def strchrnul (m : Mapped) (s : Addr) (c : BitVec 32) : Option Addr := do
  let target : Byte := c.setWidth 8
  if target = 0 then
    let n ← strlen m s
    return s + n
  else
    scanWhile (fun b => b ≠ 0 ∧ b ≠ target) m scanSteps s

section Agreement

variable {m : Mapped} {M : Memory} {s : Addr}

theorem strlenLoop_agrees (hm : m.Agrees M) {k : ℕ} {n r : BitVec 64}
    (h : strlenLoop m s k n = some r) : Str.strlenLoop M s k n = some r := by
  induction k generalizing n with
  | zero => cases h
  | succ k ih =>
      obtain ⟨b, hb, h⟩ := Option.bind_eq_some_iff.mp h
      rw [Str.strlenLoop, hm _ b hb]
      split_ifs at h ⊢
      · exact ih h
      · exact h

theorem strlen_agrees (hm : m.Agrees M) {r : BitVec 64} (h : strlen m s = some r) :
    Str.strlen M s = some r :=
  strlenLoop_agrees hm h

theorem strchrnul_agrees (hm : m.Agrees M) {c : BitVec 32} {r : Addr}
    (h : strchrnul m s c = some r) : Str.strchrnul M s c = some r := by
  simp only [strchrnul] at h
  simp only [Str.strchrnul]
  split_ifs at h ⊢
  · obtain ⟨n, hn, h⟩ := Option.bind_eq_some_iff.mp h
    rw [strlen_agrees hm hn]
    exact h
  · exact scanWhile_agrees hm h

end Agreement

section Strings

variable {m : Mapped} {s : Addr} {xs : List Byte}

theorem exists_strlenLoop {n : BitVec 64} {k : ℕ} (hs : StringAt m (s + n) xs)
    (hk : xs.length < k) :
    ∃ r, strlenLoop m s k n = some r := by
  induction xs generalizing n k with
  | nil =>
      obtain ⟨k, rfl⟩ := exists_round hk
      have hnul : m.read (s + n) = some 0 := hs
      exact ⟨n, by rw [strlenLoop, hnul]; rfl⟩
  | cons x xs ih =>
      obtain ⟨k, rfl⟩ := exists_round hk
      obtain ⟨hx, hne, hrest⟩ := hs
      have hnext : StringAt m (s + (n + 1)) xs := by rwa [← BitVec.add_assoc]
      obtain ⟨r, hr⟩ := ih hnext (Nat.lt_of_succ_lt_succ hk)
      refine ⟨r, ?_⟩
      rw [strlenLoop, hx, Option.bind_eq_bind, Option.bind_some, if_pos hne, hr]

theorem strlen_eq (hs : StringAt m s xs) : strlen m s = some (BitVec.ofNat 64 xs.length) := by
  have hstart : StringAt m (s + 0#64) xs := by rwa [BitVec.add_zero]
  obtain ⟨r, hr⟩ : ∃ r, strlen m s = some r := exists_strlenLoop hstart hs.length_lt
  have htotal := strlen_agrees m.agrees_total hr
  rw [Str.strlen_eq (hs.agrees m.agrees_total)] at htotal
  exact hr.trans htotal.symm

theorem strnlenLoop_eq {n i k : ℕ} (hs : CutAt m (ptrAdd s i) k xs) (hn : i + k = n) :
    strnlenLoop m s n i = some (i + xs.length) := by
  induction k generalizing i xs with
  | zero =>
      obtain rfl : xs = [] := hs
      rw [strnlenLoop, if_neg (by omega)]
      rfl
  | succ k ih =>
      cases xs with
      | nil =>
          have hnul : m.read (ptrAdd s i) = some 0 := hs
          rw [strnlenLoop, if_pos (by omega), bind_of_some _ hnul, if_neg (not_not.mpr rfl)]
          rfl
      | cons x xs =>
          obtain ⟨hx, hne, hrest⟩ := hs
          rw [ptrAdd_ptrAdd] at hrest
          rw [strnlenLoop, if_pos (by omega), bind_of_some _ hx, if_pos hne, ih hrest (by omega),
            List.length_cons, Nat.add_assoc, Nat.add_comm 1]

/-- Nothing is read past the terminator or the count. -/
theorem strnlen_eq {n : BitVec 64} (hs : CutAt m s n.toNat xs) :
    strnlen m s n = some (BitVec.ofNat 64 xs.length) := by
  have hstart : CutAt m (ptrAdd s 0) n.toNat xs := by rwa [ptrAdd_zero]
  rw [strnlen, bind_of_some _ (strnlenLoop_eq hstart (Nat.zero_add _)), Nat.zero_add]
  rfl

/-- The scan of a string by a set, as the functions write it. -/
theorem exists_scan_nonzero (hs : StringAt m s xs) (p : Byte → Bool) :
    ∃ r, scanWhile (fun b => decide (b ≠ 0) && p b) m scanSteps s = some r :=
  ⟨_, hs.scan rfl⟩

theorem exists_strchrnul (hs : StringAt m s xs) (c : BitVec 32) :
    ∃ r, strchrnul m s c = some r := by
  simp only [strchrnul]
  by_cases htarget : c.setWidth 8 = (0 : Byte)
  · rw [if_pos htarget, strlen_eq hs]
    exact ⟨_, rfl⟩
  · obtain ⟨r, hr⟩ := exists_scan_nonzero hs fun b => decide (b ≠ c.setWidth 8)
    refine ⟨r, ?_⟩
    rw [if_neg htarget, ← hr]
    exact congrArg (scanWhile · m scanSteps s) (funext fun x => Bool.decide_and ..)

end Strings

end Mytilus.Str.Checked
