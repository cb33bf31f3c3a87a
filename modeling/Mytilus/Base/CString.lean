import Mytilus.Base.Memory

/-!
# NUL-terminated strings in memory

`StringAt m p xs` says that the nonzero bytes `xs` are at `p`, with a zero byte
after them.  The loops over strings read one byte after the other until one
stops them; a loop that has read all of memory never ends, so it is given that
many steps.
-/

namespace Memory

/-- The bytes `xs` from `p` on, and a zero byte after them. -/
def StringAt (m : Memory) : Addr → List Byte → Prop
  | p, [] => m p = 0
  | p, x :: xs => m p = x ∧ x ≠ 0 ∧ StringAt m (ptrAdd p 1) xs

/-- A loop that has to make more rounds than none has one to make. -/
theorem exists_round {i k : ℕ} (h : i < k) : ∃ j, k = j + 1 :=
  Nat.exists_eq_add_one_of_ne_zero (Nat.ne_zero_of_lt h)

section Strings

variable {m m' : Memory} {p : Addr} {x : Byte} {xs ys : List Byte}

theorem stringAt_nil : StringAt m p [] ↔ m p = 0 := Iff.rfl

theorem StringAt.ne_zero (h : StringAt m p xs) : ∀ x ∈ xs, x ≠ 0 := by
  induction xs generalizing p with
  | nil => nofun
  | cons x xs ih =>
      obtain ⟨-, hne, hrest⟩ := h
      exact List.forall_mem_cons.mpr ⟨hne, ih hrest⟩

/-- The byte at each offset. -/
theorem StringAt.getElem? (h : StringAt m p xs) {i : ℕ} {b : Byte} (hi : xs[i]? = some b) :
    m (ptrAdd p i) = b := by
  induction xs generalizing p i with
  | nil => simp at hi
  | cons x xs ih =>
      obtain ⟨hx, -, hrest⟩ := h
      cases i with
      | zero =>
          rw [ptrAdd_zero, hx]
          simpa using hi
      | succ i =>
          have htail := ih hrest (i := i) (by simpa using hi)
          rwa [ptrAdd_one_ptrAdd] at htail

/-- The first byte is zero when the string is empty. -/
theorem StringAt.eq_zero_iff (h : StringAt m p xs) : m p = 0 ↔ xs = [] := by
  cases xs with
  | nil => exact iff_of_true h rfl
  | cons x xs =>
      rw [h.1]
      exact iff_of_false h.2.1 (List.cons_ne_nil x xs)

/-- What is left of a string after its first part is a string. -/
theorem StringAt.suffix (h : StringAt m p (xs ++ ys)) : StringAt m (ptrAdd p xs.length) ys := by
  induction xs generalizing p with
  | nil =>
      rw [List.length_nil, ptrAdd_zero]
      exact h
  | cons x xs ih =>
      obtain ⟨-, -, hrest⟩ := h
      have hsuffix := ih hrest
      rwa [ptrAdd_one_ptrAdd] at hsuffix

/-- The zero byte at the end. -/
theorem StringAt.nul (h : StringAt m p xs) : m (ptrAdd p xs.length) = 0 := by
  have hend : StringAt m p (xs ++ []) := by rwa [List.append_nil]
  exact hend.suffix

/-- A string is shorter than the address space. -/
theorem StringAt.length_lt (h : StringAt m p xs) : xs.length < 2 ^ 64 := by
  by_contra hlong
  -- past the end of the address space the terminator would be a byte of the string
  obtain ⟨k, hk⟩ := Nat.exists_eq_add_of_le (not_lt.mp hlong)
  have hwrap : ptrAdd p xs.length = ptrAdd p k := by
    rw [hk, Nat.add_comm, ← ptrAdd_ptrAdd]
    exact BitVec.add_zero (ptrAdd p k)
  have hlt : k < xs.length := by omega
  have hbyte := h.getElem? (List.getElem?_eq_getElem hlt)
  rw [← hwrap, h.nul] at hbyte
  exact h.ne_zero _ (List.getElem_mem hlt) hbyte.symm

theorem StringAt.congr (h : StringAt m p xs)
    (hsame : ∀ i ≤ xs.length, m' (ptrAdd p i) = m (ptrAdd p i)) : StringAt m' p xs := by
  induction xs generalizing p with
  | nil =>
      have hp := hsame 0 le_rfl
      rw [ptrAdd_zero] at hp
      exact hp.trans h
  | cons x xs ih =>
      obtain ⟨hx, hne, hrest⟩ := h
      have hp := hsame 0 (Nat.zero_le _)
      rw [ptrAdd_zero] at hp
      refine ⟨hp.trans hx, hne, ih hrest fun i hi => ?_⟩
      rw [ptrAdd_one_ptrAdd]
      exact hsame (i + 1) (Nat.succ_le_succ hi)

/-- A zero byte written into a string ends it there. -/
theorem StringAt.truncate (h : StringAt m p (xs ++ ys)) (hend : m' (ptrAdd p xs.length) = 0)
    (hsame : ∀ i < xs.length, m' (ptrAdd p i) = m (ptrAdd p i)) : StringAt m' p xs := by
  induction xs generalizing p with
  | nil => rwa [List.length_nil, ptrAdd_zero] at hend
  | cons x xs ih =>
      obtain ⟨hx, hne, hrest⟩ := h
      have hp := hsame 0 (Nat.succ_pos _)
      rw [ptrAdd_zero] at hp
      refine ⟨hp.trans hx, hne, ih hrest ?_ fun i hi => ?_⟩
      · rwa [ptrAdd_one_ptrAdd]
      · rw [ptrAdd_one_ptrAdd]
        exact hsame (i + 1) (Nat.succ_lt_succ hi)

/-- What is left of a string from a position on is a string. -/
theorem StringAt.drop (h : StringAt m p xs) {i : ℕ} (hi : i ≤ xs.length) :
    StringAt m (ptrAdd p i) (xs.drop i) := by
  have hsplit : StringAt m p (xs.take i ++ xs.drop i) := by rwa [List.take_append_drop]
  have hsuffix := hsplit.suffix
  rwa [List.length_take_of_le hi] at hsuffix

/-- Zero bytes written into a string leave a prefix of it. -/
theorem StringAt.exists_prefix (h : StringAt m p xs)
    (hzero : ∀ i ≤ xs.length, m' (ptrAdd p i) = m (ptrAdd p i) ∨ m' (ptrAdd p i) = 0) :
    ∃ ys, ys.length ≤ xs.length ∧ StringAt m' p ys := by
  induction xs generalizing p with
  | nil =>
      have hp := hzero 0 le_rfl
      have hnul : m p = 0 := h
      rw [ptrAdd_zero, hnul, or_self] at hp
      exact ⟨[], le_rfl, hp⟩
  | cons x xs ih =>
      obtain ⟨hx, hne, hrest⟩ := h
      have hp := hzero 0 (Nat.zero_le _)
      rw [ptrAdd_zero, hx] at hp
      rcases hp with hsame | hnul
      · obtain ⟨ys, hle, hys⟩ := ih hrest fun i hi => by
          rw [ptrAdd_one_ptrAdd]
          exact hzero (i + 1) (Nat.succ_le_succ hi)
        exact ⟨x :: ys, Nat.succ_le_succ hle, hsame, hne, hys⟩
      · exact ⟨[], Nat.zero_le _, hnul⟩

/-- The string at an address is unique. -/
theorem StringAt.unique (h : StringAt m p xs) (h' : StringAt m p ys) : xs = ys := by
  induction xs generalizing p ys with
  | nil =>
      cases ys with
      | nil => rfl
      | cons y ys => exact absurd (h'.1.symm.trans h) h'.2.1
  | cons x xs ih =>
      cases ys with
      | nil => exact absurd (h.1.symm.trans h') h.2.1
      | cons y ys =>
          obtain ⟨hx, -, hrest⟩ := h
          obtain ⟨hy, -, hrest'⟩ := h'
          rw [← hx, ← hy, ih hrest hrest']

end Strings

/-! ## Scans -/

/-- The number of bytes there are to read. -/
def scanSteps : ℕ := 2 ^ 64

/-- `while ok(*p) { p = p.add(1); }`, in the given number of steps. -/
def scanWhile (ok : Byte → Bool) (m : Memory) : ℕ → Addr → Option Addr
  | 0, _ => none
  | n + 1, p => if ok (m p) = true then scanWhile ok m n (ptrAdd p 1) else some p

/-- A scan that stops at zero bytes stops at the end of the longest prefix. -/
theorem StringAt.scanWhile {m : Memory} {p : Addr} {xs : List Byte} {ok : Byte → Bool} {n : ℕ}
    (h : StringAt m p xs) (hnul : ok 0 = false) (hn : xs.length < n) :
    Memory.scanWhile ok m n p = some (ptrAdd p (xs.takeWhile ok).length) := by
  induction xs generalizing p n with
  | nil =>
      obtain ⟨n, rfl⟩ := exists_round hn
      have hp : m p = 0 := h
      rw [Memory.scanWhile, hp, hnul, if_neg Bool.false_ne_true, List.takeWhile_nil,
        List.length_nil, ptrAdd_zero]
  | cons x xs ih =>
      obtain ⟨n, rfl⟩ := exists_round hn
      obtain ⟨hx, -, hrest⟩ := h
      rw [Memory.scanWhile, hx, List.takeWhile_cons]
      -- the scan stops at the first byte that the test refuses
      cases hok : ok x with
      | false =>
          rw [if_neg Bool.false_ne_true, if_neg Bool.false_ne_true, List.length_nil, ptrAdd_zero]
      | true =>
          rw [if_pos rfl, if_pos rfl, ih hrest (Nat.lt_of_succ_lt_succ hn), ptrAdd_ptrAdd,
            List.length_cons, Nat.add_comm]

theorem StringAt.scan {m : Memory} {p : Addr} {xs : List Byte} {ok : Byte → Bool}
    (h : StringAt m p xs) (hnul : ok 0 = false) :
    Memory.scanWhile ok m scanSteps p = some (ptrAdd p (xs.takeWhile ok).length) :=
  h.scanWhile hnul h.length_lt

end Memory
