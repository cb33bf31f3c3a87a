import Mytilus.Base.Fields
import Mytilus.Base.Mapped

/-!
# `strstr`

At each position of the haystack the needle is matched byte by byte, up to the
first difference or the end of either string.  The match stops at the end of the
needle exactly when the needle is a prefix of what is left of the haystack.
-/

namespace Mytilus.Str.Checked

open Memory Mapped

/-- `while *p != 0 && *q != 0 && *p == *q { p = p.add(1); q = q.add(1); }` -/
def matchLoop (m : Mapped) : ℕ → Addr → Addr → Option (Addr × Addr)
  | 0, _, _ => none
  | k + 1, p, q => do
      let x ← m.read p
      if x = 0 then
        return (p, q)
      else do
        let y ← m.read q
        if y ≠ 0 ∧ x = y then matchLoop m k (ptrAdd p 1) (ptrAdd q 1) else return (p, q)

/-- `while *h != 0 { ... }` -/
def strstrLoop (m : Mapped) (n : Addr) : ℕ → Addr → Option Addr
  | 0, _ => none
  | k + 1, h => do
      let x ← m.read h
      if x ≠ 0 then do
        let ends ← matchLoop m scanSteps h n
        let y ← m.read ends.2
        if y = 0 then return h else strstrLoop m n k (ptrAdd h 1)
      else
        return 0

/-- `char *strstr(const char *h, const char *n)` -/
def strstr (m : Mapped) (h n : Addr) : Option Addr := do
  let y ← m.read n
  if y = 0 then return h else strstrLoop m n scanSteps h

section Search

variable {m : Mapped} {h n p q : Addr} {xs ys : List Byte}

/-- A match runs over the common prefix. -/
theorem matchLoop_eq (hp : StringAt m p xs) (hq : StringAt m q ys) {k : ℕ} (hk : xs.length < k) :
    ∃ i ≤ ys.length, matchLoop m k p q = some (ptrAdd p i, ptrAdd q i) ∧
      (i = ys.length ↔ ys <+: xs) := by
  induction xs generalizing p q ys k with
  | nil =>
      obtain ⟨k, rfl⟩ := exists_round hk
      have hnul : m.read p = some 0 := hp
      refine ⟨0, Nat.zero_le _, ?_, ?_⟩
      · rw [matchLoop, bind_of_some _ hnul, if_pos rfl, ptrAdd_zero, ptrAdd_zero]
        rfl
      · rw [List.prefix_nil, eq_comm, List.length_eq_zero_iff]
  | cons x xs ih =>
      obtain ⟨k, rfl⟩ := exists_round hk
      obtain ⟨hx, hxne, hp'⟩ := hp
      cases ys with
      | nil =>
          have hnul : m.read q = some 0 := hq
          refine ⟨0, le_rfl, ?_, iff_of_true rfl List.nil_prefix⟩
          rw [matchLoop, bind_of_some _ hx, if_neg hxne, bind_of_some _ hnul,
            if_neg fun hand => hand.1 rfl, ptrAdd_zero, ptrAdd_zero]
          rfl
      | cons y ys =>
          obtain ⟨hy, hyne, hq'⟩ := hq
          rw [matchLoop, bind_of_some _ hx, if_neg hxne, bind_of_some _ hy]
          by_cases hxy : x = y
          · obtain ⟨i, hi, hloop, hend⟩ := ih hp' hq' (Nat.lt_of_succ_lt_succ hk)
            refine ⟨i + 1, Nat.succ_le_succ hi, ?_, ?_⟩
            · rw [if_pos ⟨hyne, hxy⟩, hloop, ptrAdd_one_ptrAdd, ptrAdd_one_ptrAdd]
            · rw [hxy, List.prefix_cons_inj, ← hend, List.length_cons, Nat.add_right_cancel_iff]
          · refine ⟨0, Nat.zero_le _, ?_, iff_of_false (Nat.succ_ne_zero _).symm fun hprefix => ?_⟩
            · rw [if_neg fun hand => hxy hand.2, ptrAdd_zero, ptrAdd_zero]
              rfl
            · exact hxy (List.cons_prefix_cons.mp hprefix).1.symm

/-- What the test after a match finds. -/
theorem read_after_match (hq : StringAt m q ys) {i : ℕ} (hi : i ≤ ys.length) :
    ∃ y, m.read (ptrAdd q i) = some y ∧ (y = 0 ↔ i = ys.length) := by
  rcases hi.lt_or_eq with hlt | rfl
  · have hne := hq.ne_zero _ (List.getElem_mem hlt)
    exact ⟨ys[i], hq.getElem? (List.getElem?_eq_getElem hlt), iff_of_false hne hlt.ne⟩
  · exact ⟨0, hq.nul, iff_of_true rfl rfl⟩

/-- The search from a position of the haystack on. -/
theorem strstrLoop_eq (hh : StringAt m h xs) (hn : StringAt m n ys) (hne : ys ≠ []) {k : ℕ}
    (hk : xs.length < k) :
    (strstrLoop m n k h = some 0 ∧ ∀ i, ¬ ys <+: xs.drop i) ∨
      ∃ i < xs.length, strstrLoop m n k h = some (ptrAdd h i) ∧ ys <+: xs.drop i ∧
        ∀ j < i, ¬ ys <+: xs.drop j := by
  induction xs generalizing h k with
  | nil =>
      obtain ⟨k, rfl⟩ := exists_round hk
      have hnul : m.read h = some 0 := hh
      refine .inl ⟨?_, fun i hprefix => ?_⟩
      · rw [strstrLoop, bind_of_some _ hnul, if_neg (not_not.mpr rfl)]
        rfl
      · rw [List.drop_nil] at hprefix
        exact hne (List.prefix_nil.mp hprefix)
  | cons x xs ih =>
      obtain ⟨k, rfl⟩ := exists_round hk
      obtain ⟨i, hi, hmatch, hend⟩ := matchLoop_eq hh hn (k := scanSteps) hh.length_lt
      obtain ⟨y, hy, hzero⟩ := read_after_match hn hi
      obtain ⟨hx, hxne, hrest⟩ := hh
      rw [strstrLoop, bind_of_some _ hx, if_pos hxne, bind_of_some _ hmatch, bind_of_some _ hy]
      by_cases hfound : ys <+: x :: xs
      · refine .inr ⟨0, Nat.succ_pos _, ?_, hfound, fun j hj => absurd hj (Nat.not_lt_zero j)⟩
        rw [if_pos (hzero.mpr (hend.mpr hfound)), ptrAdd_zero]
        rfl
      · rw [if_neg fun h0 => hfound (hend.mp (hzero.mp h0))]
        rcases ih hrest (Nat.lt_of_succ_lt_succ hk) with
          ⟨hloop, hnone⟩ | ⟨i, hi, hloop, hat, hleast⟩
        · refine .inl ⟨hloop, fun i => ?_⟩
          cases i with
          | zero => exact hfound
          | succ i => exact hnone i
        · refine .inr ⟨i + 1, Nat.succ_lt_succ hi, ?_, hat, fun j hj => ?_⟩
          · rw [hloop, ptrAdd_one_ptrAdd]
          · cases j with
            | zero => exact hfound
            | succ j => exact hleast j (Nat.lt_of_succ_lt_succ hj)

end Search

/-- **`strstr` finds the first occurrence.**  With nothing mapped but the two
strings and their terminators, it returns the least position at which the needle
occurs, which is the first one for an empty needle, and null if there is none. -/
theorem strstr_finds (m : Mapped) (h n : Addr) (xs ys : List Byte) (hh : StringAt m h xs)
    (hn : StringAt m n ys) :
    ∃ p, strstr m h n = some p ∧ (p = 0 ↔ ¬ ys <:+: xs) ∧
      (∀ k, ys <+: xs.drop k → (∀ j < k, ¬ ys <+: xs.drop j) → p = ptrAdd h k) ∧
      (ys = [] → p = h) := by
  have hneedle : ∃ y, m.read n = some y ∧ (y = 0 ↔ ys = []) := by
    obtain ⟨y, hy, hzero⟩ := read_after_match hn (Nat.zero_le _)
    rw [ptrAdd_zero] at hy
    exact ⟨y, hy, by rw [hzero, eq_comm, List.length_eq_zero_iff]⟩
  obtain ⟨y, hy, hempty⟩ := hneedle
  rw [strstr, bind_of_some _ hy]
  by_cases hys : ys = []
  · subst hys
    have hnonnull : h ≠ 0 := by
      obtain ⟨x, hx, -⟩ := read_after_match hh (Nat.zero_le _)
      rw [ptrAdd_zero] at hx
      exact ne_zero_of_read hx
    refine ⟨h, if_pos (hempty.mpr rfl), iff_of_false hnonnull (not_not.mpr List.nil_infix), ?_,
      fun _ => rfl⟩
    intro k _ hleast
    cases k with
    | zero => exact (ptrAdd_zero h).symm
    | succ k => exact absurd List.nil_prefix (hleast 0 (Nat.succ_pos k))
  · rw [if_neg fun h0 => hys (hempty.mp h0)]
    -- either no position matches, or the least one that does
    rcases strstrLoop_eq hh hn hys (k := scanSteps) hh.length_lt with
      ⟨hloop, hnone⟩ | ⟨i, hi, hloop, hat, hleast⟩
    · have hno : ¬ ys <:+: xs := fun hinfix =>
        (Fields.infix_iff_exists_prefix_drop.mp hinfix).elim hnone
      exact ⟨0, hloop, iff_of_true rfl hno, fun k hk => absurd hk (hnone k),
        fun h0 => absurd h0 hys⟩
    · refine ⟨ptrAdd h i, hloop, iff_of_false ?_ (not_not.mpr ?_), fun k hk hfirst => ?_,
        fun h0 => absurd h0 hys⟩
      · exact ne_zero_of_read (hh.getElem? (List.getElem?_eq_getElem hi))
      · exact Fields.infix_iff_exists_prefix_drop.mpr ⟨i, hat⟩
      · rcases lt_trichotomy i k with hlt | rfl | hgt
        · exact absurd hat (hfirst i hlt)
        · rfl
        · exact absurd hk (hleast k hgt)

/-- `"aab"` at `0x1000` and `"ab"` at `0x2000`, and nothing else. -/
def aabAndAb : Mapped :=
  view (fun a => if a = 0x1002 ∨ a = 0x2001 then 98 else if a = 0x1003 ∨ a = 0x2002 then 0 else 97)
    fun a => Within 0x1000 4 a ∨ Within 0x2000 3 a

theorem strstr_finds_ab : strstr aabAndAb 0x1000 0x2000 = some (ptrAdd 0x1000 1) := by
  have hh : StringAt aabAndAb 0x1000 [97, 97, 98] :=
    ⟨rfl, by decide, rfl, by decide, rfl, by decide, rfl⟩
  have hn : StringAt aabAndAb 0x2000 [97, 98] := ⟨rfl, by decide, rfl, by decide, rfl⟩
  obtain ⟨p, hp, -, hfirst, -⟩ := strstr_finds aabAndAb 0x1000 0x2000 _ _ hh hn
  rw [hp, hfirst 1 (by decide) (by decide)]

end Mytilus.Str.Checked
