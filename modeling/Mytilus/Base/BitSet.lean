import Mathlib.Tactic

/-!
# Sets of bit positions

A machine word as the set of the positions of its one bits: what the bitwise
operations do to the word, they do to the set.
-/

namespace BitSet

variable {w : ℕ}

/-- The positions of the one bits. -/
def members (x : BitVec w) : Set ℕ := {i | x.getLsbD i = true}

/-- The word with one bit, at position `i`. -/
def single (w i : ℕ) : BitVec w := 1#w <<< i

instance decidableMemMembers (x : BitVec w) (i : ℕ) : Decidable (i ∈ members x) :=
  inferInstanceAs (Decidable (x.getLsbD i = true))

theorem mem_members {x : BitVec w} {i : ℕ} : i ∈ members x ↔ x.getLsbD i = true := Iff.rfl

theorem lt_of_mem_members {x : BitVec w} {i : ℕ} (h : i ∈ members x) : i < w :=
  BitVec.lt_of_getLsbD h

@[simp] theorem members_zero : members 0#w = ∅ := by
  ext i
  simp [mem_members]

@[simp] theorem members_or (x y : BitVec w) : members (x ||| y) = members x ∪ members y := by
  ext i
  simp [mem_members]

@[simp] theorem members_and (x y : BitVec w) : members (x &&& y) = members x ∩ members y := by
  ext i
  simp [mem_members]

@[simp] theorem members_single {i : ℕ} (hi : i < w) : members (single w i) = {i} := by
  ext j
  rw [mem_members, single, BitVec.getLsbD_shiftLeft, Set.mem_singleton_iff]
  by_cases hj : j = i
  · subst hj
    simp [hi, show 0 < w by omega]
  · simp only [hj, iff_false, Bool.not_eq_true]
    rcases Nat.lt_or_gt_of_ne hj with hlt | hgt
    · simp [hlt]
    · simp [BitVec.getLsbD_one, show j - i ≠ 0 by omega]

/-- Setting a bit inserts its position. -/
theorem members_or_single (x : BitVec w) {i : ℕ} (hi : i < w) :
    members (x ||| single w i) = insert i (members x) := by
  rw [members_or, members_single hi, Set.union_singleton]

/-- Clearing a bit removes its position. -/
theorem members_and_not_single (x : BitVec w) {i : ℕ} (hi : i < w) :
    members (x &&& ~~~ single w i) = members x \ {i} := by
  have hnot : ∀ {j}, j < w → (j ∈ members (~~~ single w i) ↔ j ≠ i) := by
    intro j hj
    have hbit : j ∈ members (single w i) ↔ j = i := by rw [members_single hi, Set.mem_singleton_iff]
    rw [mem_members] at hbit ⊢
    rw [BitVec.getLsbD_not, decide_eq_true hj, Bool.true_and, Bool.not_eq_true', ← Bool.not_eq_true,
      hbit]
  ext j
  rw [members_and, Set.mem_inter_iff, Set.mem_sdiff, Set.mem_singleton_iff]
  exact and_congr_right fun hj => hnot (lt_of_mem_members hj)

theorem members_eq_empty_iff {x : BitVec w} : members x = ∅ ↔ x = 0#w := by
  refine ⟨fun h => ?_, fun h => by rw [h, members_zero]⟩
  apply BitVec.eq_of_getLsbD_eq
  intro i _
  rw [BitVec.getLsbD_zero, ← Bool.not_eq_true]
  intro hi
  have hmem : i ∈ members x := hi
  rwa [h] at hmem

/-- Testing a bit. -/
theorem and_single_ne_zero_iff (x : BitVec w) {i : ℕ} (hi : i < w) :
    x &&& single w i ≠ 0#w ↔ i ∈ members x := by
  rw [Ne, ← members_eq_empty_iff, members_and, members_single hi, Set.inter_singleton_eq_empty,
    not_not]

end BitSet
