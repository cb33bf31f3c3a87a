import Mathlib.Data.List.Lex
import Mathlib.Tactic

/-!
# The first difference of two lists of words

`diff` is the difference of two lists at the first place where they differ, with
a zero after the end of each.  On lists of nonzero words its sign is that of the
lexicographic order, words being compared as unsigned numbers.
-/

namespace ByteOrder

variable {w : ℕ}

def diff : List (BitVec w) → List (BitVec w) → ℤ
  | [], [] => 0
  | [], y :: _ => -y.toNat
  | x :: _, [] => x.toNat
  | x :: xs, y :: ys => if x = y then diff xs ys else x.toNat - y.toNat

/-- The words as unsigned numbers; the lists of these are ordered lexicographically. -/
def key (xs : List (BitVec w)) : List ℕ := xs.map BitVec.toNat

variable {xs ys zs : List (BitVec w)}

theorem key_inj : key xs = key ys ↔ xs = ys :=
  (List.map_injective_iff.mpr fun _ _ => BitVec.eq_of_toNat_eq).eq_iff

@[simp] theorem diff_append (ws xs ys : List (BitVec w)) :
    diff (ws ++ xs) (ws ++ ys) = diff xs ys := by
  induction ws with
  | nil => rfl
  | cons x ws ih => rw [List.cons_append, List.cons_append, diff, if_pos rfl, ih]

@[simp] theorem diff_self (xs : List (BitVec w)) : diff xs xs = 0 := by
  have happend := diff_append xs [] []
  rwa [List.append_nil] at happend

theorem neg_diff (xs ys : List (BitVec w)) : -diff xs ys = diff ys xs := by
  induction xs generalizing ys with
  | nil => cases ys <;> simp [diff]
  | cons x xs ih =>
      cases ys with
      | nil => rfl
      | cons y ys =>
          rw [diff, diff]
          by_cases hxy : x = y
          · rw [if_pos hxy, if_pos hxy.symm, ih]
          · rw [if_neg hxy, if_neg (Ne.symm hxy), neg_sub]

theorem toNat_pos {x : BitVec w} (h : x ≠ 0) : 0 < x.toNat :=
  Nat.pos_of_ne_zero fun h0 => h (BitVec.eq_of_toNat_eq (h0.trans BitVec.toNat_zero.symm))

theorem diff_neg_iff (hys : ∀ y ∈ ys, y ≠ 0) : diff xs ys < 0 ↔ key xs < key ys := by
  induction xs generalizing ys with
  | nil =>
      cases ys with
      | nil => exact iff_of_false (lt_irrefl 0) (lt_irrefl _)
      | cons y ys =>
          have hpos := toNat_pos (hys y List.mem_cons_self)
          refine iff_of_true ?_ (List.nil_lt_cons _ _)
          rw [diff]
          omega
  | cons x xs ih =>
      cases ys with
      | nil => exact iff_of_false (not_lt.mpr (Int.natCast_nonneg x.toNat)) (List.not_lt_nil _)
      | cons y ys =>
          have hrest := ih (List.forall_mem_cons.mp hys).2
          simp only [key, List.map_cons] at hrest ⊢
          rw [diff, List.cons_lt_cons_iff]
          -- equal words are passed over, and unequal ones settle the order
          by_cases hxy : x = y
          · rw [if_pos hxy, hrest, hxy]
            exact ⟨fun h => .inr ⟨rfl, h⟩,
              fun h => h.elim (fun hlt => absurd hlt (lt_irrefl _)) And.right⟩
          · have hne : x.toNat ≠ y.toNat := fun h => hxy (BitVec.eq_of_toNat_eq h)
            rw [if_neg hxy]
            omega

theorem diff_pos_iff (hxs : ∀ x ∈ xs, x ≠ 0) : 0 < diff xs ys ↔ key ys < key xs := by
  rw [← diff_neg_iff hxs, ← neg_diff, neg_pos]

theorem diff_eq_zero_iff (hxs : ∀ x ∈ xs, x ≠ 0) (hys : ∀ y ∈ ys, y ≠ 0) :
    diff xs ys = 0 ↔ xs = ys := by
  refine ⟨fun h => ?_, fun h => h ▸ diff_self xs⟩
  have hnotlt : ¬ key xs < key ys := (diff_neg_iff hys).not.mp h.not_lt
  have hnotgt : ¬ key ys < key xs := (diff_pos_iff hxs).not.mp h.not_gt
  exact key_inj.mp (le_antisymm (not_lt.mp hnotgt) (not_lt.mp hnotlt))

theorem diff_nonpos_iff (hxs : ∀ x ∈ xs, x ≠ 0) : diff xs ys ≤ 0 ↔ key xs ≤ key ys := by
  rw [← not_lt, diff_pos_iff hxs, not_lt]

theorem diff_nonpos_trans (hxs : ∀ x ∈ xs, x ≠ 0) (hys : ∀ y ∈ ys, y ≠ 0) (h : diff xs ys ≤ 0)
    (h' : diff ys zs ≤ 0) : diff xs zs ≤ 0 :=
  (diff_nonpos_iff hxs).mpr
    (((diff_nonpos_iff hxs).mp h).trans ((diff_nonpos_iff hys).mp h'))

end ByteOrder
