import Mathlib.Tactic

/-!
# Additive lagged recurrences in a circular buffer

The recurrence `w (n + t) = w t + w (n + t - sep)` needs its last `n` terms.
An implementation keeps them in a buffer of `n` slots and walks two indices
around it, `sep` apart, adding the slot under the second index to the slot under
the first.  `Lag.Holds` says what the buffer holds after `t` steps: the term
`w m`, for each of the `n` latest values of `m`, in slot `(sep + m) % n`.
-/

/-- The length and the lag of a recurrence. -/
structure Lag where
  n : ℕ
  sep : ℕ
  sep_pos : 0 < sep
  sep_lt : sep < n

namespace Lag

variable (L : Lag) {α : Type*} [Add α]

theorem n_pos : 0 < L.n := L.sep_pos.trans L.sep_lt

/-- The recurrence started from the buffer contents `x`. -/
def seq (x : ℕ → α) (m : ℕ) : α :=
  if m < L.n then x ((L.sep + m) % L.n) else seq x (m - L.n) + seq x (m - L.sep)
termination_by m
decreasing_by
  · have := L.n_pos
    omega
  · have := L.sep_pos
    have := L.sep_lt
    omega

variable {L} {x : ℕ → α} {t : ℕ}

theorem seq_of_lt (ht : t < L.n) : L.seq x t = x ((L.sep + t) % L.n) := by
  rw [seq, if_pos ht]

theorem seq_add (t : ℕ) : L.seq x (L.n + t) = L.seq x t + L.seq x (L.n + t - L.sep) := by
  rw [seq, if_neg (by omega), Nat.add_sub_cancel_left]

/-! ## The buffer -/

/-- The indices after `t` steps. -/
def index (L : Lag) (t : ℕ) : ℕ := (L.sep + t) % L.n

theorem index_lt (t : ℕ) : L.index t < L.n := Nat.mod_lt _ L.n_pos

/-- The latest `n` terms are in their slots. -/
def Holds (L : Lag) (x : ℕ → α) (t : ℕ) (word : ℕ → α) : Prop :=
  ∀ m, t ≤ m → m < t + L.n → word (L.index m) = L.seq x m

theorem holds_zero (L : Lag) (x : ℕ → α) : L.Holds x 0 x := by
  intro m _ hm
  rw [seq_of_lt (by omega), index]

theorem index_inj {m m' : ℕ} (h : L.index m = L.index m') (hlo : m < m' + L.n)
    (hhi : m' < m + L.n) : m = m' := by
  have hmod : m ≡ m' [MOD L.n] := Nat.ModEq.add_left_cancel' L.sep h
  rcases Nat.le_total m m' with hle | hle
  · have hdvd := (Nat.modEq_iff_dvd' hle).mp hmod
    have hzero := Nat.eq_zero_of_dvd_of_lt hdvd (by omega)
    omega
  · have hdvd := (Nat.modEq_iff_dvd' hle).mp hmod.symm
    have hzero := Nat.eq_zero_of_dvd_of_lt hdvd (by omega)
    omega

/-- Stepping an index around the buffer. -/
theorem wrap_succ {n m : ℕ} (hn : 0 < n) :
    (if m % n + 1 = n then 0 else m % n + 1) = (m + 1) % n := by
  have hlt := Nat.mod_lt m hn
  rw [← Nat.mod_add_mod]
  by_cases hwrap : m % n + 1 = n
  · rw [if_pos hwrap, hwrap, Nat.mod_self]
  · have hnext : (m % n + 1) % n = m % n + 1 := Nat.mod_eq_of_lt (by omega)
    rw [if_neg hwrap, hnext]

/-- The second index trails the first by `sep`. -/
theorem mod_eq_index (t : ℕ) : t % L.n = L.index (L.n + t - L.sep) := by
  have hlt := L.sep_lt
  rw [index, show L.sep + (L.n + t - L.sep) = L.n + t by omega, Nat.add_mod_left]

theorem mod_ne_index (t : ℕ) : t % L.n ≠ L.index t := by
  have hpos := L.sep_pos
  have hlt := L.sep_lt
  rw [mod_eq_index]
  intro h
  have heq := index_inj h (by omega) (by omega)
  omega

/-- One step: the sum of the two slots is the next term, and belongs in the first slot. -/
theorem Holds.step {word : ℕ → α} (h : L.Holds x t word) :
    word (L.index t) + word (t % L.n) = L.seq x (L.n + t) ∧
      L.Holds x (t + 1) (Function.update word (L.index t) (L.seq x (L.n + t))) := by
  have hpos := L.sep_pos
  have hlt := L.sep_lt
  constructor
  · rw [seq_add, mod_eq_index, h t le_rfl (by omega), h (L.n + t - L.sep) (by omega) (by omega)]
  · intro m hlo hhi
    by_cases hm : m = L.n + t
    · subst hm
      have hslot : L.index (L.n + t) = L.index t := by
        rw [index, index, show L.sep + (L.n + t) = L.n + (L.sep + t) by omega, Nat.add_mod_left]
      rw [hslot, Function.update_self]
    · have hne : L.index m ≠ L.index t := fun heq => by
        have hmt := index_inj heq (by omega) (by omega)
        omega
      rw [Function.update_of_ne hne, h m (by omega) (by omega)]

/-- Buffers with the same slots and the same first index continue alike. -/
theorem seq_eq_of_holds {t' : ℕ} {word : ℕ → α} (h : L.Holds x t word) (h' : L.Holds x t' word)
    (hindex : L.index t = L.index t') (r : ℕ) : L.seq x (t + r) = L.seq x (t' + r) := by
  induction r using Nat.strong_induction_on with
  | h r ih =>
      rcases Nat.lt_or_ge r L.n with hlt | hge
      · have hslot : L.index (t + r) = L.index (t' + r) := by
          have hmod : L.sep + t ≡ L.sep + t' [MOD L.n] := hindex
          rw [index, index, ← Nat.add_assoc, ← Nat.add_assoc]
          exact hmod.add_right r
        rw [← h _ (by omega) (by omega), ← h' _ (by omega) (by omega), hslot]
      · have hpos := L.sep_pos
        have hsep := L.sep_lt
        obtain ⟨r, rfl⟩ := Nat.exists_eq_add_of_le hge
        have hback : ∀ t, L.seq x (t + (L.n + r)) =
            L.seq x (t + r) + L.seq x (t + (L.n + r - L.sep)) := by
          intro t
          rw [show t + (L.n + r) = L.n + (t + r) by omega, seq_add,
            show L.n + (t + r) - L.sep = t + (L.n + r - L.sep) by omega]
        rw [hback, hback, ih r (by omega), ih (L.n + r - L.sep) (by omega)]

/-! ## A property no window can lose -/

/-- If a property passes from a sum and one summand to the other, and all terms
in the window after `t` steps have it, then all of the initial contents have it. -/
theorem forall_of_window {E : α → Prop} (hE : ∀ a b, E (a + b) → E b → E a)
    (h : ∀ m, t ≤ m → m < t + L.n → E (L.seq x m)) : ∀ k < L.n, E (x k) := by
  have hpos := L.sep_pos
  have hlt := L.sep_lt
  have hstart : ∀ m < L.n, E (L.seq x m) := by
    induction t with
    | zero =>
        intro m hm
        exact h m (Nat.zero_le m) (by omega)
    | succ t ih =>
        apply ih
        intro m hlo hhi
        rcases Nat.lt_or_ge t m with hm | hm
        · exact h m hm (by omega)
        · obtain rfl : m = t := by omega
          have hsum := h (L.n + m) (by omega) (by omega)
          rw [seq_add] at hsum
          exact hE _ _ hsum (h _ (by omega) (by omega))
  intro k hk
  -- slot `k` holds the term `m` with `sep + m ≡ k`
  have hterm := hstart ((k + L.n - L.sep) % L.n) (Nat.mod_lt _ L.n_pos)
  rw [seq_of_lt (Nat.mod_lt _ L.n_pos), Nat.add_mod_mod,
    show L.sep + (k + L.n - L.sep) = k + L.n by omega, Nat.add_mod_right,
    Nat.mod_eq_of_lt hk] at hterm
  exact hterm

end Lag
