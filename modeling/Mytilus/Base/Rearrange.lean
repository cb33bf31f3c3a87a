import Mathlib.Tactic

/-!
# Rearrangements of an indexed family

`Rearranged S n a a'` says that the first `n` entries of `a'` are those of `a` in
another order, in which only the indices in `S` have moved.  Exchanging two
entries is such a rearrangement, and rearrangements compose.
-/

variable {α : Type*} {S T : Set ℕ} {n i j : ℕ} {a a' a'' : ℕ → α}

/-- The entries at `i` and `j` are exchanged, and the others below `n` are the same. -/
structure Exchanged (n i j : ℕ) (a a' : ℕ → α) : Prop where
  left : a' i = a j
  right : a' j = a i
  other : ∀ k < n, k ≠ i → k ≠ j → a' k = a k

def Rearranged (S : Set ℕ) (n : ℕ) (a a' : ℕ → α) : Prop :=
  ∃ π : Equiv.Perm ℕ, (∀ k, π k ≠ k → k ∈ S ∧ k < n) ∧ ∀ k < n, a' k = a (π k)

namespace Rearranged

theorem refl (S : Set ℕ) (n : ℕ) (a : ℕ → α) : Rearranged S n a a :=
  ⟨1, fun _ hk => absurd rfl hk, fun _ _ => rfl⟩

theorem mono (h : Rearranged S n a a') (hST : ∀ k ∈ S, k ∈ T) : Rearranged T n a a' := by
  obtain ⟨π, hmoved, hentries⟩ := h
  exact ⟨π, fun k hk => ⟨hST k (hmoved k hk).1, (hmoved k hk).2⟩, hentries⟩

/-- An entry comes from an index below `n`, in `S` if its own is. -/
theorem exists_eq (h : Rearranged S n a a') {k : ℕ} (hk : k < n) :
    ∃ l < n, a' k = a l ∧ (k ∈ S → l ∈ S) ∧ (k ∉ S → l = k) := by
  obtain ⟨π, hmoved, hentries⟩ := h
  by_cases hfix : π k = k
  · exact ⟨k, hk, by rw [hentries k hk, hfix], id, fun _ => rfl⟩
  · obtain ⟨hmem, hlt⟩ := hmoved (π k) fun heq => hfix (π.injective heq)
    exact ⟨π k, hlt, hentries k hk, fun _ => hmem, fun hnot => absurd (hmoved k hfix).1 hnot⟩

theorem eq_of_notMem (h : Rearranged S n a a') {k : ℕ} (hk : k < n) (hS : k ∉ S) : a' k = a k := by
  obtain ⟨l, -, heq, -, hl⟩ := h.exists_eq hk
  rw [heq, hl hS]

theorem trans (h : Rearranged S n a a') (h' : Rearranged S n a' a'') : Rearranged S n a a'' := by
  obtain ⟨π, hmoved, hentries⟩ := h
  obtain ⟨π', hmoved', hentries'⟩ := h'
  refine ⟨π * π', fun k hk => ?_, fun k hk => ?_⟩
  · by_cases hfix : π' k = k
    · rw [Equiv.Perm.mul_apply, hfix] at hk
      exact hmoved k hk
    · exact hmoved' k hfix
  · have hlt : π' k < n := by
      by_cases hfix : π' k = k
      · rwa [hfix]
      · exact (hmoved' (π' k) fun heq => hfix (π'.injective heq)).2
    rw [hentries' k hk, hentries _ hlt, Equiv.Perm.mul_apply]

/-- The entries at indices that hold all of those in `S` are a permutation of what
they were. -/
theorem perm_of_mem (h : Rearranged S n a a') {l : List ℕ} (hnodup : l.Nodup)
    (hlt : ∀ k ∈ l, k < n) (hmem : ∀ k ∈ S, k < n → k ∈ l) : (l.map a').Perm (l.map a) := by
  obtain ⟨π, hmoved, hentries⟩ := h
  -- the permutation moves no index into the list or out of it
  have hclosed : ∀ k, π k ∈ l ↔ k ∈ l := by
    intro k
    by_cases hfix : π k = k
    · rw [hfix]
    · have hfrom := hmoved k hfix
      have hto := hmoved (π k) fun heq => hfix (π.injective heq)
      exact iff_of_true (hmem _ hto.1 hto.2) (hmem _ hfrom.1 hfrom.2)
  have hindices : (l.map π).Perm l := by
    rw [List.perm_ext_iff_of_nodup (hnodup.map π.injective) hnodup]
    intro k
    rw [List.mem_map]
    constructor
    · rintro ⟨j, hj, rfl⟩
      exact (hclosed j).mpr hj
    · intro hk
      refine ⟨π.symm k, (hclosed _).mp ?_, π.apply_symm_apply k⟩
      rwa [π.apply_symm_apply]
  have hmap : l.map a' = (l.map π).map a := by
    rw [List.map_map]
    exact List.map_congr_left fun k hk => hentries k (hlt k hk)
  rw [hmap]
  exact hindices.map a

/-- The entries are a permutation of what they were. -/
theorem perm (h : Rearranged S n a a') : ((List.range n).map a').Perm ((List.range n).map a) :=
  h.perm_of_mem List.nodup_range (fun _ => List.mem_range.mp) fun _ _ => List.mem_range.mpr

end Rearranged

theorem Exchanged.rearranged (h : Exchanged n i j a a') (hi : i ∈ S) (hin : i < n) (hj : j ∈ S)
    (hjn : j < n) : Rearranged S n a a' := by
  refine ⟨Equiv.swap i j, fun k hk => ?_, fun k hk => ?_⟩
  · by_cases hki : k = i
    · exact hki ▸ ⟨hi, hin⟩
    · by_cases hkj : k = j
      · exact hkj ▸ ⟨hj, hjn⟩
      · exact absurd (Equiv.swap_apply_of_ne_of_ne hki hkj) hk
  · by_cases hki : k = i
    · rw [hki, Equiv.swap_apply_left, h.left]
    · by_cases hkj : k = j
      · rw [hkj, Equiv.swap_apply_right, h.right]
      · rw [Equiv.swap_apply_of_ne_of_ne hki hkj, h.other k hk hki hkj]
