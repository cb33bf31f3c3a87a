import Mytilus.Stdlib.Bsearch
import Mytilus.Stdlib.SortArranged

/-!
# Sorting, then searching

With one comparator for both, `bsearch` on the array that `qsort` leaves finds
the key if and only if it was in the array that `qsort` was given.
-/

namespace Mytilus.Stdlib.Sort

open Memory

variable {σ : Type}

/-! ## Comparators of both -/

/-- The pointers that the two functions pass to a comparator. -/
def Passed (key base : Addr) (nel width : ℕ) (p : Addr) : Prop :=
  p = key ∨ ∃ k < nel, p = ptrAdd base (k * width)

/-- The answer is the C comparison of the two values under `le`, whatever the
comparator's own state and however the elements of the array are arranged. -/
def Compares (key base : Addr) (nel width : ℕ) (m₀ : Memory)
    (le : BitVec (8 * width) → BitVec (8 * width) → Prop) (cmp : CmpFn σ) : Prop :=
  ∀ m own p q, Arranged base nel width m₀ m →
    Passed key base nel width p → Passed key base nel width q →
    ((cmp p q m own).1.toInt < 0 ↔ ¬ le (readLE m q width) (readLE m p width)) ∧
      (0 < (cmp p q m own).1.toInt ↔ ¬ le (readLE m p width) (readLE m q width))

theorem elem_le_of_sorted {base : Addr} {nel width : ℕ} {m : Memory}
    {le : BitVec (8 * width) → BitVec (8 * width) → Prop}
    (h : (elements base nel width m).Pairwise le) {i j : ℕ} (hij : i < j) (hj : j < nel) :
    le (elem base width m i) (elem base width m j) := by
  have hlength : (elements base nel width m).length = nel := by simp [elements]
  have hle := List.pairwise_iff_getElem.mp h i j (by omega) (by omega) hij
  simpa [elements] using hle

section Compares

variable {key base : Addr} {nel width : ℕ} {m₀ m : Memory}
  {le : BitVec (8 * width) → BitVec (8 * width) → Prop} {cmp : CmpFn σ}

theorem passed_elem {k : ℕ} (hk : k < nel) : Passed key base nel width (ptrAdd base (k * width)) :=
  .inr ⟨k, hk, rfl⟩

theorem Compares.ranks (h : Compares key base nel width m₀ le cmp) :
    RanksArranged base nel width m₀ le cmp :=
  fun m own _ _ harranged hi hj => (h m own _ _ harranged (passed_elem hi) (passed_elem hj)).1

/-- Equal under a preorder. -/
def Equal (le : BitVec (8 * width) → BitVec (8 * width) → Prop) (x y : BitVec (8 * width)) : Prop :=
  le x y ∧ le y x

open Classical in
/-- The sign of comparing a key with a value. -/
noncomputable def signOf (le : BitVec (8 * width) → BitVec (8 * width) → Prop)
    (x y : BitVec (8 * width)) : ℤ :=
  if le y x then if le x y then 0 else 1 else -1

theorem signOf_eq_zero {x y : BitVec (8 * width)} : signOf le x y = 0 ↔ Equal le x y := by
  unfold signOf Equal
  by_cases hyx : le y x <;> by_cases hxy : le x y <;> simp [hyx, hxy]

/-- The sign falls as the value grows. -/
theorem signOf_anti [IsTrans _ le] {x y z : BitVec (8 * width)} (hyz : le y z) :
    signOf le x z ≤ signOf le x y := by
  have hbelow : le z x → le y x := fun h => IsTrans.trans _ _ _ hyz h
  have habove : le x y → le x z := fun h => IsTrans.trans _ _ _ h hyz
  unfold signOf
  by_cases hzx : le z x
  · by_cases hxy : le x y
    · simp [hzx, hxy, hbelow hzx, habove hxy]
    · by_cases hxz : le x z <;> simp [hzx, hxy, hxz, hbelow hzx]
  · rw [if_neg hzx]
    split_ifs <;> norm_num

theorem Compares.signs (h : Compares key base nel width m₀ le cmp)
    (harranged : Arranged base nel width m₀ m) :
    Signs cmp key base nel width m fun k =>
      signOf le (readLE m key width) (elem base width m k) := by
  intro k hk own
  obtain ⟨hneg, hpos⟩ := h m own key _ harranged (.inl rfl) (passed_elem hk)
  change _ = signOf le (readLE m key width) (readLE m (ptrAdd base (k * width)) width)
  unfold signOf
  split_ifs with habove hbelow
  · have hzero := le_antisymm (not_lt.mp fun h => hpos.mp h hbelow)
      (not_lt.mp fun h => hneg.mp h habove)
    rw [hzero, Int.sign_zero]
  · exact Int.sign_eq_one_of_pos (hpos.mpr hbelow)
  · exact Int.sign_eq_neg_one_of_neg (hneg.mpr habove)

theorem mem_elements {v : BitVec (8 * width)} :
    v ∈ elements base nel width m ↔ ∃ k < nel, elem base width m k = v := by
  simp [elements]

/-- A key outside the array is the same for every arrangement of it. -/
theorem Arranged.readLE_key (h : Arranged base nel width m₀ m) (hsize : nel * width < 2 ^ 64)
    (hsep : Separate base (nel * width) key width) : readLE m key width = readLE m₀ key width := by
  rcases Nat.eq_zero_or_pos nel with rfl | hnel
  · have hall := h.outside
    rw [Nat.zero_mul] at hall
    exact readLE_congr fun i _ => hall _ (Nat.not_lt_zero _)
  · have hfit : width ≤ nel * width := Nat.le_mul_of_pos_left width hnel
    have hread := h.outside.readLE_eq hsep (k := 0) (w := width) (by omega) (by omega)
    rwa [ptrAdd_zero] at hread

/-- The search in an array that has been sorted. -/
theorem Compares.searches [IsTrans _ le] {s s₁ : Store σ}
    (h : Compares key base nel width s.mem le cmp) (hsize : nel * width ≤ 2 ^ 63 - 1)
    (hsep : Separate base (nel * width) key width) (hsorts : Sorts base nel width le s.mem s₁.mem) :
    ∃ p own log, (bsearch key base nel width cmp).run exec s₁ = some (p, { s₁ with own := own }, log) ∧
      ((∃ v ∈ elements base nel width s.mem, Equal le (readLE s.mem key width) v) →
        ∃ k < nel, p = ptrAdd base (k * width) ∧
          Equal le (readLE s.mem key width) (elem base width s₁.mem k)) ∧
      ((¬ ∃ v ∈ elements base nel width s.mem, Equal le (readLE s.mem key width) v) → p = 0) := by
  have harranged : Arranged base nel width s.mem s₁.mem := ⟨hsorts.perm, hsorts.outside⟩
  obtain ⟨p, own, log, hrun, hsearch⟩ := searches_bsearch key base nel width cmp s₁ hsize
  have hsigns := h.signs harranged
  rw [harranged.readLE_key (by omega) hsep] at hsigns
  -- the array is sorted, so the answers to the key fall
  have hfalling : Falling nel fun k =>
      signOf le (readLE s.mem key width) (elem base width s₁.mem k) := by
    intro i j hij hj
    rcases hij.lt_or_eq with hlt | rfl
    · exact signOf_anti (elem_le_of_sorted hsorts.sorted hlt hj)
    · exact le_rfl
  have hmem : (∃ v ∈ elements base nel width s.mem, Equal le (readLE s.mem key width) v) ↔
      ∃ k < nel, Equal le (readLE s.mem key width) (elem base width s₁.mem k) := by
    constructor
    · rintro ⟨v, hv, heq⟩
      obtain ⟨k, hk, rfl⟩ := mem_elements.mp (hsorts.perm.mem_iff.mpr hv)
      exact ⟨k, hk, heq⟩
    · rintro ⟨k, hk, heq⟩
      exact ⟨_, hsorts.perm.mem_iff.mp (mem_elements.mpr ⟨k, hk, rfl⟩), heq⟩
  refine ⟨p, own, log, hrun, ?_⟩
  rw [hmem]
  rcases hsearch.found _ hsigns hfalling with ⟨hp, hnone⟩ | ⟨k, hk, hp, hzero⟩
  · have hno : ¬ ∃ k < nel, Equal le (readLE s.mem key width) (elem base width s₁.mem k) :=
      fun ⟨k, hk, heq⟩ => hnone k hk (signOf_eq_zero.mpr heq)
    exact ⟨fun h => absurd h hno, fun _ => hp⟩
  · have heq := signOf_eq_zero.mp hzero
    exact ⟨fun _ => ⟨k, hk, hp, heq⟩, fun hno => absurd ⟨k, hk, heq⟩ hno⟩

end Compares

/-- **Search after sort.**  A key outside the array is found in the sorted array if
and only if an equal element was in the array before, and then the pointer
returned is to an equal element of the sorted array. -/
theorem bsearch_after_qsort (key base : Addr) (nel width : ℕ)
    (le : BitVec (8 * width) → BitVec (8 * width) → Prop) [Std.Total le] [IsTrans _ le]
    (hwidth : 1 ≤ width) (hsize : nel * width ≤ 2 ^ 63 - 1) (cmp : CmpFn σ) (s : Store σ)
    (hsep : Separate base (nel * width) key width) (hcmp : Compares key base nel width s.mem le cmp) :
    ∃ s₁ log₁ p s₂ log₂,
      (qsort base nel width cmp).run exec s = some ((), s₁, log₁) ∧
      (bsearch key base nel width cmp).run exec s₁ = some (p, s₂, log₂) ∧ s₂.mem = s₁.mem ∧
      ((∃ v ∈ elements base nel width s.mem, Equal le (readLE s.mem key width) v) →
        ∃ k < nel, p = ptrAdd base (k * width) ∧
          Equal le (readLE s.mem key width) (elem base width s₁.mem k)) ∧
      ((¬ ∃ v ∈ elements base nel width s.mem, Equal le (readLE s.mem key width) v) → p = 0) := by
  have hranks : RanksArranged base nel width s.mem le fun a b => qsort2to3Adapter a b cmp :=
    hcmp.ranks
  obtain ⟨s₁, log₁, hsort, hsorts⟩ := qsortR_sorts_arranged hwidth hsize hranks
  obtain ⟨p, own, log₂, hrun, hfound, hnone⟩ := hcmp.searches hsize hsep hsorts
  exact ⟨s₁, log₁, p, _, log₂, hsort, hrun, rfl, hfound, hnone⟩

theorem compares_compareBytes (key base : Addr) (nel : ℕ) (m₀ : Memory) :
    Compares key base nel 1 m₀ (fun x y => x.toNat ≤ y.toNat) compareBytes := by
  have hbyte : ∀ m p, (readLE m p 1).toNat = (m p).toNat := by
    intro m p
    have hread := byteOf_readLE m p (n := 1) Nat.zero_lt_one
    rw [ptrAdd_zero] at hread
    rw [← hread, byteOf, BitVec.extractLsb'_toNat]
    exact (Nat.mod_eq_of_lt (readLE m p 1).isLt).symm
  intro m own p q _ _ _
  beta_reduce
  rw [hbyte, hbyte, not_le, not_le, compareBytes]
  dsimp only
  split_ifs with hlt hgt
  · exact ⟨iff_of_true (by decide) hlt, iff_of_false (by decide) hlt.not_gt⟩
  · exact ⟨iff_of_false (by decide) hlt, iff_of_true (by decide) hgt⟩
  · exact ⟨iff_of_false (by decide) hlt, iff_of_false (by decide) hgt⟩

/-- The five bytes `0, 255, 254, 253, 252`, and a key that is equal to the third. -/
theorem bsearch_after_qsort_five : ∃ s₁ log₁ p s₂ log₂,
    (qsort 0x1000 5 1 compareBytes).run exec ⟨fun a => -a.setWidth 8, ()⟩ = some ((), s₁, log₁) ∧
    (bsearch 0x2002 0x1000 5 1 compareBytes).run exec s₁ = some (p, s₂, log₂) ∧
    ∃ k < 5, p = ptrAdd 0x1000 (k * 1) := by
  have : Std.Total fun x y : BitVec (8 * 1) => x.toNat ≤ y.toNat := ⟨fun x y => Nat.le_total _ _⟩
  have : IsTrans (BitVec (8 * 1)) fun x y => x.toNat ≤ y.toNat := ⟨fun _ _ _ => Nat.le_trans⟩
  obtain ⟨s₁, log₁, p, s₂, log₂, hsort, hrun, -, hfound, -⟩ :=
    @bsearch_after_qsort Unit 0x2002 0x1000 5 1 _ _ _ le_rfl (by norm_num) compareBytes
      ⟨fun a => -a.setWidth 8, ()⟩ (separate_of_add_le (by decide) (by decide))
      (compares_compareBytes 0x2002 0x1000 5 _)
  have helem : ∃ v ∈ elements 0x1000 5 1 (fun a => -a.setWidth 8),
      Equal (fun x y : BitVec (8 * 1) => x.toNat ≤ y.toNat)
        (readLE (fun a => -a.setWidth 8) 0x2002 1) v :=
    ⟨_, List.mem_map_of_mem (List.mem_range.mpr (by norm_num : 2 < 5)), by decide, by decide⟩
  obtain ⟨k, hk, hp, -⟩ := hfound helem
  exact ⟨s₁, log₁, p, s₂, log₂, hsort, hrun, k, hk, hp⟩

end Mytilus.Stdlib.Sort
