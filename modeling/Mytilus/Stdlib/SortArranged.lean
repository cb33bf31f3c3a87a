import Mytilus.Base.ProgAlike
import Mytilus.Stdlib.Qsort

/-!
# Comparators that follow pointers

A comparator of an array of pointers makes no sense of an array of anything else.
All it can promise is to rank the elements that the array has, in whatever order
they stand, and that is enough: `qsort` shows it no other array.

The sort is compared with one whose comparator does rank every array (`extended`):
the two are `Alike` up to the comparator, and answer alike in every state the second
reaches, since there the array is `Arranged`.  So what `Mytilus.Stdlib.Qsort` says of
the second holds of the first: `qsort_sorts_arranged`.
-/

namespace Mytilus.Stdlib.Sort

open Memory Prog

variable {σ γ : Type}

/-- The array in `m` has the elements of the one in `m₀`, and nothing else differs. -/
structure Arranged (base : Addr) (nel width : ℕ) (m₀ m : Memory) : Prop where
  perm : (elements base nel width m).Perm (elements base nel width m₀)
  outside : SameOutside base (nel * width) m₀ m

/-- The comparator ranks the elements of the array, however they are arranged. -/
def RanksArranged (base : Addr) (nel width : ℕ) (m₀ : Memory)
    (le : BitVec (8 * width) → BitVec (8 * width) → Prop) (cmp : CmpFn σ) : Prop :=
  ∀ m own i j, Arranged base nel width m₀ m → i < nel → j < nel →
    ((cmp (ptrAdd base (i * width)) (ptrAdd base (j * width)) m own).1.toInt < 0 ↔
      ¬ le (elem base width m j) (elem base width m i))

section Arranged

variable {base : Addr} {nel width : ℕ} {m₀ m m' : Memory}
  {le : BitVec (8 * width) → BitVec (8 * width) → Prop}

theorem Arranged.refl (base : Addr) (nel width : ℕ) (m : Memory) : Arranged base nel width m m :=
  ⟨.refl _, .refl _ _ _⟩

theorem Arranged.trans (h : Arranged base nel width m₀ m) {S : Set ℕ}
    (hmoved : Moved base nel width S m m') : Arranged base nel width m₀ m' :=
  ⟨hmoved.entries.perm.trans h.perm, h.outside.trans hmoved.outside⟩

theorem Moved.swapBytes {i j : ℕ} (hsize : nel * width < 2 ^ 63) (hi : i < nel) (hj : j < nel)
    (hne : i ≠ j) (m : Memory) : Moved base nel width Set.univ m
      (swapBytes (ptrAdd base (i * width)) (ptrAdd base (j * width)) width m) := by
  obtain ⟨hex, hout⟩ := moved_swapBytes base hsize hi hj hne m
  exact ⟨hex.rearranged trivial hi trivial hj, hout⟩

open Classical in
/-- The comparator, and on other arrays one that ranks these. -/
noncomputable def extended (base : Addr) (nel width : ℕ) (m₀ : Memory)
    (le : BitVec (8 * width) → BitVec (8 * width) → Prop) (cmp : CmpFn σ) : CmpFn σ :=
  fun a b m own =>
    if Arranged base nel width m₀ m then cmp a b m own
    else if le (readLE m b width) (readLE m a width) then (0, own)
    else (-1, own)

theorem extended_of_arranged {cmp : CmpFn σ} (h : Arranged base nel width m₀ m) (a b : Addr)
    (own : σ) : extended base nel width m₀ le cmp a b m own = cmp a b m own :=
  if_pos h

theorem RanksArranged.extended {cmp : CmpFn σ} (h : RanksArranged base nel width m₀ le cmp) :
    Ranks base nel width m₀ le (extended base nel width m₀ le cmp) := by
  intro m own i j _ hi hj
  by_cases harranged : Arranged base nel width m₀ m
  · rw [extended_of_arranged harranged]
    exact h m own i j harranged hi hj
  · unfold Sort.extended elem
    rw [if_neg harranged]
    split_ifs with hle
    · exact iff_of_false (by decide : ¬ (0 : BitVec 32).toInt < 0) (not_not.mpr hle)
    · exact iff_of_true (by decide : (-1 : BitVec 32).toInt < 0) hle

end Arranged

/-! ## Another comparator in its place -/

/-- Calls of one comparator stand for those of another. -/
inductive Replaced (cmp cmp' : CmpFnR σ γ) (ctx : γ) :
    (o o' : Op σ γ) → (o.Reply → o'.Reply) → Prop
  | same (o : Op σ γ) : Replaced cmp cmp' ctx o o id
  | cmp (a b : Addr) : Replaced cmp cmp' ctx (.cmp cmp a b ctx) (.cmp cmp' a b ctx) id

section Replaced

variable {base : Addr} {width : ℕ} {cmp cmp' : CmpFnR σ γ} {ctx : γ}

theorem alike_refl {α : Type} (p : Code σ γ α) : Alike (Replaced cmp cmp' ctx) p p :=
  Alike.refl .same p

theorem alike_compare {α : Type} {f f' : BitVec 32 → Code σ γ α} (a b : Addr)
    (hf : ∀ r, Alike (Replaced cmp cmp' ctx) (f r) (f' r)) :
    Alike (Replaced cmp cmp' ctx) (call cmp a b ctx >>= f) (call cmp' a b ctx >>= f') :=
  .op (.cmp a b) hf

theorem alike_rightLarger (n child : ℕ) : Alike (Replaced cmp cmp' ctx)
    (rightLarger base width cmp ctx n child) (rightLarger base width cmp' ctx n child) := by
  refine (alike_refl _).bind fun _ => ?_
  split_ifs
  · exact (alike_refl _).bind fun a => (alike_refl _).bind fun b =>
      alike_compare a b fun _ => alike_refl _
  · exact alike_refl _

theorem alike_siftDown (n i : ℕ) : Alike (Replaced cmp cmp' ctx)
    (siftDown base width cmp ctx n i) (siftDown base width cmp' ctx n i) := by
  induction hrest : n - i using Nat.strong_induction_on generalizing i with
  | _ rest ih =>
      rw [siftDown, siftDown]
      refine (alike_refl _).bind fun _ => ?_
      split_ifs with hleaf
      · exact alike_refl _
      · refine (alike_rightLarger n _).bind fun right => ?_
        refine (alike_refl _).bind fun a => (alike_refl _).bind fun b =>
          alike_compare a b fun r => ?_
        split_ifs
        · exact alike_refl _
        · refine (alike_refl _).bind fun _ => (alike_refl _).bind fun _ =>
            (alike_refl _).bind fun _ => ?_
          exact ih _ (by omega) _ rfl

theorem alike_buildHeap (n i : ℕ) : Alike (Replaced cmp cmp' ctx)
    (buildHeap base width cmp ctx n i) (buildHeap base width cmp' ctx n i) := by
  induction i with
  | zero => exact alike_refl _
  | succ i ih => exact (alike_siftDown n i).bind fun _ => ih

theorem alike_extract (last : ℕ) : Alike (Replaced cmp cmp' ctx)
    (extract base width cmp ctx last) (extract base width cmp' ctx last) := by
  induction last with
  | zero => exact alike_refl _
  | succ last ih =>
      cases last with
      | zero => exact alike_refl _
      | succ last =>
          refine (alike_refl _).bind fun _ => (alike_refl _).bind fun _ => ?_
          exact (alike_siftDown (last + 1) 0).bind fun _ => ih

theorem alike_qsortR (nel : ℕ) : Alike (Replaced cmp cmp' ctx)
    (qsortR base nel width cmp ctx) (qsortR base nel width cmp' ctx) := by
  unfold qsortR heapsort
  split_ifs
  · exact alike_refl _
  · exact (alike_buildHeap nel (nel / 2)).bind fun _ => alike_extract nel

end Replaced

section Step

variable {base : Addr} {nel width : ℕ} {m₀ : Memory} {cmp cmp' : CmpFnR σ γ} {ctx : γ}

/-- What a safe operation does to an arranged array. -/
theorem Arranged.exec (hsize : nel * width < 2 ^ 63) {o : Op σ γ} {s s₁ : Store σ} {r : o.Reply}
    (h : Arranged base nel width m₀ s.mem) (hsafe : Safe base nel width cmp ctx o)
    (hexec : Sort.exec o s = some (r, s₁)) : Arranged base nel width m₀ s₁.mem := by
  cases o with
  | usize x =>
      obtain ⟨-, hs⟩ := Option.ite_none_right_eq_some.mp hexec
      cases hs
      exact h
  | cmp f a b c =>
      cases hexec
      exact h
  | swapBytes a b w =>
      obtain ⟨rfl, -, i, hi, j, hj, hne, rfl, rfl⟩ := hsafe
      cases hexec
      exact h.trans (.swapBytes hsize hi hj hne s.mem)

end Step

theorem qsortR_sorts_arranged {base : Addr} {nel width : ℕ}
    {le : BitVec (8 * width) → BitVec (8 * width) → Prop} [Std.Total le] [IsTrans _ le]
    (hwidth : 1 ≤ width) (hsize : nel * width ≤ 2 ^ 63 - 1) {s : Store σ} {cmp : CmpFnR σ γ}
    {ctx : γ} (hranks : RanksArranged base nel width s.mem le fun a b => cmp a b ctx) :
    ∃ s' log, (qsortR base nel width cmp ctx).run exec s = some ((), s', log) ∧
      Sorts base nel width le s.mem s'.mem := by
  obtain ⟨cmp', hcmp'⟩ : ∃ cmp' : CmpFnR σ γ, cmp' = fun a b _ =>
    extended base nel width s.mem le (fun a b => cmp a b ctx) a b := ⟨_, rfl⟩
  have hranks' : Ranks base nel width s.mem le fun a b => cmp' a b ctx := by
    rw [hcmp']
    exact hranks.extended
  have hlt : nel * width < 2 ^ 63 := Nat.lt_of_le_sub_one (by norm_num) hsize
  have hruns := does_heapsort base cmp' ctx le hlt hwidth s
  have halike : Alike (Replaced cmp cmp' ctx) (qsortR base nel width cmp ctx)
      (qsortR base nel width cmp' ctx) := alike_qsortR nel
  -- the two comparators answer alike on every array that the sort arranges
  have hsort := halike.runs (fun s₁ => Arranged base nel width s.mem s₁.mem) ?_ hruns
    (.refl _ _ _ _)
  · obtain ⟨_, s', log, hrun, ⟨hmoved, horder⟩, -⟩ := runs_iff.mp hsort
    refine ⟨s', log, hrun, ?_, hmoved.entries.perm, hmoved.outside⟩
    refine List.pairwise_map.mpr (List.pairwise_lt_range.imp_of_mem fun _ hl hkl => ?_)
    exact horder hranks' _ _ hkl (List.mem_range.mp hl)
  · intro o o' g s₁ s₂ r' ho hsafe harranged hexec
    refine ⟨harranged.exec hlt hsafe hexec, ?_⟩
    cases ho with
    | same => exact ⟨r', hexec, rfl⟩
    | cmp a b =>
        have hsame : cmp' a b ctx s₁.mem s₁.own = cmp a b ctx s₁.mem s₁.own := by
          rw [hcmp']
          exact extended_of_arranged harranged a b s₁.own
        refine ⟨r', ?_, rfl⟩
        rw [← hexec]
        change some ((cmp a b ctx s₁.mem s₁.own).1, _) = some ((cmp' a b ctx s₁.mem s₁.own).1, _)
        rw [hsame]

/-- **A comparator need not make sense of anything but the elements.**  `qsort_r` and
`qsort` sort with every comparator that ranks the elements of the array however
these are arranged, whatever it does on other arrays. -/
theorem qsort_sorts_arranged (base : Addr) (nel width : ℕ)
    (le : BitVec (8 * width) → BitVec (8 * width) → Prop) [Std.Total le] [IsTrans _ le]
    (hwidth : 1 ≤ width) (hsize : nel * width ≤ 2 ^ 63 - 1) (s : Store σ) :
    (∀ (cmp : CmpFnR σ γ) (ctx : γ),
      RanksArranged base nel width s.mem le (fun a b => cmp a b ctx) →
      ∃ s' log, (qsortR base nel width cmp ctx).run exec s = some ((), s', log) ∧
        Sorts base nel width le s.mem s'.mem) ∧
    ∀ cmp : CmpFn σ, RanksArranged base nel width s.mem le cmp →
      ∃ s' log, (qsort base nel width cmp).run exec s = some ((), s', log) ∧
        Sorts base nel width le s.mem s'.mem :=
  ⟨fun _ _ hranks => qsortR_sorts_arranged hwidth hsize hranks,
    fun _ hranks => qsortR_sorts_arranged hwidth hsize hranks⟩

/-- Compares the bytes that two pointers in the array point to. -/
def comparePointees : CmpFn Unit := fun a b m own =>
  compareBytes (readLE m a 8) (readLE m b 8) m own

theorem compareBytes_neg_iff {a b : Addr} {m : Memory} {own : Unit} :
    (compareBytes a b m own).1.toInt < 0 ↔ (m a).toNat < (m b).toNat := by
  unfold compareBytes
  dsimp only
  split_ifs with hlt hgt
  · exact iff_of_true (by decide) hlt
  · exact iff_of_false (by decide) hlt
  · exact iff_of_false (by decide) hlt

/-- Two pointers, to the second and to the first of the bytes `ab`. -/
theorem qsort_sorts_arranged_pointers :
    let m : Memory := fun a => if a = 0x1000 then 1 else if a = 0x1001 ∨ a = 0x1009 then 0x20 else
      if a = 0x2000 then 97 else if a = 0x2001 then 98 else 0
    ∃ s' log, (qsort 0x1000 2 8 comparePointees).run exec ⟨m, ()⟩ = some ((), s', log) ∧
      Sorts 0x1000 2 8 (fun p q => (m p).toNat ≤ (m q).toNat) m s'.mem := by
  intro m
  have : Std.Total fun p q : BitVec (8 * 8) => (m p).toNat ≤ (m q).toNat :=
    ⟨fun p q => Nat.le_total _ _⟩
  have : IsTrans (BitVec (8 * 8)) fun p q => (m p).toNat ≤ (m q).toNat :=
    ⟨fun _ _ _ => Nat.le_trans⟩
  have hpointers : elements 0x1000 2 8 m = [0x2001, 0x2000] := by decide +kernel
  have hranks : RanksArranged 0x1000 2 8 m (fun p q => (m p).toNat ≤ (m q).toNat)
      comparePointees := by
    intro m' own i j harranged hi hj
    -- in every arrangement the pointers are to bytes outside the array
    have hbyte : ∀ k < 2, m' (elem 0x1000 8 m' k) = m (elem 0x1000 8 m' k) := by
      intro k hk
      have hmem : elem 0x1000 8 m' k ∈ elements 0x1000 2 8 m :=
        harranged.perm.mem_iff.mp (List.mem_map_of_mem (List.mem_range.mpr hk))
      rw [hpointers] at hmem
      refine harranged.outside _ ?_
      rcases List.mem_pair.mp hmem with heq | heq <;> rw [heq] <;> decide
    refine compareBytes_neg_iff.trans ?_
    change (m' (elem 0x1000 8 m' i)).toNat < (m' (elem 0x1000 8 m' j)).toNat ↔ _
    rw [hbyte i hi, hbyte j hj, not_le]
  exact (@qsort_sorts_arranged Unit Unit 0x1000 2 8 _ _ _ (by norm_num) (by norm_num) ⟨m, ()⟩).2
    comparePointees hranks

end Mytilus.Stdlib.Sort
