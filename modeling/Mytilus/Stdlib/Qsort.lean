import Mytilus.Stdlib.SortSift

/-!
# `qsort` and `qsort_r` sort, and stay within the array

The two loops of the heapsort, each with its invariant: `Built` while the heap is
built from the last inner node down, `Extracted` while the maximum is moved
behind the shrinking heap.  The part of an invariant that speaks of the order is
conditional on a comparator that ranks; the rest holds for every comparator.  The
order itself is that of `Mytilus.Base.Heap`: the loops only bring its steps to the
array in memory.

`does_heapsort` is the whole sort, and both results are read off it:

* `qsort_sorts`: with a comparator that ranks, the array is sorted;
* `qsortR_safe`: with any comparator, also an inconsistent one, the sort ends, keeps
  within the array and within `usize`, and rearranges.  It takes `does_heapsort` at
  the relation that holds of all elements.
-/

namespace Mytilus.Stdlib.Sort

open Memory

variable {σ γ : Type}

section Loops

variable {base : Addr} {nel width : ℕ} {cmp : CmpFnR σ γ} {ctx : γ}
  {le : BitVec (8 * width) → BitVec (8 * width) → Prop} {s : Store σ} {m₀ m m' : Memory} {n i : ℕ}

/-- The heap is built down to index `i`. -/
structure Built (base : Addr) (nel width : ℕ) (le : BitVec (8 * width) → BitVec (8 * width) → Prop)
    (cmp : CmpFnR σ γ) (ctx : γ) (m₀ : Memory) (i : ℕ) (m : Memory) : Prop where
  moved : Moved base nel width Set.univ m₀ m
  ordered : Ranks base nel width m₀ le (fun a b => cmp a b ctx) →
    Heap.OrderedFrom le (elem base width m) nel i

/-- The elements from index `last` on are in place. -/
structure Extracted (base : Addr) (nel width : ℕ)
    (le : BitVec (8 * width) → BitVec (8 * width) → Prop) (cmp : CmpFnR σ γ) (ctx : γ)
    (m₀ : Memory) (last : ℕ) (m : Memory) : Prop where
  moved : Moved base nel width Set.univ m₀ m
  sorting : Ranks base nel width m₀ le (fun a b => cmp a b ctx) →
    Heap.Sorting le (elem base width m) nel last

theorem sifting_start (m : Memory) (n i : ℕ) :
    Sifting base nel width le cmp ctx m n i i m where
  below := .root
  moved := .refl _ _ _ _ m
  hole := fun _ hord => hord.hole

theorem Built.step (h : Built base nel width le cmp ctx m₀ (i + 1) m)
    (hsifted : Sifted base nel width le cmp ctx m nel i m') :
    Built base nel width le cmp ctx m₀ i m' where
  moved := h.moved.trans (hsifted.moved.mono fun _ _ => trivial)
  ordered := by
    intro hranks
    have hfrom := h.ordered hranks
    refine hfrom.step (hsifted.ordered (hranks.of_sameOutside h.moved.outside) hfrom.below) ?_
    exact fun k hk hnot => hsifted.moved.entries.eq_of_notMem hk fun hin => hnot hin.2

theorem does_buildHeap [Std.Total le] [IsTrans _ le] (hsize : nel * width < 2 ^ 63)
    (hnel : nel < 2 ^ 63) (hi : i ≤ nel) (h : Built base nel width le cmp ctx m₀ i s.mem) :
    Does base nel width cmp ctx (fun _ s' => Built base nel width le cmp ctx m₀ 0 s'.mem)
      (buildHeap base width cmp ctx nel i) s := by
  induction i generalizing s with
  | zero => exact does_pure.mpr h
  | succ i ih =>
      rw [buildHeap, does_bind]
      have hsifting : Sifting base nel width le cmp ctx s.mem nel i i s.mem := sifting_start ..
      apply (does_siftDown hsize hnel le_rfl hi hsifting).mono fun _ ho => ho
      intro _ s' hsifted
      exact ih (by omega) (h.step hsifted)

theorem Built.extracted (h : Built base nel width le cmp ctx m₀ 0 m) :
    Extracted base nel width le cmp ctx m₀ nel m where
  moved := h.moved
  sorting := fun hranks => (h.ordered hranks).sorting

theorem Extracted.step [Std.Total le] [IsTrans _ le]
    (h : Extracted base nel width le cmp ctx m₀ (n + 1) m) (hn : n + 1 ≤ nel)
    (hex : Exchanged nel 0 n (elem base width m) (elem base width m'))
    (hout : SameOutside base (nel * width) m m') {m'' : Memory}
    (hsifted : Sifted base nel width le cmp ctx m' n 0 m'') :
    Extracted base nel width le cmp ctx m₀ n m'' where
  moved := by
    have hswap : Moved base nel width Set.univ m m' :=
      ⟨hex.rearranged trivial (by omega) trivial (by omega), hout⟩
    exact (h.moved.trans hswap).trans (hsifted.moved.mono fun _ _ => trivial)
  sorting := by
    intro hranks
    have hsorting := h.sorting hranks
    have hranks' := (hranks.of_sameOutside h.moved.outside).of_sameOutside hout
    exact hsorting.step hex hn hsifted.moved.entries
      (hsifted.ordered hranks' (hsorting.orderedBelow hex hn))

theorem does_extract [Std.Total le] [IsTrans _ le] (hsize : nel * width < 2 ^ 63)
    (hnel : nel < 2 ^ 63) (hn : n ≤ nel) (h : Extracted base nel width le cmp ctx m₀ n s.mem) :
    Does base nel width cmp ctx
      (fun _ s' => ∃ last ≤ 1, Extracted base nel width le cmp ctx m₀ last s'.mem)
      (extract base width cmp ctx n) s := by
  induction n generalizing s with
  | zero => exact does_pure.mpr ⟨0, Nat.zero_le 1, h⟩
  | succ n ih =>
      cases n with
      | zero => exact does_pure.mpr ⟨1, le_rfl, h⟩
      | succ n =>
          have hfirst : ptrAdd base (0 * width) = base := by rw [Nat.zero_mul, ptrAdd_zero]
          -- the root and the last of the heap change places
          obtain ⟨hex, hout⟩ := moved_swapBytes base (i := 0) (j := n + 1) hsize
            (by omega) hn (by omega) s.mem
          rw [extract, does_bind]
          apply does_elt (mul_lt_of_lt hsize hn)
          rw [does_bind]
          refine does_swap hsize hfirst.symm rfl (by omega) hn (by omega) ?_
          rw [does_bind]
          rw [hfirst] at hex hout
          generalize swapBytes base (ptrAdd base ((n + 1) * width)) width s.mem = m' at hex hout ⊢
          -- and the heap, one smaller, is restored from its root
          have hsifting : Sifting base nel width le cmp ctx m' (n + 1) 0 0 m' := sifting_start ..
          have hsift := does_siftDown (s := { s with mem := m' }) hsize hnel (by omega)
            (Nat.succ_pos n) hsifting
          apply hsift.mono fun _ ho => ho
          intro _ s' hsifted
          exact ih (by omega) (h.step hn hex hout hsifted)

/-- The whole sort: the elements are rearranged, and in order if the comparator ranks. -/
theorem does_heapsort (base : Addr) (cmp : CmpFnR σ γ) (ctx : γ)
    (le : BitVec (8 * width) → BitVec (8 * width) → Prop) [Std.Total le] [IsTrans _ le]
    (hsize : nel * width < 2 ^ 63) (hwidth : 0 < width) (s : Store σ) :
    Does base nel width cmp ctx
      (fun _ s' => Moved base nel width Set.univ s.mem s'.mem ∧
        (Ranks base nel width s.mem le (fun a b => cmp a b ctx) → ∀ k l, k < l → l < nel →
          le (elem base width s'.mem k) (elem base width s'.mem l)))
      (heapsort base width cmp ctx nel) s := by
  have hnel : nel < 2 ^ 63 := lt_of_le_of_lt (Nat.le_mul_of_pos_right nel hwidth) hsize
  by_cases hsmall : nel < 2
  · rw [heapsort, if_pos (.inl hsmall), does_pure]
    exact ⟨.refl _ _ _ _ _, fun _ k l hkl hl => absurd hkl (by omega)⟩
  · have hnot : ¬ (nel < 2 ∨ width = 0) := by omega
    rw [heapsort, if_neg hnot, does_bind]
    have hbuilt : Built base nel width le cmp ctx s.mem (nel / 2) s.mem :=
      ⟨.refl _ _ _ _ _, fun _ => Heap.orderedFrom_half⟩
    apply (does_buildHeap hsize hnel (by omega) hbuilt).mono fun _ ho => ho
    intro _ t hbuilt'
    apply (does_extract hsize hnel le_rfl hbuilt'.extracted).mono fun _ ho => ho
    rintro _ s' ⟨last, hlast, hextracted⟩
    refine ⟨hextracted.moved, fun hranks k l hkl hl => ?_⟩
    exact (hextracted.sorting hranks).done hlast hkl hl

end Loops

/-! ## Results -/

/-- The array at `base` in `m'` is that of `m`, in order; nothing else differs. -/
structure Sorts (base : Addr) (nel width : ℕ) (le : BitVec (8 * width) → BitVec (8 * width) → Prop)
    (m m' : Memory) : Prop where
  sorted : (elements base nel width m').Pairwise le
  perm : (elements base nel width m').Perm (elements base nel width m)
  outside : SameOutside base (nel * width) m m'

theorem qsortR_sorts {base : Addr} {nel width : ℕ}
    {le : BitVec (8 * width) → BitVec (8 * width) → Prop} [Std.Total le] [IsTrans _ le]
    (hwidth : 1 ≤ width) (hsize : nel * width ≤ 2 ^ 63 - 1) {s : Store σ} {cmp : CmpFnR σ γ} {ctx : γ}
    (hranks : Ranks base nel width s.mem le fun a b => cmp a b ctx) :
    ∃ s' log, (qsortR base nel width cmp ctx).run exec s = some ((), s', log) ∧
      Sorts base nel width le s.mem s'.mem := by
  have hsort := does_heapsort base cmp ctx le (Nat.lt_of_le_sub_one (by norm_num) hsize) hwidth s
  obtain ⟨_, s', log, hrun, ⟨hmoved, horder⟩, -⟩ := Prog.runs_iff.mp hsort
  refine ⟨s', log, hrun, ?_, hmoved.entries.perm, hmoved.outside⟩
  refine List.pairwise_map.mpr (List.pairwise_lt_range.imp_of_mem fun _ hl hkl => ?_)
  exact horder hranks _ _ hkl (List.mem_range.mp hl)

/-- `qsort_r`, and `qsort` through its adapter, sort every array with every
comparator whose answers are those of a total preorder of the contents. -/
theorem qsort_sorts (base : Addr) (nel width : ℕ)
    (le : BitVec (8 * width) → BitVec (8 * width) → Prop) [Std.Total le] [IsTrans _ le]
    (hwidth : 1 ≤ width) (hsize : nel * width ≤ 2 ^ 63 - 1) (s : Store σ) :
    (∀ (cmp : CmpFnR σ γ) (ctx : γ), Ranks base nel width s.mem le (fun a b => cmp a b ctx) →
      ∃ s' log, (qsortR base nel width cmp ctx).run exec s = some ((), s', log) ∧
        Sorts base nel width le s.mem s'.mem) ∧
    ∀ cmp : CmpFn σ, Ranks base nel width s.mem le cmp →
      ∃ s' log, (qsort base nel width cmp).run exec s = some ((), s', log) ∧
        Sorts base nel width le s.mem s'.mem :=
  ⟨fun _ _ hranks => qsortR_sorts hwidth hsize hranks, fun _ hranks => qsortR_sorts hwidth hsize hranks⟩

/-- Compares single bytes as unsigned numbers. -/
def compareBytes : CmpFn Unit := fun a b m own =>
  (if (m a).toNat < (m b).toNat then -1 else if (m b).toNat < (m a).toNat then 1 else 0, own)

theorem ranks_compareBytes (base : Addr) (nel : ℕ) (m : Memory) :
    Ranks base nel 1 m (fun x y => x.toNat ≤ y.toNat) compareBytes := by
  have helem : ∀ m k, (elem base 1 m k).toNat = (m (ptrAdd base (k * 1))).toNat := by
    intro m k
    have hbyte := byteOf_readLE m (ptrAdd base (k * 1)) (n := 1) Nat.zero_lt_one
    rw [ptrAdd_zero] at hbyte
    rw [← hbyte, byteOf, BitVec.extractLsb'_toNat]
    exact (Nat.mod_eq_of_lt (elem base 1 m k).isLt).symm
  intro m' own i j _ _ _
  change _ ↔ ¬ (elem base 1 m' j).toNat ≤ (elem base 1 m' i).toNat
  rw [helem, helem, not_le, compareBytes]
  split_ifs with hlt hgt
  · exact iff_of_true (by decide : (-1 : BitVec 32).toInt < 0) hlt
  · exact iff_of_false (by decide : ¬ (1 : BitVec 32).toInt < 0) hlt
  · exact iff_of_false (by decide : ¬ (0 : BitVec 32).toInt < 0) hlt

/-- The five bytes `0, 255, 254, 253, 252`. -/
theorem qsort_sorts_five :
    ∃ s' log, (qsort 0x1000 5 1 compareBytes).run exec ⟨fun a => -a.setWidth 8, ()⟩ =
        some ((), s', log) ∧
      Sorts 0x1000 5 1 (fun x y => x.toNat ≤ y.toNat) (fun a => -a.setWidth 8) s'.mem := by
  have : Std.Total fun x y : BitVec (8 * 1) => x.toNat ≤ y.toNat := ⟨fun x y => Nat.le_total _ _⟩
  have : IsTrans (BitVec (8 * 1)) fun x y => x.toNat ≤ y.toNat := ⟨fun _ _ _ => Nat.le_trans⟩
  exact (@qsort_sorts Unit Unit 0x1000 5 1 _ _ _ le_rfl (by norm_num) ⟨_, ()⟩).2 compareBytes
    (ranks_compareBytes 0x1000 5 _)

/-- The run of a sort that any comparator guides, perhaps an inconsistent one: for the
relation that holds of all elements the invariants of the loops ask nothing of it. -/
theorem runs_qsortR (base : Addr) (nel width : ℕ) (hsize : nel * width ≤ 2 ^ 63 - 1)
    (cmp : CmpFnR σ γ) (ctx : γ) (s : Store σ) :
    ∃ s' log, (qsortR base nel width cmp ctx).run exec s = some ((), s', log) ∧
      (∀ o ∈ log, Safe base nel width cmp ctx o) ∧
      Moved base nel width Set.univ s.mem s'.mem := by
  rcases Nat.eq_zero_or_pos width with rfl | hwidth
  · refine ⟨s, [], ?_, by simp, .refl _ _ _ _ _⟩
    rw [qsortR, heapsort, if_pos (.inr rfl)]
    rfl
  · let le : BitVec (8 * width) → BitVec (8 * width) → Prop := fun _ _ => True
    have : Std.Total le := ⟨fun _ _ => .inl trivial⟩
    have : IsTrans _ le := ⟨fun _ _ _ _ _ => trivial⟩
    have hsort := does_heapsort base cmp ctx le (Nat.lt_of_le_sub_one (by norm_num) hsize) hwidth s
    obtain ⟨_, s', log, hrun, ⟨hmoved, -⟩, hsafe⟩ := Prog.runs_iff.mp hsort
    exact ⟨s', log, hrun, hsafe, hmoved⟩

/-- With any comparator at all, `qsort_r` terminates with safe operations only,
and leaves a rearrangement of the array. -/
theorem qsortR_safe (base : Addr) (nel width : ℕ) (hsize : nel * width ≤ 2 ^ 63 - 1)
    (cmp : CmpFnR σ γ) (ctx : γ) (s : Store σ) :
    ∃ s' log, (qsortR base nel width cmp ctx).run exec s = some ((), s', log) ∧
      (∀ o ∈ log, Safe base nel width cmp ctx o) ∧
      (elements base nel width s'.mem).Perm (elements base nel width s.mem) ∧
      SameOutside base (nel * width) s.mem s'.mem := by
  obtain ⟨s', log, hrun, hsafe, hmoved⟩ := runs_qsortR base nel width hsize cmp ctx s
  exact ⟨s', log, hrun, hsafe, hmoved.entries.perm, hmoved.outside⟩

/-- Three different elements, and a comparator that puts every element below every
other, itself included. -/
theorem qsortR_safe_inconsistent :
    ∃ s' log, (qsortR 0x1000 3 8 (fun _ _ _ _ _ => (-1, ())) ()).run exec
        ⟨fun a => a.setWidth 8, ()⟩ = some ((), s', log) ∧
      (∀ o ∈ log, Safe 0x1000 3 8 (fun _ _ _ _ _ => (-1, ())) () o) ∧
      (elements 0x1000 3 8 s'.mem).Perm (elements 0x1000 3 8 fun a => a.setWidth 8) ∧
      SameOutside 0x1000 (3 * 8) (fun a => a.setWidth 8) s'.mem :=
  qsortR_safe 0x1000 3 8 (by norm_num) _ _ _

end Mytilus.Stdlib.Sort
