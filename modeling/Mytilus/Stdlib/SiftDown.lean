import Mytilus.Stdlib.Qsort

/-!
# `sift_down` restores a subtree

One call, from a subtree of which only the root's own pairs may be out of order:
the subtree is in order, its elements are a permutation of what they were, its
root is a maximum, and no other element has moved.
-/

namespace Mytilus.Stdlib.Sort

open Memory Heap

variable {σ γ : Type}

/-- What `sift_down` leaves of the first `n` elements, from the index `i`. -/
structure Restored (base : Addr) (nel width : ℕ)
    (le : BitVec (8 * width) → BitVec (8 * width) → Prop) (n i : ℕ) (m m' : Memory) : Prop where
  ordered : Ordered le (elem base width m') n i
  perm : ((subtree n i).map (elem base width m')).Perm ((subtree n i).map (elem base width m))
  other : ∀ k < nel, k ∉ subtree n i → elem base width m' k = elem base width m k
  outside : SameOutside base (nel * width) m m'
  maximum : ∀ k ∈ subtree n i, le (elem base width m' k) (elem base width m' i)

section Result

variable {base : Addr} {nel width n i : ℕ} {cmp : CmpFnR σ γ} {ctx : γ}
  {le : BitVec (8 * width) → BitVec (8 * width) → Prop} {m m' : Memory}

theorem Sifted.restored [Std.Total le] [IsTrans _ le]
    (h : Sifted base nel width le cmp ctx m n i m') (hn : n ≤ nel)
    (hranks : Ranks base nel width m le fun a b => cmp a b ctx)
    (hord : OrderedBelow le (elem base width m) n i) : Restored base nel width le n i m m' := by
  have hordered := h.ordered hranks hord
  refine ⟨hordered, ?_, fun k hk hnot => ?_, h.moved.outside, fun k hk => ?_⟩
  · refine h.moved.entries.perm_of_mem (List.nodup_range.filter _) (fun k hk => ?_) fun k hk _ => ?_
    · exact (mem_subtree.mp hk).1.trans_le hn
    · exact mem_subtree.mpr hk
  · exact h.moved.entries.eq_of_notMem hk fun hin => hnot (mem_subtree.mpr hin)
  · obtain ⟨hkn, hbelow⟩ := mem_subtree.mp hk
    exact hordered.root_max hbelow hkn

end Result

/-- **`sift_down` restores the subtree of `i`**, among the first `n` elements of an
array of `nel`.  An array is at most `2 ^ 63 - 1` bytes long; the bound on `nel`
itself only speaks of elements of no bytes. -/
theorem siftDown_restores (base : Addr) (nel width n i : ℕ)
    (le : BitVec (8 * width) → BitVec (8 * width) → Prop) [Std.Total le] [IsTrans _ le]
    (hsize : nel * width < 2 ^ 63) (hnel : nel < 2 ^ 63) (hn : n ≤ nel) (hi : i < n)
    (cmp : CmpFnR σ γ) (ctx : γ) (s : Store σ)
    (hranks : Ranks base nel width s.mem le fun a b => cmp a b ctx)
    (hord : OrderedBelow le (elem base width s.mem) n i) :
    ∃ s' log, (siftDown base width cmp ctx n i).run exec s = some ((), s', log) ∧
      Restored base nel width le n i s.mem s'.mem := by
  have hstart : Sifting base nel width le cmp ctx s.mem n i i s.mem := sifting_start ..
  have hsift := does_siftDown hsize hnel hn hi hstart
  obtain ⟨_, s', log, hrun, hsifted, -⟩ := Prog.runs_iff.mp hsift
  exact ⟨s', log, hrun, hsifted.restored hn hranks hord⟩

/-- Six bytes, of which the first of five is out of order. -/
theorem siftDown_restores_five :
    ∃ s' log, (siftDown 0x1000 1 (fun a b _ => compareBytes a b) () 5 0).run exec
        ⟨fun a => -a.setWidth 8, ()⟩ = some ((), s', log) ∧
      Restored 0x1000 6 1 (fun x y => x.toNat ≤ y.toNat) 5 0 (fun a => -a.setWidth 8) s'.mem := by
  have : Std.Total fun x y : BitVec (8 * 1) => x.toNat ≤ y.toNat := ⟨fun x y => Nat.le_total _ _⟩
  have : IsTrans (BitVec (8 * 1)) fun x y => x.toNat ≤ y.toNat := ⟨fun _ _ _ => Nat.le_trans⟩
  refine siftDown_restores 0x1000 6 1 5 0 _ (by norm_num) (by norm_num) (by norm_num) (by norm_num)
    _ () ⟨_, ()⟩ (ranks_compareBytes 0x1000 6 _) ?_
  intro p c _ hne hpc hc
  unfold Child at hpc
  obtain ⟨rfl, rfl | rfl⟩ : p = 1 ∧ (c = 3 ∨ c = 4) := by omega
  · decide
  · decide

end Mytilus.Stdlib.Sort
