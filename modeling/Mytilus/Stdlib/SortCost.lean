import Mytilus.Base.HeapLevels
import Mytilus.Base.ProgCost
import Mytilus.Stdlib.Qsort

/-!
# `qsort` takes `n log n` comparisons

One level of `sift_down` compares at most twice and swaps at most once, whatever
the comparator answers.  Building the heap therefore compares at most `2 n` times,
and each element moved behind the heap takes at most `2 log n` comparisons more.
-/

namespace Mytilus.Stdlib.Sort

open Memory Heap

variable {σ γ : Type}

/-- A comparator call weighs at most `a`, a swap at most `b`, and arithmetic nothing. -/
structure Weighs (w : Op σ γ → ℕ) (a b : ℕ) : Prop where
  usize : ∀ x, w (.usize x) = 0
  cmp : ∀ f p q ctx, w (.cmp f p q ctx) ≤ a
  swap : ∀ p q width, w (.swapBytes p q width) ≤ b

def isCall : Op σ γ → ℕ
  | .cmp .. => 1
  | _ => 0

def isSwap : Op σ γ → ℕ
  | .swapBytes .. => 1
  | _ => 0

theorem weighs_isCall : Weighs (isCall : Op σ γ → ℕ) 1 0 := by
  constructor <;> intros <;> simp [isCall]

theorem weighs_isSwap : Weighs (isSwap : Op σ γ → ℕ) 0 1 := by
  constructor <;> intros <;> simp [isSwap]

section Weighs

variable {w : Op σ γ → ℕ} {a b : ℕ} (hw : Weighs w a b) (base : Addr) (width : ℕ)
  (cmp : CmpFnR σ γ) (ctx : γ)
include hw

theorem costs_usize (x : ℕ) : Prog.Costs w (usize x : Code σ γ Unit) 0 :=
  Prog.costs_perform (hw.usize x).le

theorem costs_elt (i : ℕ) : Prog.Costs w (elt base width i : Code σ γ Addr) 0 :=
  (costs_usize hw _).bind fun _ => Prog.costs_pure _ 0

theorem costs_call (p q : Addr) : Prog.Costs w (call cmp p q ctx) a :=
  Prog.costs_perform (hw.cmp cmp p q ctx)

theorem costs_swap (p q : Addr) : Prog.Costs w (swap p q width : Code σ γ Unit) b :=
  Prog.costs_perform (hw.swap p q width)

theorem costs_rightLarger (n child : ℕ) :
    Prog.Costs w (rightLarger base width cmp ctx n child) a := by
  rw [rightLarger]
  refine (costs_usize hw _).bind_zero fun _ => ?_
  split_ifs
  · refine (costs_elt hw base width _).bind_zero fun p => ?_
    refine (costs_elt hw base width _).bind_zero fun q => ?_
    exact (costs_call hw cmp ctx p q).bind (l := 0) fun _ => Prog.costs_pure _ 0
  · exact Prog.costs_pure _ a

/-- Each level compares the children, then one of them with the element, and swaps. -/
theorem costs_siftDown (n i : ℕ) :
    Prog.Costs w (siftDown base width cmp ctx n i) ((2 * a + b) * levels n i) := by
  induction hrest : n - i using Nat.strong_induction_on generalizing i with
  | _ rest ih =>
      rw [siftDown]
      refine (costs_usize hw _).bind_zero fun _ => ?_
      split_ifs with hleaf
      · exact Prog.costs_pure _ _
      · -- two comparisons and a swap, and one level fewer below
        have hlevels : ∀ right : Bool,
            a + (a + (b + (2 * a + b) * levels n (2 * i + 1 + right.toNat))) ≤
              (2 * a + b) * levels n i := by
          intro right
          have hchild : Child i (2 * i + 1 + right.toNat) := by
            cases right <;> simp [Child]
          calc a + (a + (b + (2 * a + b) * levels n (2 * i + 1 + right.toNat)))
              = (2 * a + b) * (levels n (2 * i + 1 + right.toNat) + 1) := by ring
            _ ≤ (2 * a + b) * levels n i :=
                Nat.mul_le_mul_left _ (levels_child hchild (not_le.mp hleaf))
        obtain ⟨l, hl⟩ := Nat.exists_eq_add_of_le ((Nat.le_add_right _ _).trans (hlevels false))
        rw [hl]
        refine (costs_rightLarger hw base width cmp ctx n _).bind fun right => ?_
        have hright := hlevels right
        rw [hl, Nat.add_le_add_iff_left] at hright
        refine Prog.Costs.mono ?_ hright
        refine (costs_elt hw base width _).bind_zero fun p => ?_
        refine (costs_elt hw base width _).bind_zero fun q => ?_
        refine (costs_call hw cmp ctx p q).bind fun r => ?_
        split_ifs
        · exact Prog.costs_pure _ _
        · refine (costs_elt hw base width _).bind_zero fun p => ?_
          refine (costs_elt hw base width _).bind_zero fun q => ?_
          refine (costs_swap hw width p q).bind fun _ => ?_
          refine ih (n - (2 * i + 1 + right.toNat)) ?_ _ rfl
          omega

theorem costs_buildHeap (n i : ℕ) :
    Prog.Costs w (buildHeap base width cmp ctx n i)
      ((2 * a + b) * ∑ j ∈ Finset.range i, levels n j) := by
  induction i with
  | zero => exact Prog.costs_pure _ _
  | succ i ih =>
      have hsplit : (2 * a + b) * levels n i + (2 * a + b) * ∑ j ∈ Finset.range i, levels n j =
          (2 * a + b) * ∑ j ∈ Finset.range (i + 1), levels n j := by
        rw [Finset.sum_range_succ, Nat.mul_add, Nat.add_comm]
      rw [← hsplit]
      exact (costs_siftDown hw base width cmp ctx n i).bind fun _ => ih

/-- Each round swaps an element behind the heap and restores the heap. -/
theorem costs_extract (n : ℕ) :
    Prog.Costs w (extract base width cmp ctx n) (n * (b + (2 * a + b) * Nat.log 2 n)) := by
  induction n with
  | zero => exact Prog.costs_pure _ _
  | succ n ih =>
      cases n with
      | zero => exact Prog.costs_pure _ _
      | succ n =>
          have hlog : Nat.log 2 (n + 1) ≤ Nat.log 2 (n + 2) := Nat.log_mono_right (Nat.le_succ _)
          have hround : b + ((2 * a + b) * Nat.log 2 (n + 1) +
              (n + 1) * (b + (2 * a + b) * Nat.log 2 (n + 1))) ≤
                (n + 2) * (b + (2 * a + b) * Nat.log 2 (n + 2)) := by
            calc b + ((2 * a + b) * Nat.log 2 (n + 1) +
                  (n + 1) * (b + (2 * a + b) * Nat.log 2 (n + 1)))
                = (n + 2) * (b + (2 * a + b) * Nat.log 2 (n + 1)) := by ring
              _ ≤ (n + 2) * (b + (2 * a + b) * Nat.log 2 (n + 2)) := by gcongr
          have hsift := costs_siftDown hw base width cmp ctx (n + 1) 0
          rw [levels_zero] at hsift
          refine Prog.Costs.mono ?_ hround
          rw [extract]
          refine (costs_elt hw base width _).bind_zero fun q => ?_
          refine (costs_swap hw width base q).bind fun _ => ?_
          exact hsift.bind fun _ => ih

theorem costs_heapsort (n : ℕ) :
    Prog.Costs w (heapsort base width cmp ctx n)
      ((2 * a + b) * n + n * (b + (2 * a + b) * Nat.log 2 n)) := by
  rw [heapsort]
  split_ifs
  · exact Prog.costs_pure _ _
  · have hbuild : Prog.Costs w (buildHeap base width cmp ctx n (n / 2)) ((2 * a + b) * n) :=
      (costs_buildHeap hw base width cmp ctx n (n / 2)).mono
        (Nat.mul_le_mul_left _ (sum_levels_le n (n / 2)))
    exact hbuild.bind fun _ => costs_extract hw base width cmp ctx n

end Weighs

/-- **`n log n` in the worst case.**  With any comparator at all, `qsort_r` and
`qsort` call it at most `2 n (log₂ n + 1)` times, and swap at most
`n (log₂ n + 2)` times. -/
theorem qsort_cost (base : Addr) (nel width : ℕ) (hsize : nel * width ≤ 2 ^ 63 - 1) (s : Store σ) :
    (∀ (cmp : CmpFnR σ γ) (ctx : γ), ∃ s' log,
      (qsortR base nel width cmp ctx).run exec s = some ((), s', log) ∧
        Prog.total isCall log ≤ 2 * nel * (Nat.log 2 nel + 1) ∧
        Prog.total isSwap log ≤ nel * (Nat.log 2 nel + 2)) ∧
    ∀ cmp : CmpFn σ, ∃ s' log, (qsort base nel width cmp).run exec s = some ((), s', log) ∧
      Prog.total isCall log ≤ 2 * nel * (Nat.log 2 nel + 1) ∧
      Prog.total isSwap log ≤ nel * (Nat.log 2 nel + 2) := by
  have hcost : ∀ {δ : Type} (cmp : CmpFnR σ δ) (ctx : δ), ∃ s' log,
      (qsortR base nel width cmp ctx).run exec s = some ((), s', log) ∧
        Prog.total isCall log ≤ 2 * nel * (Nat.log 2 nel + 1) ∧
        Prog.total isSwap log ≤ nel * (Nat.log 2 nel + 2) := by
    intro δ cmp ctx
    obtain ⟨s', log, hrun, -⟩ := runs_qsortR base nel width hsize cmp ctx s
    have hcalls := (costs_heapsort weighs_isCall base width cmp ctx nel).total_le hrun
    have hswaps := (costs_heapsort weighs_isSwap base width cmp ctx nel).total_le hrun
    exact ⟨s', log, hrun, hcalls.trans (by linarith), hswaps.trans (by linarith)⟩
  exact ⟨fun cmp ctx => hcost cmp ctx, fun cmp => hcost qsort2to3Adapter cmp⟩

/-- Sixteen bytes, with a comparator that always asks for a swap. -/
theorem qsort_cost_sixteen :
    ∃ s' log, (qsort 0x1000 16 1 fun _ _ _ _ => (-1, ())).run exec ⟨fun _ => 0, ()⟩ =
        some ((), s', log) ∧
      Prog.total isCall log ≤ 2 * 16 * (Nat.log 2 16 + 1) ∧
      Prog.total isSwap log ≤ 16 * (Nat.log 2 16 + 2) :=
  (qsort_cost (γ := Unit) 0x1000 16 1 (by norm_num) _).2 _

end Mytilus.Stdlib.Sort
