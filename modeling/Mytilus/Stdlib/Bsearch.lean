import Mathlib.Data.Nat.Log
import Mytilus.Stdlib.Sort

/-!
# `bsearch`

A round compares the key with the element in the middle of what is left of the
array, and goes on with the elements on one side of it.  The search does not look
at memory itself, so the state of a comparator stands for all that it may change.

`Searches` says of a search what its rounds keep: the elements it compares with,
how many there are, and, when the comparator's answers fall from left to right,
what the pointer it returns is.  `Searches.round` adds a round in front, and
`searches_bsearch` is the induction on how many elements are left.

`bsearch_searches` is the result: with any comparator the search ends after at most
`⌊log₂ nel⌋ + 1` comparisons, all with elements of the array; and where the signs of
the answers fall from left to right it returns a match if there is one, and NULL if
there is none.
-/

namespace Mytilus.Stdlib.Sort

open Memory

variable {σ γ : Type}

/-- `cmp(a, b)` for a comparator that takes no context. -/
def callCmp (cmp : CmpFn σ) (a b : Addr) : Code σ Unit (BitVec 32) :=
  call (fun a b _ => cmp a b) a b ()

def bsearch (key base : Addr) (nel width : ℕ) (cmp : CmpFn σ) : Code σ Unit Addr :=
  if _h : nel = 0 then
    return 0
  else do
    usize (width * (nel / 2))
    let try_ := ptrAdd base (width * (nel / 2))
    let sign ← callCmp cmp key try_
    if sign.toInt < 0 then
      bsearch key base (nel / 2) width cmp
    else if 0 < sign.toInt then
      bsearch key (ptrAdd try_ width) (nel - (nel / 2 + 1)) width cmp
    else
      return try_
termination_by nel

theorem run_usize_bind {α : Type} {f : Unit → Code σ γ α} {x : ℕ} (hx : x < 2 ^ 64) (st : Store σ) :
    (usize x >>= f).run exec st =
      ((f ()).run exec st).map fun (a, st', log) => (a, st', .usize x :: log) := by
  change Prog.run exec (.op (.usize x) f) st = _
  rw [Prog.run, exec, if_pos hx]

theorem run_call_bind {α : Type} {f : BitVec 32 → Code σ γ α} {cmp : CmpFnR σ γ} {a b : Addr}
    {ctx : γ} (st : Store σ) :
    (call cmp a b ctx >>= f).run exec st =
      ((f (cmp a b ctx st.mem st.own).1).run exec
        { st with own := (cmp a b ctx st.mem st.own).2 }).map
          fun (c, st', log) => (c, st', .cmp cmp a b ctx :: log) := rfl

/-! ## Comparisons -/

/-- The pointers that an operation compares. -/
def Op.compared : Op σ Unit → Option (Addr × Addr)
  | .cmp _ a b _ => some (a, b)
  | _ => none

def comparisons (log : List (Op σ Unit)) : List (Addr × Addr) := log.filterMap Op.compared

/-- `s k` is the sign of `cmp(key, element k)`. -/
def Signs (cmp : CmpFn σ) (key base : Addr) (nel width : ℕ) (m : Memory) (s : ℕ → ℤ) : Prop :=
  ∀ k < nel, ∀ own, (cmp key (ptrAdd base (k * width)) m own).1.toInt.sign = s k

def Falling (nel : ℕ) (s : ℕ → ℤ) : Prop := ∀ i j, i ≤ j → j < nel → s j ≤ s i

/-- A search that performed `log` and returned `p`. -/
structure Searches (key base : Addr) (nel width : ℕ) (cmp : CmpFn σ) (m : Memory) (p : Addr)
    (log : List (Op σ Unit)) : Prop where
  within : ∀ q ∈ comparisons log, ∃ k < nel, q = (key, ptrAdd base (k * width))
  count : ∀ d, nel < 2 ^ d → (comparisons log).length ≤ d
  found : ∀ s, Signs cmp key base nel width m s → Falling nel s →
    (p = 0 ∧ ∀ k < nel, s k ≠ 0) ∨ ∃ k < nel, p = ptrAdd base (k * width) ∧ s k = 0

section Rounds

variable {key base : Addr} {nel width : ℕ} {cmp : CmpFn σ} {m : Memory} {own : σ}

theorem Searches.empty : Searches key base 0 width cmp m 0 [] where
  within := by simp [comparisons]
  count := by simp [comparisons]
  found := fun s _ _ => .inl ⟨rfl, fun k hk => absurd hk (Nat.not_lt_zero k)⟩

/-- What a round performs before the rest of the search. -/
def roundLog (key base : Addr) (nel width : ℕ) (cmp : CmpFn σ) : List (Op σ Unit) :=
  [.usize (width * (nel / 2)), .cmp (fun a b _ => cmp a b) key (ptrAdd base (width * (nel / 2))) ()]

theorem comparisons_roundLog (log : List (Op σ Unit)) :
    comparisons (roundLog key base nel width cmp ++ log) =
      (key, ptrAdd base (nel / 2 * width)) :: comparisons log := by
  rw [Nat.mul_comm]
  rfl

theorem half_lt {d : ℕ} (hnel : nel ≠ 0) (h : nel < 2 ^ d) : ∃ e, d = e + 1 ∧ nel / 2 < 2 ^ e := by
  cases d with
  | zero => exact absurd h (by omega)
  | succ e => exact ⟨e, rfl, by rw [pow_succ] at h; omega⟩

/-- A round that goes on with `rest` elements from element `first` on. -/
theorem Searches.round (first : ℕ) {rest : ℕ} {p : Addr} {log : List (Op σ Unit)} (hnel : nel ≠ 0)
    (h : Searches key (ptrAdd base (first * width)) rest width cmp m p log)
    (hfit : first + rest ≤ nel) (hhalf : rest ≤ nel / 2)
    (hothers : ∀ s, Signs cmp key base nel width m s → Falling nel s →
      ∀ k < nel, s k = 0 → first ≤ k ∧ k < first + rest) :
    Searches key base nel width cmp m p (roundLog key base nel width cmp ++ log) where
  within := by
    rw [comparisons_roundLog]
    refine List.forall_mem_cons.mpr ⟨⟨nel / 2, by omega, rfl⟩, fun q hq => ?_⟩
    obtain ⟨k, hk, rfl⟩ := h.within q hq
    exact ⟨first + k, by omega, by rw [ptrAdd_ptrAdd, Nat.add_mul]⟩
  count := by
    intro d hd
    obtain ⟨e, rfl, he⟩ := half_lt hnel hd
    rw [comparisons_roundLog, List.length_cons]
    exact Nat.succ_le_succ (h.count e (lt_of_le_of_lt hhalf he))
  found := by
    intro s hs hfall
    have hpart :
        Signs cmp key (ptrAdd base (first * width)) rest width m fun k => s (first + k) := by
      intro k hk own
      rw [ptrAdd_ptrAdd, ← Nat.add_mul]
      exact hs (first + k) (by omega) own
    rcases h.found _ hpart fun i j hij hj => hfall _ _ (by omega) (by omega) with
      ⟨hp, hnone⟩ | ⟨k, hk, hp, hzero⟩
    · refine .inl ⟨hp, fun k hk hzero => ?_⟩
      obtain ⟨hlo, hhi⟩ := hothers s hs hfall k hk hzero
      refine hnone (k - first) (by omega) ?_
      rwa [Nat.add_sub_cancel' hlo]
    · refine .inr ⟨first + k, by omega, ?_, hzero⟩
      rw [hp, ptrAdd_ptrAdd, Nat.add_mul]

/-- A round that returns. -/
theorem Searches.hit (hnel : nel ≠ 0)
    (hsign : (cmp key (ptrAdd base (nel / 2 * width)) m own).1.toInt = 0) :
    Searches key base nel width cmp m (ptrAdd base (nel / 2 * width))
      (roundLog key base nel width cmp ++ []) where
  within := by
    rw [comparisons_roundLog]
    exact List.forall_mem_cons.mpr ⟨⟨nel / 2, by omega, rfl⟩, by simp [comparisons]⟩
  count := by
    intro d hd
    obtain ⟨e, rfl, -⟩ := half_lt hnel hd
    rw [comparisons_roundLog]
    exact Nat.succ_le_succ (Nat.zero_le e)
  found := by
    intro s hs _
    refine .inr ⟨nel / 2, by omega, rfl, ?_⟩
    rw [← hs (nel / 2) (by omega) own, hsign, Int.sign_zero]

theorem run_bsearch_zero (st : Store σ) :
    (bsearch key base 0 width cmp).run exec st = some (0, st, []) := by
  rw [bsearch, dif_pos rfl]
  rfl

variable (key base width cmp) in
/-- What a round does, and where it goes on. -/
theorem run_bsearch (hnel : nel ≠ 0) (hfit : nel / 2 * width < 2 ^ 64) (st : Store σ) :
    (bsearch key base nel width cmp).run exec st =
      let reply := cmp key (ptrAdd base (nel / 2 * width)) st.mem st.own
      (Prog.run exec (if reply.1.toInt < 0 then bsearch key base (nel / 2) width cmp
        else if 0 < reply.1.toInt then bsearch key (ptrAdd base ((nel / 2 + 1) * width))
          (nel - (nel / 2 + 1)) width cmp
        else pure (ptrAdd base (nel / 2 * width))) { st with own := reply.2 }).map
          fun (p, st', log) => (p, st', roundLog key base nel width cmp ++ log) := by
  rw [Nat.mul_comm] at hfit
  rw [bsearch, dif_neg hnel, run_usize_bind hfit]
  simp only [callCmp, run_call_bind, Option.map_map]
  rw [Nat.add_one_mul, Nat.mul_comm (nel / 2), ← ptrAdd_ptrAdd]
  rfl

end Rounds

/-- Every search ends, and is as `Searches` says. -/
theorem searches_bsearch (key base : Addr) (nel width : ℕ) (cmp : CmpFn σ) (st : Store σ)
    (hsize : nel * width ≤ 2 ^ 63 - 1) :
    ∃ p own log,
      (bsearch key base nel width cmp).run exec st = some (p, { st with own := own }, log) ∧
      Searches key base nel width cmp st.mem p log := by
  -- on the number of elements that are left
  induction nel using Nat.strong_induction_on generalizing base st with
  | _ nel ih =>
  by_cases hnel : nel = 0
  · subst hnel
    exact ⟨0, st.own, [], run_bsearch_zero st, .empty⟩
  have hhalf : nel / 2 * width ≤ nel * width := Nat.mul_le_mul_right width (Nat.div_le_self nel 2)
  have hrest : (nel - (nel / 2 + 1)) * width ≤ nel * width :=
    Nat.mul_le_mul_right width (Nat.sub_le nel _)
  have hrun := run_bsearch key base width cmp hnel (by omega) st
  set reply := cmp key (ptrAdd base (nel / 2 * width)) st.mem st.own with hreply
  have hmiddle : ∀ s, Signs cmp key base nel width st.mem s → s (nel / 2) = reply.1.toInt.sign :=
    fun s hs => (hs (nel / 2) (by omega) st.own).symm
  rcases lt_trichotomy reply.1.toInt 0 with hneg | hzero | hpos
  · obtain ⟨p, own, log, hrest, hsearch⟩ := ih (nel / 2) (by omega) base { st with own := reply.2 }
      (by omega)
    refine ⟨p, own, roundLog key base nel width cmp ++ log, ?_, ?_⟩
    · simp only [hrun, if_pos hneg, hrest, Option.map_some]
    · refine Searches.round 0 hnel (by rwa [Nat.zero_mul, ptrAdd_zero]) (by omega) le_rfl ?_
      intro s hs hfall k hk hkzero
      -- a match on the right would stand under a negative answer
      refine ⟨Nat.zero_le k, not_le.mp fun hle => ?_⟩
      have hle' := hfall (nel / 2) k (by omega) hk
      rw [hmiddle s hs, Int.sign_eq_neg_one_of_neg hneg] at hle'
      omega
  · refine ⟨ptrAdd base (nel / 2 * width), reply.2, roundLog key base nel width cmp ++ [], ?_,
      .hit hnel hzero⟩
    simp only [hrun, hzero, lt_irrefl, if_false, Prog.run_pure, Option.map_some]
  · obtain ⟨p, own, log, hrest, hsearch⟩ := ih (nel - (nel / 2 + 1)) (by omega)
      (ptrAdd base ((nel / 2 + 1) * width)) { st with own := reply.2 } (by omega)
    refine ⟨p, own, roundLog key base nel width cmp ++ log, ?_, ?_⟩
    · simp only [hrun, if_neg hpos.not_gt, if_pos hpos, hrest, Option.map_some]
    · -- a match on the left, or the middle itself, would stand over a positive answer
      refine Searches.round (nel / 2 + 1) hnel hsearch (by omega) (by omega) ?_
      intro s hs hfall k hk hkzero
      refine ⟨not_lt.mp fun hlt => ?_, by omega⟩
      have hle' := hfall k (nel / 2) (by omega) (by omega)
      rw [hmiddle s hs, Int.sign_eq_one_of_pos hpos] at hle'
      omega

/-- **Binary search.**  With at most `log2 nel + 1` comparisons, all of the key
with an element, the search ends.  If the answers fall from left to right, it
returns a match where there is one, and null only where there is none (no element
of an array is at the null address). -/
theorem bsearch_searches (key base : Addr) (nel width : ℕ) (cmp : CmpFn σ) (m : Memory) (own : σ)
    (hsize : nel * width ≤ 2 ^ 63 - 1) :
    ∃ p own' log, (bsearch key base nel width cmp).run exec ⟨m, own⟩ = some (p, ⟨m, own'⟩, log) ∧
      (nel = 0 → comparisons log = []) ∧ (comparisons log).length ≤ Nat.log 2 nel + 1 ∧
      (∀ q ∈ comparisons log, ∃ k < nel, q = (key, ptrAdd base (k * width))) ∧
      ∀ s, Signs cmp key base nel width m s → Falling nel s →
        ((∃ k < nel, s k = 0) → ∃ k < nel, p = ptrAdd base (k * width) ∧ s k = 0) ∧
          ((¬ ∃ k < nel, s k = 0) → p = 0) ∧
          ((∀ k < nel, ptrAdd base (k * width) ≠ 0) → p = 0 → ¬ ∃ k < nel, s k = 0) := by
  obtain ⟨p, own', log, hrun, hsearch⟩ := searches_bsearch key base nel width cmp ⟨m, own⟩ hsize
  refine ⟨p, own', log, hrun, ?_, hsearch.count _ (Nat.lt_pow_succ_log_self one_lt_two nel),
    hsearch.within, fun s hs hfall => ?_⟩
  · rintro rfl
    exact List.length_eq_zero_iff.mp (Nat.le_zero.mp (hsearch.count 0 (by norm_num)))
  · rcases hsearch.found s hs hfall with ⟨hp, hnone⟩ | ⟨k, hk, hp, hzero⟩
    · have hno : ¬ ∃ k < nel, s k = 0 := fun ⟨k, hk, hzero⟩ => hnone k hk hzero
      exact ⟨fun h => absurd h hno, fun _ => hp, fun _ _ => hno⟩
    · refine ⟨fun _ => ⟨k, hk, hp, hzero⟩, fun hno => absurd ⟨k, hk, hzero⟩ hno, ?_⟩
      intro hnull hp0
      exact absurd (hp ▸ hp0) (hnull k hk)

/-- Seven bytes, and a key that is equal to the sixth. -/
theorem bsearch_searches_seven :
    ∃ p log, (bsearch 0 0x1000 7 1 fun _ b _ own => (5 - (b - 0x1000).setWidth 32, own)).run exec
        ⟨fun _ => 0, ()⟩ = some (p, ⟨fun _ => 0, ()⟩, log) ∧ (comparisons log).length ≤ 3 ∧
      ∃ k < 7, p = ptrAdd 0x1000 (k * 1) ∧ (5 - (k : ℤ)).sign = 0 := by
  obtain ⟨p, own, log, hrun, -, hcount, -, hfound⟩ := bsearch_searches 0 0x1000 7 1
    (fun _ b _ own => (5 - (b - 0x1000).setWidth 32, own)) (fun _ => 0) () (by norm_num)
  obtain ⟨hmatch, -⟩ := hfound (fun k => (5 - (k : ℤ)).sign)
    (fun k hk own => by interval_cases k <;> rfl)
    (fun i j hij hj => by interval_cases j <;> interval_cases i <;> decide)
  exact ⟨p, log, hrun, hcount, hmatch ⟨5, by norm_num, rfl⟩⟩

end Mytilus.Stdlib.Sort
