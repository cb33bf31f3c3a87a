import Mytilus.Base.Heap
import Mytilus.Stdlib.Sort

/-!
# What `swap_bytes` and `sift_down` do to the array

For every comparator, `sift_down` terminates within the checked arithmetic, calls
the comparator and `swap_bytes` on two different elements only, and rearranges
the elements of the subtree it starts from.  If the comparator's answers agree
with a total preorder of the contents (`Ranks`), the subtree ends up in heap order.

`does_siftDown` says it, by induction on what is left below the hole.  `Sifting` is
its invariant, in which the order is that of `Heap.Hole`; `does_compare`,
`does_exchange` and `does_rightLarger` are the pieces of a round, each safe, and
`Safe` what it means for an operation to be.
-/

namespace Mytilus.Stdlib.Sort

open Memory

variable {σ γ : Type}

/-! ## Swapping bytes -/

/-- The first `w` bytes at `a` and at `b` have changed places. -/
structure Swapped (a b : Addr) (w : ℕ) (m m' : Memory) : Prop where
  left : ∀ k < w, m' (ptrAdd a k) = m (ptrAdd b k)
  right : ∀ k < w, m' (ptrAdd b k) = m (ptrAdd a k)
  other : ∀ x, ¬ Within a w x → ¬ Within b w x → m' x = m x

theorem Swapped.zero (a b : Addr) (m : Memory) : Swapped a b 0 m m :=
  ⟨fun k hk => absurd hk (Nat.not_lt_zero k), fun k hk => absurd hk (Nat.not_lt_zero k),
    fun _ _ _ => rfl⟩

/-- One round of the loop swaps one byte more. -/
theorem Swapped.step {a b : Addr} {w i : ℕ} {m m' : Memory} (h : Swapped a b i m m') (hi : i < w)
    (hsep : Separate a w b w) (hw : w ≤ 2 ^ 64) :
    Swapped a b (i + 1) m
      ((m'.write (ptrAdd a i) (m' (ptrAdd b i))).write (ptrAdd b i) (m' (ptrAdd a i))) := by
  have hab : ∀ k l, k < w → l < w → ptrAdd a k ≠ ptrAdd b l := fun k l hk hl heq =>
    hsep _ (within_ptrAdd hk hw) (heq ▸ within_ptrAdd hl hw)
  have hfar : ∀ (p : Addr) k, k < w → ¬ Within p k (ptrAdd p k) := by
    intro p k hk hin
    rw [Within, offset_ptrAdd (by omega)] at hin
    omega
  have hpartA : ∀ x, Within a i x → Within a w x := fun x hx => lt_trans hx hi
  have hpartB : ∀ x, Within b i x → Within b w x := fun x hx => lt_trans hx hi
  have hleft : m' (ptrAdd a i) = m (ptrAdd a i) := h.other _ (hfar a i hi) fun hin =>
    hsep _ (within_ptrAdd hi hw) (hpartB _ hin)
  have hright : m' (ptrAdd b i) = m (ptrAdd b i) := h.other _ (fun hin =>
    hsep _ (hpartA _ hin) (within_ptrAdd hi hw)) (hfar b i hi)
  refine ⟨fun k hk => ?_, fun k hk => ?_, fun x hxa hxb => ?_⟩
  · rw [write_of_ne _ _ (hab k i (by omega) hi)]
    by_cases hki : k = i
    · rw [hki, write_self, hright]
    · have hne : ptrAdd a k ≠ ptrAdd a i := fun heq =>
        hki ((ptrAdd_inj (by omega) (by omega)).mp heq)
      rw [write_of_ne _ _ hne, h.left k (by omega)]
  · by_cases hki : k = i
    · rw [hki, write_self, hleft]
    · have hne : ptrAdd b k ≠ ptrAdd b i := fun heq =>
        hki ((ptrAdd_inj (by omega) (by omega)).mp heq)
      rw [write_of_ne _ _ hne, write_of_ne _ _ (hab i k hi (by omega)).symm, h.right k (by omega)]
  · have hxa' : x ≠ ptrAdd a i := fun heq => hxa (heq ▸ within_ptrAdd (Nat.lt_succ_self i) (by omega))
    have hxb' : x ≠ ptrAdd b i := fun heq => hxb (heq ▸ within_ptrAdd (Nat.lt_succ_self i) (by omega))
    rw [write_of_ne _ _ hxb', write_of_ne _ _ hxa']
    exact h.other x (fun hin => hxa (lt_trans hin (Nat.lt_succ_self i)))
      fun hin => hxb (lt_trans hin (Nat.lt_succ_self i))

theorem swapFrom_swapped {a b : Addr} {w r i : ℕ} {m m' : Memory} (h : Swapped a b i m m')
    (hir : i + r = w) (hsep : Separate a w b w) (hw : w ≤ 2 ^ 64) :
    Swapped a b w m (swapFrom a b r i m') := by
  induction r generalizing i m' with
  | zero =>
      obtain rfl : i = w := hir
      exact h
  | succ r ih => exact ih (h.step (by omega) hsep hw) (by omega)

/-! ## Elements -/

/-- The `k`'th element of the array, as one value of `width` bytes. -/
def elem (base : Addr) (width : ℕ) (m : Memory) (k : ℕ) : BitVec (8 * width) :=
  readLE m (ptrAdd base (k * width)) width

/-- The elements of the array in order. -/
def elements (base : Addr) (nel width : ℕ) (m : Memory) : List (BitVec (8 * width)) :=
  (List.range nel).map (elem base width m)

/-- The elements in `S` have been rearranged, and nothing outside the array differs. -/
structure Moved (base : Addr) (nel width : ℕ) (S : Set ℕ) (m m' : Memory) : Prop where
  entries : Rearranged S nel (elem base width m) (elem base width m')
  outside : SameOutside base (nel * width) m m'

section Elements

variable {base : Addr} {nel width : ℕ} {S T : Set ℕ} {m m' m'' : Memory}

theorem Moved.refl (base : Addr) (nel width : ℕ) (S : Set ℕ) (m : Memory) :
    Moved base nel width S m m :=
  ⟨.refl _ _ _, .refl _ _ _⟩

theorem Moved.trans (h : Moved base nel width S m m') (h' : Moved base nel width S m' m'') :
    Moved base nel width S m m'' :=
  ⟨h.entries.trans h'.entries, h.outside.trans h'.outside⟩

theorem Moved.mono (h : Moved base nel width S m m') (hST : ∀ k ∈ S, k ∈ T) :
    Moved base nel width T m m' :=
  ⟨h.entries.mono hST, h.outside⟩

theorem mul_add_le {i j : ℕ} (width : ℕ) (h : i < j) : i * width + width ≤ j * width := by
  rw [← Nat.succ_mul]
  exact Nat.mul_le_mul_right width h

theorem separate_elements (base : Addr) {i j : ℕ} (hsize : nel * width < 2 ^ 63) (hi : i < nel) (hj : j < nel)
    (hne : i ≠ j) :
    Separate (ptrAdd base (i * width)) width (ptrAdd base (j * width)) width := by
  have hi' := mul_add_le width hi
  have hj' := mul_add_le width hj
  rcases Nat.lt_or_gt_of_ne hne with hlt | hlt
  · have hle := mul_add_le width hlt
    exact separate_of_le hle (by omega)
  · have hle := mul_add_le width hlt
    exact (separate_of_le hle (by omega)).symm

/-- Swapping the bytes of two elements exchanges the elements. -/
theorem moved_swapBytes (base : Addr) {i j : ℕ} (hsize : nel * width < 2 ^ 63) (hi : i < nel) (hj : j < nel)
    (hne : i ≠ j) (m : Memory) :
    Exchanged nel i j (elem base width m)
        (elem base width (swapBytes (ptrAdd base (i * width)) (ptrAdd base (j * width)) width m)) ∧
      SameOutside base (nel * width) m
        (swapBytes (ptrAdd base (i * width)) (ptrAdd base (j * width)) width m) := by
  have hi' := mul_add_le width hi
  have hj' := mul_add_le width hj
  have hw : width ≤ 2 ^ 64 := by omega
  have hswapped := swapFrom_swapped (Swapped.zero _ _ m) (Nat.zero_add width)
    (separate_elements base hsize hi hj hne) hw
  constructor
  · refine ⟨readLE_congr hswapped.left, readLE_congr hswapped.right, fun k hk hki hkj => ?_⟩
    have hsepI := separate_elements base hsize hk hi hki
    have hsepJ := separate_elements base hsize hk hj hkj
    exact readLE_congr fun l hl => hswapped.other _ (hsepI _ (within_ptrAdd hl hw))
      (hsepJ _ (within_ptrAdd hl hw))
  · intro x hx
    exact hswapped.other x (fun hin => hx (hin.of_part (by omega) (by omega)))
      fun hin => hx (hin.of_part (by omega) (by omega))

end Elements

/-! ## Comparators and rules -/

/-- The answer is negative exactly when the first element is strictly below the
second, whatever the comparator's own state and wherever the elements now stand. -/
def Ranks (base : Addr) (nel width : ℕ) (m₀ : Memory) (le : BitVec (8 * width) → BitVec (8 * width) → Prop)
    (cmp : CmpFn σ) : Prop :=
  ∀ m own i j, SameOutside base (nel * width) m₀ m → i < nel → j < nel →
    ((cmp (ptrAdd base (i * width)) (ptrAdd base (j * width)) m own).1.toInt < 0 ↔
      ¬ le (elem base width m j) (elem base width m i))

/-- What the operations may be: arithmetic that fits, and calls on two different elements. -/
def Safe (base : Addr) (nel width : ℕ) (cmp : CmpFnR σ γ) (ctx : γ) : Op σ γ → Prop
  | .usize x => x < 2 ^ 64
  | .cmp f a b c => f = cmp ∧ c = ctx ∧ ∃ i < nel, ∃ j < nel, i ≠ j ∧
      a = ptrAdd base (i * width) ∧ b = ptrAdd base (j * width)
  | .swapBytes a b w => w = width ∧ Separate a w b w ∧ ∃ i < nel, ∃ j < nel, i ≠ j ∧
      a = ptrAdd base (i * width) ∧ b = ptrAdd base (j * width)

section Rules

variable {base : Addr} {nel width : ℕ} {cmp : CmpFnR σ γ} {ctx : γ}
  {le : BitVec (8 * width) → BitVec (8 * width) → Prop} {s : Store σ} {m m' : Memory}

theorem Ranks.of_sameOutside {f : CmpFn σ} (h : Ranks base nel width m le f)
    (hm : SameOutside base (nel * width) m m') : Ranks base nel width m' le f :=
  fun _ own i j hm' => h _ own i j (hm.trans hm')

theorem Ranks.le_of_neg [Std.Total le] {f : CmpFn σ} (h : Ranks base nel width m le f) {i j : ℕ}
    (hi : i < nel) (hj : j < nel) {own : σ}
    (hneg : (f (ptrAdd base (i * width)) (ptrAdd base (j * width)) m own).1.toInt < 0) :
    le (elem base width m i) (elem base width m j) :=
  (Std.Total.total _ _).resolve_right ((h m own i j (.refl _ _ _) hi hj).mp hneg)

theorem Ranks.le_of_nonneg {f : CmpFn σ} (h : Ranks base nel width m le f) {i j : ℕ}
    (hi : i < nel) (hj : j < nel) {own : σ}
    (hnonneg : 0 ≤ (f (ptrAdd base (i * width)) (ptrAdd base (j * width)) m own).1.toInt) :
    le (elem base width m j) (elem base width m i) := by
  by_contra hle
  exact absurd ((h m own i j (.refl _ _ _) hi hj).mpr hle) (not_lt.mpr hnonneg)

/-- The code runs to its end with safe operations only, and leaves `Q`. -/
abbrev Does (base : Addr) (nel width : ℕ) (cmp : CmpFnR σ γ) (ctx : γ) {α : Type}
    (Q : α → Store σ → Prop) (code : Code σ γ α) (s : Store σ) : Prop :=
  Prog.Runs exec (Safe base nel width cmp ctx) Q code s

theorem does_bind {α β : Type} {p : Code σ γ α} {f : α → Code σ γ β} {Q : β → Store σ → Prop} :
    Does base nel width cmp ctx Q (p >>= f) s ↔
      Does base nel width cmp ctx (fun a s' => Does base nel width cmp ctx Q (f a) s') p s :=
  Prog.runs_bind

theorem does_pure {α : Type} {a : α} {Q : α → Store σ → Prop} :
    Does base nel width cmp ctx Q (pure a) s ↔ Q a s :=
  Prog.runs_pure

theorem does_usize {x : ℕ} {Q : Unit → Store σ → Prop} (hx : x < 2 ^ 64) (hQ : Q () s) :
    Does base nel width cmp ctx Q (usize x) s :=
  Prog.runs_perform.mpr ⟨hx, (), s, if_pos hx, hQ⟩

theorem does_elt {i : ℕ} {Q : Addr → Store σ → Prop} (hi : i * width < 2 ^ 64)
    (hQ : Q (ptrAdd base (i * width)) s) : Does base nel width cmp ctx Q (elt base width i) s := by
  rw [elt, does_bind]
  exact does_usize hi (does_pure.mpr hQ)

theorem does_call {i j : ℕ} {Q : BitVec 32 → Store σ → Prop} (hi : i < nel) (hj : j < nel)
    (hne : i ≠ j)
    (hQ : Q (cmp (ptrAdd base (i * width)) (ptrAdd base (j * width)) ctx s.mem s.own).1
      { s with own := (cmp (ptrAdd base (i * width)) (ptrAdd base (j * width)) ctx s.mem s.own).2 }) :
    Does base nel width cmp ctx Q
      (call cmp (ptrAdd base (i * width)) (ptrAdd base (j * width)) ctx) s :=
  Prog.runs_perform.mpr ⟨⟨rfl, rfl, i, hi, j, hj, hne, rfl, rfl⟩, _, _, rfl, hQ⟩

theorem does_swap {a b : Addr} {i j : ℕ} {Q : Unit → Store σ → Prop} (hsize : nel * width < 2 ^ 63)
    (ha : a = ptrAdd base (i * width)) (hb : b = ptrAdd base (j * width)) (hi : i < nel)
    (hj : j < nel) (hne : i ≠ j) (hQ : Q () { s with mem := swapBytes a b width s.mem }) :
    Does base nel width cmp ctx Q (swap a b width) s := by
  have hsep : Separate a width b width := by
    rw [ha, hb]
    exact separate_elements base hsize hi hj hne
  exact Prog.runs_perform.mpr ⟨⟨rfl, hsep, i, hi, j, hj, hne, ha, hb⟩, _, _, rfl, hQ⟩

theorem mul_lt_of_lt {k : ℕ} (hsize : nel * width < 2 ^ 63) (hk : k < nel) :
    k * width < 2 ^ 64 :=
  lt_of_le_of_lt (Nat.mul_le_mul_right width hk.le) (by omega)

/-- Two elements are compared, and the code goes on with the answer. -/
theorem does_compare {α : Type} {f : BitVec 32 → Code σ γ α} {Q : α → Store σ → Prop} {i j : ℕ}
    (hsize : nel * width < 2 ^ 63) (hi : i < nel) (hj : j < nel) (hne : i ≠ j)
    (hnext : Does base nel width cmp ctx Q
      (f (cmp (ptrAdd base (i * width)) (ptrAdd base (j * width)) ctx s.mem s.own).1)
      { s with own := (cmp (ptrAdd base (i * width)) (ptrAdd base (j * width)) ctx s.mem s.own).2 }) :
    Does base nel width cmp ctx Q
      (do let a ← elt base width i
          let b ← elt base width j
          let r ← call cmp a b ctx
          f r) s := by
  rw [does_bind]
  apply does_elt (mul_lt_of_lt hsize hi)
  rw [does_bind]
  apply does_elt (mul_lt_of_lt hsize hj)
  rw [does_bind]
  exact does_call hi hj hne hnext

/-- Two elements are exchanged. -/
theorem does_exchange {α : Type} {f : Unit → Code σ γ α} {Q : α → Store σ → Prop} {i j : ℕ}
    (hsize : nel * width < 2 ^ 63) (hi : i < nel) (hj : j < nel) (hne : i ≠ j)
    (hnext : Does base nel width cmp ctx Q (f ())
      { s with mem := swapBytes (ptrAdd base (i * width)) (ptrAdd base (j * width)) width s.mem }) :
    Does base nel width cmp ctx Q
      (do let a ← elt base width i
          let b ← elt base width j
          let r ← swap a b width
          f r) s := by
  rw [does_bind]
  apply does_elt (mul_lt_of_lt hsize hi)
  rw [does_bind]
  apply does_elt (mul_lt_of_lt hsize hj)
  rw [does_bind]
  exact does_swap hsize rfl rfl hi hj hne hnext

end Rules

/-! ## Sifting -/

section Sift

variable {base : Addr} {nel width : ℕ} {cmp : CmpFnR σ γ} {ctx : γ}
  {le : BitVec (8 * width) → BitVec (8 * width) → Prop}
  {s : Store σ} {m₀ : Memory} {n i j : ℕ}

/-- The chosen child exists, and is a larger one if the comparator ranks. -/
theorem does_rightLarger (le : BitVec (8 * width) → BitVec (8 * width) → Prop) [Std.Total le]
    {Q : Bool → Store σ → Prop} {child : ℕ} (hsize : nel * width < 2 ^ 63)
    (hnel : nel < 2 ^ 63) (hn : n ≤ nel) (hchild : child < n)
    (hQ : ∀ right own, child + right.toNat < n →
      (Ranks base nel width s.mem le (fun a b => cmp a b ctx) →
        ∀ d, d = child ∨ d = child + 1 → d < n →
          le (elem base width s.mem d) (elem base width s.mem (child + right.toNat))) →
      Q right { s with own := own }) :
    Does base nel width cmp ctx Q (rightLarger base width cmp ctx n child) s := by
  rw [rightLarger, does_bind]
  apply does_usize (by omega)
  by_cases hright : child + 1 < n
  · rw [if_pos hright]
    apply does_compare hsize (by omega) (by omega) (by omega)
    rw [does_pure]
    by_cases hneg : (cmp (ptrAdd base (child * width)) (ptrAdd base ((child + 1) * width)) ctx
        s.mem s.own).1.toInt < 0
    · rw [decide_eq_true hneg]
      refine hQ true _ hright fun hranks d hd hdn => ?_
      have hle := hranks.le_of_neg (by omega) (by omega) hneg
      rcases hd with rfl | rfl
      · exact hle
      · exact Std.Refl.refl _
    · rw [decide_eq_false hneg]
      refine hQ false _ hchild fun hranks d hd hdn => ?_
      have hle := hranks.le_of_nonneg (by omega) (by omega) (not_lt.mp hneg)
      rcases hd with rfl | rfl
      · exact Std.Refl.refl _
      · exact hle
  · rw [if_neg hright, does_pure]
    refine hQ false s.own hchild fun _ d hd hdn => ?_
    obtain rfl : d = child := by omega
    exact Std.Refl.refl _

/-- What `sift_down` has achieved when its index is `j`, from the memory `m₀` and the index `i`. -/
structure Sifting (base : Addr) (nel width : ℕ) (le : BitVec (8 * width) → BitVec (8 * width) → Prop)
    (cmp : CmpFnR σ γ) (ctx : γ) (m₀ : Memory) (n i j : ℕ) (m : Memory) : Prop where
  below : Heap.Below i j
  moved : Moved base nel width {k | k < n ∧ Heap.Below i k} m₀ m
  hole : Ranks base nel width m₀ le (fun a b => cmp a b ctx) →
    Heap.OrderedBelow le (elem base width m₀) n i → Heap.Hole le (elem base width m) n i j

/-- What `sift_down` does: the subtree is rearranged, and in order if the comparator ranks. -/
structure Sifted (base : Addr) (nel width : ℕ) (le : BitVec (8 * width) → BitVec (8 * width) → Prop)
    (cmp : CmpFnR σ γ) (ctx : γ) (m₀ : Memory) (n i : ℕ) (m : Memory) : Prop where
  moved : Moved base nel width {k | k < n ∧ Heap.Below i k} m₀ m
  ordered : Ranks base nel width m₀ le (fun a b => cmp a b ctx) →
    Heap.OrderedBelow le (elem base width m₀) n i → Heap.Ordered le (elem base width m) n i

/-- One round of the loop moves the hole to the larger child. -/
theorem Sifting.step {m : Memory} {c : ℕ} (h : Sifting base nel width le cmp ctx m₀ n i j m)
    (hsize : nel * width < 2 ^ 63) (hn : n ≤ nel) (hj : j < n) (hc : Heap.Child j c) (hcn : c < n)
    (hle : Ranks base nel width m le (fun a b => cmp a b ctx) →
      (∀ d, Heap.Child j d → d < n → le (elem base width m d) (elem base width m c)) ∧
        le (elem base width m j) (elem base width m c)) :
    Sifting base nel width le cmp ctx m₀ n i c
      (swapBytes (ptrAdd base (j * width)) (ptrAdd base (c * width)) width m) := by
  have hlt := hc.lt
  obtain ⟨hex, hout⟩ := moved_swapBytes base (i := j) (j := c) hsize (by omega) (by omega) hlt.ne m
  refine ⟨.child h.below hc, h.moved.trans ⟨?_, hout⟩, fun hranks hord => ?_⟩
  · exact hex.rearranged ⟨hj, h.below⟩ (by omega) ⟨hcn, .child h.below hc⟩ (by omega)
  · obtain ⟨hmax, hup⟩ := hle (hranks.of_sameOutside h.moved.outside)
    have hex' : Exchanged n j c (elem base width m) _ :=
      ⟨hex.left, hex.right, fun k hk => hex.other k (by omega)⟩
    exact (h.hole hranks hord).step hex' hc hcn hmax hup

theorem does_siftDown [Std.Total le] [IsTrans _ le] (hsize : nel * width < 2 ^ 63) (hnel : nel < 2 ^ 63) (hn : n ≤ nel)
    (hj : j < n) (h : Sifting base nel width le cmp ctx m₀ n i j s.mem) :
    Does base nel width cmp ctx (fun _ s' => Sifted base nel width le cmp ctx m₀ n i s'.mem)
      (siftDown base width cmp ctx n j) s := by
  induction hrest : n - j using Nat.strong_induction_on generalizing j s with
  | _ rest ih =>
      rw [siftDown, does_bind]
      apply does_usize (by omega)
      -- at a leaf, or when no child is greater, the element has its place
      by_cases hleaf : n ≤ 2 * j + 1
      · rw [dif_pos hleaf, does_pure]
        refine ⟨h.moved, fun hranks hord => (h.hole hranks hord).ordered fun c hc hcn => ?_⟩
        unfold Heap.Child at hc
        omega
      · rw [dif_neg hleaf, does_bind]
        apply does_rightLarger le hsize hnel hn (by omega)
        intro right own hcn hlarger
        have hc : Heap.Child j (2 * j + 1 + right.toNat) := by
          cases right
          · exact .inl rfl
          · exact .inr rfl
        generalize 2 * j + 1 + right.toNat = c at hcn hc hlarger ⊢
        have hlt := hc.lt
        apply does_compare hsize (by omega) (by omega) hlt.ne
        by_cases hstop : 0 ≤ (cmp (ptrAdd base (j * width)) (ptrAdd base (c * width)) ctx
            s.mem own).1.toInt
        · rw [if_pos hstop, does_pure]
          refine ⟨h.moved, fun hranks hord => (h.hole hranks hord).ordered fun d hd hdn => ?_⟩
          have hranks' := hranks.of_sameOutside h.moved.outside
          have hle := hranks'.le_of_nonneg (by omega) (by omega) hstop
          exact IsTrans.trans _ _ _ (hlarger hranks' d hd hdn) hle
        · rw [if_neg hstop]
          apply does_exchange hsize (by omega) (by omega) hlt.ne
          refine ih (n - c) (by omega) hcn (h.step hsize hn hj hc hcn fun hranks => ?_) rfl
          exact ⟨hlarger hranks, hranks.le_of_neg (by omega) (by omega) (not_le.mp hstop)⟩

end Sift

end Mytilus.Stdlib.Sort
