import Mytilus.Base.Rearrange

/-!
# Binary heaps in an indexed family

The children of index `p` are `2 * p + 1` and `2 * p + 2`, and `Below i k` says
that `k` is in the subtree of `i`.  An array is any family `a : ℕ → α`, of which
the first `n` entries form the heap, and the order is any total preorder `r`.

Sifting moves a hole down from the root of a subtree whose other pairs are in
order.  `Hole` is what it keeps: pairs away from the hole are in order, and the
hole's parent is above the hole's children.  `Hole.step` moves the hole to the
greater child, and `Hole.ordered` fills it where it may stay.

A heap is built from the last inner node down (`OrderedFrom.step`, from
`orderedFrom_half` on), and taken apart from its root: `Sorting` says that the
entries from `n` on are in order and no less than those of the heap, and
`Sorting.step` puts one more in place.
-/

namespace Heap

/-! ## The tree of indices -/

def Child (p c : ℕ) : Prop := c = 2 * p + 1 ∨ c = 2 * p + 2

inductive Below (i : ℕ) : ℕ → Prop
  | root : Below i i
  | child {p c : ℕ} (hp : Below i p) (hc : Child p c) : Below i c

variable {i p c n : ℕ}

theorem Child.lt (h : Child p c) : p < c := by
  unfold Child at h
  omega

theorem Child.parent_unique {q : ℕ} (h : Child p c) (h' : Child q c) : p = q := by
  unfold Child at h h'
  omega

theorem exists_child (hc : 0 < c) : ∃ p, Child p c := by
  unfold Child
  exact ⟨(c - 1) / 2, by omega⟩

theorem Below.le (h : Below i c) : i ≤ c := by
  induction h with
  | root => exact le_rfl
  | child _ hc ih => exact ih.trans hc.lt.le

/-- A child in the subtree, other than its root, has its parent in the subtree. -/
theorem Below.parent (h : Below i c) (hc : Child p c) (hne : c ≠ i) : Below i p := by
  cases h with
  | root => exact absurd rfl hne
  | child hq hc' => rwa [hc.parent_unique hc']

theorem below_zero (k : ℕ) : Below 0 k := by
  induction k using Nat.strong_induction_on with
  | _ k ih =>
      rcases Nat.eq_zero_or_pos k with rfl | hpos
      · exact .root
      · obtain ⟨p, hp⟩ := exists_child hpos
        exact .child (ih p hp.lt) hp

/-- The parent of `c + 1` is `c / 2`. -/
theorem below_succ : Below i (c + 1) ↔ c + 1 = i ∨ Below i (c / 2) := by
  have hparent : Child (c / 2) (c + 1) := by
    unfold Child
    omega
  constructor
  · intro h
    by_cases heq : c + 1 = i
    · exact .inl heq
    · exact .inr (h.parent hparent heq)
  · rintro (rfl | h)
    · exact .root
    · exact .child h hparent

def decideBelow (i : ℕ) : (k : ℕ) → Decidable (Below i k)
  | 0 => decidable_of_iff (i = 0)
      ⟨fun h => h ▸ .root, fun h => Nat.le_zero.mp h.le⟩
  | k + 1 =>
      have : Decidable (Below i (k / 2)) := decideBelow i (k / 2)
      decidable_of_iff _ below_succ.symm

instance (i k : ℕ) : Decidable (Below i k) := decideBelow i k

/-- The indices below `n` in the subtree of `i`. -/
def subtree (n i : ℕ) : List ℕ := (List.range n).filter (Below i ·)

theorem mem_subtree {k : ℕ} : k ∈ subtree n i ↔ k < n ∧ Below i k := by
  simp [subtree]

/-! ## Heap order -/

section Order

variable {α : Type*} (r : α → α → Prop) (a : ℕ → α) (n i : ℕ)

/-- The pairs of the subtree of `i` are in order. -/
def Ordered : Prop := ∀ p c, Below i p → Child p c → c < n → r (a c) (a p)

/-- The pairs of the subtree of `i` are in order, except for those of `i` itself. -/
def OrderedBelow : Prop := ∀ p c, Below i p → p ≠ i → Child p c → c < n → r (a c) (a p)

/-- The pairs whose parent is at `i` or after it are in order. -/
def OrderedFrom : Prop := ∀ p c, i ≤ p → Child p c → c < n → r (a c) (a p)

/-- The pairs of the subtree of `i` are in order around the hole `j`. -/
structure Hole (j : ℕ) : Prop where
  below : Below i j
  pairs : ∀ p c, Below i p → p ≠ j → Child p c → c < n → r (a c) (a p)
  above : ∀ p c, Below i p → Child p j → Child j c → c < n → r (a c) (a p)

end Order

section Sifting

variable {α : Type*} {r : α → α → Prop} {a a' : ℕ → α} {j : ℕ}

theorem OrderedBelow.hole (h : OrderedBelow r a n i) : Hole r a n i i where
  below := .root
  pairs := h
  above := by
    intro p c hp hpi
    exact absurd hpi.lt (not_lt.mpr hp.le)

/-- Sifting ends where the hole's children are in order with it. -/
theorem Hole.ordered (h : Hole r a n i j) (hj : ∀ c, Child j c → c < n → r (a c) (a j)) :
    Ordered r a n i := by
  intro p c hp hpc hc
  by_cases hpj : p = j
  · subst hpj
    exact hj c hpc hc
  · exact h.pairs p c hp hpj hpc hc

/-- The hole moves down to its larger child `c`. -/
theorem Hole.step (h : Hole r a n i j) (hex : Exchanged n j c a a') (hc : Child j c) (hcn : c < n)
    (hmax : ∀ d, Child j d → d < n → r (a d) (a c)) (hle : r (a j) (a c)) :
    Hole r a' n i c where
  below := .child h.below hc
  pairs := by
    intro p d hp hpc hpd hd
    have hjc := hc.lt
    have hpd' := hpd.lt
    by_cases hpj : p = j
    · subst hpj
      rw [hex.left]
      by_cases hdc : d = c
      · subst hdc
        rw [hex.right]
        exact hle
      · rw [hex.other d hd (by omega) hdc]
        exact hmax d hpd hd
    · rw [hex.other p (by omega) hpj hpc]
      by_cases hdj : d = j
      · subst hdj
        rw [hex.left]
        exact h.above p c hp hpd hc hcn
      · have hdc : d ≠ c := fun heq => hpj (hpd.parent_unique (heq ▸ hc))
        rw [hex.other d hd hdj hdc]
        exact h.pairs p d hp hpj hpd hd
  above := by
    intro p d _ hpc hcd hd
    have hjc := hc.lt
    have hcd' := hcd.lt
    obtain rfl : p = j := hpc.parent_unique hc
    rw [hex.left, hex.other d hd (by omega) (by omega)]
    exact h.pairs c d (.child h.below hc) (by omega) hcd hd

end Sifting

/-! ## From subtrees to the whole heap -/

section Whole

variable {α : Type*} {r : α → α → Prop} {a a' : ℕ → α}

theorem OrderedFrom.below (h : OrderedFrom r a n (i + 1)) : OrderedBelow r a n i := by
  intro p c hp hne hpc hc
  have hle := hp.le
  exact h p c (by omega) hpc hc

/-- Ordering one more subtree, and leaving the rest alone, orders the pairs from its root on. -/
theorem OrderedFrom.step (h : OrderedFrom r a n (i + 1)) (hi : Ordered r a' n i)
    (hsame : ∀ k < n, ¬ Below i k → a' k = a k) : OrderedFrom r a' n i := by
  intro p c hp hpc hc
  have hlt := hpc.lt
  by_cases hbelow : Below i p
  · exact hi p c hbelow hpc hc
  · have hc' : ¬ Below i c := fun hin => hbelow (hin.parent hpc (by omega))
    have hpi : p ≠ i := fun heq => hbelow (heq ▸ .root)
    rw [hsame p (by omega) hbelow, hsame c hc hc']
    exact h p c (by omega) hpc hc

/-- No index from `n / 2` on has a child below `n`. -/
theorem orderedFrom_half : OrderedFrom r a n (n / 2) := by
  intro p c hp hpc hc
  unfold Child at hpc
  omega

/-- The root of a subtree is a maximum of it. -/
theorem Ordered.root_max [Std.Total r] [IsTrans α r] (h : Ordered r a n i) {k : ℕ}
    (hk : Below i k) (hkn : k < n) : r (a k) (a i) := by
  induction hk with
  | root => exact (Std.Total.total (r := r) (a i) (a i)).elim id id
  | child hp hc ih =>
      have hlt := hc.lt
      exact IsTrans.trans _ _ _ (h _ _ hp hc hkn) (ih (by omega))

end Whole

/-! ## Sorting -/

section Sorting

variable {α : Type*} {r : α → α → Prop} {a a' a'' : ℕ → α} {N : ℕ}

/-- The first `n` entries are a heap; the rest, up to `N`, are in order and above it. -/
structure Sorting (r : α → α → Prop) (a : ℕ → α) (N n : ℕ) : Prop where
  heap : Ordered r a n 0
  above : ∀ k < n, ∀ l, n ≤ l → l < N → r (a k) (a l)
  sorted : ∀ k l, n ≤ k → k < l → l < N → r (a k) (a l)

theorem OrderedFrom.sorting (h : OrderedFrom r a N 0) : Sorting r a N N where
  heap := fun p c _ hpc hc => h p c (Nat.zero_le p) hpc hc
  above := fun _ _ _ hl hlN => absurd hlN (not_lt.mpr hl)
  sorted := fun _ _ hk hkl hl => absurd (hk.trans_lt hkl) (not_lt.mpr hl.le)

/-- Putting the last entry of the heap at its root disturbs only the root's pairs. -/
theorem Sorting.orderedBelow (h : Sorting r a N (n + 1)) (hex : Exchanged N 0 n a a')
    (hn : n + 1 ≤ N) : OrderedBelow r a' n 0 := by
  intro p c hp hne hpc hc
  have hlt := hpc.lt
  rw [hex.other p (by omega) hne (by omega), hex.other c (by omega) (by omega) (by omega)]
  exact h.heap p c hp hpc (by omega)

/-- Moving the root behind the heap and restoring the heap puts one more entry in place. -/
theorem Sorting.step [Std.Total r] [IsTrans α r] (h : Sorting r a N (n + 1))
    (hex : Exchanged N 0 n a a') (hn : n + 1 ≤ N)
    (hre : Rearranged {k | k < n ∧ Below 0 k} N a' a'') (hheap : Ordered r a'' n 0) :
    Sorting r a'' N n := by
  have hmem : ∀ k, k ∈ {k | k < n ∧ Below 0 k} ↔ k < n := fun k =>
    ⟨fun hk => hk.1, fun hk => ⟨hk, below_zero k⟩⟩
  have hrest : ∀ l, n ≤ l → l < N → a'' l = a' l := fun l hl hlN =>
    hre.eq_of_notMem hlN fun hin => not_lt.mpr hl ((hmem l).mp hin)
  have hfirst : ∀ k < n, ∃ l < n + 1, a'' k = a l := by
    intro k hk
    obtain ⟨l, hlN, heq, hl, -⟩ := hre.exists_eq (show k < N by omega)
    have hln : l < n := (hmem l).mp (hl ((hmem k).mpr hk))
    by_cases hzero : l = 0
    · exact ⟨n, Nat.lt_succ_self n, by rw [heq, hzero, hex.left]⟩
    · exact ⟨l, by omega, by rw [heq, hex.other l hlN hzero (by omega)]⟩
  -- the root went to place `n`, and sifting does not come there
  have hlast : a'' n = a 0 := (hrest n le_rfl (by omega)).trans hex.right
  have htail : ∀ l, n + 1 ≤ l → l < N → a'' l = a l := fun l hl hlN =>
    (hrest l (by omega) hlN).trans (hex.other l hlN (by omega) (by omega))
  -- the heap against the rest, and the rest itself: the new entry is the old root
  refine ⟨hheap, fun k hk l hl hlN => ?_, fun k l hk hkl hlN => ?_⟩
  · obtain ⟨k', hk', heq⟩ := hfirst k hk
    rw [heq]
    rcases Nat.eq_or_lt_of_le hl with rfl | hlt
    · rw [hlast]
      exact h.heap.root_max (below_zero k') hk'
    · rw [htail l hlt hlN]
      exact h.above k' hk' l hlt hlN
  · rw [htail l (by omega) hlN]
    rcases Nat.eq_or_lt_of_le hk with rfl | hlt
    · rw [hlast]
      exact h.above 0 (Nat.succ_pos _) l (by omega) hlN
    · rw [htail k hlt (by omega)]
      exact h.sorted k l hlt hkl hlN

/-- A heap of one entry or none leaves everything in order. -/
theorem Sorting.done (h : Sorting r a N n) (hn : n ≤ 1) {k l : ℕ} (hkl : k < l) (hl : l < N) :
    r (a k) (a l) := by
  rcases Nat.lt_or_ge k n with hk | hk
  · exact h.above k hk l (by omega) hl
  · exact h.sorted k l hk hkl hl

end Sorting

end Heap
