import Mytilus.Base.ByteOrder
import Mytilus.Base.Mapped

/-!
# `strcmp`, `strncmp` and `memcmp`

A comparison runs over two parts that are alike and stops at the two bytes after
them (`Stop`): these differ, or one of them is a terminator, or the count ends
there.  It reads nothing else, and returns the difference of those bytes, which
is the first difference of the two strings (`exists_stop`).

The bytes are compared through a function `f`, so that the same facts serve the
comparisons that ignore case.  `strcmpLoop_eq`, `countedLoop_eq` and `memcmpLoop_eq`
bring the three loops to their stop, and `comparisons_lawful` collects what follows
from the order of `Mytilus.Base.ByteOrder`: the comparisons are those of the strings as
lists of unsigned bytes, and agree where they should.
-/

namespace Mytilus.Str.Checked

open Memory Mapped

/-- `a as c_int - b as c_int` -/
def byteDiff (a b : Byte) : BitVec 32 := a.setWidth 32 - b.setWidth 32

/-- The loop of `strcmp`. -/
def strcmpLoop (m : Mapped) (l r : Addr) : ℕ → ℕ → Option (BitVec 32)
  | 0, _ => none
  | k + 1, i => do
      let a ← m.read (ptrAdd l i)
      let b ← m.read (ptrAdd r i)
      if a ≠ b ∨ a = 0 then return byteDiff a b else strcmpLoop m l r k (i + 1)

/-- `int strcmp(const char *l, const char *r)` -/
def strcmp (m : Mapped) (l r : Addr) : Option (BitVec 32) := strcmpLoop m l r scanSteps 0

/-- `f(*l) as c_int - f(*r) as c_int` -/
def finalDiff (f : Byte → Byte) (m : Mapped) (l r : Addr) : Option (BitVec 32) := do
  let a ← m.read l
  let b ← m.read r
  return byteDiff (f a) (f b)

/-- `while *l != 0 && *r != 0 && n != 0 && same(*l, *r) { l = l.add(1); r = r.add(1); n -= 1; }`,
and the difference after it. -/
def countedLoop (same : Byte → Byte → Bool) (f : Byte → Byte) (m : Mapped) :
    ℕ → Addr → Addr → Option (BitVec 32)
  | n, l, r => do
      let a ← m.read l
      if a = 0 then finalDiff f m l r
      else do
        let b ← m.read r
        if b = 0 then finalDiff f m l r
        else match n with
          | 0 => finalDiff f m l r
          | n + 1 =>
              if same a b = true then countedLoop same f m n (ptrAdd l 1) (ptrAdd r 1)
              else finalDiff f m l r

/-- `if n == 0 { return 0; } n -= 1;` and the loop. -/
def counted (same : Byte → Byte → Bool) (f : Byte → Byte) (m : Mapped) (l r : Addr)
    (n : BitVec 64) : Option (BitVec 32) :=
  if n = 0 then return 0 else countedLoop same f m (n - 1).toNat l r

/-- `int strncmp(const char *l, const char *r, size_t n)` -/
def strncmp (m : Mapped) (l r : Addr) (n : BitVec 64) : Option (BitVec 32) :=
  counted (fun a b => decide (a = b)) id m l r n

/-- `while i < n { ... }` -/
def memcmpLoop (m : Mapped) (l r : Addr) (n i : ℕ) : Option (BitVec 32) :=
  if i < n then do
    let a ← m.read (ptrAdd l i)
    let b ← m.read (ptrAdd r i)
    if a ≠ b then return byteDiff a b else memcmpLoop m l r n (i + 1)
  else
    return 0
termination_by n - i

/-- `int memcmp(const void *vl, const void *vr, size_t n)` -/
def memcmp (m : Mapped) (vl vr : Addr) (n : BitVec 64) : Option (BitVec 32) :=
  memcmpLoop m vl vr n.toNat 0

theorem toInt_byteDiff (a b : Byte) : (byteDiff a b).toInt = a.toNat - b.toNat := by
  have ha := a.isLt
  have hb := b.isLt
  have hmod : (byteDiff a b).toInt = ((a.toNat : ℤ) - b.toNat).bmod (2 ^ 32) := by
    simp [byteDiff, BitVec.toInt_sub]
  rw [hmod, Int.bmod_eq_of_le (by omega) (by omega)]

/-! ## Where a comparison stops -/

/-- Two parts alike under `f`, without terminators, and a byte after each. -/
structure Stop (f : Byte → Byte) (m : Mapped) (l r : Addr) (us vs : List Byte) (a b : Byte) :
    Prop where
  left : BytesAt m l (us ++ [a])
  right : BytesAt m r (vs ++ [b])
  left_ne : ∀ x ∈ us, x ≠ 0
  right_ne : ∀ y ∈ vs, y ≠ 0
  alike : us.map f = vs.map f

section Stops

variable {f : Byte → Byte} {m : Mapped} {l r : Addr} {n : ℕ}
variable {xs ys us vs : List Byte} {a b x y : Byte}

theorem Stop.cons (h : Stop f m (ptrAdd l 1) (ptrAdd r 1) us vs a b) (hx : m.read l = some x)
    (hy : m.read r = some y) (hxne : x ≠ 0) (hyne : y ≠ 0) (hxy : f x = f y) :
    Stop f m l r (x :: us) (y :: vs) a b where
  left := ⟨hx, h.left⟩
  right := ⟨hy, h.right⟩
  left_ne := List.forall_mem_cons.mpr ⟨hxne, h.left_ne⟩
  right_ne := List.forall_mem_cons.mpr ⟨hyne, h.right_ne⟩
  alike := by rw [List.map_cons, List.map_cons, hxy, h.alike]

/-- Before the stop at least a byte has been read on either side. -/
theorem Stop.exists_tail (h : Stop f m l r (x :: us) vs a b) :
    ∃ y vs', vs = y :: vs' ∧ m.read l = some x ∧ m.read r = some y ∧ x ≠ 0 ∧ y ≠ 0 ∧ f x = f y ∧
      Stop f m (ptrAdd l 1) (ptrAdd r 1) us vs' a b := by
  cases vs with
  | nil => simpa using h.alike
  | cons y vs =>
      obtain ⟨hx, hleft⟩ := h.left
      obtain ⟨hy, hright⟩ := h.right
      obtain ⟨hxne, hus⟩ := List.forall_mem_cons.mp h.left_ne
      obtain ⟨hyne, hvs⟩ := List.forall_mem_cons.mp h.right_ne
      obtain ⟨hxy, halike⟩ := List.cons.inj h.alike
      exact ⟨y, vs, rfl, hx, hy, hxne, hyne, hxy, hleft, hright, hus, hvs, halike⟩

theorem Stop.right_nil (h : Stop f m l r [] vs a b) : vs = [] := by
  simpa using h.alike.symm

theorem stop_nil (hx : m.read l = some a) (hy : m.read r = some b) : Stop f m l r [] [] a b :=
  ⟨⟨hx, trivial⟩, ⟨hy, trivial⟩, nofun, nofun, rfl⟩

/-- Two strings cut at `n` are read up to their first difference. -/
theorem exists_stop (hf : f 0 = 0) (hl : CutAt m l n xs) (hr : CutAt m r n ys) (hn : n ≠ 0) :
    ∃ us vs a b, Stop f m l r us vs a b ∧ us.length ≤ xs.length ∧ us.length ≤ ys.length ∧
      us.length < n ∧ (f a ≠ f b ∨ a = 0 ∨ b = 0 ∨ us.length + 1 = n) ∧
      ((f a).toNat : ℤ) - (f b).toNat = ByteOrder.diff (xs.map f) (ys.map f) := by
  induction n generalizing l r xs ys with
  | zero => exact absurd rfl hn
  | succ n ih =>
      match xs, ys, hl, hr with
      | [], [], hl, hr =>
          refine ⟨[], [], 0, 0, stop_nil hl hr, le_rfl, le_rfl, Nat.succ_pos n, .inr (.inl rfl), ?_⟩
          simp
      | [], y :: ys, hl, hr =>
          refine ⟨[], [], 0, y, stop_nil hl hr.1, le_rfl, Nat.zero_le _, Nat.succ_pos n,
            .inr (.inl rfl), ?_⟩
          rw [hf]
          simp [ByteOrder.diff]
      | x :: xs, [], hl, hr =>
          refine ⟨[], [], x, 0, stop_nil hl.1 hr, Nat.zero_le _, le_rfl, Nat.succ_pos n,
            .inr (.inr (.inl rfl)), ?_⟩
          rw [hf]
          simp [ByteOrder.diff]
      | x :: xs, y :: ys, hl, hr =>
          obtain ⟨hx, hxne, hl⟩ := hl
          obtain ⟨hy, hyne, hr⟩ := hr
          rw [List.map_cons, List.map_cons, ByteOrder.diff]
          -- equal bytes are passed, unless the count ends with them
          by_cases hxy : f x = f y
          · by_cases hlast : n = 0
            · subst hlast
              obtain rfl : xs = [] := hl
              obtain rfl : ys = [] := hr
              refine ⟨[], [], x, y, stop_nil hx hy, Nat.zero_le _, Nat.zero_le _, Nat.succ_pos 0,
                .inr (.inr (.inr rfl)), ?_⟩
              rw [if_pos hxy, hxy, sub_self]
              rfl
            · obtain ⟨us, vs, a, b, hstop, hxs, hys, hlt, hwhy, hdiff⟩ := ih hl hr hlast
              refine ⟨x :: us, y :: vs, a, b, hstop.cons hx hy hxne hyne hxy, Nat.succ_le_succ hxs,
                Nat.succ_le_succ hys, Nat.succ_lt_succ hlt, ?_, ?_⟩
              · simpa using hwhy
              · rw [if_pos hxy, hdiff]
          · refine ⟨[], [], x, y, stop_nil hx hy, Nat.zero_le _, Nat.zero_le _, Nat.succ_pos n,
              .inl hxy, ?_⟩
            rw [if_neg hxy]

theorem strcmpLoop_eq {i k : ℕ} (h : Stop id m (ptrAdd l i) (ptrAdd r i) us vs a b)
    (hends : a ≠ b ∨ a = 0) (hk : us.length < k) : strcmpLoop m l r k i = some (byteDiff a b) := by
  induction us generalizing vs i k with
  | nil =>
      obtain ⟨k, rfl⟩ := exists_round hk
      obtain rfl := h.right_nil
      rw [strcmpLoop, bind_of_some _ h.left.1, bind_of_some _ h.right.1, if_pos hends]
      rfl
  | cons x us ih =>
      obtain ⟨k, rfl⟩ := exists_round hk
      obtain ⟨y, vs, rfl, hx, hy, hxne, -, hxy, hrest⟩ := h.exists_tail
      rw [ptrAdd_ptrAdd, ptrAdd_ptrAdd] at hrest
      obtain rfl : x = y := hxy
      rw [strcmpLoop, bind_of_some _ hx, bind_of_some _ hy, if_neg (by simpa using hxne)]
      exact ih hrest (Nat.lt_of_succ_lt_succ hk)

theorem finalDiff_eq (ha : m.read l = some a) (hb : m.read r = some b) :
    finalDiff f m l r = some (byteDiff (f a) (f b)) := by
  rw [finalDiff, bind_of_some _ ha, bind_of_some _ hb]
  rfl

theorem countedLoop_eq {same : Byte → Byte → Bool} (hsame : ∀ a b, same a b = true ↔ f a = f b)
    (h : Stop f m l r us vs a b) (hends : f a ≠ f b ∨ a = 0 ∨ b = 0 ∨ us.length = n)
    (hn : us.length ≤ n) : countedLoop same f m n l r = some (byteDiff (f a) (f b)) := by
  induction us generalizing l r vs n with
  | nil =>
      obtain rfl := h.right_nil
      have hfinal := finalDiff_eq (f := f) h.left.1 h.right.1
      unfold countedLoop
      rw [bind_of_some _ h.left.1]
      by_cases ha0 : a = 0
      · rw [if_pos ha0, hfinal]
      rw [if_neg ha0, bind_of_some _ h.right.1]
      by_cases hb0 : b = 0
      · rw [if_pos hb0, hfinal]
      rw [if_neg hb0]
      cases n with
      | zero => exact hfinal
      | succ n =>
          have hdiffer : f a ≠ f b := by
            rcases hends with hne | ha | hb | hlen
            · exact hne
            · exact absurd ha ha0
            · exact absurd hb hb0
            · cases hlen
          exact (if_neg (mt (hsame a b).mp hdiffer)).trans hfinal
  | cons x us ih =>
      obtain ⟨n, rfl⟩ := exists_round hn
      obtain ⟨y, vs, rfl, hx, hy, hxne, hyne, hxy, hrest⟩ := h.exists_tail
      unfold countedLoop
      rw [bind_of_some _ hx, if_neg hxne, bind_of_some _ hy, if_neg hyne]
      refine (if_pos ((hsame x y).mpr hxy)).trans ?_
      exact ih hrest (by simpa using hends) (Nat.le_of_succ_le_succ hn)

theorem counted_stop {same : Byte → Byte → Bool} (hsame : ∀ a b, same a b = true ↔ f a = f b)
    {n : BitVec 64} (h : Stop f m l r us vs a b)
    (hends : f a ≠ f b ∨ a = 0 ∨ b = 0 ∨ us.length + 1 = n.toNat) (hlt : us.length < n.toNat) :
    counted same f m l r n = some (byteDiff (f a) (f b)) := by
  have hne : n ≠ 0 := by
    rintro rfl
    exact Nat.not_lt_zero _ hlt
  have hpred : (n - 1).toNat = n.toNat - 1 := by bv_omega
  rw [counted, if_neg hne, hpred]
  refine countedLoop_eq hsame h ?_ (Nat.le_sub_one_of_lt hlt)
  rcases hends with hab | ha | hb | hlen
  · exact .inl hab
  · exact .inr (.inl ha)
  · exact .inr (.inr (.inl hb))
  · exact .inr (.inr (.inr (by omega)))

/-- A comparison of at most `n` bytes is that of the two strings cut there. -/
theorem counted_eq {same : Byte → Byte → Bool} (hsame : ∀ a b, same a b = true ↔ f a = f b)
    (hf : f 0 = 0) {n : BitVec 64} (hl : CutAt m l n.toNat xs) (hr : CutAt m r n.toNat ys) :
    ∃ d, counted same f m l r n = some d ∧ d.toInt = ByteOrder.diff (xs.map f) (ys.map f) := by
  by_cases hn : n = 0
  · subst hn
    obtain rfl : xs = [] := hl
    obtain rfl : ys = [] := hr
    exact ⟨0, if_pos rfl, rfl⟩
  · obtain ⟨us, vs, a, b, hstop, -, -, hlt, hends, hdiff⟩ :=
      exists_stop hf hl hr fun h0 => hn (BitVec.eq_of_toNat_eq h0)
    refine ⟨byteDiff (f a) (f b), counted_stop hsame hstop hends hlt, ?_⟩
    rw [toInt_byteDiff, hdiff]

/-- `memcmp` passes over bytes that are the same. -/
theorem memcmpLoop_skip (ws : List Byte) {i : ℕ} (hleft : BytesAt m (ptrAdd l i) ws)
    (hright : BytesAt m (ptrAdd r i) ws) (hle : i + ws.length ≤ n) :
    memcmpLoop m l r n i = memcmpLoop m l r n (i + ws.length) := by
  induction ws generalizing i with
  | nil => rw [List.length_nil, Nat.add_zero]
  | cons x ws ih =>
      obtain ⟨hx, hleft⟩ := hleft
      obtain ⟨hy, hright⟩ := hright
      rw [ptrAdd_ptrAdd] at hleft hright
      rw [List.length_cons] at hle ⊢
      rw [memcmpLoop, if_pos (by omega), bind_of_some _ hx, bind_of_some _ hy,
        if_neg (not_not.mpr rfl), ih hleft hright (by omega), Nat.add_assoc, Nat.add_comm 1]

/-- The difference that `memcmp` returns is that at the first place where the bytes differ. -/
theorem memcmpLoop_eq (ws : List Byte) {i : ℕ} (hleft : BytesAt m (ptrAdd l i) (ws ++ [a]))
    (hright : BytesAt m (ptrAdd r i) (ws ++ [b])) (hne : a ≠ b) (hlt : i + ws.length < n) :
    memcmpLoop m l r n i = some (byteDiff a b) := by
  obtain ⟨hwsl, hleft, -⟩ := bytesAt_append.mp hleft
  obtain ⟨hwsr, hright, -⟩ := bytesAt_append.mp hright
  rw [ptrAdd_ptrAdd] at hleft hright
  rw [memcmpLoop_skip ws hwsl hwsr hlt.le, memcmpLoop, if_pos hlt, bind_of_some _ hleft,
    bind_of_some _ hright, if_pos hne]
  rfl

theorem memcmpLoop_same (ws : List Byte) {i : ℕ} (hleft : BytesAt m (ptrAdd l i) ws)
    (hright : BytesAt m (ptrAdd r i) ws) (hlen : i + ws.length = n) :
    memcmpLoop m l r n i = some 0 := by
  rw [memcmpLoop_skip ws hleft hright hlen.le, hlen, memcmpLoop, if_neg (lt_irrefl n)]
  rfl

end Stops

/-! ## The comparisons -/

/-- The sign of `d` is the order of two strings. -/
structure Orders (d : BitVec 32) (xs ys : List Byte) : Prop where
  less : d.toInt < 0 ↔ ByteOrder.key xs < ByteOrder.key ys
  equal : d.toInt = 0 ↔ xs = ys
  greater : 0 < d.toInt ↔ ByteOrder.key ys < ByteOrder.key xs

theorem orders_of_diff {d : BitVec 32} {xs ys : List Byte} (hd : d.toInt = ByteOrder.diff xs ys)
    (hxs : ∀ x ∈ xs, x ≠ 0) (hys : ∀ y ∈ ys, y ≠ 0) : Orders d xs ys := by
  refine ⟨?_, ?_, ?_⟩ <;> rw [hd]
  · exact ByteOrder.diff_neg_iff hys
  · exact ByteOrder.diff_eq_zero_iff hxs hys
  · exact ByteOrder.diff_pos_iff hxs

section Comparisons

variable {m : Mapped} {l r t : Addr} {xs ys zs : List Byte}

/-- Two strings are read up to their first difference or their common end. -/
theorem exists_stop_of_strings {f : Byte → Byte} (hf : f 0 = 0) (hl : StringAt m l xs)
    (hr : StringAt m r ys) :
    ∃ us vs a b, Stop f m l r us vs a b ∧ us.length ≤ xs.length ∧ us.length ≤ ys.length ∧
      (f a ≠ f b ∨ a = 0 ∨ b = 0) ∧
      ((f a).toNat : ℤ) - (f b).toNat = ByteOrder.diff (xs.map f) (ys.map f) := by
  have hcutl := hl.cutAt (xs.length + ys.length + 2)
  have hcutr := hr.cutAt (xs.length + ys.length + 2)
  rw [List.take_of_length_le (by omega)] at hcutl hcutr
  obtain ⟨us, vs, a, b, hstop, hxs, hys, -, hwhy, hdiff⟩ :=
    exists_stop hf hcutl hcutr (Nat.succ_ne_zero _)
  refine ⟨us, vs, a, b, hstop, hxs, hys, ?_, hdiff⟩
  rcases hwhy with hne | ha | hb | hlen
  · exact .inl hne
  · exact .inr (.inl ha)
  · exact .inr (.inr hb)
  · omega

theorem Stop.eq_of_id {us vs : List Byte} {a b : Byte} (h : Stop id m l r us vs a b) : us = vs := by
  simpa using h.alike

theorem strcmp_stop {us vs : List Byte} {a b : Byte} (h : Stop id m l r us vs a b)
    (hends : a ≠ b ∨ a = 0) (hlen : us.length < 2 ^ 64) : strcmp m l r = some (byteDiff a b) := by
  have hstart : Stop id m (ptrAdd l 0) (ptrAdd r 0) us vs a b := by
    rw [ptrAdd_zero, ptrAdd_zero]
    exact h
  exact strcmpLoop_eq hstart hends (k := scanSteps) hlen

/-- What stops a comparison of strings stops `strcmp`. -/
theorem ends_of_stop {a b : Byte} (hends : a ≠ b ∨ a = 0 ∨ b = 0) : a ≠ b ∨ a = 0 := by
  by_cases hab : a = b
  · subst hab
    simpa using hends
  · exact .inl hab

theorem strcmp_eq (hl : StringAt m l xs) (hr : StringAt m r ys) :
    ∃ d, strcmp m l r = some d ∧ d.toInt = ByteOrder.diff xs ys := by
  obtain ⟨us, vs, a, b, hstop, hxs, -, hends, hdiff⟩ := exists_stop_of_strings (f := id) rfl hl hr
  refine ⟨byteDiff a b, strcmp_stop hstop (ends_of_stop hends) (hxs.trans_lt hl.length_lt), ?_⟩
  rw [toInt_byteDiff]
  simpa using hdiff

theorem strncmp_eq {n : BitVec 64} (hl : CutAt m l n.toNat xs) (hr : CutAt m r n.toNat ys) :
    ∃ d, strncmp m l r n = some d ∧ d.toInt = ByteOrder.diff xs ys := by
  have hcounted := counted_eq (f := id) (fun _ _ => decide_eq_true_iff) rfl hl hr
  rwa [List.map_id, List.map_id] at hcounted

theorem strncmp_eq_strcmp {n : BitVec 64} (hl : StringAt m l xs) (hr : StringAt m r ys)
    (hn : min xs.length ys.length < n.toNat) : strncmp m l r n = strcmp m l r := by
  obtain ⟨us, vs, a, b, hstop, hxs, hys, hends, -⟩ := exists_stop_of_strings (f := id) rfl hl hr
  rw [strcmp_stop hstop (ends_of_stop hends) (hxs.trans_lt hl.length_lt)]
  refine counted_stop (fun _ _ => decide_eq_true_iff) hstop ?_ ((le_min hxs hys).trans_lt hn)
  rcases hends with hab | ha | hb
  · exact .inl hab
  · exact .inr (.inl ha)
  · exact .inr (.inr (.inl hb))

theorem memcmp_eq_strcmp {n : BitVec 64} (hl : StringAt m l xs) (hr : StringAt m r ys)
    (hn : n.toNat = min xs.length ys.length + 1) : memcmp m l r n = strcmp m l r := by
  obtain ⟨us, vs, a, b, hstop, hxs, hys, hends, -⟩ := exists_stop_of_strings (f := id) rfl hl hr
  obtain rfl := hstop.eq_of_id
  have hleft : BytesAt m (ptrAdd l 0) (us ++ [a]) := by simpa using hstop.left
  have hright : BytesAt m (ptrAdd r 0) (us ++ [b]) := by simpa using hstop.right
  rw [strcmp_stop hstop (ends_of_stop hends) (hxs.trans_lt hl.length_lt), memcmp]
  by_cases hab : a = b
  · -- both strings end here
    subst hab
    have ha : a = 0 := (ends_of_stop hends).resolve_left (not_not.mpr rfl)
    subst ha
    have hxs' := (stringAt_iff.mpr ⟨hstop.left, hstop.left_ne⟩).unique hl
    have hys' := (stringAt_iff.mpr ⟨hstop.right, hstop.right_ne⟩).unique hr
    subst hxs' hys'
    rw [byteDiff, BitVec.sub_self]
    exact memcmpLoop_same (us ++ [0]) hleft hright (by simp [hn])
  · refine memcmpLoop_eq us hleft hright hab ?_
    rw [hn, Nat.zero_add]
    exact Nat.lt_succ_of_le (le_min hxs hys)

end Comparisons

/-- How the comparisons of the strings and buffers of a memory behave. -/
structure ComparisonLaws (m : Mapped) : Prop where
  strcmp_orders : ∀ l r xs ys, StringAt m l xs → StringAt m r ys →
    ∃ d, strcmp m l r = some d ∧ Orders d xs ys
  strcmp_antisymm : ∀ l r xs ys, StringAt m l xs → StringAt m r ys →
    ∃ d e, strcmp m l r = some d ∧ strcmp m r l = some e ∧ e.toInt = -d.toInt
  strcmp_trans : ∀ l r t xs ys zs, StringAt m l xs → StringAt m r ys → StringAt m t zs →
    ∃ d e f, strcmp m l r = some d ∧ strcmp m r t = some e ∧ strcmp m l t = some f ∧
      (d.toInt ≤ 0 → e.toInt ≤ 0 → f.toInt ≤ 0)
  strncmp_orders : ∀ l r (n : BitVec 64) xs ys, CutAt m l n.toNat xs → CutAt m r n.toNat ys →
    ∃ d, strncmp m l r n = some d ∧ Orders d xs ys
  /-- Only the first difference, and what is before it, is read. -/
  strncmp_reads : ∀ l r (n : BitVec 64) ws a b, BytesAt m l (ws ++ [a]) → BytesAt m r (ws ++ [b]) →
    (∀ x ∈ ws, x ≠ 0) → ws.length < n.toNat → (a ≠ b ∨ a = 0 ∨ ws.length + 1 = n.toNat) →
      ∃ d, strncmp m l r n = some d ∧ d.toInt = a.toNat - b.toNat
  strncmp_strcmp : ∀ l r (n : BitVec 64) xs ys, StringAt m l xs → StringAt m r ys →
    min xs.length ys.length < n.toNat → strncmp m l r n = strcmp m l r
  strncmp_zero : ∀ l r, strncmp m l r 0 = some 0
  memcmp_same : ∀ l r (n : BitVec 64) ws, BytesAt m l ws → BytesAt m r ws → ws.length = n.toNat →
    memcmp m l r n = some 0
  memcmp_differ : ∀ l r (n : BitVec 64) ws a b, BytesAt m l (ws ++ [a]) → BytesAt m r (ws ++ [b]) →
    a ≠ b → ws.length < n.toNat → ∃ d, memcmp m l r n = some d ∧ d.toInt = a.toNat - b.toNat
  memcmp_strcmp : ∀ l r (n : BitVec 64) xs ys, StringAt m l xs → StringAt m r ys →
    n.toNat = min xs.length ys.length + 1 → memcmp m l r n = strcmp m l r

/-- **The comparisons follow the lexicographic order of unsigned bytes.** -/
theorem comparisons_lawful (m : Mapped) : ComparisonLaws m where
  strcmp_orders l r xs ys hl hr := by
    obtain ⟨d, hd, hdiff⟩ := strcmp_eq hl hr
    exact ⟨d, hd, orders_of_diff hdiff hl.ne_zero hr.ne_zero⟩
  strcmp_antisymm l r xs ys hl hr := by
    obtain ⟨d, hd, hdiff⟩ := strcmp_eq hl hr
    obtain ⟨e, he, heiff⟩ := strcmp_eq hr hl
    exact ⟨d, e, hd, he, by rw [hdiff, heiff, ByteOrder.neg_diff]⟩
  strcmp_trans l r t xs ys zs hl hr ht := by
    obtain ⟨d, hd, hxy⟩ := strcmp_eq hl hr
    obtain ⟨e, he, hyz⟩ := strcmp_eq hr ht
    obtain ⟨f, hf, hxz⟩ := strcmp_eq hl ht
    refine ⟨d, e, f, hd, he, hf, fun hle hle' => ?_⟩
    rw [hxy] at hle
    rw [hyz] at hle'
    rw [hxz]
    exact ByteOrder.diff_nonpos_trans hl.ne_zero hr.ne_zero hle hle'
  strncmp_orders l r n xs ys hl hr := by
    obtain ⟨d, hd, hdiff⟩ := strncmp_eq hl hr
    exact ⟨d, hd, orders_of_diff hdiff hl.ne_zero hr.ne_zero⟩
  strncmp_reads l r n ws a b hl hr hws hlt hends := by
    refine ⟨byteDiff a b, counted_stop (f := id) (fun _ _ => decide_eq_true_iff)
      ⟨hl, hr, hws, hws, rfl⟩ ?_ hlt, toInt_byteDiff a b⟩
    rcases hends with hab | ha | hlen
    · exact .inl hab
    · exact .inr (.inl ha)
    · exact .inr (.inr (.inr hlen))
  strncmp_strcmp l r n xs ys hl hr hn := strncmp_eq_strcmp hl hr hn
  strncmp_zero l r := by
    rw [strncmp, counted, if_pos rfl]
    rfl
  memcmp_same l r n ws hl hr hlen := by
    refine memcmpLoop_same ws ?_ ?_ (by rw [Nat.zero_add, hlen])
    · rwa [ptrAdd_zero]
    · rwa [ptrAdd_zero]
  memcmp_differ l r n ws a b hl hr hab hlt := by
    refine ⟨byteDiff a b, memcmpLoop_eq ws ?_ ?_ hab (by rwa [Nat.zero_add]),
      toInt_byteDiff a b⟩
    · rwa [ptrAdd_zero]
    · rwa [ptrAdd_zero]
  memcmp_strcmp l r n xs ys hl hr hn := memcmp_eq_strcmp hl hr hn

/-- Two buffers of two bytes, and nothing else. -/
def twoBuffers : Mapped :=
  view (fun a => if a = 0x1001 then 97 else if a = 0x2001 then 98 else 200)
    fun a => Within 0x1000 2 a ∨ Within 0x2000 2 a

theorem comparisons_lawful_buffers :
    ∃ d, strncmp twoBuffers 0x1000 0x2000 2 = some d ∧ d.toInt = -1 := by
  obtain ⟨d, hd, hdiff⟩ := (comparisons_lawful twoBuffers).strncmp_reads 0x1000 0x2000 2 [200] 97 98
    ⟨rfl, rfl, trivial⟩ ⟨rfl, rfl, trivial⟩ (by decide) (by decide) (.inl (by decide))
  exact ⟨d, hd, hdiff⟩

end Mytilus.Str.Checked
