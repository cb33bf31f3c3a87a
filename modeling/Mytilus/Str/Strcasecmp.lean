import Mytilus.Locale.Ctype
import Mytilus.Str.Strcmp

/-!
# `strcasecmp` and `strncasecmp`

Both fold their bytes with `tolower` and compare them as `strcmp` and `strncmp`
compare the folded strings.
-/

namespace Mytilus.Str.Checked

open Memory Mapped

/-- `tolower(b as c_int) as u8` -/
def fold (b : Byte) : Byte := (Locale.tolower (b.setWidth 32)).setWidth 8

/-- The loop of `strcasecmp`. -/
def strcasecmpLoop (m : Mapped) : ℕ → Addr → Addr → Option (BitVec 32)
  | 0, _, _ => none
  | k + 1, l, r => do
      let a ← m.read l
      let b ← m.read r
      if a = 0 ∨ b = 0 then return byteDiff (fold a) (fold b)
      else if a ≠ b ∧ fold a ≠ fold b then return byteDiff (fold a) (fold b)
      else strcasecmpLoop m k (ptrAdd l 1) (ptrAdd r 1)

/-- `int strcasecmp(const char *l, const char *r)` -/
def strcasecmp (m : Mapped) (l r : Addr) : Option (BitVec 32) := strcasecmpLoop m scanSteps l r

/-- `int strncasecmp(const char *l, const char *r, size_t n)` -/
def strncasecmp (m : Mapped) (l r : Addr) (n : BitVec 64) : Option (BitVec 32) :=
  counted (fun a b => decide (a = b ∨ fold a = fold b)) fold m l r n

/-! ## Folding -/

/-- An ASCII capital. -/
abbrev Capital (b : Byte) : Prop := 65 ≤ b.toNat ∧ b.toNat ≤ 90

/-- A capital made small, and any other byte as it is. -/
def lower (b : Byte) : Byte := if Capital b then b + 32 else b

theorem or_eq_add_of_capital {b : Byte} (h : Capital b) :
    (b.setWidth 32 ||| 32).setWidth 8 = b + 32 := by
  revert b
  decide

theorem fold_eq_lower (b : Byte) : fold b = lower b := by
  have hclass : Locale.isupper (b.setWidth 32) ≠ 0 ↔ Capital b := by
    rw [Locale.isupper_ne_zero_iff, BitVec.toNat_setWidth, Nat.mod_eq_of_lt (by omega)]
  unfold fold lower Locale.tolower
  by_cases h : Capital b
  · rw [if_pos (hclass.mpr h), if_pos h, or_eq_add_of_capital h]
  · rw [if_neg (mt hclass.mp h), if_neg h, BitVec.setWidth_setWidth_of_le _ (by norm_num),
      BitVec.setWidth_eq]

theorem map_fold (xs : List Byte) : xs.map fold = xs.map lower :=
  List.map_congr_left fun b _ => fold_eq_lower b

theorem fold_zero : fold 0 = 0 := rfl

theorem lower_ne_zero {xs : List Byte} (h : ∀ x ∈ xs, x ≠ 0) : ∀ x ∈ xs.map lower, x ≠ 0 := by
  intro x hx
  obtain ⟨b, hb, rfl⟩ := List.mem_map.mp hx
  have hne := h b hb
  unfold lower
  split_ifs
  · bv_omega
  · exact hne

theorem map_lower_of_not_capital {xs : List Byte} (h : ∀ x ∈ xs, ¬ Capital x) :
    xs.map lower = xs := by
  have hid : xs.map lower = xs.map id := List.map_congr_left fun x hx => if_neg (h x hx)
  rwa [List.map_id] at hid

/-! ## What a comparison returns -/

/-- The comparison returned, and its left side is not the greater. -/
def Le (out : Option (BitVec 32)) : Prop := ∃ d, out = some d ∧ d.toInt ≤ 0

/-- The comparison `out` returned the first difference of the folded strings. -/
def Returned (out : Option (BitVec 32)) (xs ys : List Byte) : Prop :=
  ∃ d, out = some d ∧ d.toInt = ByteOrder.diff (xs.map lower) (ys.map lower)

section Order

variable {out out' out'' : Option (BitVec 32)} {xs ys zs : List Byte}

theorem Returned.le_iff (h : Returned out xs ys) :
    Le out ↔ ByteOrder.diff (xs.map lower) (ys.map lower) ≤ 0 := by
  obtain ⟨d, rfl, hd⟩ := h
  rw [← hd]
  constructor
  · rintro ⟨e, he, hle⟩
    rwa [Option.some.inj he]
  · exact fun hle => ⟨d, rfl, hle⟩

theorem Returned.total (h : Returned out xs ys) (h' : Returned out' ys xs) : Le out ∨ Le out' := by
  rw [h.le_iff, h'.le_iff, ← ByteOrder.neg_diff (xs.map lower), Left.neg_nonpos_iff]
  exact le_total _ _

theorem Returned.trans (h : Returned out xs ys) (h' : Returned out' ys zs)
    (h'' : Returned out'' xs zs) (hxs : ∀ x ∈ xs, x ≠ 0) (hys : ∀ y ∈ ys, y ≠ 0) (hle : Le out)
    (hle' : Le out') : Le out'' :=
  h''.le_iff.mpr (ByteOrder.diff_nonpos_trans (lower_ne_zero hxs) (lower_ne_zero hys)
    (h.le_iff.mp hle) (h'.le_iff.mp hle'))

theorem Returned.orders (h : Returned out xs ys) (hxs : ∀ x ∈ xs, x ≠ 0) (hys : ∀ y ∈ ys, y ≠ 0) :
    ∃ d, out = some d ∧ Orders d (xs.map lower) (ys.map lower) := by
  obtain ⟨d, hd, hdiff⟩ := h
  exact ⟨d, hd, orders_of_diff hdiff (lower_ne_zero hxs) (lower_ne_zero hys)⟩

/-- A comparison that does not fold, of the folded strings, returns the same. -/
theorem Returned.same (h : Returned out xs ys)
    (h' : ∃ d, out' = some d ∧ d.toInt = ByteOrder.diff (xs.map lower) (ys.map lower)) :
    ∃ d, out = some d ∧ out' = some d := by
  obtain ⟨d, hd, hdiff⟩ := h
  obtain ⟨e, he, hdiff'⟩ := h'
  exact ⟨d, hd, he.trans (congrArg some (BitVec.eq_of_toInt_eq (hdiff'.trans hdiff.symm)))⟩

end Order

/-! ## The comparisons -/

section Comparisons

variable {m : Mapped} {l r t : Addr} {xs ys zs us vs : List Byte} {a b : Byte}

theorem strcasecmpLoop_eq {k : ℕ} (h : Stop fold m l r us vs a b)
    (hends : fold a ≠ fold b ∨ a = 0 ∨ b = 0) (hk : us.length < k) :
    strcasecmpLoop m k l r = some (byteDiff (fold a) (fold b)) := by
  induction us generalizing l r vs k with
  | nil =>
      obtain ⟨k, rfl⟩ := exists_round hk
      obtain rfl := h.right_nil
      rw [strcasecmpLoop, bind_of_some _ h.left.1, bind_of_some _ h.right.1]
      by_cases hnul : a = 0 ∨ b = 0
      · rw [if_pos hnul]
        rfl
      · have hne := hends.resolve_right hnul
        rw [if_neg hnul, if_pos ⟨fun hab => hne (congrArg fold hab), hne⟩]
        rfl
  | cons x us ih =>
      obtain ⟨k, rfl⟩ := exists_round hk
      obtain ⟨y, vs, rfl, hx, hy, hxne, hyne, hxy, hrest⟩ := h.exists_tail
      rw [strcasecmpLoop, bind_of_some _ hx, bind_of_some _ hy, if_neg (not_or.mpr ⟨hxne, hyne⟩),
        if_neg fun hand => hand.2 hxy]
      exact ih hrest (Nat.lt_of_succ_lt_succ hk)

theorem strcasecmp_eq (hl : StringAt m l xs) (hr : StringAt m r ys) :
    Returned (strcasecmp m l r) xs ys := by
  obtain ⟨us, vs, a, b, hstop, hxs, -, hends, hdiff⟩ := exists_stop_of_strings fold_zero hl hr
  refine ⟨_, strcasecmpLoop_eq (k := scanSteps) hstop hends (hxs.trans_lt hl.length_lt), ?_⟩
  rw [toInt_byteDiff, hdiff, map_fold, map_fold]

theorem strncasecmp_eq {n : BitVec 64} (hl : CutAt m l n.toNat xs) (hr : CutAt m r n.toNat ys) :
    Returned (strncasecmp m l r n) xs ys := by
  -- equal bytes fold alike
  have hsame : ∀ a b : Byte, decide (a = b ∨ fold a = fold b) = true ↔ fold a = fold b := by
    intro a b
    rw [decide_eq_true_iff, or_iff_right_iff_imp]
    exact congrArg fold
  rw [Returned, ← map_fold, ← map_fold]
  exact counted_eq hsame fold_zero hl hr

end Comparisons

/-- How the comparisons that ignore case behave in a memory. -/
structure CaseLaws (m : Mapped) : Prop where
  /-- The comparison of the folded strings, wherever they are. -/
  strcasecmp_strcmp : ∀ l r xs ys, StringAt m l xs → StringAt m r ys →
    ∀ (m' : Mapped) l' r', StringAt m' l' (xs.map lower) → StringAt m' r' (ys.map lower) →
      ∃ d, strcasecmp m l r = some d ∧ strcmp m' l' r' = some d
  strncasecmp_strncmp : ∀ l r xs ys (n : BitVec 64), StringAt m l xs → StringAt m r ys →
    ∀ (m' : Mapped) l' r', StringAt m' l' (xs.map lower) → StringAt m' r' (ys.map lower) →
      ∃ d, strncasecmp m l r n = some d ∧ strncmp m' l' r' n = some d
  strcasecmp_orders : ∀ l r xs ys, StringAt m l xs → StringAt m r ys →
    ∃ d, strcasecmp m l r = some d ∧ Orders d (xs.map lower) (ys.map lower)
  strcasecmp_total : ∀ l r xs ys, StringAt m l xs → StringAt m r ys →
    Le (strcasecmp m l r) ∨ Le (strcasecmp m r l)
  strcasecmp_trans : ∀ l r t xs ys zs, StringAt m l xs → StringAt m r ys → StringAt m t zs →
    Le (strcasecmp m l r) → Le (strcasecmp m r t) → Le (strcasecmp m l t)
  strcasecmp_own : ∀ l r xs ys, StringAt m l xs → StringAt m r ys → (∀ x ∈ xs, ¬ Capital x) →
    (∀ y ∈ ys, ¬ Capital y) → strcasecmp m l r = strcmp m l r
  /-- Only the bytes below `n`, and up to the terminators, are read. -/
  strncasecmp_orders : ∀ l r (n : BitVec 64) xs ys, CutAt m l n.toNat xs → CutAt m r n.toNat ys →
    ∃ d, strncasecmp m l r n = some d ∧ Orders d (xs.map lower) (ys.map lower)
  strncasecmp_total : ∀ l r (n : BitVec 64) xs ys, CutAt m l n.toNat xs → CutAt m r n.toNat ys →
    Le (strncasecmp m l r n) ∨ Le (strncasecmp m r l n)
  strncasecmp_trans : ∀ l r t (n : BitVec 64) xs ys zs, CutAt m l n.toNat xs →
    CutAt m r n.toNat ys → CutAt m t n.toNat zs →
      Le (strncasecmp m l r n) → Le (strncasecmp m r t n) → Le (strncasecmp m l t n)

/-- **The comparisons that ignore case are those of the folded strings.** -/
theorem case_lawful (m : Mapped) : CaseLaws m where
  strcasecmp_strcmp l r xs ys hl hr m' l' r' hl' hr' :=
    (strcasecmp_eq hl hr).same (strcmp_eq hl' hr')
  strncasecmp_strncmp l r xs ys n hl hr m' l' r' hl' hr' := by
    have hcutl := hl'.cutAt n.toNat
    have hcutr := hr'.cutAt n.toNat
    rw [← List.map_take] at hcutl hcutr
    exact (strncasecmp_eq (hl.cutAt n.toNat) (hr.cutAt n.toNat)).same (strncmp_eq hcutl hcutr)
  strcasecmp_orders l r xs ys hl hr := (strcasecmp_eq hl hr).orders hl.ne_zero hr.ne_zero
  strcasecmp_total l r xs ys hl hr := (strcasecmp_eq hl hr).total (strcasecmp_eq hr hl)
  strcasecmp_trans l r t xs ys zs hl hr ht :=
    (strcasecmp_eq hl hr).trans (strcasecmp_eq hr ht) (strcasecmp_eq hl ht) hl.ne_zero hr.ne_zero
  strcasecmp_own l r xs ys hl hr hxs hys := by
    -- without capitals the folded strings are the strings
    have hstrcmp := strcmp_eq hl hr
    rw [← map_lower_of_not_capital hxs, ← map_lower_of_not_capital hys] at hstrcmp
    obtain ⟨d, hd, hd'⟩ := (strcasecmp_eq hl hr).same hstrcmp
    rw [hd, hd']
  strncasecmp_orders l r n xs ys hl hr := (strncasecmp_eq hl hr).orders hl.ne_zero hr.ne_zero
  strncasecmp_total l r n xs ys hl hr := (strncasecmp_eq hl hr).total (strncasecmp_eq hr hl)
  strncasecmp_trans l r t n xs ys zs hl hr ht :=
    (strncasecmp_eq hl hr).trans (strncasecmp_eq hr ht) (strncasecmp_eq hl ht) hl.ne_zero hr.ne_zero

/-- `"Zb"` and `"za"`, and nothing else. -/
def twoWords : Mapped :=
  view (fun a => if a = 0x1000 then 90 else if a = 0x1001 then 98 else if a = 0x2000 then 122
    else if a = 0x2001 then 97 else 0) fun a => Within 0x1000 3 a ∨ Within 0x2000 3 a

theorem case_lawful_words :
    ∃ d, strcasecmp twoWords 0x1000 0x2000 = some d ∧ Orders d [122, 98] [122, 97] :=
  (case_lawful twoWords).strcasecmp_orders 0x1000 0x2000 [90, 98] [122, 97]
    ⟨rfl, by decide, rfl, by decide, rfl⟩ ⟨rfl, by decide, rfl, by decide, rfl⟩

end Mytilus.Str.Checked
