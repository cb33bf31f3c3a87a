import Mytilus.Stdlib.SortSearch
import Mytilus.Str.Strcmp

/-!
# Sorting strings

A program sorts strings by their pointers, with a comparator that hands the two
pointers it is shown to `strcmp`.  `qsort` puts the strings in the order of their
bytes, and `bsearch` finds a string among them.
-/

namespace Mytilus.Stdlib.Sort

open Memory

/-- `strcmp(*(const char **)a, *(const char **)b)`, and zero where it does not return. -/
def compareStrings : CmpFn Unit := fun a b m own =>
  ((Str.Checked.strcmp (Mapped.view m fun _ => True) (readLE m a 8) (readLE m b 8)).getD 0, own)

open Classical in
/-- The string at an address, if there is one. -/
noncomputable def textAt (m : Memory) (p : Addr) : List Byte :=
  if h : ∃ xs, StringAt m p xs then h.choose else []

/-- Pointers in the order of their strings. -/
def TextLe (m : Memory) (p q : BitVec (8 * 8)) : Prop :=
  ByteOrder.key (textAt m p) ≤ ByteOrder.key (textAt m q)

instance (m : Memory) : Std.Total (TextLe m) := ⟨fun _ _ => le_total _ _⟩

instance (m : Memory) : IsTrans (BitVec (8 * 8)) (TextLe m) := ⟨fun _ _ _ => le_trans⟩

/-- The string is outside the array, and not at the null address. -/
structure Aside (base : Addr) (nel : ℕ) (m : Memory) (p : Addr) (xs : List Byte) : Prop where
  string : StringAt m p xs
  outside : ∀ i ≤ xs.length, ¬ Within base (nel * 8) (ptrAdd p i)
  nonnull : ∀ i ≤ xs.length, ptrAdd p i ≠ 0

section Strings

variable {key base : Addr} {nel : ℕ} {m m' : Memory} {p q : Addr} {xs ys sought : List Byte}
  {texts : List (List Byte)}

theorem textAt_eq (h : StringAt m p xs) : textAt m p = xs := by
  have hexists : ∃ xs, StringAt m p xs := ⟨xs, h⟩
  rw [textAt, dif_pos hexists]
  exact hexists.choose_spec.unique h

theorem Aside.stringAt (h : Aside base nel m p xs) (hsame : SameOutside base (nel * 8) m m') :
    StringAt m' p xs :=
  h.string.congr fun i hi => hsame _ (h.outside i hi)

/-- A string whose bytes are all mapped. -/
theorem stringAt_view (h : StringAt m p xs) (hnull : ∀ i ≤ xs.length, ptrAdd p i ≠ 0) :
    Mapped.StringAt (Mapped.view m fun _ => True) p xs := by
  induction xs generalizing p with
  | nil =>
      have hp := hnull 0 le_rfl
      rw [ptrAdd_zero] at hp
      exact (if_pos ⟨trivial, hp⟩).trans (congrArg some h)
  | cons x xs ih =>
      obtain ⟨hx, hne, hrest⟩ := h
      have hp := hnull 0 (Nat.zero_le _)
      rw [ptrAdd_zero] at hp
      refine ⟨(if_pos ⟨trivial, hp⟩).trans (congrArg some hx), hne, ih hrest fun i hi => ?_⟩
      rw [ptrAdd_one_ptrAdd]
      exact hnull (i + 1) (Nat.succ_le_succ hi)

/-- The comparator's answer is the first difference of the strings. -/
theorem toInt_compareStrings {a b : Addr} (own : Unit) (hsame : SameOutside base (nel * 8) m m')
    (hp : Aside base nel m (readLE m' a 8) xs) (hq : Aside base nel m (readLE m' b 8) ys) :
    (compareStrings a b m' own).1.toInt = ByteOrder.diff xs ys := by
  obtain ⟨d, hstrcmp, hd⟩ := Str.Checked.strcmp_eq
    (stringAt_view (hp.stringAt hsame) hp.nonnull) (stringAt_view (hq.stringAt hsame) hq.nonnull)
  rw [compareStrings, hstrcmp]
  exact hd

/-- The strings of an array, whose pointers may be rearranged. -/
structure Strings (key base : Addr) (nel : ℕ) (m : Memory) (texts : List (List Byte))
    (sought : List Byte) : Prop where
  texts : List.Forall₂ (Aside base nel m) (elements base nel 8 m) texts
  sought : Aside base nel m (readLE m key 8) sought
  apart : Separate base (nel * 8) key 8
  size : nel * 8 ≤ 2 ^ 63 - 1

theorem Strings.map_textAt (h : Strings key base nel m texts sought) :
    (elements base nel 8 m).map (textAt m) = texts := by
  refine List.ext_getElem ?_ fun i hi hi' => ?_
  · rw [List.length_map, h.texts.length_eq]
  · rw [List.getElem_map]
    rw [List.length_map] at hi
    exact textAt_eq (h.texts.get hi hi').string

/-- In every arrangement the pointers are to strings. -/
theorem Strings.aside (h : Strings key base nel m texts sought) {v : BitVec (8 * 8)}
    (hv : v ∈ elements base nel 8 m) : Aside base nel m v (textAt m v) := by
  obtain ⟨i, hi, rfl⟩ := List.mem_iff_getElem.mp hv
  have hstring := h.texts.get hi (h.texts.length_eq ▸ hi)
  rw [List.get_eq_getElem] at hstring
  rwa [textAt_eq hstring.string]

theorem Strings.passed (h : Strings key base nel m texts sought)
    (harranged : Arranged base nel 8 m m') (hp : Passed key base nel 8 p) :
    Aside base nel m (readLE m' p 8) (textAt m (readLE m' p 8)) := by
  rcases hp with rfl | ⟨k, hk, rfl⟩
  · rw [harranged.readLE_key (by have := h.size; omega) h.apart, textAt_eq h.sought.string]
    exact h.sought
  · exact h.aside (harranged.perm.mem_iff.mp (mem_elements.mpr ⟨k, hk, rfl⟩))

theorem Strings.compares (h : Strings key base nel m texts sought) :
    Compares key base nel 8 m (TextLe m) compareStrings := by
  intro m' own p q harranged hp hq
  have hp' := h.passed harranged hp
  have hq' := h.passed harranged hq
  rw [toInt_compareStrings own harranged.outside hp' hq', TextLe, TextLe, not_le, not_le]
  exact ⟨ByteOrder.diff_neg_iff hq'.string.ne_zero, ByteOrder.diff_pos_iff hp'.string.ne_zero⟩

theorem equal_textLe : Equal (TextLe m) p q ↔ textAt m p = textAt m q := by
  rw [← ByteOrder.key_inj]
  exact ⟨fun h => le_antisymm h.1 h.2, fun h => ⟨h.le, h.ge⟩⟩

end Strings

/-- **Sorting and searching strings.**  `qsort` with `strcmp` on the pointers leaves the
strings of the array in the order of their bytes, none lost and none changed, and
then `bsearch` finds a string if and only if it is one of them. -/
theorem sort_strings {key base : Addr} {nel : ℕ} {m : Memory} {texts : List (List Byte)}
    {sought : List Byte} (h : Strings key base nel m texts sought) :
    ∃ s₁ log₁ p s₂ log₂ sorted,
      (qsort base nel 8 compareStrings).run exec ⟨m, ()⟩ = some ((), s₁, log₁) ∧
      (bsearch key base nel 8 compareStrings).run exec s₁ = some (p, s₂, log₂) ∧
      SameOutside base (nel * 8) m s₁.mem ∧ s₂.mem = s₁.mem ∧
      List.Forall₂ (StringAt s₁.mem) (elements base nel 8 s₁.mem) sorted ∧
      sorted.Perm texts ∧ (sorted.map ByteOrder.key).Pairwise (· ≤ ·) ∧
      (sought ∈ texts →
        ∃ k < nel, p = ptrAdd base (k * 8) ∧ StringAt s₁.mem (readLE s₁.mem p 8) sought) ∧
      (sought ∉ texts → p = 0) := by
  have hranks : RanksArranged base nel 8 m (TextLe m) fun a b =>
      qsort2to3Adapter a b compareStrings := h.compares.ranks
  obtain ⟨s₁, log₁, hsort, hsorts⟩ :=
    qsortR_sorts_arranged (s := ⟨m, ()⟩) (by norm_num) h.size hranks
  obtain ⟨p, own, log₂, hrun, hfound, hnone⟩ :=
    Compares.searches (s := ⟨m, ()⟩) h.compares h.size h.apart hsorts
  -- the strings lie aside from the array, so the sort has not touched them
  have hstrings : ∀ v ∈ elements base nel 8 s₁.mem, StringAt s₁.mem v (textAt m v) :=
    fun v hv => (h.aside (hsorts.perm.mem_iff.mp hv)).stringAt hsorts.outside
  have hmem : (∃ v ∈ elements base nel 8 m, Equal (TextLe m) (readLE m key 8) v) ↔
      sought ∈ texts := by
    simp only [equal_textLe, textAt_eq h.sought.string, ← h.map_textAt, List.mem_map, eq_comm]
  rw [hmem] at hfound hnone
  refine ⟨s₁, log₁, p, _, log₂, (elements base nel 8 s₁.mem).map (textAt m), hsort, hrun,
    hsorts.outside, rfl, ?_, ?_, ?_, fun hin => ?_, hnone⟩
  · rw [List.forall₂_map_right_iff, List.forall₂_same]
    exact hstrings
  · rw [← h.map_textAt]
    exact hsorts.perm.map _
  · rw [List.map_map, List.pairwise_map]
    exact hsorts.sorted
  · obtain ⟨k, hk, rfl, heq⟩ := hfound hin
    refine ⟨k, hk, rfl, ?_⟩
    have htext := equal_textLe.mp heq
    rw [textAt_eq h.sought.string] at htext
    rw [htext]
    exact hstrings _ (mem_elements.mpr ⟨k, hk, rfl⟩)

/-- The strings `b` and `a`, and a pointer to the second to search for. -/
theorem sort_strings_two :
    let m : Memory := fun a => if a = 0x1000 then 2 else
      if a = 0x1001 ∨ a = 0x1009 ∨ a = 0x1801 then 0x20 else
      if a = 0x2000 then 97 else if a = 0x2002 then 98 else 0
    ∃ s₁ log₁ p s₂ log₂, (qsort 0x1000 2 8 compareStrings).run exec ⟨m, ()⟩ = some ((), s₁, log₁) ∧
      (bsearch 0x1800 0x1000 2 8 compareStrings).run exec s₁ = some (p, s₂, log₂) ∧
      ∃ k < 2, p = ptrAdd 0x1000 (k * 8) := by
  intro m
  have hpointers : elements 0x1000 2 8 m = [0x2002, 0x2000] := by decide +kernel
  have hkey : readLE m 0x1800 8 = 0x2000 := by decide +kernel
  have ha : Aside 0x1000 2 m 0x2000 [97] := ⟨⟨rfl, by decide, rfl⟩, by decide, by decide⟩
  have hb : Aside 0x1000 2 m 0x2002 [98] := ⟨⟨rfl, by decide, rfl⟩, by decide, by decide⟩
  have h : Strings 0x1800 0x1000 2 m [[98], [97]] [97] :=
    { texts := by
        rw [hpointers]
        exact .cons hb (.cons ha .nil)
      sought := by rwa [hkey]
      apart := separate_of_add_le (by decide) (by decide)
      size := by norm_num }
  obtain ⟨s₁, log₁, p, s₂, log₂, -, hsort, hrun, -, -, -, -, -, hfound, -⟩ := sort_strings h
  obtain ⟨k, hk, hp, -⟩ := hfound (by simp)
  exact ⟨s₁, log₁, p, s₂, log₂, hsort, hrun, k, hk, hp⟩

end Mytilus.Stdlib.Sort
