import Mathlib.Data.List.TakeWhile
import Mathlib.Tactic

/-!
# Fields of a list

A list cut at every element that satisfies `p`: one field more than there are
such elements, none of them in a field.  The fields that are not empty are the
maximal runs of the other elements.
-/

namespace Fields

variable {α : Type*} (p : α → Bool)

/-- A list has no separator, or a first one. -/
theorem cases_first (l : List α) : (∀ x ∈ l, p x = false) ∨
    ∃ field b rest, l = field ++ b :: rest ∧ (∀ x ∈ field, p x = false) ∧ p b = true := by
  induction l with
  | nil => exact .inl nofun
  | cons x l ih =>
      cases hx : p x with
      | true => exact .inr ⟨[], x, l, rfl, nofun, hx⟩
      | false =>
          rcases ih with hnone | ⟨field, b, rest, rfl, hfield, hb⟩
          · exact .inl (List.forall_mem_cons.mpr ⟨hx, hnone⟩)
          · exact .inr ⟨x :: field, b, rest, rfl, List.forall_mem_cons.mpr ⟨hx, hfield⟩, hb⟩

variable {p}

theorem takeWhile_of_none {l : List α} (h : ∀ x ∈ l, p x = false) :
    (l.takeWhile fun x => !p x) = l :=
  List.takeWhile_eq_self_iff.mpr fun x hx => by rw [h x hx, Bool.not_false]

theorem takeWhile_of_first {field rest : List α} {b : α} (h : ∀ x ∈ field, p x = false)
    (hb : p b = true) : ((field ++ b :: rest).takeWhile fun x => !p x) = field := by
  rw [List.takeWhile_append_of_pos fun x hx => by rw [h x hx, Bool.not_false], List.takeWhile_cons,
    hb, Bool.not_true, if_neg Bool.false_ne_true, List.append_nil]

theorem countP_of_first {field rest : List α} {b : α} (h : ∀ x ∈ field, p x = false)
    (hb : p b = true) : (field ++ b :: rest).countP p = rest.countP p + 1 := by
  have hnone : field.countP p = 0 :=
    List.countP_eq_zero.mpr fun x hx => by rw [h x hx]; exact Bool.false_ne_true
  rw [List.countP_append, hnone, Nat.zero_add, List.countP_cons_of_pos hb]

/-- There is one field more than there are separators. -/
theorem length_splitOnP (l : List α) : (l.splitOnP p).length = l.countP p + 1 := by
  induction l with
  | nil => rfl
  | cons x l ih =>
      rw [List.splitOnP_cons_eq_if_modifyHead]
      cases hx : p x with
      | true => rw [if_pos rfl, List.length_cons, ih, List.countP_cons_of_pos hx]
      | false =>
          rw [if_neg Bool.false_ne_true, List.length_modifyHead, ih,
            List.countP_cons_of_neg (by rw [hx]; exact Bool.false_ne_true)]

/-- Induction over the fields of a list. -/
theorem induction_fields {P : List α → Prop} (last : ∀ l, (∀ x ∈ l, p x = false) → P l)
    (first : ∀ field b rest, (∀ x ∈ field, p x = false) → p b = true → P rest →
      P (field ++ b :: rest)) (l : List α) : P l := by
  induction hn : l.length using Nat.strong_induction_on generalizing l with
  | _ n ih =>
      rcases cases_first p l with hnone | ⟨field, b, rest, rfl, hfield, hb⟩
      · exact last l hnone
      · have hlt : rest.length < n := by
          rw [← hn, List.length_append, List.length_cons]
          omega
        exact first field b rest hfield hb (ih _ hlt rest rfl)

/-- No field contains a separator. -/
theorem eq_false_of_mem_splitOnP (l : List α) :
    ∀ field ∈ l.splitOnP p, ∀ x ∈ field, p x = false := by
  induction l using induction_fields (p := p) with
  | last l hnone =>
      rw [List.splitOnP_eq_singleton hnone]
      exact List.forall_mem_singleton.mpr hnone
  | first field b rest hfield hb ih =>
      rw [List.splitOnP_append_cons_of_forall_mem hfield b hb]
      exact List.forall_mem_cons.mpr ⟨hfield, ih⟩

/-! ## Joined fields -/

/-- A field, and others behind a separator each. -/
def joined (first : List α) (rest : List (α × List α)) : List α :=
  first ++ rest.flatMap fun q => q.1 :: q.2

/-- Fields without a separator in them are those of the list they are joined to. -/
theorem splitOnP_joined {first : List α} {rest : List (α × List α)}
    (hfirst : ∀ x ∈ first, p x = false)
    (hrest : ∀ q ∈ rest, p q.1 = true ∧ ∀ x ∈ q.2, p x = false) :
    (joined first rest).splitOnP p = first :: rest.map Prod.snd := by
  induction rest generalizing first with
  | nil =>
      rw [joined, List.flatMap_nil, List.append_nil]
      exact List.splitOnP_eq_singleton hfirst
  | cons q rest ih =>
      obtain ⟨⟨hsep, hfield⟩, hrest⟩ := List.forall_mem_cons.mp hrest
      calc (joined first (q :: rest)).splitOnP p
          = (first ++ q.1 :: joined q.2 rest).splitOnP p := rfl
        _ = first :: (joined q.2 rest).splitOnP p :=
          List.splitOnP_append_cons_of_forall_mem hfirst q.1 hsep _
        _ = first :: (q :: rest).map Prod.snd := by rw [ih hfield hrest, List.map_cons]

/-! ## Runs -/

variable (p) in
/-- The fields that are not empty: the maximal runs of elements that are no
separators. -/
def runs (l : List α) : List (List α) := (l.splitOnP p).filter fun field => !field.isEmpty

/-! ## The first separators -/

variable (p) in
/-- One of the first `k` separators of the list is at position `i`. -/
def AmongFirst (k : ℕ) (l : List α) (i : ℕ) : Prop :=
  ∃ b, l[i]? = some b ∧ p b = true ∧ (l.take i).countP p < k

theorem AmongFirst.lt_length {k i : ℕ} {l : List α} (h : AmongFirst p k l i) : i < l.length := by
  obtain ⟨b, hget, -, -⟩ := h
  exact (List.getElem?_eq_some_iff.mp hget).1

theorem not_amongFirst_zero (l : List α) (i : ℕ) : ¬ AmongFirst p 0 l i := by
  rintro ⟨b, -, -, hlt⟩
  exact Nat.not_lt_zero _ hlt

theorem not_amongFirst_of_none {l : List α} (h : ∀ x ∈ l, p x = false) (k i : ℕ) :
    ¬ AmongFirst p k l i := by
  rintro ⟨b, hget, hb, -⟩
  rw [h b (List.mem_of_getElem? hget)] at hb
  exact Bool.false_ne_true hb

/-- The first separators are the one that ends the first field, and the first
ones of the rest. -/
theorem amongFirst_succ {field rest : List α} {b : α} (h : ∀ x ∈ field, p x = false)
    (hb : p b = true) (k i : ℕ) : AmongFirst p (k + 1) (field ++ b :: rest) i ↔
      i = field.length ∨ ∃ j, i = field.length + 1 + j ∧ AmongFirst p k rest j := by
  have hnone : field.countP p = 0 :=
    List.countP_eq_zero.mpr fun x hx => by rw [h x hx]; exact Bool.false_ne_true
  -- inside the field, at its end, and behind it
  rcases lt_trichotomy i field.length with hlt | rfl | hgt
  · refine ⟨?_, by rintro (rfl | ⟨j, rfl, -⟩) <;> omega⟩
    rintro ⟨x, hget, hx, -⟩
    rw [List.getElem?_append_left hlt] at hget
    rw [h x (List.mem_of_getElem? hget)] at hx
    exact absurd hx Bool.false_ne_true
  · refine ⟨fun _ => .inl rfl, fun _ => ⟨b, ?_, hb, ?_⟩⟩
    · rw [List.getElem?_append_right le_rfl, Nat.sub_self, List.getElem?_cons_zero]
    · rw [List.take_left', hnone]
      · exact Nat.succ_pos k
      · rfl
  · obtain ⟨j, rfl⟩ := Nat.exists_eq_add_of_lt hgt
    have hcount : ((field ++ b :: rest).take (field.length + j + 1)).countP p =
        (rest.take j).countP p + 1 := by
      rw [Nat.add_assoc, List.take_length_add_append, List.take_succ_cons, countP_of_first h hb]
    have hget : (field ++ b :: rest)[field.length + j + 1]? = rest[j]? := by
      rw [List.getElem?_append_right (by omega), Nat.add_assoc, Nat.add_sub_cancel_left,
        List.getElem?_cons_succ]
    have hiff : AmongFirst p (k + 1) (field ++ b :: rest) (field.length + j + 1) ↔
        AmongFirst p k rest j := by
      simp only [AmongFirst, hcount, hget, Nat.add_lt_add_iff_right]
    rw [hiff]
    constructor
    · exact fun hj => .inr ⟨j, by omega, hj⟩
    · rintro (heq | ⟨j', heq, hj'⟩)
      · omega
      · obtain rfl : j = j' := by omega
        exact hj'

/-! ## Prefixes -/

/-- The longest prefix of `l` in `p` has `k` elements. -/
structure LongestPrefix (p : α → Prop) (l : List α) (k : ℕ) : Prop where
  le : k ≤ l.length
  all : ∀ x ∈ l.take k, p x
  longest : ∀ j ≤ l.length, (∀ x ∈ l.take j, p x) → j ≤ k

theorem longestPrefix_takeWhile (p : α → Prop) [DecidablePred p] (l : List α) :
    LongestPrefix p l (l.takeWhile fun x => decide (p x)).length := by
  induction l with
  | nil => exact ⟨le_rfl, by simp, fun j hj _ => hj⟩
  | cons x l ih =>
      by_cases hx : p x
      · rw [List.takeWhile_cons, decide_eq_true hx, if_pos rfl, List.length_cons]
        refine ⟨Nat.succ_le_succ ih.le, List.forall_mem_cons.mpr ⟨hx, ih.all⟩, fun j hj hall => ?_⟩
        cases j with
        | zero => exact Nat.zero_le _
        | succ j =>
            exact Nat.succ_le_succ (ih.longest j (Nat.le_of_succ_le_succ hj)
              (List.forall_mem_cons.mp hall).2)
      · rw [List.takeWhile_cons, decide_eq_false hx, if_neg Bool.false_ne_true, List.length_nil]
        refine ⟨Nat.zero_le _, by simp, fun j _ hall => ?_⟩
        cases j with
        | zero => exact le_rfl
        | succ j => exact absurd (List.forall_mem_cons.mp hall).1 hx

/-- After the longest prefix comes an element outside, or the end. -/
theorem LongestPrefix.next {p : α → Prop} {l : List α} {k : ℕ} (h : LongestPrefix p l k) {x : α}
    (hx : l[k]? = some x) : ¬ p x := by
  intro hp
  obtain ⟨hk, rfl⟩ := List.getElem?_eq_some_iff.mp hx
  have hnext := h.longest (k + 1) hk
  rw [List.take_succ_eq_append_getElem hk] at hnext
  refine absurd (hnext fun y hy => ?_) (Nat.not_succ_le_self k)
  rcases List.mem_append.mp hy with hy | hy
  · exact h.all y hy
  · exact List.mem_singleton.mp hy ▸ hp

/-! ## Places -/

/-- The first place of `b`. -/
def FirstAt (b : α) (l : List α) (k : ℕ) : Prop := l[k]? = some b ∧ ∀ j < k, l[j]? ≠ some b

/-- The last place of `b`. -/
def LastAt (b : α) (l : List α) (k : ℕ) : Prop := l[k]? = some b ∧ ∀ j, k < j → l[j]? ≠ some b

theorem FirstAt.unique {b : α} {l : List α} {k j : ℕ} (h : FirstAt b l k) (h' : FirstAt b l j) :
    k = j := by
  rcases lt_trichotomy k j with hlt | heq | hgt
  · exact absurd h.1 (h'.2 k hlt)
  · exact heq
  · exact absurd h'.1 (h.2 j hgt)

theorem LastAt.unique {b : α} {l : List α} {k j : ℕ} (h : LastAt b l k) (h' : LastAt b l j) :
    k = j := by
  rcases lt_trichotomy k j with hlt | heq | hgt
  · exact absurd h'.1 (h.2 j hlt)
  · exact heq
  · exact absurd h.1 (h'.2 k hgt)

theorem exists_firstAt {b : α} {l : List α} (h : b ∈ l) : ∃ k, FirstAt b l k := by
  classical
  have hplace : ∃ k, l[k]? = some b := List.mem_iff_getElem?.mp h
  exact ⟨Nat.find hplace, Nat.find_spec hplace, fun j hj => Nat.find_min hplace hj⟩

theorem FirstAt.append {b : α} {l : List α} {k : ℕ} (h : FirstAt b l k) (l' : List α) :
    FirstAt b (l ++ l') k := by
  obtain ⟨hk, -⟩ := List.getElem?_eq_some_iff.mp h.1
  have hsame : ∀ j ≤ k, (l ++ l')[j]? = l[j]? := fun j hj =>
    List.getElem?_append_left (by omega)
  refine ⟨(hsame k le_rfl).trans h.1, fun j hj => ?_⟩
  rw [hsame j hj.le]
  exact h.2 j hj

theorem firstAt_length {b : α} {l : List α} (h : b ∉ l) : FirstAt b (l ++ [b]) l.length := by
  refine ⟨List.getElem?_concat_length, fun j hj hb => h ?_⟩
  rw [List.getElem?_append_left hj] at hb
  exact List.mem_of_getElem? hb

theorem lastAt_length (b : α) (l : List α) : LastAt b (l ++ [b]) l.length := by
  refine ⟨List.getElem?_concat_length, fun j hj hb => ?_⟩
  obtain ⟨hlt, -⟩ := List.getElem?_eq_some_iff.mp hb
  rw [List.length_append, List.length_singleton] at hlt
  omega

/-- The first element that is not passed over is the first place of `b`. -/
theorem firstAt_of_takeWhile [DecidableEq α] {b : α} {l : List α}
    (hlt : (l.takeWhile fun x => decide (x ≠ b)).length < l.length) :
    FirstAt b l (l.takeWhile fun x => decide (x ≠ b)).length := by
  have hprefix := longestPrefix_takeWhile (· ≠ b) l
  have hbyte := hprefix.next (List.getElem?_eq_getElem hlt)
  rw [not_not] at hbyte
  refine ⟨(List.getElem?_eq_getElem hlt).trans (congrArg some hbyte), fun j hj hb => ?_⟩
  have hmem : b ∈ l.take (l.takeWhile fun x => decide (x ≠ b)).length :=
    List.mem_iff_getElem?.mpr ⟨j, by rw [List.getElem?_take_of_lt hj, hb]⟩
  exact hprefix.all b hmem rfl

theorem firstAt_of_idxOf? [DecidableEq α] {b : α} {l : List α} {k : ℕ}
    (h : l.idxOf? b = some k) : FirstAt b l k := by
  obtain ⟨hk, hb, hbefore⟩ := List.idxOf?_eq_some_iff.mp h
  refine ⟨(List.getElem?_eq_getElem hk).trans (congrArg some hb), fun j hj hjb => ?_⟩
  obtain ⟨_, hj'⟩ := List.getElem?_eq_some_iff.mp hjb
  exact hbefore j hj hj'

/-- The first element that satisfies `p` is the first that is not passed over. -/
theorem findIdx?_eq (p : α → Bool) (l : List α) :
    l.findIdx? p =
      if (l.takeWhile fun x => !p x).length < l.length then
        some (l.takeWhile fun x => !p x).length
      else
        none := by
  induction l with
  | nil => simp
  | cons x l ih => cases hx : p x <;> simp [List.findIdx?_cons, hx, ih, apply_ite]

/-- The last place of `b`, if there is one. -/
def lastIdxOf? [DecidableEq α] (b : α) (l : List α) : Option ℕ :=
  (l.reverse.idxOf? b).map fun k => l.length - 1 - k

theorem lastIdxOf?_eq_none_iff [DecidableEq α] {b : α} {l : List α} :
    lastIdxOf? b l = none ↔ b ∉ l := by
  simp [lastIdxOf?]

theorem lastAt_of_lastIdxOf? [DecidableEq α] {b : α} {l : List α} {k : ℕ}
    (h : lastIdxOf? b l = some k) : LastAt b l k := by
  obtain ⟨i, hi, rfl⟩ := Option.map_eq_some_iff.mp h
  obtain ⟨hlt, hb, hbefore⟩ := List.idxOf?_eq_some_iff.mp hi
  rw [List.length_reverse] at hlt
  rw [List.getElem_reverse] at hb
  refine ⟨(List.getElem?_eq_getElem (by omega)).trans (congrArg some hb), fun j hj hjb => ?_⟩
  obtain ⟨hjlt, hj'⟩ := List.getElem?_eq_some_iff.mp hjb
  have hplace : l.length - 1 - (l.length - 1 - j) = j := by omega
  refine hbefore (l.length - 1 - j) (by omega) ?_
  rw [List.getElem_reverse]
  simpa only [hplace] using hj'

/-! ## Occurrences -/

/-- The first place where `l₁` occurs, if there is one. -/
def occurs? [DecidableEq α] (l₁ l₂ : List α) : Option ℕ :=
  (List.range (l₂.length + 1)).find? fun k => decide (l₁ <+: l₂.drop k)


theorem infix_iff_exists_prefix_drop {l₁ l₂ : List α} : l₁ <:+: l₂ ↔ ∃ k, l₁ <+: l₂.drop k := by
  constructor
  · intro h
    obtain ⟨t, hprefix, hsuffix⟩ := List.infix_iff_prefix_suffix.mp h
    rw [List.suffix_iff_eq_drop.mp hsuffix] at hprefix
    exact ⟨_, hprefix⟩
  · rintro ⟨k, hprefix⟩
    exact hprefix.isInfix.trans (List.drop_suffix k l₂).isInfix

theorem occurs?_spec [DecidableEq α] {l₁ l₂ : List α} {k : ℕ} (h : occurs? l₁ l₂ = some k) :
    l₁ <+: l₂.drop k ∧ ∀ j < k, ¬ l₁ <+: l₂.drop j := by
  rw [occurs?, List.find?_range_eq_some] at h
  obtain ⟨hk, -, hbefore⟩ := h
  refine ⟨of_decide_eq_true hk, fun j hj hocc => ?_⟩
  simpa [hocc] using hbefore j hj

theorem occurs?_eq_none [DecidableEq α] {l₁ l₂ : List α} (h : occurs? l₁ l₂ = none) :
    ¬ l₁ <:+: l₂ := by
  rw [occurs?, List.find?_range_eq_none] at h
  intro hinfix
  obtain ⟨k, hk⟩ := infix_iff_exists_prefix_drop.mp hinfix
  rcases Nat.lt_or_ge k (l₂.length + 1) with hlt | hge
  · simpa [hk] using h k hlt
  · -- past the end only the empty list occurs, which also does at the front
    rw [List.drop_of_length_le (by omega), List.prefix_nil] at hk
    subst hk
    simpa using h 0 (Nat.succ_pos _)

end Fields
