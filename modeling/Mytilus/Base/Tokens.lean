import Mytilus.Base.Fields

/-!
# Tokens of a list

A search takes one token of a list after the other.  Each step has a separator
test of its own: it skips the separators at the position where the search
resumes, and the elements up to the next separator are the token.  The search
resumes behind that separator, and is over when there is none.

`Searched` says what each step must have found, by what the elements of the list
are, and `tokens_searched` that the search finds just that; a search that is over
finds nothing more (`tokens_none`).

With one test for all steps the tokens are the fields of the list that are not
empty, at their places: `tokens_replicate`, by way of `placedRuns_drop`, which is one
step.
-/

namespace Tokens

variable {α : Type*}

/-- The first position from `k` on whose element fails the test, or the end. -/
def skip (p : α → Bool) (l : List α) (k : ℕ) : ℕ := k + ((l.drop k).takeWhile p).length

/-- The token a search finds, as its first position and the one behind its last,
and the position where the search resumes. -/
def next (p : α → Bool) (l : List α) : Option ℕ → Option (ℕ × ℕ) × Option ℕ
  | none => (none, none)
  | some k =>
      let first := skip p l k
      let last := skip (fun x => !p x) l first
      if first < l.length then
        (some (first, last), if last < l.length then some (last + 1) else none)
      else
        (none, none)

/-- The tokens a search finds with one separator test after the other. -/
def tokens (l : List α) : Option ℕ → List (α → Bool) → List (Option (ℕ × ℕ))
  | _, [] => []
  | pos, p :: ps => (next p l pos).1 :: tokens l (next p l pos).2 ps

/-- The elements of a token. -/
def text (l : List α) (token : ℕ × ℕ) : List α := (l.drop token.1).take (token.2 - token.1)

/-- Each token is the maximal run of elements that are no separators which starts
at the first such element from the resume position on.  There is none when only
separators are left there, and the search is over when no separator ends the
token. -/
def Searched (l : List α) : Option ℕ → List (α → Bool) → List (Option (ℕ × ℕ)) → Prop
  | _, [], ts => ts = []
  | _, _ :: _, [] => False
  | none, _ :: ps, t :: ts => t = none ∧ Searched l none ps ts
  | some k, p :: ps, none :: ts => (∀ x ∈ l.drop k, p x = true) ∧ Searched l none ps ts
  | some k, p :: ps, some (first, last) :: ts =>
      (k ≤ first ∧ first < last ∧ last ≤ l.length ∧ (∀ x ∈ text l (k, first), p x = true) ∧
        (∀ x ∈ text l (first, last), p x = false) ∧ ∀ x ∈ l[last]?, p x = true) ∧
      Searched l (if last < l.length then some (last + 1) else none) ps ts

/-- The fields with their positions, from position `k` on: each starts behind the
separator that ends the one before. -/
def placed : ℕ → List (List α) → List (ℕ × List α)
  | _, [] => []
  | k, field :: fields => (k, field) :: placed (k + field.length + 1) fields

/-- The fields of a list that are not empty. -/
def placedRuns (p : α → Bool) (k : ℕ) (l : List α) : List (ℕ × List α) :=
  (placed k (l.splitOnP p)).filter fun f => !f.2.isEmpty

/-- A field as a token. -/
def tokenOf (f : ℕ × List α) : ℕ × ℕ := (f.1, f.1 + f.2.length)

variable {p : α → Bool} {l : List α} {k : ℕ}

/-! ## Skipping -/

theorem le_skip (p : α → Bool) (l : List α) (k : ℕ) : k ≤ skip p l k := Nat.le_add_right ..

theorem skip_le (hk : k ≤ l.length) : skip p l k ≤ l.length := by
  have hle := (List.takeWhile_prefix p (l := l.drop k)).length_le
  rw [List.length_drop] at hle
  unfold skip
  omega

theorem drop_skip (p : α → Bool) (l : List α) (k : ℕ) :
    l.drop (skip p l k) = (l.drop k).dropWhile p := by
  have hsplit := List.takeWhile_append_dropWhile (p := p) (l := l.drop k)
  calc l.drop (skip p l k) = (l.drop k).drop ((l.drop k).takeWhile p).length := by
        rw [skip, List.drop_drop]
    _ = ((l.drop k).takeWhile p ++ (l.drop k).dropWhile p).drop
          ((l.drop k).takeWhile p).length := by rw [hsplit]
    _ = (l.drop k).dropWhile p := List.drop_left

theorem drop_eq_append (p : α → Bool) (l : List α) (k : ℕ) :
    l.drop k = (l.drop k).takeWhile p ++ l.drop (skip p l k) := by
  rw [drop_skip, List.takeWhile_append_dropWhile]

/-- A search that skips to before the end stops at an element that fails the test. -/
theorem drop_skip_eq_cons (h : skip p l k < l.length) :
    ∃ b, p b = false ∧ l.drop (skip p l k) = b :: l.drop (skip p l k + 1) := by
  refine ⟨l[skip p l k], ?_, List.drop_eq_getElem_cons h⟩
  have hpos : 0 < ((l.drop k).dropWhile p).length := by
    rw [← drop_skip, List.length_drop]
    omega
  have hhead := List.dropWhile_get_zero_not p (l.drop k) hpos
  simpa [← drop_skip] using hhead

/-- Only elements that pass the test are left when the search skips to the end. -/
theorem all_of_length_le_skip (h : l.length ≤ skip p l k) : ∀ x ∈ l.drop k, p x = true := by
  have hall : l.drop k = (l.drop k).takeWhile p := by
    have hsplit := drop_eq_append p l k
    rwa [List.drop_eq_nil_of_le h, List.append_nil] at hsplit
  rw [hall]
  exact fun x hx => List.mem_takeWhile_imp hx

theorem length_le_skip_iff : l.length ≤ skip p l k ↔ ∀ x ∈ l.drop k, p x = true := by
  refine ⟨all_of_length_le_skip, fun hall => ?_⟩
  rw [skip, List.takeWhile_eq_self_iff.mpr hall, List.length_drop]
  omega

theorem length_text {first last : ℕ} (h : last ≤ l.length) :
    (text l (first, last)).length = last - first := by
  rw [text, List.length_take, List.length_drop]
  omega

theorem drop_eq_text_append (l : List α) {first last : ℕ} (h : first ≤ last) :
    l.drop first = text l (first, last) ++ l.drop last := by
  have hsplit := (List.take_append_drop (last - first) (l.drop first)).symm
  rwa [List.drop_drop, Nat.add_sub_cancel' h] at hsplit

/-! ## One token -/

/-- Every element of the list behind the resume position is a separator exactly
when there is no token. -/
theorem next_eq_none_iff : (next p l (some k)).1 = none ↔ ∀ x ∈ l.drop k, p x = true := by
  rw [← length_le_skip_iff]
  by_cases h : skip p l k < l.length
  · simp [next, h]
  · simp [next, h, not_lt.mp h]

theorem next_of_length_le (h : l.length ≤ skip p l k) : next p l (some k) = (none, none) := by
  rw [next]
  exact if_neg (not_lt.mpr h)

theorem next_of_lt (h : skip p l k < l.length) : next p l (some k) =
    (some (skip p l k, skip (fun x => !p x) l (skip p l k)),
      if skip (fun x => !p x) l (skip p l k) < l.length then
        some (skip (fun x => !p x) l (skip p l k) + 1) else none) := by
  rw [next]
  exact if_pos h

theorem text_eq_takeWhile (p : α → Bool) (l : List α) (k : ℕ) :
    text l (k, skip p l k) = (l.drop k).takeWhile p := by
  have hsplit := List.takeWhile_append_dropWhile (p := p) (l := l.drop k)
  calc text l (k, skip p l k) = (l.drop k).take ((l.drop k).takeWhile p).length := by
        rw [text, skip, Nat.add_sub_cancel_left]
    _ = ((l.drop k).takeWhile p ++ (l.drop k).dropWhile p).take
          ((l.drop k).takeWhile p).length := by rw [hsplit]
    _ = (l.drop k).takeWhile p := List.take_left

/-- A token is a maximal run of elements that are no separators, and the first
one from the resume position on. -/
theorem next_eq_some {first last : ℕ} (h : (next p l (some k)).1 = some (first, last)) :
    k ≤ first ∧ first < last ∧ last ≤ l.length ∧
    (∀ x ∈ text l (k, first), p x = true) ∧ (∀ x ∈ text l (first, last), p x = false) ∧
    ∀ x ∈ l[last]?, p x = true := by
  rcases Nat.lt_or_ge (skip p l k) l.length with hlt | hge
  · rw [next_of_lt hlt] at h
    obtain ⟨rfl, rfl⟩ : skip p l k = first ∧ skip (fun x => !p x) l (skip p l k) = last := by
      simpa using h
    obtain ⟨b, hb, hdrop⟩ := drop_skip_eq_cons hlt
    refine ⟨le_skip p l k, ?_, skip_le hlt.le, ?_, ?_, ?_⟩
    · change _ < skip p l k + ((l.drop (skip p l k)).takeWhile fun x => !p x).length
      rw [hdrop, List.takeWhile_cons, hb]
      exact Nat.lt_add_of_pos_right (Nat.succ_pos _)
    · rw [text_eq_takeWhile]
      exact fun x hx => List.mem_takeWhile_imp hx
    · rw [text_eq_takeWhile]
      intro x hx
      simpa using List.mem_takeWhile_imp hx
    · intro x hx
      have hlast : skip (fun x => !p x) l (skip p l k) < l.length :=
        (List.getElem?_eq_some_iff.mp hx).1
      obtain ⟨c, hc, hdrop'⟩ := drop_skip_eq_cons hlast
      have hget : l[skip (fun x => !p x) l (skip p l k)]? = some c := by
        rw [← List.head?_drop, hdrop', List.head?_cons]
      obtain rfl : c = x := Option.some.inj (hget.symm.trans hx)
      simpa using hc
  · rw [next_of_length_le hge] at h
    nomatch h

theorem next_none_resume (h : (next p l (some k)).1 = none) : (next p l (some k)).2 = none := by
  rw [next_of_length_le (length_le_skip_iff.mpr (next_eq_none_iff.mp h))]

theorem next_some_resume {first last : ℕ} (h : (next p l (some k)).1 = some (first, last)) :
    (next p l (some k)).2 = if last < l.length then some (last + 1) else none := by
  rcases Nat.lt_or_ge (skip p l k) l.length with hlt | hge
  · rw [next_of_lt hlt] at h ⊢
    obtain ⟨-, rfl⟩ : skip p l k = first ∧ skip (fun x => !p x) l (skip p l k) = last := by
      simpa using h
    rfl
  · rw [next_of_length_le hge] at h
    nomatch h

/-- The search resumes behind the separator that ends the token. -/
theorem next_resume {k' : ℕ} (h : (next p l (some k)).2 = some k') :
    ∃ first last, (next p l (some k)).1 = some (first, last) ∧ last < l.length ∧ k' = last + 1 := by
  cases htoken : (next p l (some k)).1 with
  | none =>
      rw [next_none_resume htoken] at h
      nomatch h
  | some token =>
      obtain ⟨first, last⟩ := token
      rw [next_some_resume htoken] at h
      split_ifs at h with hlast
      exact ⟨first, last, rfl, hlast, (Option.some.inj h).symm⟩

/-! ## All tokens -/

theorem tokens_searched (l : List α) (pos : Option ℕ) (ps : List (α → Bool)) :
    Searched l pos ps (tokens l pos ps) := by
  induction ps generalizing pos with
  | nil => rfl
  | cons p ps ih =>
      cases pos with
      | none => exact ⟨rfl, ih none⟩
      | some k =>
          rw [tokens]
          cases htoken : (next p l (some k)).1 with
          | none =>
              refine ⟨next_eq_none_iff.mp htoken, ?_⟩
              rw [next_none_resume htoken]
              exact ih none
          | some token =>
              obtain ⟨first, last⟩ := token
              refine ⟨next_eq_some htoken, ?_⟩
              rw [next_some_resume htoken]
              exact ih _

/-- A search that is over stays over. -/
theorem tokens_none (l : List α) (ps : List (α → Bool)) :
    tokens l none ps = List.replicate ps.length none := by
  induction ps with
  | nil => rfl
  | cons p ps ih =>
      rw [tokens, List.length_cons, List.replicate_succ]
      exact congrArg (none :: ·) ih

/-- The tokens are behind the position where the search starts. -/
theorem tokens_bounds {pos : Option ℕ} {ps : List (α → Bool)} {first last : ℕ}
    (h : some (first, last) ∈ tokens l pos ps) :
    (∀ k ∈ pos, k ≤ first) ∧ pos.isSome ∧ first < last ∧ last ≤ l.length := by
  induction ps generalizing pos with
  | nil => nomatch h
  | cons p ps ih =>
      cases pos with
      | none =>
          rw [tokens_none] at h
          have hnone := List.eq_of_mem_replicate h
          nomatch hnone
      | some k =>
          rcases List.mem_cons.mp h with hhead | htail
          · obtain ⟨hle, hlt, hlast, -⟩ := next_eq_some hhead.symm
            exact ⟨fun k' hk' => Option.some.inj hk' ▸ hle, rfl, hlt, hlast⟩
          · -- a later token starts behind the separator that ends this one
            obtain ⟨hle, hsome, hlt, hlast⟩ := ih htail
            obtain ⟨k', hk'⟩ := Option.isSome_iff_exists.mp hsome
            obtain ⟨first', last', htoken, -, rfl⟩ := next_resume hk'
            obtain ⟨hle', hlt', -⟩ := next_eq_some htoken
            have hbehind := hle _ hk'
            exact ⟨fun k'' hk'' => by obtain rfl := Option.some.inj hk''; omega, rfl, hlt, hlast⟩

/-! ## The same separators in all steps -/

section Placed

@[simp] theorem map_snd_placed (k : ℕ) (fields : List (List α)) :
    (placed k fields).map Prod.snd = fields := by
  induction fields generalizing k with
  | nil => rfl
  | cons field fields ih => simp [placed, ih]

theorem map_snd_placedRuns (p : α → Bool) (k : ℕ) (l : List α) :
    (placedRuns p k l).map Prod.snd = Fields.runs p l := by
  unfold placedRuns Fields.runs
  conv_rhs => rw [← map_snd_placed k (l.splitOnP p)]
  rw [List.filter_map]
  rfl

theorem length_placedRuns (p : α → Bool) (k : ℕ) (l : List α) :
    (placedRuns p k l).length = (Fields.runs p l).length := by
  rw [← map_snd_placedRuns p k l, List.length_map]

theorem placedRuns_cons_of_pos {b : α} (hb : p b = true) (k : ℕ) (l : List α) :
    placedRuns p k (b :: l) = placedRuns p (k + 1) l := by
  rw [placedRuns, List.splitOnP_cons_eq_if_modifyHead, if_pos hb]
  rfl

/-- Separators at the front only move what is behind them. -/
theorem placedRuns_append_of_all (h : ∀ x ∈ l, p x = true) (k : ℕ) (l' : List α) :
    placedRuns p k (l ++ l') = placedRuns p (k + l.length) l' := by
  induction l generalizing k with
  | nil => rfl
  | cons x l ih =>
      obtain ⟨hx, hrest⟩ := List.forall_mem_cons.mp h
      rw [List.cons_append, placedRuns_cons_of_pos hx, ih hrest, List.length_cons,
        Nat.add_right_comm, Nat.add_assoc]

theorem placedRuns_of_all (h : ∀ x ∈ l, p x = true) (k : ℕ) : placedRuns p k l = [] := by
  have happend := placedRuns_append_of_all h k []
  rw [List.append_nil] at happend
  exact happend.trans rfl

theorem placedRuns_of_none (h : ∀ x ∈ l, p x = false) (hl : l ≠ []) (k : ℕ) :
    placedRuns p k l = [(k, l)] := by
  rw [placedRuns, List.splitOnP_eq_singleton h]
  simp [placed, hl]

theorem placedRuns_of_first {field rest : List α} {b : α} (h : ∀ x ∈ field, p x = false)
    (hb : p b = true) (hfield : field ≠ []) (k : ℕ) :
    placedRuns p k (field ++ b :: rest) =
      (k, field) :: placedRuns p (k + field.length + 1) rest := by
  rw [placedRuns, List.splitOnP_append_cons_of_forall_mem h b hb]
  simp [placedRuns, placed, hfield]

/-- The first token is the first field that is not empty. -/
theorem placedRuns_drop (h : skip p l k < l.length) : placedRuns p k (l.drop k) =
    (skip p l k, text l (skip p l k, skip (fun x => !p x) l (skip p l k))) ::
      placedRuns p (skip (fun x => !p x) l (skip p l k) + 1)
        (l.drop (skip (fun x => !p x) l (skip p l k) + 1)) := by
  obtain ⟨b, hb, hdrop⟩ := drop_skip_eq_cons h
  have hskip : placedRuns p k (l.drop k) = placedRuns p (skip p l k) (l.drop (skip p l k)) := by
    rw [drop_eq_append p l k, placedRuns_append_of_all fun x hx => List.mem_takeWhile_imp hx]
    rfl
  rw [hskip, text_eq_takeWhile]
  have hfield : ∀ x ∈ (l.drop (skip p l k)).takeWhile fun x => !p x, p x = false := by
    intro x hx
    simpa using List.mem_takeWhile_imp hx
  have hne : (l.drop (skip p l k)).takeWhile (fun x => !p x) ≠ [] := by
    rw [hdrop, List.takeWhile_cons, hb]
    exact List.cons_ne_nil _ _
  have hsplit := drop_eq_append (fun x => !p x) l (skip p l k)
  -- a separator ends the token, or the list does
  rcases Nat.lt_or_ge (skip (fun x => !p x) l (skip p l k)) l.length with hlt | hge
  · obtain ⟨c, hc, hrest⟩ := drop_skip_eq_cons hlt
    rw [hrest] at hsplit
    conv_lhs => rw [hsplit]
    exact placedRuns_of_first hfield (by simpa using hc) hne _
  · rw [List.drop_eq_nil_of_le hge, List.append_nil] at hsplit
    conv_lhs => rw [hsplit]
    have hnil : l.drop (skip (fun x => !p x) l (skip p l k) + 1) = [] :=
      List.drop_eq_nil_of_le (hge.trans (Nat.le_succ _))
    rw [placedRuns_of_none hfield hne, hnil]
    rfl

/-- **With one test the tokens are the fields that are not empty, where they are.** -/
theorem tokens_replicate (p : α → Bool) (l : List α) (k n : ℕ) :
    tokens l (some k) (List.replicate n p) =
      ((placedRuns p k (l.drop k)).map fun f => some (tokenOf f)).take n ++
        List.replicate (n - (placedRuns p k (l.drop k)).length) none := by
  induction n generalizing k with
  | zero => simp [tokens]
  | succ n ih =>
      rw [List.replicate_succ, tokens]
      rcases Nat.lt_or_ge (skip p l k) l.length with hlt | hge
      · have hlast : skip (fun x => !p x) l (skip p l k) ≤ l.length := skip_le hlt.le
        have htoken :
            tokenOf (skip p l k, text l (skip p l k, skip (fun x => !p x) l (skip p l k))) =
              (skip p l k, skip (fun x => !p x) l (skip p l k)) := by
          rw [tokenOf, length_text hlast, Nat.add_sub_cancel' (le_skip _ _ _)]
        rw [next_of_lt hlt, placedRuns_drop hlt, List.map_cons, htoken]
        split_ifs with hmore
        · simp [ih]
        · rw [List.drop_eq_nil_of_le (not_lt.mp hmore |>.trans (Nat.le_succ _)), tokens_none]
          simp [placedRuns_of_all]
      · rw [next_of_length_le hge, placedRuns_of_all (all_of_length_le_skip hge), tokens_none]
        simp [List.replicate_succ]

/-- A field is the text of its token. -/
theorem text_tokenOf {f : ℕ × List α} (hf : f ∈ placedRuns p k (l.drop k)) :
    text l (tokenOf f) = f.2 := by
  -- on what is left of the list
  induction hrest : l.length - k using Nat.strong_induction_on generalizing k with
  | _ rest ih =>
      rcases Nat.lt_or_ge (skip p l k) l.length with hlt | hge
      · have hlast : skip (fun x => !p x) l (skip p l k) ≤ l.length := skip_le hlt.le
        have hle := le_skip p l k
        have hle' := le_skip (fun x => !p x) l (skip p l k)
        rw [placedRuns_drop hlt] at hf
        rcases List.mem_cons.mp hf with rfl | htail
        · rw [tokenOf, length_text hlast, Nat.add_sub_cancel' hle']
        · exact ih _ (by omega) htail rfl
      · rw [placedRuns_of_all (all_of_length_le_skip hge)] at hf
        nomatch hf

/-- With one test the tokens are the runs of the list, in order. -/
theorem map_text_tokens (p : α → Bool) (l : List α) (k n : ℕ) :
    (tokens l (some k) (List.replicate n p)).map (Option.map (text l)) =
      ((Fields.runs p (l.drop k)).map some).take n ++
        List.replicate (n - (Fields.runs p (l.drop k)).length) none := by
  have htexts : (placedRuns p k (l.drop k)).map (fun f => some (text l (tokenOf f))) =
      (Fields.runs p (l.drop k)).map some := by
    rw [← map_snd_placedRuns p k, List.map_map]
    exact List.map_congr_left fun f hf => congrArg some (text_tokenOf hf)
  rw [tokens_replicate, List.map_append, List.map_take, List.map_map, List.map_replicate,
    ← htexts, length_placedRuns]
  rfl

end Placed

end Tokens
