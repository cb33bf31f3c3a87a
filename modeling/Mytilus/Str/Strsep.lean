import Mytilus.Base.Fields
import Mytilus.Str.Span

/-!
# `strsep`

Called again and again, `strsep` returns the fields of a string: the runs of
bytes between its separators, empty ones included, one more than there are
separators.  Each call but the last overwrites the separator that ends its
field, and nothing else of the string.

`Separable` is what the calls need of memory: the pointer, the string and the set are
apart.  One call on a string with a separator leaves what is behind it separable
(`Separable.advance`), so the calls go on field by field: `Separable.strsepCalls` is
the induction, and `strsep_tokens` what it comes to for any number of calls.
-/

namespace Mytilus.Str

open Memory Fields

/-! ## The function -/

/-- `*p` for `p : *mut *mut c_char` -/
def readPtr (m : Memory) (p : Addr) : Addr := readLE m p 8

/-- `*p = v` for `p : *mut *mut c_char` -/
def writePtr (m : Memory) (p v : Addr) : Memory := writeLE m p 8 v

/-- `char *strsep(char **str, const char *sep)` -/
def strsep (m : Memory) (str sep : Addr) : Option (Addr × Memory) :=
  let s := readPtr m str
  if s = 0 then
    some (0, m)
  else do
    let n ← strcspn m s sep
    let stop := s + n
    if m stop ≠ 0 then
      return (s, writePtr (m.write stop 0) str (ptrAdd stop 1))
    else
      return (s, writePtr m str 0)

/-- The results of `k` calls, and the memory after them. -/
def strsepCalls (str sep : Addr) : ℕ → Memory → Option (List Addr × Memory)
  | 0, m => some ([], m)
  | k + 1, m => do
      let (r, m) ← strsep m str sep
      let (rs, m) ← strsepCalls str sep k m
      return (r :: rs, m)

/-! ## One call -/

/-- The string `xs` is at `s`, where `str` points, and the separators `cs` are at
`sep`.  The string has no byte at the null address, shares no byte with the
separators, and neither overlaps the pointer at `str`. -/
structure Separable (m : Memory) (str s sep : Addr) (xs cs : List Byte) : Prop where
  at_str : readPtr m str = s
  string : StringAt m s xs
  set : StringAt m sep cs
  nonnull : ∀ i ≤ xs.length, ptrAdd s i ≠ 0
  apart : ∀ i < xs.length, ∀ j < cs.length, ptrAdd s i ≠ ptrAdd sep j
  str_string : Separate str 8 s (xs.length + 1)
  str_set : Separate str 8 sep (cs.length + 1)

section Calls

variable {m : Memory} {str s sep : Addr} {xs cs : List Byte}

theorem readPtr_writePtr (m : Memory) (p v : Addr) : readPtr (writePtr m p v) p = v :=
  readLE_writeLE_self (n := 8) m p v (by norm_num)

theorem writePtr_of_not_within (m : Memory) {p a : Addr} (v : Addr) (ha : ¬ Within p 8 a) :
    writePtr m p v a = m a :=
  writeLE_of_not_within m v ha

theorem strsep_null (h : readPtr m str = 0) : strsep m str sep = some (0, m) := by
  rw [strsep, h]
  exact if_pos rfl

/-- Is the byte a separator? -/
abbrev sepTest (cs : List Byte) (b : Byte) : Bool := decide (b ∈ cs)

theorem Separable.ne_zero (h : Separable m str s sep xs cs) : s ≠ 0 := by
  have hs := h.nonnull 0 (Nat.zero_le _)
  rwa [ptrAdd_zero] at hs

theorem Separable.strcspn (h : Separable m str s sep xs cs) : strcspn m s sep =
    some (BitVec.ofNat 64 (xs.takeWhile fun b => !sepTest cs b).length) := by
  rw [strcspn_eq h.string h.set]
  simp only [decide_not]

theorem Separable.not_within (h : Separable m str s sep xs cs) {i : ℕ} (hi : i ≤ xs.length) :
    ¬ Within str 8 (ptrAdd s i) := by
  have hlt := h.string.length_lt
  exact fun hin => h.str_string _ hin (within_ptrAdd (by omega) (by omega))

/-- Without a separator the whole string is the field, and the last one. -/
theorem Separable.strsep_last (h : Separable m str s sep xs cs)
    (hnone : ∀ x ∈ xs, sepTest cs x = false) : strsep m str sep = some (s, writePtr m str 0) := by
  have hend : m (s + BitVec.ofNat 64 xs.length) = 0 := h.string.nul
  rw [strsep, h.at_str, if_neg h.ne_zero, h.strcspn, takeWhile_of_none hnone]
  change (if _ then _ else _) = _
  rw [if_neg (not_not.mpr hend)]
  rfl

/-- A byte of the string other than one keeps its value where only that one is overwritten. -/
theorem Separable.read_eq {m₁ : Memory} {k : ℕ} (h : Separable m str s sep xs cs)
    (hkeep : ∀ a, ¬ Within str 8 a → a ≠ ptrAdd s k → m₁ a = m a) (hk : k ≤ xs.length) {i : ℕ}
    (hi : i ≤ xs.length) (hne : i ≠ k) : m₁ (ptrAdd s i) = m (ptrAdd s i) := by
  have hlt := h.string.length_lt
  exact hkeep _ (h.not_within hi) fun heq => hne ((ptrAdd_inj (by omega) (by omega)).mp heq)

/-- Once a byte other than the terminator is overwritten, and the pointer is behind it, what
is behind it can be separated further. -/
theorem Separable.advance {field rest : List Byte} {b : Byte} {m₁ : Memory}
    (h : Separable m str s sep (field ++ b :: rest) cs)
    (hat : readPtr m₁ str = ptrAdd s (field.length + 1))
    (hkeep : ∀ a, ¬ Within str 8 a → a ≠ ptrAdd s field.length → m₁ a = m a) :
    Separable m₁ str (ptrAdd s (field.length + 1)) sep rest cs := by
  have hlength : (field ++ b :: rest).length = field.length + (rest.length + 1) := by
    rw [List.length_append, List.length_cons]
  have hlt := h.string.length_lt
  -- the byte that is overwritten is the separator `b`
  have hstop : m (ptrAdd s field.length) = b := h.string.getElem? (by simp)
  have hbne : b ≠ 0 := h.string.ne_zero b (List.mem_append_right _ List.mem_cons_self)
  have hrest : StringAt m (ptrAdd s (field.length + 1)) rest := by
    have hsuffix : StringAt m (ptrAdd s (field ++ [b]).length) rest :=
      StringAt.suffix (by rw [List.append_assoc]; exact h.string)
    rwa [List.length_append] at hsuffix
  exact
    { at_str := hat
      string := hrest.congr fun i hi => by
        rw [ptrAdd_ptrAdd]
        exact h.read_eq hkeep (by omega) (by omega) (by omega)
      set := h.set.congr fun j hj => by
        have hsetlt := h.set.length_lt
        refine hkeep _ (fun hin => h.str_set _ hin (within_ptrAdd (by omega) (by omega))) ?_
        -- the byte that is cut is no separator byte, and it was not zero like the terminator
        intro heq
        rcases Nat.lt_or_eq_of_le hj with hlt' | rfl
        · exact h.apart _ (by omega) j hlt' heq.symm
        · rw [← heq, h.set.nul] at hstop
          exact hbne hstop.symm
      nonnull := fun i hi => by
        rw [ptrAdd_ptrAdd]
        exact h.nonnull _ (by omega)
      apart := fun i hi j hj => by
        rw [ptrAdd_ptrAdd]
        exact h.apart _ (by omega) j hj
      str_string := by
        have hpart := h.str_string.symm.parts (i := field.length + 1) (j := 0)
          (k := rest.length + 1) (l := 8) (by omega) (by omega) (by omega) (by omega)
        rw [ptrAdd_zero] at hpart
        exact hpart.symm
      str_set := h.str_set }

/-- The first separator ends the field, and the rest of the string is left. -/
theorem Separable.strsep_first {field rest : List Byte} {b : Byte}
    (h : Separable m str s sep (field ++ b :: rest) cs)
    (hfield : ∀ x ∈ field, sepTest cs x = false) (hb : sepTest cs b = true) :
    ∃ m₁, strsep m str sep = some (s, m₁) ∧
      Separable m₁ str (ptrAdd s (field.length + 1)) sep rest cs ∧ StringAt m₁ s field ∧
      m₁ (ptrAdd s field.length) = 0 ∧
      ∀ a, ¬ Within str 8 a → a ≠ ptrAdd s field.length → m₁ a = m a := by
  have hlength : (field ++ b :: rest).length = field.length + (rest.length + 1) := by
    rw [List.length_append, List.length_cons]
  have hstop : m (ptrAdd s field.length) ≠ 0 := by
    rw [h.string.getElem? (b := b) (by simp)]
    exact h.string.ne_zero b (List.mem_append_right _ List.mem_cons_self)
  obtain ⟨m₁, hm₁⟩ : ∃ m₁, m₁ = writePtr (m.write (ptrAdd s field.length) 0) str
    (ptrAdd (ptrAdd s field.length) 1) := ⟨_, rfl⟩
  have hat : readPtr m₁ str = ptrAdd s (field.length + 1) := by
    rw [hm₁, readPtr_writePtr, ptrAdd_ptrAdd]
  have hkeep : ∀ a, ¬ Within str 8 a → a ≠ ptrAdd s field.length → m₁ a = m a := by
    intro a ha hne
    rw [hm₁, writePtr_of_not_within _ _ ha, write_of_ne m 0 hne]
  have hcut : m₁ (ptrAdd s field.length) = 0 := by
    rw [hm₁, writePtr_of_not_within _ _ (h.not_within (by omega)), write_self]
  have hrun : strsep m str sep = some (s, m₁) := by
    rw [strsep, h.at_str, if_neg h.ne_zero, h.strcspn, takeWhile_of_first hfield hb]
    change (if m (ptrAdd s field.length) ≠ 0 then _ else _) = _
    rw [if_pos hstop, hm₁]
    rfl
  refine ⟨m₁, hrun, h.advance hat hkeep, ?_, hcut, hkeep⟩
  exact h.string.truncate hcut fun i hi => h.read_eq hkeep (by omega) (by omega) (by omega)

/-! ## All calls -/

/-- Where the fields of a string are. -/
def starts : Addr → List (List Byte) → List Addr
  | _, [] => []
  | p, field :: fields => p :: starts (ptrAdd p (field.length + 1)) fields

/-- The first `k` separators of the string at `s` are overwritten with NUL, and
every other byte outside the pointer at `str` is as it was. -/
structure Cut (str s : Addr) (xs cs : List Byte) (k : ℕ) (m m' : Memory) : Prop where
  cut : ∀ i, AmongFirst (sepTest cs) k xs i → m' (ptrAdd s i) = 0
  keep : ∀ a, ¬ Within str 8 a → (∀ i, AmongFirst (sepTest cs) k xs i → a ≠ ptrAdd s i) →
    m' a = m a

/-- What `k` calls leave of a string. -/
structure Separated (str s : Addr) (xs cs : List Byte) (k : ℕ) (m m' : Memory) : Prop where
  cut : Cut str s xs cs k m m'
  str_eq_zero : readPtr m' str = 0 ↔ (xs.splitOnP (sepTest cs)).length ≤ k
  fields : ∀ x ∈ ((starts s (xs.splitOnP (sepTest cs))).zip (xs.splitOnP (sepTest cs))).take k,
    x.1 ≠ 0 ∧ StringAt m' x.1 x.2

theorem strsepCalls_null (h : readPtr m str = 0) (k : ℕ) :
    strsepCalls str sep k m = some (List.replicate k 0, m) := by
  induction k with
  | zero => rfl
  | succ k ih =>
      rw [strsepCalls, strsep_null h]
      simp only [Option.bind_eq_bind, Option.bind_some, ih]
      rfl

theorem strsepCalls_succ {k : ℕ} {m₁ m₂ : Memory} {r : Addr} {rs : List Addr}
    (hcall : strsep m str sep = some (r, m₁)) (hcalls : strsepCalls str sep k m₁ = some (rs, m₂)) :
    strsepCalls str sep (k + 1) m = some (r :: rs, m₂) := by
  rw [strsepCalls, hcall]
  simp only [Option.bind_eq_bind, Option.bind_some, hcalls]
  rfl

/-- Before the first call nothing has changed. -/
theorem Separable.separated_zero (h : Separable m str s sep xs cs) :
    Separated str s xs cs 0 m m where
  cut :=
    { cut := fun i hi => absurd hi (not_amongFirst_zero xs i)
      keep := fun a _ _ => rfl }
  str_eq_zero := by
    rw [h.at_str, length_splitOnP]
    exact iff_of_false h.ne_zero (by omega)
  fields := by
    rw [List.take_zero]
    nofun

/-- After the last field nothing is left. -/
theorem Separable.separated_last (h : Separable m str s sep xs cs)
    (hnone : ∀ x ∈ xs, sepTest cs x = false) (k : ℕ) :
    Separated str s xs cs (k + 1) m (writePtr m str 0) where
  cut :=
    { cut := fun i hi => absurd hi (not_amongFirst_of_none hnone _ i)
      keep := fun a ha _ => writePtr_of_not_within m 0 ha }
  str_eq_zero := by
    rw [List.splitOnP_eq_singleton hnone, readPtr_writePtr]
    exact iff_of_true rfl (Nat.succ_le_succ (Nat.zero_le k))
  fields := by
    rw [List.splitOnP_eq_singleton hnone]
    have hsame : StringAt (writePtr m str 0) s xs :=
      h.string.congr fun i hi => writePtr_of_not_within m 0 (h.not_within hi)
    simpa [starts] using ⟨h.ne_zero, hsame⟩

/-- A call that finds a separator, and the calls on the rest. -/
theorem Separable.separated_first {field rest : List Byte} {b : Byte} {k : ℕ} {m₁ m' : Memory}
    (h : Separable m str s sep (field ++ b :: rest) cs)
    (hfield : ∀ x ∈ field, sepTest cs x = false) (hb : sepTest cs b = true)
    (hfirst : StringAt m₁ s field) (hcut : m₁ (ptrAdd s field.length) = 0)
    (hkeep : ∀ a, ¬ Within str 8 a → a ≠ ptrAdd s field.length → m₁ a = m a)
    (hrest : Separated str (ptrAdd s (field.length + 1)) rest cs k m₁ m') :
    Separated str s (field ++ b :: rest) cs (k + 1) m m' := by
  have hlength : (field ++ b :: rest).length = field.length + (rest.length + 1) := by
    rw [List.length_append, List.length_cons]
  have hlt := h.string.length_lt
  -- the later calls write behind the first separator only
  have hsame : ∀ i ≤ field.length, m' (ptrAdd s i) = m₁ (ptrAdd s i) := by
    intro i hi
    refine hrest.cut.keep _ (h.not_within (by omega)) fun j hj heq => ?_
    have hjlt := hj.lt_length
    rw [ptrAdd_ptrAdd, ptrAdd_inj (by omega) (by omega)] at heq
    omega
  refine ⟨⟨fun i hi => ?_, fun a ha hne => ?_⟩, ?_, ?_⟩
  · rcases (amongFirst_succ hfield hb k i).mp hi with rfl | ⟨j, rfl, hj⟩
    · rw [hsame _ le_rfl, hcut]
    · rw [← ptrAdd_ptrAdd]
      exact hrest.cut.cut j hj
  · have hold : m' a = m₁ a := by
      refine hrest.cut.keep a ha fun j hj => ?_
      rw [ptrAdd_ptrAdd]
      exact hne _ ((amongFirst_succ hfield hb k _).mpr (.inr ⟨j, rfl, hj⟩))
    rw [hold]
    exact hkeep a ha (hne _ ((amongFirst_succ hfield hb k _).mpr (.inl rfl)))
  · rw [hrest.str_eq_zero, List.splitOnP_append_cons_of_forall_mem hfield b hb, List.length_cons,
      Nat.add_le_add_iff_right]
  · rw [List.splitOnP_append_cons_of_forall_mem hfield b hb, starts, List.zip_cons_cons,
      List.take_succ_cons]
    exact List.forall_mem_cons.mpr ⟨⟨h.ne_zero, hfirst.congr hsame⟩, hrest.fields⟩

theorem Separable.strsepCalls (h : Separable m str s sep xs cs) (k : ℕ) :
    ∃ m', Str.strsepCalls str sep k m = some ((starts s (xs.splitOnP (sepTest cs))).take k ++
        List.replicate (k - (xs.splitOnP (sepTest cs)).length) 0, m') ∧
      Separated str s xs cs k m m' := by
  induction xs using induction_fields (p := sepTest cs) generalizing m s k with
  | last xs hnone =>
      cases k with
      | zero => exact ⟨m, by simp [Str.strsepCalls], h.separated_zero⟩
      | succ k =>
          refine ⟨_, ?_, h.separated_last hnone k⟩
          rw [List.splitOnP_eq_singleton hnone]
          have hcalls : Str.strsepCalls str sep k (writePtr m str 0) = _ :=
            strsepCalls_null (readPtr_writePtr m str 0) k
          simpa [starts] using strsepCalls_succ (h.strsep_last hnone) hcalls
  | first field b rest hfield hb ih =>
      cases k with
      | zero => exact ⟨m, by simp [Str.strsepCalls], h.separated_zero⟩
      | succ k =>
          obtain ⟨m₁, hcall, hnext, hfirst, hcut, hkeep⟩ := h.strsep_first hfield hb
          obtain ⟨m', hcalls, hrest⟩ := ih hnext k
          refine ⟨m', ?_, h.separated_first hfield hb hfirst hcut hkeep hrest⟩
          rw [List.splitOnP_append_cons_of_forall_mem hfield b hb, starts, List.take_succ_cons,
            List.length_cons, Nat.add_sub_add_right, List.cons_append]
          exact strsepCalls_succ hcall hcalls

end Calls

/-- The fields of a string: one more than it has separators, none of them with a
separator in it, and with the separators between them the string again.  The
calls return them in order, and NULL from then on.  Each ends its field with a
NUL in the place of the separator and writes nothing else to the string. -/
theorem strsep_tokens {m : Memory} {str s sep : Addr} {xs cs : List Byte}
    (h : Separable m str s sep xs cs) :
    let tokens := xs.splitOnP fun b => decide (b ∈ cs)
    let separators := xs.filter fun b => decide (b ∈ cs)
    tokens.length = separators.length + 1 ∧
    (∀ token ∈ tokens, ∀ b ∈ token, b ∉ cs) ∧
    (tokens.zipWith (· ++ ·) (separators.map (fun b => [b]) ++ [[]])).flatten = xs ∧
    (∀ k, ∃ m', strsepCalls str sep k m =
        some ((starts s tokens).take k ++ List.replicate (k - tokens.length) 0, m') ∧
      Separated str s xs cs k m m') ∧
    ∀ m', readPtr m' str = 0 → ∀ k,
      strsepCalls str sep k m' = some (List.replicate k 0, m') := by
  refine ⟨?_, ?_, List.splitOnP_spec xs, h.strsepCalls, fun m' hnull k => strsepCalls_null hnull k⟩
  · rw [length_splitOnP, List.countP_eq_length_filter]
  · intro token htoken b hb
    exact of_decide_eq_false (eq_false_of_mem_splitOnP xs token htoken b hb)

/-- The string `,a` at 16, separated by `,`. -/
theorem strsep_tokens_comma :
    let m : Memory := fun a =>
      if a = 16 then 44 else if a = 17 then 97 else if a = 32 then 44 else if a = 48 then 16 else 0
    ∃ m', strsepCalls 48 32 3 m = some ([16, 17, 0], m') ∧
      Separated 48 16 [44, 97] [44] 3 m m' := by
  intro m
  have h : Separable m 48 16 32 [44, 97] [44] :=
    { at_str := by decide +kernel
      string := ⟨rfl, by decide, rfl, by decide, rfl⟩
      set := ⟨rfl, by decide, rfl⟩
      nonnull := by decide
      apart := by decide
      str_string := (separate_of_add_le (by decide) (by decide)).symm
      str_set := (separate_of_add_le (by decide) (by decide)).symm }
  exact (strsep_tokens h).2.2.2.1 3

end Mytilus.Str
