import Mytilus.Str.StrtokRuns

/-!
# `strtok` against `strsep`

Both cut a string at its separators.  `strsep` returns every field, `strtok` and
`strtok_r` pass over the empty ones.  So a search with `strtok` returns what the
calls of `strsep` return, less the empty strings, and what it overwrites is also
overwritten by `strsep`.
-/

namespace Mytilus.Str

open Memory Fields Tokens

/-- A call with the string and `n` calls with NULL. -/
def searchCalls (i : Option Addr) (s sep : Addr) (n : ℕ) : List Call :=
  ⟨i, s, sep⟩ :: List.replicate n ⟨i, 0, sep⟩

/-- The pointer where `strtok_r` saves overlaps neither the string nor the separators. -/
def CellApart (i : Option Addr) (s sep : Addr) (xs cs : List Byte) : Prop :=
  ∀ p ∈ i, Separate p 8 s (xs.length + 1) ∧ Separate p 8 sep (cs.length + 1)

/-- The bytes of the string, and its terminator. -/
def stringArea (i : Option Addr) (s : Addr) (xs : List Byte) (j : Option Addr) : Set Addr :=
  {a | j = i ∧ Within s (xs.length + 1) a}

section Search

variable {st : State} {i : Option Addr} {str s sep : Addr} {xs cs : List Byte} {n : ℕ}

theorem mem_searchCalls {c : Call} (hc : c ∈ searchCalls i s sep n) :
    c.search = i ∧ c.sep = sep ∧ (c.s = s ∨ c.s = 0) := by
  rcases List.mem_cons.mp hc with rfl | htail
  · exact ⟨rfl, rfl, .inl rfl⟩
  · obtain rfl := List.eq_of_mem_replicate htail
    exact ⟨rfl, rfl, .inr rfl⟩

theorem callsOf_searchCalls : callsOf i (searchCalls i s sep n) = searchCalls i s sep n :=
  List.filter_eq_self.mpr fun _ hc => decide_eq_true (mem_searchCalls hc).1

theorem resumable_replicate {ready : Option Addr → Prop} (hready : ready i) (n : ℕ) :
    Resumable ready (List.replicate n ⟨i, 0, sep⟩) := by
  induction n generalizing ready with
  | zero => trivial
  | succ n ih => exact ⟨fun _ => hready, ih (.inr hready)⟩

/-- A byte of the string is at its offset. -/
theorem offset_of_within {a : Addr} (h : Within s (xs.length + 1) a) :
    ∃ k ≤ xs.length, a = ptrAdd s k :=
  ⟨offset s a, Nat.le_of_lt_succ h, (ptrAdd_offset s a).symm⟩

/-- What can be separated can be searched. -/
theorem Separable.arena (h : Separable st.memory str s sep xs cs)
    (hcell : CellApart i s sep xs cs) : Arena (stringArea i s xs) st (searchCalls i s sep n) where
  disjoint := by
    rintro j j' hne a ⟨rfl, -⟩ ⟨rfl, -⟩
    exact hne rfl
  nonnull := by
    rintro j ⟨-, hin⟩
    obtain ⟨k, hk, hzero⟩ := offset_of_within hin
    exact h.nonnull k hk hzero.symm
  cells := by
    intro c hc c' hc' p hp q hq hne
    rw [(mem_searchCalls hc).1] at hp
    rw [(mem_searchCalls hc').1] at hq
    exact absurd (Option.some.inj (hp.symm.trans hq)) hne
  cell_area := by
    rintro c hc p hp j a ⟨-, ha⟩ hin
    rw [(mem_searchCalls hc).1] at hp
    exact (hcell p hp).1 a hin ha
  set := by
    intro c hc
    rw [(mem_searchCalls hc).2.1]
    refine ⟨cs, h.set, ⟨?_, ?_⟩⟩
    · rintro k hk j ⟨-, ha⟩
      obtain ⟨l, hl, heq⟩ := offset_of_within ha
      rcases Nat.lt_or_eq_of_le hl with hlt | rfl
      · exact h.apart l hlt k hk heq.symm
      · -- no separator is a zero byte
        have hbyte := h.set.getElem? (List.getElem?_eq_getElem hk)
        rw [heq, h.string.nul] at hbyte
        exact h.set.ne_zero _ (List.getElem_mem hk) hbyte.symm
    · intro k hk c' hc' p hp hin
      rw [(mem_searchCalls hc').1] at hp
      have hlt := h.set.length_lt
      exact (hcell p hp).2 _ hin (within_ptrAdd (by omega) (by omega))
  start := by
    intro c hc hs
    obtain ⟨hi, -, hstart⟩ := mem_searchCalls hc
    rw [hi, hstart.resolve_right hs]
    have hlt := h.string.length_lt
    exact ⟨xs, h.string, fun k hk => ⟨rfl, within_ptrAdd (by omega) (by omega)⟩⟩
  resume := ⟨fun hs => absurd hs h.ne_zero, resumable_replicate (.inl rfl) n⟩

/-- The calls of one search return the fields that are not empty, and then NULL. -/
theorem Separable.searchCalls (h : Separable st.memory str s sep xs cs)
    (hcell : CellApart i s sep xs cs) (hn : xs.countP (sepTest cs) < n) :
    ∃ trace st', run st (Str.searchCalls i s sep n) = some (trace, st') ∧
      (∃ k, 0 < k ∧ resultsOf i trace =
        ((placedRuns (sepTest cs) 0 xs).map fun f => ptrAdd s f.1) ++ List.replicate k 0) ∧
      (∀ f ∈ placedRuns (sepTest cs) 0 xs, StringAt st'.memory (ptrAdd s f.1) f.2) ∧
      ∀ a, (∀ p ∈ i, ¬ Within p 8 a) →
        (∀ f ∈ placedRuns (sepTest cs) 0 xs, a ≠ ptrAdd s (f.1 + f.2.length)) →
        st'.memory a = st.memory a := by
  have harena : Arena (stringArea i s xs) st (Str.searchCalls i s sep n ++ []) := by
    rw [List.append_nil]
    exact h.arena hcell
  obtain ⟨trace, st', hrun, -, hframe, -⟩ := harena.run_eq
  have hsets : List.Forall₂ (fun c cs => StringAt st.memory c.sep cs) (Str.searchCalls i s sep n)
      (List.replicate (n + 1) cs) := by
    rw [List.forall₂_iff_get]
    refine ⟨by simp [Str.searchCalls], fun k hk hk' => ?_⟩
    rw [(mem_searchCalls (List.get_mem _ ⟨k, hk⟩)).2.1]
    simpa using h.set
  obtain ⟨hresults, htok⟩ := harena.run_tokens hrun callsOf_searchCalls h.ne_zero
    (fun c hc => congrArg Call.s (List.eq_of_mem_replicate hc)) h.string hsets
  -- all the fields that are not empty are found
  have hlength : (placedRuns (sepTest cs) 0 xs).length ≤ n := by
    rw [length_placedRuns, runs]
    refine (List.length_filter_le _ _).trans ?_
    rw [length_splitOnP]
    exact hn
  have htokens : tokens xs (some 0) ((List.replicate (n + 1) cs).map sepTest) =
      ((placedRuns (sepTest cs) 0 xs).map fun f => some (tokenOf f)) ++
        List.replicate (n + 1 - (placedRuns (sepTest cs) 0 xs).length) none := by
    rw [List.map_replicate, tokens_replicate, List.drop_zero, List.take_of_length_le]
    rw [List.length_map]
    omega
  rw [htokens] at hresults htok
  refine ⟨trace, st', hrun, ⟨n + 1 - (placedRuns (sepTest cs) 0 xs).length, by omega, ?_⟩, ?_, ?_⟩
  · rw [hresults, List.map_append, List.map_map, List.map_replicate]
    rfl
  · intro f hf
    have htext : text xs (tokenOf f) = f.2 := text_tokenOf (k := 0) (by rwa [List.drop_zero])
    rw [← htext]
    exact htok.texts _ _ (List.mem_append_left _ (List.mem_map_of_mem hf))
  · intro a ha hne
    -- an address in the string, or one that no call of the search writes
    by_cases hin : a ∈ stringArea i s xs i
    · refine htok.keep a hin fun first last hmem _ => ?_
      rcases List.mem_append.mp hmem with hmem | hmem
      · obtain ⟨f, hf, heq⟩ := List.mem_map.mp hmem
        obtain ⟨-, rfl⟩ : f.1 = first ∧ f.1 + f.2.length = last := by simpa [tokenOf] using heq
        exact hne f hf
      · exact absurd (List.eq_of_mem_replicate hmem) (by simp)
    · refine hframe a ?_ fun c hc p hp => ?_
      · rintro j ⟨rfl, ha'⟩
        exact hin ⟨rfl, ha'⟩
      · rw [(mem_searchCalls hc).1] at hp
        exact ha p hp

end Search

/-! ## The fields in memory -/

/-- Where the fields are. -/
theorem starts_ptrAdd (s : Addr) (k : ℕ) (fields : List (List Byte)) :
    starts (ptrAdd s k) fields = (placed k fields).map fun f => ptrAdd s f.1 := by
  induction fields generalizing k with
  | nil => rfl
  | cons field fields ih =>
      rw [starts, ptrAdd_ptrAdd, ← Nat.add_assoc, ih]
      rfl

theorem length_starts (s : Addr) (fields : List (List Byte)) :
    (starts s fields).length = fields.length := by
  induction fields generalizing s with
  | nil => rfl
  | cons field fields ih => rw [starts, List.length_cons, List.length_cons, ih]

theorem zip_starts (s : Addr) (fields : List (List Byte)) :
    (starts s fields).zip fields = (placed 0 fields).map fun f => (ptrAdd s f.1, f.2) := by
  have hstarts := starts_ptrAdd s 0 fields
  rw [ptrAdd_zero] at hstarts
  calc (starts s fields).zip fields
      = ((placed 0 fields).map fun f => ptrAdd s f.1).zip ((placed 0 fields).map Prod.snd) := by
        rw [hstarts, map_snd_placed]
    _ = (placed 0 fields).map fun f => (ptrAdd s f.1, f.2) := List.zip_map' ..

section Compared

variable {st : State} {i : Option Addr} {str s sep : Addr} {xs cs : List Byte} {n : ℕ}
  {m m' : Memory}

/-- When all calls are made, every field is a string where it starts. -/
theorem Separated.placed (h : Separated str s xs cs n m m') (hn : xs.countP (sepTest cs) < n) :
    ∀ f ∈ placed 0 (xs.splitOnP (sepTest cs)),
      ptrAdd s f.1 ≠ 0 ∧ StringAt m' (ptrAdd s f.1) f.2 := by
  intro f hf
  refine h.fields (ptrAdd s f.1, f.2) ?_
  rw [zip_starts, List.take_of_length_le]
  · exact List.mem_map_of_mem hf
  · have hlength := congrArg List.length (map_snd_placed 0 (xs.splitOnP (sepTest cs)))
    rw [List.length_map, length_splitOnP] at hlength
    rw [List.length_map, hlength]
    exact hn

/-- What `strsep` returns, less NULL and the empty strings. -/
theorem Separated.filter_starts (h : Separated str s xs cs n m m')
    (hn : xs.countP (sepTest cs) < n) (k : ℕ) :
    ((starts s (xs.splitOnP (sepTest cs)) ++ List.replicate k 0).filter
      fun r => decide (r ≠ 0 ∧ m' r ≠ 0)) =
        (placedRuns (sepTest cs) 0 xs).map fun f => ptrAdd s f.1 := by
  have hstarts := starts_ptrAdd s 0 (xs.splitOnP (sepTest cs))
  rw [ptrAdd_zero] at hstarts
  have hnull : (List.replicate k (0 : Addr)).filter (fun r => decide (r ≠ 0 ∧ m' r ≠ 0)) = [] := by
    simp
  rw [hstarts, List.filter_append, hnull, List.append_nil, List.filter_map, placedRuns]
  refine congrArg (List.map _) (List.filter_congr fun f hf => ?_)
  obtain ⟨hne, hstring⟩ := h.placed hn f hf
  have hiff : (ptrAdd s f.1 ≠ 0 ∧ m' (ptrAdd s f.1) ≠ 0) ↔ f.2 ≠ [] := by
    rw [and_iff_right hne]
    exact not_congr hstring.eq_zero_iff
  change decide (ptrAdd s f.1 ≠ 0 ∧ m' (ptrAdd s f.1) ≠ 0) = _
  rw [Bool.eq_iff_iff, decide_eq_true_iff, hiff]
  simp

end Compared

/-- A search with `strtok` or `strtok_r` and enough calls of `strsep` on the same
string: the search returns what `strsep` does, less the empty strings, and then
NULL.  Each token is the same string in both memories, and a byte that the search
overwrites is a zero byte in both. -/
theorem strtok_strsep {st : State} {i : Option Addr} {str s sep : Addr} {xs cs : List Byte} {n : ℕ}
    (h : Separable st.memory str s sep xs cs) (hcell : CellApart i s sep xs cs)
    (hn : xs.countP (sepTest cs) < n) :
    ∃ trace st' rs m', run st (searchCalls i s sep n) = some (trace, st') ∧
      strsepCalls str sep n st.memory = some (rs, m') ∧
      (∃ k, 0 < k ∧ resultsOf i trace =
        rs.filter (fun r => decide (r ≠ 0 ∧ m' r ≠ 0)) ++ List.replicate k 0) ∧
      (∀ r ∈ rs, r ≠ 0 → m' r ≠ 0 →
        ∃ token, StringAt st'.memory r token ∧ StringAt m' r token) ∧
      ∀ a, (∀ p ∈ i, ¬ Within p 8 a) →
        st'.memory a = st.memory a ∨ st'.memory a = 0 ∧ m' a = 0 := by
  obtain ⟨trace, st', hrun, ⟨k, hk, hresults⟩, htexts, hkeep⟩ := h.searchCalls hcell hn
  obtain ⟨m', hcalls, hsep⟩ := h.strsepCalls n
  rw [List.take_of_length_le (by rw [length_starts, length_splitOnP]; exact hn)] at hcalls
  have hplaced := hsep.placed hn
  refine ⟨trace, st', _, m', hrun, hcalls, ⟨k, hk, ?_⟩, ?_, ?_⟩
  · rw [hresults, hsep.filter_starts hn]
  · intro r hr hne hbyte
    have hr' : r ∈ (placedRuns (sepTest cs) 0 xs).map fun f => ptrAdd s f.1 := by
      rw [← hsep.filter_starts hn]
      exact List.mem_filter.mpr ⟨hr, decide_eq_true ⟨hne, hbyte⟩⟩
    obtain ⟨f, hf, rfl⟩ := List.mem_map.mp hr'
    exact ⟨f.2, htexts f hf, (hplaced f (List.mem_of_mem_filter hf)).2⟩
  · intro a ha
    by_cases hcut : ∀ f ∈ placedRuns (sepTest cs) 0 xs, a ≠ ptrAdd s (f.1 + f.2.length)
    · exact .inl (hkeep a ha hcut)
    · -- a token ends there in both memories
      push Not at hcut
      obtain ⟨f, hf, rfl⟩ := hcut
      have hnul := (htexts f hf).nul
      have hnul' := (hplaced f (List.mem_of_mem_filter hf)).2.nul
      rw [ptrAdd_ptrAdd] at hnul hnul'
      exact .inr ⟨hnul, hnul'⟩

/-- The string `,a` at 16, separated by `,`, with the pointer of `strtok_r` at 64. -/
theorem strtok_strsep_comma :
    let m : Memory := fun a =>
      if a = 16 then 44 else if a = 17 then 97 else if a = 32 then 44 else if a = 48 then 16 else 0
    ∃ trace st' rs m', run ⟨m, 0⟩ (searchCalls (some 64) 16 32 2) = some (trace, st') ∧
      strsepCalls 48 32 2 m = some (rs, m') ∧ ∃ k, 0 < k ∧ resultsOf (some 64) trace =
        rs.filter (fun r => decide (r ≠ 0 ∧ m' r ≠ 0)) ++ List.replicate k 0 := by
  intro m
  have h : Separable (State.memory ⟨m, 0⟩) 48 16 32 [44, 97] [44] :=
    { at_str := by decide +kernel
      string := ⟨rfl, by decide, rfl, by decide, rfl⟩
      set := ⟨rfl, by decide, rfl⟩
      nonnull := by decide
      apart := by decide
      str_string := (separate_of_add_le (by decide) (by decide)).symm
      str_set := (separate_of_add_le (by decide) (by decide)).symm }
  have hcell : CellApart (some 64) 16 32 [44, 97] [44] := by
    intro p hp
    obtain rfl := Option.some.inj hp
    exact ⟨(separate_of_add_le (by decide) (by decide)).symm,
      (separate_of_add_le (by decide) (by decide)).symm⟩
  obtain ⟨trace, st', rs, m', hrun, hcalls, hresults, -⟩ :=
    strtok_strsep (n := 2) h hcell (by decide)
  exact ⟨trace, st', rs, m', hrun, hcalls, hresults⟩

end Mytilus.Str
