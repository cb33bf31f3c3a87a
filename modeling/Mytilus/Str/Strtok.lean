import Mytilus.Base.Tokens
import Mytilus.Str.Strsep

/-!
# `strtok_r` and `strtok`

Both take the next token of a string and end it with a NUL.  They differ in
where they save the address to resume at: `strtok_r` at an address the caller
gives, `strtok` in the variable `STRTOK_STATE` of its module.

One search is a call with a string and then calls with NULL.  It returns the
tokens of the string as it was before the first call, whatever separators each
call is given: `strtokBody_eq` is one call, and `alone_tokens` the search, on the
tokens of `Mytilus.Base.Tokens`.  `Tokenized` says what it leaves in the string, each
token ended by a NUL and every other byte as it was.
-/

namespace Mytilus.Str

open Memory Tokens

/-! ## The functions -/

/-- `strtok_r` while `*p` is `saved`: the result, what is stored to `*p` if
anything is, and the memory. -/
def strtokBody (m : Memory) (s sep saved : Addr) : Option (Addr × Option Addr × Memory) :=
  let s := if s = 0 then saved else s
  if s = 0 then
    some (0, none, m)
  else do
    let n ← strspn m s sep
    let s := s + n
    if m s = 0 then
      return (0, some 0, m)
    else do
      let n ← strcspn m s sep
      let stop := s + n
      if m stop ≠ 0 then
        return (s, some (ptrAdd stop 1), m.write stop 0)
      else
        return (s, some 0, m)

/-- `*p = v` where a value is stored -/
def storePtr (m : Memory) (p : Addr) : Option Addr → Memory
  | none => m
  | some v => writePtr m p v

/-- `char *strtok_r(char *restrict s, const char *restrict sep, char **restrict p)` -/
def strtokR (m : Memory) (s sep p : Addr) : Option (Addr × Memory) := do
  let (r, stored, m) ← strtokBody m s sep (readPtr m p)
  return (r, storePtr m p stored)

/-- The memory, and the variable `STRTOK_STATE`. -/
structure State where
  memory : Memory
  strtokState : Addr

/-- `char *strtok(char *restrict s, const char *restrict sep)` -/
def strtok (st : State) (s sep : Addr) : Option (Addr × State) := do
  let saved := st.strtokState
  let (r, stored, m) ← strtokBody st.memory s sep saved
  return (r, { memory := m, strtokState := stored.getD saved })

/-- A call of `strtok`, or of `strtok_r` with the address of its saved pointer. -/
structure Call where
  search : Option Addr
  s : Addr
  sep : Addr

def Call.run (st : State) (c : Call) : Option (Addr × State) :=
  match c.search with
  | none => strtok st c.s c.sep
  | some p => do
      let (r, m) ← strtokR st.memory c.s c.sep p
      return (r, { st with memory := m })

/-! ## One call -/

/-- The result of a call that finds the token in the string at `base`. -/
def tokenPtr (base : Addr) : Option (ℕ × ℕ) → Addr
  | none => 0
  | some token => ptrAdd base token.1

/-- The saved pointer that resumes at the position. -/
def resumePtr (base : Addr) : Option ℕ → Addr
  | none => 0
  | some k => ptrAdd base k

/-- The token is ended, unless it ends with the string. -/
def cutToken (m : Memory) (base : Addr) (xs : List Byte) : Option (ℕ × ℕ) → Memory
  | none => m
  | some token => if token.2 < xs.length then m.write (ptrAdd base token.2) 0 else m

section Body

variable {m : Memory} {s sep saved base : Addr} {xs cs : List Byte} {k : ℕ}

theorem strtokBody_null (h : (if s = 0 then saved else s) = 0) :
    strtokBody m s sep saved = some (0, none, m) := by
  rw [strtokBody]
  exact if_pos h

theorem stringAt_advance (hs : StringAt m (ptrAdd base k) (xs.drop k)) {j : ℕ} (hkj : k ≤ j)
    (hj : j ≤ xs.length) : StringAt m (ptrAdd base j) (xs.drop j) := by
  have hdrop := hs.drop (i := j - k) (by rw [List.length_drop]; omega)
  rwa [ptrAdd_ptrAdd, List.drop_drop, Nat.add_sub_cancel' hkj] at hdrop

/-- The byte where a scan of the string stops is the terminator or the first
byte that fails the test. -/
theorem stringAt_skip (hs : StringAt m (ptrAdd base k) (xs.drop k)) (hk : k ≤ xs.length)
    (p : Byte → Bool) : StringAt m (ptrAdd base (skip p xs k)) (xs.drop (skip p xs k)) ∧
      (m (ptrAdd base (skip p xs k)) = 0 ↔ xs.length ≤ skip p xs k) := by
  have hstop := stringAt_advance hs (le_skip p xs k) (skip_le hk)
  refine ⟨hstop, ?_⟩
  rcases Nat.lt_or_ge (skip p xs k) xs.length with hlt | hge
  · obtain ⟨b, -, hdrop⟩ := drop_skip_eq_cons hlt
    rw [hdrop] at hstop
    refine iff_of_false ?_ (not_le.mpr hlt)
    rw [hstop.1]
    exact hstop.2.1
  · rw [List.drop_eq_nil_of_le hge] at hstop
    exact iff_of_true hstop hge

theorem strspn_skip (hs : StringAt m (ptrAdd base k) (xs.drop k)) (hc : StringAt m sep cs) :
    ∃ n, strspn m (ptrAdd base k) sep = some n ∧
      ptrAdd base k + n = ptrAdd base (skip (sepTest cs) xs k) :=
  ⟨_, strspn_eq hs hc, ptrAdd_ptrAdd base k _⟩

theorem strcspn_skip (hs : StringAt m (ptrAdd base k) (xs.drop k)) (hc : StringAt m sep cs) :
    ∃ n, strcspn m (ptrAdd base k) sep = some n ∧
      ptrAdd base k + n = ptrAdd base (skip (fun b => !sepTest cs b) xs k) := by
  refine ⟨_, strcspn_eq hs hc, ?_⟩
  simp only [decide_not]
  exact ptrAdd_ptrAdd base k _

/-- A call that resumes in the string at `base` finds its next token. -/
theorem strtokBody_eq (hstart : (if s = 0 then saved else s) = ptrAdd base k)
    (hne : ptrAdd base k ≠ 0) (hs : StringAt m (ptrAdd base k) (xs.drop k)) (hk : k ≤ xs.length)
    (hc : StringAt m sep cs) : strtokBody m s sep saved =
      some (tokenPtr base (next (sepTest cs) xs (some k)).1,
        some (resumePtr base (next (sepTest cs) xs (some k)).2),
        cutToken m base xs (next (sepTest cs) xs (some k)).1) := by
  obtain ⟨n, hspn, hfirst⟩ := strspn_skip hs hc
  obtain ⟨hs', hend⟩ := stringAt_skip hs hk (sepTest cs)
  rw [strtokBody, hstart, if_neg hne, hspn]
  change (if m (ptrAdd base k + n) = 0 then _ else _) = _
  rw [hfirst]
  rcases Nat.lt_or_ge (skip (sepTest cs) xs k) xs.length with hlt | hge
  · obtain ⟨n', hcspn, hlast⟩ := strcspn_skip hs' hc
    obtain ⟨-, hend'⟩ := stringAt_skip hs' hlt.le fun b => !sepTest cs b
    rw [if_neg (mt hend.mp (not_le.mpr hlt)), hcspn, next_of_lt hlt]
    change (if m (ptrAdd base _ + n') ≠ 0 then _ else _) = _
    rw [hlast]
    by_cases hstop : skip (fun b => !sepTest cs b) xs (skip (sepTest cs) xs k) < xs.length
    · simp only [if_pos (mt hend'.mp (not_le.mpr hstop)), hstop, cutToken, if_true, tokenPtr,
        resumePtr, ptrAdd_ptrAdd]
      rfl
    · simp only [if_neg (not_not.mpr (hend'.mpr (not_lt.mp hstop))), hstop, cutToken, if_false,
        tokenPtr, resumePtr]
      rfl
  · rw [if_pos (hend.mpr hge), next_of_length_le hge]
    rfl

end Body

/-! ## One search -/

/-- The calls of one search on a saved pointer of its own: the results, the saved
pointer and the memory after them. -/
def alone : List Call → Addr → Memory → Option (List Addr × Addr × Memory)
  | [], saved, m => some ([], saved, m)
  | c :: calls, saved, m => do
      let (r, stored, m) ← strtokBody m c.s c.sep saved
      let (rs, saved, m) ← alone calls (stored.getD saved) m
      return (r :: rs, saved, m)

/-- The tokens of the string at `base` are strings, each ended by a NUL in place
of the separator behind it, and nothing else in the area has changed. -/
structure Tokenized (area : Set Addr) (base : Addr) (xs : List Byte)
    (ts : List (Option (ℕ × ℕ))) (m m' : Memory) : Prop where
  texts : ∀ first last, some (first, last) ∈ ts →
    StringAt m' (ptrAdd base first) (text xs (first, last))
  cut : ∀ first last, some (first, last) ∈ ts → m' (ptrAdd base last) = 0
  keep : ∀ a ∈ area, (∀ first last, some (first, last) ∈ ts → last < xs.length →
    a ≠ ptrAdd base last) → m' a = m a

section Alone

variable {m : Memory} {base : Addr} {xs : List Byte}

theorem alone_cons {c : Call} {calls : List Call} {saved r : Addr} {stored : Option Addr}
    {m₁ : Memory} (hbody : strtokBody m c.s c.sep saved = some (r, stored, m₁))
    {rs : List Addr} {saved' : Addr} {m' : Memory}
    (hrest : alone calls (stored.getD saved) m₁ = some (rs, saved', m')) :
    alone (c :: calls) saved m = some (r :: rs, saved', m') := by
  rw [alone, hbody]
  simp only [Option.bind_eq_bind, Option.bind_some, hrest]
  rfl

theorem cutToken_of_ne {a : Addr} {token : Option (ℕ × ℕ)}
    (h : ∀ t ∈ token, t.2 < xs.length → a ≠ ptrAdd base t.2) :
    cutToken m base xs token a = m a := by
  cases token with
  | none => rfl
  | some t =>
      rw [cutToken]
      split_ifs with hlt
      · exact write_of_ne m 0 (h t rfl hlt)
      · rfl

theorem cutToken_or (a : Addr) (token : Option (ℕ × ℕ)) :
    cutToken m base xs token a = m a ∨ cutToken m base xs token a = 0 := by
  by_cases h : ∀ t ∈ token, t.2 < xs.length → a ≠ ptrAdd base t.2
  · exact .inl (cutToken_of_ne h)
  · push Not at h
    obtain ⟨t, rfl, hlt, rfl⟩ := h
    right
    rw [cutToken, if_pos hlt, write_self]

theorem cutToken_last (hnul : m (ptrAdd base xs.length) = 0) {first last : ℕ}
    (hlast : last ≤ xs.length) :
    cutToken m base xs (some (first, last)) (ptrAdd base last) = 0 := by
  rw [cutToken]
  split_ifs with hlt
  · exact write_self ..
  · obtain rfl : last = xs.length := by simpa using Nat.le_antisymm hlast (not_lt.mp hlt)
    exact hnul

theorem Tokenized.nil (area : Set Addr) (base : Addr) (xs : List Byte) (m : Memory) :
    Tokenized area base xs [] m m where
  texts := by nofun
  cut := by nofun
  keep := fun _ _ _ => rfl

theorem Tokenized.cons_none {area : Set Addr} {ts : List (Option (ℕ × ℕ))} {m' : Memory}
    (h : Tokenized area base xs ts m m') : Tokenized area base xs (none :: ts) m m' where
  texts := fun first last hmem => h.texts first last (by simpa using hmem)
  cut := fun first last hmem => h.cut first last (by simpa using hmem)
  keep := fun a ha hne => h.keep a ha fun first last hmem =>
    hne first last (List.mem_cons_of_mem _ hmem)

/-- A token, and later ones behind it. -/
theorem Tokenized.cons_some {ts : List (Option (ℕ × ℕ))} {m' : Memory} {first last : ℕ}
    (hs : StringAt m (ptrAdd base first) (xs.drop first)) (hlen : xs.length < 2 ^ 64)
    (hlt : first < last) (hlast : last ≤ xs.length)
    (hbehind : ∀ first' last', some (first', last') ∈ ts → last < last' ∧ last' ≤ xs.length)
    (h : Tokenized Set.univ base xs ts (cutToken m base xs (some (first, last))) m') :
    Tokenized Set.univ base xs (some (first, last) :: ts) m m' := by
  -- the terminator of the whole string is behind the token
  have hnul : m (ptrAdd base xs.length) = 0 := by
    have hend := stringAt_advance hs (hlt.le.trans hlast) le_rfl
    rwa [List.drop_length] at hend
  -- the later tokens are ended behind this one
  have hsame : ∀ i ≤ last, m' (ptrAdd base i) =
      cutToken m base xs (some (first, last)) (ptrAdd base i) := by
    intro i hi
    refine h.keep _ (Set.mem_univ _) fun first' last' hmem _ heq => ?_
    obtain ⟨hlt', hle'⟩ := hbehind first' last' hmem
    rw [ptrAdd_inj (by omega) (by omega)] at heq
    omega
  have hcut : m' (ptrAdd base last) = 0 := by
    rw [hsame last le_rfl, cutToken_last hnul hlast]
  refine ⟨fun first' last' hmem => ?_, fun first' last' hmem => ?_, fun a ha hne => ?_⟩
  · rcases List.mem_cons.mp hmem with heq | htail
    · obtain ⟨rfl, rfl⟩ : first' = first ∧ last' = last := by simpa using heq
      rw [drop_eq_text_append xs hlt.le] at hs
      refine hs.truncate ?_ fun i hi => ?_
      · rw [length_text hlast, ptrAdd_ptrAdd, Nat.add_sub_cancel' hlt.le, hcut]
      · rw [length_text hlast] at hi
        rw [ptrAdd_ptrAdd, hsame _ (by omega)]
        refine cutToken_of_ne fun t ht hlt' heq' => ?_
        obtain rfl := Option.some.inj ht
        rw [ptrAdd_inj (by omega) (by omega)] at heq'
        omega
    · exact h.texts first' last' htail
  · rcases List.mem_cons.mp hmem with heq | htail
    · obtain ⟨rfl, rfl⟩ : first' = first ∧ last' = last := by simpa using heq
      exact hcut
    · exact h.cut first' last' htail
  · rw [h.keep a ha fun first' last' hmem => hne first' last' (List.mem_cons_of_mem _ hmem)]
    refine cutToken_of_ne fun t ht => ?_
    obtain rfl := Option.some.inj ht
    exact hne first last List.mem_cons_self

/-- The separators of a call are a string none of whose bytes is one of the
string at `base`. -/
structure Separators (m : Memory) (base : Addr) (xs : List Byte) (sep : Addr) (cs : List Byte) :
    Prop where
  string : StringAt m sep cs
  apart : ∀ i < xs.length, ∀ j < cs.length, ptrAdd sep j ≠ ptrAdd base i

theorem Separators.cutToken {sep : Addr} {cs : List Byte} (h : Separators m base xs sep cs)
    (token : Option (ℕ × ℕ)) : Separators (cutToken m base xs token) base xs sep cs where
  apart := h.apart
  string := h.string.congr fun j hj => by
    rcases Nat.lt_or_eq_of_le hj with hlt | rfl
    · exact cutToken_of_ne fun t _ ht => h.apart t.2 ht j hlt
    · have hnul := h.string.nul
      rcases cutToken_or (m := m) (ptrAdd sep cs.length) token with hsame | hzero
      · exact hsame
      · rw [hzero, hnul]

/-- What a call leaves of the string is still there where the search resumes. -/
theorem stringAt_resume {k k' : ℕ} {p : Byte → Bool}
    (hs : StringAt m (ptrAdd base k) (xs.drop k)) (hlen : xs.length < 2 ^ 64)
    (hresume : (next p xs (some k)).2 = some k') : k' ≤ xs.length ∧
      StringAt (cutToken m base xs (next p xs (some k)).1) (ptrAdd base k') (xs.drop k') := by
  obtain ⟨first, last, htoken, hlast, rfl⟩ := next_resume hresume
  obtain ⟨hle, hlt, -⟩ := next_eq_some htoken
  refine ⟨hlast, (stringAt_advance hs (by omega) hlast).congr fun i hi => ?_⟩
  rw [List.length_drop] at hi
  refine cutToken_of_ne fun t ht _ heq => ?_
  obtain rfl := Option.some.inj (htoken.symm.trans ht)
  rw [ptrAdd_ptrAdd, ptrAdd_inj (by omega) (by omega)] at heq
  omega

/-- The calls of one search return the tokens of the string, and end each of them. -/
theorem alone_tokens (pos : Option ℕ) {calls : List Call} {sets : List (List Byte)} {saved : Addr}
    (hsets : List.Forall₂ (fun c cs => Separators m base xs c.sep cs) calls sets)
    (hstart : ∀ c ∈ calls.head?, (if c.s = 0 then saved else c.s) = resumePtr base pos)
    (hcont : ∀ c ∈ calls.tail, c.s = 0) (hne : ∀ i ≤ xs.length, ptrAdd base i ≠ 0)
    (hlen : xs.length < 2 ^ 64)
    (hpos : ∀ k ∈ pos, k ≤ xs.length ∧ StringAt m (ptrAdd base k) (xs.drop k)) :
    ∃ saved' m', alone calls saved m =
        some ((tokens xs pos (sets.map sepTest)).map (tokenPtr base), saved', m') ∧
      Tokenized Set.univ base xs (tokens xs pos (sets.map sepTest)) m m' := by
  induction calls generalizing m pos saved sets with
  | nil =>
      obtain rfl := List.forall₂_nil_left_iff.mp hsets
      exact ⟨saved, m, rfl, Tokenized.nil _ _ _ _⟩
  | cons c calls ih =>
      obtain ⟨cs, sets, hset, htail, rfl⟩ := List.forall₂_cons_left_iff.mp hsets
      have hhead := hstart c rfl
      -- the next call, made with NULL, resumes where this one stops
      have hnext : ∀ c' ∈ calls.head?, ∀ a, (if c'.s = 0 then a else c'.s) = a :=
        fun c' hc' a => if_pos (hcont c' (List.mem_of_mem_head? hc'))
      have hrest : ∀ c' ∈ calls.tail, c'.s = 0 := fun c' hc' => hcont c' (List.mem_of_mem_tail hc')
      cases pos with
      | none =>
          have hsaved : saved = 0 := by
            by_cases hs : c.s = 0
            · rwa [if_pos hs] at hhead
            · rw [if_neg hs] at hhead
              exact absurd hhead hs
          obtain ⟨saved', m', hcalls, htok⟩ := ih none htail
            (fun c' hc' => (hnext c' hc' saved).trans hsaved) hrest nofun
          exact ⟨saved', m', alone_cons (strtokBody_null hhead) hcalls, htok.cons_none⟩
      | some k =>
          obtain ⟨hk, hs⟩ := hpos k rfl
          have hbody := strtokBody_eq hhead (hne k hk) hs hk hset.string
          obtain ⟨saved', m', hcalls, htok⟩ := ih (next (sepTest cs) xs (some k)).2
            (htail.imp fun _ _ h => h.cutToken _) (fun c' hc' => hnext c' hc' _) hrest
            (fun k' hk' => stringAt_resume hs hlen hk')
          refine ⟨saved', m', alone_cons hbody hcalls, ?_⟩
          rw [List.map_cons, tokens]
          cases htoken : (next (sepTest cs) xs (some k)).1 with
          | none =>
              rw [htoken] at htok
              exact htok.cons_none
          | some token =>
              obtain ⟨first, last⟩ := token
              rw [htoken] at htok
              obtain ⟨hle, hlt, hlast, -⟩ := next_eq_some htoken
              refine Tokenized.cons_some (stringAt_advance hs hle (hlt.le.trans hlast)) hlen hlt
                hlast (fun first' last' hmem => ?_) htok
              obtain ⟨hbound, hsome, hlt', hlast'⟩ := tokens_bounds hmem
              obtain ⟨k', hk'⟩ := Option.isSome_iff_exists.mp hsome
              obtain ⟨first'', last'', htoken', -, rfl⟩ := next_resume hk'
              obtain ⟨rfl, rfl⟩ : first = first'' ∧ last = last'' := by
                simpa using htoken.symm.trans htoken'
              have hfirst := hbound _ hk'
              exact ⟨by omega, hlast'⟩

end Alone

end Mytilus.Str
