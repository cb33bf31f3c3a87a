import Mytilus.Str.Strtok

/-!
# Searches side by side

A program may have several searches under way: one through `strtok`, and one
through `strtok_r` for each saved pointer.  When each works on strings of its
own, the calls of one return what they return without the others, and leave the
same bytes in its strings; in this `strtok` and `strtok_r` do not differ.

`Arena` is what such a program keeps to.  The addresses of the strings of a
search are its area.  A call changes its own area and its own saved pointer only
(`Arena.call`), so a run brings each search where its own calls alone would have
brought it (`Arena.run_eq`).  Those are a search of `Mytilus.Str.Strtok`
(`Arena.run_onCell`), whence `strtok_tokens`: the tokens, the NULs and the frame of
every search in an interleaved run.
-/

namespace Mytilus.Str

open Memory Tokens

/-! ## Runs -/

/-- The calls one after the other: the result of each with the search it belongs
to, and the state after them. -/
def run : State → List Call → Option (List (Option Addr × Addr) × State)
  | st, [] => some ([], st)
  | st, c :: calls => do
      let (r, st) ← c.run st
      let (trace, st) ← run st calls
      return ((c.search, r) :: trace, st)

def callsOf (i : Option Addr) (calls : List Call) : List Call :=
  calls.filter fun c => c.search = i

def resultsOf (i : Option Addr) (trace : List (Option Addr × Addr)) : List Addr :=
  (trace.filter fun e => e.1 = i).map Prod.snd

/-- `STRTOK_STATE`, or the saved pointer at an address. -/
def State.saved (st : State) : Option Addr → Addr
  | none => st.strtokState
  | some p => readPtr st.memory p

/-- There is a string at `s`, and it is inside the area. -/
def Inside (m : Memory) (area : Set Addr) (s : Addr) : Prop :=
  ∃ xs, StringAt m s xs ∧ ∀ k ≤ xs.length, ptrAdd s k ∈ area

/-- The saved pointer of the search is NULL or resumes inside its area. -/
def Ready (area : Option Addr → Set Addr) (st : State) (i : Option Addr) : Prop :=
  st.saved i = 0 ∨ Inside st.memory (area i) (st.saved i)

/-- A call with NULL continues a search that is ready, or that an earlier call
has started. -/
def Resumable (ready : Option Addr → Prop) : List Call → Prop
  | [] => True
  | c :: calls => (c.s = 0 → ready c.search) ∧ Resumable (fun i => i = c.search ∨ ready i) calls

/-- The `n` bytes at `sep` are in no area, and neither they nor the one behind
them is a byte of a saved pointer. -/
structure Clear (area : Option Addr → Set Addr) (calls : List Call) (sep : Addr) (n : ℕ) :
    Prop where
  area : ∀ k < n, ∀ i, ptrAdd sep k ∉ area i
  cell : ∀ k ≤ n, ∀ c ∈ calls, ∀ p ∈ c.search, ¬ Within p 8 (ptrAdd sep k)

/-- Each search has strings and a saved pointer of its own, apart from the
separators of all calls. -/
structure Arena (area : Option Addr → Set Addr) (st : State) (calls : List Call) : Prop where
  disjoint : ∀ i j, i ≠ j → ∀ a ∈ area i, a ∉ area j
  nonnull : ∀ i, 0 ∉ area i
  cells : ∀ c ∈ calls, ∀ c' ∈ calls, ∀ p ∈ c.search, ∀ q ∈ c'.search, p ≠ q → Separate p 8 q 8
  cell_area : ∀ c ∈ calls, ∀ p ∈ c.search, ∀ i, ∀ a ∈ area i, ¬ Within p 8 a
  set : ∀ c ∈ calls, ∃ cs, StringAt st.memory c.sep cs ∧ Clear area calls c.sep cs.length
  start : ∀ c ∈ calls, c.s ≠ 0 → Inside st.memory (area c.search) c.s
  resume : Resumable (Ready area st) calls

/-! ## One call inside its area -/

/-- The memory differs inside the area only, and only by zero bytes. -/
structure Nulled (area : Set Addr) (m m' : Memory) : Prop where
  outside : ∀ a ∉ area, m' a = m a
  inside : ∀ a, m' a = m a ∨ m' a = 0

section Body

variable {m m' : Memory} {area : Set Addr} {s sep saved base : Addr} {xs cs : List Byte}

theorem Nulled.refl (area : Set Addr) (m : Memory) : Nulled area m m :=
  ⟨fun _ _ => rfl, fun _ => .inl rfl⟩

theorem Inside.congr (h : Inside m area s) (hsame : ∀ a ∈ area, m' a = m a) : Inside m' area s := by
  obtain ⟨xs, hs, hin⟩ := h
  exact ⟨xs, hs.congr fun i hi => hsame _ (hin i hi), hin⟩

/-- A string inside the area is still one, maybe a shorter one, when some bytes are zeroed. -/
theorem Inside.nulled (h : Inside m area s) (hzero : ∀ a ∈ area, m' a = m a ∨ m' a = 0) :
    Inside m' area s := by
  obtain ⟨xs, hs, hin⟩ := h
  obtain ⟨ys, hle, hys⟩ := hs.exists_prefix fun i hi => hzero _ (hin i hi)
  exact ⟨ys, hys, fun k hk => hin k (hk.trans hle)⟩

theorem stringAt_nulled (h : StringAt m sep cs) (hnulled : Nulled area m m')
    (hclear : ∀ k < cs.length, ptrAdd sep k ∉ area) : StringAt m' sep cs := by
  refine h.congr fun k hk => ?_
  rcases Nat.lt_or_eq_of_le hk with hlt | rfl
  · exact hnulled.outside _ (hclear k hlt)
  · rcases hnulled.inside (ptrAdd sep cs.length) with hsame | hzero
    · exact hsame
    · rw [hzero, h.nul]

theorem nulled_cutToken (hin : ∀ k ≤ xs.length, ptrAdd base k ∈ area) (token : Option (ℕ × ℕ)) :
    Nulled area m (cutToken m base xs token) where
  outside := fun _ ha => cutToken_of_ne fun t _ hlt heq => ha (heq ▸ hin t.2 hlt.le)
  inside := fun a => cutToken_or a token

theorem cutToken_congr {a : Addr} (h : m' a = m a) (token : Option (ℕ × ℕ)) :
    cutToken m' base xs token a = cutToken m base xs token a := by
  cases token with
  | none => exact h
  | some t =>
      rw [cutToken, cutToken]
      split_ifs
      · by_cases ha : a = ptrAdd base t.2
        · rw [ha, write_self, write_self]
        · rw [write_of_ne m' 0 ha, write_of_ne m 0 ha, h]
      · exact h

/-- What a call returns and saves, and what it does to the area, depends on the
separators and on the area. -/
theorem strtokBody_inside (hs : s ≠ 0 → Inside m area s)
    (hsaved : s = 0 → saved = 0 ∨ Inside m area saved) (hc : StringAt m sep cs) :
    ∃ r stored m₁, strtokBody m s sep saved = some (r, stored, m₁) ∧ Nulled area m m₁ ∧
      (stored.getD saved = 0 ∨ Inside m₁ area (stored.getD saved)) ∧
      ∀ m', (∀ a ∈ area, m' a = m a) → StringAt m' sep cs →
        ∃ m'₁, strtokBody m' s sep saved = some (r, stored, m'₁) ∧ Nulled area m' m'₁ ∧
          ∀ a ∈ area, m'₁ a = m₁ a := by
  by_cases hnull : (if s = 0 then saved else s) = 0
  · have hzero : saved = 0 := by
      by_cases h : s = 0
      · rwa [if_pos h] at hnull
      · rw [if_neg h] at hnull
        exact absurd hnull h
    exact ⟨0, none, m, strtokBody_null hnull, Nulled.refl area m, .inl hzero, fun m' hsame _ =>
      ⟨m', strtokBody_null hnull, Nulled.refl area m', hsame⟩⟩
  · obtain ⟨base, hbase⟩ : ∃ base, base = if s = 0 then saved else s := ⟨_, rfl⟩
    have hinside : Inside m area base := by
      rw [hbase]
      split_ifs with h
      · rw [if_pos h] at hnull
        exact (hsaved h).resolve_left hnull
      · exact hs h
    obtain ⟨xs, hxs, hin⟩ := hinside
    have hstart : (if s = 0 then saved else s) = ptrAdd base 0 := by rw [ptrAdd_zero, hbase]
    have hne : ptrAdd base 0 ≠ 0 := hstart ▸ hnull
    -- the call finds the same token in every memory with the same two strings
    have hbody : ∀ m', StringAt m' base xs → StringAt m' sep cs → strtokBody m' s sep saved = _ :=
      fun m' hxs' hc' => strtokBody_eq (k := 0) hstart hne (by rwa [ptrAdd_zero])
        (Nat.zero_le _) hc'
    refine ⟨_, _, _, hbody m hxs hc, nulled_cutToken hin _, ?_, fun m' hsame hc' =>
      ⟨_, hbody m' (hxs.congr fun i hi => hsame _ (hin i hi)) hc', nulled_cutToken hin _,
        fun a ha => cutToken_congr (hsame a ha) _⟩⟩
    rw [Option.getD_some]
    cases hresume : (next (sepTest cs) xs (some 0)).2 with
    | none => exact .inl rfl
    | some k =>
        have hlen := hxs.length_lt
        obtain ⟨hk, hrest⟩ := stringAt_resume (k := 0) (by rwa [ptrAdd_zero]) hlen hresume
        refine .inr ⟨xs.drop k, hrest, fun i hi => ?_⟩
        rw [List.length_drop] at hi
        rw [resumePtr, ptrAdd_ptrAdd]
        exact hin _ (by omega)

end Body

/-! ## One call of a run -/

/-- What a call of a search with the area does to the state. -/
structure Effect (area : Set Addr) (search : Option Addr) (st st' : State) : Prop where
  outside : ∀ a ∉ area, (∀ p ∈ search, ¬ Within p 8 a) → st'.memory a = st.memory a
  inside : ∀ a, (∀ p ∈ search, ¬ Within p 8 a) →
    st'.memory a = st.memory a ∨ st'.memory a = 0
  hidden : search ≠ none → st'.strtokState = st.strtokState

section Calls

variable {area : Option Addr → Set Addr} {st st' : State} {c : Call} {calls : List Call}

theorem readPtr_congr {m m' : Memory} {p : Addr} (h : ∀ a, Within p 8 a → m' a = m a) :
    readPtr m' p = readPtr m p :=
  readLE_congr fun k hk => h _ (within_ptrAdd hk (by norm_num))

theorem readPtr_storePtr (m : Memory) (p : Addr) (stored : Option Addr) :
    readPtr (storePtr m p stored) p = stored.getD (readPtr m p) := by
  cases stored with
  | none => rfl
  | some v => exact readPtr_writePtr m p v

theorem storePtr_of_not_within (m : Memory) {p a : Addr} (stored : Option Addr)
    (ha : ¬ Within p 8 a) : storePtr m p stored a = m a := by
  cases stored with
  | none => rfl
  | some v => exact writePtr_of_not_within m v ha

/-- A call is its body on the saved pointer of its search. -/
theorem Call.run_eq {area : Set Addr} {r : Addr} {stored : Option Addr} {m₁ : Memory}
    (hbody : strtokBody st.memory c.s c.sep (st.saved c.search) = some (r, stored, m₁))
    (hnulled : Nulled area st.memory m₁)
    (hcell : ∀ p ∈ c.search, ∀ a ∈ area, ¬ Within p 8 a) :
    ∃ st', c.run st = some (r, st') ∧ Effect area c.search st st' ∧
      st'.saved c.search = stored.getD (st.saved c.search) ∧
      ∀ a, (∀ p ∈ c.search, ¬ Within p 8 a) → st'.memory a = m₁ a := by
  obtain ⟨search, s, sep⟩ := c
  cases search with
  | none =>
      refine ⟨⟨m₁, stored.getD st.strtokState⟩, ?_, ⟨fun a ha _ => hnulled.outside a ha,
        fun a _ => hnulled.inside a, fun hne => absurd rfl hne⟩, rfl, fun a _ => rfl⟩
      change strtok st s sep = _
      rw [strtok]
      have hbody' : strtokBody st.memory s sep st.strtokState = some (r, stored, m₁) := hbody
      simp only [hbody', Option.bind_eq_bind, Option.bind_some]
      rfl
  | some p =>
      have hread : readPtr m₁ p = readPtr st.memory p := readPtr_congr fun a ha =>
        hnulled.outside a fun hin => hcell p rfl a hin ha
      have hstore : ∀ a, (∀ q ∈ some p, ¬ Within q 8 a) → storePtr m₁ p stored a = m₁ a :=
        fun a ha => storePtr_of_not_within m₁ stored (ha p rfl)
      refine ⟨{ st with memory := storePtr m₁ p stored }, ?_, ⟨fun a ha hne => ?_,
        fun a hne => ?_, fun _ => rfl⟩, ?_, hstore⟩
      · have hbody' : strtokBody st.memory s sep (readPtr st.memory p) = some (r, stored, m₁) :=
          hbody
        change (strtokR st.memory s sep p).bind _ = _
        rw [strtokR, hbody']
        rfl
      · exact (hstore a hne).trans (hnulled.outside a ha)
      · change storePtr m₁ p stored a = _ ∨ storePtr m₁ p stored a = 0
        rw [hstore a hne]
        exact hnulled.inside a
      · change readPtr (storePtr m₁ p stored) p = stored.getD (readPtr st.memory p)
        rw [readPtr_storePtr, hread]

/-- A call leaves the saved pointers of other searches alone. -/
theorem Effect.saved_eq {area : Set Addr} {search i : Option Addr} (h : Effect area search st st')
    (hne : i ≠ search) (hcell : ∀ q ∈ i, ∀ a ∈ area, ¬ Within q 8 a)
    (hcells : ∀ p ∈ search, ∀ q ∈ i, p ≠ q → Separate p 8 q 8) : st'.saved i = st.saved i := by
  cases i with
  | none => exact h.hidden (Ne.symm hne)
  | some q =>
      refine readPtr_congr fun a ha => h.outside a (fun hin => hcell q rfl a hin ha) ?_
      rintro p rfl hp
      exact hcells p rfl q rfl (fun heq => hne (heq ▸ rfl)) a hp ha

theorem Resumable.mono {ready ready' : Option Addr → Prop} (h : Resumable ready calls)
    (himp : ∀ c ∈ calls, ready c.search → ready' c.search) : Resumable ready' calls := by
  induction calls generalizing ready ready' with
  | nil => trivial
  | cons c calls ih =>
      obtain ⟨hhead, hrest⟩ := h
      exact ⟨fun hs => himp c List.mem_cons_self (hhead hs), ih hrest fun c' hc' =>
        Or.imp_right (himp c' (List.mem_cons_of_mem _ hc'))⟩

theorem Clear.of_cons {sep : Addr} {n : ℕ} (h : Clear area (c :: calls) sep n) :
    Clear area calls sep n where
  area := h.area
  cell := fun k hk c' hc' => h.cell k hk c' (List.mem_cons_of_mem _ hc')

/-- A call leaves the separators of every call as they are. -/
theorem Effect.stringAt (h : Effect (area c.search) c.search st st') {sep : Addr} {cs : List Byte}
    (hcs : StringAt st.memory sep cs) (hclear : Clear area (c :: calls) sep cs.length) :
    StringAt st'.memory sep cs := by
  refine hcs.congr fun k hk => ?_
  have hcell : ∀ p ∈ c.search, ¬ Within p 8 (ptrAdd sep k) :=
    hclear.cell k hk c List.mem_cons_self
  rcases Nat.lt_or_eq_of_le hk with hlt | rfl
  · exact h.outside _ (hclear.area k hlt _) hcell
  · rcases h.inside _ hcell with hsame | hzero
    · exact hsame
    · rw [hzero, hcs.nul]

theorem Arena.saved_eq (h : Arena area st (c :: calls))
    (heffect : Effect (area c.search) c.search st st') {c' : Call} (hc' : c' ∈ calls)
    (hne : c'.search ≠ c.search) : st'.saved c'.search = st.saved c'.search :=
  heffect.saved_eq hne
    (fun q hq a ha => h.cell_area c' (List.mem_cons_of_mem _ hc') q hq _ a ha)
    (fun p hp q hq => h.cells c List.mem_cons_self c' (List.mem_cons_of_mem _ hc') p hp q hq)

/-- After a call the rest of the calls keep to their areas. -/
theorem Arena.of_effect (h : Arena area st (c :: calls))
    (heffect : Effect (area c.search) c.search st st') (hready : Ready area st' c.search) :
    Arena area st' calls where
  disjoint := h.disjoint
  nonnull := h.nonnull
  cells := fun c₁ hc₁ c₂ hc₂ =>
    h.cells c₁ (List.mem_cons_of_mem _ hc₁) c₂ (List.mem_cons_of_mem _ hc₂)
  cell_area := fun c' hc' => h.cell_area c' (List.mem_cons_of_mem _ hc')
  set := fun c' hc' => by
    obtain ⟨cs, hcs, hclear⟩ := h.set c' (List.mem_cons_of_mem _ hc')
    exact ⟨cs, heffect.stringAt hcs hclear, hclear.of_cons⟩
  start := fun c' hc' hs => (h.start c' (List.mem_cons_of_mem _ hc') hs).nulled fun a ha =>
    heffect.inside a fun p hp => h.cell_area c List.mem_cons_self p hp _ a ha
  resume := h.resume.2.mono fun c' hc' hr => by
    by_cases hsame : c'.search = c.search
    · rwa [hsame]
    · have hsaved := h.saved_eq heffect hc' hsame
      refine (hr.resolve_left hsame).imp hsaved.trans fun hin => ?_
      rw [hsaved]
      exact hin.nulled fun a ha =>
        heffect.inside a fun p hp => h.cell_area c List.mem_cons_self p hp _ a ha

/-- The first call of a run, and the same call on another memory with the same area. -/
theorem Arena.call (h : Arena area st (c :: calls)) : ∃ r st', c.run st = some (r, st') ∧
    Effect (area c.search) c.search st st' ∧ Arena area st' calls ∧
    ∀ m, (∀ a ∈ area c.search, m a = st.memory a) →
      (∀ cs, StringAt st.memory c.sep cs → StringAt m c.sep cs) →
      ∃ stored m₁, strtokBody m c.s c.sep (st.saved c.search) = some (r, stored, m₁) ∧
        stored.getD (st.saved c.search) = st'.saved c.search ∧ Nulled (area c.search) m m₁ ∧
        ∀ a ∈ area c.search, m₁ a = st'.memory a := by
  obtain ⟨cs, hcs, hclear⟩ := h.set c List.mem_cons_self
  have hcell : ∀ p ∈ c.search, ∀ a ∈ area c.search, ¬ Within p 8 a :=
    fun p hp => h.cell_area c List.mem_cons_self p hp _
  obtain ⟨r, stored, m₁, hbody, hnulled, hready, hlocal⟩ :=
    strtokBody_inside (h.start c List.mem_cons_self) h.resume.1 hcs
  obtain ⟨st', hrun, heffect, hsaved, hmemory⟩ := c.run_eq hbody hnulled hcell
  have hsame : ∀ a ∈ area c.search, st'.memory a = m₁ a :=
    fun a ha => hmemory a fun p hp => hcell p hp a ha
  refine ⟨r, st', hrun, heffect, h.of_effect heffect ?_, fun m hm hsep => ?_⟩
  · rw [Ready, hsaved]
    exact hready.imp_right fun hin => hin.congr hsame
  · obtain ⟨m₁', hbody', hnulled', hagree⟩ := hlocal m hm (hsep cs hcs)
    exact ⟨stored, m₁', hbody', hsaved.symm, hnulled', fun a ha =>
      (hagree a ha).trans (hsame a ha).symm⟩

/-! ## All calls -/

theorem callsOf_cons_of_eq {i : Option Addr} (h : c.search = i) :
    callsOf i (c :: calls) = c :: callsOf i calls := by simp [callsOf, h]

theorem callsOf_cons_of_ne {i : Option Addr} (h : c.search ≠ i) :
    callsOf i (c :: calls) = callsOf i calls := by simp [callsOf, h]

theorem resultsOf_cons_of_eq {i j : Option Addr} {r : Addr}
    {trace : List (Option Addr × Addr)} (h : j = i) :
    resultsOf i ((j, r) :: trace) = r :: resultsOf i trace := by simp [resultsOf, h]

theorem resultsOf_cons_of_ne {i j : Option Addr} {r : Addr}
    {trace : List (Option Addr × Addr)} (h : j ≠ i) :
    resultsOf i ((j, r) :: trace) = resultsOf i trace := by simp [resultsOf, h]

theorem run_cons {r : Addr} {st₁ : State} {trace : List (Option Addr × Addr)}
    (hcall : c.run st = some (r, st₁)) (hrun : run st₁ calls = some (trace, st')) :
    run st (c :: calls) = some ((c.search, r) :: trace, st') := by
  rw [run, hcall]
  simp only [Option.bind_eq_bind, Option.bind_some, hrun]
  rfl

/-- Each search goes as it does alone, also when it is made alone on another
memory with the same area. -/
theorem Arena.run_eq {later : List Call} (h : Arena area st (calls ++ later)) : ∃ trace st',
    run st calls = some (trace, st') ∧ Arena area st' later ∧
    (∀ a, (∀ i, a ∉ area i) → (∀ c ∈ calls, ∀ p ∈ c.search, ¬ Within p 8 a) →
      st'.memory a = st.memory a) ∧
    ∀ i m saved, (∀ a ∈ area i, m a = st.memory a) →
      (∀ c ∈ calls, c.search = i → saved = st.saved i) →
      (∀ c ∈ calls, c.search = i → ∀ cs, StringAt st.memory c.sep cs → StringAt m c.sep cs) →
      ∃ saved' m', alone (callsOf i calls) saved m = some (resultsOf i trace, saved', m') ∧
        ∀ a ∈ area i, m' a = st'.memory a := by
  induction calls generalizing st with
  | nil =>
      exact ⟨[], st, rfl, h, fun _ _ _ => rfl, fun i m saved hm _ _ => ⟨saved, m, rfl, hm⟩⟩
  | cons c calls ih =>
      have hmem : ∀ c' ∈ calls, c' ∈ c :: calls := fun c' hc' => List.mem_cons_of_mem _ hc'
      have hmem' : ∀ c' ∈ calls, c' ∈ calls ++ later := fun c' hc' => List.mem_append_left _ hc'
      rw [List.cons_append] at h
      obtain ⟨r, st₁, hcall, heffect, harena, hlocal⟩ := h.call
      obtain ⟨trace, st', hrun, hlater, hframe, hall⟩ := ih harena
      refine ⟨(c.search, r) :: trace, st', run_cons hcall hrun, hlater, fun a hno hcells => ?_,
        fun i m saved hm hsaved hsep => ?_⟩
      · rw [hframe a hno fun c' hc' => hcells c' (hmem c' hc')]
        exact heffect.outside a (hno _) (hcells c List.mem_cons_self)
      -- the separators of later calls are in no area, so both memories still have them
      have hsep₁ : ∀ m₁, Nulled (area i) m m₁ → ∀ c' ∈ calls, c'.search = i → ∀ cs,
          StringAt st₁.memory c'.sep cs → StringAt m₁ c'.sep cs := by
        intro m₁ hnulled c' hc' hi cs hcs
        obtain ⟨cs', hcs', hclear⟩ := h.set c' (List.mem_cons_of_mem _ (hmem' c' hc'))
        obtain rfl := (heffect.stringAt hcs' hclear).unique hcs
        exact stringAt_nulled (hsep c' (hmem c' hc') hi cs' hcs') hnulled
          fun k hk => hclear.area k hk i
      by_cases hi : c.search = i
      · subst hi
        obtain rfl := hsaved c List.mem_cons_self rfl
        obtain ⟨stored, m₁, hbody, hnext, hnulled, hagree⟩ :=
          hlocal m hm (hsep c List.mem_cons_self rfl)
        obtain ⟨saved', m', halone, hm'⟩ := hall c.search m₁ _ hagree (fun _ _ _ => hnext)
          (hsep₁ m₁ hnulled)
        rw [callsOf_cons_of_eq rfl, resultsOf_cons_of_eq rfl]
        exact ⟨saved', m', alone_cons hbody halone, hm'⟩
      · -- a call of another search: neither the area nor the saved pointer changes
        rw [callsOf_cons_of_ne hi, resultsOf_cons_of_ne hi]
        refine hall i m saved (fun a ha => ?_) (fun c' hc' hi' => ?_) (hsep₁ m (Nulled.refl _ m))
        · rw [hm a ha]
          exact (heffect.outside a (h.disjoint i _ (Ne.symm hi) a ha) fun p hp =>
            h.cell_area c List.mem_cons_self p hp i a ha).symm
        · rw [hsaved c' (hmem c' hc') hi', ← hi']
          exact (h.saved_eq heffect (hmem' c' hc') fun heq => hi (heq ▸ hi')).symm

end Calls

/-! ## The calls of one search through `strtok_r` alone -/

/-- The call through `strtok_r` with the saved pointer at `p`. -/
def Call.onCell (p : Addr) (c : Call) : Call := { c with search := some p }

/-- The state with the saved pointer of the search at `p`. -/
def State.onCell (st : State) (i : Option Addr) (p : Addr) : State :=
  { st with memory := writePtr st.memory p (st.saved i) }

/-- A saved pointer at `p` overlaps neither the strings of the search nor its
separators. -/
structure Free (area : Option Addr → Set Addr) (st : State) (calls : List Call) (i : Option Addr)
    (p : Addr) : Prop where
  area : ∀ a ∈ area i, ¬ Within p 8 a
  set : ∀ c ∈ calls, c.search = i → ∀ cs, StringAt st.memory c.sep cs →
    ∀ k ≤ cs.length, ¬ Within p 8 (ptrAdd c.sep k)

section OnCell

variable {area : Option Addr → Set Addr} {st : State} {calls : List Call} {i : Option Addr}
  {p : Addr}

theorem alone_onCell (calls : List Call) (saved : Addr) (m : Memory) :
    alone (calls.map (Call.onCell p)) saved m = alone calls saved m := by
  induction calls generalizing saved m with
  | nil => rfl
  | cons c calls ih =>
      rw [List.map_cons, alone, alone]
      simp only [ih]
      rfl

theorem callsOf_onCell (calls : List Call) :
    callsOf (some p) (calls.map (Call.onCell p)) = calls.map (Call.onCell p) := by
  refine List.filter_eq_self.mpr fun c hc => ?_
  obtain ⟨c', -, rfl⟩ := List.mem_map.mp hc
  exact decide_eq_true rfl

theorem mem_callsOf {c : Call} : c ∈ callsOf i calls ↔ c ∈ calls ∧ c.search = i := by
  simp [callsOf]

theorem Resumable.onCell {later : List Call} {ready ready' : Option Addr → Prop}
    (h : Resumable ready (calls ++ later)) (himp : ready i → ready' (some p)) :
    Resumable ready' ((callsOf i calls).map (Call.onCell p)) := by
  induction calls generalizing ready ready' with
  | nil => trivial
  | cons c calls ih =>
      obtain ⟨hhead, hrest⟩ := h
      by_cases hi : c.search = i
      · rw [callsOf_cons_of_eq hi]
        exact ⟨fun hs => himp (hi ▸ hhead hs), ih hrest fun _ => .inl rfl⟩
      · rw [callsOf_cons_of_ne hi]
        exact ih hrest fun hr => himp (hr.resolve_left fun heq => hi heq.symm)

theorem Free.stringAt (h : Free area st calls i p) {c : Call} (hc : c ∈ callsOf i calls)
    {cs : List Byte} (hcs : StringAt st.memory c.sep cs) :
    StringAt (st.onCell i p).memory c.sep cs := by
  obtain ⟨hmem, hi⟩ := mem_callsOf.mp hc
  exact hcs.congr fun k hk => writePtr_of_not_within _ _ (h.set c hmem hi cs hcs k hk)

theorem Free.memory_eq (h : Free area st calls i p) :
    ∀ a ∈ area i, (st.onCell i p).memory a = st.memory a :=
  fun a ha => writePtr_of_not_within _ _ (h.area a ha)

/-- The calls of one search keep to its area. -/
theorem Arena.onCell {later : List Call} (h : Arena area st (calls ++ later))
    (hfree : Free area st calls i p) :
    Arena (fun j => if j = some p then area i else ∅) (st.onCell i p)
      ((callsOf i calls).map (Call.onCell p)) where
  disjoint := fun j j' hne a ha ha' => by
    by_cases hj : j = some p
    · rw [if_neg fun hj' => hne (hj.trans hj'.symm)] at ha'
      exact ha'
    · rw [if_neg hj] at ha
      exact ha
  nonnull := fun j hj => by
    split_ifs at hj
    · exact h.nonnull i hj
    · exact hj
  cells := fun c hc c' hc' q hq q' hq' hne => by
    obtain ⟨c₁, -, rfl⟩ := List.mem_map.mp hc
    obtain ⟨c₂, -, rfl⟩ := List.mem_map.mp hc'
    exact absurd ((Option.some.inj hq).symm.trans (Option.some.inj hq')) hne
  cell_area := fun c hc q hq j a ha => by
    obtain ⟨c₁, -, rfl⟩ := List.mem_map.mp hc
    obtain rfl := Option.some.inj hq
    split_ifs at ha
    · exact hfree.area a ha
    · exact ha.elim
  set := fun c hc => by
    obtain ⟨c₁, hc₁, rfl⟩ := List.mem_map.mp hc
    obtain ⟨hmem, hi⟩ := mem_callsOf.mp hc₁
    obtain ⟨cs, hcs, hclear⟩ := h.set c₁ (List.mem_append_left _ hmem)
    refine ⟨cs, hfree.stringAt hc₁ hcs, fun k hk j hj => ?_, fun k hk c' hc' q hq => ?_⟩
    · split_ifs at hj
      · exact hclear.area k hk i hj
      · exact hj
    · obtain ⟨c₂, -, rfl⟩ := List.mem_map.mp hc'
      obtain rfl := Option.some.inj hq
      exact hfree.set c₁ hmem hi cs hcs k hk
  start := fun c hc hs => by
    obtain ⟨c₁, hc₁, rfl⟩ := List.mem_map.mp hc
    obtain ⟨hmem, hi⟩ := mem_callsOf.mp hc₁
    have hin := h.start c₁ (List.mem_append_left _ hmem) hs
    rw [hi] at hin
    change Inside _ (if some p = some p then area i else ∅) _
    rw [if_pos rfl]
    exact hin.congr hfree.memory_eq
  resume := h.resume.onCell fun hready => by
    have hsaved : (st.onCell i p).saved (some p) = st.saved i := readPtr_writePtr _ _ _
    rw [Ready, hsaved, if_pos rfl]
    exact hready.imp_right fun hin => hin.congr hfree.memory_eq

/-- Through `strtok_r` alone, a search returns the same and leaves the same bytes. -/
theorem Arena.run_onCell {later : List Call} (h : Arena area st (calls ++ later))
    {trace : List (Option Addr × Addr)} {st' : State} (hrun : run st calls = some (trace, st'))
    (hfree : Free area st calls i p) : ∃ trace' st'',
    run (st.onCell i p) ((callsOf i calls).map (Call.onCell p)) = some (trace', st'') ∧
    resultsOf (some p) trace' = resultsOf i trace ∧ ∀ a ∈ area i, st''.memory a = st'.memory a := by
  obtain ⟨trace₀, st₀, hrun₀, -, -, hall⟩ := h.run_eq
  obtain ⟨rfl, rfl⟩ : trace₀ = trace ∧ st₀ = st' := by simpa using hrun₀.symm.trans hrun
  have hcell : Arena (fun j => if j = some p then area i else ∅) (st.onCell i p)
      ((callsOf i calls).map (Call.onCell p) ++ []) := by
    rw [List.append_nil]
    exact h.onCell hfree
  obtain ⟨trace', st'', hrun', -, -, hall'⟩ := hcell.run_eq
  -- both runs are compared with the search alone on the memory that has the new pointer
  have hsaved : st.saved i = (st.onCell i p).saved (some p) := (readPtr_writePtr _ _ _).symm
  obtain ⟨saved₁, m₁, halone, hm₁⟩ := hall i (st.onCell i p).memory (st.saved i) hfree.memory_eq
    (fun _ _ _ => rfl) fun c hc hi cs hcs => hfree.stringAt (mem_callsOf.mpr ⟨hc, hi⟩) hcs
  obtain ⟨saved₂, m₂, halone', hm₂⟩ := hall' (some p) (st.onCell i p).memory (st.saved i)
    (fun _ _ => rfl) (fun _ _ _ => hsaved) fun _ _ _ _ hcs => hcs
  rw [callsOf_onCell, alone_onCell, halone] at halone'
  obtain ⟨hresults, -, rfl⟩ : resultsOf i trace₀ = resultsOf (some p) trace' ∧ saved₁ = saved₂ ∧
    m₁ = m₂ := by simpa using halone'
  refine ⟨trace', st'', hrun', hresults.symm, fun a ha => ?_⟩
  rw [← hm₁ a ha, hm₂ a]
  rwa [if_pos rfl]

end OnCell

/-! ## The tokens of a search -/

/-- The calls of a search that starts with a string return its tokens. -/
theorem Arena.run_tokens {area : Option Addr → Set Addr} {st st' : State} {calls later : List Call}
    (h : Arena area st (calls ++ later)) {trace : List (Option Addr × Addr)}
    (hrun : run st calls = some (trace, st')) {i : Option Addr} {c : Call} {rest : List Call}
    (hcalls : callsOf i calls = c :: rest) (hs : c.s ≠ 0) (hrest : ∀ c' ∈ rest, c'.s = 0)
    {xs : List Byte} (hxs : StringAt st.memory c.s xs) {sets : List (List Byte)}
    (hsets : List.Forall₂ (fun c cs => StringAt st.memory c.sep cs) (c :: rest) sets) :
    resultsOf i trace = (tokens xs (some 0) (sets.map sepTest)).map (tokenPtr c.s) ∧
      Tokenized (area i) c.s xs (tokens xs (some 0) (sets.map sepTest)) st.memory st'.memory := by
  obtain ⟨trace₀, st₀, hrun₀, -, -, hall⟩ := h.run_eq
  obtain ⟨rfl, rfl⟩ : trace₀ = trace ∧ st₀ = st' := by simpa using hrun₀.symm.trans hrun
  have hmem : ∀ c' ∈ c :: rest, c' ∈ calls ∧ c'.search = i := fun c' hc' =>
    mem_callsOf.mp (hcalls ▸ hc')
  obtain ⟨hc, hi⟩ := hmem c List.mem_cons_self
  obtain ⟨xs', hxs', hin⟩ := h.start c (List.mem_append_left _ hc) hs
  obtain rfl := hxs'.unique hxs
  rw [hi] at hin
  have hseps : List.Forall₂ (fun c' cs => Separators st.memory c.s xs' c'.sep cs) (c :: rest)
      sets := by
    refine List.Forall₂.imp ?_ ((List.forall₂_and_left (c :: rest) sets).mpr ⟨hmem, hsets⟩)
    rintro c' cs ⟨⟨hc', -⟩, hcs⟩
    obtain ⟨cs', hcs', hclear⟩ := h.set c' (List.mem_append_left _ hc')
    obtain rfl := hcs'.unique hcs
    exact ⟨hcs, fun k hk j hj heq => hclear.area j hj i (heq ▸ hin k hk.le)⟩
  have hstart : ∀ c' ∈ (c :: rest).head?,
      (if c'.s = 0 then st.saved i else c'.s) = resumePtr c.s (some 0) := by
    intro c' hc'
    obtain rfl := Option.some.inj hc'
    rw [if_neg hs, resumePtr, ptrAdd_zero]
  obtain ⟨saved, m, halone, htok⟩ := alone_tokens (some 0) hseps hstart hrest
    (fun k hk hnull => h.nonnull i (hnull ▸ hin k hk)) hxs'.length_lt (by
      intro k hk
      obtain rfl := Option.some.inj hk
      rw [ptrAdd_zero]
      exact ⟨Nat.zero_le _, hxs'⟩)
  obtain ⟨saved', m', halone', hm'⟩ := hall i st.memory (st.saved i) (fun _ _ => rfl)
    (fun _ _ _ => rfl) fun _ _ _ _ hcs => hcs
  rw [hcalls, halone] at halone'
  obtain ⟨hresults, -, rfl⟩ : _ = resultsOf i trace₀ ∧ saved = saved' ∧ m = m' := by
    simpa using halone'
  refine ⟨hresults.symm, fun first last ht => ?_, fun first last ht => ?_, fun a ha hne => ?_⟩
  · obtain ⟨-, -, hlt, hle⟩ := tokens_bounds ht
    refine (htok.texts first last ht).congr fun k hk => ?_
    rw [length_text hle] at hk
    rw [ptrAdd_ptrAdd]
    exact (hm' _ (hin _ (by omega))).symm
  · obtain ⟨-, -, -, hle⟩ := tokens_bounds ht
    rw [← hm' _ (hin _ hle)]
    exact htok.cut first last ht
  · rw [← hm' a ha]
    exact htok.keep a (Set.mem_univ a) hne

/-- Searches on strings and saved pointers of their own do not notice each other:
each goes as it would through `strtok_r` alone, and nothing else is written.  One
that starts with a string returns its tokens, for whatever separators its calls
are given, and writes the NULs that end them; with the same separators in all
calls these are the maximal runs of the string without separators, in order, and
then NULL.  Later calls find the searches as they were left. -/
theorem strtok_tokens {area : Option Addr → Set Addr} {st : State} {calls later : List Call}
    (h : Arena area st (calls ++ later)) : ∃ trace st', run st calls = some (trace, st') ∧
    Arena area st' later ∧
    (∀ a, (∀ i, a ∉ area i) → (∀ c ∈ calls, ∀ p ∈ c.search, ¬ Within p 8 a) →
      st'.memory a = st.memory a) ∧
    (∀ i p, Free area st calls i p → ∃ trace' st'',
      run (st.onCell i p) ((callsOf i calls).map (Call.onCell p)) = some (trace', st'') ∧
      resultsOf (some p) trace' = resultsOf i trace ∧
      ∀ a ∈ area i, st''.memory a = st'.memory a) ∧
    ∀ i c rest xs sets, callsOf i calls = c :: rest → c.s ≠ 0 → (∀ c' ∈ rest, c'.s = 0) →
      StringAt st.memory c.s xs →
      List.Forall₂ (fun c cs => StringAt st.memory c.sep cs) (c :: rest) sets →
      let ts := tokens xs (some 0) (sets.map sepTest)
      resultsOf i trace = ts.map (tokenPtr c.s) ∧ Searched xs (some 0) (sets.map sepTest) ts ∧
      Tokenized (area i) c.s xs ts st.memory st'.memory ∧
      ∀ cs, (∀ cs' ∈ sets, cs' = cs) → ts.map (Option.map (text xs)) =
        ((Fields.runs (sepTest cs) xs).map some).take sets.length ++
          List.replicate (sets.length - (Fields.runs (sepTest cs) xs).length) none := by
  obtain ⟨trace, st', hrun, hlater, hframe, -⟩ := h.run_eq
  refine ⟨trace, st', hrun, hlater, hframe, fun i p => h.run_onCell hrun, ?_⟩
  intro i c rest xs sets hcalls hs hrest hxs hsets ts
  obtain ⟨hresults, htok⟩ := h.run_tokens hrun hcalls hs hrest hxs hsets
  refine ⟨hresults, tokens_searched .., htok, fun cs hcs => ?_⟩
  have hsame : sets.map sepTest = List.replicate sets.length (sepTest cs) := by
    conv_lhs => rw [List.eq_replicate_of_mem hcs, List.map_replicate]
  change (tokens xs (some 0) (sets.map sepTest)).map _ = _
  rw [hsame, map_text_tokens, List.drop_zero]

/-- `a,b` at 16 and `,c` at 32, both separated by `,`: the first is searched with
`strtok`, the other one with `strtok_r` in between. -/
theorem strtok_tokens_between :
    let st : State := ⟨fun a => if a = 16 then 97 else if a = 17 then 44 else if a = 18 then 98 else
      if a = 32 then 44 else if a = 33 then 99 else if a = 48 then 44 else 0, 0⟩
    ∃ trace st', run st [⟨none, 16, 48⟩, ⟨some 64, 32, 48⟩, ⟨none, 0, 48⟩] = some (trace, st') ∧
      resultsOf none trace = [16, 18] ∧ st'.memory 17 = 0 := by
  intro st
  have hcell : ∀ c ∈ [⟨none, 16, 48⟩, ⟨some 64, 32, 48⟩, ⟨none, 0, 48⟩] ++ ([] : List Call),
      ∀ p ∈ c.search, p = 64 := by simp
  have hcs : StringAt st.memory 48 [44] := ⟨rfl, by decide, rfl⟩
  have h : Arena (fun i => {a | i = none ∧ Within 16 4 a ∨ i = some 64 ∧ Within 32 3 a}) st
      ([⟨none, 16, 48⟩, ⟨some 64, 32, 48⟩, ⟨none, 0, 48⟩] ++ []) :=
    { disjoint := by
        have hsep : Separate 16 4 32 3 := separate_of_add_le (by decide) (by decide)
        rintro i j hne a (⟨rfl, ha⟩ | ⟨rfl, ha⟩) (⟨rfl, ha'⟩ | ⟨rfl, ha'⟩)
        · exact hne rfl
        · exact hsep a ha ha'
        · exact hsep a ha' ha
        · exact hne rfl
      nonnull := by
        rintro i (⟨-, ha⟩ | ⟨-, ha⟩)
        · exact absurd ha (by decide)
        · exact absurd ha (by decide)
      cells := fun c hc c' hc' p hp q hq hne =>
        absurd ((hcell c hc p hp).trans (hcell c' hc' q hq).symm) hne
      cell_area := by
        rintro c hc p hp i a (⟨-, ha⟩ | ⟨-, ha⟩)
        · obtain rfl := hcell c hc p hp
          exact separate_of_add_le (by decide) (by decide) a ha
        · obtain rfl := hcell c hc p hp
          exact separate_of_add_le (by decide) (by decide) a ha
      set := by
        have hclear : Clear (fun i => {a | i = none ∧ Within 16 4 a ∨ i = some 64 ∧ Within 32 3 a})
            ([⟨none, 16, 48⟩, ⟨some 64, 32, 48⟩, ⟨none, 0, 48⟩] ++ []) 48 1 := by
          refine ⟨fun k hk i => ?_, fun k hk c hc p hp => ?_⟩
          · obtain rfl : k = 0 := by omega
            rintro (⟨-, ha⟩ | ⟨-, ha⟩)
            · exact absurd ha (by decide)
            · exact absurd ha (by decide)
          · obtain rfl := hcell c hc p hp
            exact (by decide : ∀ k ≤ 1, ¬ Within 64 8 (ptrAdd 48 k)) k hk
        intro c hc
        have hsep : c.sep = 48 := (by simp : ∀ c ∈ [⟨none, 16, 48⟩, ⟨some 64, 32, 48⟩,
          ⟨none, 0, 48⟩] ++ ([] : List Call), c.sep = 48) c hc
        rw [hsep]
        exact ⟨[44], hcs, hclear⟩
      start := by
        simp only [List.append_nil, List.forall_mem_cons]
        refine ⟨fun _ => ⟨[97, 44, 98], ⟨rfl, by decide, rfl, by decide, rfl, by decide, rfl⟩, ?_⟩,
          fun _ => ⟨[44, 99], ⟨rfl, by decide, rfl, by decide, rfl⟩, ?_⟩,
          fun h0 => absurd rfl h0, nofun⟩
        · exact fun k hk => .inl ⟨trivial, within_ptrAdd (Nat.lt_succ_of_le hk) (by decide)⟩
        · exact fun k hk => .inr ⟨trivial, within_ptrAdd (Nat.lt_succ_of_le hk) (by decide)⟩
      resume := ⟨fun h0 => absurd h0 (by decide), fun h0 => absurd h0 (by decide),
        fun _ => .inr (.inl rfl), trivial⟩ }
  obtain ⟨trace, st', hrun, -, -, -, htokens⟩ := strtok_tokens h
  have hnone := htokens none ⟨none, 16, 48⟩ [⟨none, 0, 48⟩] [97, 44, 98] [[44], [44]] rfl
    (by decide) (by simp) ⟨rfl, by decide, rfl, by decide, rfl, by decide, rfl⟩ (.cons hcs (.cons hcs .nil))
  exact ⟨trace, st', hrun, hnone.1, hnone.2.2.1.cut 0 1 (by decide)⟩

end Mytilus.Str
