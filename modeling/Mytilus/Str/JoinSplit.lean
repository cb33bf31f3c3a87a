import Mytilus.Str.Strcat
import Mytilus.Str.StrtokStrsep

/-!
# Joining and splitting

Strings that a program joins with `strcpy` and `strcat`, with a separator before
each but the first, are what `strsep` splits the result into, whatever they are
and whichever separators stand between them.  `strtok` and `strtok_r` find those
that are not empty.

On lists that is `Joinable.splitOnP`: the fields of what is joined are the pieces.
`Joinable.copyThenCat` says that the calls leave the joined list in the buffer, and
`Joinable.separable` that the buffer may be separated then, so that `split_join` has
only to cite the results on `strsep` and on the searches.
-/

namespace Mytilus.Str

open Memory Mapped Fields Tokens Checked

/-- What is appended in one go: a string of one separator, and a string. -/
structure Piece where
  sepAt : Addr
  separator : Byte
  source : Addr × List Byte

/-- The strings that are appended. -/
def appended (pieces : List Piece) : List (Addr × List Byte) :=
  pieces.flatMap fun q => [(q.sepAt, [q.separator]), q.source]

/-- The strings that are joined, without the separators. -/
def joinedStrings (first : Addr × List Byte) (pieces : List Piece) : List (List Byte) :=
  first.2 :: pieces.map fun q => q.source.2

/-- The strings and separators lie outside a buffer that holds them all, the
separators are in the set at `sep` and in none of the strings, and `str` points
to the buffer. -/
structure Joinable (m : Mapped) (dest str sep : Addr) (n : ℕ) (cs : List Byte)
    (first : Addr × List Byte) (pieces : List Piece) : Prop where
  room : Room m dest n
  fit : (contents (first :: appended pieces)).length < n
  sources : Sources m dest n (first :: appended pieces)
  set : Mapped.StringAt m sep cs
  set_apart : Apart dest n sep (cs.length + 1)
  fields : ∀ xs ∈ joinedStrings first pieces, ∀ b ∈ xs, b ∉ cs
  separators : ∀ q ∈ pieces, q.separator ∈ cs
  at_str : readPtr m.total str = dest
  str_buffer : Separate str 8 dest n
  str_set : Separate str 8 sep (cs.length + 1)

section Joined

variable {m m' : Mapped} {dest str sep : Addr} {n : ℕ} {cs : List Byte}
  {first : Addr × List Byte} {pieces : List Piece}

theorem contents_appended (first : Addr × List Byte) (pieces : List Piece) :
    contents (first :: appended pieces) =
      joined first.2 (pieces.map fun q => (q.separator, q.source.2)) := by
  induction pieces generalizing first with
  | nil => rfl
  | cons q pieces ih =>
      calc contents (first :: appended (q :: pieces))
          = first.2 ++ q.separator :: contents (q.source :: appended pieces) := rfl
        _ = joined first.2 ((q :: pieces).map fun q => (q.separator, q.source.2)) := by
          rw [ih q.source]
          rfl

/-- The fields of what the strings are joined to. -/
theorem Joinable.splitOnP (h : Joinable m dest str sep n cs first pieces) :
    (contents (first :: appended pieces)).splitOnP (sepTest cs) = joinedStrings first pieces := by
  obtain ⟨hfirst, hpieces⟩ := List.forall_mem_cons.mp h.fields
  rw [contents_appended, splitOnP_joined fun b hb => decide_eq_false (hfirst b hb)]
  · rw [joinedStrings, List.map_map]
    rfl
  · intro q hq
    obtain ⟨piece, hpiece, rfl⟩ := List.mem_map.mp hq
    refine ⟨decide_eq_true (h.separators piece hpiece), fun b hb => decide_eq_false ?_⟩
    exact hpieces _ (List.mem_map_of_mem hpiece) b hb

/-- `strcpy` and `strcat` write the strings, the separators and a terminator. -/
theorem Joinable.copyThenCat (h : Joinable m dest str sep n cs first pieces) :
    ∃ m', Checked.copyThenCat dest first.1 ((appended pieces).map Prod.fst) m = some m' ∧
      Wrote dest (contents (first :: appended pieces) ++ [0]) m m' := by
  have hcontents : contents (first :: appended pieces) = first.2 ++ contents (appended pieces) :=
    rfl
  have hfit := h.fit
  rw [hcontents, List.length_append] at hfit
  obtain ⟨hfirst, hrest⟩ := List.forall_mem_cons.mp h.sources
  -- nothing is written before the first copy
  obtain ⟨m₁, hcopy, hwrote⟩ := stpcpy_append [] (.nil dest m) rfl le_rfl (Nat.zero_le 1) h.room
    (by rw [List.length_nil]; omega) hfirst.1 hfirst.2
  rw [List.length_nil, ptrAdd_zero] at hcopy
  obtain ⟨m', hcat, -, hwrote'⟩ := chains_append hwrote hfirst.1.ne_zero h.room hfit hrest
  refine ⟨m', ?_, hwrote'⟩
  rw [Checked.copyThenCat, strcpy, bind_of_some _ hcopy]
  exact hcat

/-- The joined string can be separated. -/
theorem Joinable.separable (h : Joinable m dest str sep n cs first pieces)
    (hwrote : Wrote dest (contents (first :: appended pieces) ++ [0]) m m') :
    Separable m'.total str dest sep (contents (first :: appended pieces)) cs := by
  have hfit := h.fit
  have hn := h.room.le
  have hlength : (contents (first :: appended pieces) ++ [0]).length ≤ n := by
    rw [List.length_append, List.length_singleton]
    omega
  have hne : ∀ x ∈ contents (first :: appended pieces), x ≠ 0 := by
    intro x hx
    obtain ⟨q, hq, hmem⟩ := List.mem_flatMap.mp hx
    exact (h.sources q hq).1.ne_zero x hmem
  have hstring := hwrote.stringAt hne
  refine ⟨?_, hstring.agrees m'.agrees_total, ?_, fun i hi => ?_, fun i hi j hj heq => ?_, ?_,
    h.str_set⟩
  · -- the pointer is outside the buffer
    rw [← h.at_str]
    refine readLE_congr fun k hk => congrArg (Option.getD · 0) (hwrote.frame _ fun hin => ?_)
    exact h.str_buffer _ (within_ptrAdd hk (by norm_num)) (lt_of_lt_of_le hin hlength)
  · have hset : Mapped.StringAt m' sep cs :=
      h.set.congr fun i hi => h.set_apart.read_eq hwrote hlength (Nat.lt_succ_of_le hi)
    exact hset.agrees m'.agrees_total
  · have hmapped := hwrote.isSome (h.room i (by omega))
    obtain ⟨b, hb⟩ := Option.isSome_iff_exists.mp hmapped
    exact ne_zero_of_read hb
  · refine h.set_apart j (by omega) ?_
    rw [← heq]
    exact within_ptrAdd (by omega) hn
  · exact h.str_buffer.mono le_rfl (by omega)

/-- The strings where their fields are placed. -/
theorem forall₂_placed {M : Memory} {s : Addr} {fields : List (ℕ × List Byte)}
    (h : ∀ f ∈ fields, StringAt M (ptrAdd s f.1) f.2) :
    List.Forall₂ (StringAt M) (fields.map fun f => ptrAdd s f.1) (fields.map Prod.snd) := by
  rw [List.forall₂_map_left_iff, List.forall₂_map_right_iff, List.forall₂_same]
  exact h

end Joined

/-- **Splitting undoes joining.**  The strings that `strcpy` and `strcat` have put
into the buffer, with separators between them, are what the calls of `strsep`
return, one after the other and none changed, and after them NULL.  A search with
`strtok` or `strtok_r` returns those that are not empty, and then NULL. -/
theorem split_join {m : Mapped} {dest str sep : Addr} {n : ℕ} {cs : List Byte}
    {first : Addr × List Byte} {pieces : List Piece}
    (h : Joinable m dest str sep n cs first pieces) :
    ∃ m', copyThenCat dest first.1 ((appended pieces).map Prod.fst) m = some m' ∧
      (∃ rs M, strsepCalls str sep (pieces.length + 2) m'.total = some (rs ++ [0], M) ∧
        (∀ r ∈ rs, r ≠ 0) ∧ List.Forall₂ (StringAt M) rs (joinedStrings first pieces)) ∧
      ∀ i saved, CellApart i dest sep (contents (first :: appended pieces)) cs →
        ∃ trace st rs k, run ⟨m'.total, saved⟩ (searchCalls i dest sep (pieces.length + 1)) =
            some (trace, st) ∧
          resultsOf i trace = rs ++ List.replicate (k + 1) 0 ∧
          List.Forall₂ (StringAt st.memory) rs
            ((joinedStrings first pieces).filter fun xs => !xs.isEmpty) := by
  obtain ⟨m', hjoin, hwrote⟩ := h.copyThenCat
  have hsep := h.separable hwrote
  have hfields := h.splitOnP
  have hlength : (joinedStrings first pieces).length = pieces.length + 1 := by
    rw [joinedStrings, List.length_cons, List.length_map]
  have hcount : (contents (first :: appended pieces)).countP (sepTest cs) < pieces.length + 1 := by
    have hsplit := length_splitOnP (p := sepTest cs) (contents (first :: appended pieces))
    rw [hfields, hlength] at hsplit
    omega
  refine ⟨m', hjoin, ?_, fun i saved hcell => ?_⟩
  · -- the fields of what was joined are the pieces, at their places
    obtain ⟨M, hcalls, hdone⟩ := hsep.strsepCalls (pieces.length + 2)
    have hplaced := hdone.placed (by omega)
    have hstarts := starts_ptrAdd dest 0 (joinedStrings first pieces)
    rw [ptrAdd_zero] at hstarts
    rw [hfields] at hcalls hplaced
    have htexts := forall₂_placed fun f hf => (hplaced f hf).2
    rw [map_snd_placed] at htexts
    have hnulls : pieces.length + 2 - (joinedStrings first pieces).length = 1 := by
      rw [hlength]
      omega
    refine ⟨_, M, ?_, ?_, htexts⟩
    · rw [hcalls, hnulls, List.take_of_length_le, hstarts]
      · rfl
      · rw [length_starts, hlength]
        omega
    · intro r hr
      obtain ⟨f, hf, rfl⟩ := List.mem_map.mp hr
      exact (hplaced f hf).1
  · have hsep₀ : Separable (State.mk m'.total saved).memory str dest sep
        (contents (first :: appended pieces)) cs := hsep
    obtain ⟨trace, st, hrun, ⟨k, hk, hresults⟩, htexts, -⟩ := hsep₀.searchCalls hcell hcount
    obtain ⟨k, rfl⟩ := Nat.exists_eq_add_one.mpr hk
    have hruns := map_snd_placedRuns (sepTest cs) 0 (contents (first :: appended pieces))
    rw [runs, hfields] at hruns
    refine ⟨trace, st, _, k, hrun, hresults, ?_⟩
    rw [← hruns]
    exact forall₂_placed htexts

/-- `"a"`, the empty string and `","`, a buffer, and a pointer to it. -/
def joinMemory : Mapped :=
  view
    (fun a => if a = 0x1000 then 97 else if a = 0x1002 then 44 else if a = 0x3001 then 0x20 else 0)
    fun a => Within 0x1000 4 a ∨ Within 0x2000 4 a ∨ Within 0x3000 8 a

/-- `a,` is split into `a` and the empty string, of which `strtok` finds the first. -/
theorem split_join_two :
    ∃ m', copyThenCat 0x2000 0x1000 [0x1002, 0x1001] joinMemory = some m' ∧
      (∃ rs M, strsepCalls 0x3000 0x1002 3 m'.total = some (rs ++ [0], M) ∧
        (∀ r ∈ rs, r ≠ 0) ∧ List.Forall₂ (StringAt M) rs [[97], []]) ∧
      ∃ trace st rs k, run ⟨m'.total, 0⟩ (searchCalls none 0x2000 0x1002 2) = some (trace, st) ∧
        resultsOf none trace = rs ++ List.replicate (k + 1) 0 ∧
        List.Forall₂ (StringAt st.memory) rs [[97]] := by
  have h : Joinable joinMemory 0x2000 0x3000 0x1002 4 [44] (0x1000, [97])
      [⟨0x1002, 44, (0x1001, [])⟩] :=
    { room := by unfold Room; decide
      fit := by decide
      sources := by
        refine List.forall_mem_cons.mpr ⟨⟨⟨rfl, by decide, rfl⟩, by unfold Apart; decide⟩,
          List.forall_mem_cons.mpr ⟨⟨⟨rfl, by decide, rfl⟩, by unfold Apart; decide⟩,
            List.forall_mem_singleton.mpr ⟨rfl, by unfold Apart; decide⟩⟩⟩
      set := ⟨rfl, by decide, rfl⟩
      set_apart := by unfold Apart; decide
      fields := by decide
      separators := by decide
      at_str := by decide +kernel
      str_buffer := (separate_of_add_le (by decide) (by decide)).symm
      str_set := (separate_of_add_le (by decide) (by decide)).symm }
  obtain ⟨m', hjoin, hsplit, hsearch⟩ := split_join h
  exact ⟨m', hjoin, hsplit, hsearch none 0 nofun⟩

end Mytilus.Str
