import Mytilus.Str.Strcpy
import Mytilus.Str.Strlen

/-!
# Chains of `strcat` and of `stpcpy`

`strcat` looks for the end of what is there, where a chain of `stpcpy` has it from
the call before.  Both start a copy on the terminator that the last one wrote, so
one call of either, appending to what is there, is the same call of `stpcpy`
(`strcat_append`).  `chains_append` is the induction over the strings, and
`chains_agree` says that both chains end in the same memory, with the strings one
after the other.
-/

namespace Mytilus.Str.Checked

open Memory Mapped

/-- `char *strcat(char *dest, const char *src)` -/
def strcat (dest src : Addr) (m : Mapped) : Option (Addr × Mapped) := do
  let len ← strlen m dest
  let out ← strcpy (dest + len) src m
  return (dest, out.2)

/-- One `strcat` after the other. -/
def catEach (dest : Addr) : List Addr → Mapped → Option Mapped
  | [], m => some m
  | src :: srcs, m => do
      let out ← strcat dest src m
      catEach dest srcs out.2

/-- The first string by `strcpy`, the rest by `strcat`. -/
def copyThenCat (dest src : Addr) (srcs : List Addr) (m : Mapped) : Option Mapped := do
  let out ← strcpy dest src m
  catEach dest srcs out.2

/-- Each string by `stpcpy`, at the pointer that the call before returned. -/
def chain : Addr → List Addr → Mapped → Option (Addr × Mapped)
  | d, [], m => some (d, m)
  | d, src :: srcs, m => do
      let out ← stpcpy d src m
      chain out.1 srcs out.2

section Chains

variable {m m' : Mapped} {dest src : Addr} {n : ℕ} {cs xs zs : List Byte}

/-- The strings at given addresses, apart from the `n` bytes of the destination. -/
def Sources (m : Mapped) (dest : Addr) (n : ℕ) (strings : List (Addr × List Byte)) : Prop :=
  ∀ q ∈ strings, StringAt m q.1 q.2 ∧ Apart dest n q.1 (q.2.length + 1)

/-- All the bytes of the strings. -/
def contents (strings : List (Addr × List Byte)) : List Byte := strings.flatMap Prod.snd

theorem Sources.of_wrote {strings : List (Addr × List Byte)} (h : Sources m dest n strings)
    (hw : Wrote dest zs m m') (hzs : zs.length ≤ n) : Sources m' dest n strings := by
  intro q hq
  obtain ⟨hstring, hapart⟩ := h q hq
  exact ⟨hstring.congr fun i hi => hapart.read_eq hw hzs (Nat.lt_succ_of_le hi), hapart⟩

variable (cs) in
/-- A copy that starts where what has been written ends, or on its terminator. -/
theorem stpcpy_append (hw : Wrote dest zs m m') (hcs : zs.take cs.length = cs)
    (hle : cs.length ≤ zs.length) (hend : zs.length ≤ cs.length + 1) (hroom : Room m dest n)
    (hfit : cs.length + xs.length < n) (hstring : StringAt m' src xs)
    (hapart : Apart dest n src (xs.length + 1)) :
    ∃ m'', stpcpy (ptrAdd dest cs.length) src m' = some (ptrAdd dest (cs ++ xs).length, m'') ∧
      Wrote dest (cs ++ xs ++ [0]) m m'' := by
  have hn := hroom.le
  have hroom' : Room m' (ptrAdd dest cs.length) (xs.length + 1) := by
    intro k hk
    rw [ptrAdd_ptrAdd]
    exact hw.isSome (hroom _ (by omega))
  have hapart' : Apart (ptrAdd dest cs.length) (xs.length + 1) src (xs.length + 1) :=
    fun i hi hin => hapart i hi (hin.of_part (by omega) hn)
  obtain ⟨m'', hcopy, hwrote⟩ := stpcpy_eq hstring hroom' hapart'
  refine ⟨m'', ?_, ?_⟩
  · rw [hcopy, ptrAdd_ptrAdd, List.length_append]
  · have happend := hw.trans hwrote hle (by simp; omega) (by simp; omega)
    rwa [hcs, ← List.append_assoc] at happend

/-- `strcat` finds the end of what has been written. -/
theorem strcat_append (hw : Wrote dest (cs ++ [0]) m m') (hcs : ∀ c ∈ cs, c ≠ 0)
    {out : Addr × Mapped} (hcopy : stpcpy (ptrAdd dest cs.length) src m' = some out) :
    strcat dest src m' = some (dest, out.2) := by
  have hlen := strlen_eq (stringAt_iff.mpr ⟨hw.bytes, hcs⟩)
  rw [strcat, bind_of_some _ hlen]
  change (strcpy (ptrAdd dest cs.length) src m' >>= _) = _
  rw [strcpy, bind_of_some _ hcopy]
  rfl

/-- The rest of the two chains, from the same memory. -/
theorem chains_append {strings : List (Addr × List Byte)} (hw : Wrote dest (cs ++ [0]) m m')
    (hcs : ∀ c ∈ cs, c ≠ 0) (hroom : Room m dest n)
    (hfit : cs.length + (contents strings).length < n) (hsources : Sources m dest n strings) :
    ∃ m'', catEach dest (strings.map Prod.fst) m' = some m'' ∧
      chain (ptrAdd dest cs.length) (strings.map Prod.fst) m' =
        some (ptrAdd dest (cs ++ contents strings).length, m'') ∧
      Wrote dest (cs ++ contents strings ++ [0]) m m'' := by
  induction strings generalizing cs m' with
  | nil =>
      refine ⟨m', rfl, ?_, ?_⟩
      · rw [contents, List.flatMap_nil, List.append_nil]
        rfl
      · rwa [contents, List.flatMap_nil, List.append_nil]
  | cons q strings ih =>
      obtain ⟨src, xs⟩ := q
      have hcontents : contents ((src, xs) :: strings) = xs ++ contents strings := rfl
      rw [hcontents, List.length_append] at hfit
      obtain ⟨hq, hrest⟩ := List.forall_mem_cons.mp hsources
      have hwlen : (cs ++ [0]).length ≤ n := by
        rw [List.length_append, List.length_singleton]
        omega
      obtain ⟨hstring, hapart⟩ : StringAt m' src xs ∧ Apart dest n src (xs.length + 1) :=
        (hsources.of_wrote hw hwlen) (src, xs) List.mem_cons_self
      obtain ⟨m₁, hcopy, hwrote⟩ := stpcpy_append cs hw (by simp) (by simp) (by simp) hroom
        (by omega) hstring hapart
      have hcsxs : ∀ c ∈ cs ++ xs, c ≠ 0 :=
        List.forall_mem_append.mpr ⟨hcs, hstring.ne_zero⟩
      obtain ⟨m₂, hcat, hchain, hwrote'⟩ :=
        ih hwrote hcsxs (by rw [List.length_append]; omega) hrest
      refine ⟨m₂, ?_, ?_, ?_⟩
      · rw [List.map_cons, catEach, bind_of_some _ (strcat_append hw hcs hcopy)]
        exact hcat
      · rw [List.map_cons, chain, bind_of_some _ hcopy, hcontents, ← List.append_assoc]
        exact hchain
      · rwa [hcontents, ← List.append_assoc]

end Chains

/-- **The two chains leave the same memory.**  It is the one before with the strings
one after the other at the destination, and a terminator, at which the pointer is
that the chain of `stpcpy` returns. -/
theorem chains_agree (m : Mapped) (dest : Addr) (n : ℕ) (first : Addr × List Byte)
    (rest : List (Addr × List Byte)) (hroom : Room m dest n)
    (hfit : (contents (first :: rest)).length < n) (hsources : Sources m dest n (first :: rest)) :
    ∃ m', copyThenCat dest first.1 (rest.map Prod.fst) m = some m' ∧
      chain dest ((first :: rest).map Prod.fst) m =
        some (ptrAdd dest (contents (first :: rest)).length, m') ∧
      Wrote dest (contents (first :: rest) ++ [0]) m m' := by
  obtain ⟨src, xs⟩ := first
  have hcontents : contents ((src, xs) :: rest) = xs ++ contents rest := rfl
  rw [hcontents, List.length_append] at hfit
  obtain ⟨hfirst, hrest⟩ := List.forall_mem_cons.mp hsources
  obtain ⟨hstring, hapart⟩ : StringAt m src xs ∧ Apart dest n src (xs.length + 1) := hfirst
  -- the first copy starts with nothing written
  obtain ⟨m₁, hcopy, hwrote⟩ := stpcpy_append [] (.nil dest m) rfl le_rfl (Nat.zero_le 1) hroom
    (by rw [List.length_nil]; omega) hstring hapart
  rw [List.length_nil, ptrAdd_zero] at hcopy
  obtain ⟨m', hcat, hchain, hwrote'⟩ := chains_append hwrote hstring.ne_zero hroom hfit hrest
  refine ⟨m', ?_, ?_, ?_⟩
  · rw [copyThenCat, strcpy, bind_of_some _ hcopy]
    exact hcat
  · rw [List.map_cons, chain, bind_of_some _ hcopy]
    exact hchain
  · exact hwrote'

/-- `"a"`, the empty string and `"b"`, and room for a byte more than their contents. -/
def threeStrings : Mapped :=
  view (fun a => if a = 0x1000 then 97 else if a = 0x1002 then 98 else 0)
    fun a => Within 0x1000 4 a ∨ Within 0x2000 4 a

theorem chains_agree_three :
    ∃ m', copyThenCat 0x2000 0x1000 [0x1001, 0x1002] threeStrings = some m' ∧
      chain 0x2000 [0x1000, 0x1001, 0x1002] threeStrings = some (0x2002, m') ∧
      Wrote 0x2000 [97, 98, 0] threeStrings m' := by
  refine chains_agree threeStrings 0x2000 4 (0x1000, [97]) [(0x1001, []), (0x1002, [98])]
    (by unfold Room; decide) (by decide) ?_
  refine List.forall_mem_cons.mpr ⟨⟨⟨rfl, by decide, rfl⟩, by unfold Apart; decide⟩,
    List.forall_mem_cons.mpr ⟨⟨rfl, by unfold Apart; decide⟩,
      List.forall_mem_singleton.mpr ⟨⟨rfl, by decide, rfl⟩, by unfold Apart; decide⟩⟩⟩

end Mytilus.Str.Checked
