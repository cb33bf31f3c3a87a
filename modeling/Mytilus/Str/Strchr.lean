import Mytilus.Base.Fields
import Mytilus.Str.Strlen

/-!
# `memchr`, `memrchr`, `strchr` and `strrchr`

Each takes the low byte of an `int` for the byte it looks for.  The two searches
of strings are those of the bytes with the terminator: `strrchr` calls `memrchr`,
and `strchr` reads the byte at which `strchrnul` has stopped.

`Finds` says that a pointer is the first or the last place of a byte, or NULL when
there is none, and `Finds.unique` that this determines it.  So `searches_lawful` only
has to say what each function finds (`memchr_finds`, `memrchr_finds`, `strchr_finds`).
-/

namespace Mytilus.Str.Checked

open Memory Mapped Fields

/-- `while i < n { if *s.add(i) == target { return s.add(i); } i += 1; }` -/
def memchrLoop (m : Mapped) (s : Addr) (target : Byte) (n i : ℕ) : Option Addr :=
  if i < n then do
    let b ← m.read (ptrAdd s i)
    if b = target then return ptrAdd s i else memchrLoop m s target n (i + 1)
  else
    return 0
termination_by n - i

/-- `void *memchr(const void *src, int c, size_t n)` -/
def memchr (m : Mapped) (src : Addr) (c : BitVec 32) (n : BitVec 64) : Option Addr :=
  memchrLoop m src (c.setWidth 8) n.toNat 0

/-- `while i > 0 { i -= 1; if *s.add(i) == target { return s.add(i); } }` -/
def memrchrLoop (m : Mapped) (s : Addr) (target : Byte) : (i : ℕ) → Option Addr
  | 0 => some 0
  | i + 1 => do
      let b ← m.read (ptrAdd s i)
      if b = target then return ptrAdd s i else memrchrLoop m s target i

/-- `void *__memrchr(const void *src, int c, size_t n)`, and `memrchr`, which forwards to it. -/
def memrchr (m : Mapped) (src : Addr) (c : BitVec 32) (n : BitVec 64) : Option Addr :=
  memrchrLoop m src (c.setWidth 8) n.toNat

/-- `char *strchr(const char *s, int c)` -/
def strchr (m : Mapped) (s : Addr) (c : BitVec 32) : Option Addr := do
  let r ← strchrnul m s c
  let b ← m.read r
  return if b = c.setWidth 8 then r else 0

/-- `char *strrchr(const char *s, int c)` -/
def strrchr (m : Mapped) (s : Addr) (c : BitVec 32) : Option Addr := do
  let len ← strlen m s
  memrchr m s c (len + 1)

/-! ## What a search finds -/

/-- The pointer `p` is to the place of `b` among the bytes at `s`, or null if there is none. -/
structure Finds (place : Byte → List Byte → ℕ → Prop) (s : Addr) (xs : List Byte) (b : Byte)
    (p : Addr) : Prop where
  null_iff : p = 0 ↔ b ∉ xs
  found : ∀ k, place b xs k → p = ptrAdd s k

section Searches

variable {m : Mapped} {s p q : Addr} {xs : List Byte} {b : Byte} {k : ℕ}

theorem finds_null {place : Byte → List Byte → ℕ → Prop}
    (hplace : ∀ k, place b xs k → xs[k]? = some b) (h : b ∉ xs) : Finds place s xs b 0 :=
  ⟨iff_of_true rfl h, fun k hk => absurd (List.mem_of_getElem? (hplace k hk)) h⟩

/-- Finding a place of the mapped bytes. -/
theorem finds_place {place : Byte → List Byte → ℕ → Prop} (hs : BytesAt m s xs)
    (hbyte : xs[k]? = some b) (hunique : ∀ j, place b xs j → k = j) :
    Finds place s xs b (ptrAdd s k) where
  null_iff := iff_of_false (ne_zero_of_read (hs.getElem? hbyte))
    (not_not.mpr (List.mem_of_getElem? hbyte))
  found := fun j hj => by rw [hunique j hj]

theorem finds_firstAt (hs : BytesAt m s xs) (h : FirstAt b xs k) :
    Finds FirstAt s xs b (ptrAdd s k) :=
  finds_place hs h.1 fun _ => h.unique

theorem finds_lastAt (hs : BytesAt m s xs) (h : LastAt b xs k) : Finds LastAt s xs b (ptrAdd s k) :=
  finds_place hs h.1 fun _ => h.unique

/-- What finds the first place is unique. -/
theorem Finds.unique (h : Finds FirstAt s xs b p) (h' : Finds FirstAt s xs b q) : p = q := by
  by_cases hmem : b ∈ xs
  · obtain ⟨k, hk⟩ := exists_firstAt hmem
    rw [h.found k hk, h'.found k hk]
  · rw [h.null_iff.mpr hmem, h'.null_iff.mpr hmem]

/-! ## The loops -/

theorem memchrLoop_finds (hs : BytesAt m s xs) {i r : ℕ} (hr : i + r = xs.length)
    (hpassed : ∀ j < i, xs[j]? ≠ some b) :
    ∃ p, memchrLoop m s b xs.length i = some p ∧ Finds FirstAt s xs b p := by
  induction r generalizing i with
  | zero =>
      refine ⟨0, ?_, finds_null (fun _ h => h.1) fun hmem => ?_⟩
      · rw [memchrLoop, if_neg (by omega)]
        rfl
      · obtain ⟨k, hk⟩ := List.mem_iff_getElem?.mp hmem
        obtain ⟨hlt, -⟩ := List.getElem?_eq_some_iff.mp hk
        exact hpassed k (by omega) hk
  | succ r ih =>
      have hi : i < xs.length := by omega
      have hbyte := List.getElem?_eq_getElem hi
      rw [memchrLoop, if_pos hi, bind_of_some _ (hs.getElem? hbyte)]
      by_cases hb : xs[i] = b
      · rw [hb] at hbyte
        exact ⟨ptrAdd s i, if_pos hb, finds_firstAt hs ⟨hbyte, hpassed⟩⟩
      · rw [if_neg hb]
        refine ih (by omega) fun j hj => ?_
        rcases Nat.lt_succ_iff_lt_or_eq.mp hj with hlt | rfl
        · exact hpassed j hlt
        · rw [hbyte]
          exact fun heq => hb (Option.some.inj heq)

theorem memrchrLoop_finds (hs : BytesAt m s xs) {i : ℕ} (hi : i ≤ xs.length)
    (hpassed : ∀ j, i ≤ j → xs[j]? ≠ some b) :
    ∃ p, memrchrLoop m s b i = some p ∧ Finds LastAt s xs b p := by
  induction i with
  | zero =>
      refine ⟨0, rfl, finds_null (fun _ h => h.1) fun hmem => ?_⟩
      obtain ⟨k, hk⟩ := List.mem_iff_getElem?.mp hmem
      exact hpassed k (Nat.zero_le k) hk
  | succ i ih =>
      have hbyte := List.getElem?_eq_getElem hi
      rw [memrchrLoop, bind_of_some _ (hs.getElem? hbyte)]
      by_cases hb : xs[i] = b
      · rw [hb] at hbyte
        exact ⟨ptrAdd s i, if_pos hb, finds_lastAt hs ⟨hbyte, hpassed⟩⟩
      · rw [if_neg hb]
        refine ih (Nat.le_of_succ_le hi) fun j hj => ?_
        rcases Nat.eq_or_lt_of_le hj with rfl | hlt
        · rw [hbyte]
          exact fun heq => hb (Option.some.inj heq)
        · exact hpassed j hlt

end Searches

/-! ## Buffers and strings -/

section Strings

variable {m : Mapped} {s : Addr} {xs : List Byte} {n : BitVec 64}

theorem memchr_finds (c : BitVec 32) (hs : BytesAt m s xs) (hn : xs.length = n.toNat) :
    ∃ p, memchr m s c n = some p ∧ Finds FirstAt s xs (c.setWidth 8) p := by
  rw [memchr, ← hn]
  exact memchrLoop_finds hs (Nat.zero_add _) fun j hj => absurd hj (Nat.not_lt_zero j)

theorem memrchr_finds (c : BitVec 32) (hs : BytesAt m s xs) (hn : xs.length = n.toNat) :
    ∃ p, memrchr m s c n = some p ∧ Finds LastAt s xs (c.setWidth 8) p := by
  rw [memrchr, ← hn]
  exact memrchrLoop_finds hs le_rfl fun j hj => by simp [hj]

/-- The count of a string and its terminator does not overflow. -/
theorem length_terminated (hs : StringAt m s xs) :
    (xs ++ [0]).length = (BitVec.ofNat 64 xs.length + 1).toNat := by
  have hlt := hs.bytes.length_lt
  rw [List.length_append, List.length_singleton] at hlt ⊢
  bv_omega

theorem strchrnul_eq (c : BitVec 32) (hs : StringAt m s xs) :
    strchrnul m s c =
      some (ptrAdd s (xs.takeWhile fun x => decide (x ≠ c.setWidth 8)).length) := by
  have hlow : strchrnul m s c = strchrnul m s ((c.setWidth 8).setWidth 32) := by
    rw [strchrnul, strchrnul, BitVec.setWidth_setWidth_of_le _ (by norm_num), BitVec.setWidth_eq]
  obtain ⟨r, hr⟩ := exists_strchrnul hs ((c.setWidth 8).setWidth 32)
  have htotal := strchrnul_agrees m.agrees_total hr
  rw [Str.strchrnul_eq (hs.agrees m.agrees_total)] at htotal
  rw [hlow, hr, htotal]

/-- Where `strchrnul` stops, `strchr` finds the byte or the terminator. -/
theorem strchr_finds (c : BitVec 32) (hs : StringAt m s xs) :
    ∃ p, strchr m s c = some p ∧ Finds FirstAt s (xs ++ [0]) (c.setWidth 8) p ∧
      strchrnul m s c = some (if p ≠ 0 then p else ptrAdd s xs.length) := by
  have hstop := strchrnul_eq c hs
  have hprefix := longestPrefix_takeWhile (· ≠ c.setWidth 8) xs
  have hfirst := firstAt_of_takeWhile (b := c.setWidth 8) (l := xs)
  generalize (xs.takeWhile fun x => decide (x ≠ c.setWidth 8)).length = k at hstop hprefix hfirst
  rw [strchr, bind_of_some _ hstop]
  by_cases hlt : k < xs.length
  · have hat := (hfirst hlt).append [0]
    have hread := hs.bytes.getElem? hat.1
    refine ⟨ptrAdd s k, ?_, finds_firstAt hs.bytes hat, ?_⟩
    · rw [bind_of_some _ hread, if_pos rfl]
      rfl
    · rw [hstop, if_pos (ne_zero_of_read hread)]
  · obtain rfl : k = xs.length := le_antisymm hprefix.le (not_lt.mp hlt)
    have hnone : c.setWidth 8 ∉ xs := fun hmem =>
      hprefix.all _ (by rwa [List.take_length]) rfl
    rw [bind_of_some _ hs.nul]
    by_cases hzero : c.setWidth 8 = (0 : Byte)
    · rw [hzero] at hnone ⊢
      refine ⟨ptrAdd s xs.length, congrArg some (if_pos rfl),
        finds_firstAt hs.bytes (firstAt_length hnone), ?_⟩
      rw [hstop, if_pos (ne_zero_of_read hs.nul)]
    · refine ⟨0, congrArg some (if_neg (Ne.symm hzero)), finds_null (fun _ h => h.1) ?_, ?_⟩
      · intro hmem
        exact (List.mem_append.mp hmem).elim hnone fun h => hzero (List.mem_singleton.mp h)
      · rw [hstop, if_neg (not_not.mpr rfl)]

end Strings

/-- How the searches for a byte behave in a memory. -/
structure SearchLaws (m : Mapped) : Prop where
  memchr_first : ∀ s xs c (n : BitVec 64), BytesAt m s xs → xs.length = n.toNat →
    ∃ p, memchr m s c n = some p ∧ Finds FirstAt s xs (c.setWidth 8) p
  memrchr_last : ∀ s xs c (n : BitVec 64), BytesAt m s xs → xs.length = n.toNat →
    ∃ p, memrchr m s c n = some p ∧ Finds LastAt s xs (c.setWidth 8) p
  strchr_memchr : ∀ s xs c, StringAt m s xs →
    ∃ len p, strlen m s = some len ∧ strchr m s c = some p ∧ memchr m s c (len + 1) = some p
  strrchr_memrchr : ∀ s xs c, StringAt m s xs →
    ∃ len p, strlen m s = some len ∧ strrchr m s c = some p ∧ memrchr m s c (len + 1) = some p
  strchrnul_strchr : ∀ s xs c, StringAt m s xs →
    ∃ len p, strlen m s = some len ∧ strchr m s c = some p ∧
      strchrnul m s c = some (if p ≠ 0 then p else s + len)
  /-- With a low byte of zero all three point at the terminator. -/
  terminator : ∀ s xs (c : BitVec 32), StringAt m s xs → c.setWidth 8 = (0 : Byte) →
    ∃ len, strlen m s = some len ∧ strchr m s c = some (s + len) ∧
      strrchr m s c = some (s + len) ∧ strchrnul m s c = some (s + len)
  low_byte : ∀ s (n : BitVec 64) (c c' : BitVec 32), (c.setWidth 8 : Byte) = c'.setWidth 8 →
    memchr m s c n = memchr m s c' n ∧ memrchr m s c n = memrchr m s c' n ∧
      strchr m s c = strchr m s c' ∧ strrchr m s c = strrchr m s c' ∧
      strchrnul m s c = strchrnul m s c'

/-- **The searches for a byte find its first or its last place.** -/
theorem searches_lawful (m : Mapped) : SearchLaws m where
  memchr_first s xs c n hs hn := memchr_finds c hs hn
  memrchr_last s xs c n hs hn := memrchr_finds c hs hn
  strchr_memchr s xs c hs := by
    obtain ⟨p, hp, hfinds, -⟩ := strchr_finds c hs
    obtain ⟨q, hq, hfinds'⟩ := memchr_finds c hs.bytes (length_terminated hs)
    rw [hfinds'.unique hfinds] at hq
    exact ⟨_, p, strlen_eq hs, hp, hq⟩
  strrchr_memrchr s xs c hs := by
    obtain ⟨p, hp, -⟩ := memrchr_finds c hs.bytes (length_terminated hs)
    refine ⟨_, p, strlen_eq hs, ?_, hp⟩
    rw [strrchr, bind_of_some _ (strlen_eq hs)]
    exact hp
  strchrnul_strchr s xs c hs := by
    obtain ⟨p, hp, -, hstop⟩ := strchr_finds c hs
    exact ⟨_, p, strlen_eq hs, hp, hstop⟩
  terminator s xs c hs hzero := by
    have hnone : (0 : Byte) ∉ xs := fun hmem => hs.ne_zero 0 hmem rfl
    obtain ⟨p, hp, hfinds, hstop⟩ := strchr_finds c hs
    obtain ⟨q, hq, hfinds'⟩ := memrchr_finds c hs.bytes (length_terminated hs)
    rw [hzero] at hfinds hfinds'
    -- a zero byte is first found at the terminator, and last
    obtain rfl := hfinds.found _ (firstAt_length hnone)
    obtain rfl := hfinds'.found _ (lastAt_length 0 xs)
    rw [if_pos (ne_zero_of_read hs.nul)] at hstop
    refine ⟨_, strlen_eq hs, hp, ?_, hstop⟩
    rw [strrchr, bind_of_some _ (strlen_eq hs)]
    exact hq
  low_byte s n c c' hc := by
    have hnul : strchrnul m s c = strchrnul m s c' := by rw [strchrnul, strchrnul, hc]
    have hlast : ∀ n, memrchr m s c n = memrchr m s c' n := fun n => by
      rw [memrchr, memrchr, hc]
    refine ⟨by rw [memchr, memchr, hc], hlast n, ?_, ?_, hnul⟩
    · rw [strchr, strchr, hnul, hc]
    · simp only [strrchr, hlast]

/-- The string `"aba"` at `0x1000`, and nothing else. -/
def aba : Mapped :=
  view (fun a => if a = 0x1001 then 98 else if a = 0x1003 then 0 else 97) fun a => Within 0x1000 4 a

/-- A character out of the range of a byte: `'a' + 256`. -/
theorem searches_lawful_aba :
    memchr aba 0x1000 0x161 4 = some 0x1000 ∧ memrchr aba 0x1000 0x161 4 = some 0x1002 := by
  have hs : BytesAt aba 0x1000 [97, 98, 97, 0] := ⟨rfl, rfl, rfl, rfl, trivial⟩
  obtain ⟨p, hp, hfirst⟩ := (searches_lawful aba).memchr_first 0x1000 _ 0x161 4 hs rfl
  obtain ⟨q, hq, hlast⟩ := (searches_lawful aba).memrchr_last 0x1000 _ 0x161 4 hs rfl
  rw [hp, hq, hfirst.found 0 ⟨rfl, nofun⟩, hlast.found 2 ⟨rfl, ?_⟩]
  · exact ⟨rfl, rfl⟩
  · intro j hj
    rcases Nat.lt_or_ge j 4 with hlt | hge
    · obtain rfl : j = 3 := by omega
      decide
    · simp [hge]

end Mytilus.Str.Checked
