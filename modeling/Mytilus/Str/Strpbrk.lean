import Mytilus.Base.Fields
import Mytilus.Str.Strlen

/-!
# The reads of `strspn`, `strcspn` and `strpbrk`

In every memory in which the two strings are mapped the functions return, and so
read nothing past the terminators.  What they return is then known from
`Span.lean`, whichever path the length of the set chooses.
-/

namespace Mytilus.Str.Checked

open Memory Mapped

/-- `while *cp != 0 { byteset_set(&mut byteset, *cp); cp = cp.add(1); }` -/
def bytesetLoop (m : Mapped) : ℕ → Addr → Byteset → Option Byteset
  | 0, _, _ => none
  | n + 1, cp, bs => do
      let b ← m.read cp
      if b ≠ 0 then bytesetLoop m n (ptrAdd cp 1) (bytesetSet bs b) else return bs

/-- `size_t strspn(const char *s, const char *c)` -/
def strspn (m : Mapped) (s c : Addr) : Option (BitVec 64) := do
  let c₀ ← m.read c
  if c₀ = 0 then
    return 0
  else do
    let c₁ ← m.read (ptrAdd c 1)
    if c₁ = 0 then do
      let p ← scanWhile (fun b => decide (b = c₀)) m scanSteps s
      return p - s
    else do
      let byteset ← bytesetLoop m scanSteps c fun _ => 0
      let sp ← scanWhile (fun b => decide (b ≠ 0) && bytesetTest byteset b) m scanSteps s
      return sp - s

/-- `size_t strcspn(const char *s, const char *c)` -/
def strcspn (m : Mapped) (s c : Addr) : Option (BitVec 64) := do
  let c₀ ← m.read c
  let short ← (if c₀ = 0 then pure true else do
    let c₁ ← m.read (ptrAdd c 1)
    pure (decide (c₁ = 0)))
  if short = true then do
    let p ← strchrnul m s (c₀.setWidth 32)
    return p - s
  else do
    let byteset ← bytesetLoop m scanSteps c fun _ => 0
    let sp ← scanWhile (fun b => decide (b ≠ 0) && !bytesetTest byteset b) m scanSteps s
    return sp - s

/-- `char *strpbrk(const char *s, const char *b)` -/
def strpbrk (m : Mapped) (s b : Addr) : Option Addr := do
  let n ← strcspn m s b
  let p := s + n
  let x ← m.read p
  return if x ≠ 0 then p else 0

/-! ## Agreement with the whole of memory -/

section Agreement

variable {m : Mapped} {M : Memory} {s c : Addr} {r : BitVec 64}

theorem bytesetLoop_agrees (hm : m.Agrees M) {n : ℕ} {bs bs' : Byteset}
    (h : bytesetLoop m n c bs = some bs') : Str.bytesetLoop M n c bs = some bs' := by
  induction n generalizing c bs with
  | zero => cases h
  | succ n ih =>
      obtain ⟨b, hb, h⟩ := Option.bind_eq_some_iff.mp h
      rw [Str.bytesetLoop, hm _ b hb]
      split_ifs at h ⊢
      · exact ih h
      · exact h

theorem strspn_agrees (hm : m.Agrees M) (h : strspn m s c = some r) :
    Str.strspn M s c = some r := by
  obtain ⟨c₀, hc₀, h⟩ := Option.bind_eq_some_iff.mp h
  rw [Str.strspn, hm _ _ hc₀]
  by_cases hempty : c₀ = 0
  · rw [if_pos hempty] at h ⊢
    exact h
  rw [if_neg hempty] at h ⊢
  obtain ⟨c₁, hc₁, h⟩ := Option.bind_eq_some_iff.mp h
  rw [hm _ _ hc₁]
  split_ifs at h ⊢
  · obtain ⟨p, hp, h⟩ := Option.bind_eq_some_iff.mp h
    rw [scanWhile_agrees hm hp]
    exact h
  · obtain ⟨bs, hbs, h⟩ := Option.bind_eq_some_iff.mp h
    obtain ⟨sp, hsp, h⟩ := Option.bind_eq_some_iff.mp h
    rw [bytesetLoop_agrees hm hbs, Option.bind_eq_bind, Option.bind_some, scanWhile_agrees hm hsp]
    exact h

theorem strcspn_agrees (hm : m.Agrees M) (h : strcspn m s c = some r) :
    Str.strcspn M s c = some r := by
  obtain ⟨c₀, hc₀, h⟩ := Option.bind_eq_some_iff.mp h
  obtain ⟨short, hshort, h⟩ := Option.bind_eq_some_iff.mp h
  have hpath : short = true ↔ M c = 0 ∨ M (ptrAdd c 1) = 0 := by
    rw [hm _ _ hc₀]
    split_ifs at hshort with hempty
    · cases hshort
      exact iff_of_true rfl (.inl hempty)
    · obtain ⟨c₁, hc₁, hshort⟩ := Option.bind_eq_some_iff.mp hshort
      cases hshort
      rw [hm _ _ hc₁, decide_eq_true_iff, or_iff_right hempty]
  rw [Str.strcspn]
  split_ifs at h with hshort
  · rw [if_pos (hpath.mp hshort), hm _ _ hc₀]
    obtain ⟨p, hp, h⟩ := Option.bind_eq_some_iff.mp h
    rw [strchrnul_agrees hm hp]
    exact h
  · rw [if_neg (mt hpath.mpr hshort)]
    obtain ⟨bs, hbs, h⟩ := Option.bind_eq_some_iff.mp h
    obtain ⟨sp, hsp, h⟩ := Option.bind_eq_some_iff.mp h
    rw [bytesetLoop_agrees hm hbs, Option.bind_eq_bind, Option.bind_some, scanWhile_agrees hm hsp]
    exact h

end Agreement

/-! ## The reads -/

section Reads

variable {m : Mapped} {s c : Addr} {xs cs : List Byte}

theorem exists_bytesetLoop {n : ℕ} (hc : StringAt m c cs) (hn : cs.length < n) (bs : Byteset) :
    ∃ bs', bytesetLoop m n c bs = some bs' := by
  induction cs generalizing c n bs with
  | nil =>
      obtain ⟨n, rfl⟩ := exists_round hn
      have hnul : m.read c = some 0 := hc
      exact ⟨bs, by rw [bytesetLoop, hnul]; rfl⟩
  | cons x cs ih =>
      obtain ⟨n, rfl⟩ := exists_round hn
      obtain ⟨hx, hne, hrest⟩ := hc
      obtain ⟨bs', hbs'⟩ := ih hrest (Nat.lt_of_succ_lt_succ hn) (bytesetSet bs x)
      refine ⟨bs', ?_⟩
      rw [bytesetLoop, hx, Option.bind_eq_bind, Option.bind_some, if_pos hne, hbs']

theorem exists_byteset (hc : StringAt m c cs) :
    ∃ bs, bytesetLoop m scanSteps c (fun _ => 0) = some bs :=
  exists_bytesetLoop hc hc.length_lt fun _ => 0

theorem exists_strspn (hs : StringAt m s xs) (hc : StringAt m c cs) :
    ∃ r, strspn m s c = some r := by
  match cs, hc with
  | [], hc =>
      have hnul : m.read c = some 0 := hc
      exact ⟨0, by rw [strspn, bind_of_some _ hnul]; rfl⟩
  | [b], hc =>
      obtain ⟨hb, hne, hnul⟩ := hc
      have hscan : scanWhile (fun x => decide (x = b)) m scanSteps s = _ :=
        hs.scan (decide_eq_false (Ne.symm hne))
      refine ⟨ptrAdd s (xs.takeWhile fun x => decide (x = b)).length - s, ?_⟩
      rw [strspn, bind_of_some _ hb, if_neg hne, bind_of_some _ hnul, if_pos rfl,
        bind_of_some _ hscan]
      rfl
  | b :: b' :: cs, hc =>
      obtain ⟨bs, hbs⟩ := exists_byteset hc
      obtain ⟨sp, hsp⟩ := exists_scan_nonzero hs (bytesetTest bs)
      obtain ⟨hb, hne, hb', hne', -⟩ := hc
      refine ⟨sp - s, ?_⟩
      rw [strspn, bind_of_some _ hb, if_neg hne, bind_of_some _ hb', if_neg hne',
        bind_of_some _ hbs, bind_of_some _ hsp]
      rfl

theorem exists_strcspn (hs : StringAt m s xs) (hc : StringAt m c cs) :
    ∃ r, strcspn m s c = some r := by
  match cs, hc with
  | [], hc =>
      have hnul : m.read c = some 0 := hc
      obtain ⟨p, hp⟩ := exists_strchrnul hs ((0 : Byte).setWidth 32)
      refine ⟨p - s, ?_⟩
      rw [strcspn, bind_of_some _ hnul, if_pos rfl, pure_bind, if_pos rfl, bind_of_some _ hp]
      rfl
  | [b], hc =>
      obtain ⟨hb, hne, hnul⟩ := hc
      obtain ⟨p, hp⟩ := exists_strchrnul hs (b.setWidth 32)
      refine ⟨p - s, ?_⟩
      rw [strcspn, bind_of_some _ hb, if_neg hne, bind_of_some _ hnul, pure_bind,
        if_pos (decide_eq_true rfl), bind_of_some _ hp]
      rfl
  | b :: b' :: cs, hc =>
      obtain ⟨bs, hbs⟩ := exists_byteset hc
      obtain ⟨sp, hsp⟩ := exists_scan_nonzero hs fun b => !bytesetTest bs b
      obtain ⟨hb, hne, hb', hne', -⟩ := hc
      refine ⟨sp - s, ?_⟩
      rw [strcspn, bind_of_some _ hb, if_neg hne, bind_of_some _ hb', pure_bind,
        decide_eq_false hne', if_neg Bool.false_ne_true, bind_of_some _ hbs, bind_of_some _ hsp]
      rfl

theorem strspn_eq (hs : StringAt m s xs) (hc : StringAt m c cs) :
    strspn m s c = some (BitVec.ofNat 64 (xs.takeWhile fun b => decide (b ∈ cs)).length) := by
  obtain ⟨r, hr⟩ := exists_strspn hs hc
  have htotal := strspn_agrees m.agrees_total hr
  rw [Str.strspn_eq (hs.agrees m.agrees_total) (hc.agrees m.agrees_total)] at htotal
  exact hr.trans htotal.symm

theorem strcspn_eq (hs : StringAt m s xs) (hc : StringAt m c cs) :
    strcspn m s c = some (BitVec.ofNat 64 (xs.takeWhile fun b => decide (b ∉ cs)).length) := by
  obtain ⟨r, hr⟩ := exists_strcspn hs hc
  have htotal := strcspn_agrees m.agrees_total hr
  rw [Str.strcspn_eq (hs.agrees m.agrees_total) (hc.agrees m.agrees_total)] at htotal
  exact hr.trans htotal.symm

/-- The byte that stops `strcspn` decides what `strpbrk` returns. -/
theorem strpbrk_eq (hs : StringAt m s xs) (hc : StringAt m c cs) {k : ℕ}
    (hk : k = (xs.takeWhile fun b => decide (b ∉ cs)).length) :
    strpbrk m s c = some (if k < xs.length then ptrAdd s k else 0) := by
  have hle : k ≤ xs.length := hk ▸ (List.takeWhile_prefix _).length_le
  rw [strpbrk, bind_of_some _ (strcspn_eq hs hc), ← hk]
  change (m.read (ptrAdd s k) >>= _) = _
  by_cases hlt : k < xs.length
  · rw [bind_of_some _ (hs.getElem? (List.getElem?_eq_getElem hlt)),
      if_pos (hs.ne_zero _ (List.getElem_mem hlt)), if_pos hlt]
    rfl
  · obtain rfl : k = xs.length := by omega
    rw [bind_of_some _ hs.nul, if_neg (not_not.mpr rfl), if_neg hlt]
    rfl

end Reads

/-- **Spans of two strings.**  With nothing mapped but the strings and their
terminators, `strspn` and `strcspn` measure the longest prefix inside the set and
outside it, and `strpbrk` points at the first byte in the set, or is null. -/
theorem spans_of_strings (m : Mapped) (s c : Addr) (xs cs : List Byte) (hs : StringAt m s xs)
    (hc : StringAt m c cs) :
    (∃ n, strspn m s c = some n ∧ Fields.LongestPrefix (· ∈ cs) xs n.toNat) ∧
      (∃ n, strcspn m s c = some n ∧ Fields.LongestPrefix (· ∉ cs) xs n.toNat) ∧
      ∃ p, strpbrk m s c = some p ∧ (p = 0 ↔ ∀ b ∈ xs, b ∉ cs) ∧
        ∀ k b, xs[k]? = some b → b ∈ cs → (∀ b' ∈ xs.take k, b' ∉ cs) → p = ptrAdd s k := by
  have hfits : ∀ p : Byte → Bool, (BitVec.ofNat 64 (xs.takeWhile p).length).toNat =
      (xs.takeWhile p).length := fun p =>
    Nat.mod_eq_of_lt ((List.takeWhile_prefix p).length_le.trans_lt hs.length_lt)
  have hinside := Fields.longestPrefix_takeWhile (· ∈ cs) xs
  have houtside := Fields.longestPrefix_takeWhile (· ∉ cs) xs
  refine ⟨⟨_, strspn_eq hs hc, ?_⟩, ⟨_, strcspn_eq hs hc, ?_⟩, _, strpbrk_eq hs hc rfl, ?_, ?_⟩
  · rwa [hfits]
  · rwa [hfits]
  · set k := (xs.takeWhile fun b => decide (b ∉ cs)).length
    split_ifs with hlt
    · have hbyte := hs.getElem? (List.getElem?_eq_getElem hlt)
      refine iff_of_false (ne_zero_of_read hbyte) fun hnone => ?_
      exact houtside.next (List.getElem?_eq_getElem hlt) (hnone _ (List.getElem_mem hlt))
    · have hall : xs.take k = xs := List.take_of_length_le (not_lt.mp hlt)
      exact iff_of_true rfl (hall ▸ houtside.all)
  · intro k b hk hb hfirst
    obtain ⟨hlt, rfl⟩ := List.getElem?_eq_some_iff.mp hk
    have hle := houtside.longest k hlt.le hfirst
    have hge : (xs.takeWhile fun b => decide (b ∉ cs)).length ≤ k := by
      -- a longer prefix would hold the byte at `k`
      by_contra hgt
      exact houtside.all _ (List.mem_take_iff_getElem.mpr ⟨k, by omega, rfl⟩) hb
    rw [le_antisymm hge hle, if_pos hlt]

/-- `"ab"` at `0x1000` and `"b"` at `0x2000`, and nothing else. -/
def abAndB : Mapped :=
  view (fun a => if a = 0x1000 then 97 else if a = 0x1001 ∨ a = 0x2000 then 98 else 0)
    fun a => Within 0x1000 3 a ∨ Within 0x2000 2 a

theorem spans_of_strings_ab :
    strpbrk abAndB 0x1000 0x2000 = some (ptrAdd 0x1000 1) ∧ ∃ n,
      strspn abAndB 0x1000 0x2000 = some n ∧
        Fields.LongestPrefix (· ∈ ([98] : List Byte)) [97, 98] n.toNat := by
  have hs : StringAt abAndB 0x1000 [97, 98] := ⟨rfl, by decide, rfl, by decide, rfl⟩
  have hc : StringAt abAndB 0x2000 [98] := ⟨rfl, by decide, rfl⟩
  obtain ⟨hspan, -, p, hp, -, hfirst⟩ := spans_of_strings abAndB 0x1000 0x2000 [97, 98] [98] hs hc
  rw [hp, hfirst 1 98 rfl (by decide) (by decide)]
  exact ⟨rfl, hspan⟩

end Mytilus.Str.Checked
