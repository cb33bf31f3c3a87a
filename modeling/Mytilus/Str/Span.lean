import Mathlib.Data.List.TakeWhile
import Mytilus.Base.BitSet
import Mytilus.Base.CString

/-!
# `strspn`, `strcspn` and the scans under them

Both measure a prefix of a string against a set of bytes: at once when the set
is empty, byte by byte when it has one element, and through a bitmap of the 256
bytes otherwise.  All paths give the length of the longest prefix inside the
set, or outside it.
-/

namespace Mytilus.Str

open Memory

/-! ## The bitmap -/

/-- `[u64; 4]` -/
abbrev Byteset := Fin 4 → BitVec 64

/-- `b as usize / 64` -/
def wordIndex (b : Byte) : Fin 4 := ⟨b.toNat / 64, by have := b.isLt; omega⟩

def bytesetSet (bs : Byteset) (b : Byte) : Byteset :=
  Function.update bs (wordIndex b) (bs (wordIndex b) ||| ((1 : BitVec 64) <<< (b.toNat % 64)))

def bytesetTest (bs : Byteset) (b : Byte) : Bool :=
  decide ((bs (wordIndex b) >>> (b.toNat % 64)) &&& 1 ≠ 0)

/-- `while *cp != 0 { byteset_set(&mut byteset, *cp); cp = cp.add(1); }` -/
def bytesetLoop (m : Memory) : ℕ → Addr → Byteset → Option Byteset
  | 0, _, _ => none
  | n + 1, cp, bs =>
      if m cp ≠ 0 then bytesetLoop m n (ptrAdd cp 1) (bytesetSet bs (m cp)) else some bs

/-! ## The functions -/

/-- `while *s.add(n) != 0 { n += 1; }` -/
def strlenLoop (m : Memory) (s : Addr) : ℕ → BitVec 64 → Option (BitVec 64)
  | 0, _ => none
  | k + 1, n => if m (s + n) ≠ 0 then strlenLoop m s k (n + 1) else some n

/-- `size_t strlen(const char *s)` -/
def strlen (m : Memory) (s : Addr) : Option (BitVec 64) := strlenLoop m s scanSteps 0

/-- `char *__strchrnul(const char *s, int c)` -/
def strchrnul (m : Memory) (s : Addr) (c : BitVec 32) : Option Addr := do
  let target : Byte := c.setWidth 8
  if target = 0 then
    let n ← strlen m s
    return s + n
  else
    scanWhile (fun b => b ≠ 0 ∧ b ≠ target) m scanSteps s

/-- `size_t strspn(const char *s, const char *c)` -/
def strspn (m : Memory) (s c : Addr) : Option (BitVec 64) :=
  if m c = 0 then
    return 0
  else if m (ptrAdd c 1) = 0 then do
    let p ← scanWhile (fun b => decide (b = m c)) m scanSteps s
    return p - s
  else do
    let byteset ← bytesetLoop m scanSteps c fun _ => 0
    let sp ← scanWhile (fun b => decide (b ≠ 0) && bytesetTest byteset b) m scanSteps s
    return sp - s

/-- `size_t strcspn(const char *s, const char *c)` -/
def strcspn (m : Memory) (s c : Addr) : Option (BitVec 64) :=
  if m c = 0 ∨ m (ptrAdd c 1) = 0 then do
    let p ← strchrnul m s ((m c).setWidth 32)
    return p - s
  else do
    let byteset ← bytesetLoop m scanSteps c fun _ => 0
    let sp ← scanWhile (fun b => decide (b ≠ 0) && !bytesetTest byteset b) m scanSteps s
    return sp - s

/-! ## What the bitmap holds -/

section Bitmap

theorem bytesetTest_iff (bs : Byteset) (b : Byte) :
    bytesetTest bs b = true ↔ b.toNat % 64 ∈ BitSet.members (bs (wordIndex b)) := by
  have hbit : ∀ x : BitVec 64, x &&& 1 ≠ 0 ↔ 0 ∈ BitSet.members x := fun x =>
    BitSet.and_single_ne_zero_iff (w := 64) x (i := 0) (by norm_num)
  rw [bytesetTest, decide_eq_true_iff, hbit, BitSet.mem_members, BitSet.mem_members,
    BitVec.getLsbD_ushiftRight, Nat.add_zero]

theorem bytesetTest_set (bs : Byteset) (b c : Byte) :
    bytesetTest (bytesetSet bs b) c = true ↔ c = b ∨ bytesetTest bs c = true := by
  have hsame : c = b ↔ wordIndex c = wordIndex b ∧ c.toNat % 64 = b.toNat % 64 := by
    rw [← BitVec.toNat_inj, wordIndex, wordIndex, Fin.mk.injEq]
    omega
  rw [bytesetTest_iff, bytesetTest_iff, bytesetSet, Function.update_apply]
  split_ifs with hword
  · have hlt : b.toNat % 64 < 64 := Nat.mod_lt _ (by norm_num)
    have hinsert : BitSet.members (bs (wordIndex b) ||| ((1 : BitVec 64) <<< (b.toNat % 64))) =
        insert (b.toNat % 64) (BitSet.members (bs (wordIndex b))) :=
      BitSet.members_or_single _ hlt
    rw [hinsert, Set.mem_insert_iff, hsame, hword]
    simp only [true_and]
  · simp only [hsame, hword, false_and, false_or]

/-- The bitmap of a string. -/
theorem bytesetLoop_eq {m : Memory} {c : Addr} {cs : List Byte} (hc : StringAt m c cs) {n : ℕ}
    (hn : cs.length < n) (bs : Byteset) : ∃ bs', bytesetLoop m n c bs = some bs' ∧
      ∀ b, bytesetTest bs' b = true ↔ b ∈ cs ∨ bytesetTest bs b = true := by
  induction cs generalizing c n bs with
  | nil =>
      obtain ⟨n, rfl⟩ := exists_round hn
      have hnul : m c = 0 := hc
      refine ⟨bs, ?_, fun b => by simp⟩
      rw [bytesetLoop, if_neg (not_not.mpr hnul)]
  | cons x cs ih =>
      obtain ⟨n, rfl⟩ := exists_round hn
      obtain ⟨hx, hne, hrest⟩ := hc
      obtain ⟨bs', hloop, htest⟩ := ih hrest (Nat.lt_of_succ_lt_succ hn) (bytesetSet bs x)
      refine ⟨bs', ?_, fun b => ?_⟩
      · rw [bytesetLoop, hx, if_pos hne, hloop]
      · rw [htest, bytesetTest_set, List.mem_cons]
        tauto

/-- The bitmap that both functions build. -/
theorem byteset_eq {m : Memory} {c : Addr} {cs : List Byte} (hc : StringAt m c cs) :
    ∃ bs, bytesetLoop m scanSteps c (fun _ => 0) = some bs ∧
      ∀ b, bytesetTest bs b = decide (b ∈ cs) := by
  obtain ⟨bs, hloop, htest⟩ := bytesetLoop_eq hc hc.length_lt fun _ => 0
  refine ⟨bs, hloop, fun b => ?_⟩
  have hempty : ¬ bytesetTest (fun _ => 0) b = true := by
    rw [bytesetTest_iff]
    simp
  rw [Bool.eq_iff_iff, htest, decide_eq_true_iff, or_iff_left hempty]

end Bitmap

/-! ## Prefixes -/

section Prefixes

variable {m : Memory} {s c : Addr} {xs cs : List Byte}

theorem ptrAdd_sub (p : Addr) (n : ℕ) : ptrAdd p n - p = BitVec.ofNat 64 n := by
  rw [ptrAdd, BitVec.add_comm, BitVec.add_sub_cancel]

theorem strlenLoop_eq {n : BitVec 64} {k : ℕ} (hs : StringAt m (s + n) xs) (hk : xs.length < k) :
    strlenLoop m s k n = some (n + BitVec.ofNat 64 xs.length) := by
  induction xs generalizing n k with
  | nil =>
      obtain ⟨k, rfl⟩ := exists_round hk
      have hnul : m (s + n) = 0 := hs
      rw [strlenLoop, if_neg (not_not.mpr hnul), List.length_nil]
      exact congrArg some (BitVec.add_zero n).symm
  | cons x xs ih =>
      obtain ⟨k, rfl⟩ := exists_round hk
      obtain ⟨hx, hne, hrest⟩ := hs
      have hnext : StringAt m (s + (n + 1)) xs := by rwa [← BitVec.add_assoc]
      rw [strlenLoop, hx, if_pos hne, ih hnext (Nat.lt_of_succ_lt_succ hk), BitVec.add_assoc,
        List.length_cons, Nat.add_comm, BitVec.ofNat_add]
      rfl

theorem strlen_eq (hs : StringAt m s xs) : strlen m s = some (BitVec.ofNat 64 xs.length) := by
  have hstart : StringAt m (s + 0#64) xs := by rwa [BitVec.add_zero]
  have hloop : strlenLoop m s scanSteps 0#64 = _ := strlenLoop_eq hstart hs.length_lt
  rw [BitVec.zero_add] at hloop
  exact hloop

/-- Inside a string the test for the end of the string succeeds. -/
theorem takeWhile_nonzero (hs : StringAt m s xs) (p : Byte → Bool) :
    (xs.takeWhile fun b => decide (b ≠ 0) && p b) = xs.takeWhile p := by
  have hne := hs.ne_zero
  clear hs
  induction xs with
  | nil => rfl
  | cons x xs ih =>
      obtain ⟨hx, hrest⟩ := List.forall_mem_cons.mp hne
      rw [List.takeWhile_cons, List.takeWhile_cons, ih hrest, decide_eq_true hx, Bool.true_and]

/-- The scan of a string by a set, as the functions write it. -/
theorem scan_nonzero (hs : StringAt m s xs) (p : Byte → Bool) :
    scanWhile (fun b => decide (b ≠ 0) && p b) m scanSteps s =
      some (ptrAdd s (xs.takeWhile p).length) := by
  rw [← takeWhile_nonzero hs p]
  exact hs.scan rfl

theorem strchrnul_eq (hs : StringAt m s xs) (b : Byte) : strchrnul m s (b.setWidth 32) =
    some (ptrAdd s (xs.takeWhile fun x => decide (x ≠ b)).length) := by
  have htarget : (b.setWidth 32).setWidth 8 = b := by
    rw [BitVec.setWidth_setWidth_of_le _ (by norm_num), BitVec.setWidth_eq]
  rw [strchrnul, htarget]
  by_cases hb : b = 0
  · have hall : (xs.takeWhile fun x => decide (x ≠ b)) = xs :=
      List.takeWhile_eq_self_iff.mpr fun x hx => decide_eq_true (hb ▸ hs.ne_zero x hx)
    simp only [if_pos hb, strlen_eq hs, hall, Option.bind_eq_bind, Option.bind_some]
    rfl
  · simp only [if_neg hb]
    rw [← scan_nonzero hs]
    exact congrArg (scanWhile · m scanSteps s) (funext fun x => Bool.decide_and ..)

/-- `strspn` measures the longest prefix inside the set. -/
theorem strspn_eq (hs : StringAt m s xs) (hc : StringAt m c cs) :
    strspn m s c = some (BitVec.ofNat 64 (xs.takeWhile fun b => decide (b ∈ cs)).length) := by
  match cs, hc with
  | [], hc =>
      have hnul : m c = 0 := hc
      rw [strspn, if_pos hnul]
      have hnone : (xs.takeWhile fun b => decide (b ∈ ([] : List Byte))) = [] := by
        cases xs <;> rfl
      rw [hnone]
      rfl
  | [b], hc =>
      obtain ⟨hb, hne, hnul⟩ := hc
      rw [stringAt_nil] at hnul
      have hset : (fun x => decide (x ∈ [b])) = fun x => decide (x = b) := by
        funext x
        rw [decide_eq_decide, List.mem_singleton]
      rw [strspn, hb, if_neg hne, if_pos hnul, hs.scan (decide_eq_false (Ne.symm hne)), hset,
        ← ptrAdd_sub s]
      rfl
  | b :: b' :: cs, hc =>
      have hb : m c ≠ 0 := fun hnul => hc.2.1 (hc.1.symm.trans hnul)
      have hb' : m (ptrAdd c 1) ≠ 0 := fun hnul => hc.2.2.2.1 (hc.2.2.1.symm.trans hnul)
      obtain ⟨bs, hloop, htest⟩ := byteset_eq hc
      rw [strspn, if_neg hb, if_neg hb', hloop, ← ptrAdd_sub s, ← funext htest]
      change (scanWhile (fun b => decide (b ≠ 0) && bytesetTest bs b) m scanSteps s).bind
        (fun sp => some (sp - s)) = _
      rw [scan_nonzero hs]
      rfl

/-- `strcspn` measures the longest prefix outside the set. -/
theorem strcspn_eq (hs : StringAt m s xs) (hc : StringAt m c cs) :
    strcspn m s c = some (BitVec.ofNat 64 (xs.takeWhile fun b => decide (b ∉ cs)).length) := by
  match cs, hc with
  | [], hc =>
      have hnul : m c = 0 := hc
      have hset : (xs.takeWhile fun b => decide (b ∉ ([] : List Byte))) =
          xs.takeWhile fun b => decide (b ≠ 0) := by
        rw [List.takeWhile_eq_self_iff.mpr fun b _ => decide_eq_true List.not_mem_nil,
          List.takeWhile_eq_self_iff.mpr fun b hb => decide_eq_true (hs.ne_zero b hb)]
      rw [strcspn, if_pos (.inl hnul), hnul, strchrnul_eq hs, ← ptrAdd_sub s, hset]
      rfl
  | [b], hc =>
      obtain ⟨hb, hne, hnul⟩ := hc
      rw [stringAt_nil] at hnul
      have hset : (fun x => decide (x ∉ [b])) = fun x => decide (x ≠ b) := by
        funext x
        rw [decide_eq_decide, List.mem_singleton]
      rw [strcspn, if_pos (.inr hnul), hb, strchrnul_eq hs, hset, ← ptrAdd_sub s]
      rfl
  | b :: b' :: cs, hc =>
      have hb : m c ≠ 0 := fun hnul => hc.2.1 (hc.1.symm.trans hnul)
      have hb' : m (ptrAdd c 1) ≠ 0 := fun hnul => hc.2.2.2.1 (hc.2.2.1.symm.trans hnul)
      -- the bitmap tests for membership in the set
      obtain ⟨bs, hloop, htest⟩ := byteset_eq hc
      have hset : (fun x => decide (x ∉ b :: b' :: cs)) = fun x => !bytesetTest bs x := by
        funext x
        rw [htest, decide_not]
      rw [strcspn, if_neg (not_or.mpr ⟨hb, hb'⟩), hloop, ← ptrAdd_sub s, hset]
      change (scanWhile (fun b => decide (b ≠ 0) && !bytesetTest bs b) m scanSteps s).bind
        (fun sp => some (sp - s)) = _
      rw [scan_nonzero hs]
      rfl

end Prefixes

end Mytilus.Str
