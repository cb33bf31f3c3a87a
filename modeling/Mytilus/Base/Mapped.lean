import Mytilus.Base.CString

/-!
# Partly mapped memory

Which bytes a function touches shows in a memory of which only a part is mapped:
an access outside faults, and a run that ends has accessed mapped bytes only.  A
statement about every memory in which certain bytes are mapped therefore also
says that no other byte is read.  The null address is never mapped.

`BytesAt`, `StringAt` and `CutAt` say what is mapped at an address: given bytes,
a NUL-terminated string, or a string of which only the first `n` bytes matter.
`Wrote` says what a run has written: some bytes at an address, and nothing else.

The loops of the string functions are of two kinds, and each kind has its rule.
`StringAt.scanWhile` is the scan that a byte stops; `exists_wrote_loop` is the loop
that stores given bytes one after the other, and `Wrote.trans` puts two such writes
together.  `Apart` is what keeps a copy from reading what it has written
(`Apart.read_eq`).
-/

structure Mapped where
  /-- The byte at a mapped address. -/
  read : Addr → Option Byte
  null : read 0 = none

namespace Mapped

open Memory

/-- A store to a mapped address. -/
def store (m : Mapped) (a : Addr) (b : Byte) : Option Mapped :=
  if h : m.read a = none then
    none
  else
    some
      { read := Function.update m.read a (some b)
        null := by
          rw [Function.update_of_ne, m.null]
          rintro rfl
          exact h m.null }

/-- The bytes `xs` from `p` on. -/
def BytesAt (m : Mapped) : Addr → List Byte → Prop
  | _, [] => True
  | p, x :: xs => m.read p = some x ∧ BytesAt m (ptrAdd p 1) xs

/-- The nonzero bytes `xs` from `p` on, and a zero byte after them. -/
def StringAt (m : Mapped) : Addr → List Byte → Prop
  | p, [] => m.read p = some 0
  | p, x :: xs => m.read p = some x ∧ x ≠ 0 ∧ StringAt m (ptrAdd p 1) xs

/-- The nonzero bytes `xs` from `p` on, which are `n` or have a zero byte after them. -/
def CutAt (m : Mapped) : Addr → ℕ → List Byte → Prop
  | _, 0, xs => xs = []
  | p, _ + 1, [] => m.read p = some 0
  | p, n + 1, x :: xs => m.read p = some x ∧ x ≠ 0 ∧ CutAt m (ptrAdd p 1) n xs

/-- The `n` bytes from `p` on are mapped. -/
def Room (m : Mapped) (p : Addr) (n : ℕ) : Prop := ∀ k < n, (m.read (ptrAdd p k)).isSome

/-- The `k` bytes from `s` on are none of the `n` from `d` on. -/
def Apart (d : Addr) (n : ℕ) (s : Addr) (k : ℕ) : Prop := ∀ i < k, ¬ Within d n (ptrAdd s i)

/-- `m'` is `m` with the bytes `xs` written at `p`. -/
structure Wrote (p : Addr) (xs : List Byte) (m m' : Mapped) : Prop where
  bytes : BytesAt m' p xs
  frame : ∀ a, ¬ Within p xs.length a → m'.read a = m.read a

/-- The memory with zero bytes where nothing is mapped. -/
def total (m : Mapped) : Memory := fun a => (m.read a).getD 0

/-- The bytes that are mapped are those of `M`. -/
def Agrees (m : Mapped) (M : Memory) : Prop := ∀ a b, m.read a = some b → M a = b

/-- The part of `M` at the addresses in `D`. -/
def view (M : Memory) (D : Addr → Prop) [DecidablePred D] : Mapped where
  read a := if D a ∧ a ≠ 0 then some (M a) else none
  null := if_neg fun h => h.2 rfl

section Contents

variable {m m' : Mapped} {M : Memory} {p : Addr} {n : ℕ} {x : Byte} {xs ys : List Byte}

theorem ne_zero_of_read {a : Addr} {b : Byte} (h : m.read a = some b) : a ≠ 0 := by
  rintro rfl
  rw [m.null] at h
  cases h

theorem agrees_total (m : Mapped) : m.Agrees m.total := by
  intro a b h
  rw [total, h, Option.getD_some]

/-- A step that succeeds. -/
theorem bind_of_some {α β : Type} {x : Option α} {a : α} (f : α → Option β) (h : x = some a) :
    x >>= f = f a := by
  rw [h]
  rfl

/-! ## Bytes -/

theorem bytesAt_append :
    BytesAt m p (xs ++ ys) ↔ BytesAt m p xs ∧ BytesAt m (ptrAdd p xs.length) ys := by
  induction xs generalizing p with
  | nil => simp [BytesAt]
  | cons x xs ih =>
      simp only [List.cons_append, BytesAt, ih, ptrAdd_ptrAdd, List.length_cons, Nat.add_comm 1,
        and_assoc]

theorem BytesAt.getElem? (h : BytesAt m p xs) {i : ℕ} {b : Byte} (hi : xs[i]? = some b) :
    m.read (ptrAdd p i) = some b := by
  induction xs generalizing p i with
  | nil => simp at hi
  | cons x xs ih =>
      obtain ⟨hx, hrest⟩ := h
      cases i with
      | zero =>
          rw [ptrAdd_zero, hx]
          simpa using hi
      | succ i =>
          have htail := ih hrest (i := i) (by simpa using hi)
          rwa [ptrAdd_one_ptrAdd] at htail

theorem bytesAt_of_getElem? (h : ∀ i b, xs[i]? = some b → m.read (ptrAdd p i) = some b) :
    BytesAt m p xs := by
  induction xs generalizing p with
  | nil => trivial
  | cons x xs ih =>
      refine ⟨?_, ih fun i b hb => ?_⟩
      · have hx := h 0 x rfl
        rwa [ptrAdd_zero] at hx
      · rw [ptrAdd_one_ptrAdd]
        exact h (i + 1) b hb

/-- The bytes do not run over the null address. -/
theorem BytesAt.length_lt (h : BytesAt m p xs) : xs.length < 2 ^ 64 := by
  by_contra hge
  have hnull := h.getElem? (List.getElem?_eq_getElem ((offset_lt p 0).trans_le (not_lt.mp hge)))
  rw [ptrAdd_offset, m.null] at hnull
  cases hnull

/-! ## Strings -/

theorem stringAt_iff : StringAt m p xs ↔ BytesAt m p (xs ++ [0]) ∧ ∀ x ∈ xs, x ≠ 0 := by
  induction xs generalizing p with
  | nil => simp [StringAt, BytesAt]
  | cons x xs ih =>
      rw [StringAt, ih, List.cons_append, BytesAt, List.forall_mem_cons]
      tauto

theorem StringAt.ne_zero (h : StringAt m p xs) : ∀ x ∈ xs, x ≠ 0 := (stringAt_iff.mp h).2

theorem StringAt.bytes (h : StringAt m p xs) : BytesAt m p (xs ++ [0]) := (stringAt_iff.mp h).1

theorem StringAt.getElem? (h : StringAt m p xs) {i : ℕ} {b : Byte} (hi : xs[i]? = some b) :
    m.read (ptrAdd p i) = some b := (bytesAt_append.mp h.bytes).1.getElem? hi

theorem StringAt.nul (h : StringAt m p xs) : m.read (ptrAdd p xs.length) = some 0 :=
  (bytesAt_append.mp h.bytes).2.1

theorem StringAt.agrees (h : StringAt m p xs) (hm : m.Agrees M) : Memory.StringAt M p xs := by
  induction xs generalizing p with
  | nil => exact hm _ _ h
  | cons x xs ih =>
      obtain ⟨hx, hne, hrest⟩ := h
      exact ⟨hm _ _ hx, hne, ih hrest⟩

theorem StringAt.length_lt (h : StringAt m p xs) : xs.length < 2 ^ 64 :=
  (h.agrees m.agrees_total).length_lt

/-- The string at an address is unique. -/
theorem StringAt.unique (h : StringAt m p xs) (h' : StringAt m p ys) : xs = ys :=
  (h.agrees m.agrees_total).unique (h'.agrees m.agrees_total)

theorem StringAt.cutAt (h : StringAt m p xs) (n : ℕ) : CutAt m p n (xs.take n) := by
  induction n generalizing p xs with
  | zero => exact List.take_zero
  | succ n ih =>
      cases xs with
      | nil => exact h
      | cons x xs =>
          obtain ⟨hx, hne, hrest⟩ := h
          exact ⟨hx, hne, ih hrest⟩

theorem cutAt_iff : CutAt m p n xs ↔ BytesAt m p xs ∧ (∀ x ∈ xs, x ≠ 0) ∧ xs.length ≤ n ∧
    (xs.length < n → m.read (ptrAdd p xs.length) = some 0) := by
  induction xs generalizing p n with
  | nil => cases n <;> simp [CutAt, BytesAt]
  | cons x xs ih =>
      cases n with
      | zero => simp [CutAt]
      | succ n =>
          rw [CutAt, ih, BytesAt, List.forall_mem_cons, List.length_cons, Nat.succ_le_succ_iff,
            Nat.succ_lt_succ_iff, ptrAdd_ptrAdd, Nat.add_comm 1]
          tauto

theorem CutAt.ne_zero (h : CutAt m p n xs) : ∀ x ∈ xs, x ≠ 0 := (cutAt_iff.mp h).2.1

theorem CutAt.length_le (h : CutAt m p n xs) : xs.length ≤ n := (cutAt_iff.mp h).2.2.1

/-- The string ends before `n` exactly when there is a zero byte before `n`. -/
theorem CutAt.nul_iff (h : CutAt m p n xs) :
    (∃ k < n, m.read (ptrAdd p k) = some 0) ↔ xs.length < n := by
  obtain ⟨hbytes, hne, -, hend⟩ := cutAt_iff.mp h
  refine ⟨fun ⟨k, hk, hzero⟩ => ?_, fun hlt => ⟨xs.length, hlt, hend hlt⟩⟩
  by_contra hge
  have hkx : k < xs.length := by omega
  have hbyte := hbytes.getElem? (List.getElem?_eq_getElem hkx)
  rw [hzero] at hbyte
  exact hne _ (List.getElem_mem hkx) (Option.some.inj hbyte).symm

/-! ## Scans -/

/-- `while ok(*p) { p = p.add(1); }`, in the given number of steps. -/
def scanWhile (ok : Byte → Bool) (m : Mapped) : ℕ → Addr → Option Addr
  | 0, _ => none
  | n + 1, p => do
      let b ← m.read p
      if ok b = true then scanWhile ok m n (ptrAdd p 1) else return p

theorem StringAt.scanWhile {ok : Byte → Bool} (h : StringAt m p xs) (hnul : ok 0 = false)
    (hn : xs.length < n) :
    Mapped.scanWhile ok m n p = some (ptrAdd p (xs.takeWhile ok).length) := by
  induction xs generalizing p n with
  | nil =>
      obtain ⟨n, rfl⟩ := exists_round hn
      have hp : m.read p = some 0 := h
      simp only [Mapped.scanWhile, hp, hnul, Option.bind_eq_bind, Option.bind_some,
        Bool.false_eq_true, if_false, List.takeWhile_nil, List.length_nil, ptrAdd_zero]
      rfl
  | cons x xs ih =>
      obtain ⟨n, rfl⟩ := exists_round hn
      obtain ⟨hx, -, hrest⟩ := h
      have htail := ih hrest (Nat.lt_of_succ_lt_succ hn)
      cases hok : ok x <;> simp [Mapped.scanWhile, hx, hok, htail, Nat.add_comm]

theorem StringAt.scan {ok : Byte → Bool} (h : StringAt m p xs) (hnul : ok 0 = false) :
    Mapped.scanWhile ok m scanSteps p = some (ptrAdd p (xs.takeWhile ok).length) :=
  h.scanWhile hnul h.length_lt

/-- A scan that ends does so in the whole of memory. -/
theorem scanWhile_agrees {ok : Byte → Bool} {q : Addr} (hm : m.Agrees M)
    (h : scanWhile ok m n p = some q) : Memory.scanWhile ok M n p = some q := by
  induction n generalizing p with
  | zero => cases h
  | succ n ih =>
      obtain ⟨b, hb, h⟩ := Option.bind_eq_some_iff.mp h
      rw [Memory.scanWhile, hm p b hb]
      split_ifs at h ⊢
      · exact ih h
      · exact h

/-! ## Writes -/

theorem BytesAt.congr (h : BytesAt m p xs)
    (hsame : ∀ i < xs.length, m'.read (ptrAdd p i) = m.read (ptrAdd p i)) : BytesAt m' p xs := by
  refine bytesAt_of_getElem? fun i b hb => ?_
  obtain ⟨hi, -⟩ := List.getElem?_eq_some_iff.mp hb
  rw [hsame i hi, h.getElem? hb]

theorem StringAt.congr (h : StringAt m p xs)
    (hsame : ∀ i ≤ xs.length, m'.read (ptrAdd p i) = m.read (ptrAdd p i)) : StringAt m' p xs := by
  refine stringAt_iff.mpr ⟨h.bytes.congr fun i hi => hsame i ?_, h.ne_zero⟩
  rw [List.length_append, List.length_singleton] at hi
  exact Nat.le_of_lt_succ hi

theorem CutAt.congr (h : CutAt m p n xs)
    (hsame : ∀ i ≤ xs.length, i < n → m'.read (ptrAdd p i) = m.read (ptrAdd p i)) :
    CutAt m' p n xs := by
  -- only the bytes of the string and what ends it within the count are read
  induction xs generalizing p n with
  | nil =>
      cases n with
      | zero => exact h
      | succ n =>
          have hp := hsame 0 le_rfl (Nat.succ_pos n)
          rw [ptrAdd_zero] at hp
          exact hp.trans h
  | cons x xs ih =>
      cases n with
      | zero => exact h
      | succ n =>
          obtain ⟨hx, hne, hrest⟩ := h
          have hp := hsame 0 (Nat.zero_le _) (Nat.succ_pos n)
          rw [ptrAdd_zero] at hp
          refine ⟨hp.trans hx, hne, ih hrest fun i hi hin => ?_⟩
          rw [ptrAdd_one_ptrAdd]
          exact hsame (i + 1) (Nat.succ_le_succ hi) (Nat.succ_lt_succ hin)

theorem Wrote.nil (p : Addr) (m : Mapped) : Wrote p [] m m := ⟨trivial, fun _ _ => rfl⟩

/-- A store to a mapped address succeeds. -/
theorem exists_store {a : Addr} (h : (m.read a).isSome) (b : Byte) :
    ∃ m', m.store a b = some m' ∧ Wrote a [b] m m' := by
  have hmapped : ¬ m.read a = none := Option.isSome_iff_ne_none.mp h
  refine ⟨_, dif_neg hmapped, ⟨Function.update_self .., trivial⟩, fun x hx => ?_⟩
  refine Function.update_of_ne ?_ _ _
  rintro rfl
  have hin : Within x 1 (ptrAdd x 0) := within_ptrAdd Nat.one_pos (by norm_num)
  rw [ptrAdd_zero] at hin
  exact hx hin

theorem Wrote.isSome (h : Wrote p xs m m') {a : Addr} (ha : (m.read a).isSome) :
    (m'.read a).isSome := by
  by_cases hin : Within p xs.length a
  · have hbyte := h.bytes.getElem? (List.getElem?_eq_getElem hin)
    rw [ptrAdd_offset] at hbyte
    rw [hbyte]
    rfl
  · rwa [h.frame a hin]

/-- Nonzero bytes and a zero byte after them are a string. -/
theorem Wrote.stringAt (h : Wrote p (xs ++ [0]) m m') (hne : ∀ x ∈ xs, x ≠ 0) :
    StringAt m' p xs :=
  stringAt_iff.mpr ⟨h.bytes, hne⟩

/-- A second run that starts inside what the first has written, and ends no earlier. -/
theorem Wrote.trans {m'' : Mapped} {i : ℕ} (h : Wrote p xs m m') (h' : Wrote (ptrAdd p i) ys m' m'')
    (hi : i ≤ xs.length) (hend : xs.length ≤ i + ys.length) (hfit : i + ys.length ≤ 2 ^ 64) :
    Wrote p (xs.take i ++ ys) m m'' := by
  have hlen : (xs.take i ++ ys).length = i + ys.length := by
    rw [List.length_append, List.length_take_of_le hi]
  have hfirst : BytesAt m' p (xs.take i) := by
    have hbytes := h.bytes
    rw [← List.take_append_drop i xs] at hbytes
    exact (bytesAt_append.mp hbytes).1
  refine ⟨bytesAt_append.mpr ⟨hfirst.congr fun k hk => h'.frame _ fun hin => ?_, ?_⟩,
    fun a ha => ?_⟩
  · rw [List.length_take_of_le hi] at hk
    rw [within_ptrAdd_iff hfit, offset_ptrAdd (by omega)] at hin
    omega
  · rw [List.length_take_of_le hi]
    exact h'.bytes
  · rw [hlen] at ha
    rw [h'.frame a fun hin => ha (hin.of_part le_rfl hfit),
      h.frame a fun hin => ha (hin.trans_le hend)]

/-- A byte, and what is written after it. -/
theorem Wrote.cons {m'' : Mapped} (h : Wrote p [x] m m') (h' : Wrote (ptrAdd p 1) xs m' m'')
    (hxs : xs.length + 1 ≤ 2 ^ 64) : Wrote p (x :: xs) m m'' :=
  h.trans h' le_rfl (Nat.le_add_right 1 _) (by omega)

/-- Mapped bytes do not run over the null address. -/
theorem Room.le (h : Room m p n) : n ≤ 2 ^ 64 := by
  by_contra hgt
  have hnull := h (offset p 0) ((offset_lt p 0).trans (not_le.mp hgt))
  rw [ptrAdd_offset, m.null] at hnull
  cases hnull

/-- The room left after a byte. -/
theorem Room.tail (hroom : Room m p (n + 1)) (h : Wrote p [x] m m') : Room m' (ptrAdd p 1) n := by
  intro i hi
  rw [ptrAdd_one_ptrAdd]
  exact h.isSome (hroom (i + 1) (Nat.succ_lt_succ hi))

/-- A loop that stores the bytes `xs` one after the other. -/
theorem exists_wrote_loop (loop : ℕ → Mapped → Option Mapped) (xs : List Byte)
    (hstep : ∀ i b, xs[i]? = some b → ∀ m, loop i m = m.store (ptrAdd p i) b >>= loop (i + 1))
    (hend : ∀ m, loop xs.length m = some m) (hroom : Room m p xs.length) :
    ∃ m', loop 0 m = some m' ∧ Wrote p xs m m' := by
  induction xs generalizing loop m p with
  | nil => exact ⟨m, hend m, .nil p m⟩
  | cons x xs ih =>
      have hfirst := hroom 0 (Nat.succ_pos _)
      rw [ptrAdd_zero] at hfirst
      obtain ⟨m₁, hstore, hwrote⟩ := exists_store hfirst x
      have hround : loop 0 m = loop 1 m₁ := by
        rw [hstep 0 x rfl, ptrAdd_zero, bind_of_some _ hstore]
      obtain ⟨m', hloop, hwrote'⟩ := ih (fun i => loop (i + 1))
        (fun i b hb m => by rw [ptrAdd_one_ptrAdd]; exact hstep (i + 1) b hb m) hend
        (hroom.tail hwrote)
      exact ⟨m', hround.trans hloop, hwrote.cons hwrote' hroom.le⟩

/-- What is left when both sides advance. -/
theorem Apart.tail {s : Addr} {k : ℕ} (h : Apart p (n + 1) s (k + 1)) (hn : n + 1 ≤ 2 ^ 64) :
    Apart (ptrAdd p 1) n (ptrAdd s 1) k := by
  intro i hi hin
  rw [ptrAdd_one_ptrAdd] at hin
  exact h (i + 1) (Nat.succ_lt_succ hi) (hin.of_part (by omega) hn)

/-- A write leaves what is apart from it as it is. -/
theorem Apart.read_eq {s : Addr} {k i : ℕ} (h : Apart p n s k) (hw : Wrote p xs m m')
    (hxs : xs.length ≤ n) (hi : i < k) : m'.read (ptrAdd s i) = m.read (ptrAdd s i) :=
  hw.frame _ fun hin => h i hi (lt_of_lt_of_le hin hxs)

end Contents

end Mapped
