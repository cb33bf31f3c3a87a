import Mytilus.Base.LaggedFibonacci
import Mytilus.Prng.Random

/-!
# A bank of independent generators

What `random` and its companions are for: every state buffer is a generator of
its own, one of them is active, and the calls act on the active one or choose
another.  A generator is either a 31-bit congruential one or a position in an
additive recurrence; it has no buffer, no indices and no header.

A buffer is live, with the size it was given, from the `initstate` that makes it
until another `initstate` is given memory that overlaps it.  `Bank.call` is the
meaning of a call, and `Bank.Allows` what a program has to keep to: no memory that
runs over the end of the address space, and `setstate` on live buffers only.

`Valid` says that live buffers have room for their generators and do not overlap;
`Valid.set` and `Valid.install` are what the two ways of changing a bank keep of it.
That the code does what the bank does is `Mytilus.Prng.RandomRefine`.
-/

namespace Mytilus.Prng.Random

/-! ## Generators -/

/-- The nonzero degrees. -/
structure Degree where
  n : ℕ
  mem : n ∈ [7, 15, 31, 63]
  deriving DecidableEq

namespace Degree

def sep (d : Degree) : ℕ := if d.n = 31 ∨ d.n = 7 then 3 else 1

theorem cases (d : Degree) :
    (d.n = 7 ∧ d.sep = 3) ∨ (d.n = 15 ∧ d.sep = 1) ∨ (d.n = 31 ∧ d.sep = 3) ∨
      (d.n = 63 ∧ d.sep = 1) := by
  have hmem := d.mem
  simp only [List.mem_cons, List.not_mem_nil, or_false] at hmem
  unfold sep
  split_ifs <;> omega

def lag (d : Degree) : Lag where
  n := d.n
  sep := d.sep
  sep_pos := by have := d.cases; omega
  sep_lt := by have := d.cases; omega

end Degree

def degree7 : Degree := ⟨7, by decide⟩
def degree15 : Degree := ⟨15, by decide⟩
def degree31 : Degree := ⟨31, by decide⟩
def degree63 : Degree := ⟨63, by decide⟩

/-- The degree for a buffer of `size` bytes; none is the congruential generator. -/
def degreeOf (size : ℕ) : Option Degree :=
  if size < 32 then none
  else if size < 64 then some degree7
  else if size < 128 then some degree15
  else if size < 256 then some degree31
  else some degree63

/-- The value of `RAND_N` for a degree. -/
def order : Option Degree → ℕ
  | none => 0
  | some d => d.n

/-- The high halves of the 64-bit generator's states after a seed. -/
def rawWord (seed : BitVec 32) (k : ℕ) : BitVec 32 :=
  (lcg64^[k + 1] (seed.setWidth 64) >>> 32).setWidth 32

/-- The words a seed fills a buffer with: the first is made odd. -/
def seedWord (seed : BitVec 32) (k : ℕ) : BitVec 32 :=
  if k = 0 then rawWord seed 0 ||| 1 else rawWord seed k

theorem seedWord_zero_odd (seed : BitVec 32) : (seedWord seed 0).toNat % 2 = 1 := by
  rw [seedWord, if_pos rfl, ← Nat.and_one_is_mod, BitVec.toNat_or]
  generalize (rawWord seed 0).toNat = a
  apply Nat.eq_of_testBit_eq
  intro i
  cases i with
  | zero => simp
  | succ i => simp [Nat.testBit_succ]

/-- A position in the recurrence that starts from the words `x`. -/
structure Lagged where
  d : Degree
  x : ℕ → BitVec 32
  odd : ∃ k < d.n, (x k).toNat % 2 = 1
  t : ℕ

inductive Gen
  | lcg (x : BitVec 32)
  | lagged (g : Lagged)

namespace Gen

def degree : Gen → Option Degree
  | .lcg _ => none
  | .lagged g => some g.d

/-- A freshly seeded generator. -/
def seeded (d : Option Degree) (seed : BitVec 32) : Gen :=
  match d with
  | none => .lcg seed
  | some d =>
      .lagged
        { d
          x := seedWord seed
          odd := ⟨0, by have := d.cases; omega, seedWord_zero_odd seed⟩
          t := 0 }

/-- The next value and what is left of the generator. -/
def next : Gen → BitVec 64 × Gen
  | .lcg x => ((lcg31 x).setWidth 64, .lcg (lcg31 x))
  | .lagged g =>
      ((g.d.lag.seq g.x (g.d.n + g.t) >>> 1).setWidth 64, .lagged { g with t := g.t + 1 })

/-- The bytes of a buffer the generator occupies, the header included. -/
def bytes : Gen → ℕ
  | .lcg _ => 8
  | .lagged g => 4 * (g.d.n + 1)

end Gen

/-! ## The bank -/

structure Bank where
  active : Addr
  /-- The sizes of the live buffers. -/
  size : Addr → Option ℕ
  gen : Addr → Gen

/-- Two regions that do not run over the end of the address space do not overlap. -/
def Beside (p : Addr) (m : ℕ) (q : Addr) (n : ℕ) : Prop :=
  p.toNat + m ≤ q.toNat ∨ q.toNat + n ≤ p.toNat

instance (p : Addr) (m : ℕ) (q : Addr) (n : ℕ) : Decidable (Beside p m q n) :=
  inferInstanceAs (Decidable (_ ∨ _))

namespace Bank

/-- The built-in table, as after `srandom(1)`. -/
def start (table : Addr) : Bank where
  active := table
  size := fun p => if p = table then some 128 else none
  gen := fun _ => .seeded (some degree31) 1

/-- Advance the active generator to `g`. -/
def set (b : Bank) (g : Gen) : Bank := { b with gen := Function.update b.gen b.active g }

/-- Make the buffer of `size` bytes at `p` live with the generator `g`, and active. -/
def install (b : Bank) (p : Addr) (size : ℕ) (g : Gen) : Bank where
  active := p
  size := fun q => if q = p then some size else (b.size q).filter fun m => Beside q m p size
  gen := Function.update b.gen p g

def call (b : Bank) : Call → Reply × Bank
  | .random => (.long (b.gen b.active).next.1, b.set (b.gen b.active).next.2)
  | .srandom seed => (.void, b.set (.seeded (b.gen b.active).degree seed))
  | .initstate seed p size =>
      if size < 8 then (.ptr 0, b)
      else (.ptr b.active, b.install p size.toNat (.seeded (degreeOf size.toNat) seed))
  | .setstate p => (.ptr b.active, { b with active := p })

/-- The calls a program may make: `initstate` on memory that does not run over
the end of the address space, `setstate` on a live buffer. -/
def Allows (b : Bank) : Call → Prop
  | .initstate _ p size => 8 ≤ size → p.toNat + size.toNat ≤ 2 ^ 64
  | .setstate p => (b.size p).isSome
  | _ => True

instance (b : Bank) : (c : Call) → Decidable (b.Allows c)
  | .initstate _ p size => inferInstanceAs (Decidable (8 ≤ size → p.toNat + size.toNat ≤ 2 ^ 64))
  | .setstate p => inferInstanceAs (Decidable (b.size p).isSome)
  | .random | .srandom _ => inferInstanceAs (Decidable True)

def calls (b : Bank) : List Call → List Reply × Bank
  | [] => ([], b)
  | c :: cs => ((b.call c).1 :: ((b.call c).2.calls cs).1, ((b.call c).2.calls cs).2)

def Allowed (b : Bank) : List Call → Prop
  | [] => True
  | c :: cs => b.Allows c ∧ (b.call c).2.Allowed cs

instance decidableAllowed (b : Bank) : (cs : List Call) → Decidable (b.Allowed cs)
  | [] => inferInstanceAs (Decidable True)
  | c :: cs =>
      have := decidableAllowed (b.call c).2 cs
      inferInstanceAs (Decidable (b.Allows c ∧ (b.call c).2.Allowed cs))

/-! ## Live buffers -/

/-- The active buffer is live; live buffers have room for their generators, do
not run over the end of the address space, and do not overlap. -/
structure Valid (b : Bank) : Prop where
  active : (b.size b.active).isSome
  room : ∀ p m, b.size p = some m → (b.gen p).bytes ≤ m ∧ p.toNat + m ≤ 2 ^ 64
  beside : ∀ p m q n, b.size p = some m → b.size q = some n → p ≠ q → Beside p m q n

variable {b : Bank}

theorem gen_set_active (g : Gen) : (b.set g).gen b.active = g := Function.update_self ..

theorem gen_set_of_ne {p : Addr} (g : Gen) (hp : p ≠ b.active) : (b.set g).gen p = b.gen p :=
  Function.update_of_ne hp ..

theorem gen_install_self (p : Addr) (size : ℕ) (g : Gen) : (b.install p size g).gen p = g :=
  Function.update_self ..

theorem gen_install_of_ne {p q : Addr} (size : ℕ) (g : Gen) (hq : q ≠ p) :
    (b.install p size g).gen q = b.gen q :=
  Function.update_of_ne hq ..

theorem size_install_self (p : Addr) (size : ℕ) (g : Gen) :
    (b.install p size g).size p = some size :=
  if_pos rfl

theorem size_install_of_ne {p q : Addr} (size : ℕ) (g : Gen) (hq : q ≠ p) :
    (b.install p size g).size q = (b.size q).filter fun m => Beside q m p size :=
  if_neg hq

/-- A buffer that is live after `install` is the new one or was live beside it. -/
theorem size_install {p q : Addr} {size m : ℕ} {g : Gen}
    (h : (b.install p size g).size q = some m) :
    (q = p ∧ m = size) ∨ (q ≠ p ∧ b.size q = some m ∧ Beside q m p size) := by
  by_cases hq : q = p
  · subst hq
    rw [size_install_self] at h
    exact .inl ⟨rfl, (Option.some.inj h).symm⟩
  · rw [size_install_of_ne size g hq, Option.filter_eq_some_iff, decide_eq_true_eq] at h
    exact .inr ⟨hq, h⟩

theorem size_start {table p : Addr} {m : ℕ} (h : (start table).size p = some m) :
    p = table ∧ m = 128 := by
  change (if p = table then some 128 else none) = some m at h
  by_cases hp : p = table
  · rw [if_pos hp] at h
    exact ⟨hp, (Option.some.inj h).symm⟩
  · rw [if_neg hp] at h
    cases h

theorem Valid.set (h : b.Valid) {g : Gen} (hg : g.bytes = (b.gen b.active).bytes) :
    (b.set g).Valid where
  active := h.active
  room := by
    intro p m hp
    obtain ⟨hbytes, hfits⟩ := h.room p m hp
    refine ⟨?_, hfits⟩
    by_cases hactive : p = b.active
    · subst hactive
      rw [gen_set_active, hg]
      exact hbytes
    · rw [gen_set_of_ne g hactive]
      exact hbytes
  beside := h.beside

theorem Valid.install (h : b.Valid) {p : Addr} {size : ℕ} {g : Gen} (hg : g.bytes ≤ size)
    (hfits : p.toNat + size ≤ 2 ^ 64) : (b.install p size g).Valid where
  active := by
    change ((b.install p size g).size p).isSome
    rw [size_install_self]
    rfl
  room := by
    intro q m hq
    rcases size_install hq with ⟨rfl, rfl⟩ | ⟨hne, hsize, -⟩
    · rw [gen_install_self]
      exact ⟨hg, hfits⟩
    · rw [gen_install_of_ne size g hne]
      exact h.room q m hsize
  beside := by
    intro q m r n hq hr hne
    rcases size_install hq with ⟨rfl, rfl⟩ | ⟨-, hq, hbeside⟩ <;>
      rcases size_install hr with ⟨rfl, rfl⟩ | ⟨-, hr, hbeside'⟩
    · exact absurd rfl hne
    · exact hbeside'.symm
    · exact hbeside
    · exact h.beside q m r n hq hr hne

theorem bytes_seeded {size : ℕ} (h : 8 ≤ size) (seed : BitVec 32) :
    (Gen.seeded (degreeOf size) seed).bytes ≤ size := by
  unfold degreeOf
  split_ifs <;> simp only [Gen.seeded, Gen.bytes, degree7, degree15, degree31, degree63] <;> omega

theorem bytes_reseeded (g : Gen) (seed : BitVec 32) : (Gen.seeded g.degree seed).bytes = g.bytes := by
  cases g <;> rfl

theorem bytes_next (g : Gen) : g.next.2.bytes = g.bytes := by
  cases g <;> simp only [Gen.next, Gen.bytes]

theorem valid_start {table : Addr} (hfits : table.toNat + 128 ≤ 2 ^ 64) : (start table).Valid where
  active := by
    change (if table = table then some 128 else none).isSome
    rw [if_pos rfl]
    rfl
  room := by
    intro p m hp
    obtain ⟨rfl, rfl⟩ := size_start hp
    exact ⟨le_rfl, hfits⟩
  beside := by
    intro p m q n hp hq hne
    exact absurd ((size_start hp).1.trans (size_start hq).1.symm) hne

end Bank

end Mytilus.Prng.Random
