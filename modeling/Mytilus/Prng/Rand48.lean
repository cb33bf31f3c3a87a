import Mytilus.Base.Memory
import Mytilus.Base.Lcg

/-!
# The 48-bit family

`__rand48_step` and the nine functions over it, on the shared byte memory: the
state of a stream is three 16-bit words at an address, and the multiplier and
the addend are four words of the static array `__seed48`, whose first three
words are the state of the global stream.

The step is written limb by limb as in the source.  `rand48Step_eq` says what it
comes to: six bytes are read as one number, one step of the generator modulo
`2 ^ 48` is taken, and the six bytes are overwritten with the result.
-/

namespace Mytilus.Prng

open Memory

/-! ## The functions -/

/-- `*p` for `p : *const c_ushort` -/
abbrev load16 (m : Memory) (p : Addr) : BitVec 16 := readLE m p 2

/-- `*p = v as c_ushort` -/
abbrev store16 (m : Memory) (p : Addr) {w : ℕ} (v : BitVec w) : Memory := writeLE m p 2 v

/-- Where the statics are: `__seed48`, seven words, and `PREV` of `seed48`, three. -/
structure Statics where
  seed48 : Addr
  prev : Addr
  separate : Separate seed48 14 prev 6

/-- The words at `p`, `p.add(1)` and `p.add(2)` joined: `p0 | (p1 << 16) | (p2 << 32)`. -/
def join48 (m : Memory) (p : Addr) : BitVec 64 :=
  let p0 := (load16 m p).setWidth 64
  let p1 := (load16 m (ptrAdd p 2)).setWidth 64
  let p2 := (load16 m (ptrAdd p 4)).setWidth 64
  p0 ||| (p1 <<< 16) ||| (p2 <<< 32)

/-- `u64 __rand48_step(c_ushort *xi, const c_ushort *lc)` -/
def rand48Step (xi lc : Addr) (m : Memory) : BitVec 64 × Memory :=
  let x := join48 m xi
  let a := join48 m lc
  let lc3 := (load16 m (ptrAdd lc 6)).setWidth 64
  let x := a * x + lc3
  let m := store16 m xi x
  let m := store16 m (ptrAdd xi 2) (x >>> 16)
  let m := store16 m (ptrAdd xi 4) (x >>> 32)
  (x &&& 0xffffffffffff#64, m)

/-- What a call returns. -/
inductive Value
  | long (v : BitVec 64)
  | double (q : ℚ)
  | ptr (a : Addr)
  | void
  deriving DecidableEq

/-- `f64::from_bits` on the bits of a normal number, exactly. -/
def f64OfBits (bits : BitVec 64) : ℚ :=
  (if bits.msb then -1 else 1) *
    (2 : ℚ) ^ (((bits >>> 52).toNat % 2 ^ 11 : ℕ) - 1023 : ℤ) *
      (1 + (bits.toNat % 2 ^ 52 : ℕ) / 2 ^ 52)

section Calls

variable (st : Statics)

def seed48LcPtr : Addr := ptrAdd st.seed48 6

def seed48XiPtr : Addr := st.seed48

/-- `double erand48(unsigned short s[3])`; the subtraction is exact. -/
def erand48 (s : Addr) (m : Memory) : Value × Memory :=
  let (step, m) := rand48Step s (seed48LcPtr st) m
  let bits := 0x3ff0000000000000#64 ||| (step <<< 4)
  (.double (f64OfBits bits - 1), m)

/-- `double drand48(void)` -/
def drand48 (m : Memory) : Value × Memory := erand48 st (seed48XiPtr st) m

/-- `long nrand48(unsigned short s[3])` -/
def nrand48 (s : Addr) (m : Memory) : Value × Memory :=
  let (step, m) := rand48Step s (seed48LcPtr st) m
  (.long (step >>> 17), m)

/-- `long lrand48(void)` -/
def lrand48 (m : Memory) : Value × Memory := nrand48 st (seed48XiPtr st) m

/-- `long jrand48(unsigned short s[3])` -/
def jrand48 (s : Addr) (m : Memory) : Value × Memory :=
  let (step, m) := rand48Step s (seed48LcPtr st) m
  (.long (((step >>> 16).setWidth 32).signExtend 64), m)

/-- `long mrand48(void)` -/
def mrand48 (m : Memory) : Value × Memory := jrand48 st (seed48XiPtr st) m

/-- The body of `seed48`; `word m i` reads element `i` of its argument. -/
def seed48From (word : Memory → ℕ → BitVec 16) (m : Memory) : Value × Memory :=
  let m := store16 m st.prev (load16 m st.seed48)
  let m := store16 m (ptrAdd st.prev 2) (load16 m (ptrAdd st.seed48 2))
  let m := store16 m (ptrAdd st.prev 4) (load16 m (ptrAdd st.seed48 4))
  let m := store16 m st.seed48 (word m 0)
  let m := store16 m (ptrAdd st.seed48 2) (word m 1)
  let m := store16 m (ptrAdd st.seed48 4) (word m 2)
  (.ptr st.prev, m)

/-- `unsigned short *seed48(unsigned short s[3])` -/
def seed48 (s : Addr) (m : Memory) : Value × Memory :=
  seed48From st (fun m i => load16 m (ptrAdd s (2 * i))) m

/-- `let mut s: [c_ushort; 3]` of `srand48`: a local, apart from all other memory. -/
def srand48Array (seed : BitVec 64) : ℕ → BitVec 16
  | 0 => 0x330e#16
  | 1 => seed.setWidth 16
  | _ => (seed >>> 16).setWidth 16

/-- `void srand48(long seed)` -/
def srand48 (seed : BitVec 64) (m : Memory) : Value × Memory :=
  (.void, (seed48From st (fun _ i => srand48Array seed i) m).2)

/-- `for i in 0..7 { *dst.add(i) = *p.add(i); }`, from index `i` on for `k` rounds. -/
def lcong48Loop (dst p : Addr) : (k i : ℕ) → Memory → Memory
  | 0, _, m => m
  | k + 1, i, m =>
      lcong48Loop dst p k (i + 1) (store16 m (ptrAdd dst (2 * i)) (load16 m (ptrAdd p (2 * i))))

/-- `void lcong48(unsigned short p[7])` -/
def lcong48 (p : Addr) (m : Memory) : Value × Memory :=
  (.void, lcong48Loop st.seed48 p 7 0 m)

end Calls

/-! ## What a step comes to -/

/-- Three 16-bit words joined by shifts and `|`. -/
theorem toNat_limbs (x₀ x₁ x₂ : BitVec 16) :
    (x₀.setWidth 64 ||| (x₁.setWidth 64 <<< 16) ||| (x₂.setWidth 64 <<< 32)).toNat =
      x₀.toNat + 2 ^ 16 * x₁.toNat + 2 ^ 32 * x₂.toNat := by
  have h₀ := x₀.isLt
  have h₁ := x₁.isLt
  have h₂ := x₂.isLt
  have hlow : (x₀.setWidth 64 ||| (x₁.setWidth 64 <<< 16)).toNat = x₀.toNat + 2 ^ 16 * x₁.toNat := by
    rw [BitVec.toNat_or, BitVec.toNat_shiftLeft, BitVec.toNat_setWidth, BitVec.toNat_setWidth,
      Nat.mod_eq_of_lt (by omega), Nat.mod_eq_of_lt (by omega), Nat.shiftLeft_eq,
      Nat.mod_eq_of_lt (by omega), ← Nat.shiftLeft_eq, Nat.or_comm,
      ← Nat.shiftLeft_add_eq_or_of_lt (by omega), Nat.shiftLeft_eq]
    ring
  rw [BitVec.toNat_or, hlow, BitVec.toNat_shiftLeft, BitVec.toNat_setWidth,
    Nat.mod_eq_of_lt (by omega : x₂.toNat < 2 ^ 64), Nat.shiftLeft_eq, Nat.mod_eq_of_lt (by omega),
    ← Nat.shiftLeft_eq, Nat.or_comm, ← Nat.shiftLeft_add_eq_or_of_lt (by omega), Nat.shiftLeft_eq]
  ring

/-- The 48-bit number at `p`. -/
def stateAt (m : Memory) (p : Addr) : ℕ := (readLE m p 6).toNat

theorem stateAt_eq (m : Memory) (p : Addr) :
    stateAt m p = (load16 m p).toNat + 2 ^ 16 * (load16 m (ptrAdd p 2)).toNat +
      2 ^ 32 * (load16 m (ptrAdd p 4)).toNat := by
  rw [stateAt, toNat_readLE_add m p 4 2, toNat_readLE_add m p 2 2]

theorem join48_toNat (m : Memory) (p : Addr) : (join48 m p).toNat = stateAt m p :=
  (toNat_limbs _ _ _).trans (stateAt_eq m p).symm

/-- The addend at the end of the four words at `lc`. -/
def addendAt (m : Memory) (lc : Addr) : ℕ := (load16 m (ptrAdd lc 6)).toNat

theorem stateAt_lt (m : Memory) (p : Addr) : stateAt m p < 2 ^ 48 := (readLE m p 6).isLt

theorem addendAt_lt (m : Memory) (lc : Addr) : addendAt m lc < 2 ^ 16 :=
  (load16 m (ptrAdd lc 6)).isLt

/-- The number a step leads to. -/
def nextAt (m : Memory) (xi lc : Addr) : ℕ :=
  Lcg.step (2 ^ 48) (stateAt m lc) (addendAt m lc) (stateAt m xi)

theorem rand48Step_eq (xi lc : Addr) (m : Memory) :
    rand48Step xi lc m =
      (BitVec.ofNat 64 (nextAt m xi lc), writeLE m xi 6 (BitVec.ofNat (8 * 6) (nextAt m xi lc))) := by
  -- the 64-bit value before truncation, and its value modulo `2 ^ 48`
  obtain ⟨x, hx⟩ : ∃ x, x = join48 m lc * join48 m xi + (load16 m (ptrAdd lc 6)).setWidth 64 :=
    ⟨_, rfl⟩
  have hnext : x.toNat % 2 ^ 48 = nextAt m xi lc := by
    have hwide : x.toNat =
        (stateAt m lc * stateAt m xi + addendAt m lc) % 2 ^ 64 := by
      rw [hx, BitVec.toNat_add, BitVec.toNat_mul, join48_toNat, join48_toNat, BitVec.toNat_setWidth,
        Nat.add_mod, Nat.mod_mod, Nat.mod_mod, ← Nat.add_mod]
      rfl
    rw [hwide, Nat.mod_mod_of_dvd _ (by norm_num)]
    rfl
  have hmask : x &&& 0xffffffffffff#64 = BitVec.ofNat 64 (nextAt m xi lc) := by
    rw [← hnext]
    exact and_lowMask x (k := 48) (by norm_num)
  have hstores : store16 (store16 (store16 m xi x) (ptrAdd xi 2) (x >>> 16)) (ptrAdd xi 4)
      (x >>> 32) = writeLE m xi 6 x := by
    have h₁ := writeLE_writeLE m xi (n := 2) (k := 2) x (by norm_num)
    have h₂ := writeLE_writeLE m xi (n := 4) (k := 2) x (by norm_num)
    exact (congrArg (fun m' => store16 m' (ptrAdd xi 4) (x >>> 32)) h₁).trans h₂
  have hlow : writeLE m xi 6 x = writeLE m xi 6 (BitVec.ofNat (8 * 6) (nextAt m xi lc)) := by
    have htrunc : x.setWidth (8 * 6) = BitVec.ofNat (8 * 6) (nextAt m xi lc) := by
      apply BitVec.eq_of_toNat_eq
      rw [BitVec.toNat_setWidth, BitVec.toNat_ofNat, ← hnext]
      omega
    rw [← htrunc]
    exact writeLE_congr m xi fun k hk => (byteOf_setWidth x (by omega)).symm
  unfold rand48Step
  simp only
  rw [← hx, hmask, hstores, hlow]

/-! ## Installing parameters -/

theorem lcong48Loop_eq {dst p : Addr} {m : Memory} (hsep : Separate dst 14 p 14) (k i : ℕ)
    (hi : i + k = 7) :
    lcong48Loop dst p k i (writeLE m dst (2 * i) (readLE m p 14)) =
      writeLE m dst 14 (readLE m p 14) := by
  induction k generalizing i with
  | zero =>
      obtain rfl : i = 7 := by omega
      rfl
  | succ k ih =>
      have hcopy : store16 (writeLE m dst (2 * i) (readLE m p 14)) (ptrAdd dst (2 * i))
          (load16 (writeLE m dst (2 * i) (readLE m p 14)) (ptrAdd p (2 * i))) =
            writeLE m dst (2 * (i + 1)) (readLE m p 14) := by
        have hsource : Separate dst (2 * i) (ptrAdd p (2 * i)) 2 := by
          have hparts := hsep.parts (i := 0) (k := 2 * i) (j := 2 * i) (l := 2) (by omega)
            (by norm_num) (by omega) (by norm_num)
          rwa [ptrAdd_zero] at hparts
        have hjoin := writeLE_writeLE m dst (n := 2 * i) (k := 2) (readLE m p 14) (by omega)
        rw [load16, readLE_writeLE_of_separate m _ hsource (by norm_num)]
        refine (writeLE_congr _ _ fun k hk => ?_).trans hjoin
        rw [byteOf_ushiftRight, byteOf_readLE m _ hk, byteOf_readLE m p (by omega), ptrAdd_ptrAdd]
      rw [lcong48Loop, hcopy, ih (i + 1) (by omega)]

/-- `lcong48` copies its seven words, when they are apart from `__seed48`. -/
theorem lcong48_eq (st : Statics) {p : Addr} {m : Memory} (hsep : Separate st.seed48 14 p 14) :
    (lcong48 st p m).2 = writeLE m st.seed48 14 (readLE m p 14) := by
  have hloop := lcong48Loop_eq (m := m) hsep 7 0 rfl
  have hstart : writeLE m st.seed48 (2 * 0) (readLE m p 14) = m := by
    funext x
    exact writeLE_of_not_within m _ (Nat.not_lt_zero _)
  rwa [hstart] at hloop

end Mytilus.Prng
