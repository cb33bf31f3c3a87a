import Mytilus.Base.Memory
import Mytilus.Locale.Ctype

/-!
# The character classes of the C locale

`Class.Has k x` says that the number `x` is the code of a character in class `k`,
as POSIX lists them.  Each classifier tests its class, for every `int` (`test_iff`,
one lemma for each function before it); what the classes have to do with each other,
and what folding does to them, is then a matter of their bounds.

`ctype_lawful` collects it: the tests, the partitions of `isgraph` and `isascii`, and
`tolower` and `toupper` as inverse bijections between the letters of either case that
leave all else alone.
-/

namespace Mytilus.Locale

inductive Class
  | alpha | digit | space | upper | lower | alnum | xdigit | graph | print | punct | cntrl | blank
  deriving DecidableEq

namespace Class

/-- The codes of the characters of a class. -/
def Has : Class → ℤ → Prop
  -- A to Z, a to z
  | alpha, x => 65 ≤ x ∧ x ≤ 90 ∨ 97 ≤ x ∧ x ≤ 122
  | digit, x => 48 ≤ x ∧ x ≤ 57
  -- tab, newline, vertical tab, form feed, carriage return, space
  | space, x => 9 ≤ x ∧ x ≤ 13 ∨ x = 32
  | upper, x => 65 ≤ x ∧ x ≤ 90
  | lower, x => 97 ≤ x ∧ x ≤ 122
  | alnum, x => 48 ≤ x ∧ x ≤ 57 ∨ 65 ≤ x ∧ x ≤ 90 ∨ 97 ≤ x ∧ x ≤ 122
  | xdigit, x => 48 ≤ x ∧ x ≤ 57 ∨ 65 ≤ x ∧ x ≤ 70 ∨ 97 ≤ x ∧ x ≤ 102
  | graph, x => 33 ≤ x ∧ x ≤ 126
  | print, x => 32 ≤ x ∧ x ≤ 126
  -- the four runs between the space, the digits and the letters, up to the tilde
  | punct, x => 33 ≤ x ∧ x ≤ 47 ∨ 58 ≤ x ∧ x ≤ 64 ∨ 91 ≤ x ∧ x ≤ 96 ∨ 123 ≤ x ∧ x ≤ 126
  | cntrl, x => 0 ≤ x ∧ x ≤ 31 ∨ x = 127
  | blank, x => x = 32 ∨ x = 9

/-- The function that tests a class. -/
def test : Class → BitVec 32 → BitVec 32
  | alpha => isalpha
  | digit => isdigit
  | space => isspace
  | upper => isupper
  | lower => islower
  | alnum => isalnum
  | xdigit => isxdigit
  | graph => isgraph
  | print => isprint
  | punct => ispunct
  | cntrl => iscntrl
  | blank => isblank

/-- All characters are in ASCII. -/
theorem Has.ascii {k : Class} {x : ℤ} (h : k.Has x) : 0 ≤ x ∧ x ≤ 127 := by
  cases k <;> unfold Has at h <;> omega

/-- A negative `int` is in no class, and neither is the unsigned number it wraps to. -/
theorem has_toNat (k : Class) (c : BitVec 32) : k.Has (c.toNat : ℤ) ↔ k.Has c.toInt := by
  have hlt := c.isLt
  rw [BitVec.toInt_eq_toNat_cond]
  split_ifs with hsmall
  · exact Iff.rfl
  · refine iff_of_false (fun h => ?_) fun h => ?_
    · have hascii := h.ascii
      omega
    · have hascii := h.ascii
      omega

end Class

/-! ## The classifiers -/

section Classifiers

variable {c : BitVec 32}

theorem bit5_iff (c : BitVec 32) : c.getLsbD 5 = true ↔ c.toNat / 32 % 2 = 1 := by
  rw [← BitVec.testBit_toNat, Nat.testBit_eq_decide_div_mod_eq, decide_eq_true_iff]

/-- Setting bit 5 adds 32, unless it is set. -/
theorem or_bit5 (c : BitVec 32) : c ||| 32 = if c.toNat / 32 % 2 = 1 then c else c + 32 := by
  have hbit : (32 : BitVec 32) = BitVec.twoPow 32 5 := rfl
  split_ifs with h <;> rw [← bit5_iff] at h
  · ext i hi
    rw [BitVec.getElem_or, hbit, BitVec.getElem_twoPow]
    by_cases hi5 : i = 5
    · subst hi5
      rw [← BitVec.getLsbD_eq_getElem hi, h]
      rfl
    · simp [hi5]
  · rw [BitVec.add_eq_or_of_and_eq_zero]
    ext i hi
    rw [BitVec.getElem_and, hbit, BitVec.getElem_twoPow, BitVec.getElem_zero]
    by_cases hi5 : i = 5
    · subst hi5
      rw [← BitVec.getLsbD_eq_getElem hi, Bool.eq_false_iff.mpr h, Bool.false_and]
    · simp [hi5]

/-- Folding to the small letters and comparing takes the first `n` letters of either case. -/
theorem folded_lt_iff {n : BitVec 32} (hn : n.toNat ≤ 26) :
    (u c ||| 32) - 0x61 < n ↔
      65 ≤ c.toNat ∧ c.toNat < 65 + n.toNat ∨ 97 ≤ c.toNat ∧ c.toNat < 97 + n.toNat := by
  unfold u
  rw [or_bit5]
  split_ifs with h <;> bv_omega

theorem isalpha_iff : isalpha c ≠ 0 ↔ Class.alpha.Has (c.toNat : ℤ) := by
  rw [isalpha, truth_ne_zero_iff, folded_lt_iff le_rfl]
  unfold Class.Has
  bv_omega

theorem isdigit_iff : isdigit c ≠ 0 ↔ Class.digit.Has (c.toNat : ℤ) := by
  rw [isdigit, truth_ne_zero_iff]
  unfold u Class.Has
  bv_omega

theorem isspace_iff : isspace c ≠ 0 ↔ Class.space.Has (c.toNat : ℤ) := by
  rw [isspace, truth_ne_zero_iff]
  unfold u Class.Has
  bv_omega

theorem isupper_iff : isupper c ≠ 0 ↔ Class.upper.Has (c.toNat : ℤ) := by
  rw [isupper_ne_zero_iff]
  unfold Class.Has
  omega

theorem islower_iff : islower c ≠ 0 ↔ Class.lower.Has (c.toNat : ℤ) := by
  rw [islower, truth_ne_zero_iff]
  unfold u Class.Has
  bv_omega

theorem isalnum_iff : isalnum c ≠ 0 ↔ Class.alnum.Has (c.toNat : ℤ) := by
  rw [isalnum, truth_ne_zero_iff, isalpha_iff, isdigit_iff]
  unfold Class.Has
  omega

theorem isxdigit_iff : isxdigit c ≠ 0 ↔ Class.xdigit.Has (c.toNat : ℤ) := by
  rw [isxdigit, truth_ne_zero_iff, isdigit_iff, folded_lt_iff (by decide)]
  unfold Class.Has
  bv_omega

theorem isgraph_iff : isgraph c ≠ 0 ↔ Class.graph.Has (c.toNat : ℤ) := by
  rw [isgraph, truth_ne_zero_iff]
  unfold u Class.Has
  bv_omega

theorem isprint_iff : isprint c ≠ 0 ↔ Class.print.Has (c.toNat : ℤ) := by
  rw [isprint, truth_ne_zero_iff]
  unfold u Class.Has
  bv_omega

theorem ispunct_iff : ispunct c ≠ 0 ↔ Class.punct.Has (c.toNat : ℤ) := by
  rw [ispunct, truth_ne_zero_iff, isgraph_iff, ← not_iff_comm.mp isalnum_iff]
  unfold Class.Has
  omega

theorem iscntrl_iff : iscntrl c ≠ 0 ↔ Class.cntrl.Has (c.toNat : ℤ) := by
  rw [iscntrl, truth_ne_zero_iff]
  unfold u Class.Has
  bv_omega

theorem isblank_iff : isblank c ≠ 0 ↔ Class.blank.Has (c.toNat : ℤ) := by
  rw [isblank, truth_ne_zero_iff]
  unfold Class.Has
  bv_omega

theorem isascii_iff : isascii c ≠ 0 ↔ c.toNat ≤ 127 := by
  have hsplit := Memory.and_add_and_not c 0x7f
  have hlow : (c &&& 0x7f).toNat = c.toNat % 2 ^ 7 := by
    rw [BitVec.toNat_and]
    exact Nat.and_two_pow_sub_one_eq_mod c.toNat 7
  rw [isascii, truth_ne_zero_iff]
  generalize c &&& 0x7f = low at *
  generalize c &&& ~~~0x7f = high at *
  constructor
  · rintro rfl
    bv_omega
  · intro h
    bv_omega

/-- Each classifier tests its class. -/
theorem test_iff (k : Class) : k.test c ≠ 0 ↔ k.Has c.toInt := by
  rw [← k.has_toNat]
  cases k
  · exact isalpha_iff
  · exact isdigit_iff
  · exact isspace_iff
  · exact isupper_iff
  · exact islower_iff
  · exact isalnum_iff
  · exact isxdigit_iff
  · exact isgraph_iff
  · exact isprint_iff
  · exact ispunct_iff
  · exact iscntrl_iff
  · exact isblank_iff

/-! ## The classes and each other -/

theorem isascii_toInt_iff : isascii c ≠ 0 ↔ 0 ≤ c.toInt ∧ c.toInt ≤ 127 := by
  rw [isascii_iff, BitVec.toInt_eq_toNat_cond]
  split_ifs <;> omega

theorem isgraph_iff_or : isgraph c ≠ 0 ↔ isalnum c ≠ 0 ∨ ispunct c ≠ 0 := by
  rw [isgraph_iff, isalnum_iff, ispunct_iff]
  unfold Class.Has
  omega

theorem not_isalnum_and_ispunct : ¬ (isalnum c ≠ 0 ∧ ispunct c ≠ 0) := by
  rw [isalnum_iff, ispunct_iff]
  unfold Class.Has
  omega

theorem isascii_iff_or : isascii c ≠ 0 ↔ isprint c ≠ 0 ∨ iscntrl c ≠ 0 := by
  rw [isascii_iff, isprint_iff, iscntrl_iff]
  unfold Class.Has
  omega

theorem not_isprint_and_iscntrl : ¬ (isprint c ≠ 0 ∧ iscntrl c ≠ 0) := by
  rw [isprint_iff, iscntrl_iff]
  unfold Class.Has
  omega

/-! ## Folding -/

theorem isupper_bounds (h : isupper c ≠ 0) : 65 ≤ c.toNat ∧ c.toNat ≤ 90 :=
  (isupper_ne_zero_iff c).mp h

theorem islower_bounds (h : islower c ≠ 0) : 97 ≤ c.toNat ∧ c.toNat ≤ 122 := by
  have hlower := islower_iff.mp h
  unfold Class.Has at hlower
  omega

theorem tolower_of_isupper (h : isupper c ≠ 0) : tolower c = c + 32 := by
  have hbounds := isupper_bounds h
  rw [tolower, if_pos h, or_bit5, if_neg (by omega)]

theorem toupper_of_islower (h : islower c ≠ 0) : toupper c = c - 32 := by
  obtain ⟨hlo, hhi⟩ := islower_bounds h
  have hclear : ∀ n, 97 ≤ n → n ≤ 122 → n &&& 0x5f = n - 32 := by
    intro n hlo hhi
    interval_cases n <;> rfl
  have hand : (c &&& 0x5f).toNat = c.toNat - 32 := hclear c.toNat hlo hhi
  rw [toupper, if_pos h]
  bv_omega

theorem toInt_tolower (h : isupper c ≠ 0) : (tolower c).toInt = c.toInt + 32 := by
  have hbounds := isupper_bounds h
  rw [tolower_of_isupper h, BitVec.toInt_eq_toNat_cond, BitVec.toInt_eq_toNat_cond,
    BitVec.toNat_add]
  simp only [BitVec.reduceToNat]
  split_ifs <;> omega

theorem tolower_of_not_isupper (h : isupper c = 0) : tolower c = c := if_neg (not_not.mpr h)

theorem toupper_of_not_islower (h : islower c = 0) : toupper c = c := if_neg (not_not.mpr h)

theorem islower_tolower (h : isupper c ≠ 0) : islower (tolower c) ≠ 0 := by
  have hbounds := isupper_bounds h
  rw [tolower_of_isupper h, islower_iff]
  unfold Class.Has
  bv_omega

theorem isupper_toupper (h : islower c ≠ 0) : isupper (toupper c) ≠ 0 := by
  have hbounds := islower_bounds h
  rw [toupper_of_islower h, isupper_ne_zero_iff]
  bv_omega

theorem toupper_tolower (h : isupper c ≠ 0) : toupper (tolower c) = c := by
  rw [toupper_of_islower (islower_tolower h), tolower_of_isupper h, BitVec.add_sub_cancel]

theorem tolower_toupper (h : islower c ≠ 0) : tolower (toupper c) = c := by
  rw [tolower_of_isupper (isupper_toupper h), toupper_of_islower h, BitVec.sub_add_cancel]

/-- No letter is of both cases. -/
theorem isupper_eq_zero (h : islower c ≠ 0) : isupper c = 0 := by
  by_contra hupper
  have hlo := isupper_bounds hupper
  have hhi := islower_bounds h
  omega

theorem tolower_idem (c : BitVec 32) : tolower (tolower c) = tolower c := by
  by_cases h : isupper c = 0
  · rw [tolower_of_not_isupper h, tolower_of_not_isupper h]
  · exact tolower_of_not_isupper (isupper_eq_zero (islower_tolower h))

theorem toupper_idem (c : BitVec 32) : toupper (toupper c) = toupper c := by
  by_cases h : islower c = 0
  · rw [toupper_of_not_islower h, toupper_of_not_islower h]
  · refine toupper_of_not_islower (not_not.mp fun hlower => ?_)
    exact isupper_toupper h (isupper_eq_zero hlower)

end Classifiers

/-- How the classifiers and the folding functions behave on every `int`. -/
structure CtypeLaws : Prop where
  test_iff : ∀ (k : Class) c, k.test c ≠ 0 ↔ k.Has c.toInt
  test_ascii : ∀ (k : Class) c, k.test c ≠ 0 → 0 ≤ c.toInt ∧ c.toInt ≤ 127
  isascii_iff : ∀ c, isascii c ≠ 0 ↔ 0 ≤ c.toInt ∧ c.toInt ≤ 127
  alnum_iff : ∀ c, isalnum c ≠ 0 ↔ isalpha c ≠ 0 ∨ isdigit c ≠ 0
  graph_iff : ∀ c, isgraph c ≠ 0 ↔ isalnum c ≠ 0 ∨ ispunct c ≠ 0
  graph_disjoint : ∀ c, ¬ (isalnum c ≠ 0 ∧ ispunct c ≠ 0)
  ascii_iff : ∀ c, isascii c ≠ 0 ↔ isprint c ≠ 0 ∨ iscntrl c ≠ 0
  ascii_disjoint : ∀ c, ¬ (isprint c ≠ 0 ∧ iscntrl c ≠ 0)
  tolower_bij : Set.BijOn tolower {c | Class.upper.Has c.toInt} {c | Class.lower.Has c.toInt}
  tolower_upper : ∀ c, Class.upper.Has c.toInt → (tolower c).toInt = c.toInt + 32
  tolower_other : ∀ c, ¬ Class.upper.Has c.toInt → tolower c = c
  toupper_bij : Set.BijOn toupper {c | Class.lower.Has c.toInt} {c | Class.upper.Has c.toInt}
  toupper_inv : Set.InvOn toupper tolower {c | Class.upper.Has c.toInt}
    {c | Class.lower.Has c.toInt}
  toupper_other : ∀ c, ¬ Class.lower.Has c.toInt → toupper c = c
  tolower_idem : ∀ c, tolower (tolower c) = tolower c
  toupper_idem : ∀ c, toupper (toupper c) = toupper c

/-- **The classifiers test the classes of the C locale, and folding exchanges the letters.** -/
theorem ctype_lawful : CtypeLaws := by
  have htest : ∀ (k : Class) (c : BitVec 32), k.test c ≠ 0 ↔ k.Has c.toInt := fun k _ => test_iff k
  have hupper : ∀ c : BitVec 32, Class.upper.Has c.toInt ↔ isupper c ≠ 0 := fun c =>
    (htest .upper c).symm
  have hlower : ∀ c : BitVec 32, Class.lower.Has c.toInt ↔ islower c ≠ 0 := fun c =>
    (htest .lower c).symm
  -- folding is a bijection because it is undone
  have hinv : Set.InvOn toupper tolower {c | Class.upper.Has c.toInt}
      {c | Class.lower.Has c.toInt} :=
    ⟨fun c hc => toupper_tolower ((hupper c).mp hc), fun c hc => tolower_toupper ((hlower c).mp hc)⟩
  have hdown : Set.MapsTo tolower {c | Class.upper.Has c.toInt} {c | Class.lower.Has c.toInt} :=
    fun c hc => (hlower _).mpr (islower_tolower ((hupper c).mp hc))
  have hup : Set.MapsTo toupper {c | Class.lower.Has c.toInt} {c | Class.upper.Has c.toInt} :=
    fun c hc => (hupper _).mpr (isupper_toupper ((hlower c).mp hc))
  exact
    { test_iff := htest
      test_ascii := fun k c h => ((htest k c).mp h).ascii
      isascii_iff := fun c => isascii_toInt_iff
      alnum_iff := fun c => truth_ne_zero_iff
      graph_iff := fun c => isgraph_iff_or
      graph_disjoint := fun c => not_isalnum_and_ispunct
      ascii_iff := fun c => isascii_iff_or
      ascii_disjoint := fun c => not_isprint_and_iscntrl
      tolower_bij := hinv.bijOn hdown hup
      tolower_upper := fun c hc => toInt_tolower ((hupper c).mp hc)
      tolower_other := fun c hc => tolower_of_not_isupper (not_not.mp (mt (hupper c).mpr hc))
      toupper_bij := hinv.symm.bijOn hup hdown
      toupper_inv := hinv
      toupper_other := fun c hc => toupper_of_not_islower (not_not.mp (mt (hlower c).mpr hc))
      tolower_idem := tolower_idem
      toupper_idem := toupper_idem }

end Mytilus.Locale
