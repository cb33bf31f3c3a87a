import Mathlib.Tactic

/-!
# Character classification and case

The functions of `ctype.rs`.  The tests of the simple classes are one unsigned
comparison each: what lies below the first character of a class wraps round to a
large number.
-/

namespace Mytilus.Locale

/-- `c as u32` -/
def u (c : BitVec 32) : BitVec 32 := c

def isalpha (c : BitVec 32) : BitVec 32 := if (u c ||| 32) - 0x61 < 26 then 1 else 0

def isdigit (c : BitVec 32) : BitVec 32 := if u c - 0x30 < 10 then 1 else 0

def isspace (c : BitVec 32) : BitVec 32 := if c = 0x20 ∨ u c - 0x09 < 5 then 1 else 0

/-- `int isupper(int c)` -/
def isupper (c : BitVec 32) : BitVec 32 := if u c - 0x41 < 26 then 1 else 0

def islower (c : BitVec 32) : BitVec 32 := if u c - 0x61 < 26 then 1 else 0

def isalnum (c : BitVec 32) : BitVec 32 := if isalpha c ≠ 0 ∨ isdigit c ≠ 0 then 1 else 0

def isxdigit (c : BitVec 32) : BitVec 32 :=
  if isdigit c ≠ 0 ∨ (u c ||| 32) - 0x61 < 6 then 1 else 0

def isgraph (c : BitVec 32) : BitVec 32 := if u c - 0x21 < 0x5e then 1 else 0

def isprint (c : BitVec 32) : BitVec 32 := if u c - 0x20 < 0x5f then 1 else 0

def ispunct (c : BitVec 32) : BitVec 32 := if isgraph c ≠ 0 ∧ isalnum c = 0 then 1 else 0

def iscntrl (c : BitVec 32) : BitVec 32 := if u c < 0x20 ∨ c = 0x7f then 1 else 0

def isblank (c : BitVec 32) : BitVec 32 := if c = 0x20 ∨ c = 0x09 then 1 else 0

/-- `(c & !0x7f) == 0` -/
def isascii (c : BitVec 32) : BitVec 32 := if c &&& ~~~0x7f = 0 then 1 else 0

/-- `int tolower(int c)` -/
def tolower (c : BitVec 32) : BitVec 32 := if isupper c ≠ 0 then c ||| 32 else c

/-- `int toupper(int c)` -/
def toupper (c : BitVec 32) : BitVec 32 := if islower c ≠ 0 then c &&& 0x5f else c

/-- A truth value as an `int`. -/
theorem truth_ne_zero_iff {p : Prop} [Decidable p] : (if p then 1 else 0 : BitVec 32) ≠ 0 ↔ p := by
  split_ifs with h
  · exact iff_of_true (by decide) h
  · exact iff_of_false (not_not.mpr rfl) h

theorem isupper_ne_zero_iff (c : BitVec 32) : isupper c ≠ 0 ↔ 65 ≤ c.toNat ∧ c.toNat ≤ 90 := by
  rw [isupper, truth_ne_zero_iff]
  unfold u
  bv_omega

end Mytilus.Locale
