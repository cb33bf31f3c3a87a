import Mathlib.Tactic

/-!
# Xor-shift steps

A word mixed with a shifted and masked copy of itself.  Such a step is linear
over the bits, and it loses nothing: a word equal to its shifted copy would have
every bit equal to one that lies further out, and so has no bit at all.
-/

namespace XorShift

open Function

variable {w : ℕ}

/-- A linear map with no fixed point but zero can be mixed in without loss. -/
theorem injective_xor {g : BitVec w → BitVec w} (hlinear : ∀ x y, g (x ^^^ y) = g x ^^^ g y)
    (hfixed : ∀ x, g x = x → x = 0#w) : Injective fun x => x ^^^ g x := by
  intro x y (h : x ^^^ g x = y ^^^ g y)
  have hfix : g (x ^^^ y) = x ^^^ y := by
    calc g (x ^^^ y) = g x ^^^ g y := hlinear x y
      _ = x ^^^ (x ^^^ g x) ^^^ g y := by rw [← BitVec.xor_assoc, BitVec.xor_self, BitVec.zero_xor]
      _ = x ^^^ y := by rw [h, BitVec.xor_assoc, BitVec.xor_assoc, BitVec.xor_self, BitVec.xor_zero]
  exact BitVec.xor_eq_zero_iff.mp (hfixed _ hfix)

theorem shiftRight_injective {s : ℕ} (hs : 0 < s) : Injective fun x : BitVec w => x ^^^ (x >>> s) := by
  refine injective_xor (fun x y => BitVec.ushiftRight_xor_distrib x y s) fun x hfix => ?_
  -- by induction from the top bit down
  have hbits : ∀ d i, w ≤ i + d → x.getLsbD i = false := by
    intro d
    induction d with
    | zero => exact fun i hi => BitVec.getLsbD_of_ge x i hi
    | succ d ih =>
        intro i hi
        rw [← hfix, BitVec.getLsbD_ushiftRight]
        exact ih (s + i) (by omega)
  apply BitVec.eq_of_getLsbD_eq
  intro i _
  rw [hbits w i (by omega), BitVec.getLsbD_zero]

theorem shiftLeft_and_injective {s : ℕ} (hs : 0 < s) (mask : BitVec w) :
    Injective fun x : BitVec w => x ^^^ ((x <<< s) &&& mask) := by
  have hlinear : ∀ x y : BitVec w,
      ((x ^^^ y) <<< s) &&& mask = ((x <<< s) &&& mask) ^^^ ((y <<< s) &&& mask) := by
    intro x y
    ext i hi
    simp only [BitVec.getElem_and, BitVec.getElem_xor, BitVec.shiftLeft_xor_distrib]
    cases mask[i] <;> simp
  refine injective_xor (g := fun x => (x <<< s) &&& mask) hlinear fun x hfix => ?_
  -- by induction from the bottom bit up
  have hbits : ∀ i, x.getLsbD i = false := by
    intro i
    induction i using Nat.strong_induction_on with
    | h i ih =>
        rw [← hfix, BitVec.getLsbD_and, BitVec.getLsbD_shiftLeft, Bool.and_eq_false_iff]
        left
        by_cases hlt : i < s
        · simp [hlt]
        · rw [ih (i - s) (by omega), Bool.and_false]
  apply BitVec.eq_of_getLsbD_eq
  intro i _
  rw [hbits i, BitVec.getLsbD_zero]

end XorShift
