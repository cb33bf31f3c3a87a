import Mathlib.Control.Monad.Basic
import Mathlib.Tactic

/-!
# System calls and `errno`

A wrapper runs against a kernel that answers each request with any word at all,
which may depend on everything asked before.  What a wrapper leaves behind is
`errno` and the list of its requests with the replies.

The cancellation-point variants of the stubs branch on `DUMMY_CANCEL`, which is
zero and never written, so they are the plain stubs.
-/

namespace Mytilus.Sys

/-- A system call number and its arguments. -/
structure Request where
  nr : BitVec 64
  args : List (BitVec 64)
  deriving DecidableEq

structure World where
  errno : BitVec 32
  /-- What has been asked so far, and the replies. -/
  log : List (Request × BitVec 64)

/-- The reply to a request, after those that came before. -/
abbrev Kernel := List (Request × BitVec 64) → Request → BitVec 64

abbrev Code := StateM World

section Stubs

variable (kernel : Kernel)

/-- `syscall0` to `syscall6`: `svc #0` -/
def syscall (nr : BitVec 64) (args : List (BitVec 64)) : Code (BitVec 64) := fun w =>
  (kernel w.log ⟨nr, args⟩, { w with log := w.log ++ [(⟨nr, args⟩, kernel w.log ⟨nr, args⟩)] })

/-- `syscall_cp0` to `syscall_cp6` -/
def syscallCp (nr : BitVec 64) (args : List (BitVec 64)) : Code (BitVec 64) := syscall kernel nr args

end Stubs

/-- `*__errno_location() = e` -/
def setErrno (e : BitVec 32) : Code Unit := fun w => ((), { w with errno := e })

/-- Is the kernel's return an error number, negated? -/
def isErr (rc : BitVec 64) : Bool := decide ((-4096 : BitVec 64) ≤ rc)

/-- The C convention: `-1` and the error number in `errno`, or the kernel's return. -/
def ret (r : BitVec 64) : Code (BitVec 64) :=
  if isErr r then do
    setErrno ((-r).setWidth 32)
    return -1
  else
    return r

def EINTR : BitVec 32 := 4

def EINVAL : BitVec 32 := 22

/-! ## Replies -/

/-- The kernel reports the error `e`. -/
def IsError (r : BitVec 64) (e : ℕ) : Prop := 1 ≤ e ∧ e ≤ 4095 ∧ r.toInt = -e

/-- A kernel return outside the range of the negated error numbers. -/
def Outside (v : ℤ) : Prop := v < -4096 ∨ -1 < v

theorem isErr_iff (r : BitVec 64) : isErr r = true ↔ -4096 ≤ r.toInt ∧ r.toInt ≤ -1 := by
  have hbound : (-4096 : BitVec 64).toNat = 2 ^ 64 - 4096 := rfl
  have hlt := r.isLt
  rw [isErr, decide_eq_true_iff, BitVec.le_def, hbound, BitVec.toInt_eq_toNat_cond]
  split_ifs <;> omega

theorem IsError.isErr {r : BitVec 64} {e : ℕ} (h : IsError r e) : isErr r = true := by
  obtain ⟨hlo, hhi, hr⟩ := h
  rw [isErr_iff, hr]
  omega

theorem isErr_of_outside {r : BitVec 64} (h : Outside r.toInt) : isErr r = false := by
  rw [Bool.eq_false_iff, ne_eq, isErr_iff]
  rcases h with h | h <;> omega

/-- A C `int` survives the cast of the kernel's return. -/
theorem toInt_setWidth {r : BitVec 64} (hlo : -2 ^ 31 ≤ r.toInt) (hhi : r.toInt < 2 ^ 31) :
    (r.setWidth 32).toInt = r.toInt := by
  have hlt := r.isLt
  rw [BitVec.toInt_eq_toNat_cond] at hlo hhi ⊢
  rw [BitVec.toInt_eq_toNat_cond, BitVec.toNat_setWidth]
  split_ifs at hlo hhi ⊢ <;> omega

/-- The error number, read back from the kernel's return. -/
theorem IsError.toInt_neg {r : BitVec 64} {e : ℕ} (h : IsError r e) :
    ((-r).setWidth 32).toInt = e := by
  obtain ⟨hlo, hhi, hr⟩ := h
  have hneg : (-r).toInt = e := by
    rw [BitVec.toInt_neg, hr, neg_neg]
    exact Int.bmod_eq_of_le (by omega) (by omega)
  rw [toInt_setWidth (by omega) (by omega), hneg]

theorem ret_of_isErr {r : BitVec 64} (h : isErr r = true) (w : World) :
    ret r w = (-1, { w with errno := (-r).setWidth 32 }) := by
  rw [ret, if_pos h]
  rfl

theorem ret_of_not_isErr {r : BitVec 64} (h : isErr r = false) (w : World) : ret r w = (r, w) := by
  rw [ret, if_neg (Bool.not_eq_true _ ▸ h)]
  rfl

theorem log_ret (r : BitVec 64) (w : World) : (ret r w).2.log = w.log := by
  cases h : isErr r with
  | true => rw [ret_of_isErr h]
  | false => rw [ret_of_not_isErr h]

end Mytilus.Sys
