import Mytilus.AArch64.Run

/-!
# The registers a call preserves

`x19` to `x30`, the stack pointer, and the low halves of `v8` to `v15`, as one
type: a routine that saves or restores them treats each as a value of 64 bits.

`value_set_self` and `value_set_of_ne` are all that a save or a restore needs to
know of the register file: what is set is read back, and the others are as before.
-/

namespace AArch64

inductive CalleeSaved
  /-- The register `x(19 + n)`. -/
  | x (n : Fin 12)
  | sp
  /-- The register `d(8 + n)`. -/
  | d (n : Fin 8)
  deriving DecidableEq

namespace CalleeSaved

def gpr (n : Fin 12) : Reg := .x ⟨19 + n, by omega⟩

def fpr (n : Fin 8) : VReg := ⟨8 + n, by omega⟩

def value (s : State) : CalleeSaved → BitVec 64
  | x n => s.reg (gpr n)
  | sp => s.reg .sp
  | d n => (s.vec (fpr n)).setWidth 64

/-- Load a value into the register; the high half of a SIMD register is cleared. -/
def set (s : State) (v : BitVec 64) : CalleeSaved → State
  | x n => s.setReg (gpr n) v
  | sp => s.setReg .sp v
  | d n => s.setVec (fpr n) (v.setWidth 128)

variable {s s' : State} {q r : CalleeSaved} {v : BitVec 64}

theorem gpr_inj {m n : Fin 12} (h : gpr m = gpr n) : m = n := by
  simp only [gpr, Reg.x.injEq, Fin.mk.injEq] at h
  omega

theorem fpr_inj {m n : Fin 8} (h : fpr m = fpr n) : m = n := by
  simp only [fpr, Fin.mk.injEq] at h
  omega

theorem gpr_ne {i : Fin 31} (hi : i.val < 19) (n : Fin 12) : gpr n ≠ .x i := by
  intro h
  simp only [gpr, Reg.x.injEq] at h
  subst h
  simp at hi

theorem value_congr (hreg : s'.reg = s.reg) (hvec : s'.vec = s.vec) (r : CalleeSaved) :
    r.value s' = r.value s := by
  cases r with
  | x n => exact congrFun hreg _
  | sp => exact congrFun hreg _
  | d n => exact congrArg (BitVec.setWidth 64) (congrFun hvec _)

/-- The registers below `x19` are not among them. -/
theorem value_setReg {i : Fin 31} (hi : i.val < 19) (r : CalleeSaved) :
    r.value (s.setReg (.x i) v) = r.value s := by
  cases r with
  | x n => exact (State.reg_setReg ..).trans (if_neg (gpr_ne hi n))
  | sp => exact (State.reg_setReg ..).trans (if_neg (by simp))
  | d n => rfl

theorem value_set_self : r.value (r.set s v) = v := by
  cases r with
  | x n => exact State.reg_setReg_self ..
  | sp => exact State.reg_setReg_self ..
  | d n =>
      rw [value, set, State.vec_setVec, if_pos rfl, BitVec.setWidth_setWidth_of_le _ (by norm_num),
        BitVec.setWidth_eq]

theorem value_set_of_ne (h : r ≠ q) : r.value (q.set s v) = r.value s := by
  -- two registers of one kind differ in their numbers, those of two kinds always
  cases q with
  | x m =>
      cases r with
      | x n =>
          refine (State.reg_setReg ..).trans (if_neg fun heq => h ?_)
          rw [gpr_inj heq]
      | sp => exact (State.reg_setReg ..).trans (if_neg (by simp [gpr]))
      | d n => rfl
  | sp =>
      cases r with
      | x n => exact (State.reg_setReg ..).trans (if_neg (by simp [gpr]))
      | sp => exact absurd rfl h
      | d n => rfl
  | d m =>
      cases r with
      | x n => rfl
      | sp => rfl
      | d n =>
          have hne : fpr n ≠ fpr m := fun heq => h (by rw [fpr_inj heq])
          exact congrArg (BitVec.setWidth 64) ((State.vec_setVec ..).trans (if_neg hne))

/-- The registers below `x19` stay. -/
theorem reg_set {i : Fin 31} (hi : i.val < 19) : (r.set s v).reg (.x i) = s.reg (.x i) := by
  cases r with
  | x n => exact (State.reg_setReg ..).trans (if_neg (gpr_ne hi n).symm)
  | sp => exact (State.reg_setReg ..).trans (if_neg (by simp))
  | d n => rfl

@[simp] theorem mem_set : (r.set s v).mem = s.mem := by cases r <;> rfl
@[simp] theorem trace_set : (r.set s v).trace = s.trace := by cases r <;> rfl

end CalleeSaved

end AArch64
