import Mytilus.AArch64.CalleeSaved
import Mytilus.AArch64.Overwrite

/-!
# What a listing cannot change

Which registers an instruction writes can be read off it (`writes`, `writesVec`,
with `reg_exec` and `vec_exec`).  A listing whose instructions write scratch
registers only, and that leaves by `ret` only, keeps the registers a call preserves
and returns to its caller, in every run that ends and whatever else is wrong with
its arguments: `run_conforms`, an induction on the run by way of `run_invariant`.

`ends_returns` adds what is written besides, from the sets of a listing, so that the
calling convention of a routine is a computation on its lines.
-/

namespace AArch64

/-! ## One instruction -/

def Address.writes : Address → List Reg
  | .pre base _ => [base]
  | _ => []

namespace Instr

/-- The general registers an instruction writes. -/
def writes : Instr → List Reg
  | .mov d _ | .add d _ _ | .sub d _ _ | .subs d _ _ | .and _ d _ _ | .bic d _ _ | .lsr d _ _
  | .csincZr d _ _ | .mrsDczid d | .movD0 d _ => [d]
  | .load _ t a => t :: a.writes
  | .ldp t t' a => t :: t' :: a.writes
  | .store _ _ a | .stp _ _ a | .strQ _ a | .stpQ _ _ a | .stpD _ _ a | .ldpD _ _ a => a.writes
  | .nop | .cmp .. | .ccmp .. | .dup16B .. | .dcZva _ => []

/-- The SIMD registers an instruction writes. -/
def writesVec : Instr → List VReg
  | .ldpD t t' _ => [t, t']
  | .dup16B d _ => [d]
  | _ => []

end Instr

section Exec

variable {s : State} {r : Reg} {v : VReg}

theorem reg_setReg_of_ne {r' : Reg} (h : r ≠ r') (w : BitVec 64) :
    (s.setReg r' w).reg r = s.reg r :=
  (State.reg_setReg ..).trans (if_neg h)

theorem vec_setVec_of_ne {v' : VReg} (h : v ≠ v') (w : BitVec 128) :
    (s.setVec v' w).vec v = s.vec v :=
  (State.vec_setVec ..).trans (if_neg h)

theorem reg_setSized_of_ne {r' : Reg} (h : r ≠ r') (size : Size) (w : BitVec 64) :
    (s.setSized size r' w).reg r = s.reg r := by
  cases size <;> exact reg_setReg_of_ne h _

@[simp] theorem vec_setSized (size : Size) (r' : Reg) (w : BitVec 64) :
    (s.setSized size r' w).vec = s.vec := by
  cases size <;> rfl

theorem reg_writeBack {a : Address} (h : r ∉ a.writes) (x : Addr) :
    (a.writeBack x s).reg r = s.reg r := by
  cases a with
  | pre base imm => exact reg_setReg_of_ne (by simpa [Address.writes] using h) x
  | off base imm => rfl
  | idx base index => rfl

@[simp] theorem vec_writeBack (a : Address) (x : Addr) : (a.writeBack x s).vec = s.vec := by
  cases a <;> rfl

/-- A register that an instruction does not write keeps its value. -/
theorem reg_exec {i : Instr} (h : r ∉ i.writes) : (exec i s).reg r = s.reg r := by
  cases i with
  | nop | cmp | ccmp | dup16B | dcZva => rfl
  | mov | add | sub | subs | bic | lsr | mrsDczid | movD0 =>
      exact reg_setReg_of_ne (List.ne_of_not_mem_cons h) _
  | and size => exact reg_setSized_of_ne (List.ne_of_not_mem_cons h) size _
  | csincZr => exact reg_setSized_of_ne (List.ne_of_not_mem_cons h) .w _
  | store | stp | strQ | stpQ | stpD => exact reg_writeBack h _
  | load len t a =>
      obtain ⟨ht, ha⟩ := List.ne_and_not_mem_of_not_mem_cons h
      exact (reg_writeBack ha _).trans (reg_setReg_of_ne ht _)
  | ldp t t' a =>
      obtain ⟨ht, hrest⟩ := List.ne_and_not_mem_of_not_mem_cons h
      obtain ⟨ht', ha⟩ := List.ne_and_not_mem_of_not_mem_cons hrest
      exact (reg_writeBack ha _).trans ((reg_setReg_of_ne ht' _).trans (reg_setReg_of_ne ht _))
  | ldpD t t' a => exact reg_writeBack h _

theorem vec_exec {i : Instr} (h : v ∉ i.writesVec) : (exec i s).vec v = s.vec v := by
  cases i with
  | ldpD t t' a =>
      obtain ⟨ht, hrest⟩ := List.ne_and_not_mem_of_not_mem_cons h
      refine (congrFun (vec_writeBack a _) v).trans ?_
      exact (vec_setVec_of_ne (List.ne_of_not_mem_cons hrest) _).trans (vec_setVec_of_ne ht _)
  | dup16B d n => exact vec_setVec_of_ne (List.ne_of_not_mem_cons h) _
  | and size d => exact congrFun (vec_setSized size d _) v
  | csincZr d => exact congrFun (vec_setSized .w d _) v
  | load | store | ldp | stp | strQ | stpQ | stpD => exact congrFun (vec_writeBack ..) v
  | _ => rfl

end Exec

/-! ## A run -/

section Run

variable {L : Type} [DecidableEq L] {code : List (Line L)} {fuel pc : ℕ} {s t : State} {a : Addr}

/-- What every instruction of the listing preserves, a run of it preserves. -/
theorem run_invariant {P : State → Prop} (hstep : ∀ i, Line.op i ∈ code → ∀ s, P s → P (exec i s))
    (hrun : run code fuel pc s = some (a, t)) (hs : P s) : P t := by
  induction fuel generalizing pc s with
  | zero => cases hrun
  | succ fuel ih =>
      rw [run] at hrun
      split at hrun
      · cases hrun
      · exact ih hrun hs
      · next i hline => exact ih hrun (hstep i (List.mem_of_getElem? hline) s hs)
      · exact ih hrun hs
      · exact ih hrun hs
      · exact ih hrun hs
      · exact ih hrun hs
      · exact ih hrun hs
      · cases hrun
        exact hs

/-- A run ends by one of the register branches of the listing. -/
theorem run_exits (hrun : run code fuel pc s = some (a, t)) :
    ∃ r, Line.br r ∈ code ∧ a = t.reg r := by
  induction fuel generalizing pc s with
  | zero => cases hrun
  | succ fuel ih =>
      rw [run] at hrun
      split at hrun
      · cases hrun
      · exact ih hrun
      · exact ih hrun
      · exact ih hrun
      · exact ih hrun
      · exact ih hrun
      · exact ih hrun
      · exact ih hrun
      · next r hline =>
          cases hrun
          exact ⟨r, List.mem_of_getElem? hline, rfl⟩

theorem run_reg {r : Reg} (hcode : ∀ i, Line.op i ∈ code → r ∉ i.writes)
    (hrun : run code fuel pc s = some (a, t)) : t.reg r = s.reg r :=
  run_invariant (P := fun s' => s'.reg r = s.reg r)
    (fun i hi _ h => (reg_exec (hcode i hi)).trans h) hrun rfl

theorem run_vec {v : VReg} (hcode : ∀ i, Line.op i ∈ code → v ∉ i.writesVec)
    (hrun : run code fuel pc s = some (a, t)) : t.vec v = s.vec v :=
  run_invariant (P := fun s' => s'.vec v = s.vec v)
    (fun i hi _ h => (vec_exec (hcode i hi)).trans h) hrun rfl

end Run

/-! ## Blocks -/

/-- The effect of instructions one after the other. -/
def execBlock (is : List Instr) (s : State) : State := is.foldl (fun s i => exec i s) s

section Block

variable {L : Type} [DecidableEq L] {code : List (Line L)} {pc : ℕ} {s : State}
  {Q : Addr → State → Prop}

theorem reg_execBlock {is : List Instr} {r : Reg} (h : ∀ i ∈ is, r ∉ i.writes) :
    (execBlock is s).reg r = s.reg r := by
  induction is generalizing s with
  | nil => rfl
  | cons i is ih =>
      obtain ⟨hi, hrest⟩ := List.forall_mem_cons.mp h
      exact (ih hrest).trans (reg_exec hi)

/-- A block of instructions is run at once. -/
theorem Ends.block (is : List Instr) (hlines : (code.drop pc).take is.length = is.map Line.op)
    (next : Ends code (pc + is.length) (execBlock is s) Q) : Ends code pc s Q := by
  induction is generalizing pc s with
  | nil => exact next
  | cons i is ih =>
      cases hdrop : code.drop pc with
      | nil => simp [hdrop] at hlines
      | cons line rest =>
          rw [hdrop, List.length_cons, List.take_succ_cons, List.map_cons,
            List.cons.injEq] at hlines
          have hline : code[pc]? = some line := by rw [← List.head?_drop, hdrop, List.head?_cons]
          have hrest : code.drop (pc + 1) = rest := by rw [← List.tail_drop, hdrop, List.tail_cons]
          refine .op (hlines.1 ▸ hline) (ih (hrest ▸ hlines.2) ?_)
          rwa [Nat.add_assoc, Nat.add_comm 1]

end Block

/-! ## Calls -/

/-- A register a call need not preserve. -/
def Reg.scratch : Reg → Bool
  | .x n => n.val < 19
  | .sp => false

def VReg.scratch (v : VReg) : Bool := v.val < 8 || 16 ≤ v.val

theorem scratch_gpr (n : Fin 12) : (CalleeSaved.gpr n).scratch = false := by
  simp [CalleeSaved.gpr, Reg.scratch]

theorem scratch_fpr (n : Fin 8) : VReg.scratch (CalleeSaved.fpr n) = false := by
  revert n
  decide

/-- A line that writes scratch registers only, and leaves the listing only to return. -/
def Line.conforms {L : Type} : Line L → Bool
  | .op i => i.writes.all Reg.scratch && i.writesVec.all VReg.scratch
  | .br r => r = .x 30
  | _ => true

def Line.writesWithin {L : Type} (rs : List Reg) (vs : List VReg) : Line L → Bool
  | .op i => i.writes.all (· ∈ rs) && i.writesVec.all (· ∈ vs)
  | _ => true

/-- The callee has returned, and only the registers in `rs` and `vs` may have changed. -/
structure Returns (rs : List Reg) (vs : List VReg) (s : State) (a : Addr) (t : State) : Prop where
  link : a = s.reg (.x 30)
  preserved : ∀ r : CalleeSaved, r.value t = r.value s
  registers : Frame rs s.reg t.reg
  vectors : ∀ v ∉ vs, t.vec v = s.vec v

section Conforming

variable {L : Type} [DecidableEq L] {code : List (Line L)} {fuel pc : ℕ} {s t : State} {a : Addr}
  {Q : Addr → State → Prop}

/-- Every run of a conforming listing that ends has kept what a call preserves
and returns to its caller. -/
theorem run_conforms (hcode : code.all Line.conforms) (hrun : run code fuel pc s = some (a, t)) :
    (∀ r : CalleeSaved, r.value t = r.value s) ∧ a = s.reg (.x 30) := by
  have hline : ∀ line ∈ code, line.conforms = true := List.all_eq_true.mp hcode
  have hop : ∀ i, Line.op i ∈ code →
      (∀ r ∈ i.writes, r.scratch = true) ∧ ∀ v ∈ i.writesVec, VReg.scratch v = true := by
    intro i hi
    simpa [Line.conforms] using hline _ hi
  have hreg : ∀ r : Reg, r.scratch = false → t.reg r = s.reg r := fun r hr =>
    run_reg (fun i hi hmem => by simp [(hop i hi).1 r hmem] at hr) hrun
  have hvec : ∀ v : VReg, VReg.scratch v = false → t.vec v = s.vec v := fun v hv =>
    run_vec (fun i hi hmem => by simp [(hop i hi).2 v hmem] at hv) hrun
  -- the return address is a register that a call preserves as well
  refine ⟨fun r => ?_, ?_⟩
  · cases r with
    | x n => exact hreg _ (scratch_gpr n)
    | sp => exact hreg _ rfl
    | d n => exact congrArg (BitVec.setWidth 64) (hvec _ (scratch_fpr n))
  · obtain ⟨r, hr, rfl⟩ := run_exits hrun
    obtain rfl : r = .x 30 := of_decide_eq_true (hline _ hr)
    exact hreg _ rfl

/-- What a listing may change is decided by its instructions. -/
theorem ends_returns (rs : List Reg) (vs : List VReg) (hcode : code.all Line.conforms)
    (hwrites : code.all (Line.writesWithin rs vs)) (hends : Ends code pc s Q) :
    Ends code pc s fun a t => Q a t ∧ Returns rs vs s a t := by
  have hop : ∀ i, Line.op i ∈ code → i.writes ⊆ rs ∧ i.writesVec ⊆ vs := by
    intro i hi
    have hline := List.all_eq_true.mp hwrites _ hi
    simpa [Line.writesWithin, List.subset_def] using hline
  obtain ⟨fuel, a, t, hrun, hpost⟩ := hends
  obtain ⟨hpreserved, hlink⟩ := run_conforms hcode hrun
  refine ⟨fuel, a, t, hrun, hpost, hlink, hpreserved, fun r hr => ?_, fun v hv => ?_⟩
  · exact run_reg (fun i hi hmem => hr ((hop i hi).1 hmem)) hrun
  · exact run_vec (fun i hi hmem => hv ((hop i hi).2 hmem)) hrun

end Conforming

end AArch64
