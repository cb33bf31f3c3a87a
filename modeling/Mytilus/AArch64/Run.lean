import Mytilus.AArch64.Machine

/-!
# Total correctness of AArch64 listings

`Ends code pc s Q` says that the listing, entered at line `pc` in state `s`,
runs to a register branch within some amount of fuel and that `Q` holds of the
address branched to and of the final state.  There is one rule for each kind of
line (`Ends.op`, `Ends.bcond`, `Ends.cbz`, `Ends.br` and their like), each by
`run_mono`; a loop is an induction over whatever the loop counts down.

The rest reads the flags: after `cmp` and `subs`, each condition a listing branches
on is a comparison of the operands as unsigned numbers (`hi_cmp` to `ls_subs`).
-/

namespace AArch64

open Memory

variable {L : Type} [DecidableEq L]

def Ends (code : List (Line L)) (pc : ℕ) (s : State) (Q : Addr → State → Prop) : Prop :=
  ∃ fuel a t, run code fuel pc s = some (a, t) ∧ Q a t

/-- More fuel does not change the result of a run. -/
theorem run_mono {code : List (Line L)} {fuel fuel' pc : ℕ} {s : State} {r : Addr × State}
    (hrun : run code fuel pc s = some r) (hle : fuel ≤ fuel') : run code fuel' pc s = some r := by
  induction fuel generalizing fuel' pc s with
  | zero => cases hrun
  | succ fuel ih =>
      obtain ⟨fuel', rfl⟩ := Nat.exists_eq_add_of_le' (Nat.one_le_of_lt hle)
      have hle' : fuel ≤ fuel' := Nat.le_of_succ_le_succ hle
      rw [run] at hrun ⊢
      cases hline : code[pc]? with
      | none => simp [hline] at hrun
      | some line =>
          rw [hline] at hrun
          -- a branch through a register ends the run, any other line goes on
          cases line with
          | br r => exact hrun
          | _ => exact ih hrun hle'

namespace Ends

variable {code : List (Line L)} {pc : ℕ} {s : State} {Q Q' : Addr → State → Prop}

/-- The run that ends is the only one. -/
theorem of_run (h : Ends code pc s Q) {fuel : ℕ} {a : Addr} {t : State}
    (hrun : run code fuel pc s = some (a, t)) : Q a t := by
  obtain ⟨fuel', a', t', hrun', hpost⟩ := h
  rcases Nat.le_total fuel fuel' with hle | hle
  · obtain ⟨rfl, rfl⟩ := Prod.mk.inj (Option.some.inj ((run_mono hrun hle).symm.trans hrun'))
    exact hpost
  · obtain ⟨rfl, rfl⟩ := Prod.mk.inj (Option.some.inj (hrun.symm.trans (run_mono hrun' hle)))
    exact hpost

theorem mono (h : Ends code pc s Q) (hQ : ∀ a t, Q a t → Q' a t) : Ends code pc s Q' := by
  obtain ⟨fuel, a, t, hrun, hpost⟩ := h
  exact ⟨fuel, a, t, hrun, hQ a t hpost⟩

/-- One more unit of fuel passes a line that continues at `pc'` in state `s'`. -/
private theorem continue_at {pc' : ℕ} {s' : State}
    (hline : ∀ fuel, run code (fuel + 1) pc s = run code fuel pc' s') (next : Ends code pc' s' Q) :
    Ends code pc s Q := by
  obtain ⟨fuel, a, t, hrun, hpost⟩ := next
  exact ⟨fuel + 1, a, t, by rw [hline, hrun], hpost⟩

theorem label {l : L} (hline : code[pc]? = some (.label l)) (next : Ends code (pc + 1) s Q) :
    Ends code pc s Q :=
  continue_at (fun fuel => by simp [run, hline]) next

theorem op {i : Instr} (hline : code[pc]? = some (.op i))
    (next : Ends code (pc + 1) (exec i s) Q) : Ends code pc s Q :=
  continue_at (fun fuel => by simp [run, hline]) next

theorem bcond {c : Cond} {l : L} (hline : code[pc]? = some (.bcond c l))
    (taken : c.holds s.flags = true → Ends code (target code l) s Q)
    (passed : c.holds s.flags = false → Ends code (pc + 1) s Q) : Ends code pc s Q := by
  cases hc : c.holds s.flags with
  | true => exact continue_at (fun fuel => by simp [run, hline, hc]) (taken hc)
  | false => exact continue_at (fun fuel => by simp [run, hline, hc]) (passed hc)

theorem tbz {r : Reg} {bit : ℕ} {l : L} (hline : code[pc]? = some (.tbz r bit l))
    (taken : (s.reg r).getLsbD bit = false → Ends code (target code l) s Q)
    (passed : (s.reg r).getLsbD bit = true → Ends code (pc + 1) s Q) : Ends code pc s Q := by
  cases hbit : (s.reg r).getLsbD bit with
  | true => exact continue_at (fun fuel => by simp [run, hline, hbit]) (passed hbit)
  | false => exact continue_at (fun fuel => by simp [run, hline, hbit]) (taken hbit)

theorem tbnz {r : Reg} {bit : ℕ} {l : L} (hline : code[pc]? = some (.tbnz r bit l))
    (taken : (s.reg r).getLsbD bit = true → Ends code (target code l) s Q)
    (passed : (s.reg r).getLsbD bit = false → Ends code (pc + 1) s Q) : Ends code pc s Q := by
  cases hbit : (s.reg r).getLsbD bit with
  | true => exact continue_at (fun fuel => by simp [run, hline, hbit]) (taken hbit)
  | false => exact continue_at (fun fuel => by simp [run, hline, hbit]) (passed hbit)

theorem cbz {r : Reg} {l : L} (hline : code[pc]? = some (.cbz r l))
    (taken : s.reg r = 0 → Ends code (target code l) s Q)
    (passed : s.reg r ≠ 0 → Ends code (pc + 1) s Q) : Ends code pc s Q := by
  by_cases hzero : s.reg r = 0
  · exact continue_at (fun fuel => by simp [run, hline, hzero]) (taken hzero)
  · exact continue_at (fun fuel => by simp only [run, hline, if_neg hzero]) (passed hzero)

theorem br {r : Reg} (hline : code[pc]? = some (.br r)) (post : Q (s.reg r) s) :
    Ends code pc s Q :=
  ⟨1, s.reg r, s, by simp [run, hline], post⟩

end Ends

/-! ## What the instructions leave in the state

Register updates are read off by `reg_setReg` once the two registers are
literals; the other fields pass through. -/

namespace State

variable (s : State)

theorem reg_setReg (r r' : Reg) (v : BitVec 64) :
    (s.setReg r v).reg r' = if r' = r then v else s.reg r' :=
  Function.update_apply ..

@[simp] theorem reg_setReg_self (r : Reg) (v : BitVec 64) : (s.setReg r v).reg r = v :=
  Function.update_self ..

/-- The register an operation of 32 bits has written. -/
theorem setWidth_reg_setSized (r : Reg) (v : BitVec 64) :
    ((s.setSized .w r v).reg r).setWidth 32 = v.setWidth 32 := by
  calc ((s.setReg r ((v.setWidth 32).setWidth 64)).reg r).setWidth 32
      = ((v.setWidth 32).setWidth 64).setWidth 32 := by rw [reg_setReg_self]
    _ = v.setWidth 32 := by
      rw [BitVec.setWidth_setWidth_of_le _ (by norm_num), BitVec.setWidth_eq]

theorem vec_setVec (r r' : VReg) (v : BitVec 128) :
    (s.setVec r v).vec r' = if r' = r then v else s.vec r' :=
  Function.update_apply ..

@[simp] theorem vec_setReg (r : Reg) (v : BitVec 64) : (s.setReg r v).vec = s.vec := rfl
@[simp] theorem flags_setReg (r : Reg) (v : BitVec 64) : (s.setReg r v).flags = s.flags := rfl
@[simp] theorem mem_setReg (r : Reg) (v : BitVec 64) : (s.setReg r v).mem = s.mem := rfl
@[simp] theorem dczid_setReg (r : Reg) (v : BitVec 64) : (s.setReg r v).dczid = s.dczid := rfl
@[simp] theorem trace_setReg (r : Reg) (v : BitVec 64) : (s.setReg r v).trace = s.trace := rfl

@[simp] theorem reg_setVec (r : VReg) (v : BitVec 128) : (s.setVec r v).reg = s.reg := rfl
@[simp] theorem flags_setVec (r : VReg) (v : BitVec 128) : (s.setVec r v).flags = s.flags := rfl
@[simp] theorem mem_setVec (r : VReg) (v : BitVec 128) : (s.setVec r v).mem = s.mem := rfl
@[simp] theorem dczid_setVec (r : VReg) (v : BitVec 128) : (s.setVec r v).dczid = s.dczid := rfl
@[simp] theorem trace_setVec (r : VReg) (v : BitVec 128) : (s.setVec r v).trace = s.trace := rfl

@[simp] theorem reg_setFlags (f : Flags) : (s.setFlags f).reg = s.reg := rfl
@[simp] theorem vec_setFlags (f : Flags) : (s.setFlags f).vec = s.vec := rfl
@[simp] theorem flags_setFlags (f : Flags) : (s.setFlags f).flags = f := rfl
@[simp] theorem mem_setFlags (f : Flags) : (s.setFlags f).mem = s.mem := rfl
@[simp] theorem dczid_setFlags (f : Flags) : (s.setFlags f).dczid = s.dczid := rfl
@[simp] theorem trace_setFlags (f : Flags) : (s.setFlags f).trace = s.trace := rfl

@[simp] theorem reg_record (e : Access) : (s.record e).reg = s.reg := rfl
@[simp] theorem vec_record (e : Access) : (s.record e).vec = s.vec := rfl
@[simp] theorem flags_record (e : Access) : (s.record e).flags = s.flags := rfl
@[simp] theorem mem_record (e : Access) : (s.record e).mem = s.mem := rfl
@[simp] theorem dczid_record (e : Access) : (s.record e).dczid = s.dczid := rfl
@[simp] theorem trace_record (e : Access) : (s.record e).trace = e :: s.trace := rfl

variable (a : Addr) (n : ℕ) {w : ℕ} (v : BitVec w)

@[simp] theorem reg_store : (s.store a n v).reg = s.reg := rfl
@[simp] theorem vec_store : (s.store a n v).vec = s.vec := rfl
@[simp] theorem flags_store : (s.store a n v).flags = s.flags := rfl
@[simp] theorem mem_store : (s.store a n v).mem = writeLE s.mem a n v := rfl
@[simp] theorem dczid_store : (s.store a n v).dczid = s.dczid := rfl
@[simp] theorem trace_store : (s.store a n v).trace = .store a n :: s.trace := rfl

end State

/-! ## Comparisons -/

theorem z_subFlags {w : ℕ} (a b : BitVec w) : (subFlags a b).z = decide (a = b) := by
  rw [subFlags, Bool.eq_iff_iff, beq_iff_eq, decide_eq_true_iff]
  constructor
  · intro h
    calc a = a - b + b := (BitVec.sub_add_cancel a b).symm
      _ = b := by rw [h, BitVec.ofNat_eq_ofNat, BitVec.zero_add]
  · rintro rfl
    exact BitVec.sub_self a

theorem hi_subFlags {w : ℕ} (a b : BitVec w) :
    Cond.hi.holds (subFlags a b) = decide (b.toNat < a.toNat) := by
  rw [Cond.holds, z_subFlags]
  simp only [subFlags]
  rcases lt_trichotomy a.toNat b.toNat with h | h | h
  · simp [show ¬ b.toNat ≤ a.toNat by omega, show ¬ b.toNat < a.toNat by omega]
  · simp [BitVec.eq_of_toNat_eq h]
  · have hne : a ≠ b := by rintro rfl; omega
    simp [h, h.le, hne]

theorem ls_subFlags {w : ℕ} (a b : BitVec w) :
    Cond.ls.holds (subFlags a b) = decide (a.toNat ≤ b.toNat) := by
  have h := hi_subFlags a b
  simp only [Cond.holds] at h ⊢
  rw [h, ← decide_not]
  simp

theorem hs_subFlags {w : ℕ} (a b : BitVec w) :
    Cond.hs.holds (subFlags a b) = decide (b.toNat ≤ a.toNat) := rfl

theorem lo_subFlags {w : ℕ} (a b : BitVec w) :
    Cond.lo.holds (subFlags a b) = decide (a.toNat < b.toNat) := by
  simp [Cond.holds, subFlags, ← decide_not]

theorem ne_subFlags {w : ℕ} (a b : BitVec w) :
    Cond.ne.holds (subFlags a b) = decide (a ≠ b) := by
  rw [Cond.holds, z_subFlags, decide_not]

/-- A bit of a register, as `tbz` and `tbnz` test it. -/
theorem getLsbD_eq_decide {w : ℕ} (v : BitVec w) (bit : ℕ) :
    v.getLsbD bit = decide (v.toNat / 2 ^ bit % 2 = 1) := by
  rw [← BitVec.testBit_toNat, Nat.testBit_eq_decide_div_mod_eq]

/-! A comparison of a whole register with a constant. -/

section Compare

variable {s : State} {r : Reg} {v : ℕ} (hv : v < 2 ^ 64)
include hv

theorem hi_cmp : Cond.hi.holds (exec (.cmp .x r (.imm v)) s).flags = decide (v < (s.reg r).toNat) := by
  rw [exec, State.flags_setFlags, compareFlags, hi_subFlags, Operand.value, BitVec.toNat_ofNat,
    Nat.mod_eq_of_lt hv]

theorem ls_cmp : Cond.ls.holds (exec (.cmp .x r (.imm v)) s).flags = decide ((s.reg r).toNat ≤ v) := by
  rw [exec, State.flags_setFlags, compareFlags, ls_subFlags, Operand.value, BitVec.toNat_ofNat,
    Nat.mod_eq_of_lt hv]

theorem lo_cmp : Cond.lo.holds (exec (.cmp .x r (.imm v)) s).flags = decide ((s.reg r).toNat < v) := by
  rw [exec, State.flags_setFlags, compareFlags, lo_subFlags, Operand.value, BitVec.toNat_ofNat,
    Nat.mod_eq_of_lt hv]

theorem hs_cmp : Cond.hs.holds (exec (.cmp .x r (.imm v)) s).flags = decide (v ≤ (s.reg r).toNat) := by
  rw [exec, State.flags_setFlags, compareFlags, hs_subFlags, Operand.value, BitVec.toNat_ofNat,
    Nat.mod_eq_of_lt hv]

theorem hi_subs {d : Reg} :
    Cond.hi.holds (exec (.subs d r (.imm v)) s).flags = decide (v < (s.reg r).toNat) := by
  rw [exec, State.flags_setFlags, hi_subFlags, Operand.value, BitVec.toNat_ofNat,
    Nat.mod_eq_of_lt hv]

theorem ls_subs {d : Reg} :
    Cond.ls.holds (exec (.subs d r (.imm v)) s).flags = decide ((s.reg r).toNat ≤ v) := by
  rw [exec, State.flags_setFlags, ls_subFlags, Operand.value, BitVec.toNat_ofNat,
    Nat.mod_eq_of_lt hv]

end Compare

end AArch64
