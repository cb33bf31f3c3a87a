import Mathlib.Logic.Relation
import Mytilus.Startup.Longjmp

/-!
# Programs that jump

A program calls `setjmp` and `longjmp` in any order, on any number of buffers,
and does anything else in between.  `Spares env` are the steps that leave the
save area at `env` alone: a `longjmp` always does, a `setjmp` does if it is on a
separate buffer, and what other code does is up to it.

The main result is `jumps_return`: along steps that spare a buffer, every
`longjmp` to it, the first as well as any later one, comes back to where its
`setjmp` came back.
-/

namespace Mytilus.Startup

open AArch64 Memory

/-- Where control is, and the state of the machine. -/
structure Config where
  pc : Addr
  state : State

inductive Action
  | setjmp (l : Setjmp)
  | longjmp (l : Longjmp)
  | other

/-- A call of one of the two routines goes on where its listing branches to. -/
inductive Step : Action → Config → Config → Prop
  | setjmp {l : Setjmp} {c : Config} {fuel : ℕ} {a : Addr} {s : State}
      (hrun : run setjmpCode fuel (target setjmpCode l) c.state = some (a, s)) :
      Step (.setjmp l) c ⟨a, s⟩
  | longjmp {l : Longjmp} {c : Config} {fuel : ℕ} {a : Addr} {s : State}
      (hrun : run longjmpCode fuel (target longjmpCode l) c.state = some (a, s)) :
      Step (.longjmp l) c ⟨a, s⟩
  | other (c c' : Config) : Step .other c c'

/-- The buffer a call is on. -/
def Config.env (c : Config) : Addr := c.state.reg (.x 0)

/-- The value a call returns, or is given to return: a C `int`. -/
def Config.int (c : Config) (r : Reg) : BitVec 32 := (c.state.reg r).setWidth 32

/-- The save area at `env` is the same. -/
def SameArea (env : Addr) (c c' : Config) : Prop :=
  ∀ i < jbBytes, c'.state.mem (ptrAdd env i) = c.state.mem (ptrAdd env i)

/-- A step that leaves the save area at `env` alone, or is not on it. -/
def Spares (env : Addr) (c c' : Config) : Prop :=
  (∃ l, Step (.setjmp l) c c' ∧ Separate c.env jbBytes env jbBytes) ∨
    (∃ l, Step (.longjmp l) c c') ∨
    (Step .other c c' ∧ SameArea env c c')

section Steps

variable {env : Addr} {c c' : Config} {s : State} {l : Setjmp} {l' : Longjmp}

theorem Step.saved (h : Step (.setjmp l) c c') :
    c'.pc = c.state.reg (.x 30) ∧ Saved c.env c.state c'.state := by
  cases h with
  | setjmp hrun => exact (setjmp_saves l c.state).of_run hrun

/-- What a save area holds determines where a `longjmp` to it goes. -/
theorem Step.restored (h : Step (.longjmp l') c c') (hm : Holds c.env s c.state.mem) :
    Restored s c.state c'.pc c'.state := by
  cases h with
  | longjmp hrun => exact (longjmp_restores l' hm).of_run hrun

/-- Whatever is in the save area could have been saved. -/
theorem exists_holds (env : Addr) (m : Memory) : ∃ s, Holds env s m := by
  let s : State :=
    { State.call m 0 0 0 0 with
      reg := Reg.rec (fun i => readLE m (ptrAdd env (8 * (i - 19))) 8)
        (readLE m (ptrAdd env 104) 8)
      vec := fun v => (readLE m (ptrAdd env (112 + 8 * (v - 8))) 8).setWidth 128 }
  refine ⟨s, fun r => ?_⟩
  cases r with
  | x n => simp [s, CalleeSaved.value, CalleeSaved.gpr, slot]
  | sp => rfl
  | d n => simp [s, CalleeSaved.value, CalleeSaved.fpr, slot]

/-- A `longjmp` writes no memory. -/
theorem Step.mem_longjmp (h : Step (.longjmp l') c c') : c'.state.mem = c.state.mem := by
  obtain ⟨s, hm⟩ := exists_holds c.env c.state.mem
  exact (h.restored hm).mem

theorem exists_setjmp (l : Setjmp) (c : Config) : ∃ c', Step (.setjmp l) c c' := by
  obtain ⟨fuel, a, t, hrun, -⟩ := setjmp_saves l c.state
  exact ⟨⟨a, t⟩, .setjmp hrun⟩

theorem exists_longjmp (l' : Longjmp) (hm : Holds c.env s c.state.mem) :
    ∃ c', Step (.longjmp l') c c' := by
  obtain ⟨fuel, a, t, hrun, -⟩ := longjmp_restores l' hm
  exact ⟨⟨a, t⟩, .longjmp hrun⟩

theorem Holds.of_sameArea (h : Holds env s c.state.mem) (hsame : SameArea env c c') :
    Holds env s c'.state.mem := by
  intro r
  have hlt := slot_lt r
  rw [← h r]
  refine readLE_congr fun i hi => ?_
  rw [ptrAdd_ptrAdd]
  exact hsame _ (by omega)

/-- A `setjmp` writes to its own buffer only. -/
theorem Saved.sameArea (h : Saved c.env c.state c'.state)
    (hsep : Separate c.env jbBytes env jbBytes) : SameArea env c c' := by
  intro i hi
  refine h.frame _ fun hin => ?_
  exact hsep _ hin (within_ptrAdd hi (by norm_num [jbBytes]))

theorem Spares.sameArea (h : Spares env c c') : SameArea env c c' := by
  rcases h with ⟨l, hstep, hsep⟩ | ⟨l', hstep⟩ | ⟨-, hsame⟩
  · exact hstep.saved.2.sameArea hsep
  · intro i hi
    rw [hstep.mem_longjmp]
  · exact hsame

/-- Along steps that spare it, a buffer keeps what it holds. -/
theorem Holds.of_spares (h : Holds env s c.state.mem)
    (hsteps : Relation.ReflTransGen (Spares env) c c') : Holds env s c'.state.mem := by
  induction hsteps with
  | refl => exact h
  | tail _ hstep ih => exact ih.of_sameArea hstep.sameArea

end Steps

/-- **Every `longjmp` returns where its `setjmp` did.**  Between the two there may
be any number of calls on other buffers, earlier jumps back to this one, and
other code that leaves its save area alone. -/
theorem jumps_return {l : Setjmp} {c₀ c₁ c₂ : Config} (hset : Step (.setjmp l) c₀ c₁)
    (hsteps : Relation.ReflTransGen (Spares c₀.env) c₁ c₂) (henv : c₂.env = c₀.env)
    (l' : Longjmp) :
    (∃ c₃, Step (.longjmp l') c₂ c₃) ∧
      ∀ c₃, Step (.longjmp l') c₂ c₃ →
        c₃.pc = c₁.pc ∧
        (∀ r : CalleeSaved, r.value c₃.state = r.value c₁.state ∧ r.value c₁.state = r.value c₀.state) ∧
        c₁.int (.x 0) = 0 ∧
        c₃.int (.x 0) = (if c₂.int (.x 1) = 0 then 1 else c₂.int (.x 1)) ∧
        c₃.int (.x 0) ≠ 0 ∧
        c₃.state.mem = c₂.state.mem ∧
        Relation.ReflTransGen (Spares c₀.env) c₁ c₃ := by
  obtain ⟨hpc, hsaved⟩ := hset.saved
  have hm : Holds c₂.env c₀.state c₂.state.mem := by
    rw [henv]
    exact Holds.of_spares hsaved.contents hsteps
  refine ⟨exists_longjmp l' hm, fun c₃ hjump => ?_⟩
  -- the save area is as `setjmp` left it, so the jump undoes the call
  have hback := hjump.restored hm
  refine ⟨hback.link.trans hpc.symm, fun r => ⟨?_, hsaved.kept r⟩, ?_, hback.result,
    hback.result_ne_zero, hback.mem, hsteps.tail (.inr (.inl ⟨l', hjump⟩))⟩
  · exact (hback.registers r).trans (hsaved.kept r).symm
  · rw [Config.int, hsaved.result]
    rfl

/-- Code that only loads arguments into registers. -/
def Config.args (c : Config) (arg₀ arg₁ : BitVec 64) : Config :=
  ⟨c.pc, (c.state.setReg (.x 0) arg₀).setReg (.x 1) arg₁⟩

/-- A `setjmp` on a second buffer, and then a jump to the first with the value 5. -/
theorem jumps_return_over_second :
    ∃ c₁ c₂ c₃, Step (.setjmp .setjmp) ⟨0, .call (fun _ => 0) 0x1000 0 0 0x400⟩ c₁ ∧
      Relation.ReflTransGen (Spares 0x1000) c₁ c₂ ∧ Step (.longjmp .longjmp) c₂ c₃ ∧
      c₃.pc = 0x400 ∧ c₃.int (.x 0) = 5 := by
  obtain ⟨c₁, hset⟩ := exists_setjmp .setjmp ⟨0, .call (fun _ => 0) 0x1000 0 0 0x400⟩
  obtain ⟨c, hsecond⟩ := exists_setjmp .setjmp (c₁.args 0x2000 0)
  have hargs : ∀ (d : Config) arg₀ arg₁, Spares 0x1000 d (d.args arg₀ arg₁) := fun d _ _ =>
    .inr (.inr ⟨.other .., fun _ _ => rfl⟩)
  have hsep : Separate 0x2000 jbBytes 0x1000 jbBytes :=
    (separate_of_add_le (by decide) (by decide)).symm
  have hsteps : Relation.ReflTransGen (Spares 0x1000) c₁ (c.args 0x1000 5) :=
    ((Relation.ReflTransGen.single (hargs c₁ 0x2000 0)).tail
      (.inl ⟨_, hsecond, hsep⟩)).tail (hargs ..)
  obtain ⟨⟨c₃, hjump⟩, hback⟩ := jumps_return hset hsteps rfl .longjmp
  obtain ⟨hpc, -, -, hvalue, -⟩ := hback c₃ hjump
  exact ⟨c₁, _, c₃, hset, hsteps, hjump, hpc.trans hset.saved.1, hvalue⟩

end Mytilus.Startup
