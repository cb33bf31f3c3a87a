import Mytilus.AArch64.CalleeSaved

/-!
# Threads that enter the kernel

A listing whose lines may also enter the kernel or leave for a symbol of another
listing, and a thread that is at one of its lines.  The thread executes one line
at a time, and others may act on it between two lines: `Reaches` counts the lines
and allows any action of the given relation in between, so an invariant of the
thread has to be kept by both (`Reaches.invariant`).

That is what never happens.  What does happen comes from a bound on the lines: a
thread that is left to itself executes lines until it has none left
(`Reaches.exists_stopped`), so that where it stops is all there is to look at.

A call is prepared by copying registers one after the other.  `Moved` says how
far that has come; the copies are as good as simultaneous because no register is
written before it is read (`Moved.step`).
-/

namespace AArch64

open Memory

/-! ## Listings and threads -/

/-- A line of a listing over the labels `L` that may leave for a symbol in `E`. -/
inductive SysLine (L E : Type)
  | label (l : L)
  | op (i : Instr)
  /-- `cbnz wn, l` -/
  | cbnzW (r : Reg) (l : L)
  /-- `svc 0` -/
  | svc
  | ret
  /-- `b e` -/
  | leave (e : E)

/-- A number and six arguments. -/
structure Trap where
  nr : BitVec 64
  args : Fin 6 → BitVec 64

/-- What has been asked so far, with the replies. -/
abbrev Trap.Log := List (Trap × BitVec 64)

/-- The reply to a request, after those that came before. -/
abbrev Trap.Kernel := Trap.Log → Trap → BitVec 64

/-- What `svc 0` asks for. -/
def State.trap (s : State) : Trap where
  nr := s.reg (.x 8)
  args i := s.reg (.x (i.castLE (by norm_num)))

inductive Place (E : Type)
  | line (pc : ℕ)
  | returned (a : Addr)
  | left (e : E)

structure Thread (E : Type) where
  place : Place E
  state : State
  asked : Trap.Log

variable {L E : Type} [DecidableEq L]

/-- The position of a label in the listing. -/
def sysTarget (code : List (SysLine L E)) (l : L) : ℕ :=
  code.findIdx fun
    | .label l' => l' = l
    | _ => false

/-- What the line at `pc` makes of a thread.  The writes of the kernel to memory
are left to those who act between two lines. -/
def SysLine.effect (code : List (SysLine L E)) (kernel : Trap.Kernel) (pc : ℕ) (t : Thread E) :
    SysLine L E → Thread E
  | .label _ => { t with place := .line (pc + 1) }
  | .op i => { t with place := .line (pc + 1), state := exec i t.state }
  | .cbnzW r l =>
      if (t.state.reg r).setWidth 32 = 0#32 then { t with place := .line (pc + 1) }
      else { t with place := .line (sysTarget code l) }
  | .svc =>
      { place := .line (pc + 1)
        state := t.state.setReg (.x 0) (kernel t.asked t.state.trap)
        asked := t.asked ++ [(t.state.trap, kernel t.asked t.state.trap)] }
  | .ret => { t with place := .returned (t.state.reg (.x 30)) }
  | .leave e => { t with place := .left e }

def step (code : List (SysLine L E)) (kernel : Trap.Kernel) (t : Thread E) : Option (Thread E) :=
  match t.place with
  | .line pc => code[pc]?.map (SysLine.effect code kernel pc t)
  | _ => none

section Reaches

variable (code : List (SysLine L E)) (kernel : Trap.Kernel) (Other : Thread E → Thread E → Prop)

/-- The thread executes `n` lines on the way to `t`, and others act in between. -/
inductive Reaches (t₀ : Thread E) : ℕ → Thread E → Prop
  | start : Reaches t₀ 0 t₀
  | own {n : ℕ} {t t' : Thread E} (h : Reaches t₀ n t) (hstep : step code kernel t = some t') :
      Reaches t₀ (n + 1) t'
  | other {n : ℕ} {t t' : Thread E} (h : Reaches t₀ n t) (hother : Other t t') : Reaches t₀ n t'

variable {code kernel Other} {t₀ t t' : Thread E} {n : ℕ}

/-- The line a step executes, and what it makes of the thread. -/
theorem step_cases (h : step code kernel t = some t') :
    ∃ pc line, t.place = .line pc ∧ code[pc]? = some line ∧
      t' = line.effect code kernel pc t := by
  unfold step at h
  cases hplace : t.place with
  | line pc =>
      simp only [hplace, Option.map_eq_some_iff] at h
      obtain ⟨line, hline, rfl⟩ := h
      exact ⟨pc, line, rfl, hline, rfl⟩
  | returned a => simp [hplace] at h
  | left e => simp [hplace] at h

/-- What others do may be more. -/
theorem Reaches.mono {Other' : Thread E → Thread E → Prop}
    (h : Reaches code kernel Other t₀ n t) (hother : ∀ t t', Other t t' → Other' t t') :
    Reaches code kernel Other' t₀ n t := by
  induction h with
  | start => exact .start
  | own _ hstep ih => exact ih.own hstep
  | other _ hact ih => exact ih.other (hother _ _ hact)

/-- One line, and then those of a thread that goes on from there. -/
theorem Reaches.cons (hstep : step code kernel t₀ = some t)
    (h : Reaches code kernel Other t n t') : Reaches code kernel Other t₀ (n + 1) t' := by
  induction h with
  | start => exact Reaches.start.own hstep
  | own _ hnext ih => exact ih.own hnext
  | other _ hother ih => exact ih.other hother

/-- An invariant over the number of executed lines and the thread. -/
theorem Reaches.invariant (Inv : ℕ → Thread E → Prop) (h : Reaches code kernel Other t₀ n t)
    (start : Inv 0 t₀)
    (own : ∀ n t pc line, Inv n t → t.place = .line pc → code[pc]? = some line →
      Inv (n + 1) (line.effect code kernel pc t))
    (other : ∀ n t t', Inv n t → Other t t' → Inv n t') : Inv n t := by
  induction h with
  | start => exact start
  | own _ hstep ih =>
      obtain ⟨pc, line, hplace, hline, rfl⟩ := step_cases hstep
      exact own _ _ pc line ih hplace hline
  | other _ hother ih => exact other _ _ _ ih hother

/-- A thread whose lines are at most `bound` in number, and that is left to itself, executes
lines until it has none left. -/
theorem Reaches.exists_stopped {bound : ℕ}
    (hbound : ∀ n t, Reaches code kernel Other t₀ n t → n ≤ bound)
    (h : Reaches code kernel Other t₀ n t) :
    ∃ n' t', Reaches code kernel (fun _ _ => False) t n' t' ∧
      Reaches code kernel Other t₀ (n + n') t' ∧ step code kernel t' = none := by
  -- induction on the number of lines that may still follow
  induction hleft : bound - n generalizing n t with
  | zero =>
      refine ⟨0, t, .start, h, Option.eq_none_iff_forall_ne_some.mpr fun t' hstep => ?_⟩
      have hmore := hbound _ _ (h.own hstep)
      omega
  | succ left ih =>
      cases hstep : step code kernel t with
      | none => exact ⟨0, t, .start, h, hstep⟩
      | some t₁ =>
          obtain ⟨n', t', halone, hreaches, hstop⟩ := ih (h.own hstep) (by omega)
          refine ⟨n' + 1, t', halone.cons hstep, ?_, hstop⟩
          rwa [Nat.add_right_comm] at hreaches

end Reaches

/-! ## Copying registers -/

/-- The first `k` moves, each a destination and a source, have been made. -/
structure Moved (moves : List (Reg × Reg)) (k : ℕ) (ρ ρ' : Reg → BitVec 64) : Prop where
  made : ∀ m ∈ moves.take k, ρ' m.1 = ρ m.2
  kept : ∀ r, (∀ m ∈ moves.take k, r ≠ m.1) → ρ' r = ρ r

/-- No move reads or writes what one before it has written. -/
def InOrder (moves : List (Reg × Reg)) : Prop :=
  moves.Pairwise fun earlier later => later.1 ≠ earlier.1 ∧ later.2 ≠ earlier.1

section Moved

variable {moves : List (Reg × Reg)} {k : ℕ} {ρ : Reg → BitVec 64}

theorem Moved.zero (moves : List (Reg × Reg)) (ρ : Reg → BitVec 64) : Moved moves 0 ρ ρ := by
  constructor <;> simp

theorem InOrder.of_mem_take (h : InOrder moves) {m d : Reg × Reg} (hk : moves[k]? = some m)
    (hd : d ∈ moves.take k) : m.1 ≠ d.1 ∧ m.2 ≠ d.1 := by
  have hlt : k < moves.length := (List.getElem?_eq_some_iff.mp hk).1
  have hm : m ∈ moves.drop k := by
    rw [List.drop_eq_getElem_cons hlt, (List.getElem?_eq_some_iff.mp hk).2]
    exact List.mem_cons_self
  rw [InOrder, ← List.take_append_drop k moves, List.pairwise_append] at h
  exact h.2.2 d hd m hm

/-- One more `mov`. -/
theorem Moved.step {s : State} (h : Moved moves k ρ s.reg) (horder : InOrder moves)
    {d n : Reg} (hk : moves[k]? = some (d, n)) :
    Moved moves (k + 1) ρ (exec (.mov d (.reg n)) s).reg := by
  have hsource : s.reg n = ρ n := h.kept n fun m hm => (horder.of_mem_take hk hm).2
  have htake : moves.take (k + 1) = moves.take k ++ [(d, n)] := by simp [List.take_add_one, hk]
  constructor
  · intro m hm
    rw [htake, List.mem_append, List.mem_singleton] at hm
    rcases hm with hm | rfl
    · have hne : m.1 ≠ d := (horder.of_mem_take hk hm).1.symm
      simp [exec, State.reg_setReg, hne, h.made m hm]
    · simp [exec, Operand.value, hsource]
  · intro r hr
    simp only [htake, List.mem_append, List.mem_singleton, or_imp, forall_and, forall_eq] at hr
    simp [exec, State.reg_setReg, hr.2, h.kept r hr.1]

end Moved

end AArch64
