import Mytilus.AArch64.Thread
import Mytilus.Sys.Syscall

/-!
# The cancellation-point stub

`asm/syscall_cp.s`, line by line.  A handler of the cancellation signal is meant
to recognise a thread between `__cp_begin` and `__cp_end` and to send it to
`__cp_cancel`; `Interference` lets it do so at any line in that range, and lets
other threads and the kernel write any memory between two lines.

In every interleaving the thread makes its request at most once; as long as it
is in the range it has made none, so that a cancelled thread never has
(`syscallCpAsm_safe`).  The invariant is `Phase`, before the request, after it, or on
the way to the cancellation, and it is kept by the thread's own lines (`Phase.own`)
and by those of the others (`Phase.other`).

While the flag is zero and there is no handler, as is now the case, the stub is never
cancelled, and is what `syscallCp` says (`syscallCpAsm_refines`).  `Calm` is the
invariant there: line `n` is reached after `n` lines, so the thread has returned after
fourteen, and until then it can go on (`Calm.returned_or_steps`).
-/

namespace Mytilus.Sys

open AArch64 Memory

/-! ## The listing -/

/-- `__syscall_cp_asm`, `__cp_begin`, `__cp_end` and `__cp_cancel`. -/
inductive Cp
  | syscallCpAsm | cpBegin | cpEnd | cpCancel
  deriving DecidableEq, Repr

/-- The symbols the stub leaves for: `__cancel`. -/
inductive Outer
  | cancel
  deriving DecidableEq, Repr

def syscallCpCode : List (SysLine Cp Outer) :=
  [ .label .syscallCpAsm,
    .label .cpBegin,
    .op (.ldrW (.x 0) (.off (.x 0) 0)),
    .cbnzW (.x 0) .cpCancel,
    .op (.mov (.x 8) (.reg (.x 1))),
    .op (.mov (.x 0) (.reg (.x 2))),
    .op (.mov (.x 1) (.reg (.x 3))),
    .op (.mov (.x 2) (.reg (.x 4))),
    .op (.mov (.x 3) (.reg (.x 5))),
    .op (.mov (.x 4) (.reg (.x 6))),
    .op (.mov (.x 5) (.reg (.x 7))),
    .svc,
    .label .cpEnd,
    .ret,
    .label .cpCancel,
    .leave .cancel ]

@[simp] theorem target_syscallCpAsm : sysTarget syscallCpCode .syscallCpAsm = 0 := rfl
@[simp] theorem target_cpBegin : sysTarget syscallCpCode .cpBegin = 1 := rfl
@[simp] theorem target_cpEnd : sysTarget syscallCpCode .cpEnd = 12 := rfl
@[simp] theorem target_cpCancel : sysTarget syscallCpCode .cpCancel = 14 := rfl

/-- A call of the stub, with what the thread has asked before. -/
def enter (log : Trap.Log) (s : State) : Thread Outer :=
  ⟨.line (sysTarget syscallCpCode .syscallCpAsm), s, log⟩

/-- The lines a handler recognises. -/
def InRange (pc : ℕ) : Prop :=
  sysTarget syscallCpCode .cpBegin ≤ pc ∧ pc < sysTarget syscallCpCode .cpEnd

/-- Between two lines, others write to memory, or the handler diverts the thread. -/
inductive Interference (t : Thread Outer) : Thread Outer → Prop
  | write (m : Memory) : Interference t { t with state := { t.state with mem := m } }
  | divert (pc : ℕ) (hplace : t.place = .line pc) (hrange : InRange pc) :
      Interference t { t with place := .line (sysTarget syscallCpCode .cpCancel) }

/-! ## What the stub asks -/

/-- The number is the second argument, and the arguments are those after it. -/
def request (s : State) : Trap where
  nr := s.reg (.x 1)
  args i := s.reg (.x ⟨i + 2, by omega⟩)

/-- The moves from the calling convention to that of the kernel. -/
def moves : List (Reg × Reg) :=
  [(.x 8, .x 1), (.x 0, .x 2), (.x 1, .x 3), (.x 2, .x 4), (.x 3, .x 5), (.x 4, .x 6), (.x 5, .x 7)]

theorem moves_inOrder : InOrder moves := by simp [InOrder, moves]

theorem code_moves {k : ℕ} (hk : k < 7) :
    ∃ d n, moves[k]? = some (d, n) ∧ syscallCpCode[k + 4]? = some (.op (.mov d (.reg n))) := by
  interval_cases k <;> exact ⟨_, _, rfl, rfl⟩

/-- All moves made, the kernel is asked for what the caller has asked. -/
theorem Moved.trap {ρ : Reg → BitVec 64} {s t : State} (h : Moved moves 7 ρ t.reg)
    (hρ : ∀ r, r ≠ .x 0 → ρ r = s.reg r) : t.trap = request s := by
  have hmade : ∀ d n, (d, n) ∈ moves → n ≠ .x 0 → t.reg d = s.reg n := fun d n hm hn =>
    (h.made (d, n) hm).trans (hρ n hn)
  rw [State.trap, request, Trap.mk.injEq]
  refine ⟨hmade _ _ (by decide) (by decide), funext fun i => hmade _ _ ?_ ?_⟩
  · fin_cases i <;> decide
  · simp

/-! ## The invariant -/

/-- Only `x0` to `x5` and `x8` may have changed. -/
structure Kept (s t : State) : Prop where
  reg : ∀ r, (∀ m ∈ moves, r ≠ m.1) → t.reg r = s.reg r
  vec : t.vec = s.vec

/-- The request is being prepared, and `k` moves have been made. -/
structure Before (log : Trap.Log) (s : State) (k : ℕ) (t : Thread Outer) : Prop where
  asked : t.asked = log
  moved : ∃ ρ, (∀ r, r ≠ .x 0 → ρ r = s.reg r) ∧ Moved moves k ρ t.state.reg
  vec : t.state.vec = s.vec

/-- The request has been made. -/
structure After (kernel : Trap.Kernel) (log : Trap.Log) (s : State) (t : Thread Outer) : Prop where
  asked : t.asked = log ++ [(request s, kernel log (request s))]
  result : t.state.reg (.x 0) = kernel log (request s)
  kept : Kept s t.state

/-- The thread is cancelled. -/
structure Cancelled (log : Trap.Log) (s : State) (t : Thread Outer) : Prop where
  asked : t.asked = log
  kept : Kept s t.state

section Invariant

variable {kernel : Trap.Kernel} {log : Trap.Log} {s : State} {t : Thread Outer} {n k pc : ℕ}

theorem Before.kept (h : Before log s k t) : Kept s t.state where
  reg r hr := by
    obtain ⟨ρ, hρ, hmoved⟩ := h.moved
    have hne : r ≠ .x 0 := hr (.x 0, .x 2) (by decide)
    exact (hmoved.kept r fun m hm => hr m (List.mem_of_mem_take hm)).trans (hρ r hne)
  vec := h.vec

/-- The part of the stub a thread is in. -/
inductive Phase (kernel : Trap.Kernel) (log : Trap.Log) (s : State) (n : ℕ) (t : Thread Outer) : Prop
  | before (pc : ℕ) (hplace : t.place = .line pc) (hpc : pc < 12) (hn : n ≤ pc)
      (h : Before log s (pc - 4) t)
  | after (pc : ℕ) (hplace : t.place = .line pc) (hpc : pc = 12 ∨ pc = 13) (hn : n ≤ pc)
      (h : After kernel log s t)
  | cancelling (pc : ℕ) (hplace : t.place = .line pc) (hpc : pc = 14 ∨ pc = 15) (hn : n ≤ pc)
      (h : Cancelled log s t)
  | returned (hplace : t.place = .returned (s.reg (.x 30))) (hn : n ≤ 14) (h : After kernel log s t)
  | left (hplace : t.place = .left .cancel) (hn : n ≤ 16) (h : Cancelled log s t)

/-- One of the lines before the request. -/
theorem Before.own (h : Before log s (pc - 4) t) (hplace : t.place = .line pc) (hpc : pc < 12)
    (hn : n ≤ pc) {line : SysLine Cp Outer} (hline : syscallCpCode[pc]? = some line) :
    Phase kernel log s (n + 1) (line.effect syscallCpCode kernel pc t) := by
  obtain ⟨ρ, hρ, hmoved⟩ := h.moved
  rcases Nat.lt_or_ge pc 4 with hfew | hmany
  · rw [Nat.sub_eq_zero_of_le hfew.le] at h hmoved
    have hregs : ∀ r, r ≠ .x 0 → t.state.reg r = s.reg r := fun r hr =>
      (hmoved.kept r (by simp)).trans (hρ r hr)
    -- the flag is loaded into `x0`; of the registers that the request takes, none changes
    interval_cases pc
    · obtain rfl := Option.some.inj hline
      exact .before 1 rfl (by norm_num) (by omega) ⟨h.asked, h.moved, h.vec⟩
    · obtain rfl := Option.some.inj hline
      exact .before 2 rfl (by norm_num) (by omega) ⟨h.asked, h.moved, h.vec⟩
    · obtain rfl := Option.some.inj hline
      refine .before 3 rfl (by norm_num) (by omega) ⟨h.asked, ⟨_, fun r hr => ?_, .zero _ _⟩, h.vec⟩
      simp [SysLine.effect, exec, Address.writeBack, State.reg_setReg, hr, hregs r hr]
    · obtain rfl := Option.some.inj hline
      simp only [SysLine.effect]
      split_ifs with hzero
      · exact .before 4 rfl (by norm_num) (by omega) ⟨h.asked, ⟨_, hregs, .zero _ _⟩, h.vec⟩
      · exact .cancelling 14 rfl (.inl rfl) (by omega) ⟨h.asked, h.kept⟩
  · rcases Nat.lt_or_ge pc 11 with hmove | hsvc
    · obtain ⟨k, rfl⟩ := Nat.exists_eq_add_of_le' hmany
      obtain ⟨d, m, hk, hcode⟩ := code_moves (show k < 7 by omega)
      obtain rfl := Option.some.inj (hcode.symm.trans hline)
      rw [Nat.add_sub_cancel] at hmoved
      refine .before (k + 4 + 1) rfl (by omega) (by omega) ⟨h.asked, ⟨ρ, hρ, ?_⟩, h.vec⟩
      rw [show k + 4 + 1 - 4 = k + 1 by omega]
      exact hmoved.step moves_inOrder hk
    · obtain rfl : pc = 11 := by omega
      obtain rfl := Option.some.inj hline
      have htrap : t.state.trap = request s := Moved.trap hmoved hρ
      refine .after 12 rfl (.inl rfl) (by omega) ⟨?_, ?_, fun r hr => ?_, h.vec⟩
      · simp [SysLine.effect, htrap, h.asked]
      · simp [SysLine.effect, htrap, h.asked]
      · have hne : r ≠ .x 0 := hr (.x 0, .x 2) (by decide)
        simp [SysLine.effect, State.reg_setReg, hne, h.kept.reg r hr]

/-- Any line. -/
theorem Phase.own (h : Phase kernel log s n t) (hplace : t.place = .line pc)
    {line : SysLine Cp Outer} (hline : syscallCpCode[pc]? = some line) :
    Phase kernel log s (n + 1) (line.effect syscallCpCode kernel pc t) := by
  cases h with
  | before pc' hplace' hpc hn h =>
      obtain rfl : pc = pc' := by simpa using hplace.symm.trans hplace'
      exact h.own hplace hpc hn hline
  | after pc' hplace' hpc hn h =>
      obtain rfl : pc = pc' := by simpa using hplace.symm.trans hplace'
      rcases hpc with rfl | rfl
      · obtain rfl := Option.some.inj hline
        exact .after 13 rfl (.inr rfl) (by omega) ⟨h.asked, h.result, h.kept⟩
      · obtain rfl := Option.some.inj hline
        have hlink : t.state.reg (.x 30) = s.reg (.x 30) := h.kept.reg _ (by decide)
        exact .returned (congrArg Place.returned hlink) (by omega) ⟨h.asked, h.result, h.kept⟩
  | cancelling pc' hplace' hpc hn h =>
      obtain rfl : pc = pc' := by simpa using hplace.symm.trans hplace'
      rcases hpc with rfl | rfl
      · obtain rfl := Option.some.inj hline
        exact .cancelling 15 rfl (.inr rfl) (by omega) ⟨h.asked, h.kept⟩
      · obtain rfl := Option.some.inj hline
        exact .left rfl (by omega) ⟨h.asked, h.kept⟩
  | returned hplace' => simp [hplace] at hplace'
  | left hplace' => simp [hplace] at hplace'

/-- A write to memory is seen by no phase. -/
theorem Phase.write (h : Phase kernel log s n t) (m : Memory) :
    Phase kernel log s n { t with state := { t.state with mem := m } } := by
  cases h with
  | before pc hplace hpc hn h => exact .before pc hplace hpc hn ⟨h.asked, h.moved, h.vec⟩
  | after pc hplace hpc hn h =>
      exact .after pc hplace hpc hn ⟨h.asked, h.result, h.kept.reg, h.kept.vec⟩
  | cancelling pc hplace hpc hn h =>
      exact .cancelling pc hplace hpc hn ⟨h.asked, h.kept.reg, h.kept.vec⟩
  | returned hplace hn h => exact .returned hplace hn ⟨h.asked, h.result, h.kept.reg, h.kept.vec⟩
  | left hplace hn h => exact .left hplace hn ⟨h.asked, h.kept.reg, h.kept.vec⟩

/-- The handler finds the thread before its request. -/
theorem Phase.divert (h : Phase kernel log s n t) (hplace : t.place = .line pc)
    (hrange : InRange pc) :
    Phase kernel log s n { t with place := .line (sysTarget syscallCpCode .cpCancel) } := by
  have hpc : pc < 12 := hrange.2
  cases h with
  | before pc' hplace' _ hn h =>
      obtain rfl : pc = pc' := by simpa using hplace.symm.trans hplace'
      exact .cancelling 14 rfl (.inl rfl) (by omega) ⟨h.asked, h.kept⟩
  | after pc' hplace' hpc' =>
      obtain rfl : pc = pc' := by simpa using hplace.symm.trans hplace'
      omega
  | cancelling pc' hplace' hpc' =>
      obtain rfl : pc = pc' := by simpa using hplace.symm.trans hplace'
      omega
  | returned hplace' => simp [hplace] at hplace'
  | left hplace' => simp [hplace] at hplace'

theorem Phase.other (h : Phase kernel log s n t) {t' : Thread Outer} (hother : Interference t t') :
    Phase kernel log s n t' := by
  cases hother with
  | write m => exact h.write m
  | divert pc hplace hrange => exact h.divert hplace hrange

theorem phase_of_reaches (h : Reaches syscallCpCode kernel Interference (enter log s) n t) :
    Phase kernel log s n t := by
  refine h.invariant (Phase kernel log s) ?_ (fun n t pc line hphase hplace => hphase.own hplace)
    fun n t t' hphase => hphase.other
  exact .before 0 rfl (by norm_num) le_rfl ⟨rfl, ⟨_, fun r _ => rfl, .zero _ _⟩, rfl⟩

end Invariant

/-! ## Every interleaving -/

/-- What holds of a thread anywhere in the stub. -/
structure Safe (kernel : Trap.Kernel) (log : Trap.Log) (s : State) (t : Thread Outer) : Prop where
  once : t.asked = log ∨ t.asked = log ++ [(request s, kernel log (request s))]
  range : ∀ pc, t.place = .line pc → InRange pc → t.asked = log
  left : ∀ e, t.place = .left e → t.asked = log
  returned : ∀ a, t.place = .returned a → a = s.reg (.x 30) ∧
    t.asked = log ++ [(request s, kernel log (request s))] ∧
    t.state.reg (.x 0) = kernel log (request s)
  saved : ∀ r : CalleeSaved, r.value t.state = r.value s
  steps : ∀ pc, t.place = .line pc → ∃ t', step syscallCpCode kernel t = some t'

section Safe

variable {kernel : Trap.Kernel} {log : Trap.Log} {s : State} {t : Thread Outer} {n pc : ℕ}

theorem Kept.saved {t : State} (h : Kept s t) (r : CalleeSaved) : r.value t = r.value s := by
  have hreg : ∀ r, (∀ m ∈ moves, r ≠ m.1) → t.reg r = s.reg r := h.reg
  cases r with
  | x i =>
      refine hreg _ fun m hm => ?_
      simp only [moves, List.mem_cons, List.not_mem_nil, or_false] at hm
      rcases hm with rfl | rfl | rfl | rfl | rfl | rfl | rfl <;>
        exact CalleeSaved.gpr_ne (by simp) i
  | sp => exact hreg _ (by simp [moves])
  | d i => simp [CalleeSaved.value, h.vec]

theorem steps_of_lt (hplace : t.place = .line pc) (hpc : pc < 16) :
    ∃ t', step syscallCpCode kernel t = some t' := by
  obtain ⟨line, hline⟩ : ∃ line, syscallCpCode[pc]? = some line :=
    ⟨_, List.getElem?_eq_getElem (show pc < syscallCpCode.length from hpc)⟩
  exact ⟨line.effect syscallCpCode kernel pc t, by simp [step, hplace, hline]⟩

theorem Phase.safe (h : Phase kernel log s n t) : n ≤ 16 ∧ Safe kernel log s t := by
  have hline : ∀ {pc}, t.place = .line pc → pc < 16 →
      ∀ pc, t.place = .line pc → ∃ t', step syscallCpCode kernel t = some t' := by
    intro pc hplace hpc pc' hplace'
    obtain rfl : pc = pc' := by simpa using hplace.symm.trans hplace'
    exact steps_of_lt hplace hpc
  cases h with
  | before pc hplace hpc hn h =>
      exact ⟨by omega, .inl h.asked, fun _ _ _ => h.asked, by simp [hplace], by simp [hplace],
        h.kept.saved, hline hplace (by omega)⟩
  | after pc hplace hpc hn h =>
      refine ⟨by omega, .inr h.asked, fun pc' hplace' hrange => ?_, by simp [hplace],
        by simp [hplace], h.kept.saved, hline hplace (by omega)⟩
      obtain rfl : pc = pc' := by simpa using hplace.symm.trans hplace'
      have hlt : pc < 12 := hrange.2
      omega
  | cancelling pc hplace hpc hn h =>
      exact ⟨by omega, .inl h.asked, fun _ _ _ => h.asked, by simp [hplace], by simp [hplace],
        h.kept.saved, hline hplace (by omega)⟩
  | returned hplace hn h =>
      refine ⟨by omega, .inr h.asked, by simp [hplace], by simp [hplace], fun a ha => ?_,
        h.kept.saved, by simp [hplace]⟩
      obtain rfl : s.reg (.x 30) = a := by simpa using hplace.symm.trans ha
      exact ⟨rfl, h.asked, h.result⟩
  | left hplace hn h =>
      exact ⟨hn, .inl h.asked, by simp [hplace], fun _ _ => h.asked, by simp [hplace],
        h.kept.saved, by simp [hplace]⟩

end Safe

/-- **A cancelled thread has asked nothing.**  However others interfere, a thread
in the stub executes at most sixteen lines, is never stuck, and keeps the
callee-saved registers; it returns with the reply to the one request it has made,
or leaves for `__cancel` without a request, and it has made none while it is in
the range of the handler. -/
theorem syscallCpAsm_safe (kernel : Trap.Kernel) (log : Trap.Log) (s : State) (n : ℕ)
    (t : Thread Outer) (h : Reaches syscallCpCode kernel Interference (enter log s) n t) :
    n ≤ 16 ∧ Safe kernel log s t :=
  (phase_of_reaches h).safe

/-- A call that the handler diverts at its first instruction. -/
theorem syscallCpAsm_safe_diverted : ∃ t, t.place = .line 14 ∧
    Safe (fun _ _ => 7) [] (.call (fun _ => 0) 0x1000 172 0 0x400) t := by
  have h : Reaches syscallCpCode (fun _ _ => 7) Interference
      (enter [] (.call (fun _ => 0) 0x1000 172 0 0x400)) 2 _ := (Reaches.start.own rfl).own rfl
  have hdiverted := h.other (.divert 2 rfl (by simp [InRange]))
  exact ⟨_, rfl, (syscallCpAsm_safe _ _ _ _ _ hdiverted).2⟩

/-! ## Without a handler -/

/-- Others write to memory, but not to the flag. -/
inductive Quiet (flag : Addr) (t : Thread Outer) : Thread Outer → Prop
  | write (m : Memory) (hflag : readLE m flag 4 = readLE t.state.mem flag 4) :
      Quiet flag t { t with state := { t.state with mem := m } }

/-- The zeros that `syscall_cp0` to `syscall_cp5` pass after their arguments. -/
def pad (q : Request) : Trap where
  nr := q.nr
  args i := q.args.getD i 0

def padLog (log : List (Request × BitVec 64)) : Trap.Log := log.map (Prod.map pad id)

/-- The kernel as a caller of the stubs sees it. -/
def userKernel (kernel : Trap.Kernel) : Kernel := fun log q => kernel (padLog log) (pad q)

/-- The flag is zero, and the thread has passed it or is going to. -/
structure Calm (s : State) (t : Thread Outer) : Prop where
  flag : readLE t.state.mem (s.reg (.x 0)) 4 = 0
  base : ∀ pc < 3, t.place = .line pc → t.state.reg (.x 0) = s.reg (.x 0)
  loaded : t.place = .line 3 → t.state.reg (.x 0) = 0
  place : ∀ e, t.place ≠ .left e
  line : ∀ pc, t.place = .line pc → pc < 14

section Calm

variable {kernel : Trap.Kernel} {log : Trap.Log} {s : State} {t : Thread Outer} {n pc : ℕ}

/-- Past the flag, the lines of the stub lead on to its return. -/
theorem Calm.own_late (h : Calm s t) (hlo : 4 ≤ pc) (hhi : pc < 14)
    {line : SysLine Cp Outer} (hline : syscallCpCode[pc]? = some line) :
    Calm s (line.effect syscallCpCode kernel pc t) := by
  have hflag := h.flag
  interval_cases pc <;> obtain rfl := Option.some.inj hline <;>
    refine ⟨by simpa [SysLine.effect, exec] using hflag, fun pc' hpc' hplace' => ?_,
      by simp [SysLine.effect], by simp [SysLine.effect], by simp [SysLine.effect]⟩ <;>
    simp [SysLine.effect] at hplace' <;> omega

theorem Calm.own (h : Calm s t) (hplace : t.place = .line pc)
    {line : SysLine Cp Outer} (hline : syscallCpCode[pc]? = some line) :
    Calm s (line.effect syscallCpCode kernel pc t) := by
  rcases Nat.lt_or_ge pc 4 with hfew | hmany
  · have hflag := h.flag
    interval_cases pc
    · obtain rfl := Option.some.inj hline
      have hbase := h.base 0 (by norm_num) hplace
      exact ⟨hflag, fun _ _ _ => hbase, by simp [SysLine.effect], by simp [SysLine.effect],
        by simp [SysLine.effect]⟩
    · obtain rfl := Option.some.inj hline
      have hbase := h.base 1 (by norm_num) hplace
      exact ⟨hflag, fun _ _ _ => hbase, by simp [SysLine.effect], by simp [SysLine.effect],
        by simp [SysLine.effect]⟩
    · obtain rfl := Option.some.inj hline
      have hbase := h.base 2 (by norm_num) hplace
      refine ⟨hflag, by simp [SysLine.effect]; omega, fun _ => ?_, by simp [SysLine.effect],
        by simp [SysLine.effect]⟩
      simp [SysLine.effect, exec, Address.writeBack, Address.value, hbase, hflag]
    · obtain rfl := Option.some.inj hline
      have hzero := h.loaded hplace
      have hnext : SysLine.effect syscallCpCode kernel 3 t (.cbnzW (.x 0) .cpCancel) =
          { t with place := .line 4 } := by simp [SysLine.effect, hzero]
      rw [hnext]
      exact ⟨hflag, by simp; omega, by simp, by simp, by simp⟩
  · exact h.own_late hmany (h.line pc hplace) hline

theorem Calm.other (h : Calm s t) {t' : Thread Outer} (hother : Quiet (s.reg (.x 0)) t t') :
    Calm s t' := by
  cases hother with
  | write m hflag => exact ⟨hflag.trans h.flag, h.base, h.loaded, h.place, h.line⟩

end Calm

section Refines

variable {kernel : Trap.Kernel} {log : Trap.Log} {s : State} {t : Thread Outer} {n : ℕ}

theorem calm_of_reaches (hflag : readLE s.mem (s.reg (.x 0)) 4 = 0)
    (h : Reaches syscallCpCode kernel (Quiet (s.reg (.x 0))) (enter log s) n t) :
    Phase kernel log s n t ∧ Calm s t := by
  refine h.invariant (fun n t => Phase kernel log s n t ∧ Calm s t) ?_ ?_ ?_
  · exact ⟨phase_of_reaches .start, hflag, fun _ _ _ => rfl, by simp [enter], by simp [enter],
      by simp [enter]⟩
  · intro n t pc line hinv hplace hline
    exact ⟨hinv.1.own hplace hline, hinv.2.own hplace hline⟩
  · intro n t t' hinv hother
    refine ⟨?_, hinv.2.other hother⟩
    cases hother with
    | write m => exact hinv.1.write m

/-- The lines up to the return are fourteen. -/
theorem Calm.le_fourteen (hcalm : Calm s t) (hphase : Phase kernel log s n t) : n ≤ 14 := by
  cases hphase with
  | before pc hplace hpc hn => omega
  | after pc hplace hpc hn => omega
  | cancelling pc hplace hpc hn => exact absurd (hcalm.line pc hplace) (by omega)
  | returned hplace hn => exact hn
  | left hplace => exact absurd hplace (hcalm.place _)

/-- A thread that has not returned has a line to execute. -/
theorem Calm.returned_or_steps (hcalm : Calm s t) (hphase : Phase kernel log s n t) :
    (∃ a, t.place = .returned a) ∨ ∃ t', step syscallCpCode kernel t = some t' := by
  cases hplace : t.place with
  | line pc => exact .inr (hphase.safe.2.steps pc hplace)
  | returned a => exact .inl ⟨a, rfl⟩
  | left e => exact absurd hplace (hcalm.place e)

end Refines

/-- **The stub is `syscallCp`.**  With the flag at zero and no handler, whatever
else is written in memory, the stub is never cancelled and never stuck; it
executes at most fourteen lines, and returns when it is left to go on.  It
returns what `syscallCp` returns, having asked what `syscallCp` asks. -/
theorem syscallCpAsm_refines (kernel : Trap.Kernel) (w : World) (nr : BitVec 64)
    (args : List (BitVec 64)) (s : State) (hcall : request s = pad ⟨nr, args⟩)
    (hflag : readLE s.mem (s.reg (.x 0)) 4 = 0) (n : ℕ) (t : Thread Outer)
    (h : Reaches syscallCpCode kernel (Quiet (s.reg (.x 0))) (enter (padLog w.log) s) n t) :
    n ≤ 14 ∧ (∀ e, t.place ≠ .left e) ∧
      ((∃ a, t.place = .returned a) ∨ ∃ t', step syscallCpCode kernel t = some t') ∧
      (∃ n' t', Reaches syscallCpCode kernel (fun _ _ => False) t n' t' ∧ n + n' ≤ 14 ∧
        ∃ a, t'.place = .returned a) ∧
      ∀ a, t.place = .returned a → a = s.reg (.x 30) ∧
        ∃ w', syscallCp (userKernel kernel) nr args w = (t.state.reg (.x 0), w') ∧
          padLog w'.log = t.asked := by
  have hbound : ∀ n t, Reaches syscallCpCode kernel (Quiet (s.reg (.x 0)))
      (enter (padLog w.log) s) n t → n ≤ 14 := fun n t ht =>
    (calm_of_reaches hflag ht).2.le_fourteen (calm_of_reaches hflag ht).1
  obtain ⟨hphase, hcalm⟩ := calm_of_reaches hflag h
  refine ⟨hbound n t h, hcalm.place, hcalm.returned_or_steps hphase, ?_, fun a ha => ?_⟩
  · obtain ⟨n', t', halone, hreaches, hstop⟩ := h.exists_stopped hbound
    obtain ⟨hphase', hcalm'⟩ := calm_of_reaches hflag hreaches
    refine ⟨n', t', halone, hbound _ _ hreaches, ?_⟩
    -- where no line is left, the thread has returned
    refine (hcalm'.returned_or_steps hphase').resolve_right ?_
    rintro ⟨t'', hstep⟩
    rw [hstop] at hstep
    cases hstep
  · obtain ⟨hlink, hasked, hresult⟩ := hphase.safe.2.returned a ha
    refine ⟨hlink, _, Prod.ext ?_ rfl, ?_⟩
    · rw [hresult, hcall]
      rfl
    · rw [hasked, hcall]
      simp [syscallCp, syscall, userKernel, padLog]

/-- A call of `getpid`, from its entry to its return. -/
theorem syscallCpAsm_refines_getpid : ∃ (t : Thread Outer) (w' : World), t.place = .returned 0x400 ∧
    syscallCp (userKernel fun _ _ => 7) 172 [] ⟨0, []⟩ = (t.state.reg (.x 0), w') ∧
      padLog w'.log = t.asked := by
  obtain ⟨s, hs⟩ : ∃ s, s = State.call (fun _ => 0) 0x1000 172 0 0x400 := ⟨_, rfl⟩
  have hcall : request s = pad ⟨172, []⟩ := by
    rw [hs, request, pad, Trap.mk.injEq]
    exact ⟨rfl, funext fun i => by fin_cases i <;> rfl⟩
  have hflag : readLE s.mem (s.reg (.x 0)) 4 = 0 := by
    rw [hs]
    rfl
  have hrefines := fun n t => syscallCpAsm_refines (fun _ _ => 7) ⟨0, []⟩ 172 [] s hcall hflag n t
  obtain ⟨-, -, -, ⟨n, t, halone, -, a, ha⟩, -⟩ := hrefines 0 _ .start
  have hreturn : Reaches syscallCpCode (fun _ _ => 7) (Quiet (s.reg (.x 0))) (enter [] s) n t :=
    halone.mono fun _ _ => False.elim
  obtain ⟨-, -, -, -, hresult⟩ := hrefines n t hreturn
  obtain ⟨rfl, w', hreply, hlog⟩ := hresult a ha
  exact ⟨t, w', by rw [ha, hs]; rfl, hreply, hlog⟩

end Mytilus.Sys
