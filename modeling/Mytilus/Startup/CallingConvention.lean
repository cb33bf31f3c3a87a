import Mytilus.AArch64.Clobbers
import Mytilus.Startup.Setjmp
import Mytilus.Str.Memcpy
import Mytilus.Str.Memset

/-!
# The assembly routines as callees

A caller relies on `memcpy`, `memset` and `setjmp` to come back, with the
registers that a call preserves, whatever the arguments are: `memcpy` on regions
that overlap copies the wrong bytes, but it still returns.

`routines_return` puts together that each listing ends from every state
(`ends_memcpy_any` for the one whose loops were only followed on regions that do not
overlap) and that it writes nothing it must not (`ends_returns`, on its lines).
-/

namespace Mytilus

open AArch64 Memory

/-! ## `memcpy` returns from every state -/

namespace Str.MemcpyAsm

section Ends

variable (s : State)

theorem ends_copy64_from_end_any :
    Ends code (target code .copy64_from_end) s fun _ _ => True := by
  refine .label rfl (.block
    [.ldp E_l E_h (.off srcend (-64)), .stp A_l A_h (.off dst 16),
      .ldp A_l A_h (.off srcend (-48)), .stp B_l B_h (.off dst 32),
      .ldp B_l B_h (.off srcend (-32)), .stp C_l C_h (.off dst 48),
      .ldp C_l C_h (.off srcend (-16)), .stp D_l D_h (.off dst 64),
      .stp E_l E_h (.off dstend (-64)), .stp A_l A_h (.off dstend (-48)),
      .stp B_l B_h (.off dstend (-32)), .stp C_l C_h (.off dstend (-16))] rfl ?_)
  exact .br rfl trivial

/-- A round of the loop without the counting. -/
def loop64Body : List Instr :=
  [.stp A_l A_h (.off dst 16), .ldp A_l A_h (.off src 16), .stp B_l B_h (.off dst 32),
    .ldp B_l B_h (.off src 32), .stp C_l C_h (.off dst 48), .ldp C_l C_h (.off src 48),
    .stp D_l D_h (.pre dst 64), .ldp D_l D_h (.pre src 64)]

/-- The loop counts down whatever it copies. -/
theorem ends_loop64_any : Ends code (target code .loop64) s fun _ _ => True := by
  induction hcount : (s.reg count).toNat using Nat.strong_induction_on generalizing s with
  | _ c ih =>
      have hbody : (execBlock loop64Body s).reg count = s.reg count := reg_execBlock (by decide)
      refine .label rfl (.block loop64Body rfl (.op rfl (.bcond rfl (fun hmore => ?_) fun _ => ?_)))
      · rw [hi_subs (by norm_num), hbody, hcount, decide_eq_true_eq] at hmore
        refine ih _ ?_ _ rfl
        rw [exec, State.reg_setFlags, State.reg_setReg_self, hbody, Operand.value]
        bv_omega
      · rw [show target code .loop64 + 1 + loop64Body.length + 1 + 1 =
          target code .copy64_from_end by decide]
        exact ends_copy64_from_end_any _

theorem ends_copy_long_any : Ends code (target code .copy_long) s fun _ _ => True := by
  refine .label rfl (.block
    [.ldp D_l D_h (.off src 0), .and .x tmp1 dstin (.imm 15), .bic dst dstin (.imm 15),
      .sub src src (.reg tmp1), .add count count (.reg tmp1), .ldp A_l A_h (.off src 16),
      .stp D_l D_h (.off dstin 0), .ldp B_l B_h (.off src 32), .ldp C_l C_h (.off src 48),
      .ldp D_l D_h (.pre src 64), .subs count count (.imm (128 + 16))] rfl ?_)
  exact .bcond rfl (fun _ => ends_copy64_from_end_any _) fun _ => ends_loop64_any _

end Ends

theorem ends_memcpy_any (s : State) : Ends code (target code .memcpy) s fun _ _ => True := by
  by_cases hlong : 128 < len s
  · refine .label rfl (.op rfl (.op rfl (.op rfl (.bcond rfl (fun _ => ends_copy_long_any _) ?_))))
    intro hshort
    rw [hi_cmp (by norm_num), decide_eq_false_iff_not] at hshort
    exact absurd hlong hshort
  · exact (ends_memcpy_of_ahead s fun hmore => absurd hmore hlong).mono fun _ _ _ => trivial

end Str.MemcpyAsm

/-! ## The registers of each routine -/

def memcpyWrites : List Reg := (List.finRange 31).filterMap fun i =>
  if 1 ≤ i.val ∧ i.val ≤ 17 then some (.x i) else none

def memsetWrites : List Reg := [.x 1, .x 2, .x 3, .x 4, .x 5]

def setjmpWrites : List Reg := [.x 0, .x 2]

/-- **Every call of the assembly routines returns.**  From every state `memcpy`,
`memset` and `setjmp` come back to the return address, with `x19` to `x30`, the
stack pointer and `d8` to `d15` as they were.  The first two keep their first
argument as the result. -/
theorem routines_return (s : State) :
    (Ends Str.MemcpyAsm.code (target Str.MemcpyAsm.code .memcpy) s fun a t =>
      Returns memcpyWrites [] s a t ∧ t.reg (.x 0) = s.reg (.x 0)) ∧
    (Ends Str.MemsetAsm.code (target Str.MemsetAsm.code .memset) s fun a t =>
      Returns memsetWrites [0] s a t ∧ t.reg (.x 0) = s.reg (.x 0)) ∧
    ∀ l, Ends Startup.setjmpCode (target Startup.setjmpCode l) s fun a t =>
      Returns setjmpWrites [] s a t ∧ t.reg (.x 0) = 0 := by
  refine ⟨?_, ?_, fun l => ?_⟩
  · refine (ends_returns memcpyWrites [] (by decide) (by decide)
      (Str.MemcpyAsm.ends_memcpy_any s)).mono fun a t ⟨_, hreturns⟩ => ⟨hreturns, ?_⟩
    exact hreturns.registers _ (by decide)
  · refine (ends_returns memsetWrites [0] (by decide) (by decide)
      (Str.MemsetAsm.ends_memset s)).mono fun a t ⟨_, hreturns⟩ => ⟨hreturns, ?_⟩
    exact hreturns.registers _ (by decide)
  · refine (ends_returns setjmpWrites [] (by decide) (by decide)
      (Startup.setjmp_saves l s)).mono fun a t ⟨hpost, hreturns⟩ => ⟨hreturns, ?_⟩
    exact hpost.2.result

end Mytilus
