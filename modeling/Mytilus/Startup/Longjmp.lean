import Mytilus.Startup.Setjmp

/-!
# `longjmp`

The listing, and what it restores.  The loads follow the order of the stores, so
`Restoring env k` is how far they have come: the registers with a slot below `k`
have their values at the call of `setjmp` again.

The main result is `longjmp_undoes_setjmp`: a `longjmp` to a save area that has
not been modified comes back to the caller of `setjmp` with every saved register
as it was, and with a value that is not zero.
-/

namespace Mytilus.Startup

open AArch64 Memory

/-! ## The listing -/

/-- `_longjmp` and `longjmp`. -/
inductive Longjmp
  | longjmp₁ | longjmp
  deriving DecidableEq, Repr

def longjmpCode : List (Line Longjmp) :=
  [ .label .longjmp₁,
    .label .longjmp,
    .op (.ldp (.x 19) (.x 20) (.off (.x 0) 0)),
    .op (.ldp (.x 21) (.x 22) (.off (.x 0) 16)),
    .op (.ldp (.x 23) (.x 24) (.off (.x 0) 32)),
    .op (.ldp (.x 25) (.x 26) (.off (.x 0) 48)),
    .op (.ldp (.x 27) (.x 28) (.off (.x 0) 64)),
    .op (.ldp (.x 29) (.x 30) (.off (.x 0) 80)),
    .op (.ldr (.x 2) (.off (.x 0) 104)),
    .op (.mov .sp (.reg (.x 2))),
    .op (.ldpD 8 9 (.off (.x 0) 112)),
    .op (.ldpD 10 11 (.off (.x 0) 128)),
    .op (.ldpD 12 13 (.off (.x 0) 144)),
    .op (.ldpD 14 15 (.off (.x 0) 160)),
    .op (.cmp .w (.x 1) (.imm 0)),
    .op (.csincZr (.x 0) (.x 1) .ne),
    .br (.x 30) ]

/-! ## Restoring -/

def IsLoad : Access → Prop
  | .load _ _ => True
  | .store _ _ => False

/-- The slots hold the values the saved registers had in `s`. -/
def Holds (env : Addr) (s : State) (m : Memory) : Prop :=
  ∀ r : CalleeSaved, readLE m (ptrAdd env (slot r)) 8 = r.value s

/-- What an `ldp` of the registers `q` and `r` at `a` does. -/
def loadPair (q r : CalleeSaved) (a : Addr) (t : State) : State :=
  r.set (q.set (t.record (.load a 16)) (readLE t.mem a 8)) (readLE t.mem (ptrAdd a 8) 8)

/-- The registers with a slot below `k` are restored. -/
structure Restoring (env : Addr) (k : ℕ) (s t₀ t : State) : Prop where
  base : t.reg (.x 0) = env
  val : t.reg (.x 1) = t₀.reg (.x 1)
  restored : ∀ r, slot r + 8 ≤ k → r.value t = r.value s
  mem : t.mem = t₀.mem
  trace : TraceSince t₀ t IsLoad

/-- What a finished `longjmp` leaves behind: control is back at the caller of
`setjmp`, with its registers. -/
structure Restored (s t : State) (a : Addr) (t' : State) : Prop where
  link : a = s.reg (.x 30)
  registers : ∀ r : CalleeSaved, r.value t' = r.value s
  result : (t'.reg (.x 0)).setWidth 32 =
    if (t.reg (.x 1)).setWidth 32 = 0#32 then 1#32 else (t.reg (.x 1)).setWidth 32
  mem : t'.mem = t.mem
  trace : TraceSince t t' IsLoad

section Run

variable {env : Addr} {k pc : ℕ} {s t₀ t : State} {Q : Addr → State → Prop}

theorem Restoring.start (t : State) : Restoring (t.reg (.x 0)) 0 s t t where
  base := rfl
  val := rfl
  restored r hr := absurd hr (by omega)
  mem := rfl
  trace := .refl _ _

theorem Restoring.gap (h : Restoring env 96 s t₀ t) : Restoring env 104 s t₀ t where
  base := h.base
  val := h.val
  restored r hr := h.restored r (slot_gap hr)
  mem := h.mem
  trace := h.trace

theorem Restoring.address (h : Restoring env k s t₀ t) {imm : ℤ} (himm : imm = k) :
    (Address.off (.x 0) imm).value t = ptrAdd env k :=
  (points_zero.mpr h.base).value (by rw [himm, zero_add])

theorem Restoring.record (h : Restoring env k s t₀ t) (a : Addr) (n : ℕ) :
    Restoring env k s t₀ (t.record (.load a n)) where
  base := h.base
  val := h.val
  restored r hr := (CalleeSaved.value_congr rfl rfl r).trans (h.restored r hr)
  mem := h.mem
  trace := h.trace.cons rfl trivial

/-- A register that is given its value in `s`. -/
theorem Restoring.set (h : Restoring env k s t₀ t) {q : CalleeSaved} {v : BitVec 64}
    (hq : slot q = k) (hv : v = q.value s) : Restoring env (k + 8) s t₀ (q.set t v) where
  base := (CalleeSaved.reg_set (by norm_num)).trans h.base
  val := (CalleeSaved.reg_set (by norm_num)).trans h.val
  restored r hr := by
    by_cases hrq : r = q
    · rw [hrq, CalleeSaved.value_set_self, hv]
    · rw [CalleeSaved.value_set_of_ne hrq]
      exact h.restored r ((slot_cases (hq ▸ eight_dvd_slot q) hr).resolve_left
        fun heq => hrq (slot_inj (heq.trans hq.symm)))
  mem := CalleeSaved.mem_set.trans h.mem
  trace := by
    obtain ⟨log, hlog, hall⟩ := h.trace
    exact ⟨log, CalleeSaved.trace_set.trans hlog, hall⟩

/-- A load of two registers with adjacent slots. -/
theorem Restoring.pair (h : Restoring env k s t₀ t) (hm : Holds env s t₀.mem) {q r : CalleeSaved}
    (hq : slot q = k) (hr : slot r = k + 8) :
    Restoring env (k + 16) s t₀ (loadPair q r (ptrAdd env k) t) := by
  have hfirst : readLE t.mem (ptrAdd env k) 8 = q.value s := by rw [h.mem, ← hq, hm q]
  have hsecond : readLE t.mem (ptrAdd (ptrAdd env k) 8) 8 = r.value s := by
    rw [h.mem, ptrAdd_ptrAdd, ← hr, hm r]
  exact ((h.record _ _).set hq hfirst).set hr hsecond

/-- An `ldp` of two general or two SIMD registers. -/
theorem Restoring.ends_pair (h : Restoring env k s t₀ t) (hm : Holds env s t₀.mem)
    (q r : CalleeSaved) {i : Instr} (hline : longjmpCode[pc]? = some (.op i))
    (hexec : exec i t = loadPair q r ((Address.off (.x 0) k).value t) t)
    (hq : slot q = k) (hr : slot r = k + 8)
    (next : ∀ t', Restoring env (k + 16) s t₀ t' → Ends longjmpCode (pc + 1) t' Q) :
    Ends longjmpCode pc t Q := by
  refine Ends.op hline (next _ ?_)
  rw [hexec, h.address rfl]
  exact h.pair hm hq hr

/-- A scratch register. -/
theorem Restoring.setReg (h : Restoring env k s t₀ t) (v : BitVec 64) :
    Restoring env k s t₀ (t.setReg (.x 2) v) where
  base := (State.reg_setReg ..).trans ((if_neg (by decide)).trans h.base)
  val := (State.reg_setReg ..).trans ((if_neg (by decide)).trans h.val)
  restored r hr := (CalleeSaved.value_setReg (by norm_num) r).trans (h.restored r hr)
  mem := h.mem
  trace := h.trace

/-- `ldr x2` and `mov sp, x2`. -/
theorem Restoring.ends_sp (h : Restoring env 104 s t₀ t) (hm : Holds env s t₀.mem)
    (hldr : longjmpCode[pc]? = some (.op (.ldr (.x 2) (.off (.x 0) 104))))
    (hmov : longjmpCode[pc + 1]? = some (.op (.mov .sp (.reg (.x 2)))))
    (next : ∀ t', Restoring env 112 s t₀ t' → Ends longjmpCode (pc + 2) t' Q) :
    Ends longjmpCode pc t Q := by
  refine Ends.op hldr (Ends.op hmov (next _ ?_))
  have hloaded := (h.record (ptrAdd env 104) 8).setReg (readLE t.mem (ptrAdd env 104) 8)
  have hvalue : readLE t.mem (ptrAdd env 104) 8 = CalleeSaved.value s .sp := by
    rw [h.mem]
    exact hm .sp
  have hset := hloaded.set (q := .sp) rfl hvalue
  have haddress : (Address.off (.x 0) 104).value t = _ := h.address rfl
  rwa [← haddress] at hset

/-- The comparison with zero, and the selection: a zero is replaced by one. -/
theorem selected_eq (t : State) :
    ((exec (.csincZr (.x 0) (.x 1) .ne)
      (exec (.cmp .w (.x 1) (.imm 0)) t)).reg (.x 0)).setWidth 32 =
      if (t.reg (.x 1)).setWidth 32 = 0#32 then 1#32 else (t.reg (.x 1)).setWidth 32 := by
  have hne : Cond.ne.holds (exec (.cmp .w (.x 1) (.imm 0)) t).flags =
      decide ((t.reg (.x 1)).setWidth 32 ≠ 0#32) := ne_subFlags ..
  refine (State.setWidth_reg_setSized ..).trans ?_
  rw [hne]
  by_cases hzero : (t.reg (.x 1)).setWidth 32 = 0#32
  · simp [hzero]
  · simp [hzero, exec]

theorem Restoring.ends_br (h : Restoring env jbBytes s t₀ t)
    (hcmp : longjmpCode[pc]? = some (.op (.cmp .w (.x 1) (.imm 0))))
    (hcsinc : longjmpCode[pc + 1]? = some (.op (.csincZr (.x 0) (.x 1) .ne)))
    (hbr : longjmpCode[pc + 2]? = some (.br (.x 30))) :
    Ends longjmpCode pc t (Restored s t₀) := by
  have hkept : ∀ (v : BitVec 64) (r : CalleeSaved),
      r.value ((exec (.cmp .w (.x 1) (.imm 0)) t).setReg (.x 0) v) = r.value s := fun v r =>
    (CalleeSaved.value_setReg (by norm_num) r).trans
      ((CalleeSaved.value_congr rfl rfl r).trans (h.restored r (slot_lt r)))
  refine Ends.op hcmp (Ends.op hcsinc (Ends.br hbr ?_))
  exact
    { link := hkept _ (.x 11)
      registers := hkept _
      result := by rw [← h.val]; exact selected_eq t
      mem := h.mem
      trace := h.trace }

theorem Restoring.ends (h : Restoring env 0 s t₀ t) (hm : Holds env s t₀.mem) :
    Ends longjmpCode 2 t (Restored s t₀) := by
  refine h.ends_pair hm (.x 0) (.x 1) rfl rfl rfl rfl fun t₁ h₁ => ?_
  refine h₁.ends_pair hm (.x 2) (.x 3) rfl rfl rfl rfl fun t₂ h₂ => ?_
  refine h₂.ends_pair hm (.x 4) (.x 5) rfl rfl rfl rfl fun t₃ h₃ => ?_
  refine h₃.ends_pair hm (.x 6) (.x 7) rfl rfl rfl rfl fun t₄ h₄ => ?_
  refine h₄.ends_pair hm (.x 8) (.x 9) rfl rfl rfl rfl fun t₅ h₅ => ?_
  refine h₅.ends_pair hm (.x 10) (.x 11) rfl rfl rfl rfl fun t₆ h₆ => ?_
  refine h₆.gap.ends_sp hm rfl rfl fun t₇ h₇ => ?_
  refine h₇.ends_pair hm (.d 0) (.d 1) rfl rfl rfl rfl fun t₈ h₈ => ?_
  refine h₈.ends_pair hm (.d 2) (.d 3) rfl rfl rfl rfl fun t₉ h₉ => ?_
  refine h₉.ends_pair hm (.d 4) (.d 5) rfl rfl rfl rfl fun t₁₀ h₁₀ => ?_
  refine h₁₀.ends_pair hm (.d 6) (.d 7) rfl rfl rfl rfl fun t₁₁ h₁₁ => ?_
  exact h₁₁.ends_br rfl rfl rfl

end Run

/-- From each of its names, `longjmp` restores what the save area holds. -/
theorem longjmp_restores (l : Longjmp) {s t : State} (hm : Holds (t.reg (.x 0)) s t.mem) :
    Ends longjmpCode (target longjmpCode l) t (Restored s t) := by
  have hbody := (Restoring.start t).ends hm
  have hlast : Ends longjmpCode 1 t _ := Ends.label (l := .longjmp) rfl hbody
  cases l with
  | longjmp₁ => exact Ends.label (l := .longjmp₁) rfl hlast
  | longjmp => exact hlast

/-- The value with which the call of `setjmp` returns again is not the one it
returned first. -/
theorem Restored.result_ne_zero {s t t' : State} {a : Addr} (h : Restored s t a t') :
    (t'.reg (.x 0)).setWidth 32 ≠ 0#32 := by
  rw [h.result]
  split_ifs with hzero
  · simp
  · exact hzero

/-- **`longjmp` undoes `setjmp`.**  In every state whose save area is as `setjmp`
has left it, whatever else has happened in between. -/
theorem longjmp_undoes_setjmp (l : Setjmp) (s : State) :
    Ends setjmpCode (target setjmpCode l) s fun a s' =>
      a = s.reg (.x 30) ∧ Saved (s.reg (.x 0)) s s' ∧
        ∀ (l' : Longjmp) (t : State), t.reg (.x 0) = s.reg (.x 0) →
          (∀ i < jbBytes, t.mem (ptrAdd (s.reg (.x 0)) i) = s'.mem (ptrAdd (s.reg (.x 0)) i)) →
          Ends longjmpCode (target longjmpCode l') t fun b t' =>
            Restored s t b t' ∧ (t'.reg (.x 0)).setWidth 32 ≠ 0#32 := by
  refine (setjmp_saves l s).mono fun a s' ⟨ha, hsaved⟩ => ⟨ha, hsaved, ?_⟩
  intro l' t henv hsame
  -- the contents of the save area are all that `longjmp` reads
  have hholds : Holds (t.reg (.x 0)) s t.mem := by
    intro r
    have hlt := slot_lt r
    rw [henv, ← hsaved.contents r]
    refine readLE_congr fun i hi => ?_
    rw [ptrAdd_ptrAdd]
    exact hsame _ (by omega)
  exact (longjmp_restores l' hholds).mono fun b t' h => ⟨h, h.result_ne_zero⟩

end Mytilus.Startup
