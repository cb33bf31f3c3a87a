import Mytilus.AArch64.CalleeSaved
import Mytilus.AArch64.Overwrite

/-!
# `setjmp`

The listing, the layout of the structure it stores to, and what it leaves there.
Each store begins where the one before it has ended, with a gap before the stack
pointer, so `Saving env k` only carries how far the stores have come: the
registers with a slot below `k` are in their slots, and nothing else is written.

`Saving.pair` and `Saving.single` are what a store adds, from `Saving.store`, and
`setjmp_saves` is the whole listing: the registers are in their slots, nothing outside
the save area is written, and the result is zero.
-/

namespace Mytilus.Startup

open AArch64 Memory

/-! ## The listing -/

/-- `__setjmp`, `_setjmp` and `setjmp`. -/
inductive Setjmp
  | setjmp₂ | setjmp₁ | setjmp
  deriving DecidableEq, Repr

def setjmpCode : List (Line Setjmp) :=
  [ .label .setjmp₂,
    .label .setjmp₁,
    .label .setjmp,
    .op (.stp (.x 19) (.x 20) (.off (.x 0) 0)),
    .op (.stp (.x 21) (.x 22) (.off (.x 0) 16)),
    .op (.stp (.x 23) (.x 24) (.off (.x 0) 32)),
    .op (.stp (.x 25) (.x 26) (.off (.x 0) 48)),
    .op (.stp (.x 27) (.x 28) (.off (.x 0) 64)),
    .op (.stp (.x 29) (.x 30) (.off (.x 0) 80)),
    .op (.mov (.x 2) (.reg .sp)),
    .op (.str (.x 2) (.off (.x 0) 104)),
    .op (.stpD 8 9 (.off (.x 0) 112)),
    .op (.stpD 10 11 (.off (.x 0) 128)),
    .op (.stpD 12 13 (.off (.x 0) 144)),
    .op (.stpD 14 15 (.off (.x 0) 160)),
    .op (.mov (.x 0) (.imm 0)),
    .ret ]

/-! ## The layout

`__jmp_buf_tag` has the save area `__jb` at its start, then `__fl`, then `__ss`;
all its fields are words, so there is no padding. -/

/-- `size_of::<__jmp_buf>()` -/
def jbBytes : ℕ := 22 * 8

/-- `offset_of!(__jmp_buf_tag, __fl)` -/
def flOffset : ℕ := jbBytes

/-- `offset_of!(__jmp_buf_tag, __ss)` -/
def ssOffset : ℕ := flOffset + 8

/-- Where a register is saved. -/
def slot : CalleeSaved → ℕ
  | .x n => 8 * n
  | .sp => 104
  | .d n => 112 + 8 * n

section Slots

variable {q r : CalleeSaved}

theorem slot_lt (r : CalleeSaved) : slot r + 8 ≤ jbBytes := by
  cases r <;> simp only [slot, jbBytes] <;> omega

theorem slot_inj (h : slot q = slot r) : q = r := by
  cases q <;> cases r <;> simp only [slot] at h <;> first | omega | rfl | (congr 1; omega)

theorem eight_dvd_slot (r : CalleeSaved) : 8 ∣ slot r := by
  cases r <;> simp only [slot] <;> omega

/-- A slot below the end of the next one is that one, or lies before it. -/
theorem slot_cases {k : ℕ} (hk : 8 ∣ k) (h : slot r + 8 ≤ k + 8) : slot r = k ∨ slot r + 8 ≤ k := by
  have hdvd := eight_dvd_slot r
  omega

/-- There is no slot at 96. -/
theorem slot_gap (h : slot r + 8 ≤ 104) : slot r + 8 ≤ 96 := by
  cases r <;> simp only [slot] at h ⊢ <;> omega

/-- Two registers have separate slots. -/
theorem slot_separate (env : Addr) (h : q ≠ r) :
    Separate (ptrAdd env (slot q)) 8 (ptrAdd env (slot r)) 8 := by
  have hq := slot_lt q
  have hr := slot_lt r
  have hqdvd := eight_dvd_slot q
  have hrdvd := eight_dvd_slot r
  unfold jbBytes at hq hr
  rcases Nat.lt_trichotomy (slot q) (slot r) with hlt | heq | hgt
  · exact separate_of_le (by omega) (by omega)
  · exact absurd (slot_inj heq) h
  · exact (separate_of_le (by omega) (by omega)).symm

end Slots

/-! ## Saving -/

/-- The stores made after `s₀`, newest first: each is `n` bytes at an offset `i`
into the save area, and begins where the earlier ones have ended. -/
def StoredBelow (env : Addr) (k : ℕ) (s₀ s : State) : Prop :=
  ∃ stores : List (ℕ × ℕ),
    s.trace = stores.map (fun e => .store (ptrAdd env e.1) e.2) ++ s₀.trace ∧
      (∀ e ∈ stores, e.1 + e.2 ≤ k) ∧ stores.Pairwise fun e f => f.1 + f.2 ≤ e.1

/-- The registers with a slot below `k` are saved. -/
structure Saving (env : Addr) (k : ℕ) (s₀ s : State) : Prop where
  base : s.reg (.x 0) = env
  kept : ∀ r : CalleeSaved, r.value s = r.value s₀
  saved : ∀ r, slot r + 8 ≤ k → readLE s.mem (ptrAdd env (slot r)) 8 = r.value s₀
  frame : SameOutside env jbBytes s₀.mem s.mem
  stored : StoredBelow env k s₀ s

section Saving

variable {env : Addr} {k : ℕ} {s₀ s : State}

theorem StoredBelow.mono {k' : ℕ} (h : StoredBelow env k s₀ s) (hk : k ≤ k') :
    StoredBelow env k' s₀ s := by
  obtain ⟨stores, htrace, hlt, hpair⟩ := h
  exact ⟨stores, htrace, fun e he => (hlt e he).trans hk, hpair⟩

theorem StoredBelow.store (h : StoredBelow env k s₀ s) {n w : ℕ} (v : BitVec w) :
    StoredBelow env (k + n) s₀ (s.store (ptrAdd env k) n v) := by
  obtain ⟨stores, htrace, hlt, hpair⟩ := h
  refine ⟨(k, n) :: stores, ?_, ?_, List.pairwise_cons.mpr ⟨hlt, hpair⟩⟩
  · rw [State.trace_store, htrace, List.map_cons, List.cons_append]
  · exact List.forall_mem_cons.mpr ⟨le_rfl, fun e he => (hlt e he).trans (Nat.le_add_right k n)⟩

theorem Saving.start (s : State) : Saving (s.reg (.x 0)) 0 s s where
  base := rfl
  kept _ := rfl
  saved r hr := absurd hr (by omega)
  frame := .refl _ _ _
  stored := ⟨[], rfl, nofun, List.Pairwise.nil⟩

theorem Saving.gap (h : Saving env 96 s₀ s) : Saving env 104 s₀ s where
  base := h.base
  kept := h.kept
  saved r hr := h.saved r (slot_gap hr)
  frame := h.frame
  stored := h.stored.mono (by norm_num)

theorem Saving.setReg (h : Saving env k s₀ s) {i : Fin 31} (hi : i.val < 19) (hne : i ≠ 0)
    (v : BitVec 64) : Saving env k s₀ (s.setReg (.x i) v) where
  base := ((State.reg_setReg ..).trans (if_neg (by simpa using hne.symm))).trans h.base
  kept r := (CalleeSaved.value_setReg hi r).trans (h.kept r)
  saved := h.saved
  frame := h.frame
  stored := h.stored

/-- A store at `k` that covers the slots up to its end. -/
theorem Saving.store (h : Saving env k s₀ s) {n w : ℕ} {v : BitVec w} (hn : k + n ≤ jbBytes)
    (hnew : ∀ r, k < slot r + 8 → slot r + 8 ≤ k + n →
      ∃ i, slot r = k + i ∧ ∀ b < 8, byteOf v (i + b) = byteOf (r.value s) b) :
    Saving env (k + n) s₀ (s.store (ptrAdd env k) n v) where
  base := h.base
  kept := h.kept
  saved r hr := by
    have hsize : jbBytes ≤ 2 ^ 64 := by norm_num [jbBytes]
    -- a slot that ends above `k` is one of this store, the others are stored already
    rcases Nat.lt_or_ge k (slot r + 8) with hlt | hge
    · obtain ⟨i, hi, hbytes⟩ := hnew r hlt hr
      rw [← h.kept r]
      refine eq_of_byteOf_eq (n := 8) fun b hb => ?_
      rw [byteOf_readLE _ _ hb, State.mem_store, hi, ptrAdd_ptrAdd, Nat.add_assoc, ← ptrAdd_ptrAdd,
        writeLE_ptrAdd _ _ v (by omega) (by omega), hbytes b hb]
    · rw [State.mem_store, readLE_writeLE_of_separate _ v _ (by norm_num)]
      · exact h.saved r hge
      · exact (separate_of_le hge (by omega)).symm
  frame := h.frame.trans fun a ha => writeLE_of_not_within _ v fun hin =>
    ha (hin.of_part hn (by norm_num [jbBytes]))
  stored := h.stored.store v

/-- A store of two registers with adjacent slots. -/
theorem Saving.pair (h : Saving env k s₀ s) {q r : CalleeSaved} (hq : slot q = k)
    (hr : slot r = k + 8) :
    Saving env (k + 16) s₀ (s.store (ptrAdd env k) 16 (r.value s ++ q.value s)) := by
  have hend := slot_lt r
  refine h.store (by omega) fun p hlt hle => ?_
  have hdvd := eight_dvd_slot q
  rw [hq] at hdvd
  rcases slot_cases (k := k + 8) (by omega) hle with hp | hp
  · obtain rfl : p = r := slot_inj (hp.trans hr.symm)
    exact ⟨8, hp, fun b _ => byteOf_append_high (n := 8) _ _ b⟩
  · obtain rfl : p = q := slot_inj (by have := slot_cases hdvd hp; omega)
    refine ⟨0, hq, fun b hb => ?_⟩
    rw [Nat.zero_add]
    exact byteOf_append_low (n := 8) _ _ hb

theorem Saving.single (h : Saving env k s₀ s) {q : CalleeSaved} (hq : slot q = k) :
    Saving env (k + 8) s₀ (s.store (ptrAdd env k) 8 (q.value s)) := by
  have hend := slot_lt q
  refine h.store (by omega) fun p hlt hle => ?_
  have hdvd := eight_dvd_slot q
  rw [hq] at hdvd
  obtain rfl : p = q := slot_inj (by have := slot_cases hdvd hle; omega)
  exact ⟨0, hq, fun b _ => by rw [Nat.zero_add]⟩

end Saving

/-! ## The run -/

/-- What a finished `setjmp` leaves behind. -/
structure Saved (env : Addr) (s s' : State) : Prop where
  result : s'.reg (.x 0) = 0
  kept : ∀ r : CalleeSaved, r.value s' = r.value s
  contents : ∀ r, readLE s'.mem (ptrAdd env (slot r)) 8 = r.value s
  frame : SameOutside env jbBytes s.mem s'.mem
  fl : readLE s'.mem (ptrAdd env flOffset) 8 = readLE s.mem (ptrAdd env flOffset) 8
  ss : ∀ i < 16, readLE s'.mem (ptrAdd env (ssOffset + 8 * i)) 8 =
    readLE s.mem (ptrAdd env (ssOffset + 8 * i)) 8
  stored : StoredBelow env jbBytes s s'
  separate : ∀ q r, q ≠ r → Separate (ptrAdd env (slot q)) 8 (ptrAdd env (slot r)) 8

section Run

variable {env : Addr} {k pc : ℕ} {s₀ s : State} {Q : Addr → State → Prop}

theorem Saving.address (h : Saving env k s₀ s) {imm : ℤ} (himm : imm = k) :
    (Address.off (.x 0) imm).value s = ptrAdd env k :=
  (points_zero.mpr h.base).value (by rw [himm, zero_add])

/-- An `stp` of two general or two SIMD registers. -/
theorem Saving.ends_pair (h : Saving env k s₀ s) (q r : CalleeSaved) {i : Instr}
    (hline : setjmpCode[pc]? = some (.op i))
    (hexec : exec i s = s.store ((Address.off (.x 0) k).value s) 16 (r.value s ++ q.value s))
    (hq : slot q = k) (hr : slot r = k + 8)
    (next : ∀ s', Saving env (k + 16) s₀ s' → Ends setjmpCode (pc + 1) s' Q) :
    Ends setjmpCode pc s Q := by
  refine Ends.op hline (next _ ?_)
  rw [hexec, h.address rfl]
  exact h.pair hq hr

/-- `mov x2, sp` and the store of `x2`. -/
theorem Saving.ends_sp (h : Saving env 104 s₀ s)
    (hmov : setjmpCode[pc]? = some (.op (.mov (.x 2) (.reg .sp))))
    (hstr : setjmpCode[pc + 1]? = some (.op (.str (.x 2) (.off (.x 0) 104))))
    (next : ∀ s', Saving env 112 s₀ s' → Ends setjmpCode (pc + 2) s' Q) :
    Ends setjmpCode pc s Q := by
  have hmoved := h.setReg (i := 2) (by norm_num) (by decide) (s.reg .sp)
  refine Ends.op hmov (Ends.op hstr (next _ ?_))
  have hstore := hmoved.single (q := .sp) rfl
  have hvalue : CalleeSaved.value (s.setReg (.x 2) (s.reg .sp)) .sp =
      (s.setReg (.x 2) (s.reg .sp)).reg (.x 2) :=
    (hmoved.kept .sp).trans ((h.kept .sp).symm.trans (State.reg_setReg_self ..).symm)
  have haddress : (Address.off (.x 0) 104).value _ = _ := hmoved.address rfl
  rwa [hvalue, ← haddress] at hstore

/-- A word behind the save area. -/
theorem Saving.readLE_eq (h : Saving env k s₀ s) {i : ℕ} (hi : jbBytes ≤ i)
    (hend : i + 8 ≤ 2 ^ 64) :
    readLE s.mem (ptrAdd env i) 8 = readLE s₀.mem (ptrAdd env i) 8 := by
  have hsep : Separate env jbBytes (ptrAdd env i) 8 := by
    have hle := separate_of_le (b := env) (i := 0) (k := jbBytes) (by omega) hend
    rwa [ptrAdd_zero] at hle
  have hread := h.frame.readLE_eq hsep (k := 0) (w := 8) le_rfl (by norm_num)
  rwa [ptrAdd_zero] at hread

/-- Every slot has been filled. -/
theorem Saving.ends_ret (h : Saving env jbBytes s₀ s)
    (hmov : setjmpCode[pc]? = some (.op (.mov (.x 0) (.imm 0))))
    (hret : setjmpCode[pc + 1]? = some .ret) :
    Ends setjmpCode pc s fun a s' => a = s₀.reg (.x 30) ∧ Saved env s₀ s' := by
  refine Ends.op hmov (Ends.br hret ⟨?_, ?_⟩)
  · exact (CalleeSaved.value_setReg (by norm_num) (.x 11)).trans (h.kept (.x 11))
  · exact
      { result := State.reg_setReg_self ..
        kept := fun r => (CalleeSaved.value_setReg (by norm_num) r).trans (h.kept r)
        contents := fun r => h.saved r (slot_lt r)
        frame := h.frame
        fl := h.readLE_eq le_rfl (by norm_num [flOffset, jbBytes])
        ss := fun i hi => h.readLE_eq (by unfold ssOffset flOffset; omega)
          (by unfold ssOffset flOffset jbBytes; omega)
        stored := h.stored
        separate := fun q r h => slot_separate env h }

theorem Saving.ends (h : Saving env 0 s₀ s) :
    Ends setjmpCode 3 s fun a s' => a = s₀.reg (.x 30) ∧ Saved env s₀ s' := by
  refine h.ends_pair (.x 0) (.x 1) rfl rfl rfl rfl fun s₁ h₁ => ?_
  refine h₁.ends_pair (.x 2) (.x 3) rfl rfl rfl rfl fun s₂ h₂ => ?_
  refine h₂.ends_pair (.x 4) (.x 5) rfl rfl rfl rfl fun s₃ h₃ => ?_
  refine h₃.ends_pair (.x 6) (.x 7) rfl rfl rfl rfl fun s₄ h₄ => ?_
  refine h₄.ends_pair (.x 8) (.x 9) rfl rfl rfl rfl fun s₅ h₅ => ?_
  refine h₅.ends_pair (.x 10) (.x 11) rfl rfl rfl rfl fun s₆ h₆ => ?_
  refine h₆.gap.ends_sp rfl rfl fun s₇ h₇ => ?_
  refine h₇.ends_pair (.d 0) (.d 1) rfl rfl rfl rfl fun s₈ h₈ => ?_
  refine h₈.ends_pair (.d 2) (.d 3) rfl rfl rfl rfl fun s₉ h₉ => ?_
  refine h₉.ends_pair (.d 4) (.d 5) rfl rfl rfl rfl fun s₁₀ h₁₀ => ?_
  refine h₁₀.ends_pair (.d 6) (.d 7) rfl rfl rfl rfl fun s₁₁ h₁₁ => ?_
  exact h₁₁.ends_ret rfl rfl

end Run

/-- From each of its names, `setjmp` saves the registers and returns zero. -/
theorem setjmp_saves (l : Setjmp) (s : State) :
    Ends setjmpCode (target setjmpCode l) s fun a s' =>
      a = s.reg (.x 30) ∧ Saved (s.reg (.x 0)) s s' := by
  have hbody := (Saving.start s).ends
  have hlast : Ends setjmpCode 2 s _ := Ends.label (l := .setjmp) rfl hbody
  have hmiddle : Ends setjmpCode 1 s _ := Ends.label (l := .setjmp₁) rfl hlast
  cases l with
  | setjmp₂ => exact Ends.label (l := .setjmp₂) rfl hmiddle
  | setjmp₁ => exact hmiddle
  | setjmp => exact hlast

end Mytilus.Startup
