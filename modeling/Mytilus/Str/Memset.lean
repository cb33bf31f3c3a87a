import Mytilus.Str.MemsetBlocks

/-!
# The assembly `memset` agrees with the byte loop

What is left is the two loops for more than 96 bytes, and the assembly of all
paths into the statement about a call, `memset_asm_agrees`.

Both loops work on a pointer aligned down, with a count biased to match.  For
both, `p` is the offset up to which the region is filled and the count is what
is left beyond the next 64 bytes (`Filled`); they differ in how far `dst` lags behind
`p` and in the stores of a round, so `ends_loop` is one induction for both.  The
block-zeroing loop is entered for zero bytes only, and if `dczid_el0` says that a
block has 64 bytes (`zvaBytes_of_cmp`).
-/

namespace Mytilus.Str.MemsetAsm

open AArch64 Memory

section Long

variable {s₀ s : State}

/-! ## The loops -/

/-- Between two rounds of a loop: filled up to `p`, with `dst` at `p + lag`. -/
structure Filled (s₀ : State) (lag : ℤ) (p : ℕ) (s : State) : Prop where
  filling : ∃ C, Filling s₀ C s ∧ ∀ i < p, i ∈ C
  hdst : Points s.reg dst (s₀.reg dstin) (p + lag)
  hdstend : Points s.reg dstend (s₀.reg dstin) (len s₀)

/-- Counting down changes neither what is filled nor the pointers. -/
theorem Filled.subs_count {lag : ℤ} {p : ℕ} (h : Filled s₀ lag p s) (m : Operand) :
    Filled s₀ lag p (exec (.subs count count m) s) := by
  have f : Frame [count] s.reg (exec (.subs count count m) s).reg := frame_setReg _ count _
  obtain ⟨C, hfilling, hC⟩ := h.filling
  exact
    { filling := ⟨C, (hfilling.setReg _ (by decide)).setFlags _, hC⟩
      hdst := h.hdst.frame f (by decide)
      hdstend := h.hdstend.frame f (by decide) }

/-- The last 64 bytes, from the end. -/
theorem ends_tail {pc p : ℕ} {lag : ℤ}
    (hlines : code[pc]? = some (.op (.stpQ q0 q0 (.off dstend (-64)))) ∧
      code[pc + 1]? = some (.op (.stpQ q0 q0 (.off dstend (-32)))) ∧ code[pc + 2]? = some .ret)
    (h : Filled s₀ lag p s) (hlo : 64 ≤ len s₀) (hhi : len s₀ ≤ p + 64) :
    Ends code pc s (Post s₀) := by
  obtain ⟨hfirst, hsecond, hret⟩ := hlines
  obtain ⟨C, hfilling, hC⟩ := h.filling
  refine stpQ (k := len s₀ - 64) hfirst hfilling h.hdstend (by omega) (by omega)
    fun m₁ tr₁ c₁ => ?_
  refine stpQ (k := len s₀ - 32) hsecond c₁ h.hdstend (by omega) (by omega)
    fun m₂ tr₂ c₂ => ?_
  refine c₂.ends hret ?_
  intro i (hi : i < len s₀)
  have hbefore := hC i
  simp only [Set.mem_union, Set.mem_Ico]
  by_cases hp : i < p
  · exact .inl (.inl (hbefore hp))
  · omega

/-- A loop that fills 64 bytes a round, by induction on the count it runs down.
The invariant `Inv` is indexed by the offset filled up to. -/
theorem ends_loop (Inv : ℕ → State → Prop) {l : Label} (back : ℕ) {Q : Addr → State → Prop}
    (hlines : code[back]? = some (.op (.subs count count (.imm 64))) ∧
      code[back + 1]? = some (.bcond .hi l))
    (round : ∀ p s, Inv p s → p + 64 ≤ len s₀ →
      (∀ s', Inv (p + 64) s' → s'.reg count = s.reg count → Ends code back s' Q) →
      Ends code (target code l) s Q)
    (stable : ∀ p s, Inv p s → Inv p (exec (.subs count count (.imm 64)) s))
    (finish : ∀ p s, Inv p s → len s₀ ≤ p + 64 → Ends code (back + 2) s Q)
    {p c : ℕ} (h : Inv p s) (hcount : s.reg count = BitVec.ofNat 64 c)
    (hlen : len s₀ = p + 64 + c) :
    Ends code (target code l) s Q := by
  induction c using Nat.strong_induction_on generalizing p s with
  | _ c ih =>
      have hc : c < 2 ^ 64 := by have := len_le s₀; omega
      refine round p s h (by omega) fun s' h' hcount' => ?_
      have hvalue : (s'.reg count).toNat = c := by
        rw [hcount', hcount, BitVec.toNat_ofNat, Nat.mod_eq_of_lt hc]
      refine .op hlines.1 (.bcond hlines.2 (fun hmore => ?_) fun hdone => ?_)
      · rw [hi_subs (by norm_num), hvalue, decide_eq_true_eq] at hmore
        refine ih (c - 64) (by omega) (stable _ _ h') ?_ (by omega)
        rw [exec, State.reg_setFlags, State.reg_setReg_self, hcount', hcount, Operand.value]
        bv_omega
      · rw [hi_subs (by norm_num), hvalue, decide_eq_false_iff_not] at hdone
        exact finish _ _ (stable _ _ h') (by omega)

/-- One round of the loop of `dc zva`: the next aligned 64 bytes. -/
theorem zva_round {p : ℕ} {Q : Addr → State → Prop} (hblock : zvaBytes s₀.dczid = 64)
    (hzero : fill s₀ = 0) (h : Filled s₀ (-64) p s) (haligned : (s.reg dst).toNat % 64 = 0)
    (hroom : p + 64 ≤ len s₀)
    (next : ∀ s', Filled s₀ (-64) (p + 64) s' ∧ (s'.reg dst).toNat % 64 = 0 →
      s'.reg count = s.reg count → Ends code (target code .zva_loop + 3) s' Q) :
    Ends code (target code .zva_loop) s Q := by
  obtain ⟨C, hfilling, hC⟩ := h.filling
  have f : Frame [dst] s.reg (exec (.add dst dst (.imm 64)) s).reg := frame_setReg _ dst _
  have hdst : Points (exec (.add dst dst (.imm 64)) s).reg dst (s₀.reg dstin) p := by
    rw [points_natCast, exec, State.reg_setReg_self]
    exact h.hdst.value (i := 64) (by omega)
  have haligned' : ((exec (.add dst dst (.imm 64)) s).reg dst).toNat % 64 = 0 := by
    rw [exec, State.reg_setReg_self, Operand.value, BitVec.toNat_add, BitVec.toNat_ofNat]
    omega
  have hdstend : Points (exec (.add dst dst (.imm 64)) s).reg dstend (s₀.reg dstin) (len s₀) :=
    h.hdstend.frame f (by decide)
  have hcount : (exec (.add dst dst (.imm 64)) s).reg count = s.reg count := f _ (by decide)
  have hadvanced : Filling s₀ C (exec (.add dst dst (.imm 64)) s) :=
    hfilling.setReg _ (by decide)
  refine .label rfl (.op rfl ?_)
  refine dcZva rfl hadvanced hdst haligned' hblock hzero hroom fun m₁ tr₁ c₁ => ?_
  refine next _ ⟨⟨⟨_, c₁, ?_⟩, ?_, hdstend⟩, haligned'⟩ hcount
  · intro i hi
    by_cases hp : i < p
    · exact .inl (hC i hp)
    · exact .inr ⟨by omega, hi⟩
  · rwa [show ((p + 64 : ℕ) : ℤ) + -64 = p by omega]

/-- One round of the loop of stores. -/
theorem no_zva_round {p : ℕ} {Q : Addr → State → Prop} (h : Filled s₀ (-32) p s)
    (hroom : p + 64 ≤ len s₀)
    (next : ∀ s', Filled s₀ (-32) (p + 64) s' → s'.reg count = s.reg count →
      Ends code (target code .no_zva_loop + 3) s' Q) :
    Ends code (target code .no_zva_loop) s Q := by
  obtain ⟨C, hfilling, hC⟩ := h.filling
  refine .label rfl ?_
  refine stpQ (k := p) rfl hfilling h.hdst (by omega) (by omega) fun m₁ tr₁ c₁ => ?_
  refine stpQ_pre (k := p + 32) rfl c₁ h.hdst (by push_cast; omega) (by omega) (by decide)
    fun s₂ c₂ hdst f₂ => ?_
  refine next s₂ ⟨⟨_, c₂, ?_⟩, ?_, h.hdstend.frame f₂ (by decide)⟩ (f₂ _ (by decide))
  · intro i hi
    simp only [Set.mem_union, Set.mem_Ico]
    by_cases hp : i < p
    · exact .inl (.inl (hC i hp))
    · omega
  · rwa [show ((p + 64 : ℕ) : ℤ) + -32 = (p + 32 : ℕ) by omega]

/-! ## Aligning the destination -/

/-- How far the destination is past a multiple of sixteen. -/
def misalign (s₀ : State) : ℕ := (s₀.reg dstin).toNat % 16

/-- The first sixteen bytes are set and `dst` is the destination aligned down. -/
structure Aligned (s₀ s : State) : Prop where
  filling : Filling s₀ (Set.Ico 0 16) s
  hdst : Points s.reg dst (s₀.reg dstin) (-misalign s₀)
  hdstend : Points s.reg dstend (s₀.reg dstin) (len s₀)

theorem Aligned.setFlags (h : Aligned s₀ s) (flags : Flags) : Aligned s₀ (s.setFlags flags) :=
  { h with filling := h.filling.setFlags flags }

theorem Aligned.setReg (h : Aligned s₀ s) {r : Reg} (v : BitVec 64)
    (hr : (r ≠ .x 0 ∧ r ≠ .x 30) ∧ dst ∉ [r] ∧ dstend ∉ [r]) : Aligned s₀ (s.setReg r v) where
  filling := h.filling.setReg v hr.1
  hdst := h.hdst.frame (frame_setReg s r v) hr.2.1
  hdstend := h.hdstend.frame (frame_setReg s r v) hr.2.2

/-- `bic dst, dstin, 15` -/
theorem points_bic (h : s.reg dstin = s₀.reg dstin) :
    Points (exec (.bic dst dstin (.imm 15)) s).reg dst (s₀.reg dstin) (-misalign s₀) := by
  have hround : s₀.reg dstin &&& ~~~15#64 = s₀.reg dstin - BitVec.ofNat 64 (misalign s₀) :=
    and_not_lowMask (s₀.reg dstin) (k := 4) (by norm_num)
  rw [Points, ← sub_ofNat, ← hround, exec, State.reg_setReg_self, h]
  rfl

theorem misalign_lt (s₀ : State) : misalign s₀ < 16 := Nat.mod_lt _ (by norm_num)

/-- The three instructions before the loop of stores. -/
def biasNoZva (s : State) : State :=
  exec (.sub count count (.imm 80)) (exec (.sub dst dst (.imm 16))
    (exec (.sub count dstend (.reg dst)) s))

theorem biasNoZva_spec (h : Aligned s₀ s) {p c : ℕ} (hp : p + misalign s₀ = 16)
    (hc : len s₀ = p + 64 + c) :
    Filled s₀ (-32) p (biasNoZva s) ∧ (biasNoZva s).reg count = BitVec.ofNat 64 c := by
  have f : Frame [count, dst, count] s.reg (biasNoZva s).reg :=
    (frame_setReg _ count _).trans ((frame_setReg _ dst _).trans (frame_setReg _ count _))
  have hfilling : Filling s₀ (Set.Ico 0 16) (biasNoZva s) :=
    ((h.filling.setReg _ (by decide)).setReg _ (by decide)).setReg _ (by decide)
  refine ⟨⟨⟨_, hfilling, fun i hi => ⟨Nat.zero_le i, by omega⟩⟩, ?_,
    h.hdstend.frame f (by decide)⟩, ?_⟩
  · have hmoved := h.hdst.add (-16)
    rw [show -(misalign s₀ : ℤ) + -16 = p + -32 by omega] at hmoved
    calc (biasNoZva s).reg dst = s.reg dst - BitVec.ofNat 64 16 := rfl
      _ = s.reg dst + BitVec.ofInt 64 (-16) := sub_ofNat ..
      _ = s₀.reg dstin + BitVec.ofInt 64 (p + -32) := hmoved
  · have hsub := h.hdstend.sub h.hdst
    rw [show (len s₀ : ℤ) - -misalign s₀ = ((c + 80 : ℕ) : ℤ) by omega, BitVec.ofInt_natCast] at hsub
    calc (biasNoZva s).reg count = s.reg dstend - s.reg dst - BitVec.ofNat 64 80 := rfl
      _ = BitVec.ofNat 64 c := by rw [hsub]; bv_omega

/-- More than 96 bytes by stores. -/
theorem ends_no_zva (h : Aligned s₀ s) (hlo : 96 < len s₀) :
    Ends code (target code .no_zva) s (Post s₀) := by
  have hlt := misalign_lt s₀
  obtain ⟨p, hp⟩ : ∃ p, p + misalign s₀ = 16 := ⟨16 - misalign s₀, by omega⟩
  obtain ⟨c, hc⟩ := Nat.exists_eq_add_of_le (show p + 64 ≤ len s₀ by omega)
  obtain ⟨hfilled, hcount⟩ := biasNoZva_spec h hp hc
  refine .label rfl (.op rfl (.op rfl (.op rfl ?_)))
  exact ends_loop (Filled s₀ (-32)) (target code .no_zva_loop + 3) ⟨rfl, rfl⟩
    (fun p s => no_zva_round) (fun p s h => h.subs_count _)
    (fun p s h => ends_tail ⟨rfl, rfl, rfl⟩ h (by omega)) hfilled hcount hc

/-- The three instructions before the loop of `dc zva`. -/
def biasZva (s : State) : State :=
  exec (.sub count count (.imm 128)) (exec (.sub count dstend (.reg dst))
    (exec (.bic dst dst (.imm 63)) s))

/-- The aligned address rounded down once more, to a multiple of 64. -/
theorem bic63 (hdst : Points s.reg dst (s₀.reg dstin) (-misalign s₀)) :
    ∃ δ, δ < 64 ∧ misalign s₀ ≤ δ ∧
      s.reg dst &&& ~~~63#64 = s₀.reg dstin + BitVec.ofInt 64 (-δ) ∧
      (s.reg dst &&& ~~~63#64).toNat % 64 = 0 := by
  have hlt := misalign_lt s₀
  have hround : s.reg dst &&& ~~~63#64 = s.reg dst - BitVec.ofNat 64 ((s.reg dst).toNat % 64) :=
    and_not_lowMask (s.reg dst) (k := 6) (by norm_num)
  have hvalue : (s.reg dst).toNat = (s₀.reg dstin).toNat - misalign s₀ := by
    rw [show s.reg dst = _ from hdst, ← sub_ofNat]
    exact toNat_sub_mod (s₀.reg dstin) 16
  -- `dst` is a multiple of sixteen, so rounding it to 64 takes at most 48 more
  have hstep : (s.reg dst).toNat % 64 + misalign s₀ < 64 := by
    rw [hvalue]
    unfold misalign
    omega
  refine ⟨misalign s₀ + (s.reg dst).toNat % 64, by omega, by omega, ?_, ?_⟩
  · rw [hround, sub_ofNat, hdst.add]
    congr 2
    push_cast
    omega
  · rw [hround, toNat_sub_mod]
    omega

/-- What is left to count from an address `δ` bytes back, with 128 taken off for the blocks
outside the loop. -/
theorem count_bias (base : Addr) {p δ : ℕ} (h : p + δ = 64) (c : ℕ) :
    base + BitVec.ofNat 64 (p + 64 + c) - (base - BitVec.ofNat 64 δ) - BitVec.ofNat 64 128 =
      BitVec.ofNat 64 c := by
  obtain rfl : δ = 64 - p := by omega
  bv_omega

theorem biasZva_spec {C : Set ℕ} (hfilling : Filling s₀ C s)
    (hdst : Points s.reg dst (s₀.reg dstin) (-misalign s₀))
    (hdstend : Points s.reg dstend (s₀.reg dstin) (len s₀))
    (hC : ∀ i, i + misalign s₀ < 64 → i ∈ C) (hlo : 160 ≤ len s₀) :
    ∃ p c, len s₀ = p + 64 + c ∧ (biasZva s).reg count = BitVec.ofNat 64 c ∧
      Filled s₀ (-64) p (biasZva s) ∧ ((biasZva s).reg dst).toNat % 64 = 0 := by
  obtain ⟨δ, hδ, hle, hvalue, haligned⟩ := bic63 hdst
  obtain ⟨p, hp⟩ : ∃ p, p + δ = 64 := ⟨64 - δ, by omega⟩
  obtain ⟨c, hc⟩ := Nat.exists_eq_add_of_le (show p + 64 ≤ len s₀ by omega)
  have f : Frame [dst, count, count] s.reg (biasZva s).reg :=
    (frame_setReg _ dst _).trans ((frame_setReg _ count _).trans (frame_setReg _ count _))
  have hfilled : Filling s₀ C (biasZva s) :=
    ((hfilling.setReg _ (by decide)).setReg _ (by decide)).setReg _ (by decide)
  refine ⟨p, c, hc, ?_, ⟨⟨C, hfilled, fun i hi => hC i (by omega)⟩, ?_,
    hdstend.frame f (by decide)⟩, haligned⟩
  · have hlen : s.reg dstend = s₀.reg dstin + BitVec.ofNat 64 (p + 64 + c) := by
      rw [← hc]
      exact points_natCast.mp hdstend
    calc (biasZva s).reg count = s.reg dstend - (s.reg dst &&& ~~~63#64) - BitVec.ofNat 64 128 := rfl
      _ = BitVec.ofNat 64 c := by
          rw [hvalue, hlen, ← sub_ofNat, count_bias _ hp]
  · calc (biasZva s).reg dst = s.reg dst &&& ~~~63#64 := rfl
      _ = s₀.reg dstin + BitVec.ofInt 64 (p + -64) := by rw [hvalue]; congr 2; omega

/-- 160 or more zero bytes by blocks, when `dc zva` clears 64 bytes. -/
theorem ends_zva (h : Aligned s₀ s) (hlo : 160 ≤ len s₀) (hzero : fill s₀ = 0)
    (hblock : zvaBytes s₀.dczid = 64) : Ends code 50 s (Post s₀) := by
  have hlt := misalign_lt s₀
  obtain ⟨p, hp⟩ : ∃ p, p + misalign s₀ = 16 := ⟨16 - misalign s₀, by omega⟩
  refine strQ (k := p) rfl h.filling h.hdst (by omega) (by omega) fun m₁ tr₁ c₁ => ?_
  refine stpQ (k := p + 16) rfl c₁ h.hdst (by push_cast; omega) (by omega) fun m₂ tr₂ c₂ => ?_
  obtain ⟨q, c, hc, hcount, hfilled, haligned⟩ := biasZva_spec c₂ h.hdst h.hdstend
    (fun i hi => by
      simp only [Set.mem_union, Set.mem_Ico]
      omega) hlo
  refine .op rfl (.op rfl (.op rfl ?_))
  exact ends_loop (fun p s => Filled s₀ (-64) p s ∧ (s.reg dst).toNat % 64 = 0)
    (target code .zva_loop + 3) ⟨rfl, rfl⟩
    (fun p s h => zva_round hblock hzero h.1 h.2) (fun p s h => ⟨h.1.subs_count _, h.2⟩)
    (fun p s h => ends_tail ⟨rfl, rfl, rfl⟩ h.1 (by omega)) ⟨hfilled, haligned⟩ hcount hc

/-! ## The choice of the loop -/

/-- The flags of `ccmp valw, 0, 0, hs`: equal only when the comparison before it
found the count large and the fill byte is zero. -/
theorem ne_ccmp {n : ℕ} (hs : Cond.hs.holds s.flags = decide (160 ≤ n))
    (h : Cond.ne.holds (exec (.ccmp .w valw (.imm 0) ⟨false, false, false, false⟩ .hs) s).flags =
      false) : 160 ≤ n ∧ (s.reg valw).setWidth 32 = 0 := by
  rw [exec, State.flags_setFlags, hs] at h
  by_cases hcount : 160 ≤ n
  · rw [decide_eq_true hcount, if_pos rfl, compareFlags, ne_subFlags, decide_eq_false_iff_not,
      not_not] at h
    exact ⟨hcount, h⟩
  · rw [decide_eq_false hcount] at h
    cases h

/-- The check of `dczid_el0` passes only when `dc zva` clears 64 bytes. -/
theorem zvaBytes_of_cmp (h : Cond.ne.holds (exec (.cmp .x zva_val (.imm 4))
      (exec (.and .x zva_val zva_val (.imm 31)) (exec (.mrsDczid zva_val) s))).flags = false) :
    zvaBytes s.dczid = 64 := by
  have hfield : s.dczid &&& 31#64 = 4#64 := by
    have hne := ne_subFlags (s.dczid &&& 31#64) 4#64
    rw [show Cond.ne.holds (subFlags (s.dczid &&& 31#64) 4#64) = false from h] at hne
    exact not_not.mp (decide_eq_false_iff_not.mp hne.symm)
  have hmask : s.dczid &&& 31#64 = BitVec.ofNat 64 (s.dczid.toNat % 32) :=
    and_lowMask s.dczid (k := 5) (by norm_num)
  have hmod : s.dczid.toNat % 16 = 4 := by
    rw [hmask] at hfield
    have hvalue := congrArg BitVec.toNat hfield
    rw [BitVec.toNat_ofNat, BitVec.toNat_ofNat] at hvalue
    omega
  rw [zvaBytes, hmod]
  rfl

/-- The low byte of a register is zero if its low 32 bits are after `and valw, valw, 255`. -/
theorem fill_eq_zero {v : BitVec 64}
    (h : (((v &&& 255#64).setWidth 32).setWidth 64).setWidth 32 = (0 : BitVec 32)) :
    v.setWidth 8 = 0 := by
  apply BitVec.eq_of_toNat_eq
  have hmask : v &&& 255#64 = BitVec.ofNat 64 (v.toNat % 256) := and_lowMask v (k := 8) (by norm_num)
  rw [hmask] at h
  have hvalue := congrArg BitVec.toNat h
  simp only [BitVec.toNat_setWidth, BitVec.toNat_ofNat, BitVec.ofNat_eq_ofNat] at hvalue ⊢
  omega

/-- More than 96 bytes. -/
theorem ends_set_long (h : Entered s₀ s) (hlo : 96 < len s₀) :
    Ends code (target code .set_long) s (Post s₀) := by
  refine .label rfl (.op rfl (.op rfl ?_))
  have hdst := points_bic (s := exec (.and .w valw valw (.imm 255)) s)
    (points_zero.mp h.filling.hdstin)
  have f : Frame [valw, dst] s.reg
      (exec (.bic dst dstin (.imm 15)) (exec (.and .w valw valw (.imm 255)) s)).reg :=
    (frame_setReg s valw _).trans (frame_setReg _ dst _)
  have hfilling : Filling s₀ ∅
      (exec (.bic dst dstin (.imm 15)) (exec (.and .w valw valw (.imm 255)) s)) :=
    (h.filling.setReg _ (by decide)).setReg _ (by decide)
  have hval : (exec (.bic dst dstin (.imm 15)) (exec (.and .w valw valw (.imm 255)) s)).reg valw =
      ((s₀.reg valw &&& 255#64).setWidth 32).setWidth 64 := by
    rw [← h.hval]
    rfl
  generalize exec (.bic dst dstin (.imm 15)) _ = s₁ at hdst f hfilling hval ⊢
  refine strQ (k := 0) rfl hfilling hfilling.hdstin rfl (by omega) fun m₂ tr₂ c₂ => ?_
  have haligned : Aligned s₀ { s₁ with mem := m₂, trace := tr₂ } :=
    ⟨c₂.congr_set fun i => by simp, hdst, h.hdstend.frame f (by decide)⟩
  have hlen : (s₁.reg count).toNat = len s₀ := by rw [f _ (by decide), h.hcount, len]
  refine .op rfl (.op rfl (.bcond rfl (fun _ => ?_) fun heq => ?_))
  · exact ends_no_zva ((haligned.setFlags _).setFlags _) hlo
  obtain ⟨hlarge, hzero⟩ := ne_ccmp (hs_cmp (by norm_num)) heq
  refine .op rfl (.op rfl (.op rfl (.bcond rfl (fun _ => ?_) fun hblock => ?_)))
  · exact ends_no_zva (((((haligned.setFlags _).setFlags _).setReg _ (by decide)).setReg _
      (by decide)).setFlags _) hlo
  · refine ends_zva (((((haligned.setFlags _).setFlags _).setReg _ (by decide)).setReg _
      (by decide)).setFlags _) (hlarge.trans_eq hlen) (fill_eq_zero (hval ▸ hzero)) ?_
    rw [← c₂.dczid]
    exact zvaBytes_of_cmp hblock

end Long

/-! ## A call -/

/-- The first two instructions fill the lanes of `q0` and compute the end. -/
theorem entered (s : State) :
    Entered s (exec (.add dstend dstin (.reg count)) (exec (.dup16B q0 valw) s)) where
  filling :=
    { toOverwrites := ((Overwrites.refl (job s) s).setVec _ _).setReg _ (by decide)
      lanes := by
        change (s.setVec q0 (replicate16B (fill s))).vec q0 = replicate16B (fill s)
        rw [State.vec_setVec, if_pos rfl]
      dczid := rfl }
  hdstend := by
    rw [points_natCast, len, ptrAdd, BitVec.ofNat_toNat, BitVec.setWidth_eq]
    rfl
  hcount := rfl
  hval := rfl

/-- Whatever the arguments, a call fills its region and returns. -/
theorem ends_memset (s₀ : State) : Ends code (target code .memset) s₀ (Post s₀) := by
  refine .label rfl (.op rfl (.op rfl ?_))
  have h := entered s₀
  generalize exec (.add dstend dstin (.reg count)) _ = s at h ⊢
  have hlen : (s.reg count).toNat = len s₀ := by rw [h.hcount, len]
  refine .op rfl (.bcond rfl (fun hlong => ?_) fun hshort => ?_)
  · rw [hi_cmp (by norm_num), decide_eq_true_eq] at hlong
    exact ends_set_long (h.setFlags _) (hlong.trans_eq hlen)
  rw [hi_cmp (by norm_num), decide_eq_false_iff_not, not_lt] at hshort
  refine .op rfl (.bcond rfl (fun hmedium => ?_) fun hsmall => ?_)
  · rw [hs_cmp (by norm_num), decide_eq_true_eq] at hmedium
    exact ends_set_medium ((h.setFlags _).setFlags _) (hmedium.trans_eq hlen)
      (hlen.symm.trans_le hshort)
  · rw [hs_cmp (by norm_num), decide_eq_false_iff_not, not_le] at hsmall
    exact .op rfl (ends_upTo15 ((h.setFlags _).setFlags _).movD0 (hlen.symm.trans_lt hsmall))

/-- **The assembly `memset` agrees with the byte loop.**  For all arguments and
every value of `dczid_el0`, the listing terminates by returning to its caller
with the destination in `x0` and with the memory the byte loop leaves: the low
byte of `c` throughout the region, every other byte as it was.  It loads nothing
and stores only inside the region. -/
theorem memset_asm_agrees (s : State) :
    Ends code (target code .memset) s fun a t =>
      a = s.reg (.x 30) ∧
      (t.reg (.x 0), t.mem) =
        memset (s.reg dstin) ((s.reg valw).setWidth 32) (s.reg count) s.mem ∧
      (∀ k < (s.reg count).toNat, t.mem (ptrAdd (s.reg dstin) k) = (s.reg valw).setWidth 8) ∧
      (∀ x, ¬ Within (s.reg dstin) (s.reg count).toNat x → t.mem x = s.mem x) ∧
      TraceSince s t fun
        | .load b n => ∀ x, ¬ Within b n x
        | .store b n => ∀ x, Within b n x → Within (s.reg dstin) (s.reg count).toNat x := by
  refine (ends_memset s).mono fun a t hpost => ?_
  obtain ⟨hbytes, houtside⟩ := hpost.memory
  obtain ⟨hret, hfill⟩ := hpost
  refine ⟨hret, Prod.ext hfill.result ?_, hbytes, houtside, hfill.trace.mono fun access => ?_⟩
  · have hloop := memset_patched (s.reg dstin) ((s.reg valw).setWidth 32) (s.reg count) s.mem
    have hbyte : ((s.reg valw).setWidth 32).setWidth 8 = (s.reg valw).setWidth 8 :=
      BitVec.setWidth_setWidth_of_le _ (by norm_num)
    rw [hbyte] at hloop
    exact hfill.mem.unique hloop
  · intro hallow
    cases access with
    | load b n => exact fun x hx => absurd (hallow x hx) (Nat.not_lt_zero _)
    | store b n => exact hallow

end Mytilus.Str.MemsetAsm
