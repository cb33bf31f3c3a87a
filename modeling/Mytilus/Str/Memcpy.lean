import Mytilus.Str.MemcpyBlocks

/-!
# The assembly `memcpy` agrees with the byte loop

What is left is the path for more than 128 bytes, and the assembly of all paths
into the statement about a call.

The software-pipelined loop is described by `InFlight`: with `p` the offset of
the next byte the loop will store, the four register pairs hold the source bytes
from `p` to `p + 64`, already loaded and not yet stored.  The destination is
aligned down, so `dst` starts up to fifteen bytes before the region and `p` is
what is left of the first sixteen bytes past the aligned address; those bytes
have been stored before the loop, whence the `max 16 p`.
-/

namespace Mytilus.Str.MemcpyAsm

open AArch64 Memory

section Long

variable {s₀ s : State} {p : ℕ}

/-- Between two rounds of the loop. -/
structure InFlight (s₀ : State) (p : ℕ) (s : State) : Prop where
  copying : Copying s₀ (Set.Iio (max 16 p)) s
  hA : HoldsPair s₀ s.reg A_l A_h p
  hB : HoldsPair s₀ s.reg B_l B_h (p + 16)
  hC : HoldsPair s₀ s.reg C_l C_h (p + 32)
  hD : HoldsPair s₀ s.reg D_l D_h (p + 48)
  hdst : Points s.reg dst (s₀.reg dstin) (p - 16)
  hsrc : Points s.reg src (s₀.reg src) (p + 48)
  hsrcend : Points s.reg srcend (s₀.reg src) (len s₀)
  hdstend : Points s.reg dstend (s₀.reg dstin) (len s₀)

/-- Counting down changes neither the pipeline nor the pointers. -/
theorem InFlight.subs_count (h : InFlight s₀ p s) (m : Operand) :
    InFlight s₀ p (exec (.subs count count m) s) := by
  have f : Frame [count] s.reg (exec (.subs count count m) s).reg := frame_setReg _ count _
  exact
    { copying := (h.copying.setReg _ (by decide)).setFlags _
      hA := h.hA.frame f (by decide)
      hB := h.hB.frame f (by decide)
      hC := h.hC.frame f (by decide)
      hD := h.hD.frame f (by decide)
      hdst := h.hdst.frame f (by decide)
      hsrc := h.hsrc.frame f (by decide)
      hsrcend := h.hsrcend.frame f (by decide)
      hdstend := h.hdstend.frame f (by decide) }

variable (hahead : Ahead s₀)
include hahead

/-- Store a pair and load it again from further on, past all that has been stored. -/
theorem exchange {C : Set ℕ} {pc k j : ℕ} {lo hi base base' : Reg} {imm imm' z z' : ℤ}
    {Q : Addr → State → Prop}
    (hlines : code[pc]? = some (.op (.stp lo hi (.off base imm))) ∧
      code[pc + 1]? = some (.op (.ldp lo hi (.off base' imm')))) (h : Copying s₀ C s)
    (hpair : HoldsPair s₀ s.reg lo hi k) (hbase : Points s.reg base (s₀.reg dstin) z)
    (hz : z + imm = k) (hk : k + 16 ≤ len s₀)
    (hbase' : Points s.reg base' (s₀.reg src) z') (hz' : z' + imm' = j) (hj : j + 16 ≤ len s₀)
    (hstored : C ⊆ Set.Iio j) (hkj : k + 16 ≤ j)
    (hfree : (lo ≠ .x 0 ∧ lo ≠ .x 30) ∧ (hi ≠ .x 0 ∧ hi ≠ .x 30) ∧ lo ≠ hi)
    (next : ∀ s', Copying s₀ (C ∪ Set.Ico k (k + 16)) s' → C ∪ Set.Ico k (k + 16) ⊆ Set.Iio j →
      HoldsPair s₀ s'.reg lo hi j → Frame [lo, hi] s.reg s'.reg → Ends code (pc + 2) s' Q) :
    Ends code pc s Q := by
  have hstored' : C ∪ Set.Ico k (k + 16) ⊆ Set.Iio j :=
    Set.union_subset hstored fun i hi => hi.2.trans_le hkj
  refine stp hlines.1 h hpair hbase hz hk fun m₁ tr₁ c₁ => ?_
  exact ldp (hahead.clear hstored' hj) hlines.2 c₁ hbase' hz' hj hfree
    fun s' c => next s' c hstored'

/-- The last 64 bytes of the pipeline, then 64 bytes from the end. -/
theorem ends_copy64_from_end (h : InFlight s₀ p s) (hlo : 80 ≤ len s₀) (hroom : p + 64 ≤ len s₀)
    (hhi : len s₀ ≤ p + 128) : Ends code (target code .copy64_from_end) s (Post s₀) := by
  have hstored : Set.Iio (max 16 p) ⊆ Set.Iio (len s₀ - 64) := Set.Iio_subset_Iio (by omega)
  refine .label rfl ?_
  refine ldp (k := len s₀ - 64) (hahead.clear hstored (by omega)) rfl h.copying h.hsrcend (by omega)
    (by omega) (by decide) fun s₁ c₁ hE f₁ => ?_
  refine exchange (j := len s₀ - 48) hahead ⟨rfl, rfl⟩ c₁ (h.hA.frame f₁ (by decide))
    (h.hdst.frame f₁ (by decide)) (by omega) (by omega) (h.hsrcend.frame f₁ (by decide))
    (by omega) (by omega) (hstored.trans (Set.Iio_subset_Iio (by omega))) (by omega) (by decide)
    fun s₂ c₂ hstored₂ hA f₂ => ?_
  have f₂' := f₁.trans f₂
  refine exchange (j := len s₀ - 32) hahead ⟨rfl, rfl⟩ c₂ (h.hB.frame f₂' (by decide))
    (h.hdst.frame f₂' (by decide)) (by push_cast; omega) (by omega)
    (h.hsrcend.frame f₂' (by decide)) (by omega) (by omega)
    (hstored₂.trans (Set.Iio_subset_Iio (by omega))) (by omega) (by decide)
    fun s₃ c₃ hstored₃ hB f₃ => ?_
  have f₃' := f₂'.trans f₃
  refine exchange (j := len s₀ - 16) hahead ⟨rfl, rfl⟩ c₃ (h.hC.frame f₃' (by decide))
    (h.hdst.frame f₃' (by decide)) (by push_cast; omega) (by omega)
    (h.hsrcend.frame f₃' (by decide)) (by omega) (by omega)
    (hstored₃.trans (Set.Iio_subset_Iio (by omega))) (by omega) (by decide)
    fun s₄ c₄ _ hC f₄ => ?_
  have f₄' := f₃'.trans f₄
  have hdstend : Points s₄.reg dstend (s₀.reg dstin) (len s₀) := h.hdstend.frame f₄' (by decide)
  refine stp rfl c₄ (h.hD.frame f₄' (by decide)) (h.hdst.frame f₄' (by decide))
    (by push_cast; omega) (by omega) fun m₅ tr₅ c₅ => ?_
  refine stp rfl c₅ (hE.frame (f₂.trans (f₃.trans f₄)) (by decide)) hdstend (by omega) (by omega)
    fun m₆ tr₆ c₆ => ?_
  refine stp rfl c₆ (hA.frame (f₃.trans f₄) (by decide)) hdstend (by omega) (by omega)
    fun m₇ tr₇ c₇ => ?_
  refine stp rfl c₇ (hB.frame f₄ (by decide)) hdstend (by omega) (by omega)
    fun m₈ tr₈ c₈ => ?_
  refine stp rfl c₈ hC hdstend (by omega) (by omega) fun m₉ tr₉ c₉ => ?_
  refine c₉.ends rfl fun i (hi : i < len s₀) => ?_
  simp only [Set.mem_union, Set.mem_Ico, Set.mem_Iio]
  omega

/-- One round of the loop. -/
theorem loop64_round {Q : Addr → State → Prop} (h : InFlight s₀ p s)
    (hroom : p + 128 < len s₀)
    (next : ∀ s', InFlight s₀ (p + 64) s' → s'.reg count = s.reg count →
      Ends code (target code .loop64 + 9) s' Q) :
    Ends code (target code .loop64) s Q := by
  refine .label rfl ?_
  refine exchange (j := p + 64) hahead ⟨rfl, rfl⟩ h.copying h.hA h.hdst (by omega) (by omega)
    h.hsrc (by push_cast; omega) (by omega) (Set.Iio_subset_Iio (by omega)) (by omega) (by decide)
    fun s₁ c₁ hstored₁ hA f₁ => ?_
  refine exchange (j := p + 80) hahead ⟨rfl, rfl⟩ c₁ (h.hB.frame f₁ (by decide))
    (h.hdst.frame f₁ (by decide)) (by push_cast; omega) (by omega)
    (h.hsrc.frame f₁ (by decide)) (by push_cast; omega) (by omega)
    (hstored₁.trans (Set.Iio_subset_Iio (by omega))) (by omega) (by decide)
    fun s₂ c₂ hstored₂ hB f₂ => ?_
  have f₂' := f₁.trans f₂
  refine exchange (j := p + 96) hahead ⟨rfl, rfl⟩ c₂ (h.hC.frame f₂' (by decide))
    (h.hdst.frame f₂' (by decide)) (by push_cast; omega) (by omega)
    (h.hsrc.frame f₂' (by decide)) (by push_cast; omega) (by omega)
    (hstored₂.trans (Set.Iio_subset_Iio (by omega))) (by omega) (by decide)
    fun s₃ c₃ hstored₃ hC f₃ => ?_
  have f₃' := f₂'.trans f₃
  refine stp_pre rfl c₃ (h.hD.frame f₃' (by decide)) (h.hdst.frame f₃' (by decide))
    (by push_cast; omega) (by omega) (by decide) fun s₄ c₄ hdst f₄ => ?_
  have f₄' := f₃'.trans f₄
  have hstored₄ : _ ∪ Set.Ico (p + 48) (p + 48 + 16) ⊆ Set.Iio (p + 112) :=
    Set.union_subset (hstored₃.trans (Set.Iio_subset_Iio (by omega))) fun i hi =>
      hi.2.trans_le (by omega)
  refine ldp_pre (k := p + 112) (hahead.clear hstored₄ (by omega)) rfl c₄
    (h.hsrc.frame f₄' (by decide)) (by push_cast; omega) (by omega) (by decide) (by decide)
    fun s₅ c₅ hD hsrc f₅ => ?_
  have f := f₄'.trans f₅
  refine next s₅ ?_ (f _ (by decide))
  exact
    { copying := c₅.congr_set fun i => by
        simp only [Set.mem_union, Set.mem_Ico, Set.mem_Iio]
        omega
      hA := hA.frame (f₂.trans (f₃.trans (f₄.trans f₅))) (by decide)
      hB := hB.frame (f₃.trans (f₄.trans f₅)) (by decide)
      hC := hC.frame (f₄.trans f₅) (by decide)
      hD := hD
      hdst := by
        have hmoved := hdst.frame f₅ (by decide)
        rwa [show (p : ℤ) - 16 + 64 = (p + 64 : ℕ) - 16 by push_cast; ring] at hmoved
      hsrc := by rwa [show (p : ℤ) + 48 + 64 = (p + 64 : ℕ) + 48 by push_cast; ring] at hsrc
      hsrcend := h.hsrcend.frame f (by decide)
      hdstend := h.hdstend.frame f (by decide) }

/-- The loop, by induction on the count it runs down. -/
theorem ends_loop64 {c : ℕ} (h : InFlight s₀ p s) (hcount : s.reg count = BitVec.ofNat 64 c)
    (hpos : 0 < c) (hlen : len s₀ = p + 128 + c) :
    Ends code (target code .loop64) s (Post s₀) := by
  induction c using Nat.strong_induction_on generalizing p s with
  | _ c ih =>
      have hc : c < 2 ^ 64 := by have := len_le s₀; omega
      refine loop64_round hahead h (by omega) fun s' h' hcount' => ?_
      have hvalue : (s'.reg count).toNat = c := by
        rw [hcount', hcount, BitVec.toNat_ofNat, Nat.mod_eq_of_lt hc]
      refine .op rfl (.bcond rfl (fun hmore => ?_) fun hdone => ?_)
      · rw [hi_subs (by norm_num), hvalue, decide_eq_true_eq] at hmore
        refine ih (c - 64) (by omega) (h'.subs_count _) ?_ (by omega) (by omega)
        rw [exec, State.reg_setFlags, State.reg_setReg_self, hcount', hcount, Operand.value]
        bv_omega
      · rw [hi_subs (by norm_num), hvalue, decide_eq_false_iff_not] at hdone
        rw [show target code .loop64 + 9 + 1 + 1 = target code .copy64_from_end by decide]
        exact ends_copy64_from_end hahead (h'.subs_count _) (by omega) (by omega) (by omega)

omit hahead

/-- The four instructions that align the destination down, and move the source
pointer and the count along with it. -/
def alignDst (s : State) : State :=
  exec (.add count count (.reg tmp1)) (exec (.sub src src (.reg tmp1))
    (exec (.bic dst dstin (.imm 15)) (exec (.and .x tmp1 dstin (.imm 15)) s)))

theorem frame_alignDst : Frame [tmp1, dst, src, count] s.reg (alignDst s).reg :=
  (frame_setReg _ tmp1 _).trans ((frame_setReg _ dst _).trans
    ((frame_setReg _ src _).trans (frame_setReg _ count _)))

theorem Copying.alignDst {C : Set ℕ} (h : Copying s₀ C s) : Copying s₀ C (alignDst s) :=
  (((h.setReg _ (by decide)).setReg _ (by decide)).setReg _ (by decide)).setReg _ (by decide)

/-- How far the destination is past a multiple of sixteen. -/
def misalign (s₀ : State) : ℕ := (s₀.reg dstin).toNat % 16

theorem misalign_lt (s₀ : State) : misalign s₀ < 16 := Nat.mod_lt _ (by norm_num)

/-- All three are moved by the misalignment: both pointers down, the count up. -/
theorem alignDst_spec (h : s.reg dstin = s₀.reg dstin) (hsrc : s.reg src = s₀.reg src)
    (hcount : s.reg count = s₀.reg count) :
    Points (alignDst s).reg dst (s₀.reg dstin) (-misalign s₀) ∧
      Points (alignDst s).reg src (s₀.reg src) (-misalign s₀) ∧
      (alignDst s).reg count = BitVec.ofNat 64 (len s₀ + misalign s₀) := by
  have hmask : s.reg dstin &&& 15#64 = BitVec.ofNat 64 (misalign s₀) := by
    rw [h]
    exact and_lowMask (s₀.reg dstin) (k := 4) (by norm_num)
  have hround : s.reg dstin &&& ~~~15#64 = s₀.reg dstin - BitVec.ofNat 64 (misalign s₀) := by
    rw [h]
    exact and_not_lowMask (s₀.reg dstin) (k := 4) (by norm_num)
  refine ⟨?_, ?_, ?_⟩
  · rw [Points, ← sub_ofNat, ← hround]
    rfl
  · rw [Points, ← sub_ofNat, ← hmask, ← hsrc]
    rfl
  · rw [BitVec.ofNat_add, ← hmask, len, BitVec.ofNat_toNat, BitVec.setWidth_eq, ← hcount]
    rfl

include hahead

/-- More than 128 bytes: sixteen at the start, then the pipeline from the next
aligned address on. -/
theorem ends_copy_long (hfit : len s₀ + misalign s₀ < 2 ^ 64) (h : Entered s₀ s)
    (hlo : 128 < len s₀) : Ends code (target code .copy_long) s (Post s₀) := by
  have ht := misalign_lt s₀
  obtain ⟨p, hp⟩ : ∃ p, p + misalign s₀ = 16 := ⟨16 - misalign s₀, by omega⟩
  refine .label rfl ?_
  refine ldp (k := 0) clear_empty rfl h.copying h.hsrc rfl (by omega) (by decide)
    fun s₁ c₁ hD f₁ => ?_
  have hcount₁ : s₁.reg count = s₀.reg count := (f₁ _ (by decide)).trans h.hcount
  obtain ⟨hdst₂, hsrc₂, hcount₂⟩ := alignDst_spec (points_zero.mp c₁.hdstin)
    (points_zero.mp (h.hsrc.frame f₁ (by decide))) hcount₁
  have c₂ := c₁.alignDst
  have f₂ := frame_alignDst (s := s₁)
  refine .op rfl (.op rfl (.op rfl (.op rfl ?_)))
  change Ends code _ (alignDst s₁) _
  generalize alignDst s₁ = s₂ at hdst₂ hsrc₂ hcount₂ c₂ f₂ ⊢
  refine ldp (k := p) clear_empty rfl c₂ hsrc₂ (by omega) (by omega) (by decide)
    fun s₃ c₃ hA f₃ => ?_
  refine stp rfl c₃ (hD.frame (f₂.trans f₃) (by decide)) c₃.hdstin rfl (by omega)
    fun m₄ tr₄ c₄ => ?_
  have hstored : ∅ ∪ Set.Ico 0 (0 + 16) ⊆ Set.Iio (p + 16) :=
    Set.union_subset (Set.empty_subset _) fun i hi => hi.2.trans_le (by omega)
  refine ldp (k := p + 16) (hahead.clear hstored (by omega)) rfl c₄ (hsrc₂.frame f₃ (by decide))
    (by push_cast; omega) (by omega) (by decide) fun s₅ c₅ hB f₅ => ?_
  have f₅' : Frame _ s₂.reg s₅.reg := f₃.trans f₅
  refine ldp (k := p + 32)
    (hahead.clear (hstored.trans (Set.Iio_subset_Iio (by omega))) (by omega)) rfl c₅
    (hsrc₂.frame f₅' (by decide)) (by push_cast; omega) (by omega) (by decide)
    fun s₆ c₆ hC f₆ => ?_
  refine ldp_pre (k := p + 48)
    (hahead.clear (hstored.trans (Set.Iio_subset_Iio (by omega))) (by omega)) rfl c₆
    (hsrc₂.frame (f₅'.trans f₆) (by decide)) (by push_cast; omega) (by omega) (by decide)
    (by decide) fun s₇ c₇ hD hsrc f₇ => ?_
  have f : Frame _ s₂.reg s₇.reg := f₅'.trans (f₆.trans f₇)
  -- sixteen bytes are stored and four pairs are loaded: the pipeline is full
  have hflight : InFlight s₀ p s₇ :=
    { copying := c₇.congr_set fun i => by
        simp only [Set.mem_union, Set.mem_Ico, Set.mem_empty_iff_false, false_or, Set.mem_Iio]
        omega
      hA := hA.frame (f₅.trans (f₆.trans f₇)) (by decide)
      hB := hB.frame (f₆.trans f₇) (by decide)
      hC := hC.frame f₇ (by decide)
      hD := hD
      hdst := by
        rw [show (p : ℤ) - 16 = -misalign s₀ by omega]
        exact hdst₂.frame f (by decide)
      hsrc := by rwa [show -(misalign s₀ : ℤ) + 64 = p + 48 by omega] at hsrc
      hsrcend := h.hsrcend.frame (f₁.trans (f₂.trans f)) (by decide)
      hdstend := h.hdstend.frame (f₁.trans (f₂.trans f)) (by decide) }
  have hcount₇ : s₇.reg count = BitVec.ofNat 64 (len s₀ + misalign s₀) :=
    (f _ (by decide)).trans hcount₂
  have hvalue : (s₇.reg count).toNat = len s₀ + misalign s₀ := by
    rw [hcount₇, BitVec.toNat_ofNat, Nat.mod_eq_of_lt (by omega)]
  -- a count of at most 144 does not enter the loop
  refine .op rfl (.bcond rfl (fun hfew => ?_) fun hmany => ?_)
  · rw [ls_subs (by norm_num), hvalue, decide_eq_true_eq] at hfew
    exact ends_copy64_from_end hahead (hflight.subs_count _) (by omega) (by omega) (by omega)
  · rw [ls_subs (by norm_num), hvalue, decide_eq_false_iff_not] at hmany
    refine ends_loop64 (c := len s₀ + misalign s₀ - 144) hahead (hflight.subs_count _) ?_
      (by omega) (by omega)
    rw [exec, State.reg_setFlags, State.reg_setReg_self, hcount₇, Operand.value]
    bv_omega

end Long

/-! ## A call -/

theorem Entered.setFlags {s₀ s : State} (h : Entered s₀ s) (flags : Flags) :
    Entered s₀ (s.setFlags flags) :=
  { h with copying := h.copying.setFlags flags }

/-- The first two instructions compute the ends of the two regions. -/
theorem entered (s : State) :
    Entered s (exec (.add dstend dstin (.reg count)) (exec (.add srcend src (.reg count)) s)) where
  copying := ((Overwrites.refl (job s) s).setReg _ (by decide)).setReg _ (by decide)
  hsrc := points_zero.mpr rfl
  hsrcend := by
    rw [points_natCast, len, ptrAdd, BitVec.ofNat_toNat, BitVec.setWidth_eq]
    rfl
  hdstend := by
    rw [points_natCast, len, ptrAdd, BitVec.ofNat_toNat, BitVec.setWidth_eq]
    rfl
  hcount := rfl

/-- Whatever the count, a call copies its region as it was and returns, if the
long path finds the source ahead of the destination. -/
theorem ends_memcpy_of_ahead (s₀ : State)
    (hlong : 128 < len s₀ → Ahead s₀ ∧ len s₀ + misalign s₀ < 2 ^ 64) :
    Ends code (target code .memcpy) s₀ (Post s₀) := by
  refine .label rfl (.op rfl (.op rfl ?_))
  have h := entered s₀
  generalize exec (.add dstend dstin (.reg count)) _ = s at h ⊢
  have hlen : (s.reg count).toNat = len s₀ := by rw [h.hcount, len]
  refine .op rfl (.bcond rfl (fun hmore => ?_) fun hshort => ?_)
  · rw [hi_cmp (by norm_num), decide_eq_true_eq] at hmore
    obtain ⟨hahead, hfit⟩ := hlong (hmore.trans_eq hlen)
    exact ends_copy_long hahead hfit (h.setFlags _) (hmore.trans_eq hlen)
  rw [hi_cmp (by norm_num), decide_eq_false_iff_not, not_lt] at hshort
  refine .op rfl (.bcond rfl (fun hmedium => ?_) fun hsmall => ?_)
  · rw [hi_cmp (by norm_num), decide_eq_true_eq] at hmedium
    exact ends_copy32_128 ((h.setFlags _).setFlags _) (hmedium.trans_eq hlen)
      (hlen.symm.trans_le hshort)
  rw [hi_cmp (by norm_num), decide_eq_false_iff_not, not_lt] at hsmall
  refine .op rfl (.bcond rfl (fun hfew => ?_) fun hmany => ?_)
  · rw [lo_cmp (by norm_num), decide_eq_true_eq] at hfew
    exact ends_copy16 (((h.setFlags _).setFlags _).setFlags _) (hlen.symm.trans_lt hfew)
  · rw [lo_cmp (by norm_num), decide_eq_false_iff_not, not_lt] at hmany
    exact ends_small (((h.setFlags _).setFlags _).setFlags _) (hmany.trans_eq hlen)
      (hlen.symm.trans_le hsmall)

theorem ahead_of_separate {s₀ : State}
    (hsep : Separate (s₀.reg dstin) (len s₀) (s₀.reg src) (len s₀)) : Ahead s₀ := by
  intro j hj
  refine not_lt.mp fun hlt => ?_
  exact hsep _ (lt_trans hlt hj) (within_ptrAdd hj (len_le s₀))

/-- Between separate regions. -/
theorem ends_memcpy (s₀ : State)
    (hsep : Separate (s₀.reg dstin) (len s₀) (s₀.reg src) (len s₀)) :
    Ends code (target code .memcpy) s₀ (Post s₀) := by
  have hhalf : 2 * len s₀ ≤ 2 ^ 64 := hsep.two_mul_le (len_le s₀)
  have hmis := misalign_lt s₀
  exact ends_memcpy_of_ahead s₀ fun _ => ⟨ahead_of_separate hsep, by omega⟩

/-- **The assembly `memcpy` agrees with the byte loop.**  For every count and all
addresses whose regions are separate, the listing terminates by returning to its
caller with the destination in `x0` and with the memory the byte loop leaves:
the old source bytes in the destination, every other byte as it was.  It loads
only source bytes and stores only destination bytes. -/
theorem memcpy_asm_agrees (s : State)
    (hsep : Separate (s.reg dstin) (s.reg count).toNat (s.reg src) (s.reg count).toNat) :
    Ends code (target code .memcpy) s fun a t =>
      a = s.reg (.x 30) ∧
      (t.reg (.x 0), t.mem) = memcpy (s.reg dstin) (s.reg src) (s.reg count) s.mem ∧
      (∀ k < (s.reg count).toNat, t.mem (ptrAdd (s.reg dstin) k) = s.mem (ptrAdd (s.reg src) k)) ∧
      (∀ x, ¬ Within (s.reg dstin) (s.reg count).toNat x → t.mem x = s.mem x) ∧
      TraceSince s t fun
        | .load b n => ∀ x, Within b n x → Within (s.reg src) (s.reg count).toNat x
        | .store b n => ∀ x, Within b n x → Within (s.reg dstin) (s.reg count).toNat x := by
  refine (ends_memcpy s hsep).mono fun a t hpost => ?_
  obtain ⟨hbytes, houtside⟩ := hpost.memory
  obtain ⟨hret, hcopy⟩ := hpost
  refine ⟨hret, Prod.ext hcopy.result ?_, hbytes, houtside, hcopy.trace.mono fun access => ?_⟩
  · exact hcopy.mem.unique (memcpy_patched s.mem hsep)
  · cases access <;> exact id

/-- Two hundred bytes between two misaligned addresses: the long path. -/
theorem memcpy_asm_agrees_two_hundred :
    Ends code (target code .memcpy) (.call (fun a => a.setWidth 8) 0x1003 0x2005 200 0x400)
      fun a t => a = 0x400 ∧ t.reg (.x 0) = 0x1003 ∧ t.mem 0x10ca = 0xcc := by
  have hcall := memcpy_asm_agrees (.call (fun a => a.setWidth 8) 0x1003 0x2005 200 0x400)
    (separate_of_add_le (by decide) (by decide))
  refine hcall.mono fun a t hpost => ?_
  obtain ⟨hret, hresult, hbytes, -, -⟩ := hpost
  exact ⟨hret, congrArg Prod.fst hresult, hbytes 199 (by decide)⟩

end Mytilus.Str.MemcpyAsm
