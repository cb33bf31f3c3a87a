import Mytilus.AArch64.Overwrite
import Mytilus.Str.Mem
import Mytilus.Str.MemsetAsm

/-!
# The assembly `memset` fills its region

Every store of the listing is of a register whose bytes are all the fill byte,
so a block is correct when the intervals it stores cover the region and stay
inside it.  `Filling` is the fact carried along: the offsets stored so far, with
the vector register `q0` still holding sixteen fill bytes.  This file has the
rules for the stores and the blocks for up to 96 bytes.
-/

namespace Mytilus.Str.MemsetAsm

open AArch64 Memory

/-- The number of bytes a call sets. -/
def len (s₀ : State) : ℕ := (s₀.reg count).toNat

/-- The byte a call sets them to. -/
def fill (s₀ : State) : Byte := (s₀.reg valw).setWidth 8

/-- A call's job: the fill byte throughout, and nothing to read. -/
def job (s₀ : State) : Job where
  dest := s₀.reg dstin
  len := len s₀
  byte := fun _ => fill s₀
  src := s₀.reg dstin
  srcLen := 0
  len_le := (s₀.reg count).isLt.le
  srcLen_le := Nat.zero_le _

/-- The offsets in `C` are set, and `q0` holds the fill byte in every lane. -/
structure Filling (s₀ : State) (C : Set ℕ) (s : State) : Prop
    extends Overwrites (job s₀) C s₀ s where
  lanes : s.vec q0 = replicate16B (fill s₀)
  dczid : s.dczid = s₀.dczid

abbrev Post (s₀ : State) : Addr → State → Prop := Overwritten (job s₀) s₀

theorem len_le (s₀ : State) : len s₀ ≤ 2 ^ 64 := (s₀.reg count).isLt.le

/-! ## Bytes of the registers that are stored -/

theorem byteOf_replicate16B (b : Byte) {i : ℕ} (hi : i < 16) : byteOf (replicate16B b) i = b := by
  apply BitVec.eq_of_getLsbD_eq
  intro j hj
  rw [getLsbD_byteOf, replicate16B, BitVec.getLsbD_replicate, decide_eq_true hj,
    decide_eq_true (by omega), Bool.true_and, Bool.true_and,
    show (8 * i + j) % 8 = j by omega]

theorem byteOf_zero (w i : ℕ) : byteOf (BitVec.zero w) i = 0 := by
  apply BitVec.eq_of_getLsbD_eq
  intro j _
  rw [getLsbD_byteOf, show BitVec.zero w = 0#w from rfl, BitVec.getLsbD_zero, Bool.and_false]
  exact BitVec.getLsbD_zero.symm

theorem byteOf_replicate16B_append (b : Byte) {i : ℕ} (hi : i < 32) :
    byteOf (replicate16B b ++ replicate16B b) i = b := by
  rcases Nat.lt_or_ge i 16 with hlt | hge
  · rw [byteOf_append_low (n := 16) _ _ hlt, byteOf_replicate16B b hlt]
  · obtain ⟨j, rfl⟩ := Nat.exists_eq_add_of_le hge
    rw [byteOf_append_high (n := 16), byteOf_replicate16B b (by omega)]

section Rules

variable {s₀ s : State} {C : Set ℕ} {pc k : ℕ} {Q : Addr → State → Prop}

theorem Filling.congr_set {C' : Set ℕ} (h : Filling s₀ C s) (heq : ∀ i, i ∈ C ↔ i ∈ C') :
    Filling s₀ C' s :=
  { h.toOverwrites.congr_set heq with lanes := h.lanes, dczid := h.dczid }

theorem Filling.setReg (h : Filling s₀ C s) {r : Reg} (v : BitVec 64)
    (hr : r ≠ .x 0 ∧ r ≠ .x 30) : Filling s₀ C (s.setReg r v) :=
  { h.toOverwrites.setReg v hr with lanes := h.lanes, dczid := h.dczid }

theorem Filling.setFlags (h : Filling s₀ C s) (flags : Flags) : Filling s₀ C (s.setFlags flags) :=
  { h.toOverwrites.setFlags flags with lanes := h.lanes, dczid := h.dczid }

theorem Filling.hdstin (h : Filling s₀ C s) : Points s.reg dstin (s₀.reg dstin) 0 :=
  points_zero.mpr h.result

theorem Filling.store (h : Filling s₀ C s) {a : Addr} {n w : ℕ} {v : BitVec w}
    (ha : a = ptrAdd (s₀.reg dstin) k) (hk : k + n ≤ len s₀) (hv : ∀ i < n, byteOf v i = fill s₀) :
    Filling s₀ (C ∪ Set.Ico k (k + n)) (s.store a n v) :=
  { h.toOverwrites.store ha hk hv with lanes := h.lanes, dczid := h.dczid }

theorem Filling.byteOf_pair (h : Filling s₀ C s) :
    ∀ i < 32, byteOf (s.vec q0 ++ s.vec q0) i = fill s₀ := by
  intro i hi
  rw [h.lanes, byteOf_replicate16B_append _ hi]

/-! ## One rule for each kind of store -/

theorem store {t base : Reg} {n : ℕ} {imm z : ℤ}
    (hline : code[pc]? = some (.op (.store n t (.off base imm)))) (h : Filling s₀ C s)
    (hreg : ∀ i < n, byteOf (s.reg t) i = fill s₀) (hbase : Points s.reg base (s₀.reg dstin) z)
    (hz : z + imm = k) (hk : k + n ≤ len s₀)
    (next : ∀ mem trace, Filling s₀ (C ∪ Set.Ico k (k + n)) { s with mem, trace } →
      Ends code (pc + 1) { s with mem, trace } Q) :
    Ends code pc s Q :=
  Ends.op hline (next _ _ (h.store (hbase.value hz) hk hreg))

theorem strQ {base : Reg} {imm z : ℤ} (hline : code[pc]? = some (.op (.strQ q0 (.off base imm))))
    (h : Filling s₀ C s) (hbase : Points s.reg base (s₀.reg dstin) z)
    (hz : z + imm = k) (hk : k + 16 ≤ len s₀)
    (next : ∀ mem trace, Filling s₀ (C ∪ Set.Ico k (k + 16)) { s with mem, trace } →
      Ends code (pc + 1) { s with mem, trace } Q) :
    Ends code pc s Q :=
  Ends.op hline (next _ _ (h.store (hbase.value hz) hk fun i hi => by
    rw [h.lanes, byteOf_replicate16B _ hi]))

theorem stpQ {base : Reg} {imm z : ℤ}
    (hline : code[pc]? = some (.op (.stpQ q0 q0 (.off base imm)))) (h : Filling s₀ C s)
    (hbase : Points s.reg base (s₀.reg dstin) z) (hz : z + imm = k) (hk : k + 32 ≤ len s₀)
    (next : ∀ mem trace, Filling s₀ (C ∪ Set.Ico k (k + 32)) { s with mem, trace } →
      Ends code (pc + 1) { s with mem, trace } Q) :
    Ends code pc s Q :=
  Ends.op hline (next _ _ (h.store (hbase.value hz) hk h.byteOf_pair))

/-- The pre-indexed form, which moves the base register to the stored offset. -/
theorem stpQ_pre {base : Reg} {imm z : ℤ}
    (hline : code[pc]? = some (.op (.stpQ q0 q0 (.pre base imm)))) (h : Filling s₀ C s)
    (hbase : Points s.reg base (s₀.reg dstin) z) (hz : z + imm = k) (hk : k + 32 ≤ len s₀)
    (hfree : base ≠ .x 0 ∧ base ≠ .x 30)
    (next : ∀ s', Filling s₀ (C ∪ Set.Ico k (k + 32)) s' →
      Points s'.reg base (s₀.reg dstin) k → Frame [base] s.reg s'.reg → Ends code (pc + 1) s' Q) :
    Ends code pc s Q := by
  have hstored := h.store (hbase.value hz) hk h.byteOf_pair
  have hmoved : s.reg base + BitVec.ofInt 64 imm = ptrAdd (s₀.reg dstin) k := hbase.value hz
  refine Ends.op hline (next _ (hstored.setReg _ hfree) ?_ (frame_setReg _ base _))
  exact points_natCast.mpr ((State.reg_setReg_self ..).trans hmoved)

/-- `dc zva` on an aligned address, when it clears 64 bytes and the fill byte is zero. -/
theorem dcZva {base : Reg} (hline : code[pc]? = some (.op (.dcZva base))) (h : Filling s₀ C s)
    (hbase : Points s.reg base (s₀.reg dstin) k) (haligned : (s.reg base).toNat % 64 = 0)
    (hblock : zvaBytes s₀.dczid = 64) (hzero : fill s₀ = 0) (hk : k + 64 ≤ len s₀)
    (next : ∀ mem trace, Filling s₀ (C ∪ Set.Ico k (k + 64)) { s with mem, trace } →
      Ends code (pc + 1) { s with mem, trace } Q) :
    Ends code pc s Q := by
  have haddr : s.reg base - BitVec.ofNat 64 ((s.reg base).toNat % 64) = ptrAdd (s₀.reg dstin) k := by
    rw [haligned, ← points_natCast.mp hbase]
    exact BitVec.sub_zero _
  have hbytes : ∀ i < 64, byteOf (BitVec.zero (8 * 64)) i = fill s₀ := by
    intro i _
    rw [hzero, byteOf_zero]
  have hstored := h.store haddr hk hbytes
  refine Ends.op hline ?_
  rw [exec, h.dczid, hblock]
  exact next _ _ hstored

end Rules

/-! ## Up to 96 bytes -/

/-- The state once `q0` and the end pointer are computed. -/
structure Entered (s₀ s : State) : Prop where
  filling : Filling s₀ ∅ s
  hdstend : Points s.reg dstend (s₀.reg dstin) (len s₀)
  hcount : s.reg count = s₀.reg count
  hval : s.reg valw = s₀.reg valw

/-- Every byte of `x1` is the fill byte, once `q0` has been moved there. -/
structure Widened (s₀ s : State) : Prop where
  filling : Filling s₀ ∅ s
  hdstend : Points s.reg dstend (s₀.reg dstin) (len s₀)
  hcount : s.reg count = s₀.reg count
  hbytes : ∀ i < 8, byteOf (s.reg val) i = fill s₀

section Blocks

variable {s₀ s : State}

theorem Entered.setFlags (h : Entered s₀ s) (flags : Flags) : Entered s₀ (s.setFlags flags) :=
  { h with filling := h.filling.setFlags flags }

theorem Entered.movD0 (h : Entered s₀ s) : Widened s₀ (exec (.movD0 val q0) s) where
  filling := h.filling.setReg _ (by decide)
  hdstend := h.hdstend.frame (frame_setReg s val _) (by decide)
  hcount := h.hcount
  hbytes := by
    intro i hi
    have hlow : byteOf ((s.vec q0).setWidth 64) i = byteOf (s.vec q0) i :=
      byteOf_setWidth _ (by omega)
    rw [exec, State.reg_setReg_self, hlow, h.filling.lanes, byteOf_replicate16B _ (by omega)]

theorem bit_count (h : s.reg count = s₀.reg count) (bit : ℕ) :
    (s.reg count).getLsbD bit = decide (len s₀ / 2 ^ bit % 2 = 1) := by
  rw [h, getLsbD_eq_decide, len]

/-- 8 to 15 bytes, 4 to 7 bytes: the first and the last `n`. -/
theorem ends_twoWords {pc n : ℕ}
    (hlines : code[pc]? = some (.op (.store n val (.off dstin 0))) ∧
      code[pc + 1]? = some (.op (.store n val (.off dstend (-n)))) ∧ code[pc + 2]? = some .ret)
    (h : Widened s₀ s) (hn : n ≤ 8) (hlo : n ≤ len s₀) (hhi : len s₀ ≤ 2 * n) :
    Ends code pc s (Post s₀) := by
  obtain ⟨hfirst, hlast, hret⟩ := hlines
  have hword : ∀ i < n, byteOf (s.reg val) i = fill s₀ := fun i hi => h.hbytes i (by omega)
  refine store (k := 0) hfirst h.filling hword h.filling.hdstin rfl (by omega)
    fun m₁ tr₁ c₁ => ?_
  refine store (k := len s₀ - n) hlast c₁ hword h.hdstend (by omega) (by omega)
    fun m₂ tr₂ c₂ => ?_
  refine c₂.ends hret ?_
  intro i (hi : i < len s₀)
  simp only [Set.mem_union, Set.mem_Ico, Set.mem_empty_iff_false, false_or]
  omega

/-- 0 to 3 bytes: the first byte, and the last two when there are that many. -/
theorem ends_small2 (h : Widened s₀ s) (hhi : len s₀ ≤ 3) :
    Ends code (target code .small2) s (Post s₀) := by
  refine .label rfl (.cbz rfl (fun hzero => ?_) fun hpos => ?_)
  · have hlen : len s₀ = 0 := by rw [len, ← h.hcount, hzero]; rfl
    refine .label rfl (h.filling.ends rfl ?_)
    intro i (hi : i < len s₀)
    omega
  have hlen : 0 < len s₀ := by
    rw [Nat.pos_iff_ne_zero, len, ← h.hcount]
    exact fun hz => hpos (BitVec.eq_of_toNat_eq hz)
  have hbyte : ∀ n ≤ 8, ∀ i < n, byteOf (s.reg val) i = fill s₀ :=
    fun n hn i hi => h.hbytes i (by omega)
  refine store (k := 0) rfl h.filling (hbyte 1 (by omega)) h.filling.hdstin rfl (by omega)
    fun m₁ tr₁ c₁ => ?_
  refine .tbz rfl (fun hbit => ?_) fun hbit => ?_ <;> rw [bit_count h.hcount] at hbit <;>
    simp only [decide_eq_true_eq, decide_eq_false_iff_not] at hbit
  · refine .label rfl (c₁.ends rfl ?_)
    intro i (hi : i < len s₀)
    simp only [Set.mem_union, Set.mem_Ico, Set.mem_empty_iff_false, false_or]
    omega
  · refine store (k := len s₀ - 2) rfl c₁ (hbyte 2 (by omega)) h.hdstend (by omega) (by omega)
      fun m₂ tr₂ c₂ => ?_
    refine .label rfl (c₂.ends rfl ?_)
    intro i (hi : i < len s₀)
    simp only [Set.mem_union, Set.mem_Ico, Set.mem_empty_iff_false, false_or]
    omega

/-- Fewer than 16 bytes: the bits of the count choose the size class. -/
theorem ends_upTo15 (h : Widened s₀ s) (hhi : len s₀ < 16) : Ends code 8 s (Post s₀) := by
  refine .tbz rfl (fun hbit => ?_) fun hbit => ?_ <;> rw [bit_count h.hcount] at hbit <;>
    simp only [decide_eq_true_eq, decide_eq_false_iff_not] at hbit
  · refine .label rfl (.tbz rfl (fun hbit' => ?_) fun hbit' => ?_) <;>
      rw [bit_count h.hcount] at hbit' <;>
      simp only [decide_eq_true_eq, decide_eq_false_iff_not] at hbit'
    · exact ends_small2 h (by omega)
    · exact ends_twoWords (n := 4) ⟨rfl, rfl, rfl⟩ h (by omega) (by omega) (by omega)
  · exact ends_twoWords (n := 8) ⟨rfl, rfl, rfl⟩ h (by omega) (by omega) (by omega)

/-- 16 to 96 bytes: up to 64 from the start, up to 32 from the end. -/
theorem ends_set_medium (h : Entered s₀ s) (hlo : 16 ≤ len s₀) (hhi : len s₀ ≤ 96) :
    Ends code (target code .set_medium) s (Post s₀) := by
  refine .label rfl ?_
  refine strQ (k := 0) rfl h.filling h.filling.hdstin rfl (by omega) fun m₁ tr₁ c₁ => ?_
  -- bit 6 of the count: 64 to 96 bytes, or fewer
  refine .tbnz rfl (fun hbit => ?_) fun hbit => ?_ <;> rw [bit_count h.hcount] at hbit <;>
    simp only [decide_eq_true_eq, decide_eq_false_iff_not] at hbit
  · refine .label rfl ?_
    refine strQ (k := 16) rfl c₁ c₁.hdstin rfl (by omega) fun m₂ tr₂ c₂ => ?_
    refine stpQ (k := 32) rfl c₂ c₂.hdstin rfl (by omega) fun m₃ tr₃ c₃ => ?_
    refine stpQ (k := len s₀ - 32) rfl c₃ h.hdstend (by omega) (by omega) fun m₄ tr₄ c₄ => ?_
    refine c₄.ends rfl ?_
    intro i (hi : i < len s₀)
    simp only [Set.mem_union, Set.mem_Ico, Set.mem_empty_iff_false, false_or]
    omega
  refine strQ (k := len s₀ - 16) rfl c₁ h.hdstend (by omega) (by omega) fun m₂ tr₂ c₂ => ?_
  refine .tbz rfl (fun hbit' => ?_) fun hbit' => ?_ <;> rw [bit_count h.hcount] at hbit' <;>
    simp only [decide_eq_true_eq, decide_eq_false_iff_not] at hbit'
  · refine .label rfl (c₂.ends rfl ?_)
    intro i (hi : i < len s₀)
    simp only [Set.mem_union, Set.mem_Ico, Set.mem_empty_iff_false, false_or]
    omega
  · refine strQ (k := 16) rfl c₂ c₂.hdstin rfl (by omega) fun m₃ tr₃ c₃ => ?_
    refine strQ (k := len s₀ - 32) rfl c₃ h.hdstend (by omega) (by omega) fun m₄ tr₄ c₄ => ?_
    refine .label rfl (c₄.ends rfl ?_)
    intro i (hi : i < len s₀)
    simp only [Set.mem_union, Set.mem_Ico, Set.mem_empty_iff_false, false_or]
    omega

end Blocks

end Mytilus.Str.MemsetAsm
